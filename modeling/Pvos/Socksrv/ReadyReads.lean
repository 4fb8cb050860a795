import Pvos.Socksrv.PollSet

/-!
# Reads from clients that are ready

The loop that serves examines the vector behind the block that accepts.  The
entry of a new client was not part of the last `poll`; its `revents` is what
the stack held.

A history here is what `poll` reported and the descriptors from which
`read_data_from_client` read.
-/

namespace Pvos.Socksrv

open Pvos.Support

/-! ## Calls of a pass -/

/-- What `poll` reports as readable, and the calls of
`read_data_from_client`. -/
inductive ReadEvent
  | polled (ready : List ℤ)
  | reads (fd : ℤ)
  deriving DecidableEq

/-- The descriptors of the readable entries. -/
def readyFds (clients : List Pollfd) : List ℤ :=
  (clients.filter Pollfd.readable).map Pollfd.fd

/-- The argument of the call in the `for` loop. -/
def servedFd (clients : List Pollfd) : Option ℤ :=
  (firstReadable clients clients.length 2).bind fun i =>
    clients[i]?.map Pollfd.fd

/-- What a pass shows: a `poll`, and at most one call. -/
def passReads (s : Server) (input : PassInput) : List ReadEvent :=
  match input.poll with
  | none => []
  | some revents =>
      let s := { s with clients := polled s.clients revents }
      .polled (readyFds s.clients) ::
        match handleStdin s input with
        | some _ => []
        | none =>
            match acceptClient s input with
            | none => []
            | some (s, _) => (servedFd s.clients).toList.map .reads

/-- The passes that go on, as far as `ok` admits them. -/
def readsSystem (ok : Server → PassInput → Prop) : System Server ReadEvent where
  init := ServerInit
  step s es s' := ∃ input : PassInput, input.accept ∉ s.openFds ∧ ok s input ∧
    (∃ served, serverPass s input = (.goes s', served)) ∧
    es = passReads s input

/-- Every call is made on a descriptor that the `poll` in front of it has
reported; `ready` is what the last one has reported. -/
def ReadsFrom : List ℤ → List ReadEvent → Prop
  | _, [] => True
  | _, .polled ready :: tr => ReadsFrom ready tr
  | ready, .reads fd :: tr => fd ∈ ready ∧ ReadsFrom ready tr

/-- Clients are read only when they are ready. -/
def ReadsReady (tr : List ReadEvent) : Prop :=
  ReadsFrom [] tr

/-- `poll` has reported a connection that `accept` takes. -/
def Accepts (s : Server) (input : PassInput) (revents : ℕ → ℕ) : Prop :=
  handleStdin { s with clients := polled s.clients revents } input = none ∧
    readableAt (polled s.clients revents) 1 = true ∧ input.accept ≠ -1

/-- Where a client is accepted, the indeterminate `revents` of its entry has no
`POLLIN`, or `poll` has reported a client in front of it. -/
def NewClientWaits (s : Server) (input : PassInput) : Prop :=
  ∀ revents, input.poll = some revents → Accepts s input revents →
    input.newRevents &&& pollin = 0 ∨
      ∃ i, 2 ≤ i ∧ readableAt (polled s.clients revents) i = true

/-! ## The loop that serves -/

section Loop

variable {clients : List Pollfd}

theorem firstReadable_some {todo i j : ℕ}
    (h : firstReadable clients todo i = some j) :
    readableAt clients j = true ∧
      ∀ k, i ≤ k → k < j → readableAt clients k = false := by
  induction todo generalizing i with
  | zero => simp [firstReadable] at h
  | succ todo ih =>
      simp only [firstReadable] at h
      split at h
      next => simp at h
      next =>
        split at h
        next hreadable =>
          obtain rfl := Option.some.inj h
          exact ⟨hreadable, fun k hle hlt => by omega⟩
        next hnot =>
          obtain ⟨hj, hbefore⟩ := ih h
          refine ⟨hj, fun k hle hlt => ?_⟩
          rcases Nat.eq_or_lt_of_le hle with rfl | hgt
          · exact Bool.eq_false_of_not_eq_true hnot
          · exact hbefore k hgt hlt

theorem readableAt_eq_true {i : ℕ} :
    readableAt clients i = true ↔
      ∃ c, clients[i]? = some c ∧ c.readable = true := by
  unfold readableAt
  cases clients[i]? <;> simp

theorem firstReadable_none {todo i : ℕ} (hlen : clients.length ≤ i + todo)
    (h : firstReadable clients todo i = none) :
    ∀ k, i ≤ k → readableAt clients k = false := by
  have hbehind : ∀ k, clients.length ≤ k → readableAt clients k = false := by
    intro k hk
    rw [readableAt, List.getElem?_eq_none hk]
    rfl
  induction todo generalizing i with
  | zero => exact fun k hk => hbehind k (by omega)
  | succ todo ih =>
      simp only [firstReadable] at h
      split at h
      next hend => exact fun k hk => hbehind k (by omega)
      next =>
        split at h
        next => simp at h
        next hnot =>
          intro k hk
          rcases Nat.eq_or_lt_of_le hk with rfl | hgt
          · exact Bool.eq_false_of_not_eq_true hnot
          · exact ih (by omega) h k hgt

/-- The call is made for the first readable entry behind the first two. -/
theorem servedFd_some {fd : ℤ} (h : servedFd clients = some fd) :
    ∃ i c, 2 ≤ i ∧ clients[i]? = some c ∧ c.readable = true ∧ c.fd = fd ∧
      ∀ k, 2 ≤ k → k < i → readableAt clients k = false := by
  obtain ⟨i, hfirst, hi⟩ := Option.bind_eq_some_iff.mp h
  obtain ⟨hreadable, hbefore⟩ := firstReadable_some hfirst
  obtain ⟨c, hc, hcr⟩ := readableAt_eq_true.mp hreadable
  rw [hc, Option.map_some, Option.some.injEq] at hi
  exact ⟨i, c, firstReadable_ge hfirst, hc, hcr, hi, hbefore⟩

theorem servedFd_none (h : servedFd clients = none) {k : ℕ} (hk : 2 ≤ k) :
    readableAt clients k = false := by
  have hnone : firstReadable clients clients.length 2 = none := by
    by_contra hne
    obtain ⟨i, hfirst⟩ := Option.ne_none_iff_exists'.mp hne
    obtain ⟨c, hc, -⟩ := readableAt_eq_true.mp (firstReadable_some hfirst).1
    simp [servedFd, hfirst, hc] at h
  exact firstReadable_none (Nat.le_add_left _ _) hnone k hk

/-- The pass of the model makes the call. -/
theorem serveClients_eq (s : Server) (input : PassInput) :
    (serveClients s input).2 =
      match servedFd s.clients with
      | none => []
      | some fd => servedEvents fd
          (readDataFromClient s.lBuf input.currentNum input.read) := by
  unfold serveClients servedFd
  cases firstReadable s.clients s.clients.length 2 with
  | none => rfl
  | some i => cases hc : s.clients[i]? <;> simp [hc]

end Loop

/-! ## One pass -/

section Pass

variable {s : Server} {input : PassInput} {revents : ℕ → ℕ}

theorem mem_readyFds {clients : List Pollfd} {i : ℕ} {c : Pollfd}
    (hc : clients[i]? = some c) (hreadable : c.readable = true) :
    c.fd ∈ readyFds clients :=
  List.mem_map_of_mem
    (List.mem_filter.mpr ⟨List.mem_of_getElem? hc, hreadable⟩)

/-- Without a new entry the loop examines what `poll` has filled in. -/
theorem readsReady_polled (clients : List Pollfd) :
    ReadsFrom (readyFds clients) ((servedFd clients).toList.map .reads) := by
  cases hserved : servedFd clients with
  | none => trivial
  | some fd =>
      obtain ⟨i, c, -, hc, hreadable, rfl, -⟩ := servedFd_some hserved
      exact ⟨mem_readyFds hc hreadable, trivial⟩

/-- The call behind an `accept`: the new entry is examined last. -/
theorem readsReady_accepted {clients : List Pollfd} {new : Pollfd}
    (hnew : new.fd ∉ readyFds clients) (hlen : 2 ≤ clients.length) :
    ReadsFrom (readyFds clients)
        ((servedFd (clients ++ [new])).toList.map .reads) ↔
      new.readable = false ∨ ∃ i, 2 ≤ i ∧ readableAt clients i = true := by
  have hold : ∀ {k : ℕ} {c : Pollfd}, clients[k]? = some c →
      (clients ++ [new])[k]? = some c := by
    intro k c hk
    obtain ⟨hlt, -⟩ := List.getElem?_eq_some_iff.mp hk
    rwa [List.getElem?_append_left hlt]
  cases hserved : servedFd (clients ++ [new]) with
  | none =>
      refine iff_of_true trivial (Or.inl ?_)
      have hlast := servedFd_none hserved hlen
      by_contra hreadable
      refine Bool.false_ne_true (hlast.symm.trans ?_)
      exact readableAt_eq_true.mpr
        ⟨new, by simp, Bool.eq_true_of_not_eq_false hreadable⟩
  | some fd =>
      obtain ⟨i, c, hi, hc, hreadable, rfl, hbefore⟩ := servedFd_some hserved
      rcases Nat.lt_or_ge i clients.length with hlt | hge
      · rw [List.getElem?_append_left hlt] at hc
        exact iff_of_true ⟨mem_readyFds hc hreadable, trivial⟩
          (Or.inr ⟨i, hi, readableAt_eq_true.mpr ⟨c, hc, hreadable⟩⟩)
      · -- the entry served is the new one, and no other one is readable
        rw [List.getElem?_append_right hge] at hc
        obtain ⟨-, rfl⟩ : i - clients.length = 0 ∧ new = c := by
          simpa [List.getElem?_cons] using hc
        refine iff_of_false (fun h => hnew h.1) ?_
        rintro (hnot | ⟨k, hk, hkr⟩)
        · exact Bool.false_ne_true (hnot.symm.trans hreadable)
        · obtain ⟨c, hkc, hcr⟩ := readableAt_eq_true.mp hkr
          obtain ⟨hklt, -⟩ := List.getElem?_eq_some_iff.mp hkc
          have hfalse := hbefore k hk (by omega)
          rw [readableAt_eq_true.mpr ⟨c, hold hkc, hcr⟩] at hfalse
          exact Bool.noConfusion hfalse

theorem Pollfd.readable_eq_false {c : Pollfd} :
    c.readable = false ↔ c.revents &&& pollin = 0 := by
  simp [Pollfd.readable]

/-- A pass reads only from a client that is ready if and only if a new client
waits. -/
theorem readsReady_pass_iff {tr : List ServerEvent} {conns : List ℤ}
    (hinv : PollSetInv tr s conns) (hnew : input.accept ∉ s.openFds) :
    ReadsReady (passReads s input) ↔ NewClientWaits s input := by
  unfold passReads NewClientWaits
  cases hpoll : input.poll with
  | none => simp [ReadsReady, ReadsFrom]
  | some revents =>
      have hfds := (polled_fds s.clients revents).trans hinv.fds
      have hlen : 2 ≤ (polled s.clients revents).length := by
        have hlength := congrArg List.length hfds
        rw [List.length_map] at hlength
        simp [hlength]
      have hfresh : input.accept ∉ readyFds (polled s.clients revents) := by
        intro hmem
        have hin : input.accept ∈ (polled s.clients revents).map Pollfd.fd :=
          ((List.filter_sublist).map _).subset hmem
        rw [hfds, List.mem_cons, List.mem_cons] at hin
        rcases hin with h0 | hlisten | hconn
        · exact hnew (h0 ▸ hinv.stdin_open)
        · exact hnew (hlisten ▸ hinv.listen_open)
        · exact hnew (hinv.conns_open _ hconn)
      simp only [Option.some.injEq, forall_eq', Accepts, ReadsReady, ReadsFrom]
      cases hstdin : handleStdin
        { s with clients := polled s.clients revents } input with
      | some stops => simp [ReadsFrom]
      | none =>
          by_cases hlisten : readableAt (polled s.clients revents) 1 = true
          · by_cases haccept : input.accept = -1
            · simp [acceptClient, hlisten, haccept, ReadsFrom]
            · have hiff := @readsReady_accepted (polled s.clients revents)
                ⟨input.accept, pollin, input.newRevents⟩ hfresh hlen
              rw [Pollfd.readable_eq_false] at hiff
              simpa [acceptClient, hlisten, haccept] using hiff
          · simp [acceptClient, hlisten, readsReady_polled]

end Pass

/-! ## Runs -/

theorem readsFrom_append {ready : List ℤ} {tr tr' : List ReadEvent}
    (h : ReadsFrom ready tr) (h' : ∀ ready', ReadsFrom ready' tr') :
    ReadsFrom ready (tr ++ tr') := by
  induction tr generalizing ready with
  | nil => exact h' ready
  | cons e tr ih =>
      cases e with
      | polled now => exact ih h
      | reads fd => exact ⟨h.1, ih h.2⟩

/-- A pass polls before it reads. -/
theorem readsFrom_passReads {s : Server} {input : PassInput}
    (h : ReadsReady (passReads s input)) (ready : List ℤ) :
    ReadsFrom ready (passReads s input) := by
  unfold ReadsReady passReads at *
  cases hpoll : input.poll with
  | none => trivial
  | some revents =>
      rw [hpoll] at h
      exact h

/-- The states are those of the server. -/
theorem serverExec_of_reads {ok : Server → PassInput → Prop}
    {tr : List ReadEvent} {s : Server} (h : (readsSystem ok).Exec tr s) :
    ∃ tr', serverSystem.Exec tr' s := by
  refine h.invariant (I := fun _ s => ∃ tr', serverSystem.Exec tr' s) ?_ ?_
  · exact fun s hs => ⟨[], System.Exec.init hs⟩
  · rintro tr s es s' ⟨tr', hexec⟩ ⟨input, hnew, -, ⟨served, hpass⟩, -⟩
    exact ⟨_, hexec.step ⟨input, hnew, hpass⟩⟩

theorem readsReady_exec {tr : List ReadEvent} {s : Server}
    (h : (readsSystem NewClientWaits).Exec tr s) : ReadsReady tr := by
  have hboth : ReadsReady tr ∧ ∃ tr', serverSystem.Exec tr' s := by
    refine h.invariant
      (I := fun tr s => ReadsReady tr ∧ ∃ tr', serverSystem.Exec tr' s) ?_ ?_
    · exact fun s hs => ⟨trivial, [], System.Exec.init hs⟩
    · rintro tr s es s' ⟨hready, tr', hexec⟩
        ⟨input, hnew, hwaits, ⟨served, hpass⟩, rfl⟩
      obtain ⟨conns, hinv⟩ := pollSetInv_exec hexec
      have hreads := (readsReady_pass_iff hinv hnew).mpr hwaits
      exact ⟨readsFrom_append hready (readsFrom_passReads hreads), _,
        hexec.step ⟨input, hnew, hpass⟩⟩
  exact hboth.1

/-! ## Result -/

/-- In every reachable state a pass reads only from a client that its `poll`
has reported readable if and only if a new client waits; a run of such passes
reads from no other clients. -/
theorem reads_only_ready_iff (tr : List ReadEvent) (s : Server) :
    ((readsSystem fun _ _ => True).Exec tr s →
        ∀ input : PassInput, input.accept ∉ s.openFds →
          (ReadsReady (passReads s input) ↔ NewClientWaits s input)) ∧
      ((readsSystem NewClientWaits).Exec tr s → ReadsReady tr) := by
  refine ⟨?_, readsReady_exec⟩
  intro hexec input hnew
  obtain ⟨tr', hserver⟩ := serverExec_of_reads hexec
  obtain ⟨conns, hinv⟩ := pollSetInv_exec hserver
  exact readsReady_pass_iff hinv hnew

/-- Client 4 is accepted with a `revents` that has no `POLLIN`; it is read
after the next `poll`. -/
theorem reads_only_ready_iff_quiet :
    ∃ tr s, (readsSystem NewClientWaits).Exec tr s ∧
      tr = [.polled [3], .polled [4], .reads 4] ∧ ReadsReady tr := by
  have hinit : (readsSystem NewClientWaits).init listening :=
    ⟨⟨0, 0, rfl⟩, rfl, by decide, by decide⟩
  have hexec : (readsSystem NewClientWaits).Exec _ _ :=
    ((System.Exec.init hinit).step
      ⟨passOf [1] 4, by decide, fun _ _ _ => Or.inl rfl, ⟨_, rfl⟩, rfl⟩).step
      ⟨passOf [2] 5, by decide, fun _ _ _ => Or.inl rfl, ⟨_, rfl⟩, rfl⟩
  exact ⟨_, _, hexec, rfl, (reads_only_ready_iff _ _).2 hexec⟩

/-- Client 4 is accepted, and the indeterminate `revents` of its entry has
`POLLIN`: the server reads from it before any `poll` has reported it. -/
theorem new_client_read_unpolled :
    ∃ tr s, (readsSystem fun _ _ => True).Exec tr s ∧
      tr = [.polled [3], .reads 4] ∧ ¬ ReadsReady tr := by
  have hinit : (readsSystem fun _ _ => True).init listening :=
    ⟨⟨0, 0, rfl⟩, rfl, by decide, by decide⟩
  have hexec : (readsSystem fun _ _ => True).Exec _ _ :=
    (System.Exec.init hinit).step
      ⟨{ passOf [1] 4 with newRevents := 1 }, by decide, trivial, ⟨_, rfl⟩, rfl⟩
  exact ⟨_, _, hexec, rfl, fun h => absurd h.1 (by decide)⟩

end Pvos.Socksrv
