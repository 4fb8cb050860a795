import Pvos.Socksrv.Mplex

/-!
# The poll set is the set of live connections

The invariant relates the vector `clients` to the history: behind stdin and the
listening socket it holds the descriptors that were accepted and not closed,
each one once.  It is kept by the block that accepts and by the loop that
serves, so the entry erased by its index is the one of the closed descriptor.
-/

namespace Pvos.Socksrv

open Pvos.Support Pvos.Checksum

/-! ## Histories -/

def liveStep (live : Finset ℤ) : ServerEvent → Finset ℤ
  | .accepted fd => insert fd live
  | .closed fd => live.erase fd
  | .wrote _ _ => live

/-- The descriptors accepted and not yet closed. -/
def liveFds (tr : List ServerEvent) : Finset ℤ :=
  tr.foldl liveStep ∅

def acceptedIn : List ServerEvent → List ℤ :=
  List.filterMap fun
    | .accepted fd => some fd
    | _ => none

def closedIn : List ServerEvent → List ℤ :=
  List.filterMap fun
    | .closed fd => some fd
    | _ => none

/-- The descriptors of the vector. -/
def Server.fds (s : Server) : List ℤ :=
  s.clients.map Pollfd.fd

theorem acceptedIn_append (tr tr' : List ServerEvent) :
    acceptedIn (tr ++ tr') = acceptedIn tr ++ acceptedIn tr' := by
  simp [acceptedIn]

theorem closedIn_append (tr tr' : List ServerEvent) :
    closedIn (tr ++ tr') = closedIn tr ++ closedIn tr' := by
  simp [closedIn]

theorem liveFds_append (tr tr' : List ServerEvent) :
    liveFds (tr ++ tr') = tr'.foldl liveStep (liveFds tr) := by
  simp [liveFds]

/-! ## What the helper returns -/

/-- The scan of a buffer ends without the guard of the loop. -/
theorem scan_done (lBuf : Memory) (currentNum : ℤ) :
    ∃ s, scan lBuf lBufSize currentNum = .done s := by
  obtain ⟨s, hscan, -⟩ :=
    scanLoop_done (length_cstring_start lBuf lBufSize currentNum)
  exact ⟨s, hscan⟩

theorem cstring_replyText (lBuf : Memory) (correct : Bool) :
    (lBuf.sprintf 0 (replyText correct)).cstring lBufSize 0 =
      replyText correct := by
  have hne : (replyText correct).all (· != 0) = true := by
    cases correct <;> rfl
  apply Memory.cstring_sprintf_self
  · intro b hb
    simpa using List.all_eq_true.mp hne b hb
  · cases correct <;> decide

/-- A buffer that is no close request is answered with the verdict on it and
zeroed. -/
theorem serveBuffer_of_scan {lBuf : Memory} {currentNum : ℤ} {s : ScanState}
    (hclose : isClose lBuf = false)
    (hscan : scan lBuf lBufSize currentNum = .done s) :
    serveBuffer lBuf currentNum =
      ⟨0, false, some (replyText s.correct),
        (lBuf.sprintf 0 (replyText s.correct)).memset 0 0 lBufSize⟩ := by
  simp only [serveBuffer, hclose, hscan, cstring_replyText]
  simp

theorem serveBuffer_cases (lBuf : Memory) (currentNum : ℤ) :
    (∃ buf, serveBuffer lBuf currentNum = ⟨-1, true, none, buf⟩) ∨
      ∃ text buf, serveBuffer lBuf currentNum = ⟨0, false, some text, buf⟩ := by
  cases hclose : isClose lBuf with
  | true => exact Or.inl ⟨lBuf, by rw [serveBuffer, if_pos hclose]⟩
  | false =>
      obtain ⟨s, hscan⟩ := scan_done lBuf currentNum
      exact Or.inr ⟨_, _, serveBuffer_of_scan hclose hscan⟩

/-- A call returns a negative value when it has closed the descriptor, and
replies otherwise. -/
theorem readDataFromClient_cases (lBuf : Memory) (currentNum : ℤ)
    (result : ReadResult) :
    (∃ buf, readDataFromClient lBuf currentNum result =
        ⟨-1, true, none, buf⟩) ∨
      ∃ text buf, readDataFromClient lBuf currentNum result =
        ⟨0, false, some text, buf⟩ := by
  cases result with
  | failed => exact serveBuffer_cases lBuf currentNum
  | data bytes =>
      cases bytes with
      | nil => exact Or.inl ⟨lBuf, rfl⟩
      | cons b bytes =>
          exact serveBuffer_cases (lBuf.write 0 (b :: bytes)) currentNum

/-! ## The blocks of a pass -/

theorem polled_fds (clients : List Pollfd) (revents : ℕ → ℕ) :
    (polled clients revents).map Pollfd.fd = clients.map Pollfd.fd := by
  apply List.ext_getElem
  · simp [polled]
  · intro i _ _
    simp [polled]

theorem firstReadable_ge {clients : List Pollfd} {todo i j : ℕ}
    (h : firstReadable clients todo i = some j) : i ≤ j := by
  induction todo generalizing i with
  | zero => simp [firstReadable] at h
  | succ todo ih =>
      simp only [firstReadable] at h
      split at h
      next => simp at h
      next =>
        split at h
        next => exact (Option.some.inj h).le
        next => exact (Nat.le_succ i).trans (ih h)

/-- What the block that accepts does. -/
theorem acceptClient_cases {s s' : Server} {input : PassInput}
    {es : List ServerEvent} (h : acceptClient s input = some (s', es)) :
    (s' = s ∧ es = []) ∨
      (s' = { s with
          clients := s.clients ++ [⟨input.accept, pollin, input.newRevents⟩]
          openFds := insert input.accept s.openFds } ∧
        es = [.accepted input.accept]) := by
  unfold acceptClient at h
  split at h
  next =>
    split at h
    next => simp at h
    next =>
      obtain ⟨rfl, rfl⟩ := Prod.mk.inj (Option.some.inj h)
      exact Or.inr ⟨rfl, rfl⟩
  next =>
    obtain ⟨rfl, rfl⟩ := Prod.mk.inj (Option.some.inj h)
    exact Or.inl ⟨rfl, rfl⟩

/-- The loop that serves closes at most one descriptor, and erases the entry it
has found it in. -/
inductive ServeStep (s : Server) : Server → List ServerEvent → Prop
  | keeps {lBuf : Memory} {es : List ServerEvent}
      (hes : ∀ e ∈ es, ∃ fd text, e = .wrote fd text) :
      ServeStep s { s with lBuf := lBuf } es
  | closes {i : ℕ} {c : Pollfd} {lBuf : Memory} (hi : 2 ≤ i)
      (hc : s.clients[i]? = some c) :
      ServeStep s
        { s with
          clients := s.clients.eraseIdx i
          lBuf := lBuf
          openFds := s.openFds.erase c.fd }
        [.closed c.fd]

theorem serveClients_step (s : Server) (input : PassInput) :
    ServeStep s (serveClients s input).1 (serveClients s input).2 := by
  unfold serveClients
  cases hfirst : firstReadable s.clients s.clients.length 2 with
  | none => exact .keeps (by simp)
  | some i =>
      cases hc : s.clients[i]? with
      | none =>
          simp only [hc]
          exact .keeps (by simp)
      | some c =>
          simp only [hc]
          rcases readDataFromClient_cases s.lBuf input.currentNum input.read
            with ⟨buf, hserved⟩ | ⟨text, buf, hserved⟩
          · rw [hserved]
            exact .closes (firstReadable_ge hfirst) hc
          · rw [hserved]
            exact .keeps (by simp [servedEvents])

/-! ## The invariant -/

/-- `conns` are the descriptors behind stdin and the listening socket. -/
structure PollSetInv (tr : List ServerEvent) (s : Server) (conns : List ℤ) :
    Prop where
  fds : s.fds = 0 :: s.sockListen :: conns
  nodup : conns.Nodup
  live : ∀ fd, fd ∈ conns ↔ fd ∈ liveFds tr
  stdin_open : 0 ∈ s.openFds
  listen_open : s.sockListen ∈ s.openFds
  conns_open : ∀ fd ∈ conns, fd ∈ s.openFds
  ne_stdin : 0 ∉ conns
  ne_listen : s.sockListen ∉ conns

section Invariant

variable {tr es : List ServerEvent} {s s' : Server} {conns : List ℤ}

theorem pollSetInv_init (h : ServerInit s) : PollSetInv [] s [] := by
  obtain ⟨⟨r, r', hclients⟩, -, hstdin, hlisten⟩ := h
  exact ⟨by simp [Server.fds, hclients], List.nodup_nil, by simp [liveFds],
    hstdin, hlisten, by simp, by simp, by simp⟩

theorem PollSetInv.polled (h : PollSetInv tr s conns) (revents : ℕ → ℕ) :
    PollSetInv tr { s with clients := polled s.clients revents } conns :=
  ⟨(polled_fds s.clients revents).trans h.fds, h.nodup, h.live, h.stdin_open,
    h.listen_open, h.conns_open, h.ne_stdin, h.ne_listen⟩

theorem PollSetInv.accept (h : PollSetInv tr s conns) {input : PassInput}
    (hnew : input.accept ∉ s.openFds)
    (haccept : acceptClient s input = some (s', es)) :
    PollSetInv (tr ++ es) s' (conns ++ acceptedIn es) ∧ closedIn es = [] ∧
      s'.sockListen = s.sockListen := by
  rcases acceptClient_cases haccept with ⟨rfl, rfl⟩ | ⟨rfl, rfl⟩
  · rw [List.append_nil]
    refine ⟨?_, rfl, rfl⟩
    rw [show acceptedIn [] = [] from rfl, List.append_nil]
    exact h
  · have hfresh : input.accept ∉ conns := fun hmem =>
      hnew (h.conns_open _ hmem)
    refine ⟨⟨?_, ?_, ?_, ?_, ?_, ?_, ?_, ?_⟩, rfl, rfl⟩
    · have hfds := h.fds
      simp only [Server.fds] at hfds
      simp [Server.fds, hfds, acceptedIn]
    · exact List.nodup_append.mpr ⟨h.nodup, List.nodup_singleton _,
        fun fd hfd fd' hfd' heq =>
          hfresh (List.mem_singleton.mp hfd' ▸ heq ▸ hfd)⟩
    · intro fd
      simp [liveFds_append, liveStep, acceptedIn, h.live, or_comm]
    · exact Finset.mem_insert_of_mem h.stdin_open
    · exact Finset.mem_insert_of_mem h.listen_open
    · intro fd hfd
      rcases List.mem_append.mp hfd with hold | hlast
      · exact Finset.mem_insert_of_mem (h.conns_open fd hold)
      · rw [List.mem_singleton.mp hlast]
        exact Finset.mem_insert_self _ _
    · intro hmem
      rcases List.mem_append.mp hmem with hold | hlast
      · exact h.ne_stdin hold
      · exact hnew (List.mem_singleton.mp hlast ▸ h.stdin_open)
    · intro hmem
      rcases List.mem_append.mp hmem with hold | hlast
      · exact h.ne_listen hold
      · exact hnew (List.mem_singleton.mp hlast ▸ h.listen_open)

/-- An entry behind the first two is the one of a connection, and erasing it
takes that descriptor out. -/
theorem eraseIdx_conns {clients : List Pollfd} {first second : ℤ} {i : ℕ}
    {c : Pollfd} (hfds : clients.map Pollfd.fd = first :: second :: conns)
    (hnodup : conns.Nodup) (hi : 2 ≤ i) (hc : clients[i]? = some c) :
    c.fd ∈ conns ∧ (clients.eraseIdx i).map Pollfd.fd =
      first :: second :: conns.filter (· != c.fd) := by
  obtain ⟨j, rfl⟩ := Nat.exists_eq_add_of_le' hi
  have hget := congrArg (·[j + 2]?) hfds
  simp only [List.getElem?_map, hc, Option.map_some,
    List.getElem?_cons_succ] at hget
  obtain ⟨hj, hfd⟩ := List.getElem?_eq_some_iff.mp hget.symm
  refine ⟨hfd ▸ List.getElem_mem hj, ?_⟩
  rw [← List.eraseIdx_map, hfds, List.eraseIdx_cons_succ,
    List.eraseIdx_cons_succ, ← hfd, ← hnodup.erase_getElem j hj,
    hnodup.erase_eq_filter]

theorem closedIn_of_replies (h : ∀ e ∈ es, ∃ fd text, e = .wrote fd text) :
    acceptedIn es = [] ∧ closedIn es = [] ∧
      ∀ live, es.foldl liveStep live = live := by
  induction es with
  | nil => exact ⟨rfl, rfl, fun _ => rfl⟩
  | cons e es ih =>
      obtain ⟨fd, text, rfl⟩ := h e List.mem_cons_self
      exact ih fun e he => h e (List.mem_cons_of_mem _ he)

theorem PollSetInv.serve (h : PollSetInv tr s conns)
    (hstep : ServeStep s s' es) :
    PollSetInv (tr ++ es) s' (conns.filter (· ∉ closedIn es)) ∧
      acceptedIn es = [] ∧ s'.sockListen = s.sockListen ∧
      ∀ fd ∈ closedIn es, fd ∈ conns := by
  cases hstep with
  | keeps hes =>
      obtain ⟨haccepted, hclosed, hlive⟩ := closedIn_of_replies hes
      have hconns : conns.filter (· ∉ closedIn es) = conns := by
        simp [hclosed]
      rw [hconns]
      refine ⟨⟨h.fds, h.nodup, ?_, h.stdin_open, h.listen_open, h.conns_open,
        h.ne_stdin, h.ne_listen⟩, haccepted, rfl, by simp [hclosed]⟩
      intro fd
      rw [liveFds_append, hlive]
      exact h.live fd
  | @closes i c lBuf hi hc =>
      obtain ⟨hmem, herase⟩ := eraseIdx_conns h.fds h.nodup hi hc
      have hconns : conns.filter (· ∉ closedIn [.closed c.fd]) =
          conns.filter (· != c.fd) := by
        apply List.filter_congr
        intro fd _
        rw [Bool.eq_iff_iff]
        simp [closedIn]
      rw [hconns]
      refine ⟨⟨herase, h.nodup.filter _, ?_, ?_, ?_, ?_, ?_, ?_⟩, rfl, rfl,
        by simpa [closedIn] using hmem⟩
      · intro fd
        simp [liveFds_append, liveStep, h.live, and_comm]
      · exact Finset.mem_erase.mpr
          ⟨fun heq => h.ne_stdin (heq ▸ hmem), h.stdin_open⟩
      · exact Finset.mem_erase.mpr
          ⟨fun heq => h.ne_listen (heq ▸ hmem), h.listen_open⟩
      · intro fd hfd
        obtain ⟨hold, hne⟩ := List.mem_filter.mp hfd
        exact Finset.mem_erase.mpr ⟨by simpa using hne, h.conns_open fd hold⟩
      · exact fun hin => h.ne_stdin (List.mem_of_mem_filter hin)
      · exact fun hin => h.ne_listen (List.mem_of_mem_filter hin)

/-- A pass adds the descriptor accepted and takes out the one closed. -/
theorem PollSetInv.pass (h : PollSetInv tr s conns) {input : PassInput}
    (hnew : input.accept ∉ s.openFds)
    (hpass : serverPass s input = (.goes s', es)) :
    PollSetInv (tr ++ es) s'
        ((conns ++ acceptedIn es).filter (· ∉ closedIn es)) ∧
      s'.fds = (s.fds ++ acceptedIn es).filter (· ∉ closedIn es) := by
  unfold serverPass at hpass
  cases hpoll : input.poll with
  | none => simp [hpoll] at hpass
  | some revents =>
      simp only [hpoll] at hpass
      have hpolled := h.polled revents
      split at hpass
      next => simp at hpass
      next =>
        split at hpass
        next => simp at hpass
        next s₁ accepted haccept =>
          obtain ⟨hs', rfl⟩ := Prod.mk.inj hpass
          obtain rfl := PassEnd.goes.inj hs'
          obtain ⟨hinv₁, hnone, hlisten₁⟩ := hpolled.accept hnew haccept
          obtain ⟨hinv, hnoneAccepted, hlisten, hclosed⟩ :=
            hinv₁.serve (serveClients_step s₁ input)
          rw [acceptedIn_append, closedIn_append, hnone, hnoneAccepted,
            List.append_nil, List.nil_append, ← List.append_assoc]
          refine ⟨hinv, ?_⟩
          have hstdin := mt (hclosed 0) hinv₁.ne_stdin
          have hsock := mt (hclosed _) hinv₁.ne_listen
          rw [hinv.fds, h.fds, hlisten, hlisten₁]
          rw [hlisten₁] at hsock
          simp [hstdin, hsock]

end Invariant

theorem pollSetInv_exec {tr : List ServerEvent} {s : Server}
    (h : serverSystem.Exec tr s) : ∃ conns, PollSetInv tr s conns := by
  refine h.invariant (I := fun tr s => ∃ conns, PollSetInv tr s conns) ?_ ?_
  · exact fun s hs => ⟨[], pollSetInv_init hs⟩
  · rintro tr s es s' ⟨conns, hinv⟩ ⟨input, hnew, hpass⟩
    exact ⟨_, (hinv.pass hnew hpass).1⟩

/-! ## Result -/

/-- After every pass the vector holds stdin, the listening socket and the
descriptors accepted and not closed, each once; and a pass erases exactly the
descriptors that it closes. -/
theorem poll_set_live {tr : List ServerEvent} {s : Server}
    (h : serverSystem.Exec tr s) :
    (∃ conns, s.fds = 0 :: s.sockListen :: conns ∧ conns.Nodup ∧
        ∀ fd, fd ∈ conns ↔ fd ∈ liveFds tr) ∧
      ∀ es s', serverSystem.step s es s' →
        s'.fds = (s.fds ++ acceptedIn es).filter (· ∉ closedIn es) := by
  obtain ⟨conns, hinv⟩ := pollSetInv_exec h
  refine ⟨⟨conns, hinv.fds, hinv.nodup, hinv.live⟩, ?_⟩
  rintro es s' ⟨input, hnew, hpass⟩
  exact (hinv.pass hnew hpass).2

/-- A pass in which the entries of `ready` are readable, and each client read
is at the end of its stream. -/
def passOf (ready : List ℕ) (accept : ℤ) : PassInput where
  poll := some fun i => if i ∈ ready then 1 else 0
  stdin := none
  stdinBuf := fun _ => 0
  accept := accept
  newRevents := 0
  read := .data []
  currentNum := 0

def listening : Server where
  sockListen := 3
  clients := [⟨0, pollin, 0⟩, ⟨3, pollin, 0⟩]
  lBuf := fun _ => 0
  openFds := {0, 3}

/-- Client 4 is accepted; it ends while client 5 is accepted; its number is
used again. -/
theorem poll_set_live_reuse :
    ∃ tr s, serverSystem.Exec tr s ∧
      tr = [.accepted 4, .accepted 5, .closed 4, .accepted 4] ∧
      s.fds = [0, 3, 5, 4] ∧
      ∃ conns, s.fds = 0 :: s.sockListen :: conns ∧ conns.Nodup ∧
        ∀ fd, fd ∈ conns ↔ fd ∈ liveFds tr := by
  have hinit : serverSystem.init listening :=
    ⟨⟨0, 0, rfl⟩, rfl, by decide, by decide⟩
  have hexec : serverSystem.Exec _ _ :=
    (((System.Exec.init hinit).step ⟨passOf [1] 4, by decide, rfl⟩).step
      ⟨passOf [1, 2] 5, by decide, rfl⟩).step ⟨passOf [1] 4, by decide, rfl⟩
  exact ⟨_, _, hexec, rfl, rfl, (poll_set_live hexec).1⟩

end Pvos.Socksrv
