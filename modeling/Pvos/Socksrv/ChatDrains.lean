import Pvos.Socksrv.ChatVerdicts
import Pvos.Support.Interleaving
import Pvos.Support.Steps

/-!
# Every verdict can arrive

The multiplexing server never has to wait while one of its clients has sent
something or waits to be accepted.  So from every reachable state the server
and the clients can bring home the verdicts on all texts sent so far, without
another text being generated.

The rank counts the connections that wait, the clients with bytes that were not
read, and the bytes of the replies that were not displayed.
-/

namespace Pvos.Socksrv

open Pvos.Support Pvos.Checksum Pvos.Readline

section Drains

variable {P : Type*} [DecidableEq P] {pid : P → ℕ}
  {admits : List UInt8 → Text → Prop} {Q : P → List LineChoice → Prop}
  {tr : List (ChatEvent P)} {n : Chat P} {p : P}

/-! ## A pass is possible -/

omit [DecidableEq P] in
/-- `poll` reports a client that has sent something. -/
theorem readable_of_arrived (hpolled : n.Polled p)
    (harrived : n.arrived p = true) :
    ∃ i, 2 ≤ i ∧ n.revents i ≠ 0 ∧
      readableAt (polled n.server.clients n.revents) i = true := by
  obtain ⟨fd, hfd, hpeer⟩ := hpolled
  obtain ⟨j, hj⟩ := List.mem_iff_getElem?.mp hfd
  rw [List.getElem?_drop, Nat.add_comm, Server.fds, List.getElem?_map,
    Option.map_eq_some_iff] at hj
  obtain ⟨c, hc, rfl⟩ := hj
  have hrevents : n.revents (j + 2) = pollin := by
    simp [Chat.revents, hc, hpeer, harrived]
  refine ⟨j + 2, Nat.le_add_left 2 j, by rw [hrevents]; decide, ?_⟩
  refine readableAt_eq_true.mpr ⟨{ c with revents := pollin }, ?_,
    by simp [Pollfd.readable, pollin]⟩
  rw [polled, List.getElem?_mapIdx, hc, Option.map_some, hrevents]

omit [DecidableEq P] in
/-- What `poll` reports behind the first two entries belongs to a client that
has sent something. -/
theorem arrived_of_readable {i : ℕ} {c : Pollfd} (hi : 2 ≤ i)
    (hc : (polled n.server.clients n.revents)[i]? = some c)
    (hreadable : c.readable = true) :
    ∃ p, n.peer c.fd = some p ∧ n.arrived p = true := by
  obtain ⟨j, rfl⟩ := Nat.exists_eq_add_of_le' hi
  simp only [polled, List.getElem?_mapIdx, Option.map_eq_some_iff] at hc
  obtain ⟨c, hc, rfl⟩ := hc
  cases hpeer : n.peer c.fd with
  | none =>
      simp [Pollfd.readable, Chat.revents, hc, hpeer] at hreadable
  | some p =>
      refine ⟨p, rfl, ?_⟩
      by_contra hnot
      simp [Pollfd.readable, Chat.revents, hc, hpeer, hnot] at hreadable

/-- When something is reported, the server can make a pass: it reads only where
something has arrived. -/
theorem ChatInv.exists_pass (h : ChatInv pid Q tr n)
    (hready : ∃ i, n.revents i ≠ 0) :
    ∃ input server es, n.ServerSees input es ∧
      serverPass n.server input = (.goes server, es) := by
  obtain ⟨fd', hfd'⟩ :=
    Infinite.exists_notMem_finset (insert (-1) n.server.openFds)
  rw [Finset.mem_insert, not_or] at hfd'
  let input (read : ReadResult) : PassInput :=
    ⟨some n.revents, none, fun _ => 0, fd', 0, read, 0⟩
  obtain ⟨s₁, accepted, haccept⟩ : ∃ s₁ accepted, ∀ read,
      acceptClient { n.server with
        clients := polled n.server.clients n.revents } (input read) =
          some (s₁, accepted) := by
    cases hlisten : readableAt (polled n.server.clients n.revents) 1 with
    | false =>
        exact ⟨{ n.server with clients := polled n.server.clients n.revents },
          [], fun _ => by simp [acceptClient, hlisten]⟩
    | true =>
        exact ⟨{ n.server with
            clients := polled n.server.clients n.revents ++ [⟨fd', pollin, 0⟩]
            openFds := insert fd' n.server.openFds }, [.accepted fd'],
          fun _ => by simp [acceptClient, hlisten, input, hfd'.1]⟩
  obtain ⟨peer, hafter, hkept, -⟩ := h.accept hfd'.2 (haccept .failed)
  have hpass : ∀ read, serverPass n.server (input read) = _ ∧
      passReads n.server (input read) = _ :=
    fun read => serverPass_of_accept rfl rfl (haccept read)
  cases hserved : servedFd s₁.clients with
  | none =>
      obtain ⟨hgoes, hreads⟩ := hpass .failed
      rw [hserved] at hreads
      refine ⟨input .failed, _, _, ⟨rfl, hready, hfd'.2, hfd'.1, ?_⟩, hgoes⟩
      intro fd hfd
      simp [hreads] at hfd
  | some fd =>
      obtain ⟨i, c, hi, hc, hreadable, rfl, -⟩ := servedFd_some hserved
      have hold : (polled n.server.clients n.revents)[i]? = some c := by
        rcases acceptClient_cases (haccept .failed) with
          ⟨rfl, -⟩ | ⟨rfl, -⟩
        · exact hc
        · rcases Nat.lt_or_ge i
            (polled n.server.clients n.revents).length with hlt | hge
          · rwa [List.getElem?_append_left hlt] at hc
          · -- the entry of the new client is not readable
            rw [List.getElem?_append_right hge] at hc
            obtain ⟨-, rfl⟩ := by simpa [List.getElem?_cons] using hc
            simp [Pollfd.readable, input] at hreadable
      obtain ⟨p, hpeer, harrived⟩ := arrived_of_readable hi hold hreadable
      obtain ⟨hgoes, hreads⟩ := hpass (.data ((n.toServer p).take lBufSize))
      rw [hserved] at hreads
      refine ⟨_, _, _, ⟨rfl, hready, hfd'.2, hfd'.1, ?_⟩, hgoes⟩
      intro fd hfd
      obtain rfl : fd = c.fd := by simpa [hreads] using hfd
      refine ⟨p, ?_, harrived, rfl⟩
      rw [List.foldl_append, afterEvents_peer, hafter]
      exact hkept _ p hpeer

/-! ## The rank -/

variable [Fintype P]

/-- One for bytes that were not read. -/
def unread (bytes : List UInt8) : ℕ :=
  if bytes = [] then 0 else 1

/-- A reply has at most four bytes. -/
def Chat.rank (n : Chat P) : ℕ :=
  6 * (n.backlog.length + total unread n.toServer) +
    total List.length n.toClient

/-- The server accepts a client that waits, or answers one. -/
theorem ChatInv.exists_answer (h : ChatInv pid Q tr n)
    (hQ : Admission pid admits Q) (hpid : ∀ p, 1 ≤ pid p ∧ pid p ≤ pidMax)
    (hsome : n.backlog ≠ [] ∨ ∃ p, n.toServer p ≠ []) :
    ∃ n', ChatStep pid admits n [] n' ∧ n'.rank < n.rank := by
  have hreported : n.backlog = [] → ∃ i, 2 ≤ i ∧ n.revents i ≠ 0 ∧
      readableAt (polled n.server.clients n.revents) i = true := by
    intro hback
    obtain ⟨p, hp⟩ := hsome.resolve_left (not_not.mpr hback)
    have hinside : n.status p = .inside := by
      cases hstatus : n.status p with
      | outside => exact absurd (h.quiet p hstatus).1 hp
      | inside => rfl
      | left => exact absurd hstatus (h.stays p).1
    have hpolled := (h.known p hinside).resolve_left (by simp [hback])
    exact readable_of_arrived hpolled (by simp [Chat.arrived, hp])
  have hready : ∃ i, n.revents i ≠ 0 := by
    by_cases hback : n.backlog = []
    · obtain ⟨i, -, hi, -⟩ := hreported hback
      exact ⟨i, hi⟩
    · exact ⟨1, by simp [Chat.revents, hback, pollin]⟩
  obtain ⟨input, server, es, hsees, hpass⟩ := h.exists_pass hready
  obtain ⟨n₁, hinv, hread, hafter, hold, hback, hserver, hclient⟩ :=
    h.afterPass_eq hsees hpass
  refine ⟨_, .serverPass hsees hpass, ?_⟩
  rw [hafter]
  have htail : n₁.backlog.length ≤ n.backlog.length := by
    rw [hback, List.length_tail]
    exact Nat.sub_le _ _
  cases hserved : servedFd n₁.server.clients with
  | none =>
      have hwaits : n.backlog ≠ [] := by
        intro hnil
        obtain ⟨i, hi, -, hreadable⟩ := hreported hnil
        have hnot := servedFd_none hserved hi
        rw [hold i hreadable] at hnot
        cases hnot
      have hless : n₁.backlog.length < n.backlog.length := by
        rw [hback, List.length_tail]
        exact Nat.sub_one_lt (by simpa using hwaits)
      rw [Chat.served, serveClients_of_none hserved, hserved]
      simp only [Option.toList_none, List.map_nil, List.foldl_nil, Chat.rank,
        hserver, hclient]
      omega
  | some fd =>
      obtain ⟨p, batches, waiting, buf, hbytes, -, -, -, hreply⟩ :=
        hinv.reply hQ hpid hread hserved
      rw [hreply]
      simp only [Chat.rank]
      have htexts := total_update unread n₁.toServer p []
      have hreplies := total_update List.length n₁.toClient p
        (n₁.toClient p ++ replyText (batchCorrect waiting))
      have hlen : (replyText (batchCorrect waiting)).length ≤ 4 := by
        cases batchCorrect waiting <;> decide
      have hone : unread (n₁.toServer p) = 1 := if_neg hbytes
      have hzero : unread [] = 0 := rfl
      rw [List.length_append] at hreplies
      rw [hserver] at htexts hone
      rw [hclient] at hreplies
      rw [hserver, hclient]
      omega

/-- A client displays what has arrived. -/
theorem ChatInv.exists_display (h : ChatInv pid Q tr n)
    (hne : n.toClient p ≠ []) :
    ∃ es n', ChatStep pid admits n es n' ∧ (∀ q, sentBy q es = []) ∧
      n'.rank < n.rank := by
  have hinside : n.status p = .inside := by
    cases hstatus : n.status p with
    | outside => exact absurd (h.quiet p hstatus).2 hne
    | inside => rfl
    | left => exact absurd hstatus (h.stays p).1
  obtain ⟨batches, waiting, hp⟩ := h.exchanged p
  have hbytes : ∀ b ∈ n.toClient p, b ∈ verdictsOn batches := by
    intro b hb
    rw [← hp.replies]
    exact List.mem_append_right _ hb
  refine ⟨_, _, chatStep_display hinside hne hbytes, fun q => rfl, ?_⟩
  have hreplies := total_update List.length n.toClient p
    ((n.toClient p).drop lBufSize)
  have hpos := List.length_pos_of_ne_nil hne
  rw [List.length_drop, lBufSize] at hreplies
  simp only [Chat.rank, lBufSize]
  omega

/-! ## Result -/

/-- Nobody waits to be accepted, and no bytes are on their way. -/
def Chat.Settled (n : Chat P) : Prop :=
  n.backlog = [] ∧ ∀ p, n.toServer p = [] ∧ n.toClient p = []

/-- Since the history `tr` no text was generated. -/
def Answering (pid : P → ℕ) (tr tr' : List (ChatEvent P)) (n : Chat P) :
    Prop :=
  ChatInv pid (fun p waiting => (batchText (pid p) waiting).length ≤ 511)
      tr' n ∧
    ∀ p, sentBy p tr' = sentBy p tr

end Drains

end Pvos.Socksrv
