import Pvos.Socksrv.Communication

/-!
# The forking server

`main` of `socksrv/socket_srv.cpp` accepts clients in one loop; the child that
it forks for a client closes the listening socket, leaves this loop and serves
the client in the communication loop behind it.  Both loops are inside a third
one, so a child whose client has gone is back in front of the first loop.

A process has its own set of open descriptors.  Every system call on a
descriptor is recorded together with that set.
-/

namespace Pvos.Socksrv

open Pvos.Support Pvos.Checksum

/-! ## Processes -/

/-- What a system call does with a descriptor. -/
inductive FdCall
  | polls
  | reads
  | writes
  | accepts
  | closes
  deriving DecidableEq

/-- A system call on a descriptor, and the descriptors then open in the
process. -/
structure FdUse where
  call : FdCall
  fd : ℤ
  openFds : Finset ℤ

/-- The process is at the `poll` of one of the loops, or has exited. -/
inductive LoopPc
  | accepting
  | communicating
  | exited
  deriving DecidableEq

/-- The variables of a process and its open descriptors. -/
structure ServerProcess where
  pc : LoopPc
  sockListen : ℤ
  sockClient : ℤ
  openFds : Finset ℤ

namespace ServerProcess

def use (p : ServerProcess) (call : FdCall) (fd : ℤ) : FdUse :=
  ⟨call, fd, p.openFds⟩

/-- `close(fd)`. -/
def close (p : ServerProcess) (fd : ℤ) : ServerProcess :=
  { p with openFds := p.openFds.erase fd }

/-- `exit`. -/
def exit (p : ServerProcess) : ServerProcess :=
  { p with pc := .exited }

end ServerProcess

/-- The process behind a pass, the child that it forked, and the calls of
both. -/
structure ProcessPass where
  process : ServerProcess
  child : Option ServerProcess
  uses : List FdUse

/-! ## The accept loop -/

/-- What the system calls of a pass return: `poll` fails or reports `POLLIN`
for stdin and the listening socket, the bytes of the `read` and the old content
of `buf`, the result of `accept`, and whether `fork` made a child. -/
structure AcceptInput where
  poll : Option (Bool × Bool)
  stdin : Option (List UInt8)
  stdinBuf : Memory
  accept : ℤ
  forked : Bool

/-- The child closes the listening socket and leaves the loop. -/
def forkedChild (p : ServerProcess) : ServerProcess :=
  if p.sockListen ∈ p.openFds then
    { p.close p.sockListen with pc := .communicating }
  else p.exit

/-- The parent closes the socket of the client. -/
def forkingParent (p : ServerProcess) : ServerProcess :=
  if p.sockClient ∈ p.openFds then p.close p.sockClient else p.exit

/-- The block for a new client.  Where `fork` fails the process goes on like a
parent. -/
def acceptFork (p : ServerProcess) (input : AcceptInput) : ProcessPass :=
  let accepts := p.use .accepts p.sockListen
  if input.accept = -1 then
    ⟨(p.close p.sockListen).exit, none, [accepts, p.use .closes p.sockListen]⟩
  else
    let p : ServerProcess :=
      { p with
        sockClient := input.accept
        openFds := insert input.accept p.openFds }
    if input.forked then
      ⟨forkingParent p, some (forkedChild p),
        [accepts, p.use .closes p.sockListen, p.use .closes p.sockClient]⟩
    else ⟨forkingParent p, none, [accepts, p.use .closes p.sockClient]⟩

/-- One pass of the accept loop. -/
def acceptPass (p : ServerProcess) (input : AcceptInput) : ProcessPass :=
  let polls := [p.use .polls 0, p.use .polls p.sockListen]
  match input.poll with
  | none => ⟨p.exit, none, polls⟩
  | some (stdinReadable, listenReadable) =>
      let reads := if stdinReadable then [p.use .reads 0] else []
      let quits := input.stdin.map fun bytes =>
        isQuit (input.stdinBuf.write 0 bytes)
      if stdinReadable ∧ quits = none then ⟨p.exit, none, polls ++ reads⟩
      else if stdinReadable ∧ quits = some true then
        ⟨(p.close p.sockListen).exit, none,
          polls ++ reads ++ [p.use .closes p.sockListen]⟩
      else if listenReadable then
        let a := acceptFork p input
        { a with uses := polls ++ reads ++ a.uses }
      else ⟨p, none, polls ++ reads⟩

/-! ## The communication loop -/

/-- The calls of the two blocks of a pass. -/
def commCalls (p : ServerProcess) (lBuf : Memory) (input : CommInput)
    (stdinReadable clientReadable : Bool) : List FdUse :=
  (if stdinReadable then [p.use .reads 0, p.use .writes p.sockClient] else []) ++
    if clientReadable then
      p.use .reads p.sockClient ::
        if (commPass lBuf input).ends = .leaves then []
        else [p.use .writes p.sockClient]
    else []

/-- One pass of the communication loop.  A process that leaves it starts the
outer loop again. -/
def communicate (p : ServerProcess) (lBuf : Memory) (input : CommInput) :
    ProcessPass :=
  let polls := [p.use .polls 0, p.use .polls p.sockClient]
  match input.poll with
  | none => ⟨p.exit, none, polls⟩
  | some (stdinReadable, clientReadable) =>
      let calls := polls ++ commCalls p lBuf input stdinReadable clientReadable
      let closes := [p.use .closes p.sockClient]
      match (commPass lBuf input).ends with
      | .goes => ⟨p, none, calls⟩
      | .leaves =>
          ⟨{ p.close p.sockClient with pc := .accepting, sockClient := -1 }, none,
            calls ++ closes⟩
      | .exits _ => ⟨(p.close p.sockClient).exit, none, calls ++ closes⟩

/-! ## The family of processes -/

/-- What a process meets next: a pass of its loop, with the indeterminate
content of `l_buf`, or a signal that kills it. -/
inductive ProcessInput
  | accepting (input : AcceptInput)
  | communicating (lBuf : Memory) (input : CommInput)
  | killed

/-- `accept` fails or returns a descriptor that is not open. -/
def ProcessInput.Possible (p : ServerProcess) : ProcessInput → Prop
  | .accepting input => input.accept = -1 ∨ input.accept ∉ p.openFds
  | _ => True

/-- The next pass of a process. -/
def processPass (p : ServerProcess) : ProcessInput → Option ProcessPass
  | .accepting input =>
      if p.pc = .accepting then some (acceptPass p input) else none
  | .communicating lBuf input =>
      if p.pc = .communicating then some (communicate p lBuf input) else none
  | .killed => some ⟨p.exit, none, []⟩

/-- The server behind `listen` and all its children, in any order of their
passes; `ok` restricts what a process meets. -/
def forkingSystem (ok : ServerProcess → ProcessInput → Prop) :
    System (List ServerProcess) FdUse where
  init s := ∃ p : ServerProcess, s = [p] ∧ p.pc = .accepting ∧
    p.sockListen ≠ 0 ∧ 0 ∈ p.openFds ∧ p.sockListen ∈ p.openFds
  step s es s' := ∃ i p input pass, s[i]? = some p ∧ input.Possible p ∧
    ok p input ∧ processPass p input = some pass ∧
    s' = s.set i pass.process ++ pass.child.toList ∧ es = pass.uses

/-! ## Clients that stay -/

/-- `l_buf` behind the `read` from the client. -/
def receivedBuf (lBuf : Memory) (input : CommInput) (stdinReadable : Bool) :
    Memory :=
  let lBuf := if stdinReadable then (forwardStdin lBuf input.stdin).1 else lBuf
  match input.read with
  | .data bytes => lBuf.write 0 bytes
  | .failed => lBuf

/-- The client has closed the connection, or asks the server to. -/
def ClientGone (lBuf : Memory) (input : CommInput) : Prop :=
  ∃ stdinReadable, input.poll = some (stdinReadable, true) ∧
    (input.read = .data [] ∨
      isClose (receivedBuf lBuf input stdinReadable) = true)

/-- The pass is none in which a client goes. -/
def ClientStays (_ : ServerProcess) : ProcessInput → Prop
  | .communicating lBuf input => ¬ ClientGone lBuf input
  | _ => True

theorem answer_leaves (lBuf : Memory) (currentNum : ℤ) (read : ReadResult) :
    (answer lBuf currentNum read).leaves = true ↔
      read = .data [] ∨ isClose (match read with
        | .data bytes => lBuf.write 0 bytes
        | .failed => lBuf) = true := by
  have hbuffer : ∀ buf : Memory,
      (answerBuffer buf currentNum).leaves = isClose buf := by
    intro buf
    unfold answerBuffer
    split
    next hclose => exact hclose.symm
    next hclose => exact (Bool.eq_false_of_not_eq_true hclose).symm
  cases read with
  | failed =>
      have hanswer : (answer lBuf currentNum .failed).leaves = isClose lBuf :=
        hbuffer lBuf
      simp [hanswer]
  | data bytes =>
      cases bytes with
      | nil => exact iff_of_true rfl (Or.inl rfl)
      | cons b bytes =>
          have hanswer : (answer lBuf currentNum (.data (b :: bytes))).leaves =
              isClose (lBuf.write 0 (b :: bytes)) := hbuffer _
          simp [hanswer]

/-- A pass leaves the loop if and only if the client has gone. -/
theorem commPass_leaves (lBuf : Memory) (input : CommInput) :
    (commPass lBuf input).ends = .leaves ↔ ClientGone lBuf input := by
  unfold ClientGone commPass
  cases hpoll : input.poll with
  | none => simp
  | some readable =>
      obtain ⟨stdinReadable, clientReadable⟩ := readable
      have hends : ∀ (a : Answered) (written : List Text),
          (if a.leaves then ⟨.leaves, written, a.lBuf⟩
          else if isQuitRequest a.lBuf then ⟨.exits 0, written, a.lBuf⟩
          else ⟨.goes, written, a.lBuf⟩ : CommPass).ends = .leaves ↔
            a.leaves = true := by
        intro a written
        split
        next hleaves => simp [hleaves]
        next hleaves => split <;> simp [hleaves]
      simp only [hends]
      cases clientReadable with
      | false => simp
      | true =>
          have hbuf : (if stdinReadable = true then
              forwardStdin lBuf input.stdin else (lBuf, [])).1 =
                if stdinReadable then (forwardStdin lBuf input.stdin).1
                else lBuf := by
            split <;> rfl
          simp only [if_true, answer_leaves, hbuf]
          simp [receivedBuf]

/-! ## One pass -/

/-- The descriptors that the process will use are open; in the communication
loop the listening socket is not. -/
structure ServerProcess.Ok (p : ServerProcess) : Prop where
  accepting : p.pc = .accepting →
    p.sockListen ≠ 0 ∧ 0 ∈ p.openFds ∧ p.sockListen ∈ p.openFds
  communicating : p.pc = .communicating →
    0 ∈ p.openFds ∧ p.sockClient ∈ p.openFds ∧ p.sockListen ∉ p.openFds

/-- The descriptor of the call is open. -/
def FdUse.IsOpen (u : FdUse) : Prop :=
  u.fd ∈ u.openFds

instance (u : FdUse) : Decidable u.IsOpen :=
  inferInstanceAs (Decidable (_ ∈ _))

/-- After a pass the processes are well formed, and its calls were made on open
descriptors. -/
structure ProcessPass.Ok (r : ProcessPass) : Prop where
  process : r.process.Ok
  child : ∀ c ∈ r.child, c.Ok
  uses : ∀ u ∈ r.uses, u.IsOpen

section Pass

variable {p : ServerProcess}

theorem ServerProcess.ok_exit (p : ServerProcess) : p.exit.Ok :=
  ⟨by simp [exit], by simp [exit]⟩

/-- Only the two sockets of a client that is there are added. -/
theorem acceptFork_ok (hlisten : p.sockListen ≠ 0) (hstdin : 0 ∈ p.openFds)
    (hopen : p.sockListen ∈ p.openFds) (hpc : p.pc = .accepting)
    {input : AcceptInput} (hfresh : input.accept = -1 ∨ input.accept ∉ p.openFds) :
    (acceptFork p input).Ok := by
  unfold acceptFork
  split
  next =>
    exact ⟨ServerProcess.ok_exit _, by simp, by simp [FdUse.IsOpen, ServerProcess.use, hopen]⟩
  next hne =>
    have hnew := hfresh.resolve_left hne
    have hne₀ : input.accept ≠ 0 := fun heq => hnew (heq ▸ hstdin)
    have hneL : input.accept ≠ p.sockListen := fun heq => hnew (heq ▸ hopen)
    have hparent : (forkingParent { p with
        sockClient := input.accept
        openFds := insert input.accept p.openFds }).Ok := by
      simp only [forkingParent, Finset.mem_insert_self, if_true,
        ServerProcess.close, Finset.erase_insert hnew]
      exact ⟨fun _ => ⟨hlisten, hstdin, hopen⟩, by simp [hpc]⟩
    have hchild : (forkedChild { p with
        sockClient := input.accept
        openFds := insert input.accept p.openFds }).Ok := by
      simp only [forkedChild, Finset.mem_insert_of_mem hopen, if_true,
        ServerProcess.close]
      refine ⟨by simp, fun _ => ⟨?_, ?_, Finset.notMem_erase _ _⟩⟩
      · exact Finset.mem_erase.mpr
          ⟨hlisten.symm, Finset.mem_insert_of_mem hstdin⟩
      · exact Finset.mem_erase.mpr ⟨hneL, Finset.mem_insert_self _ _⟩
    split
    next =>
      exact ⟨hparent, by simpa using hchild,
        by simp [FdUse.IsOpen, ServerProcess.use, hopen]⟩
    next =>
      exact ⟨hparent, by simp,
        by simp [FdUse.IsOpen, ServerProcess.use, hopen]⟩

theorem acceptPass_ok (hp : p.Ok) (hpc : p.pc = .accepting) {input : AcceptInput}
    (hfresh : input.accept = -1 ∨ input.accept ∉ p.openFds) :
    (acceptPass p input).Ok := by
  obtain ⟨hlisten, hstdin, hopen⟩ := hp.accepting hpc
  have hcalls : ∀ call, (p.use call 0).IsOpen ∧ (p.use call p.sockListen).IsOpen :=
    fun call => ⟨hstdin, hopen⟩
  have hpolls : ∀ u ∈ [p.use .polls 0, p.use .polls p.sockListen], u.IsOpen := by
    simp [hcalls]
  unfold acceptPass
  split
  next => exact ⟨ServerProcess.ok_exit p, by simp, hpolls⟩
  next stdinReadable listenReadable hpoll =>
    have hreads : ∀ u ∈ (if stdinReadable then [p.use .reads 0] else []),
        u.IsOpen := by
      cases stdinReadable <;> simp [hcalls]
    have hbefore := List.forall_mem_append.mpr ⟨hpolls, hreads⟩
    dsimp only
    generalize (if stdinReadable then [p.use .reads 0] else []) = reads
      at hbefore ⊢
    split
    next => exact ⟨ServerProcess.ok_exit p, by simp, hbefore⟩
    next =>
      split
      next =>
        exact ⟨ServerProcess.ok_exit _, by simp,
          List.forall_mem_append.mpr ⟨hbefore, by simp [hcalls]⟩⟩
      next =>
        split
        next =>
          have hfork := acceptFork_ok hlisten hstdin hopen hpc hfresh
          exact ⟨hfork.process, hfork.child,
            List.forall_mem_append.mpr ⟨hbefore, hfork.uses⟩⟩
        next => exact ⟨hp, by simp, hbefore⟩

theorem communicate_ok (hp : p.Ok) (hpc : p.pc = .communicating) {lBuf : Memory}
    {input : CommInput} (hstays : ¬ ClientGone lBuf input) :
    (communicate p lBuf input).Ok := by
  obtain ⟨hstdin, hclient, -⟩ := hp.communicating hpc
  have hcalls : ∀ call, (p.use call 0).IsOpen ∧ (p.use call p.sockClient).IsOpen :=
    fun call => ⟨hstdin, hclient⟩
  have hpolls : ∀ u ∈ [p.use .polls 0, p.use .polls p.sockClient], u.IsOpen := by
    simp [hcalls]
  unfold communicate
  split
  next => exact ⟨ServerProcess.ok_exit p, by simp, hpolls⟩
  next stdinReadable clientReadable hpoll =>
    have hcomm : ∀ u ∈ commCalls p lBuf input stdinReadable clientReadable,
        u.IsOpen := by
      unfold commCalls
      cases stdinReadable <;> cases clientReadable <;> simp [hcalls]
    have hbefore := List.forall_mem_append.mpr ⟨hpolls, hcomm⟩
    split
    next => exact ⟨hp, by simp, hbefore⟩
    next hleaves => exact absurd ((commPass_leaves lBuf input).mp hleaves) hstays
    next =>
      exact ⟨ServerProcess.ok_exit _, by simp,
        List.forall_mem_append.mpr ⟨hbefore, by simp [hcalls]⟩⟩

theorem processPass_ok (hp : p.Ok) {input : ProcessInput}
    (hpossible : input.Possible p) (hstays : ClientStays p input)
    {r : ProcessPass} (h : processPass p input = some r) : r.Ok := by
  cases input with
  | accepting input =>
      simp only [processPass, Option.ite_none_right_eq_some, Option.some.injEq]
        at h
      obtain ⟨hpc, rfl⟩ := h
      exact acceptPass_ok hp hpc hpossible
  | communicating lBuf input =>
      simp only [processPass, Option.ite_none_right_eq_some, Option.some.injEq]
        at h
      obtain ⟨hpc, rfl⟩ := h
      exact communicate_ok hp hpc hstays
  | killed =>
      obtain rfl := Option.some.inj h
      exact ⟨ServerProcess.ok_exit p, by simp, by simp⟩

end Pass

/-! ## Runs -/

/-- A process whose client goes is back in front of the accept loop, with a
closed socket. -/
theorem communicate_gone {p : ServerProcess} (hp : p.Ok)
    (hpc : p.pc = .communicating) {lBuf : Memory} {input : CommInput}
    (h : ClientGone lBuf input) :
    (communicate p lBuf input).process.pc = .accepting ∧
      p.sockListen ∉ (communicate p lBuf input).process.openFds := by
  obtain ⟨-, -, hclosed⟩ := hp.communicating hpc
  have hleaves := (commPass_leaves lBuf input).mpr h
  obtain ⟨stdinReadable, hpoll, -⟩ := h
  simp only [communicate, hpoll, hleaves, ServerProcess.close]
  exact ⟨trivial, fun hmem => hclosed (Finset.mem_of_mem_erase hmem)⟩

theorem processes_ok {tr : List FdUse} {s : List ServerProcess}
    (h : (forkingSystem ClientStays).Exec tr s) :
    (∀ u ∈ tr, u.IsOpen) ∧ ∀ p ∈ s, p.Ok := by
  refine h.invariant (I := fun tr s =>
    (∀ u ∈ tr, u.IsOpen) ∧ ∀ p ∈ s, p.Ok) ?_ ?_
  · rintro s ⟨p, rfl, hpc, hopen⟩
    refine ⟨by simp, fun q hq => ?_⟩
    obtain rfl := List.mem_singleton.mp hq
    exact ⟨fun _ => hopen, by simp [hpc]⟩
  · rintro tr s es s' ⟨huses, hok⟩
      ⟨i, p, input, pass, hp, hpossible, hstays, hpass, rfl, rfl⟩
    have hr := processPass_ok (hok p (List.mem_of_getElem? hp)) hpossible
      hstays hpass
    refine ⟨List.forall_mem_append.mpr ⟨huses, hr.uses⟩, fun q hq => ?_⟩
    rcases List.mem_append.mp hq with hset | hchild
    · rcases List.mem_or_eq_of_mem_set hset with hold | rfl
      · exact hok q hold
      · exact hr.process
    · exact hr.child q (Option.mem_toList.mp hchild)

/-- In every run in which no client goes, every call on a descriptor is made
while it is open, and no process waits for clients on a closed socket.  A
process whose client goes then waits on one. -/
theorem forking_fds_open {tr : List FdUse} {s : List ServerProcess}
    (h : (forkingSystem ClientStays).Exec tr s) :
    (∀ u ∈ tr, u.IsOpen) ∧
      (∀ p ∈ s, p.pc = .accepting → p.sockListen ∈ p.openFds) ∧
      ∀ p ∈ s, p.pc = .communicating → ∀ lBuf input, ClientGone lBuf input →
        (communicate p lBuf input).process.pc = .accepting ∧
          p.sockListen ∉ (communicate p lBuf input).process.openFds := by
  obtain ⟨huses, hok⟩ := processes_ok h
  exact ⟨huses, fun p hp hpc => ((hok p hp).accepting hpc).2.2,
    fun p hp hpc _ _ => communicate_gone (hok p hp) hpc⟩

/-- The server with the listening socket 3, before the first client. -/
def freshServer : ServerProcess where
  pc := .accepting
  sockListen := 3
  sockClient := -1
  openFds := {0, 1, 2, 3}

/-- A client connects. -/
def connects : ProcessInput :=
  .accepting ⟨some (false, true), none, fun _ => 0, 4, true⟩

/-- A client closes its connection. -/
def disconnects : ProcessInput :=
  .communicating (fun _ => 0) ⟨some (false, true), .failed, .data [], 0⟩

/-- `poll` reports nothing to read. -/
def pollsOnly : ProcessInput :=
  .accepting ⟨some (false, false), none, fun _ => 0, -1, false⟩

/-- A client sends a message. -/
def sends (text : Text) : ProcessInput :=
  .communicating (fun _ => 0) ⟨some (false, true), .failed, .data text, 0⟩

theorem clientStays_sends (p : ServerProcess) : ClientStays p (sends [49]) := by
  rintro ⟨stdinReadable, hpoll, hread | hclose⟩
  · exact absurd hread (by simp)
  · obtain rfl : stdinReadable = false := by simpa using hpoll.symm
    exact absurd hclose (by decide)

/-- A client that stays: its message is answered, while the parent waits for
the next client. -/
theorem forking_fds_open_answered :
    ∃ tr s, (forkingSystem ClientStays).Exec tr s ∧
      tr.map (fun u => (u.call, u.fd)) =
        [(.polls, 0), (.polls, 3), (.accepts, 3), (.closes, 3), (.closes, 4),
          (.polls, 0), (.polls, 4), (.reads, 4), (.writes, 4),
          (.polls, 0), (.polls, 3)] ∧
      (∀ u ∈ tr, u.IsOpen) ∧
      ∀ p ∈ s, p.pc = .accepting → p.sockListen ∈ p.openFds := by
  have hinit : (forkingSystem ClientStays).init [freshServer] :=
    ⟨freshServer, rfl, rfl, by decide, by decide, by decide⟩
  have hexec : (forkingSystem ClientStays).Exec _ _ :=
    (((System.Exec.init hinit).step
      ⟨0, freshServer, connects, _, rfl, Or.inr (by decide), trivial, rfl, rfl,
        rfl⟩).step
      ⟨1, _, sends [49], _, rfl, trivial, clientStays_sends _, rfl, rfl,
        rfl⟩).step
      ⟨0, _, pollsOnly, _, rfl, Or.inl rfl, trivial, rfl, rfl, rfl⟩
  obtain ⟨huses, hlisten, -⟩ := forking_fds_open hexec
  exact ⟨_, _, hexec, rfl, huses, hlisten⟩

/-- The client of a child goes; the child polls the socket that it closed. -/
theorem child_polls_closed_socket :
    ∃ tr s, (forkingSystem fun _ _ => True).Exec tr s ∧
      (∃ u ∈ tr, u.call = .polls ∧ u.fd = 3 ∧ ¬ u.IsOpen) ∧
      ∃ p ∈ s, p.pc = .accepting ∧ p.sockListen ∉ p.openFds := by
  have hinit : (forkingSystem fun _ _ => True).init [freshServer] :=
    ⟨freshServer, rfl, rfl, by decide, by decide, by decide⟩
  have hexec : (forkingSystem fun _ _ => True).Exec _ _ :=
    (((System.Exec.init hinit).step
      ⟨0, freshServer, connects, _, rfl, Or.inr (by decide), trivial, rfl, rfl,
        rfl⟩).step
      ⟨1, _, disconnects, _, rfl, trivial, trivial, rfl, rfl, rfl⟩).step
      ⟨1, _, pollsOnly, _, rfl, Or.inl rfl, trivial, rfl, rfl, rfl⟩
  exact ⟨_, _, hexec,
    ⟨_, List.mem_of_getElem? (i := 10) rfl, rfl, rfl, by decide⟩,
    ⟨_, List.mem_of_getElem? (i := 1) rfl, rfl, by decide⟩⟩

end Pvos.Socksrv
