import Mathlib.Data.Finset.Basic
import Mathlib.Data.List.Perm.Basic
import Pvos.Support.System

/-!
# The threaded server hands descriptors over

The main loop of `socksrv/socket_srv_thread.cpp` stores every accepted
descriptor in `l_sock_client` and gives the address of this variable to the
thread that it creates.  The thread reads its descriptor through the address as
its first step, which may come late.

The steps here are the store behind `accept`, `pthread_create`, the first step
of a thread, and the `close` at its end.
-/

namespace Pvos.Socksrv

open Pvos.Support

/-! ## The server and its threads -/

/-- The main loop waits for a client, or is about to create a thread. -/
inductive MainPc
  | accepting
  | creating
  deriving DecidableEq

/-- A thread that has not read its descriptor, that serves one, or that is
over. -/
inductive ThreadPc
  | created
  | serving (fd : ℤ)
  | ended
  deriving DecidableEq

/-- `l_sock_client`, the threads in the order of their creation, and the open
descriptors that `accept` has returned. -/
structure ThreadServer where
  mainPc : MainPc
  lSockClient : ℤ
  threads : List ThreadPc
  openClients : Finset ℤ

/-- Who moves next, and what a call returns. -/
inductive ThreadInput
  | accept (fd : ℤ)
  | create (succeeds : Bool)
  | start (thread : ℕ)
  | finish (thread : ℕ)

/-- A descriptor was accepted, its thread could not be created, a thread took
it, or closed it. -/
inductive ThreadEvent
  | accepted (fd : ℤ)
  | failed (fd : ℤ)
  | adopted (thread : ℕ) (fd : ℤ)
  | closed (fd : ℤ)

/-- One step.  `accept` returns a descriptor that is not open. -/
def threadStep (s : ThreadServer) :
    ThreadInput → Option (ThreadServer × List ThreadEvent)
  | .accept fd =>
      if s.mainPc = .accepting ∧ fd ∉ s.openClients then
        some
          ({ s with
              mainPc := .creating
              lSockClient := fd
              openClients := insert fd s.openClients },
            [.accepted fd])
      else none
  | .create succeeds =>
      if s.mainPc = .creating then
        if succeeds then
          some ({ s with
            mainPc := .accepting
            threads := s.threads ++ [.created] }, [])
        else
          some ({ s with mainPc := .accepting }, [.failed s.lSockClient])
      else none
  | .start thread =>
      if s.threads[thread]? = some .created then
        some
          ({ s with threads := s.threads.set thread (.serving s.lSockClient) },
            [.adopted thread s.lSockClient])
      else none
  | .finish thread =>
      match s.threads[thread]? with
      | some (.serving fd) =>
          -- an error of `close` exits the process
          if fd ∈ s.openClients then
            some
              ({ s with
                  threads := s.threads.set thread .ended
                  openClients := s.openClients.erase fd },
                [.closed fd])
          else none
      | _ => none

/-- All interleavings of the steps that satisfy `ok`. -/
def threadSystem (ok : ThreadServer → ThreadInput → Prop) :
    System ThreadServer ThreadEvent where
  init s := s = ⟨.accepting, -1, [], ∅⟩
  step s es s' := ∃ input, ok s input ∧ threadStep s input = some (s', es)

/-! ## Histories -/

def acceptedFds : List ThreadEvent → List ℤ :=
  List.filterMap fun
    | .accepted fd => some fd
    | _ => none

def failedFds : List ThreadEvent → List ℤ :=
  List.filterMap fun
    | .failed fd => some fd
    | _ => none

def adoptedFds : List ThreadEvent → List ℤ :=
  List.filterMap fun
    | .adopted _ fd => some fd
    | _ => none

/-- The descriptors that threads serve. -/
def ThreadServer.served (s : ThreadServer) : List ℤ :=
  s.threads.filterMap fun
    | .serving fd => some fd
    | _ => none

/-- The descriptor in `l_sock_client`, while some thread has still to take
it. -/
def ThreadServer.pending (s : ThreadServer) : List ℤ :=
  if s.mainPc = .creating ∨ .created ∈ s.threads then [s.lSockClient] else []

/-- Every accepted descriptor was taken by one thread, or its thread could not
be created, or it has still to be taken; threads serve different descriptors;
and the ones that nobody serves or will take are closed. -/
structure HandedOver (tr : List ThreadEvent) (s : ThreadServer) : Prop where
  once : (adoptedFds tr ++ failedFds tr ++ s.pending).Perm (acceptedFds tr)
  distinct : (s.served ++ s.pending).Nodup
  closed : ∀ fd ∈ s.openClients, fd ∈ s.served ++ s.pending

/-- `accept` stores only when every thread has read its descriptor, and every
thread can be created. -/
def Orderly (s : ThreadServer) : ThreadInput → Prop
  | .accept _ => .created ∉ s.threads
  | .create succeeds => succeeds = true
  | _ => True

/-! ## One step -/

section Step

variable {tr es : List ThreadEvent} {s s' : ThreadServer} {fd : ℤ}

theorem acceptedFds_append (tr tr' : List ThreadEvent) :
    acceptedFds (tr ++ tr') = acceptedFds tr ++ acceptedFds tr' :=
  List.filterMap_append

theorem failedFds_append (tr tr' : List ThreadEvent) :
    failedFds (tr ++ tr') = failedFds tr ++ failedFds tr' :=
  List.filterMap_append

theorem adoptedFds_append (tr tr' : List ThreadEvent) :
    adoptedFds (tr ++ tr') = adoptedFds tr ++ adoptedFds tr' :=
  List.filterMap_append

/-- One thread goes from `pc` to `pc'`. -/
theorem threads_set {threads : List ThreadPc} {thread : ℕ} {pc : ThreadPc}
    (h : threads[thread]? = some pc) (pc' : ThreadPc) :
    ∃ before after, threads = before ++ pc :: after ∧
      threads.set thread pc' = before ++ pc' :: after := by
  obtain ⟨hlt, rfl⟩ := List.getElem?_eq_some_iff.mp h
  obtain ⟨before, after, heq, -, hset⟩ := List.exists_of_set hlt
  exact ⟨before, after, heq, hset⟩

/-- What holds in orderly runs: at most one thread has not read its
descriptor, and none while the main loop is about to create one. -/
structure ThreadInv (tr : List ThreadEvent) (s : ThreadServer) : Prop where
  once : (adoptedFds tr ++ s.pending).Perm (acceptedFds tr)
  noFailure : failedFds tr = []
  distinct : (s.served ++ s.pending).Nodup
  isOpen : ∀ fd, fd ∈ s.openClients ↔ fd ∈ s.served ++ s.pending
  unread : s.threads.count .created +
    (if s.mainPc = .creating then 1 else 0) ≤ 1

theorem ThreadInv.handedOver (h : ThreadInv tr s) : HandedOver tr s :=
  ⟨by simpa [h.noFailure] using h.once, h.distinct,
    fun fd hfd => (h.isOpen fd).mp hfd⟩

theorem ThreadInv.accept (h : ThreadInv tr s) (hpc : s.mainPc = .accepting)
    (hfresh : fd ∉ s.openClients) (hread : .created ∉ s.threads) :
    ThreadInv (tr ++ [.accepted fd])
      ⟨.creating, fd, s.threads, insert fd s.openClients⟩ := by
  have hnone : s.pending = [] := by simp [ThreadServer.pending, hpc, hread]
  have honce := h.once
  have hdistinct := h.distinct
  have hopen := h.isOpen
  rw [hnone, List.append_nil] at honce hdistinct
  simp only [hnone, List.append_nil] at hopen
  have hpending : ThreadServer.pending
      ⟨.creating, fd, s.threads, insert fd s.openClients⟩ = [fd] := rfl
  refine ⟨?_, ?_, ?_, fun fd' => ?_, ?_⟩
  · rw [hpending, adoptedFds_append, acceptedFds_append]
    simpa [adoptedFds, acceptedFds] using honce.append_right [fd]
  · rw [failedFds_append, h.noFailure]
    rfl
  · have hnot : fd ∉ s.served := fun hmem => hfresh ((hopen fd).mpr hmem)
    rw [hpending, List.nodup_append_comm, List.singleton_append,
      List.nodup_cons]
    exact ⟨hnot, hdistinct⟩
  · rw [hpending, Finset.mem_insert, hopen fd', List.mem_append,
      List.mem_singleton, or_comm]
    rfl
  · simp [List.count_eq_zero_of_not_mem hread]

theorem ThreadInv.create (h : ThreadInv tr s) (hpc : s.mainPc = .creating) :
    ThreadInv tr
      ⟨.accepting, s.lSockClient, s.threads ++ [.created], s.openClients⟩ := by
  have hunread := h.unread
  rw [hpc, if_pos rfl] at hunread
  have hpending : ThreadServer.pending
      ⟨.accepting, s.lSockClient, s.threads ++ [.created], s.openClients⟩ =
        s.pending := by
    simp [ThreadServer.pending, hpc]
  have hserved : ThreadServer.served
      ⟨.accepting, s.lSockClient, s.threads ++ [.created], s.openClients⟩ =
        s.served := by
    simp [ThreadServer.served]
  refine ⟨?_, h.noFailure, ?_, fun fd => ?_, ?_⟩
  · rw [hpending]
    exact h.once
  · rw [hpending, hserved]
    exact h.distinct
  · rw [hpending, hserved]
    exact h.isOpen fd
  · simp only [List.count_append, List.count_singleton_self, reduceCtorEq,
      if_false]
    omega

theorem ThreadInv.start (h : ThreadInv tr s) {thread : ℕ}
    (hthread : s.threads[thread]? = some .created) :
    ThreadInv (tr ++ [.adopted thread s.lSockClient])
      ⟨s.mainPc, s.lSockClient, s.threads.set thread (.serving s.lSockClient),
        s.openClients⟩ := by
  obtain ⟨before, after, hsplit, hset⟩ :=
    threads_set hthread (.serving s.lSockClient)
  have hunread := h.unread
  rw [hsplit] at hunread
  simp only [List.count_append, List.count_cons_self] at hunread
  have hpc : s.mainPc ≠ .creating := by
    intro hpc
    rw [if_pos hpc] at hunread
    omega
  have hbefore : .created ∉ before := List.count_eq_zero.mp (by omega)
  have hafter : .created ∉ after := List.count_eq_zero.mp (by omega)
  have hold : s.pending = [s.lSockClient] := by
    simp [ThreadServer.pending, hsplit]
  have hpending : ThreadServer.pending
      ⟨s.mainPc, s.lSockClient, s.threads.set thread (.serving s.lSockClient),
        s.openClients⟩ = [] := by
    simp [ThreadServer.pending, hset, hpc, hbefore, hafter]
  have hserved : (ThreadServer.served
      ⟨s.mainPc, s.lSockClient, s.threads.set thread (.serving s.lSockClient),
        s.openClients⟩).Perm (s.served ++ [s.lSockClient]) := by
    simp only [ThreadServer.served]
    rw [hset, hsplit]
    simp only [List.filterMap_append, List.filterMap_cons, List.append_assoc]
    exact List.Perm.append_left _ (List.perm_append_singleton _ _).symm
  have honce := h.once
  have hdistinct := h.distinct
  have hopen := h.isOpen
  simp only [hold] at honce hdistinct hopen
  refine ⟨?_, ?_, ?_, fun fd => ?_, ?_⟩
  · rw [hpending, adoptedFds_append, acceptedFds_append]
    simpa [adoptedFds, acceptedFds] using honce
  · rw [failedFds_append, h.noFailure]
    rfl
  · rw [hpending, List.append_nil]
    exact hserved.nodup_iff.mpr hdistinct
  · rw [hpending, List.append_nil, hserved.mem_iff]
    exact hopen fd
  · simp [hset, hpc, List.count_eq_zero_of_not_mem hbefore,
      List.count_eq_zero_of_not_mem hafter]

theorem ThreadInv.finish (h : ThreadInv tr s) {thread : ℕ}
    (hthread : s.threads[thread]? = some (.serving fd)) :
    ThreadInv (tr ++ [.closed fd])
      ⟨s.mainPc, s.lSockClient, s.threads.set thread .ended,
        s.openClients.erase fd⟩ := by
  obtain ⟨before, after, hsplit, hset⟩ := threads_set hthread .ended
  have hpending : ThreadServer.pending
      ⟨s.mainPc, s.lSockClient, s.threads.set thread .ended,
        s.openClients.erase fd⟩ = s.pending := by
    simp only [ThreadServer.pending]
    rw [hset, hsplit]
    simp
  have hserved : s.served.Perm (fd :: ThreadServer.served
      ⟨s.mainPc, s.lSockClient, s.threads.set thread .ended,
        s.openClients.erase fd⟩) := by
    simp only [ThreadServer.served]
    rw [hset, hsplit]
    simp only [List.filterMap_append, List.filterMap_cons]
    exact List.perm_middle
  have hdistinct := (hserved.append_right s.pending).nodup_iff.mp h.distinct
  rw [List.cons_append, List.nodup_cons] at hdistinct
  refine ⟨?_, ?_, ?_, fun fd' => ?_, ?_⟩
  · rw [hpending, adoptedFds_append, acceptedFds_append]
    simpa [adoptedFds, acceptedFds] using h.once
  · rw [failedFds_append, h.noFailure]
    rfl
  · rw [hpending]
    exact hdistinct.2
  · rw [hpending, Finset.mem_erase, h.isOpen fd',
      (hserved.append_right s.pending).mem_iff, List.cons_append,
      List.mem_cons]
    constructor
    · rintro ⟨hne, rfl | hmem⟩
      · exact absurd rfl hne
      · exact hmem
    · intro hmem
      refine ⟨?_, Or.inr hmem⟩
      rintro rfl
      exact hdistinct.1 hmem
  · have hunread := h.unread
    rw [hsplit] at hunread
    rw [hset]
    simpa [List.count_append, List.count_cons] using hunread

theorem ThreadInv.step (h : ThreadInv tr s) {input : ThreadInput}
    (horderly : Orderly s input) (hstep : threadStep s input = some (s', es)) :
    ThreadInv (tr ++ es) s' := by
  cases input with
  | accept fd =>
      simp only [threadStep, Option.ite_none_right_eq_some, Option.some.injEq,
        Prod.mk.injEq] at hstep
      obtain ⟨⟨hpc, hfresh⟩, rfl, rfl⟩ := hstep
      exact h.accept hpc hfresh horderly
  | create succeeds =>
      obtain rfl : succeeds = true := horderly
      simp only [threadStep, if_true, Option.ite_none_right_eq_some,
        Option.some.injEq, Prod.mk.injEq] at hstep
      obtain ⟨hpc, rfl, rfl⟩ := hstep
      rw [List.append_nil]
      exact h.create hpc
  | start thread =>
      simp only [threadStep, Option.ite_none_right_eq_some, Option.some.injEq,
        Prod.mk.injEq] at hstep
      obtain ⟨hthread, rfl, rfl⟩ := hstep
      exact h.start hthread
  | finish thread =>
      simp only [threadStep] at hstep
      split at hstep
      next fd hthread =>
        simp only [Option.ite_none_right_eq_some, Option.some.injEq,
          Prod.mk.injEq] at hstep
        obtain ⟨-, rfl, rfl⟩ := hstep
        exact h.finish hthread
      next => simp at hstep

/-- An accept that comes before the first step of the last thread writes over
the descriptor that this thread was to read. -/
theorem ThreadInv.not_handedOver_accept (h : ThreadInv tr s)
    (hunread : .created ∈ s.threads) :
    ¬ HandedOver (tr ++ [.accepted fd])
      ⟨.creating, fd, s.threads, insert fd s.openClients⟩ := by
  intro hafter
  have hbefore : s.pending = [s.lSockClient] := by
    simp [ThreadServer.pending, hunread]
  have hpending : ThreadServer.pending
      ⟨.creating, fd, s.threads, insert fd s.openClients⟩ = [fd] := rfl
  have hlen := h.once.length_eq
  have hlen' := hafter.once.length_eq
  rw [hbefore] at hlen
  rw [hpending, adoptedFds_append, failedFds_append, acceptedFds_append,
    h.noFailure] at hlen'
  simp only [adoptedFds, failedFds, acceptedFds, List.filterMap_cons,
    List.filterMap_nil, List.append_nil, List.length_append,
    List.length_singleton] at hlen hlen'
  -- the descriptor in the variable is counted once, and two were accepted
  omega

/-- A descriptor whose thread cannot be created stays open. -/
theorem ThreadInv.not_handedOver_failed (h : ThreadInv tr s)
    (hpc : s.mainPc = .creating) :
    ¬ HandedOver (tr ++ [.failed s.lSockClient])
      ⟨.accepting, s.lSockClient, s.threads, s.openClients⟩ := by
  intro hafter
  have hunread := h.unread
  rw [if_pos hpc] at hunread
  have hnone : .created ∉ s.threads := List.count_eq_zero.mp (by omega)
  have hbefore : s.pending = [s.lSockClient] := by
    simp [ThreadServer.pending, hpc]
  have hpending : ThreadServer.pending
      ⟨.accepting, s.lSockClient, s.threads, s.openClients⟩ = [] := by
    simp [ThreadServer.pending, hnone]
  have hdistinct := h.distinct
  have hopen := (h.isOpen s.lSockClient).mpr (by simp [hbefore])
  have hserved := hafter.closed s.lSockClient hopen
  rw [hpending, List.append_nil] at hserved
  rw [hbefore, List.nodup_append_comm, List.singleton_append,
    List.nodup_cons] at hdistinct
  exact hdistinct.1 hserved

theorem ThreadInv.not_handedOver (h : ThreadInv tr s) {input : ThreadInput}
    (horderly : ¬ Orderly s input)
    (hstep : threadStep s input = some (s', es)) :
    ¬ HandedOver (tr ++ es) s' := by
  cases input with
  | accept fd =>
      simp only [threadStep, Option.ite_none_right_eq_some, Option.some.injEq,
        Prod.mk.injEq] at hstep
      obtain ⟨-, rfl, rfl⟩ := hstep
      exact h.not_handedOver_accept (not_not.mp horderly)
  | create succeeds =>
      obtain rfl : succeeds = false := Bool.eq_false_of_not_eq_true horderly
      simp only [threadStep, Bool.false_eq_true, if_false,
        Option.ite_none_right_eq_some, Option.some.injEq,
        Prod.mk.injEq] at hstep
      obtain ⟨hpc, rfl, rfl⟩ := hstep
      exact h.not_handedOver_failed hpc
  | start | finish => exact absurd trivial horderly

end Step

/-! ## Runs -/

theorem threadInv_exec {tr : List ThreadEvent} {s : ThreadServer}
    (h : (threadSystem Orderly).Exec tr s) : ThreadInv tr s := by
  refine h.invariant ?_ ?_
  · rintro s rfl
    exact ⟨.refl _, rfl, .nil, by simp [ThreadServer.served, ThreadServer.pending],
      by simp⟩
  · rintro tr s es s' hinv ⟨input, horderly, hstep⟩
    exact hinv.step horderly hstep

/-- As long as `accept` waits for the first step of every thread and every
thread can be created, the accepted descriptors are handed over one to one.
The first step that is not of this kind loses a descriptor. -/
theorem descriptors_handed_over {tr : List ThreadEvent} {s : ThreadServer}
    (hexec : (threadSystem Orderly).Exec tr s) :
    HandedOver tr s ∧
      ∀ input s' es, threadStep s input = some (s', es) →
        ¬ Orderly s input → ¬ HandedOver (tr ++ es) s' := by
  have hinv := threadInv_exec hexec
  exact ⟨hinv.handedOver,
    fun _ _ _ hstep horderly => hinv.not_handedOver horderly hstep⟩

/-- The second client is accepted behind the start of the first one's thread;
a third one in front of the start of the second thread would be too early. -/
theorem descriptors_handed_over_two_clients :
    ∃ tr s, (threadSystem Orderly).Exec tr s ∧
      acceptedFds tr = [4, 5] ∧ adoptedFds tr = [4] ∧ HandedOver tr s ∧
      ∀ s' es, threadStep s (.accept 6) = some (s', es) →
        ¬ HandedOver (tr ++ es) s' := by
  have hinit : (threadSystem Orderly).init ⟨.accepting, -1, [], ∅⟩ := rfl
  have hexec : (threadSystem Orderly).Exec _ _ :=
    (((((System.Exec.init hinit).step
      ⟨.accept 4, List.not_mem_nil, rfl⟩).step
      ⟨.create true, rfl, rfl⟩).step
      ⟨.start 0, trivial, rfl⟩).step
      ⟨.accept 5, by simp [Orderly], rfl⟩).step
      ⟨.create true, rfl, rfl⟩
  obtain ⟨hover, hearly⟩ := descriptors_handed_over hexec
  exact ⟨_, _, hexec, rfl, rfl, hover, fun s' es hstep =>
    hearly (.accept 6) s' es hstep fun h => h (List.mem_cons_of_mem _ (.head _))⟩

/-- The second client is accepted before the first thread starts: both threads
take the second descriptor. -/
theorem descriptor_adopted_twice :
    ∃ tr s, (threadSystem fun _ _ => True).Exec tr s ∧
      acceptedFds tr = [4, 5] ∧ adoptedFds tr = [5, 5] ∧
      ¬ HandedOver tr s := by
  have hinit : (threadSystem fun _ _ => True).init ⟨.accepting, -1, [], ∅⟩ :=
    rfl
  have hexec : (threadSystem fun _ _ => True).Exec _ _ :=
    ((((((System.Exec.init hinit).step
      ⟨.accept 4, trivial, rfl⟩).step
      ⟨.create true, trivial, rfl⟩).step
      ⟨.accept 5, trivial, rfl⟩).step
      ⟨.create true, trivial, rfl⟩).step
      ⟨.start 0, trivial, rfl⟩).step
      ⟨.start 1, trivial, rfl⟩
  refine ⟨_, _, hexec, rfl, rfl, fun h => ?_⟩
  have honce : ([5, 5] : List ℤ).Perm [4, 5] := h.once
  exact absurd honce (by decide)

end Pvos.Socksrv
