import Pvos.CustomQueue.Init

/-!
# When concurrent initialisation is safe

A process that finds `_full` may be ahead of the process that creates the
three semaphores: the two other names need not exist yet, and their values
need not be set.  A creator that lost the race still runs its `sem_init`
calls, over permits that are already in use.

Both happen only when a process opens `_full` while another one creates the
semaphores.  `InTurn` is the condition on the schedule that this does not
happen; all runs that meet it keep the handles valid and the permits balanced.
The invariant is that the process which creates the semaphores is alone: no
other process creates them or has found them.
-/

namespace Pvos.CustomQueue

open Pvos.Support

/-! ## The condition on a schedule -/

/-- Between finding `_full` missing and the last `sem_init`. -/
def InitPc.creating : InitPc → Bool
  | .createFull | .initFull | .createEmpty => true
  | .initEmpty | .createMutex | .initMutex => true
  | _ => false

/-- A process opens `_full` while no process creates the semaphores, and when
`_full` exists the two others exist too; behind it the system does not refuse to
open them. -/
def InTurn {P : Type*} (s : Config P Kernel InitLocal) (p : P)
    (c : InitChoice) : Prop :=
  match (s.loc p).pc with
  | .openFull =>
      (∀ r, (s.loc r).pc.creating = false) ∧
        (s.shared.hasFull = true →
          s.shared.hasEmpty = true ∧ s.shared.hasMutex = true)
  | .openEmpty | .openMutex => c.fails = false
  | _ => True

instance {P : Type*} [Fintype P] (s : Config P Kernel InitLocal) (p : P)
    (c : InitChoice) : Decidable (InTurn s p c) := by
  unfold InTurn
  split <;> infer_instance

/-! ## What one system call does -/

/-- Before `_full` was opened or found missing. -/
def InitPc.early : InitPc → Bool
  | .shmOpen | .shmCreate | .ftruncate | .mmap | .checkMap | .openFull => true
  | _ => false

/-- `_full` was found, or the queue is ready. -/
def InitPc.found : InitPc → Bool
  | .openEmpty | .openMutex | .ready => true
  | _ => false

/-- The handle of `_full` is open. -/
def InitPc.fullOpen : InitPc → Bool
  | .initFull | .createEmpty | .initEmpty | .createMutex | .initMutex => true
  | .openEmpty | .openMutex | .ready => true
  | _ => false

/-- The handle of `_empty` is open. -/
def InitPc.emptyOpen : InitPc → Bool
  | .initEmpty | .createMutex | .initMutex => true
  | .openMutex | .ready => true
  | _ => false

/-- The handle of `_mutex` is open. -/
def InitPc.mutexOpen : InitPc → Bool
  | .initMutex | .ready => true
  | _ => false

/-- The semaphores of two states are the same. -/
structure Kernel.SameSemaphores (k k' : Kernel) : Prop where
  hasFull : k'.hasFull = k.hasFull
  hasEmpty : k'.hasEmpty = k.hasEmpty
  hasMutex : k'.hasMutex = k.hasMutex
  semFull : k'.ring.semFull = k.ring.semFull
  semEmpty : k'.ring.semEmpty = k.ring.semEmpty
  semMutex : k'.ring.semMutex = k.ring.semMutex

theorem Kernel.SameSemaphores.refl (k : Kernel) : k.SameSemaphores k :=
  ⟨rfl, rfl, rfl, rfl, rfl, rfl⟩

/-- The cases of a step, by what it does to the semaphores and handles. -/
inductive InitStep (q : MQueue) (c : InitChoice) (k : Kernel)
    (l : InitLocal) : Kernel → InitLocal → Prop
  | die (hpc : l.pc = .checkMap ∨ l.pc = .ready) :
      InitStep q c k l k { l with alive := false }
  | fail (hpc : l.pc ≠ .ready) : InitStep q c k l k { l with pc := .failed }
  | early {k' : Kernel} {pc' : InitPc} {msgdata' : Bool}
      (hpc : l.pc.early = true) (hpc' : pc'.early = true)
      (hsame : k.SameSemaphores k') :
      InitStep q c k l k' { l with pc := pc', msgdata := msgdata' }
  | openFull (hpc : l.pc = .openFull) (hfull : k.hasFull = true) :
      InitStep q c k l k { l with pc := .openEmpty, semFull := true }
  | missing (hpc : l.pc = .openFull) (hfull : k.hasFull = false) :
      InitStep q c k l k { l with pc := .createFull }
  | createFull (hpc : l.pc = .createFull) :
      InitStep q c k l
        { k with
          hasFull := true
          ring := { k.ring with
            semFull := createdValue k.hasFull k.ring.semFull } }
        { l with pc := .initFull, semFull := true }
  | initFull (hpc : l.pc = .initFull) :
      InitStep q c k l
        { k with ring := { k.ring with semFull := semInitValue q.cap } }
        { l with pc := .createEmpty }
  | createEmpty (hpc : l.pc = .createEmpty) :
      InitStep q c k l
        { k with
          hasEmpty := true
          ring := { k.ring with
            semEmpty := createdValue k.hasEmpty k.ring.semEmpty } }
        { l with pc := .initEmpty, semEmpty := true }
  | initEmpty (hpc : l.pc = .initEmpty) :
      InitStep q c k l { k with ring := { k.ring with semEmpty := 0 } }
        { l with pc := .createMutex }
  | createMutex (hpc : l.pc = .createMutex) :
      InitStep q c k l
        { k with
          hasMutex := true
          ring := { k.ring with
            semMutex := createdValue k.hasMutex k.ring.semMutex } }
        { l with pc := .initMutex, semMutex := true }
  | initMutex (hpc : l.pc = .initMutex) :
      InitStep q c k l { k with ring := { k.ring with semMutex := 1 } }
        { l with pc := .ready }
  | openEmpty (hpc : l.pc = .openEmpty) :
      InitStep q c k l k
        { l with pc := .openMutex, semEmpty := !c.fails && k.hasEmpty }
  | openMutex (hpc : l.pc = .openMutex) :
      InitStep q c k l k
        { l with pc := .ready, semMutex := !c.fails && k.hasMutex }
  | op {g' : Ring} {op' : OpLocal} {es : List RingEvent}
      (hpc : l.pc = .ready)
      (hop : OpStep q k.ring l.op.msgbuf l.op.pc g' op' es) :
      InitStep q c k l { k with ring := g' } { l with op := op' }

/-- `open_shm` only moves on towards `mmap` and leaves the semaphores alone. -/
theorem openShm_cases {q : MQueue} {fails : Bool} {k k' : Kernel}
    {pc pc' : InitPc} (h : openShm q fails k pc = some (k', pc')) :
    pc.early = true ∧ (k' = k ∧ pc' = .failed ∨
      k.SameSemaphores k' ∧ pc'.early = true) := by
  unfold openShm at h
  split at h
  all_goals repeat' split at h
  all_goals simp only [Option.some.injEq, Prod.mk.injEq, reduceCtorEq] at h
  all_goals obtain ⟨rfl, rfl⟩ := h
  all_goals refine ⟨rfl, ?_⟩
  all_goals first
    | exact Or.inl ⟨rfl, rfl⟩
    | exact Or.inr ⟨⟨rfl, rfl, rfl, rfl, rfl, rfl⟩, rfl⟩

theorem initQueue_cases {q : MQueue} {c : InitChoice} {k k' : Kernel}
    {l l' : InitLocal} (h : initQueue q c.fails k l = some (k', l')) :
    InitStep q c k l k' l' := by
  cases hpc : l.pc with
  | shmOpen | shmCreate | ftruncate =>
      simp only [initQueue, hpc, Option.map_eq_some_iff, Prod.exists,
        Prod.mk.injEq] at h
      obtain ⟨k₁, pc', hshm, rfl, rfl⟩ := h
      obtain ⟨hearly, ⟨rfl, rfl⟩ | ⟨hsame, hearly'⟩⟩ := openShm_cases hshm
      · exact .fail (by simp [hpc])
      · exact .early (by simpa [hpc] using hearly) hearly' hsame
  | mmap =>
      simp only [initQueue, hpc, Option.some.injEq, Prod.mk.injEq] at h
      obtain ⟨rfl, rfl⟩ := h
      exact .early (by simp [hpc, InitPc.early]) rfl (.refl k)
  | checkMap =>
      simp only [initQueue, hpc] at h
      split at h
      · split at h <;> simp only [Option.some.injEq, Prod.mk.injEq] at h <;>
          obtain ⟨rfl, rfl⟩ := h
        · exact .fail (by simp [hpc])
        · exact .early (by simp [hpc, InitPc.early]) rfl (.refl k)
      · simp only [Option.some.injEq, Prod.mk.injEq] at h
        obtain ⟨rfl, rfl⟩ := h
        have hdie : InitStep q c k l k { l with alive := false } :=
          .die (Or.inl hpc)
        rwa [hpc] at hdie
  | openFull =>
      simp only [initQueue, hpc] at h
      split at h
      next =>
        simp only [Option.some.injEq, Prod.mk.injEq] at h
        obtain ⟨rfl, rfl⟩ := h
        exact .fail (by simp [hpc])
      next =>
        split at h <;> simp only [Option.some.injEq, Prod.mk.injEq] at h <;>
          obtain ⟨rfl, rfl⟩ := h
        next hfull => exact .openFull hpc hfull
        next hfull => exact .missing hpc (by simpa using hfull)
  | createFull =>
      simp only [initQueue, hpc] at h
      split at h <;> simp only [Option.some.injEq, Prod.mk.injEq] at h <;>
        obtain ⟨rfl, rfl⟩ := h
      next => exact .fail (by simp [hpc])
      next => exact .createFull hpc
  | initFull =>
      simp only [initQueue, hpc] at h
      split at h <;> simp only [Option.some.injEq, Prod.mk.injEq] at h <;>
        obtain ⟨rfl, rfl⟩ := h
      next => exact .fail (by simp [hpc])
      next => exact .initFull hpc
  | createEmpty =>
      simp only [initQueue, hpc] at h
      split at h <;> simp only [Option.some.injEq, Prod.mk.injEq] at h <;>
        obtain ⟨rfl, rfl⟩ := h
      next => exact .fail (by simp [hpc])
      next => exact .createEmpty hpc
  | initEmpty =>
      simp only [initQueue, hpc] at h
      split at h <;> simp only [Option.some.injEq, Prod.mk.injEq] at h <;>
        obtain ⟨rfl, rfl⟩ := h
      next => exact .fail (by simp [hpc])
      next => exact .initEmpty hpc
  | createMutex =>
      simp only [initQueue, hpc] at h
      split at h <;> simp only [Option.some.injEq, Prod.mk.injEq] at h <;>
        obtain ⟨rfl, rfl⟩ := h
      next => exact .fail (by simp [hpc])
      next => exact .createMutex hpc
  | initMutex =>
      simp only [initQueue, hpc] at h
      split at h <;> simp only [Option.some.injEq, Prod.mk.injEq] at h <;>
        obtain ⟨rfl, rfl⟩ := h
      next => exact .fail (by simp [hpc])
      next => exact .initMutex hpc
  | openEmpty =>
      simp only [initQueue, hpc, Option.some.injEq, Prod.mk.injEq] at h
      obtain ⟨rfl, rfl⟩ := h
      exact .openEmpty hpc
  | openMutex =>
      simp only [initQueue, hpc, Option.some.injEq, Prod.mk.injEq] at h
      obtain ⟨rfl, rfl⟩ := h
      exact .openMutex hpc
  | failed | ready => simp [initQueue, hpc] at h

theorem initProc_cases {q : MQueue} {c : InitChoice} {k k' : Kernel}
    {l l' : InitLocal} {es : List RingEvent}
    (h : initProc q c k l = some (k', l', es)) :
    es = [] ∧ InitStep q c k l k' l' := by
  simp only [initProc] at h
  split at h
  next =>
    simp only [Option.map_eq_some_iff, Prod.exists, Prod.mk.injEq] at h
    obtain ⟨k₁, l₁, hnext, rfl, rfl, rfl⟩ := h
    refine ⟨rfl, ?_⟩
    split at hnext
    next hready =>
      unfold useQueue at hnext
      split at hnext
      · simp only [Option.map_eq_some_iff, Prod.exists, Prod.mk.injEq] at hnext
        obtain ⟨g', op', es, hop, rfl, rfl⟩ := hnext
        exact .op hready (opStep_cases hop)
      · simp only [Option.some.injEq, Prod.mk.injEq] at hnext
        obtain ⟨rfl, rfl⟩ := hnext
        exact .die (Or.inr hready)
    next => exact initQueue_cases hnext
  next => simp at h

/-! ## Handles -/

/-- The handles of a process that its place in `init_queue` promises, and the
objects its valid handles promise. -/
structure LocalInv (k : Kernel) (l : InitLocal) : Prop where
  full : l.pc.fullOpen = true → l.semFull = true
  empty : l.pc.emptyOpen = true → l.semEmpty = true
  mutex : l.pc.mutexOpen = true → l.semMutex = true
  hasFull : l.semFull = true → k.hasFull = true
  hasEmpty : l.semEmpty = true → k.hasEmpty = true
  hasMutex : l.semMutex = true → k.hasMutex = true
  idle : l.pc ≠ .ready → l.op.pc = .idle

theorem LocalInv.handlesValid {k : Kernel} {l : InitLocal} (h : LocalInv k l)
    (hpc : l.pc = .ready) : l.HandlesValid := by
  have hfull := h.full
  have hempty := h.empty
  have hmutex := h.mutex
  rw [hpc] at hfull hempty hmutex
  exact ⟨hfull rfl, hempty rfl, hmutex rfl⟩

theorem LocalInv.exists_of_found {k : Kernel} {l : InitLocal}
    (h : LocalInv k l) (hpc : l.pc.found = true) : k.hasFull = true := by
  refine h.hasFull (h.full ?_)
  cases hl : l.pc <;> simp_all [InitPc.found, InitPc.fullOpen]

section Step

variable {q : MQueue} {c : InitChoice} {k k' : Kernel} {l l' : InitLocal}

/-- Semaphores are never unlinked. -/
theorem InitStep.exists_mono (h : InitStep q c k l k' l') :
    (k.hasFull = true → k'.hasFull = true) ∧
      (k.hasEmpty = true → k'.hasEmpty = true) ∧
      (k.hasMutex = true → k'.hasMutex = true) := by
  cases h with
  | early _ _ hsame => simp [hsame.hasFull, hsame.hasEmpty, hsame.hasMutex]
  | _ => simp

theorem LocalInv.mono {k k' : Kernel} {l : InitLocal} (h : LocalInv k l)
    (hmono : (k.hasFull = true → k'.hasFull = true) ∧
      (k.hasEmpty = true → k'.hasEmpty = true) ∧
      (k.hasMutex = true → k'.hasMutex = true)) : LocalInv k' l :=
  { h with
    hasFull := fun hl => hmono.1 (h.hasFull hl)
    hasEmpty := fun hl => hmono.2.1 (h.hasEmpty hl)
    hasMutex := fun hl => hmono.2.2 (h.hasMutex hl) }

/-- The handles of the branch for an existing queue are valid when the names
exist and the system does not refuse to open them. -/
theorem InitStep.localInv (h : InitStep q c k l k' l') (hinv : LocalInv k l)
    (hopen : l.pc = .openEmpty ∨ l.pc = .openMutex →
      c.fails = false ∧ k.hasEmpty = true ∧ k.hasMutex = true) :
    LocalInv k' l' := by
  have hkeep := hinv.mono h.exists_mono
  have hfull := hkeep.full
  have hempty := hkeep.empty
  cases h with
  | die => exact { hkeep with }
  | op hpc => exact { hkeep with idle := fun hne => (hne hpc).elim }
  | fail hpc =>
      exact { hkeep with
        full := by simp [InitPc.fullOpen]
        empty := by simp [InitPc.emptyOpen]
        mutex := by simp [InitPc.mutexOpen]
        idle := fun _ => hinv.idle hpc }
  | @early k' pc' _ hpc hpc' _ =>
      have hidle : l.op.pc = .idle := by
        apply hinv.idle
        rintro hready
        simp [hready, InitPc.early] at hpc
      exact { hkeep with
        full := by cases pc' <;> simp_all [InitPc.fullOpen, InitPc.early]
        empty := by cases pc' <;> simp_all [InitPc.emptyOpen, InitPc.early]
        mutex := by cases pc' <;> simp_all [InitPc.mutexOpen, InitPc.early]
        idle := fun _ => hidle }
  | openFull hpc hexists =>
      exact { hkeep with
        full := fun _ => rfl
        empty := by simp [InitPc.emptyOpen]
        mutex := by simp [InitPc.mutexOpen]
        hasFull := fun _ => hexists
        idle := fun _ => hinv.idle (by simp [hpc]) }
  | missing hpc =>
      exact { hkeep with
        full := by simp [InitPc.fullOpen]
        empty := by simp [InitPc.emptyOpen]
        mutex := by simp [InitPc.mutexOpen]
        idle := fun _ => hinv.idle (by simp [hpc]) }
  | createFull hpc =>
      exact { hkeep with
        full := fun _ => rfl
        empty := by simp [InitPc.emptyOpen]
        mutex := by simp [InitPc.mutexOpen]
        hasFull := fun _ => rfl
        idle := fun _ => hinv.idle (by simp [hpc]) }
  | initFull hpc =>
      rw [hpc] at hfull
      exact { hkeep with
        full := fun _ => hfull rfl
        empty := by simp [InitPc.emptyOpen]
        mutex := by simp [InitPc.mutexOpen]
        idle := fun _ => hinv.idle (by simp [hpc]) }
  | createEmpty hpc =>
      rw [hpc] at hfull
      exact { hkeep with
        full := fun _ => hfull rfl
        empty := fun _ => rfl
        mutex := by simp [InitPc.mutexOpen]
        hasEmpty := fun _ => rfl
        idle := fun _ => hinv.idle (by simp [hpc]) }
  | initEmpty hpc =>
      rw [hpc] at hfull hempty
      exact { hkeep with
        full := fun _ => hfull rfl
        empty := fun _ => hempty rfl
        mutex := by simp [InitPc.mutexOpen]
        idle := fun _ => hinv.idle (by simp [hpc]) }
  | createMutex hpc =>
      rw [hpc] at hfull hempty
      exact { hkeep with
        full := fun _ => hfull rfl
        empty := fun _ => hempty rfl
        mutex := fun _ => rfl
        hasMutex := fun _ => rfl
        idle := fun _ => hinv.idle (by simp [hpc]) }
  | initMutex hpc =>
      have hmutex := hkeep.mutex
      rw [hpc] at hfull hempty hmutex
      exact { hkeep with
        full := fun _ => hfull rfl
        empty := fun _ => hempty rfl
        mutex := fun _ => hmutex rfl
        idle := fun _ => hinv.idle (by simp [hpc]) }
  | openEmpty hpc =>
      obtain ⟨hfails, hexists, -⟩ := hopen (Or.inl hpc)
      rw [hpc] at hfull
      exact { hkeep with
        full := fun _ => hfull rfl
        empty := fun _ => by simp [hfails, hexists]
        mutex := by simp [InitPc.mutexOpen]
        hasEmpty := fun _ => hexists
        idle := fun _ => hinv.idle (by simp [hpc]) }
  | openMutex hpc =>
      obtain ⟨hfails, -, hexists⟩ := hopen (Or.inr hpc)
      rw [hpc] at hfull hempty
      exact { hkeep with
        full := fun _ => hfull rfl
        empty := fun _ => hempty rfl
        mutex := fun _ => by simp [hfails, hexists]
        hasMutex := fun _ => hexists
        idle := fun _ => hinv.idle (by simp [hpc]) }

/-! ## Places -/

/-- A process creates the semaphores from the call that found `_full` missing
on. -/
theorem InitStep.creating (h : InitStep q c k l k' l')
    (hl' : l'.pc.creating = true) :
    l.pc.creating = true ∨ l.pc = .openFull ∧ k.hasFull = false := by
  cases h with
  | missing hpc hfull => exact Or.inr ⟨hpc, hfull⟩
  | @early _ pc' _ _ hpc' =>
      cases pc' <;> simp [InitPc.creating, InitPc.early] at hl' hpc'
  | createFull hpc | initFull hpc | createEmpty hpc | initEmpty hpc
  | createMutex hpc => exact Or.inl (by rw [hpc]; rfl)
  | die | op => exact Or.inl hl'
  | _ => simp [InitPc.creating] at hl'

theorem InitStep.found (h : InitStep q c k l k' l')
    (hl' : l'.pc.found = true) :
    l.pc.found = true ∨ l.pc = .openFull ∧ k.hasFull = true ∨
      l.pc = .initMutex := by
  cases h with
  | openFull hpc hfull => exact Or.inr (Or.inl ⟨hpc, hfull⟩)
  | initMutex hpc => exact Or.inr (Or.inr hpc)
  | @early _ pc' _ _ hpc' =>
      cases pc' <;> simp [InitPc.found, InitPc.early] at hl' hpc'
  | openEmpty hpc | openMutex hpc => exact Or.inl (by rw [hpc]; rfl)
  | die | op => exact Or.inl hl'
  | _ => simp [InitPc.found] at hl'

theorem InitStep.ready_mono (h : InitStep q c k l k' l')
    (hready : l.pc = .ready) : l'.pc = .ready := by
  cases h with
  | early hpc => simp [hready, InitPc.early] at hpc
  | fail hpc => exact (hpc hready).elim
  | _ => simp_all

/-- `init_queue` returns `0` at the end of its two branches. -/
theorem InitStep.ready (h : InitStep q c k l k' l') (hl' : l'.pc = .ready)
    (hl : l.pc ≠ .ready) :
    l.pc = .initMutex ∧ k' = { k with ring := { k.ring with semMutex := 1 } } ∨
      l.pc = .openMutex ∧ k' = k := by
  cases h with
  | initMutex hpc => exact Or.inl ⟨hpc, rfl⟩
  | openMutex hpc => exact Or.inr ⟨hpc, rfl⟩
  | @early _ pc' _ _ hpc' =>
      cases pc' <;> simp [InitPc.early] at hl' hpc'
  | die | op => exact absurd hl' hl
  | _ => simp at hl'

/-! ## Values -/

theorem InitStep.emptyAfterFull (h : InitStep q c k l k' l')
    (hinv : LocalInv k l) (hold : k.hasEmpty = true → k.hasFull = true) :
    k'.hasEmpty = true → k'.hasFull = true := by
  cases h with
  | early _ _ hsame => simpa [hsame.hasEmpty, hsame.hasFull] using hold
  | createEmpty hpc =>
      exact fun _ => hinv.hasFull (hinv.full (by simp [hpc, InitPc.fullOpen]))
  | _ => simp_all

theorem InitStep.mutexAfterEmpty (h : InitStep q c k l k' l')
    (hinv : LocalInv k l) (hold : k.hasMutex = true → k.hasEmpty = true) :
    k'.hasMutex = true → k'.hasEmpty = true := by
  cases h with
  | early _ _ hsame => simpa [hsame.hasMutex, hsame.hasEmpty] using hold
  | createMutex hpc =>
      exact fun _ => hinv.hasEmpty
        (hinv.empty (by simp [hpc, InitPc.emptyOpen]))
  | _ => simp_all

/-- While no queue is in use, `_full` has its final value as soon as some
process is past its `sem_init`; `others` stands for the other processes. -/
theorem InitStep.fullValue (h : InitStep q c k l k' l')
    (others : Prop) (hpc : l.pc ≠ .ready)
    (hothers : others → k.hasFull = true)
    (hexists : k.hasEmpty = true → k.hasFull = true)
    (hold : k.hasEmpty = true ∨ l.pc = .createEmpty ∨ others →
      k.ring.semFull = semInitValue q.cap)
    (hnew : k'.hasEmpty = true ∨ l'.pc = .createEmpty ∨ others) :
    k'.ring.semFull = semInitValue q.cap := by
  cases h with
  | @early k' pc' _ _ hpc' hsame =>
      rw [hsame.semFull]
      rw [hsame.hasEmpty] at hnew
      have hne : pc' ≠ .createEmpty := by
        rintro rfl
        simp [InitPc.early] at hpc'
      exact hold (hnew.imp_right fun hor => Or.inr (hor.resolve_left hne))
  | initFull => rfl
  | createFull hcreate =>
      have hfull : k.hasFull = true := by
        rcases hnew with hempty | hpc' | hor
        · exact hexists hempty
        · simp at hpc'
        · exact hothers hor
      have hvalue := hold (hnew.imp_right fun hor => Or.inr (by simpa using hor))
      simpa [createdValue, hfull] using hvalue
  | fail | missing =>
      exact hold (hnew.imp_right fun hor => Or.inr (by simpa using hor))
  | op hready => exact (hpc hready).elim
  | _ => simp_all

/-- The same for `_empty`. -/
theorem InitStep.emptyValue (h : InitStep q c k l k' l')
    (others : Prop) (hpc : l.pc ≠ .ready)
    (hothers : others → k.hasEmpty = true)
    (hexists : k.hasMutex = true → k.hasEmpty = true)
    (hold : k.hasMutex = true ∨ l.pc = .createMutex ∨ others →
      k.ring.semEmpty = 0)
    (hnew : k'.hasMutex = true ∨ l'.pc = .createMutex ∨ others) :
    k'.ring.semEmpty = 0 := by
  cases h with
  | @early k' pc' _ _ hpc' hsame =>
      rw [hsame.semEmpty]
      rw [hsame.hasMutex] at hnew
      have hne : pc' ≠ .createMutex := by
        rintro rfl
        simp [InitPc.early] at hpc'
      exact hold (hnew.imp_right fun hor => Or.inr (hor.resolve_left hne))
  | initEmpty => rfl
  | createEmpty hcreate =>
      have hempty : k.hasEmpty = true := by
        rcases hnew with hmutex | hpc' | hor
        · exact hexists hmutex
        · simp at hpc'
        · exact hothers hor
      have hvalue := hold (hnew.imp_right fun hor => Or.inr (by simpa using hor))
      simpa [createdValue, hempty] using hvalue
  | fail | missing =>
      exact hold (hnew.imp_right fun hor => Or.inr (by simpa using hor))
  | op hready => exact (hpc hready).elim
  | _ => simp_all

theorem InitStep.mutexValue (h : InitStep q c k l k' l') (hpc : l.pc ≠ .ready)
    (hold : k.hasMutex = true → k.ring.semMutex = 1)
    (hnew : k'.hasMutex = true) : k'.ring.semMutex = 1 := by
  cases h with
  | early _ _ hsame =>
      rw [hsame.semMutex]
      exact hold (hsame.hasMutex ▸ hnew)
  | createMutex =>
      simp only [createdValue]
      split
      next hexists => exact hold hexists
      next => rfl
  | initMutex => rfl
  | op hready => exact (hpc hready).elim
  | _ => exact hold hnew

/-- A process that does not create the semaphores conserves the permits. -/
theorem InitStep.permits (h : InitStep q c k l k' l')
    (hpc : l.pc.creating = false) :
    k'.ring.semFull + k'.ring.semEmpty + l'.op.pc.inFlight =
        k.ring.semFull + k.ring.semEmpty + l.op.pc.inFlight ∧
      k'.ring.semMutex + l'.op.pc.holdsMutex =
        k.ring.semMutex + l.op.pc.holdsMutex := by
  cases h with
  | early _ _ hsame =>
      simp only [hsame.semFull, hsame.semEmpty, hsame.semMutex, and_self]
  | op _ hop => exact ⟨hop.permits, hop.mutex⟩
  | createFull hl | initFull hl | createEmpty hl | initEmpty hl
  | createMutex hl | initMutex hl => simp [hl, InitPc.creating] at hpc
  | _ => exact ⟨rfl, rfl⟩

end Step

/-! ## Permits -/

section Permits

variable {P : Type*} [Fintype P] [DecidableEq P] {q : MQueue}
  {s : Config P Kernel InitLocal} {p : P} {k' : Kernel} {l' : InitLocal}

/-- Over a balanced queue a step keeps the balance exactly when it conserves
the permits of its own process. -/
theorem balanced_move_iff (h : Balanced q s) :
    Balanced q (Program.move s p k' l') ↔
      k'.ring.semFull + k'.ring.semEmpty + l'.op.pc.inFlight =
          s.shared.ring.semFull + s.shared.ring.semEmpty +
            (s.loc p).op.pc.inFlight ∧
        k'.ring.semMutex + l'.op.pc.holdsMutex =
          s.shared.ring.semMutex + (s.loc p).op.pc.holdsMutex := by
  have hflight := total_update (fun l : InitLocal => l.op.pc.inFlight)
    s.loc p l'
  have hholds := total_update (fun l : InitLocal => l.op.pc.holdsMutex)
    s.loc p l'
  obtain ⟨hpermits, hmutex⟩ := h
  simp only [Balanced, Program.move_shared, Program.move_loc]
  omega

/-- Before the first operation only the semaphores count. -/
theorem balanced_move_iff_of_idle (h : ∀ r, (s.loc r).op.pc = .idle)
    (hl' : l'.op.pc = .idle) :
    Balanced q (Program.move s p k' l') ↔
      k'.ring.semFull + k'.ring.semEmpty = q.cap ∧ k'.ring.semMutex = 1 := by
  have hidle : ∀ r, (Function.update s.loc p l' r).op.pc = .idle :=
    Program.forall_move (g := k') (Q := fun _ (l : InitLocal) => l.op.pc = .idle)
      hl' fun r _ => h r
  have hflight : total (fun l : InitLocal => l.op.pc.inFlight)
      (Function.update s.loc p l') = 0 :=
    total_eq_zero fun r => by rw [hidle r]; rfl
  have hholds : total (fun l : InitLocal => l.op.pc.holdsMutex)
      (Function.update s.loc p l') = 0 :=
    total_eq_zero fun r => by rw [hidle r]; rfl
  simp only [Balanced, Program.move_shared, Program.move_loc, hflight, hholds,
    Nat.add_zero]

omit [Fintype P] in
theorem someReady_move_iff {c : InitChoice}
    (h : InitStep q c s.shared (s.loc p) k' l') :
    SomeReady (Program.move s p k' l') ↔ SomeReady s ∨ l'.pc = .ready := by
  have hmove : SomeReady (Program.move s p k' l') ↔
      l'.pc = .ready ∨ ∃ r ≠ p, (s.loc r).pc = .ready :=
    Program.exists_move_iff fun _ (l : InitLocal) => l.pc = .ready
  rw [hmove]
  constructor
  · rintro (hl' | ⟨r, -, hr⟩)
    · exact Or.inr hl'
    · exact Or.inl ⟨r, hr⟩
  · rintro (⟨r, hr⟩ | hl')
    · by_cases hrp : r = p
      · subst r
        exact Or.inl (h.ready_mono hr)
      · exact Or.inr ⟨r, hrp, hr⟩
    · exact Or.inl hl'

end Permits

/-! ## The invariant -/

section Invariant

variable {P : Type*}

/-- What holds in a run whose steps are in turn.  The values are those that the
creator has set, as long as no queue is in use. -/
structure CreationInv [Fintype P] (q : MQueue) (s : Config P Kernel InitLocal) :
    Prop where
  locals : ∀ p, LocalInv s.shared (s.loc p)
  alone : ∀ p r, r ≠ p → (s.loc p).pc.creating = true →
    (s.loc r).pc.creating = false ∧ (s.loc r).pc.found = false
  names : ∀ p, (s.loc p).pc.found = true →
    s.shared.hasEmpty = true ∧ s.shared.hasMutex = true
  emptyAfterFull : s.shared.hasEmpty = true → s.shared.hasFull = true
  mutexAfterEmpty : s.shared.hasMutex = true → s.shared.hasEmpty = true
  fullValue : ¬ SomeReady s →
    (s.shared.hasEmpty = true ∨ ∃ p, (s.loc p).pc = .createEmpty) →
      s.shared.ring.semFull = semInitValue q.cap
  emptyValue : ¬ SomeReady s →
    (s.shared.hasMutex = true ∨ ∃ p, (s.loc p).pc = .createMutex) →
      s.shared.ring.semEmpty = 0
  mutexValue : ¬ SomeReady s → s.shared.hasMutex = true →
    s.shared.ring.semMutex = 1
  balanced : SomeReady s → Balanced q s

section Single

variable [Fintype P] {q : MQueue} {s : Config P Kernel InitLocal} {p : P}
  {c : InitChoice} {k' : Kernel} {l' : InitLocal}

theorem creationInv_init (h : NothingExists s) : CreationInv q s := by
  obtain ⟨_, hfull, hempty, hmutex, hstart⟩ := h
  have hpc : ∀ p, (s.loc p).pc = .shmOpen := by
    intro p
    obtain ⟨msgbuf, hl⟩ := hstart p
    rw [hl]
    rfl
  have hnotReady : ¬ SomeReady s := by
    rintro ⟨p, hp⟩
    simp [hpc p] at hp
  constructor
  · intro p
    obtain ⟨msgbuf, hl⟩ := hstart p
    rw [hl]
    constructor <;> simp [InitLocal.start, InitPc.fullOpen, InitPc.emptyOpen,
      InitPc.mutexOpen]
  · intro p r _ hp
    simp [hpc p, InitPc.creating] at hp
  · intro p hp
    simp [hpc p, InitPc.found] at hp
  · simp [hempty]
  · simp [hmutex]
  · simp [hempty, hpc]
  · simp [hmutex, hpc]
  · simp [hmutex]
  · exact fun hready => (hnotReady hready).elim

theorem CreationInv.safe (h : CreationInv q s) : InitSafe q s :=
  ⟨fun p hp => (h.locals p).handlesValid hp, h.balanced⟩

theorem CreationInv.idle_of_not_someReady (h : CreationInv q s)
    (hready : ¬ SomeReady s) (r : P) : (s.loc r).op.pc = .idle :=
  (h.locals r).idle fun hr => hready ⟨r, hr⟩

/-- While a process creates the semaphores nobody is ready. -/
theorem CreationInv.not_creating (h : CreationInv q s) (hready : SomeReady s)
    (p : P) : (s.loc p).pc.creating = false := by
  obtain ⟨r, hr⟩ := hready
  by_cases hrp : r = p
  · rw [← hrp, hr]
    rfl
  · by_contra hcreating
    have hfound := (h.alone p r hrp (by simpa using hcreating)).2
    rw [hr] at hfound
    contradiction

/-- The process that steps creates the semaphores alone, or it does not. -/
theorem CreationInv.creating_step (h : CreationInv q s)
    (hstep : InitStep q c s.shared (s.loc p) k' l') (hok : InTurn s p c)
    (hl' : l'.pc.creating = true) {r : P} (hr : r ≠ p) :
    (s.loc r).pc.creating = false ∧ (s.loc r).pc.found = false := by
  rcases hstep.creating hl' with hp | ⟨hpc, hmissing⟩
  · exact h.alone p r hr hp
  · simp only [InTurn, hpc] at hok
    refine ⟨hok.1 r, ?_⟩
    by_contra hfound
    have hexists := (h.locals r).exists_of_found (by simpa using hfound)
    rw [hmissing] at hexists
    contradiction

theorem CreationInv.found_step (h : CreationInv q s)
    (hstep : InitStep q c s.shared (s.loc p) k' l') (hok : InTurn s p c)
    (hl' : l'.pc.found = true) {r : P} (hr : r ≠ p) :
    (s.loc r).pc.creating = false := by
  rcases hstep.found hl' with hp | ⟨hpc, -⟩ | hpc
  · by_contra hcreating
    have hfound := (h.alone r p hr.symm (by simpa using hcreating)).2
    rw [hp] at hfound
    contradiction
  · simp only [InTurn, hpc] at hok
    exact hok.1 r
  · exact (h.alone p r hr (by rw [hpc]; rfl)).1

theorem CreationInv.names_step (h : CreationInv q s)
    (hstep : InitStep q c s.shared (s.loc p) k' l') (hok : InTurn s p c)
    (hl' : l'.pc.found = true) :
    s.shared.hasEmpty = true ∧ s.shared.hasMutex = true := by
  rcases hstep.found hl' with hp | ⟨hpc, hfull⟩ | hpc
  · exact h.names p hp
  · simp only [InTurn, hpc] at hok
    exact hok.2 hfull
  · have hlocal := h.locals p
    exact ⟨hlocal.hasEmpty (hlocal.empty (by rw [hpc]; rfl)),
      hlocal.hasMutex (hlocal.mutex (by rw [hpc]; rfl))⟩

theorem CreationInv.open_step (h : CreationInv q s) (hok : InTurn s p c)
    (hpc : (s.loc p).pc = .openEmpty ∨ (s.loc p).pc = .openMutex) :
    c.fails = false ∧ s.shared.hasEmpty = true ∧ s.shared.hasMutex = true := by
  rcases hpc with hpc | hpc
  all_goals
    simp only [InTurn, hpc] at hok
    exact ⟨hok, h.names p (by rw [hpc]; rfl)⟩

variable [DecidableEq P]

/-- The first process that is ready finds the initial permits. -/
theorem CreationInv.balanced_step (h : CreationInv q s)
    (hcap : q.cap < uintModulus)
    (hstep : InitStep q c s.shared (s.loc p) k' l') (hok : InTurn s p c)
    (hready : SomeReady (Program.move s p k' l')) :
    Balanced q (Program.move s p k' l') := by
  by_cases hsome : SomeReady s
  · exact (balanced_move_iff (h.balanced hsome)).mpr
      (hstep.permits (h.not_creating hsome p))
  have hl' : l'.pc = .ready :=
    ((someReady_move_iff hstep).mp hready).resolve_left hsome
  have hidle := h.idle_of_not_someReady hsome
  have hop : l'.op.pc = .idle := by
    have hpermits := hidle p
    cases hstep with
    | op hpc => exact absurd ⟨p, hpc⟩ hsome
    | _ => exact hpermits
  obtain ⟨hempty, hmutex⟩ := h.names_step hstep hok (by rw [hl']; rfl)
  have hfullValue := h.fullValue hsome (Or.inl hempty)
  rw [semInitValue, Nat.mod_eq_of_lt hcap] at hfullValue
  have hemptyValue := h.emptyValue hsome (Or.inl hmutex)
  have hmutexValue := h.mutexValue hsome hmutex
  rw [balanced_move_iff_of_idle hidle hop]
  rcases hstep.ready hl' (fun hp => hsome ⟨p, hp⟩) with
    ⟨-, rfl⟩ | ⟨-, rfl⟩
  · exact ⟨by simp [hfullValue, hemptyValue], rfl⟩
  · exact ⟨by simp [hfullValue, hemptyValue], hmutexValue⟩

/-- Behind the step the process that creates the semaphores is still alone. -/
theorem CreationInv.alone_step (h : CreationInv q s)
    (hstep : InitStep q c s.shared (s.loc p) k' l') (hok : InTurn s p c)
    {a b : P} (hba : b ≠ a)
    (ha : ((Program.move s p k' l').loc a).pc.creating = true) :
    ((Program.move s p k' l').loc b).pc.creating = false ∧
      ((Program.move s p k' l').loc b).pc.found = false := by
  rw [Program.move_loc] at ha ⊢
  by_cases hap : a = p
  · subst hap
    rw [Function.update_self] at ha
    rw [Function.update_of_ne hba]
    exact h.creating_step hstep hok ha hba
  rw [Function.update_of_ne hap] at ha
  by_cases hbp : b = p
  · subst hbp
    rw [Function.update_self]
    refine ⟨?_, ?_⟩ <;> by_contra hl'
    · have hnot := (h.creating_step hstep hok (by simpa using hl') hap).1
      rw [ha] at hnot
      contradiction
    · have hnot := h.found_step hstep hok (by simpa using hl') hap
      rw [ha] at hnot
      contradiction
  · rw [Function.update_of_ne hbp]
    exact h.alone a b hba ha

/-- A step in turn keeps the invariant. -/
theorem CreationInv.move (h : CreationInv q s) (hcap : q.cap < uintModulus)
    (hstep : InitStep q c s.shared (s.loc p) k' l') (hok : InTurn s p c) :
    CreationInv q (Program.move s p k' l') := by
  have hnotReady : ¬ SomeReady (Program.move s p k' l') → ¬ SomeReady s :=
    fun hnot hready => hnot ((someReady_move_iff hstep).mpr (Or.inl hready))
  have hmono := hstep.exists_mono
  constructor
  · exact Program.forall_move (Q := fun _ l => LocalInv k' l)
      (hstep.localInv (h.locals p) (h.open_step hok))
      fun r _ => (h.locals r).mono hmono
  · exact fun a b hba => h.alone_step hstep hok hba
  · exact Program.forall_move (Q := fun _ (l : InitLocal) =>
      l.pc.found = true → k'.hasEmpty = true ∧ k'.hasMutex = true)
      (fun hl' => (h.names_step hstep hok hl').imp hmono.2.1 hmono.2.2)
      fun r _ hr => (h.names r hr).imp hmono.2.1 hmono.2.2
  · exact hstep.emptyAfterFull (h.locals p) h.emptyAfterFull
  · exact hstep.mutexAfterEmpty (h.locals p) h.mutexAfterEmpty
  · intro hready hnew
    have hold := h.fullValue (hnotReady hready)
    refine hstep.fullValue (∃ r ≠ p, (s.loc r).pc = .createEmpty)
      (fun hp => hnotReady hready ⟨p, hp⟩) ?_ h.emptyAfterFull ?_ ?_
    · rintro ⟨r, _, hr⟩
      exact (h.locals r).hasFull
        ((h.locals r).full (by simp [hr, InitPc.fullOpen]))
    · rintro (hempty | hp | ⟨r, _, hr⟩)
      · exact hold (Or.inl hempty)
      · exact hold (Or.inr ⟨p, hp⟩)
      · exact hold (Or.inr ⟨r, hr⟩)
    · exact hnew.imp_right
        (Program.exists_move_iff fun _ (l : InitLocal) => l.pc = .createEmpty).mp
  · intro hready hnew
    have hold := h.emptyValue (hnotReady hready)
    refine hstep.emptyValue (∃ r ≠ p, (s.loc r).pc = .createMutex)
      (fun hp => hnotReady hready ⟨p, hp⟩) ?_ h.mutexAfterEmpty ?_ ?_
    · rintro ⟨r, _, hr⟩
      exact (h.locals r).hasEmpty
        ((h.locals r).empty (by simp [hr, InitPc.emptyOpen]))
    · rintro (hmutex | hp | ⟨r, _, hr⟩)
      · exact hold (Or.inl hmutex)
      · exact hold (Or.inr ⟨p, hp⟩)
      · exact hold (Or.inr ⟨r, hr⟩)
    · exact hnew.imp_right
        (Program.exists_move_iff fun _ (l : InitLocal) => l.pc = .createMutex).mp
  · intro hready
    exact hstep.mutexValue (fun hp => hnotReady hready ⟨p, hp⟩)
      (h.mutexValue (hnotReady hready))
  · exact h.balanced_step hcap hstep hok

end Single

/-- The runs of `initSystem` all of whose steps are in turn. -/
def inTurnInitSystem (P : Type*) [DecidableEq P] (q : MQueue) :
    System (Config P Kernel InitLocal) RingEvent :=
  (initProgram P q).systemWhen NothingExists InTurn

end Invariant

/-! ## Results -/

/-- Two processes that have not made a system call yet. -/
def twoStarting : Config Bool Kernel InitLocal where
  shared := ⟨none, false, false, false, ⟨0, 0, 0, 0, 0, fun _ => 0⟩⟩
  loc _ := .start fun _ => 0

theorem twoStarting_nothingExists : NothingExists twoStarting :=
  ⟨rfl, rfl, rfl, rfl, fun _ => ⟨_, rfl⟩⟩

/-- System calls that succeed, then calls of `send`. -/
def succeeds : InitChoice := ⟨false, .send fun _ => 65⟩

end Pvos.CustomQueue
