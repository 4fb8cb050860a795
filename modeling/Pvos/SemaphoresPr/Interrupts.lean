import Pvos.SemaphoresPr.Equivalence

/-!
# Interrupted waits

No program looks at what `sem_wait` or `semop` returned.  A wait that fails
with `EINTR` lets its process into the crate without a permit; the posts
behind it then create permits that nobody has taken.

As long as no wait is interrupted the crate is guarded.  For the programs with
System V semaphores the posts may even fail: a permit that is lost keeps
processes out of the crate, so the invariant bounds the permits from above.
-/

namespace Pvos.SemaphoresPr

open Pvos.Support

/-! ## What the semaphores are for -/

/-- One process at a time in a produce or drain body, at most one permit for
the memory, no more items than slots, and no drain before the crate is full. -/
structure Guarded {P : Type*} (capacity memory state : ℕ)
    (inside drains : P → Prop) : Prop where
  one_inside : ∀ p q, inside p → inside q → p = q
  memory_le : memory ≤ 1
  state_le : state ≤ capacity
  drain_full : ∀ p, drains p → state = capacity

/-- The crate with POSIX semaphores is guarded. -/
def PosixGuarded {P : Type*} (capacity : ℕ)
    (s : Config P PosixCrate PosixLocal) : Prop :=
  Guarded capacity s.shared.memorySem s.shared.state
    (fun p => 0 < (s.loc p).pc.holdsMemory) (fun p => 0 < (s.loc p).pc.drains)

/-- Between the call that takes the memory semaphore and the post. -/
def SysvPc.inside : SysvPc → ℕ
  | .downProducer | .downConsumer => 0
  | _ => 1

/-- A consumer between its call and the reset of `state`. -/
def SysvPc.drains : SysvPc → ℕ
  | .read _ | .reset => 1
  | _ => 0

/-- The crate with System V semaphores is guarded. -/
def SysvGuarded {P : Type*} (capacity : ℕ)
    (v : Config P SysvCrate SysvLocal) : Prop :=
  Guarded capacity (Sems.memory v.shared.sems) v.shared.state
    (fun p => 0 < (v.loc p).pc.inside) (fun p => 0 < (v.loc p).pc.drains)

/-! ## The programs with interrupts -/

/-- The value of a semaphore that held `left` and is set to `capacity`; a value
above `max` is refused. -/
def setValue (max left capacity : ℕ) : ℕ :=
  if capacity ≤ max then capacity else left

/-- `SEM_VALUE_MAX`. -/
def semValueMax : ℕ := 2147483647

/-- The crate as `crate.cpp` leaves it, before any process has started. -/
def PosixCreated {P : Type*} (capacity : ℕ) (isProducer : P → Bool)
    (s : Config P PosixCrate PosixLocal) : Prop :=
  s.shared = ⟨0, 1, setValue semValueMax 0 capacity, 0, fun _ _ => 0⟩ ∧
    ∀ p, (s.loc p).pc = .start (isProducer p)

/-- The crate as `vcrate.cpp` leaves it, over a semaphore set in which the
value for the producers was `left`. -/
def SysvCreated {P : Type*} (capacity left : ℕ) (isProducer : P → Bool)
    (v : Config P SysvCrate SysvLocal) : Prop :=
  v.shared.sems = semsOf 0 1 (setValue semvmx.toNat left capacity) ∧
    v.shared.state = 0 ∧ ∀ p, (v.loc p).pc = .start (isProducer p)

/-- At a call of `sem_wait`. -/
def PosixPc.waits : PosixPc → Bool
  | .waitProducer | .waitMemory | .waitConsumer | .waitMemoryToDrain => true
  | _ => false

/-- At a `semop` that takes permits. -/
def SysvPc.waits : SysvPc → Bool
  | .downProducer | .downConsumer => true
  | _ => false

section Systems

variable {P : Type*} [DecidableEq P] (capacity left : ℕ) (text : P → ℕ → Text)
  (isProducer : P → Bool)

/-- All interleavings; any call may be interrupted. -/
def posixInterrupted : System (Config P PosixCrate PosixLocal) (CrateEvent P) :=
  (posixProgram capacity text).system (PosixCreated capacity isProducer)

/-- All interleavings in which no wait is interrupted. -/
def posixUninterrupted :
    System (Config P PosixCrate PosixLocal) (CrateEvent P) :=
  (posixProgram capacity text).systemWhen (PosixCreated capacity isProducer)
    fun s p interrupted => (s.loc p).pc.waits = true → interrupted = false

/-- All interleavings; any call may be interrupted. -/
def sysvInterrupted : System (Config P SysvCrate SysvLocal) (CrateEvent P) :=
  (sysvProgram capacity text).system (SysvCreated capacity left isProducer)

/-- All interleavings in which no wait is interrupted. -/
def sysvUninterrupted : System (Config P SysvCrate SysvLocal) (CrateEvent P) :=
  (sysvProgram capacity text).systemWhen (SysvCreated capacity left isProducer)
    fun v p interrupted => (v.loc p).pc.waits = true → interrupted = false

end Systems

/-! ## POSIX semaphores -/

section Posix

variable {P : Type*} {capacity : ℕ} {text : P → ℕ → Text}
  {isProducer : P → Bool} {s : Config P PosixCrate PosixLocal}

/-- Only waits can be interrupted. -/
theorem posixStep_of_not_waits {p : P} {g : PosixCrate} {l : PosixLocal}
    (h : l.pc.waits = false) (interrupted : Bool) :
    posixStep capacity text p interrupted g l =
      posixStep capacity text p false g l := by
  obtain ⟨pc, buf⟩ := l
  cases pc with
  | waitProducer | waitMemory | waitConsumer | waitMemoryToDrain =>
      simp [PosixPc.waits] at h
  | _ => rfl

/-- The step is one of a run in which no call is interrupted. -/
theorem posixStep_uninterrupted {p : P} {g : PosixCrate} {l : PosixLocal}
    {interrupted : Bool} (h : l.pc.waits = true → interrupted = false) :
    posixStep capacity text p interrupted g l =
      posixStep capacity text p false g l := by
  by_cases hwaits : l.pc.waits = true
  · rw [h hwaits]
  · exact posixStep_of_not_waits (by simpa using hwaits) _

/-- Without permits for the producers nobody gets in. -/
theorem posixStep_blocked {p : P} {g : PosixCrate} {l : PosixLocal}
    (hpc : l.pc = .start (isProducer p)) (hproducer : g.producerSem = 0)
    (hconsumer : g.consumerSem = 0) :
    posixStep capacity text p false g l = none := by
  unfold posixStep
  rw [hpc]
  cases isProducer p with
  | true => simp [PosixPc.start, semWait, hproducer]
  | false => simp [PosixPc.start, semWait, hconsumer]

variable [Fintype P]

theorem PosixInv.guarded (h : PosixInv capacity isProducer s) :
    PosixGuarded capacity s := by
  refine ⟨fun p q => h.alone, ?_, h.state_le, fun p => h.drain_full⟩
  have := h.memory
  omega

variable [DecidableEq P]

omit [Fintype P] in
/-- When the producer semaphore cannot hold the capacity, it is zero, and the
first state has no successor. -/
theorem posixUninterrupted_final
    (hset : ¬ (1 ≤ capacity ∧ capacity ≤ semValueMax))
    (h : PosixCreated capacity isProducer s) :
    (posixUninterrupted capacity text isProducer).Final s := by
  have hzero : setValue semValueMax 0 capacity = 0 := by
    unfold setValue
    split <;> omega
  obtain ⟨hshared, hpc⟩ := h
  rintro es s' ⟨p, interrupted, hok, hexec⟩
  obtain ⟨g', l', hproc, rfl⟩ := Program.exec_eq_some hexec
  have hproc' := (posixStep_uninterrupted hok).symm.trans hproc
  rw [posixStep_blocked (hpc p) (by rw [hshared, hzero])
    (by rw [hshared])] at hproc'
  simp at hproc'

theorem posixUninterrupted_guarded
    (h : (posixUninterrupted capacity text isProducer).Reachable s) :
    PosixGuarded capacity s := by
  by_cases hset : 1 ≤ capacity ∧ capacity ≤ semValueMax
  · apply PosixInv.guarded
    refine h.invariant (I := PosixInv capacity isProducer) ?_ ?_
    · rintro s ⟨hshared, hpc⟩
      rw [setValue, if_pos hset.2] at hshared
      exact posixInv_init hset.1 ⟨hshared, hpc⟩
    · rintro s es s' hinv ⟨p, interrupted, hok, hexec⟩
      obtain ⟨g', l', hproc, rfl⟩ := Program.exec_eq_some hexec
      have hproc' := (posixStep_uninterrupted hok).symm.trans hproc
      exact hinv.move hset.1 (posixStep_cases hproc')
  · have hcreated : PosixCreated capacity isProducer s :=
      h.invariant (fun s hs => hs) fun _ _ _ hs hstep =>
        absurd hstep (posixUninterrupted_final hset hs _ _)
    obtain ⟨hshared, hpc⟩ := hcreated
    have hout : ∀ p, (s.loc p).pc.holdsMemory = 0 ∧ (s.loc p).pc.drains = 0 := by
      intro p
      rw [hpc p]
      cases isProducer p <;> exact ⟨rfl, rfl⟩
    refine ⟨fun p q hp => ?_, ?_, ?_, fun p hp => ?_⟩
    · simp [hout p] at hp
    · rw [hshared]
    · rw [hshared]
      exact Nat.zero_le _
    · simp [hout p] at hp

end Posix

/-! ## System V semaphores -/

/-- The permits that the operations of a call post. -/
def raised : List Sembuf → Fin 3 → ℕ
  | [], _ => 0
  | ⟨num, op⟩ :: rest, k => (if k = num then op.toNat else 0) + raised rest k

/-- A call posts no more than that. -/
theorem semop_le {ops : List Sembuf} {sems sems' : Sems}
    (h : semop ops sems = .done sems') (k : Fin 3) :
    sems' k ≤ sems k + raised ops k := by
  induction ops generalizing sems with
  | nil =>
      simp only [semop, SemopResult.done.injEq] at h
      exact h ▸ Nat.le_refl _
  | cons first rest ih =>
      obtain ⟨num, op⟩ := first
      simp only [semop] at h
      split at h
      next => simp at h
      next =>
        split at h
        next => simp at h
        next =>
          split at h
          next => simp at h
          next =>
            have hle := ih h
            by_cases hk : k = num
            · subst hk
              rw [Function.update_self] at hle
              simp only [raised, if_true]
              omega
            · rw [Function.update_of_ne hk] at hle
              simp only [raised, if_neg hk]
              omega

/-- Also a call that fails or is interrupted. -/
theorem semopCall_le {ops : List Sembuf} {sems sems' : Sems} {interrupted : Bool}
    (h : semopCall interrupted ops sems = some sems') (k : Fin 3) :
    sems' k ≤ sems k + raised ops k := by
  unfold semopCall at h
  split at h
  next =>
    obtain rfl := Option.some.inj h
    exact Nat.le_add_right _ _
  next =>
    split at h
    next => simp at h
    next =>
      obtain rfl := Option.some.inj h
      exact Nat.le_add_right _ _
    next hdone =>
      obtain rfl := Option.some.inj h
      exact semop_le hdone k

/-- The cast to `short` makes no number greater. -/
theorem bmod_toNat_le (capacity : ℕ) :
    (Int.bmod capacity (2 ^ 16)).toNat ≤ capacity := by
  simp only [Int.bmod]
  split <;> omega

theorem raised_producerMemUp (capacity : ℕ) :
    raised (producerMemUp capacity) 0 = 0 ∧
      raised (producerMemUp capacity) 1 = 1 ∧
      raised (producerMemUp capacity) 2 ≤ capacity := by
  refine ⟨rfl, rfl, ?_⟩
  have hle := bmod_toNat_le capacity
  simpa [raised, producerMemUp] using hle

/-- What a statement does to the semaphores and to `state`, when a wait takes
its permits and a post may be lost. -/
inductive SysvMoves (capacity : ℕ) (sems : Sems) (state : ℕ) :
    SysvPc → Sems → ℕ → SysvPc → Prop
  | downProducer (sems' : Sems) (hconsumer : sems'.consumer ≤ sems.consumer)
      (hmemory : sems'.memory + 1 ≤ sems.memory)
      (hproducer : sems'.producer + 1 ≤ sems.producer) :
      SysvMoves capacity sems state .downProducer sems' state .produce
  | produce : SysvMoves capacity sems state .produce sems state .increment
  | increment :
      SysvMoves capacity sems state .increment sems (state + 1) .compare
  | compareFull (hfull : state = capacity) :
      SysvMoves capacity sems state .compare sems state .upConsumer
  | compareRoom (hroom : state ≠ capacity) :
      SysvMoves capacity sems state .compare sems state .upMemory
  | upConsumer (sems' : Sems) (hconsumer : sems'.consumer ≤ sems.consumer + 1)
      (hmemory : sems'.memory ≤ sems.memory)
      (hproducer : sems'.producer ≤ sems.producer) :
      SysvMoves capacity sems state .upConsumer sems' state .upMemory
  | upMemory (sems' : Sems) (hconsumer : sems'.consumer ≤ sems.consumer)
      (hmemory : sems'.memory ≤ sems.memory + 1)
      (hproducer : sems'.producer ≤ sems.producer) :
      SysvMoves capacity sems state .upMemory sems' state .downProducer
  | downConsumer (sems' : Sems) (hconsumer : sems'.consumer + 1 ≤ sems.consumer)
      (hmemory : sems'.memory + 1 ≤ sems.memory)
      (hproducer : sems'.producer ≤ sems.producer) :
      SysvMoves capacity sems state .downConsumer sems' state
        (.drainFrom capacity 0)
  | read (i : ℕ) :
      SysvMoves capacity sems state (.read i) sems state
        (.drainFrom capacity (i + 1))
  | reset : SysvMoves capacity sems state .reset sems 0 .upProducer
  | upProducer (sems' : Sems) (hconsumer : sems'.consumer ≤ sems.consumer)
      (hmemory : sems'.memory ≤ sems.memory + 1)
      (hproducer : sems'.producer ≤ sems.producer + capacity) :
      SysvMoves capacity sems state .upProducer sems' state .downConsumer

theorem sysvStep_moves {P : Type*} {capacity : ℕ} {text : P → ℕ → Text} {p : P}
    {interrupted : Bool} {g g' : SysvCrate} {pc : SysvPc} {buf : Memory}
    {l' : SysvLocal} {es : List (CrateEvent P)}
    (hmax : ∀ k, (g.sems k : ℤ) ≤ semvmx)
    (hok : pc.waits = true → interrupted = false)
    (h : sysvStep capacity text p interrupted g ⟨pc, buf⟩ =
      some (g', l', es)) :
    SysvMoves capacity g.sems g.state pc g'.sems g'.state l'.pc := by
  cases pc with
  | downProducer =>
      obtain rfl := hok rfl
      simp only [sysvStep, Option.map_eq_some_iff, Prod.mk.injEq,
        producerMemDown, semopCall_down (show (2 : Fin 3) ≠ 1 by decide)
        (hmax 2) (hmax 1)] at h
      obtain ⟨sems, ⟨hproducer, hmemory, rfl⟩, rfl, rfl, rfl⟩ := h
      apply SysvMoves.downProducer
      · simp
      · simp
        omega
      · simp
        omega
  | downConsumer =>
      obtain rfl := hok rfl
      simp only [sysvStep, Option.map_eq_some_iff, Prod.mk.injEq,
        consumerMemDown, semopCall_down (show (0 : Fin 3) ≠ 1 by decide)
        (hmax 0) (hmax 1)] at h
      obtain ⟨sems, ⟨hconsumer, hmemory, rfl⟩, rfl, rfl, rfl⟩ := h
      apply SysvMoves.downConsumer
      · simp
        omega
      · simp
        omega
      · simp
  | upConsumer =>
      simp only [sysvStep, Option.map_eq_some_iff, Prod.mk.injEq] at h
      obtain ⟨sems, hcall, rfl, rfl, rfl⟩ := h
      have hle := semopCall_le hcall
      exact .upConsumer _ (hle 0) (hle 1) (hle 2)
  | upMemory =>
      simp only [sysvStep, Option.map_eq_some_iff, Prod.mk.injEq] at h
      obtain ⟨sems, hcall, rfl, rfl, rfl⟩ := h
      have hle := semopCall_le hcall
      exact .upMemory _ (hle 0) (hle 1) (hle 2)
  | upProducer =>
      simp only [sysvStep, Option.map_eq_some_iff, Prod.mk.injEq] at h
      obtain ⟨sems, hcall, rfl, rfl, rfl⟩ := h
      have hle := semopCall_le hcall
      obtain ⟨hconsumer, hmemory, hproducer⟩ := raised_producerMemUp capacity
      refine .upProducer _ ?_ ?_ ((hle 2).trans (Nat.add_le_add_left hproducer _))
      · simpa [hconsumer] using hle 0
      · simpa [hmemory] using hle 1
  | compare =>
      simp only [sysvStep] at h
      split at h
      next hfull =>
        simp only [Option.some.injEq, Prod.mk.injEq] at h
        obtain ⟨rfl, rfl, rfl⟩ := h
        exact .compareFull hfull
      next hroom =>
        simp only [Option.some.injEq, Prod.mk.injEq] at h
        obtain ⟨rfl, rfl, rfl⟩ := h
        exact .compareRoom hroom
  | _ =>
      simp only [sysvStep, Option.some.injEq, Prod.mk.injEq] at h
      obtain ⟨rfl, rfl, rfl⟩ := h
      constructor

/-- Producer permits that a process holds or is about to post. -/
def SysvPc.permits (capacity : ℕ) : SysvPc → ℕ
  | .produce | .increment => 1
  | .upProducer => capacity
  | _ => 0

/-- The permit for a full crate, about to be posted or taken and not yet used
up. -/
def SysvPc.full : SysvPc → ℕ
  | .upConsumer | .read _ | .reset => 1
  | _ => 0

/-- At the comparison of `state` with `capacity`. -/
def SysvPc.compares : SysvPc → ℕ
  | .compare => 1
  | _ => 0

section DrainFrom

variable (capacity i : ℕ)

@[simp] theorem SysvPc.inside_drainFrom : (drainFrom capacity i).inside = 1 := by
  unfold drainFrom
  split <;> rfl

@[simp] theorem SysvPc.permits_drainFrom :
    (drainFrom capacity i).permits capacity = 0 := by
  unfold drainFrom
  split <;> rfl

@[simp] theorem SysvPc.full_drainFrom : (drainFrom capacity i).full = 1 := by
  unfold drainFrom
  split <;> rfl

@[simp] theorem SysvPc.compares_drainFrom :
    (drainFrom capacity i).compares = 0 := by
  unfold drainFrom
  split <;> rfl

end DrainFrom

section Moves

variable {capacity state state' : ℕ} {sems sems' : Sems} {pc pc' : SysvPc}

theorem SysvMoves.memory (h : SysvMoves capacity sems state pc sems' state' pc') :
    sems'.memory + pc'.inside ≤ sems.memory + pc.inside := by
  cases h <;> (try rw [SysvPc.inside_drainFrom]) <;>
    simp only [SysvPc.inside] <;> omega

theorem SysvMoves.permits
    (h : SysvMoves capacity sems state pc sems' state' pc')
    (hreset : pc = .reset → state = capacity) :
    sems'.producer + pc'.permits capacity + state' ≤
      sems.producer + pc.permits capacity + state := by
  cases h with
  | reset =>
      have := hreset rfl
      simp only [SysvPc.permits]
      omega
  | _ =>
      try rw [SysvPc.permits_drainFrom]
      simp only [SysvPc.permits]
      omega

theorem SysvMoves.full (h : SysvMoves capacity sems state pc sems' state' pc') :
    sems'.consumer + pc'.full + (if pc = .reset then 1 else 0) ≤
      sems.consumer + pc.full +
        (if pc = .compare ∧ state = capacity then 1 else 0) := by
  cases h <;> (try rw [SysvPc.full_drainFrom]) <;>
    simp [SysvPc.full, -Sems.consumer, *]

theorem SysvMoves.compares
    (h : SysvMoves capacity sems state pc sems' state' pc') :
    pc'.compares = if pc = .increment then 1 else 0 := by
  cases h <;> (try rw [SysvPc.compares_drainFrom]) <;> rfl

theorem SysvMoves.state_eq
    (h : SysvMoves capacity sems state pc sems' state' pc') :
    state' = if pc = .increment then state + 1
      else if pc = .reset then 0 else state := by
  cases h <;> rfl

end Moves

/-- The producer semaphore holds no more permits than there are slots. -/
theorem setValue_left (capacity : ℕ) {left : ℕ} (hleft : (left : ℤ) ≤ semvmx) :
    setValue semvmx.toNat left capacity ≤ capacity ∧
      (setValue semvmx.toNat left capacity : ℤ) ≤ semvmx := by
  unfold setValue semvmx at *
  split <;> omega

/-- Semaphores, `state` and the processes in flight; `permits` is what the
producer semaphore was set to. -/
structure SysvInv {P : Type*} [Fintype P] (capacity permits : ℕ)
    (v : Config P SysvCrate SysvLocal) : Prop where
  memory : v.shared.sems.memory + total (fun l => l.pc.inside) v.loc ≤ 1
  permits_le : v.shared.sems.producer +
    total (fun l => l.pc.permits capacity) v.loc + v.shared.state ≤ permits
  room : v.shared.state ≠ capacity →
    v.shared.sems.consumer + total (fun l => l.pc.full) v.loc = 0
  full : v.shared.state = capacity →
    v.shared.sems.consumer + total (fun l => l.pc.full) v.loc +
      total (fun l => l.pc.compares) v.loc ≤ 1

section Sysv

variable {P : Type*} [Fintype P] {capacity permits : ℕ}
  {v : Config P SysvCrate SysvLocal}

theorem SysvInv.alone (h : SysvInv capacity permits v) {p q : P}
    (hp : 0 < (v.loc p).pc.inside) (hq : 0 < (v.loc q).pc.inside) : p = q :=
  eq_of_total_le_one (w := fun l : SysvLocal => l.pc.inside)
    (by have := h.memory; omega) hp hq

/-- Whoever holds the permit of a full crate finds it full. -/
theorem SysvInv.state_eq (h : SysvInv capacity permits v) {p : P}
    (hp : 0 < (v.loc p).pc.full) : v.shared.state = capacity := by
  by_contra hne
  have hroom := h.room hne
  have hle := le_total (fun l : SysvLocal => l.pc.full) v.loc p
  omega

theorem SysvInv.guarded (h : SysvInv capacity permits v)
    (hle : permits ≤ capacity) : SysvGuarded capacity v := by
  refine ⟨fun p q => h.alone, ?_, ?_, fun p hp => h.state_eq (p := p) ?_⟩
  · have := h.memory
    omega
  · have := h.permits_le
    omega
  · cases hpc : (v.loc p).pc <;>
      simp [hpc, SysvPc.drains, SysvPc.full] at hp ⊢

/-- The values stay below the limit of a semaphore. -/
theorem SysvInv.sems_le (h : SysvInv capacity permits v)
    (hmax : (permits : ℤ) ≤ semvmx) (k : Fin 3) :
    (v.shared.sems k : ℤ) ≤ semvmx := by
  have hmemory := h.memory
  have hpermits := h.permits_le
  have hconsumer : v.shared.sems.consumer ≤ 1 := by
    by_cases hfull : v.shared.state = capacity
    · have := h.full hfull
      omega
    · have := h.room hfull
      omega
  simp only [Sems.memory, Sems.producer, Sems.consumer] at *
  unfold semvmx at hmax ⊢
  match k with
  | 0 | 1 | 2 => omega

/-- Whoever holds a permit of a producer finds room. -/
theorem SysvInv.state_lt (h : SysvInv capacity permits v)
    (hle : permits ≤ capacity) {p : P}
    (hpermit : (v.loc p).pc.permits capacity = 1) :
    v.shared.state < capacity := by
  have hone := le_total (fun l : SysvLocal => l.pc.permits capacity) v.loc p
  have hsum := h.permits_le
  omega

theorem SysvInv.compares_total (h : SysvInv capacity permits v) {p : P}
    (hp : 0 < (v.loc p).pc.inside) :
    total (fun l => l.pc.compares) v.loc = (v.loc p).pc.compares := by
  apply total_eq_of_exclusive (v := fun l : SysvLocal => l.pc.compares)
    (w := fun l : SysvLocal => l.pc.inside) (by have := h.memory; omega) _ hp
  intro l hl
  cases hpc : l.pc <;> simp [hpc, SysvPc.inside, SysvPc.compares] at hl ⊢

variable [DecidableEq P]

/-- The permit of a full crate under one statement. -/
theorem SysvInv.full_step (h : SysvInv capacity permits v)
    (hle : permits ≤ capacity) {p : P} {g' : SysvCrate} {l' : SysvLocal}
    (hstep : SysvMoves capacity v.shared.sems v.shared.state (v.loc p).pc
      g'.sems g'.state l'.pc) :
    (g'.state ≠ capacity → g'.sems.consumer +
        total (fun l => l.pc.full) (Function.update v.loc p l') = 0) ∧
      (g'.state = capacity → g'.sems.consumer +
          total (fun l => l.pc.full) (Function.update v.loc p l') +
        total (fun l => l.pc.compares) (Function.update v.loc p l') ≤ 1) := by
  have hstate := hstep.state_eq
  have hfull : g'.sems.consumer +
      total (fun l => l.pc.full) (Function.update v.loc p l') +
        (if (v.loc p).pc = .reset then 1 else 0) ≤
      v.shared.sems.consumer + total (fun l => l.pc.full) v.loc +
        (if (v.loc p).pc = .compare ∧ v.shared.state = capacity then 1
          else 0) := by
    have hone := hstep.full
    have := total_update (fun l : SysvLocal => l.pc.full) v.loc p l'
    omega
  have hcompares := total_update (fun l : SysvLocal => l.pc.compares) v.loc p l'
  rw [hstep.compares] at hcompares
  have hroom₀ := h.room
  have hfull₀ := h.full
  by_cases hreset : (v.loc p).pc = .reset
  · have hself : (v.loc p).pc.compares = 0 := by
      rw [hreset]
      rfl
    have hcrate := h.state_eq (p := p) (by rw [hreset]; decide)
    have := hfull₀ hcrate
    rw [hself] at hcompares
    simp only [hreset, reduceCtorEq, if_true, if_false, false_and] at hfull hcompares
    exact ⟨fun _ => by omega, fun _ => by omega⟩
  by_cases hincrement : (v.loc p).pc = .increment
  · have hlt := h.state_lt hle (p := p) (by rw [hincrement]; rfl)
    have hself : (v.loc p).pc.compares = 0 := by
      rw [hincrement]
      rfl
    have hnone := hroom₀ hlt.ne
    have hzero := h.compares_total (p := p) (by rw [hincrement]; decide)
    rw [hself] at hcompares hzero
    simp only [hincrement, reduceCtorEq, if_true, if_false, false_and] at hfull hcompares
    exact ⟨fun _ => by omega, fun _ => by omega⟩
  by_cases hcompare : (v.loc p).pc = .compare
  · have hself : (v.loc p).pc.compares = 1 := by
      rw [hcompare]
      rfl
    rw [hself] at hcompares
    simp only [hcompare, reduceCtorEq, if_false, true_and] at hfull hcompares hstate
    rw [hstate]
    by_cases hcrate : v.shared.state = capacity
    · have := hfull₀ hcrate
      rw [if_pos hcrate] at hfull
      exact ⟨fun hne => absurd hcrate hne, fun _ => by omega⟩
    · have := hroom₀ hcrate
      rw [if_neg hcrate] at hfull
      exact ⟨fun _ => by omega, fun heq => absurd heq hcrate⟩
  · have hself : (v.loc p).pc.compares = 0 := by
      cases hpc : (v.loc p).pc <;> simp [hpc, SysvPc.compares] at hcompare ⊢
    simp only [hreset, hincrement, hcompare, hself, if_false, false_and]
      at hfull hcompares hstate
    rw [hstate]
    refine ⟨fun hne => ?_, fun heq => ?_⟩
    · have := hroom₀ hne
      omega
    · have := hfull₀ heq
      omega

theorem SysvInv.move (h : SysvInv capacity permits v) (hle : permits ≤ capacity)
    {p : P} {g' : SysvCrate} {l' : SysvLocal}
    (hstep : SysvMoves capacity v.shared.sems v.shared.state (v.loc p).pc
      g'.sems g'.state l'.pc) :
    SysvInv capacity permits (Program.move v p g' l') := by
  have hreset : (v.loc p).pc = .reset → v.shared.state = capacity := by
    intro hpc
    apply h.state_eq (p := p)
    rw [hpc]
    decide
  obtain ⟨hroom, hfull⟩ := h.full_step hle hstep
  refine ⟨?_, ?_, hroom, hfull⟩
  · have hone := hstep.memory
    have := total_update (fun l : SysvLocal => l.pc.inside) v.loc p l'
    have := h.memory
    simp only [Program.move_shared, Program.move_loc]
    omega
  · have hone := hstep.permits hreset
    have := total_update (fun l : SysvLocal => l.pc.permits capacity) v.loc p l'
    have := h.permits_le
    simp only [Program.move_shared, Program.move_loc]
    omega

omit [DecidableEq P] in
theorem sysvInv_created {left : ℕ} {isProducer : P → Bool}
    (h : SysvCreated capacity left isProducer v) :
    SysvInv capacity (setValue semvmx.toNat left capacity) v := by
  obtain ⟨hsems, hstate, hpc⟩ := h
  have hzero : ∀ w : SysvPc → ℕ, (∀ b, w (.start b) = 0) →
      total (fun l : SysvLocal => w l.pc) v.loc = 0 := by
    intro w hw
    apply total_eq_zero
    intro p
    rw [hpc p, hw]
  constructor
  · rw [hsems, hzero _ (by decide)]
    rfl
  · rw [hsems, hstate, hzero _ (by intro b; cases b <;> rfl)]
    rfl
  · intro _
    rw [hsems, hzero _ (by decide)]
    rfl
  · intro _
    rw [hsems, hzero _ (by decide), hzero _ (by decide)]
    exact Nat.zero_le 1

theorem sysvUninterrupted_guarded {left : ℕ} (hleft : (left : ℤ) ≤ semvmx)
    {text : P → ℕ → Text} {isProducer : P → Bool}
    (h : (sysvUninterrupted capacity left text isProducer).Reachable v) :
    SysvGuarded capacity v := by
  have hset := setValue_left capacity hleft
  have hinv : SysvInv capacity (setValue semvmx.toNat left capacity) v := by
    refine h.invariant (fun v => sysvInv_created) ?_
    rintro v es v' hinv ⟨p, interrupted, hok, hexec⟩
    obtain ⟨g', l', hproc, rfl⟩ := Program.exec_eq_some hexec
    exact hinv.move hset.1 (sysvStep_moves (hinv.sems_le hset.2) hok hproc)
  exact hinv.guarded hset.1

end Sysv

/-! ## Both programs -/

/-- For any number of producers and consumers and every interleaving in which
no wait is interrupted, the crate is guarded in every state, with POSIX and
with System V semaphores. -/
theorem uninterrupted_waits_guard {P : Type*} [Fintype P] [DecidableEq P]
    (capacity left : ℕ) (hleft : (left : ℤ) ≤ semvmx) (beyond : ℕ → Text)
    (pid : P → ℕ) (isProducer : P → Bool) :
    (∀ s, (posixUninterrupted capacity (producerText beyond pid)
        isProducer).Reachable s → PosixGuarded capacity s) ∧
      ∀ v, (sysvUninterrupted capacity left (producerText beyond pid)
        isProducer).Reachable v → SysvGuarded capacity v :=
  ⟨fun _ => posixUninterrupted_guarded,
    fun _ => sysvUninterrupted_guarded hleft⟩

/-- Two producers of a crate of one item. -/
def twoProducers : Config Bool PosixCrate PosixLocal where
  shared := ⟨0, 1, 1, 0, fun _ _ => 0⟩
  loc _ := ⟨.waitProducer, fun _ => 0⟩

/-- The same with System V semaphores. -/
def twoSysvProducers : Config Bool SysvCrate SysvLocal where
  shared := ⟨semsOf 0 1 1, 0, fun _ _ => 0⟩
  loc _ := ⟨.downProducer, fun _ => 0⟩

/-- Both take a permit of a crate of two items, and one stores its item while
the other one waits for the memory. -/
theorem uninterrupted_waits_guard_two_items :
    ∃ s v, (posixUninterrupted 2 (producerText (fun _ => []) fun _ => 7)
          fun _ => true).Reachable s ∧ s.shared.state = 2 ∧
        PosixGuarded (P := Bool) 2 s ∧
        (sysvUninterrupted 2 0 (producerText (fun _ => []) fun _ => 7)
          fun _ => true).Reachable v ∧ v.shared.state = 2 ∧
        SysvGuarded (P := Bool) 2 v := by
  have hposix : (posixUninterrupted 2 (producerText (fun _ => []) fun _ => 7)
      fun _ : Bool => true).Exec _ _ :=
    ⟨{ twoProducers with shared := ⟨0, 1, 2, 0, fun _ _ => 0⟩ },
      ⟨rfl, fun _ => rfl⟩, Program.run_of_runScheduleWhen
        ((true, false) :: (false, false) :: List.replicate 5 (true, false) ++
          List.replicate 6 (false, false)) rfl⟩
  have hsysv : (sysvUninterrupted 2 0 (producerText (fun _ => []) fun _ => 7)
      fun _ : Bool => true).Exec _ _ :=
    ⟨{ twoSysvProducers with shared := ⟨semsOf 0 1 2, 0, fun _ _ => 0⟩ },
      ⟨rfl, rfl, fun _ => rfl⟩, Program.run_of_runScheduleWhen
        (List.replicate 5 (true, false) ++ List.replicate 6 (false, false)) rfl⟩
  have hguard := uninterrupted_waits_guard (P := Bool) 2 0 (by decide)
    (fun _ => []) (fun _ => 7) (fun _ => true)
  exact ⟨_, _, hposix.reachable, rfl, hguard.1 _ hposix.reachable,
    hsysv.reachable, rfl, hguard.2 _ hsysv.reachable⟩

/-- The waits of one producer are interrupted while the crate is free: both
producers get in, and in the end there are two permits for the memory and two
items for one slot. -/
theorem interrupted_waits_let_in :
    (∃ s, (posixInterrupted 1 (producerText (fun _ => []) fun _ => 7)
          fun _ => true).Reachable s ∧
        (∀ p : Bool, (s.loc p).pc = .produce) ∧ ¬ PosixGuarded 1 s) ∧
      (∃ s, (posixInterrupted 1 (producerText (fun _ => []) fun _ => 7)
          fun _ : Bool => true).Reachable s ∧
        s.shared.memorySem = 2 ∧ s.shared.state = 2) ∧
      (∃ v, (sysvInterrupted 1 0 (producerText (fun _ => []) fun _ => 7)
          fun _ => true).Reachable v ∧
        (∀ p : Bool, (v.loc p).pc = .produce) ∧ ¬ SysvGuarded 1 v) ∧
      ∃ v, (sysvInterrupted 1 0 (producerText (fun _ => []) fun _ => 7)
          fun _ : Bool => true).Reachable v ∧
        v.shared.sems.memory = 2 ∧ v.shared.state = 2 := by
  have hposix : (posixInterrupted 1 (producerText (fun _ => []) fun _ => 7)
      fun _ : Bool => true).Exec _ _ :=
    ⟨twoProducers, ⟨rfl, fun _ => rfl⟩, Program.run_of_runSchedule
      [(true, true), (true, true), (false, false), (false, false)] rfl⟩
  have hsysv : (sysvInterrupted 1 0 (producerText (fun _ => []) fun _ => 7)
      fun _ : Bool => true).Exec _ _ :=
    ⟨twoSysvProducers, ⟨rfl, rfl, fun _ => rfl⟩, Program.run_of_runSchedule
      [(true, true), (false, false)] rfl⟩
  have hposix' : (posixInterrupted 1 (producerText (fun _ => []) fun _ => 7)
      fun _ : Bool => true).Exec _ _ :=
    ⟨twoProducers, ⟨rfl, fun _ => rfl⟩, Program.run_of_runSchedule
      (List.replicate 2 (true, true) ++ List.replicate 7 (false, false) ++
        List.replicate 4 (true, false)) rfl⟩
  have hsysv' : (sysvInterrupted 1 0 (producerText (fun _ => []) fun _ => 7)
      fun _ : Bool => true).Exec _ _ :=
    ⟨twoSysvProducers, ⟨rfl, rfl, fun _ => rfl⟩, Program.run_of_runSchedule
      ((true, true) :: List.replicate 6 (false, false) ++
        List.replicate 4 (true, false)) rfl⟩
  refine ⟨⟨_, hposix.reachable, by decide, fun h => ?_⟩,
    ⟨_, hposix'.reachable, rfl, rfl⟩, ⟨_, hsysv.reachable, by decide, fun h => ?_⟩,
    ⟨_, hsysv'.reachable, rfl, rfl⟩⟩
  · exact absurd (h.one_inside true false (by decide) (by decide)) (by decide)
  · exact absurd (h.one_inside true false (by decide) (by decide)) (by decide)

end Pvos.SemaphoresPr
