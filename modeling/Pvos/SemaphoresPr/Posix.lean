import Pvos.SemaphoresPr.Crate
import Pvos.Support.Interleaving

/-!
# The crate with POSIX semaphores

`crate.cpp` initialises the shared crate and three semaphores; `producer.cpp`
runs the loop of a producer or of a consumer, and `consumer.cpp` the same loop
of a consumer.  Every statement on the shared memory or a semaphore is one
step.  The return value of `sem_wait` is ignored by the programs, so a wait
that is interrupted lets the process go on without a permit.
-/

namespace Pvos.SemaphoresPr

open Pvos.Support

/-- The shared `crate` and the values of the three semaphores.  `capacity` is
written once, before the processes start. -/
structure PosixCrate where
  consumerSem : ℕ
  memorySem : ℕ
  producerSem : ℕ
  state : ℕ
  slots : Slots

/-- The next statement of a producer or of a consumer. -/
inductive PosixPc
  | waitProducer
  | waitMemory
  | produce
  | increment
  | compare
  | postConsumer
  | postMemory
  | waitConsumer
  | waitMemoryToDrain
  | read (i : ℕ)
  | postProducer (i : ℕ)
  | reset
  | postMemoryDrained
  deriving DecidableEq, Repr

/-- A process: its next statement and `buf`. -/
structure PosixLocal where
  pc : PosixPc
  buf : Memory

/-- `sem_wait`: take a permit, or block; when interrupted it returns at once
with an error. -/
def semWait (interrupted : Bool) (permits : ℕ) : Option ℕ :=
  if interrupted then some permits
  else if 0 < permits then some (permits - 1) else none

/-- The test of the `for` loop of the consumer. -/
def PosixPc.drainFrom (capacity i : ℕ) : PosixPc :=
  if i < capacity then .read i else .reset

/-- The next statement of process `p`. -/
def posixStep {P : Type*} (capacity : ℕ) (text : P → ℕ → Text) (p : P)
    (interrupted : Bool) (g : PosixCrate) (l : PosixLocal) :
    Option (PosixCrate × PosixLocal × List (CrateEvent P)) :=
  match l.pc with
  | .waitProducer =>
      (semWait interrupted g.producerSem).map fun n =>
        ({ g with producerSem := n }, { l with pc := .waitMemory }, [])
  | .waitMemory =>
      (semWait interrupted g.memorySem).map fun n =>
        ({ g with memorySem := n }, { l with pc := .produce }, [])
  | .produce =>
      let written := (text p g.state).length
      let buf := l.buf.write 0 (text p g.state ++ [0])
      let slot := (g.slots g.state).memcpy 0 buf 0
        (min written maxCrateItemSize)
      some ({ g with slots := Function.update g.slots g.state slot },
        { pc := .increment, buf := buf }, [.produced p g.state (text p g.state)])
  | .increment =>
      some ({ g with state := g.state + 1 }, { l with pc := .compare }, [])
  | .compare =>
      if g.state = capacity then some (g, { l with pc := .postConsumer }, [])
      else some (g, { l with pc := .postMemory }, [])
  | .postConsumer =>
      some ({ g with consumerSem := g.consumerSem + 1 },
        { l with pc := .postMemory }, [])
  | .postMemory =>
      some ({ g with memorySem := g.memorySem + 1 },
        { l with pc := .waitProducer }, [])
  | .waitConsumer =>
      (semWait interrupted g.consumerSem).map fun n =>
        ({ g with consumerSem := n }, { l with pc := .waitMemoryToDrain }, [])
  | .waitMemoryToDrain =>
      (semWait interrupted g.memorySem).map fun n =>
        ({ g with memorySem := n }, { l with pc := .drainFrom capacity 0 }, [])
  | .read i =>
      let buf := l.buf.memcpy 0 (g.slots i) 0 maxCrateItemSize
      some (g, { pc := .postProducer i, buf := buf },
        [.read p i (buf.bytes 0 maxCrateItemSize)])
  | .postProducer i =>
      some ({ g with producerSem := g.producerSem + 1 },
        { l with pc := .drainFrom capacity (i + 1) }, [])
  | .reset =>
      some ({ g with state := 0 }, { l with pc := .postMemoryDrained }, [])
  | .postMemoryDrained =>
      some ({ g with memorySem := g.memorySem + 1 },
        { l with pc := .waitConsumer }, [])

/-- The processes of `producer.cpp` and `consumer.cpp`; the choice says whether
a wait is interrupted. -/
def posixProgram {P : Type*} (capacity : ℕ) (text : P → ℕ → Text) :
    Program P Bool PosixCrate PosixLocal (CrateEvent P) where
  proc := posixStep capacity text

/-- Where a process waits between two rounds of its loop. -/
def PosixPc.start (isProducer : Bool) : PosixPc :=
  if isProducer then .waitProducer else .waitConsumer

/-- The crate as `crate.cpp` leaves it, before any process has started. -/
def PosixInit {P : Type*} (capacity : ℕ) (isProducer : P → Bool)
    (s : Config P PosixCrate PosixLocal) : Prop :=
  s.shared = ⟨0, 1, capacity, 0, fun _ _ => 0⟩ ∧
    ∀ p, (s.loc p).pc = .start (isProducer p)

/-- All interleavings in which a wait returns only with a permit. -/
def posixSystem {P : Type*} [DecidableEq P] (capacity : ℕ)
    (text : P → ℕ → Text) (isProducer : P → Bool) :
    System (Config P PosixCrate PosixLocal) (CrateEvent P) :=
  (posixProgram capacity text).systemWhen (PosixInit capacity isProducer)
    fun _ _ interrupted => interrupted = false

/-! ## What one statement does -/

/-- What one statement does to the crate, the process and the history, when a
wait takes a permit. -/
inductive PosixStep {P : Type*} (capacity : ℕ) (text : P → ℕ → Text) (p : P)
    (g : PosixCrate) (buf : Memory) :
    PosixPc → PosixCrate → PosixLocal → List (CrateEvent P) → Prop
  | waitProducer (hpermit : 0 < g.producerSem) :
      PosixStep capacity text p g buf .waitProducer
        { g with producerSem := g.producerSem - 1 } ⟨.waitMemory, buf⟩ []
  | waitMemory (hpermit : 0 < g.memorySem) :
      PosixStep capacity text p g buf .waitMemory
        { g with memorySem := g.memorySem - 1 } ⟨.produce, buf⟩ []
  | produce :
      PosixStep capacity text p g buf .produce
        { g with slots := storeItem g.slots g.state (text p g.state) }
        ⟨.increment, buf.write 0 (text p g.state ++ [0])⟩
        [.produced p g.state (text p g.state)]
  | increment :
      PosixStep capacity text p g buf .increment
        { g with state := g.state + 1 } ⟨.compare, buf⟩ []
  | compareFull (hfull : g.state = capacity) :
      PosixStep capacity text p g buf .compare g ⟨.postConsumer, buf⟩ []
  | compareRoom (hroom : g.state ≠ capacity) :
      PosixStep capacity text p g buf .compare g ⟨.postMemory, buf⟩ []
  | postConsumer :
      PosixStep capacity text p g buf .postConsumer
        { g with consumerSem := g.consumerSem + 1 } ⟨.postMemory, buf⟩ []
  | postMemory :
      PosixStep capacity text p g buf .postMemory
        { g with memorySem := g.memorySem + 1 } ⟨.waitProducer, buf⟩ []
  | waitConsumer (hpermit : 0 < g.consumerSem) :
      PosixStep capacity text p g buf .waitConsumer
        { g with consumerSem := g.consumerSem - 1 }
        ⟨.waitMemoryToDrain, buf⟩ []
  | waitMemoryToDrain (hpermit : 0 < g.memorySem) :
      PosixStep capacity text p g buf .waitMemoryToDrain
        { g with memorySem := g.memorySem - 1 }
        ⟨.drainFrom capacity 0, buf⟩ []
  | read (i : ℕ) :
      PosixStep capacity text p g buf (.read i) g
        ⟨.postProducer i, buf.memcpy 0 (g.slots i) 0 maxCrateItemSize⟩
        [.read p i (slotBytes g.slots i)]
  | postProducer (i : ℕ) :
      PosixStep capacity text p g buf (.postProducer i)
        { g with producerSem := g.producerSem + 1 }
        ⟨.drainFrom capacity (i + 1), buf⟩ []
  | reset :
      PosixStep capacity text p g buf .reset { g with state := 0 }
        ⟨.postMemoryDrained, buf⟩ []
  | postMemoryDrained :
      PosixStep capacity text p g buf .postMemoryDrained
        { g with memorySem := g.memorySem + 1 } ⟨.waitConsumer, buf⟩ []

theorem semWait_eq_some {n m : ℕ} :
    semWait false n = some m ↔ 0 < n ∧ m = n - 1 := by
  simp [semWait, eq_comm]

/-- Formatting into `buf` and copying to the slot stores the item. -/
theorem storeItem_eq (slots : Slots) (i : ℕ) (buf : Memory) (text : Text) :
    Function.update slots i ((slots i).memcpy 0 (buf.write 0 (text ++ [0])) 0
      (min text.length maxCrateItemSize)) = storeItem slots i text := by
  have hlen : min text.length maxCrateItemSize ≤ (text ++ [0]).length := by
    rw [List.length_append]
    omega
  rw [Memory.memcpy_write _ _ _ _ hlen, storeItem,
    List.take_append_of_le_length (Nat.min_le_left _ _), Nat.min_comm,
    ← List.take_take, List.take_length]

theorem posixStep_cases {P : Type*} {capacity : ℕ} {text : P → ℕ → Text}
    {p : P} {g g' : PosixCrate} {pc : PosixPc} {buf : Memory}
    {l' : PosixLocal} {es : List (CrateEvent P)}
    (h : posixStep capacity text p false g ⟨pc, buf⟩ = some (g', l', es)) :
    PosixStep capacity text p g buf pc g' l' es := by
  cases pc with
  | waitProducer | waitMemory | waitConsumer | waitMemoryToDrain =>
      simp only [posixStep, Option.map_eq_some_iff, semWait_eq_some,
        Prod.mk.injEq] at h
      obtain ⟨_, ⟨hpermit, rfl⟩, rfl, rfl, rfl⟩ := h
      constructor
      exact hpermit
  | produce =>
      simp only [posixStep, storeItem_eq, Option.some.injEq,
        Prod.mk.injEq] at h
      obtain ⟨rfl, rfl, rfl⟩ := h
      exact .produce
  | compare =>
      simp only [posixStep] at h
      split at h
      next hfull =>
        simp only [Option.some.injEq, Prod.mk.injEq] at h
        obtain ⟨rfl, rfl, rfl⟩ := h
        exact .compareFull hfull
      next hroom =>
        simp only [Option.some.injEq, Prod.mk.injEq] at h
        obtain ⟨rfl, rfl, rfl⟩ := h
        exact .compareRoom hroom
  | read i =>
      simp only [posixStep, Memory.bytes_memcpy, Option.some.injEq,
        Prod.mk.injEq] at h
      obtain ⟨rfl, rfl, rfl⟩ := h
      exact .read i
  | _ =>
      simp only [posixStep, Option.some.injEq, Prod.mk.injEq] at h
      obtain ⟨rfl, rfl, rfl⟩ := h
      constructor

/-! ## Permits -/

/-- Between the wait for the memory semaphore and its post. -/
def PosixPc.holdsMemory : PosixPc → ℕ
  | .waitProducer | .waitMemory | .waitConsumer | .waitMemoryToDrain => 0
  | _ => 1

/-- A producer with a permit that has not yet incremented `state`. -/
def PosixPc.holdsPermit : PosixPc → ℕ
  | .waitMemory | .produce | .increment => 1
  | _ => 0

/-- A consumer with the permit of the consumer semaphore. -/
def PosixPc.holdsConsumer : PosixPc → ℕ
  | .waitMemoryToDrain | .read _ | .postProducer _ | .reset => 1
  | .postMemoryDrained => 1
  | _ => 0

/-- A consumer between its memory wait and the reset of `state`. -/
def PosixPc.drains : PosixPc → ℕ
  | .read _ | .postProducer _ | .reset => 1
  | _ => 0

/-- The producer permits a drain has posted so far. -/
def PosixPc.posted (capacity : ℕ) : PosixPc → ℕ
  | .read i | .postProducer i => i
  | .reset => capacity
  | _ => 0

/-- The permit for a full crate, about to be posted or taken and not yet used
up. -/
def PosixPc.holdsFull : PosixPc → ℕ
  | .postConsumer => 1
  | .waitMemoryToDrain | .read _ | .postProducer _ | .reset => 1
  | _ => 0

/-- At the comparison of `state` with `capacity`. -/
def PosixPc.compares : PosixPc → ℕ
  | .compare => 1
  | _ => 0

/-- A drain is inside the loop bounds. -/
def PosixPc.Ok (capacity : ℕ) : PosixPc → Prop
  | .read i | .postProducer i => i < capacity
  | _ => True

/-- The statements of the producers' loop. -/
def PosixPc.ofProducer : PosixPc → Bool
  | .waitProducer | .waitMemory | .produce | .increment => true
  | .compare | .postConsumer | .postMemory => true
  | _ => false

section DrainFrom

variable (capacity i : ℕ)

@[simp] theorem PosixPc.holdsMemory_drainFrom :
    (drainFrom capacity i).holdsMemory = 1 := by
  unfold drainFrom
  split <;> rfl

@[simp] theorem PosixPc.holdsPermit_drainFrom :
    (drainFrom capacity i).holdsPermit = 0 := by
  unfold drainFrom
  split <;> rfl

@[simp] theorem PosixPc.holdsFull_drainFrom :
    (drainFrom capacity i).holdsFull = 1 := by
  unfold drainFrom
  split <;> rfl

@[simp] theorem PosixPc.compares_drainFrom :
    (drainFrom capacity i).compares = 0 := by
  unfold drainFrom
  split <;> rfl

@[simp] theorem PosixPc.ofProducer_drainFrom :
    (drainFrom capacity i).ofProducer = false := by
  unfold drainFrom
  split <;> rfl

theorem PosixPc.drainFrom_ne :
    drainFrom capacity i ≠ .postMemoryDrained := by
  unfold drainFrom
  split <;> simp

theorem PosixPc.ok_drainFrom : (drainFrom capacity i).Ok capacity := by
  unfold drainFrom
  split
  next hi => exact hi
  next => trivial

variable {capacity i}

theorem PosixPc.posted_drainFrom (hi : i ≤ capacity) :
    (drainFrom capacity i).posted capacity = i := by
  unfold drainFrom
  split
  next => rfl
  next hlast =>
    simp only [posted]
    omega

end DrainFrom

end Pvos.SemaphoresPr
