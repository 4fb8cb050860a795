import Pvos.SemaphoresPr.Crate
import Pvos.Support.Interleaving

/-!
# The crate with System V semaphores

`vcrate.cpp` initialises the crate and a set of three semaphores;
`vproducer.cpp` runs the loop of a producer or of a consumer.  One `semop` call
changes several semaphores at once or none of them.  Its return value is
ignored, so a call that fails or is interrupted lets the process go on.
-/

namespace Pvos.SemaphoresPr

open Pvos.Support

/-! ## `semop` -/

/-- One element of the array given to `semop`; the semaphores are 0 for the
consumers, 1 for the memory and 2 for the producers. -/
structure Sembuf where
  semNum : Fin 3
  semOp : ℤ

/-- The values of the semaphores of a set. -/
abbrev Sems := Fin 3 → ℕ

namespace Sems

/-- The value of the consumer semaphore. -/
@[simp] def consumer (sems : Sems) : ℕ := sems 0

/-- The value of the memory semaphore. -/
@[simp] def memory (sems : Sems) : ℕ := sems 1

/-- The value of the producer semaphore. -/
@[simp] def producer (sems : Sems) : ℕ := sems 2

end Sems

/-- The largest value of a semaphore. -/
def semvmx : ℤ := 32767

/-- Whether all operations of a `semop` call can be done: the caller waits, the
call fails with `ERANGE`, or the values are changed. -/
inductive SemopResult
  | blocked
  | failed
  | done (sems : Sems)

/-- The operations of one call, in order. -/
def semop : List Sembuf → Sems → SemopResult
  | [], sems => .done sems
  | ⟨num, op⟩ :: rest, sems =>
      let result := (sems num : ℤ) + op
      if op = 0 ∧ result ≠ 0 then .blocked
      else if result < 0 then .blocked
      else if result > semvmx then .failed
      else semop rest (Function.update sems num result.toNat)

/-- A call of `semop` whose return value is ignored. -/
def semopCall (interrupted : Bool) (ops : List Sembuf) (sems : Sems) :
    Option Sems :=
  if interrupted then some sems
  else
    match semop ops sems with
    | .blocked => none
    | .failed => some sems
    | .done sems' => some sems'

/-- `producer_mem_down`. -/
def producerMemDown : List Sembuf := [⟨2, -1⟩, ⟨1, -1⟩]

/-- `consumer_mem_down`. -/
def consumerMemDown : List Sembuf := [⟨0, -1⟩, ⟨1, -1⟩]

/-- `sem_consumer_up`. -/
def semConsumerUp : List Sembuf := [⟨0, 1⟩]

/-- `sem_memory_up`. -/
def semMemoryUp : List Sembuf := [⟨1, 1⟩]

/-- `producer_mem_up`, with the cast of the capacity to `short`. -/
def producerMemUp (capacity : ℕ) : List Sembuf :=
  [⟨2, Int.bmod capacity (2 ^ 16)⟩, ⟨1, 1⟩]

/-! ## The processes -/

/-- The shared `crate` and the semaphore set. -/
structure SysvCrate where
  sems : Sems
  state : ℕ
  slots : Slots

/-- The next statement of a producer or of a consumer. -/
inductive SysvPc
  | downProducer
  | produce
  | increment
  | compare
  | upConsumer
  | upMemory
  | downConsumer
  | read (i : ℕ)
  | reset
  | upProducer
  deriving DecidableEq, Repr

/-- A process: its next statement and `buf`. -/
structure SysvLocal where
  pc : SysvPc
  buf : Memory

/-- The test of the `for` loop of the consumer. -/
def SysvPc.drainFrom (capacity i : ℕ) : SysvPc :=
  if i < capacity then .read i else .reset

/-- The next statement of process `p`. -/
def sysvStep {P : Type*} (capacity : ℕ) (text : P → ℕ → Text) (p : P)
    (interrupted : Bool) (g : SysvCrate) (l : SysvLocal) :
    Option (SysvCrate × SysvLocal × List (CrateEvent P)) :=
  match l.pc with
  | .downProducer =>
      (semopCall interrupted producerMemDown g.sems).map fun sems =>
        ({ g with sems := sems }, { l with pc := .produce }, [])
  | .produce =>
      let written := (text p g.state).length
      let buf := l.buf.write 0 (text p g.state ++ [0])
      let slot := (g.slots g.state).memcpy 0 buf 0
        (min written maxCrateItemSize)
      some ({ g with slots := Function.update g.slots g.state slot },
        { pc := .increment, buf := buf }, [.produced p g.state (text p g.state)])
  | .increment =>
      some ({ g with state := g.state + 1 }, { l with pc := .compare }, [])
  | .compare =>
      if g.state = capacity then some (g, { l with pc := .upConsumer }, [])
      else some (g, { l with pc := .upMemory }, [])
  | .upConsumer =>
      (semopCall interrupted semConsumerUp g.sems).map fun sems =>
        ({ g with sems := sems }, { l with pc := .upMemory }, [])
  | .upMemory =>
      (semopCall interrupted semMemoryUp g.sems).map fun sems =>
        ({ g with sems := sems }, { l with pc := .downProducer }, [])
  | .downConsumer =>
      (semopCall interrupted consumerMemDown g.sems).map fun sems =>
        ({ g with sems := sems }, { l with pc := .drainFrom capacity 0 }, [])
  | .read i =>
      let buf := l.buf.memcpy 0 (g.slots i) 0 maxCrateItemSize
      some (g, { pc := .drainFrom capacity (i + 1), buf := buf },
        [.read p i (buf.bytes 0 maxCrateItemSize)])
  | .reset =>
      some ({ g with state := 0 }, { l with pc := .upProducer }, [])
  | .upProducer =>
      (semopCall interrupted (producerMemUp capacity) g.sems).map fun sems =>
        ({ g with sems := sems }, { l with pc := .downConsumer }, [])

/-- The processes of `vproducer.cpp`; the choice says whether a `semop` is
interrupted. -/
def sysvProgram {P : Type*} (capacity : ℕ) (text : P → ℕ → Text) :
    Program P Bool SysvCrate SysvLocal (CrateEvent P) where
  proc := sysvStep capacity text

/-- Where a process waits between two rounds of its loop. -/
def SysvPc.start (isProducer : Bool) : SysvPc :=
  if isProducer then .downProducer else .downConsumer

/-- The three values of a set. -/
def semsOf (consumer memory producer : ℕ) : Sems
  | 0 => consumer
  | 1 => memory
  | 2 => producer

section SemsOf

variable (a b c x : ℕ)

@[simp] theorem semsOf_zero : semsOf a b c 0 = a := rfl

@[simp] theorem semsOf_one : semsOf a b c 1 = b := rfl

@[simp] theorem semsOf_two : semsOf a b c 2 = c := rfl

@[simp] theorem update_semsOf_zero :
    Function.update (semsOf a b c) 0 x = semsOf x b c := by
  funext i
  match i with
  | 0 | 1 | 2 => rfl

@[simp] theorem update_semsOf_one :
    Function.update (semsOf a b c) 1 x = semsOf a x c := by
  funext i
  match i with
  | 0 | 1 | 2 => rfl

@[simp] theorem update_semsOf_two :
    Function.update (semsOf a b c) 2 x = semsOf a b x := by
  funext i
  match i with
  | 0 | 1 | 2 => rfl

end SemsOf

/-- The crate as `vcrate.cpp` leaves it, before any process has started. -/
def SysvInit {P : Type*} (capacity : ℕ) (isProducer : P → Bool)
    (v : Config P SysvCrate SysvLocal) : Prop :=
  v.shared = ⟨semsOf 0 1 capacity, 0, fun _ _ => 0⟩ ∧
    ∀ p, (v.loc p).pc = .start (isProducer p)

/-- All interleavings in which no call is interrupted. -/
def sysvSystem {P : Type*} [DecidableEq P] (capacity : ℕ)
    (text : P → ℕ → Text) (isProducer : P → Bool) :
    System (Config P SysvCrate SysvLocal) (CrateEvent P) :=
  (sysvProgram capacity text).systemWhen (SysvInit capacity isProducer)
    fun _ _ interrupted => interrupted = false

/-! ## The calls of the programs -/

section Calls

variable {sems sems' : Sems}

theorem semop_cons_done {num : Fin 3} {op : ℤ} {rest : List Sembuf}
    (hzero : op ≠ 0) (hnonneg : 0 ≤ (sems num : ℤ) + op)
    (hmax : (sems num : ℤ) + op ≤ semvmx) :
    semop (⟨num, op⟩ :: rest) sems =
      semop rest (Function.update sems num ((sems num : ℤ) + op).toNat) := by
  simp only [semop]
  rw [if_neg (fun h => hzero h.1), if_neg (by omega), if_neg (by omega)]

theorem semop_cons_blocked {num : Fin 3} {op : ℤ} {rest : List Sembuf}
    (hneg : (sems num : ℤ) + op < 0) :
    semop (⟨num, op⟩ :: rest) sems = .blocked := by
  simp only [semop]
  rw [if_neg (fun h => by omega), if_pos hneg]

/-- Taking a permit inside a call. -/
theorem semop_cons_down {num : Fin 3} {rest : List Sembuf}
    (hmax : (sems num : ℤ) ≤ semvmx) :
    semop (⟨num, -1⟩ :: rest) sems =
      if 0 < sems num then
        semop rest (Function.update sems num (sems num - 1))
      else .blocked := by
  split
  next hpos =>
    rw [semop_cons_done (by decide) (by omega) (by omega)]
    congr 2
    omega
  next hzero => exact semop_cons_blocked (by omega)

/-- Two semaphores are taken together. -/
theorem semopCall_down {i j : Fin 3} (hij : i ≠ j) (hi : (sems i : ℤ) ≤ semvmx)
    (hj : (sems j : ℤ) ≤ semvmx) :
    semopCall false [⟨i, -1⟩, ⟨j, -1⟩] sems = some sems' ↔
      0 < sems i ∧ 0 < sems j ∧
        sems' = Function.update (Function.update sems i (sems i - 1)) j
          (sems j - 1) := by
  have hj' : Function.update sems i (sems i - 1) j = sems j :=
    Function.update_of_ne hij.symm _ _
  rw [semopCall, semop_cons_down hi]
  by_cases hi₀ : 0 < sems i
  · rw [if_pos hi₀, semop_cons_down (by rwa [hj']), hj']
    by_cases hj₀ : 0 < sems j
    · simp [hi₀, hj₀, semop, eq_comm]
    · simp [hj₀]
  · simp [hi₀]

/-- One semaphore is posted. -/
theorem semopCall_up {i : Fin 3} (hi : (sems i : ℤ) < semvmx) :
    semopCall false [⟨i, 1⟩] sems =
      some (Function.update sems i (sems i + 1)) := by
  rw [semopCall, semop_cons_done (by decide) (by omega) (by omega)]
  rfl

/-- The producers get all their permits back together with the memory. -/
theorem semopCall_producerMemUp {capacity : ℕ} (hpos : 0 < capacity)
    (hcap : (sems 2 : ℤ) + capacity ≤ semvmx) (hmemory : (sems 1 : ℤ) < semvmx) :
    semopCall false (producerMemUp capacity) sems =
      some (Function.update (Function.update sems 2 (sems 2 + capacity)) 1
        (sems 1 + 1)) := by
  have hshort : Int.bmod capacity (2 ^ 16) = capacity := by
    unfold semvmx at hcap
    apply Int.bmod_eq_of_le <;> omega
  have hmemory' : Function.update sems 2 (sems 2 + capacity) 1 = sems 1 :=
    Function.update_of_ne (by decide) _ _
  have htwo : ((sems 2 : ℤ) + capacity).toNat = sems 2 + capacity := by omega
  rw [semopCall, producerMemUp, hshort,
    semop_cons_done (by omega) (by omega) hcap, htwo,
    semop_cons_done (by decide) (by omega) (by rw [hmemory']; omega), hmemory']
  rfl

end Calls

end Pvos.SemaphoresPr
