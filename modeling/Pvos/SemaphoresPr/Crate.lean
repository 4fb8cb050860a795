import Pvos.Support.Memory
import Pvos.Support.System
import Pvos.Support.Text

/-!
# The crate that producers fill and consumers drain

What the programs of `semaphores-pr` are for: items go into slots `0, 1, …` of
the crate until it is full; then one consumer reads all slots in order, and the
next round begins.  The programs with POSIX and with System V semaphores are
compared with this machine.

Slot `i` stands for the `MAX_CRATE_ITEM_SIZE` bytes at
`data + i * MAX_CRATE_ITEM_SIZE`; at which address these bytes lie is no part
of the protocol.
-/

namespace Pvos.SemaphoresPr

open Pvos.Support

/-- `MAX_CRATE_ITEM_SIZE`. -/
def maxCrateItemSize : ℕ := 20

/-- `items` of the producers. -/
def items : List String :=
  ["one", "two", "three", "four", "five", "six", "seven", "eight", "nine"]

/-- `items[i]`; `beyond i` is what a read behind the table finds. -/
def itemAt (beyond : ℕ → Text) (i : ℕ) : Text :=
  ((items[i]?).map ascii).getD (beyond i)

/-- `sprintf(buf, "(%d) %s", getpid(), items[state])`. -/
def producedText (beyond : ℕ → Text) (pid state : ℕ) : Text :=
  ascii "(" ++ decimal pid ++ ascii ") " ++ itemAt beyond state

/-- What each process prints, by its pid. -/
def producerText {P : Type*} (beyond : ℕ → Text) (pid : P → ℕ) :
    P → ℕ → Text :=
  fun p => producedText beyond (pid p)

/-- The slots of the crate. -/
abbrev Slots := ℕ → Memory

/-- The `MAX_CRATE_ITEM_SIZE` bytes of a slot. -/
def slotBytes (slots : Slots) (i : ℕ) : List UInt8 :=
  (slots i).bytes 0 maxCrateItemSize

/-- Copy the first `MAX_CRATE_ITEM_SIZE` bytes of `text` to slot `i`. -/
def storeItem (slots : Slots) (i : ℕ) (text : Text) : Slots :=
  Function.update slots i ((slots i).write 0 (text.take maxCrateItemSize))

/-- What the processes do with the crate: the slot a producer fills, with the
whole text it printed, and the slot a consumer reads, with the bytes found. -/
inductive CrateEvent (P : Type*)
  | produced (p : P) (slot : ℕ) (text : Text)
  | read (p : P) (slot : ℕ) (bytes : List UInt8)

/-! ## The crate as a machine -/

/-- The crate holds `n` items, or process `p` has read `i` of them. -/
inductive Phase (P : Type*)
  | filling (n : ℕ)
  | draining (p : P) (i : ℕ)

structure CrateState (P : Type*) where
  phase : Phase P
  slots : Slots

section Machine

variable {P : Type*} (capacity : ℕ) (text : P → ℕ → Text)
  (isProducer : P → Bool)

/-- Producers fill the slots in order; of a full crate a consumer reads all
slots in order before the next round. -/
inductive CrateStep : CrateState P → List (CrateEvent P) → CrateState P → Prop
  | produce (slots : Slots) (p : P) (n : ℕ) (hn : n < capacity)
      (hp : isProducer p = true) :
      CrateStep ⟨.filling n, slots⟩ [.produced p n (text p n)]
        ⟨.filling (n + 1), storeItem slots n (text p n)⟩
  | begin (slots : Slots) (p : P) (hp : isProducer p = false) :
      CrateStep ⟨.filling capacity, slots⟩ [] ⟨.draining p 0, slots⟩
  | read (slots : Slots) (p : P) (i : ℕ) (hi : i < capacity) :
      CrateStep ⟨.draining p i, slots⟩ [.read p i (slotBytes slots i)]
        ⟨.draining p (i + 1), slots⟩
  | finish (slots : Slots) (p : P) :
      CrateStep ⟨.draining p capacity, slots⟩ [] ⟨.filling 0, slots⟩

/-- The crate machine, started empty with zeroed slots. -/
def crateSystem : System (CrateState P) (CrateEvent P) where
  init a := a = ⟨.filling 0, fun _ _ => 0⟩
  step := CrateStep capacity text isProducer

end Machine

/-! ## Rounds -/

/-- One round of the crate: who put which text into the slots, and who read
which bytes from them. -/
structure Round (P : Type*) where
  items : List (P × Text)
  reads : List (P × List UInt8)

namespace Round

variable {P : Type*}

/-- The events of a round, slot by slot. -/
def events (r : Round P) : List (CrateEvent P) :=
  r.items.mapIdx (fun i e => .produced e.1 i e.2) ++
    r.reads.mapIdx fun i e => .read e.1 i e.2

/-- At most `capacity` items are stored; only a full crate is read, by one
process, and every slot gives back what was stored in it in this round. -/
structure InOrder (capacity : ℕ) (r : Round P) : Prop where
  items_le : r.items.length ≤ capacity
  reads_le : r.reads.length ≤ capacity
  full : r.reads ≠ [] → r.items.length = capacity
  reader : ∀ e ∈ r.reads, ∀ e' ∈ r.reads, e.1 = e'.1
  content : ∀ i (hi : i < r.items.length) (hr : i < r.reads.length),
    r.items[i].2.take maxCrateItemSize <+: r.reads[i].2

/-- All slots were filled and read. -/
structure Whole (capacity : ℕ) (r : Round P) : Prop extends
    InOrder capacity r where
  items_eq : r.items.length = capacity
  reads_eq : r.reads.length = capacity

theorem events_item (r : Round P) (p : P) (text : Text) (h : r.reads = []) :
    events { r with items := r.items ++ [(p, text)] } =
      r.events ++ [.produced p r.items.length text] := by
  simp [events, h]

theorem events_read (r : Round P) (p : P) (bytes : List UInt8) :
    events { r with reads := r.reads ++ [(p, bytes)] } =
      r.events ++ [.read p r.reads.length bytes] := by
  simp [events]

end Round

/-- A history is a sequence of whole rounds and one that is not over. -/
def InRounds {P : Type*} (capacity : ℕ) (tr : List (CrateEvent P)) : Prop :=
  ∃ (rounds : List (Round P)) (current : Round P),
    (∀ r ∈ rounds, r.Whole capacity) ∧ current.InOrder capacity ∧
    tr = rounds.flatMap Round.events ++ current.events

/-! ## The machine works in rounds -/

theorem take_prefix_storeItem (slots : Slots) (i : ℕ) (text : Text) :
    text.take maxCrateItemSize <+: slotBytes (storeItem slots i text) i := by
  simp only [slotBytes, storeItem, Function.update_self]
  rw [Memory.bytes_write _ _ (List.length_take_le _ _)]
  exact List.prefix_append _ _

theorem slotBytes_storeItem_of_ne (slots : Slots) {i j : ℕ} (text : Text)
    (h : j ≠ i) :
    slotBytes (storeItem slots i text) j = slotBytes slots j := by
  simp only [slotBytes, storeItem, Function.update_of_ne h]

section Rounds

variable {P : Type*} {capacity : ℕ}

/-- The round that is not over, in a phase of the machine. -/
def Phase.Matches (capacity : ℕ) (r : Round P) : Phase P → Prop
  | .filling n => n ≤ capacity ∧ r.items.length = n ∧ r.reads = []
  | .draining p i => i ≤ capacity ∧ r.items.length = capacity ∧
      r.reads.length = i ∧ ∀ e ∈ r.reads, e.1 = p

/-- The slots hold the items of the current round, which continues the whole
rounds of the history. -/
structure RoundInv (capacity : ℕ) (tr : List (CrateEvent P))
    (rounds : List (Round P)) (current : Round P) (a : CrateState P) :
    Prop where
  whole : ∀ r ∈ rounds, r.Whole capacity
  history : tr = rounds.flatMap Round.events ++ current.events
  phase : a.phase.Matches capacity current
  stored : ∀ i (hi : i < current.items.length),
    current.items[i].2.take maxCrateItemSize <+: slotBytes a.slots i
  content : ∀ i (hi : i < current.items.length) (hr : i < current.reads.length),
    current.items[i].2.take maxCrateItemSize <+: current.reads[i].2

theorem RoundInv.inOrder {tr : List (CrateEvent P)} {rounds : List (Round P)}
    {current : Round P} {a : CrateState P}
    (h : RoundInv capacity tr rounds current a) :
    current.InOrder capacity := by
  have hphase := h.phase
  cases ha : a.phase with
  | filling n =>
      rw [ha] at hphase
      obtain ⟨hn, hitems, hreads⟩ := hphase
      refine ⟨by omega, by simp [hreads], ?_, ?_, h.content⟩
      · exact fun hne => absurd hreads hne
      · simp [hreads]
  | draining p i =>
      rw [ha] at hphase
      obtain ⟨hi, hitems, hreads, hreader⟩ := hphase
      refine ⟨by omega, by omega, fun _ => hitems, ?_, h.content⟩
      intro e he e' he'
      rw [hreader e he, hreader e' he']

theorem roundInv_init (slots : Slots) : RoundInv capacity [] [] ⟨[], []⟩
    (⟨.filling 0, slots⟩ : CrateState P) := by
  constructor
  · simp
  · rfl
  · exact ⟨Nat.zero_le _, rfl, rfl⟩
  · intro i hi
    simp at hi
  · intro i hi
    simp at hi

theorem roundInv_step {text : P → ℕ → Text} {isProducer : P → Bool}
    {tr es : List (CrateEvent P)} {rounds : List (Round P)}
    {current : Round P} {a a' : CrateState P}
    (h : RoundInv capacity tr rounds current a)
    (hstep : CrateStep capacity text isProducer a es a') :
    ∃ rounds' current', RoundInv capacity (tr ++ es) rounds' current' a' := by
  cases hstep with
  | produce slots p n hn _ =>
      obtain ⟨-, hitems, hreads⟩ := h.phase
      refine ⟨rounds, { current with items := current.items ++
        [(p, text p n)] }, h.whole, ?_, ?_, ?_, ?_⟩
      · rw [Round.events_item _ _ _ hreads, ← List.append_assoc, ← h.history,
          hitems]
      · exact ⟨hn, by simp [hitems], hreads⟩
      · intro i hi
        simp only [List.length_append, List.length_singleton] at hi
        by_cases hin : i = n
        · subst hin
          simpa [← hitems] using take_prefix_storeItem slots i (text p i)
        · have hlt : i < current.items.length := by omega
          rw [List.getElem_append_left hlt, slotBytes_storeItem_of_ne _ _ hin]
          exact h.stored i hlt
      · intro i _ hr
        simp [hreads] at hr
  | begin slots p _ =>
      obtain ⟨-, hitems, hreads⟩ := h.phase
      refine ⟨rounds, current, h.whole, ?_, ?_, h.stored, h.content⟩
      · rw [List.append_nil]
        exact h.history
      · exact ⟨Nat.zero_le _, hitems, by simp [hreads], by simp [hreads]⟩
  | read slots p i hi =>
      obtain ⟨-, hitems, hreads, hreader⟩ := h.phase
      refine ⟨rounds, { current with reads := current.reads ++
        [(p, slotBytes slots i)] }, h.whole, ?_, ?_, h.stored, ?_⟩
      · rw [Round.events_read, ← List.append_assoc, ← h.history, hreads]
      · refine ⟨hi, hitems, by simp [hreads], ?_⟩
        intro e he
        rcases List.mem_append.mp he with hold | hnew
        · exact hreader e hold
        · rw [List.mem_singleton.mp hnew]
      · intro j hj hr
        simp only [List.length_append, List.length_singleton] at hr
        by_cases hji : j = i
        · subst hji
          simpa [← hreads] using h.stored j hj
        · have hlt : j < current.reads.length := by omega
          rw [List.getElem_append_left hlt]
          exact h.content j hj hlt
  | finish slots p =>
      obtain ⟨-, hitems, hreads, -⟩ := h.phase
      refine ⟨rounds ++ [current], ⟨[], []⟩, ?_, ?_, ?_, ?_, ?_⟩
      · intro r hr
        rcases List.mem_append.mp hr with hold | hnew
        · exact h.whole r hold
        · rw [List.mem_singleton.mp hnew]
          exact ⟨h.inOrder, hitems, hreads⟩
      · rw [List.append_nil, h.history]
        simp [Round.events]
      · exact ⟨Nat.zero_le _, rfl, rfl⟩
      · intro i hi
        simp at hi
      · intro i hi
        simp at hi

/-- A history of the machine over any slots is a sequence of rounds. -/
theorem run_inRounds {text : P → ℕ → Text} {isProducer : P → Bool}
    {slots : Slots} {tr : List (CrateEvent P)} {a : CrateState P}
    (h : (crateSystem capacity text isProducer).Run ⟨.filling 0, slots⟩ tr a) :
    InRounds capacity tr := by
  have hinv : ∃ rounds current, RoundInv capacity tr rounds current a := by
    induction h with
    | refl => exact ⟨_, _, roundInv_init slots⟩
    | tail _ hstep ih =>
        obtain ⟨rounds, current, hinv⟩ := ih
        exact roundInv_step hinv hstep
  obtain ⟨rounds, current, hinv⟩ := hinv
  exact ⟨rounds, current, hinv.whole, hinv.inOrder, hinv.history⟩

/-- Every history of the machine is a sequence of rounds. -/
theorem crate_inRounds {text : P → ℕ → Text} {isProducer : P → Bool}
    {tr : List (CrateEvent P)} {a : CrateState P}
    (h : (crateSystem capacity text isProducer).Exec tr a) :
    InRounds capacity tr := by
  obtain ⟨a₀, rfl, hrun⟩ := h
  exact run_inRounds hrun

end Rounds

end Pvos.SemaphoresPr
