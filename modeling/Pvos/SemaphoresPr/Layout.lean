import Pvos.SemaphoresPr.Printed

/-!
# The layout of the crate

`crate.cpp` and `vcrate.cpp` compute the sizes of the shared objects in bytes.
Producers and consumers compute addresses by pointer arithmetic, which counts
in elements: `data` is declared as an array of pointers, and `sizeof (sem_t)`
is added to a `sem_t *`.
-/

namespace Pvos.SemaphoresPr

open Pvos.Support

/-! ## Sizes and addresses -/

/-- `sizeof (uint)`. -/
def sizeofUint : ℕ := 4

/-- `sizeof (char *)`. -/
def sizeofPointer : ℕ := 8

/-- `sizeof (sem_t)`. -/
def sizeofSem : ℕ := 32

/-- The value of a `uint`. -/
def toUint (n : ℕ) : ℕ := n % 2 ^ 32

/-- `crate_struct_len` of `crate.cpp`. -/
def crateStructLen (capacity : ℕ) : ℕ :=
  toUint (sizeofUint * 2 + toUint (capacity * maxCrateItemSize))

/-- The size that `vcrate.cpp` asks `shmget` for. -/
def vcrateStructLen (capacity : ℕ) : ℕ :=
  sizeofUint * 2 + toUint (maxCrateItemSize * capacity)

/-- `data` lies behind `capacity` and `state`. -/
def dataOffset : ℕ := sizeofUint * 2

/-- The first byte at `data + i * MAX_CRATE_ITEM_SIZE`, counted from the
beginning of the crate. -/
def slotStart (i : ℕ) : ℕ :=
  dataOffset + toUint (i * maxCrateItemSize) * sizeofPointer

/-- The size of the object of the semaphores. -/
def semObjectLen : ℕ := sizeofSem * 2

/-- The first byte at `semptr + k * sizeof (sem_t)`. -/
def semStart (k : ℕ) : ℕ := k * sizeofSem * sizeofSem

/-! ## What the programs agree on -/

/-- The bytes copied to and from the slots belong to the object. -/
def SlotsInside (size capacity : ℕ) : Prop :=
  ∀ i < capacity, slotStart i + maxCrateItemSize ≤ size

def SlotsDisjoint (capacity : ℕ) : Prop :=
  ∀ i < capacity, ∀ j < capacity, i ≠ j →
    slotStart i + maxCrateItemSize ≤ slotStart j ∨
      slotStart j + maxCrateItemSize ≤ slotStart i

/-- The three semaphores belong to their object. -/
def SemaphoresInside : Prop :=
  ∀ k < 3, semStart k + sizeofSem ≤ semObjectLen

/-- Every `items[state]` is an entry of the table. -/
def IndexesInTable {P : Type*} (histories : Set (List (CrateEvent P))) : Prop :=
  ∀ tr ∈ histories, ∀ p i text, .produced p i text ∈ tr → i < items.length

/-- The layout on which creator and users of a crate agree. -/
structure LayoutAgrees {P : Type*} (size capacity : ℕ)
    (histories : Set (List (CrateEvent P))) : Prop where
  slots_inside : SlotsInside size capacity
  slots_disjoint : SlotsDisjoint capacity
  indexes : IndexesInTable histories

/-! ## Slots -/

section Slots

variable {capacity : ℕ}

theorem crateStructLen_le (capacity : ℕ) :
    crateStructLen capacity ≤ 8 + 20 * capacity ∧
      crateStructLen capacity < 2 ^ 32 := by
  unfold crateStructLen toUint sizeofUint maxCrateItemSize
  omega

theorem vcrateStructLen_le (capacity : ℕ) :
    vcrateStructLen capacity ≤ 8 + 20 * capacity ∧
      vcrateStructLen capacity < 2 ^ 32 + 8 := by
  unfold vcrateStructLen toUint sizeofUint maxCrateItemSize
  omega

theorem slotStart_eq {i : ℕ} (hi : 20 * i < 2 ^ 32) :
    slotStart i = 8 + 160 * i := by
  unfold slotStart dataOffset toUint sizeofUint sizeofPointer maxCrateItemSize
  omega

/-- Slots are eight times as far apart as the size has room for. -/
theorem not_slotsInside {size : ℕ} (hcap : 2 ≤ capacity)
    (hle : size ≤ 8 + 20 * capacity) (hlt : size < 2 ^ 32 + 8) :
    ¬ SlotsInside size capacity := by
  intro h
  by_cases hsmall : 20 * (capacity - 1) < 2 ^ 32
  · have hlast := h (capacity - 1) (by omega)
    rw [slotStart_eq hsmall, maxCrateItemSize] at hlast
    omega
  · have hfar := h 214748364 (by omega)
    rw [slotStart_eq (by decide), maxCrateItemSize] at hfar
    omega

theorem slotsInside_one {size : ℕ} (hsize : 28 ≤ size) : SlotsInside size 1 := by
  intro i hi
  obtain rfl : i = 0 := Nat.lt_one_iff.mp hi
  exact hsize

/-- An object of the size computed in bytes has room for one slot only. -/
theorem slotsInside_iff {size : ℕ} (hcap : 1 ≤ capacity)
    (hle : size ≤ 8 + 20 * capacity) (hlt : size < 2 ^ 32 + 8)
    (hone : capacity = 1 → 28 ≤ size) :
    SlotsInside size capacity ↔ capacity = 1 := by
  constructor
  · intro h
    by_contra hne
    exact not_slotsInside (by omega) hle hlt h
  · rintro rfl
    exact slotsInside_one (hone rfl)

theorem slotsInside_crate_iff (hcap : 1 ≤ capacity) :
    SlotsInside (crateStructLen capacity) capacity ↔ capacity = 1 := by
  obtain ⟨hle, hlt⟩ := crateStructLen_le capacity
  refine slotsInside_iff hcap hle (by omega) ?_
  rintro rfl
  decide

theorem slotsInside_vcrate_iff (hcap : 1 ≤ capacity) :
    SlotsInside (vcrateStructLen capacity) capacity ↔ capacity = 1 := by
  obtain ⟨hle, hlt⟩ := vcrateStructLen_le capacity
  refine slotsInside_iff hcap hle hlt ?_
  rintro rfl
  decide

theorem slotStart_eq_mod (i : ℕ) :
    slotStart i = 8 + 32 * (5 * i % 2 ^ 30) := by
  have hmod : i * 20 % 2 ^ 32 = 4 * (5 * i % 2 ^ 30) := by
    have htwenty : i * 20 = 4 * (5 * i) := by omega
    have hpow : 2 ^ 32 = 4 * 2 ^ 30 := rfl
    rw [htwenty, hpow, Nat.mul_mod_mul_left]
  rw [slotStart, toUint, maxCrateItemSize, hmod, dataOffset, sizeofUint,
    sizeofPointer]
  omega

theorem slotStart_injective {i j : ℕ} (hi : i < 2 ^ 30) (hj : j < 2 ^ 30)
    (h : 5 * i % 2 ^ 30 = 5 * j % 2 ^ 30) : i = j := by
  have hmod : i ≡ j [MOD 2 ^ 30] := Nat.ModEq.cancel_left_of_coprime (by decide) h
  rwa [Nat.ModEq, Nat.mod_eq_of_lt hi, Nat.mod_eq_of_lt hj] at hmod

/-- The product `i * MAX_CRATE_ITEM_SIZE` is the same again after `2 ^ 30`
slots. -/
theorem slotsDisjoint_iff : SlotsDisjoint capacity ↔ capacity ≤ 2 ^ 30 := by
  constructor
  · intro h
    by_contra hlt
    have hmany := Nat.lt_of_not_le hlt
    have hagain := h 0 (Nat.zero_lt_of_lt hmany) (2 ^ 30) hmany (by decide)
    rw [slotStart_eq_mod, slotStart_eq_mod, maxCrateItemSize] at hagain
    omega
  · intro hle i hi j hj hij
    have hne : 5 * i % 2 ^ 30 ≠ 5 * j % 2 ^ 30 := fun heq =>
      hij (slotStart_injective (hi.trans_le hle) (hj.trans_le hle) heq)
    rw [slotStart_eq_mod, slotStart_eq_mod, maxCrateItemSize]
    generalize 5 * i % 2 ^ 30 = m at hne ⊢
    generalize 5 * j % 2 ^ 30 = n at hne ⊢
    omega

end Slots

theorem not_semaphoresInside : ¬ SemaphoresInside := by
  intro h
  exact absurd (h 1 (by decide)) (by decide)

/-! ## Indexes -/

section Indexes

variable {P : Type*} {capacity : ℕ} {text : P → ℕ → Text}
  {isProducer : P → Bool} {p : P} {histories : Set (List (CrateEvent P))}

/-- One producer can fill the crate up to any item. -/
theorem crate_filled (text : P → ℕ → Text) (hp : isProducer p = true) {n : ℕ}
    (hn : n ≤ capacity) :
    ∃ tr slots, (crateSystem capacity text isProducer).Exec tr
      ⟨.filling n, slots⟩ := by
  induction n with
  | zero => exact ⟨[], _, .init rfl⟩
  | succ n ih =>
      obtain ⟨tr, slots, hexec⟩ := ih (Nat.le_of_succ_le hn)
      exact ⟨_, _, hexec.step (.produce slots p n hn hp)⟩

theorem indexesInTable_of_le (hle : capacity ≤ items.length)
    (h : ∀ tr ∈ histories, ∃ slots a,
      (crateSystem capacity text isProducer).Run ⟨.filling 0, slots⟩ tr a) :
    IndexesInTable histories := by
  intro tr htr p i item hmem
  obtain ⟨slots, a, hrun⟩ := h tr htr
  exact (produced_of_run hrun hmem).2.trans_le hle

theorem indexesInTable_iff
    (hle : capacity ≤ items.length → IndexesInTable histories)
    (hlt : items.length < capacity → ¬ IndexesInTable histories) :
    IndexesInTable histories ↔ capacity ≤ items.length :=
  ⟨fun h => Nat.le_of_not_lt fun hmore => hlt hmore h, hle⟩

theorem not_indexesInTable {tr : List (CrateEvent P)} {item : Text}
    (htr : tr ∈ histories) (hmem : .produced p items.length item ∈ tr) :
    ¬ IndexesInTable histories :=
  fun h => absurd (h tr htr p _ _ hmem) (Nat.lt_irrefl _)

variable [DecidableEq P]

/-- One producer has put `n` items into the POSIX crate and is back at its
wait. -/
structure Filled (capacity n : ℕ) (p : P) (s : Config P PosixCrate PosixLocal) :
    Prop where
  memory : s.shared.memorySem = 1
  producer : s.shared.producerSem = capacity - n
  state : s.shared.state = n
  pc : (s.loc p).pc = .waitProducer

/-- The next item of the producer, and the rest of its round. -/
theorem Filled.produce {n : ℕ} {s : Config P PosixCrate PosixLocal}
    (h : Filled capacity n p s) (hmore : n + 1 < capacity) :
    ∃ s', (posixSystem capacity text isProducer).Run s
        [.produced p n (text p n)] s' ∧ Filled capacity (n + 1) p s' := by
  refine ⟨Program.move s p ⟨s.shared.consumerSem, 1, capacity - (n + 1), n + 1,
      storeItem s.shared.slots n (text p n)⟩
      ⟨.waitProducer, (s.loc p).buf.write 0 (text p n ++ [0])⟩,
    posix_run_of_solo (n := 6) ?_, ⟨rfl, rfl, rfl, by simp⟩⟩
  simp [Program.solo, posixProgram, posixStep, semWait, h.memory, h.producer,
    h.state, h.pc, storeItem_eq, hmore.ne, show n < capacity by omega,
    Nat.sub_sub]

theorem posix_filled (text : P → ℕ → Text) (hp : isProducer p = true) {n : ℕ}
    (hn : n < capacity) :
    ∃ tr s, (posixSystem capacity text isProducer).Exec tr s ∧
      Filled capacity n p s := by
  induction n with
  | zero =>
      refine ⟨[], ⟨_, fun q => ⟨.start (isProducer q), fun _ => 0⟩⟩,
        .init ⟨rfl, fun _ => rfl⟩, rfl, rfl, rfl, ?_⟩
      simp [hp, PosixPc.start]
  | succ n ih =>
      obtain ⟨tr, s, hexec, hfilled⟩ := ih (Nat.lt_of_succ_lt hn)
      obtain ⟨s', hrun, hfilled'⟩ := hfilled.produce hn
      exact ⟨_, s', hexec.run hrun, hfilled'⟩

/-- Every item up to the last one of a crate is stored in some run. -/
theorem posix_produces (text : P → ℕ → Text) (hp : isProducer p = true) {n : ℕ}
    (hn : n < capacity) (hmax : capacity ≤ semValueMax) :
    ∃ tr ∈ (posixUninterrupted capacity text isProducer).traces,
      .produced p n (text p n) ∈ tr := by
  obtain ⟨tr, s, hexec, hfilled⟩ := posix_filled text hp hn
  have hsolo : (posixProgram capacity text).solo p false 3 s.shared (s.loc p) =
      some (⟨s.shared.consumerSem, 0, capacity - n - 1, n,
          storeItem s.shared.slots n (text p n)⟩,
        ⟨.increment, (s.loc p).buf.write 0 (text p n ++ [0])⟩,
        [.produced p n (text p n)]) := by
    simp [Program.solo, posixProgram, posixStep, semWait, hfilled.memory,
      hfilled.producer, hfilled.state, hfilled.pc, storeItem_eq, hn]
  have hcreated : (posixSystem capacity text isProducer).traces ⊆
      (posixUninterrupted capacity text isProducer).traces := by
    refine Program.traces_systemWhen_mono ?_ fun _ _ _ h _ => h
    rintro s ⟨hshared, hpc⟩
    exact ⟨by rw [hshared, setValue, if_pos hmax], hpc⟩
  exact ⟨_, hcreated ⟨_, hexec.run (posix_run_of_solo hsolo)⟩,
    List.mem_append_right _ List.mem_cons_self⟩

/-- The System V program can do whatever the machine does. -/
theorem sysv_produces (left : ℕ) (text : P → ℕ → Text)
    (hp : isProducer p = true) {n : ℕ} (hn : n < capacity)
    (hmax : (capacity : ℤ) ≤ semvmx) :
    ∃ tr ∈ (sysvUninterrupted capacity left text isProducer).traces,
      .produced p n (text p n) ∈ tr := by
  obtain ⟨tr, slots, hexec⟩ := crate_filled text hp hn.le
  have hlast := hexec.step (.produce slots p n hn hp)
  have hsysv : System.Simulates (crateSystem capacity text isProducer)
      (sysvSystem capacity text isProducer) :=
    ⟨_, crate_simulation hmax (Nat.one_le_of_lt hn)⟩
  have hcreated : (sysvSystem capacity text isProducer).traces ⊆
      (sysvUninterrupted capacity left text isProducer).traces := by
    refine Program.traces_systemWhen_mono ?_ fun _ _ _ h _ => h
    rintro v ⟨hshared, hpc⟩
    refine ⟨?_, by rw [hshared], hpc⟩
    rw [hshared, setValue, if_pos]
    unfold semvmx at *
    omega
  exact ⟨_, hcreated (hsysv.traces_subset ⟨_, hlast⟩),
    List.mem_append_right _ List.mem_cons_self⟩

variable [Fintype P]

theorem indexesInTable_posix (hle : capacity ≤ items.length) :
    IndexesInTable (posixUninterrupted capacity text isProducer).traces := by
  have hcrate : ∀ tr ∈ (posixUninterrupted capacity text isProducer).traces,
      ∃ slots a, (crateSystem capacity text isProducer).Run
        ⟨.filling 0, slots⟩ tr a := by
    rintro tr ⟨s, hexec⟩
    exact ⟨_, posix_crate_run hexec⟩
  exact indexesInTable_of_le hle hcrate

theorem indexesInTable_sysv {left : ℕ} (hleft : (left : ℤ) ≤ semvmx)
    (hle : capacity ≤ items.length) :
    IndexesInTable
      (sysvUninterrupted capacity left text isProducer).traces := by
  have hcrate : ∀ tr ∈
      (sysvUninterrupted capacity left text isProducer).traces,
      ∃ slots a, (crateSystem capacity text isProducer).Run
        ⟨.filling 0, slots⟩ tr a := by
    rintro tr ⟨v, v₀, hinit, hrun⟩
    exact ⟨_, sysv_crate_run hleft hinit hrun⟩
  exact indexesInTable_of_le hle hcrate

end Indexes

/-! ## Result -/

/-- The semaphores of `crate.cpp` never belong to their object.  Slots that
belong to the crate are those of a crate of one item, so there the programs
with System V semaphores agree, and nowhere else.  Slots are disjoint up to
`2 ^ 30` of them; where the semaphores can hold the capacity and there is a
producer, the table is read inside its bounds up to nine slots. -/
theorem layout_agrees_iff {P : Type*} [Fintype P] [DecidableEq P]
    (capacity left : ℕ) (hcap : 1 ≤ capacity) (hleft : (left : ℤ) ≤ semvmx)
    (beyond : ℕ → Text) (pid : P → ℕ) (isProducer : P → Bool) :
    ¬ (LayoutAgrees (crateStructLen capacity) capacity (posixUninterrupted
          capacity (producerText beyond pid) isProducer).traces ∧
        SemaphoresInside) ∧
      (LayoutAgrees (vcrateStructLen capacity) capacity (sysvUninterrupted
          capacity left (producerText beyond pid) isProducer).traces ↔
        capacity = 1) ∧
      (SlotsInside (crateStructLen capacity) capacity ↔ capacity = 1) ∧
      (SlotsDisjoint capacity ↔ capacity ≤ 2 ^ 30) ∧
      ∀ p, isProducer p = true →
        (capacity ≤ semValueMax →
          (IndexesInTable (posixUninterrupted capacity
            (producerText beyond pid) isProducer).traces ↔ capacity ≤ 9)) ∧
        ((capacity : ℤ) ≤ semvmx →
          (IndexesInTable (sysvUninterrupted capacity left
            (producerText beyond pid) isProducer).traces ↔ capacity ≤ 9)) := by
  refine ⟨fun h => not_semaphoresInside h.2, ⟨fun h => ?_, ?_⟩,
    slotsInside_crate_iff hcap, slotsDisjoint_iff,
    fun p hp => ⟨fun hmax => ?_, fun hmax => ?_⟩⟩
  · exact (slotsInside_vcrate_iff hcap).mp h.slots_inside
  · rintro rfl
    exact ⟨(slotsInside_vcrate_iff hcap).mpr rfl,
      slotsDisjoint_iff.mpr (by decide), indexesInTable_sysv hleft (by decide)⟩
  · refine indexesInTable_iff indexesInTable_posix fun hlt => ?_
    obtain ⟨tr, htr, hmem⟩ :=
      posix_produces (producerText beyond pid) hp hlt hmax
    exact not_indexesInTable htr hmem
  · refine indexesInTable_iff (indexesInTable_sysv hleft) fun hlt => ?_
    obtain ⟨tr, htr, hmem⟩ :=
      sysv_produces left (producerText beyond pid) hp hlt hmax
    exact not_indexesInTable htr hmem

/-- A producer and a consumer of a crate of one item. -/
theorem layout_agrees_iff_one :
    LayoutAgrees (vcrateStructLen 1) 1 (sysvUninterrupted 1 0
        (producerText (fun _ => []) fun _ => 7) id).traces ∧
      IndexesInTable (posixUninterrupted 1
        (producerText (fun _ => []) fun _ => 7) id).traces := by
  have h := layout_agrees_iff (P := Bool) 1 0 (by decide) (by decide)
    (fun _ => []) (fun _ => 7) id
  exact ⟨h.2.1.mpr rfl, ((h.2.2.2.2 true rfl).1 (by decide)).mpr (by decide)⟩

/-- The second of two slots begins at byte 168 of an object of 48 bytes, the
second semaphore at byte 1024 of 64, and a crate of ten items reads the table
behind its end. -/
theorem layout_disagrees :
    (slotStart 1 = 168 ∧ crateStructLen 2 = 48 ∧ vcrateStructLen 2 = 48 ∧
        ¬ SlotsInside 48 2) ∧
      (semStart 1 = 1024 ∧ semObjectLen = 64 ∧ ¬ SemaphoresInside) ∧
      ¬ IndexesInTable (posixUninterrupted 10
        (producerText (fun _ => []) fun _ => 7) (id : Bool → Bool)).traces ∧
      ¬ IndexesInTable (sysvUninterrupted 10 0
        (producerText (fun _ => []) fun _ => 7) (id : Bool → Bool)).traces := by
  have hproducer : id true = true := rfl
  have hlt : items.length < 10 := by decide
  obtain ⟨_, hposix, hmem⟩ := posix_produces
    (producerText (fun _ => []) fun _ => 7) hproducer hlt (by decide)
  obtain ⟨_, hsysv, hmem'⟩ := sysv_produces 0
    (producerText (fun _ => []) fun _ => 7) hproducer hlt (by decide)
  exact ⟨⟨rfl, rfl, rfl, not_slotsInside (by decide) (by decide) (by decide)⟩,
    ⟨rfl, rfl, not_semaphoresInside⟩, not_indexesInTable hposix hmem,
    not_indexesInTable hsysv hmem'⟩

end Pvos.SemaphoresPr
