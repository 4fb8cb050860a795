import Pvos.Checksum.Scan

/-!
# The passes of the sum checker

`passes` lists the variables of the loop behind each number that it reads: the
numbers themselves, the offsets `sscanf` is called at, the sums.  The loop ends
with the last of them, and reads the numbers of the string in the buffer.
-/

namespace Pvos.Checksum

open Pvos.Support

/-- The variables behind every pass that reads a number, from `s` on. -/
def passesFrom (buffer : Memory) (size : ℕ) : ℕ → ScanState → List ScanState
  | 0, _ => []
  | todo + 1, s =>
      match sscanfInt (buffer.cstring size s.offset) with
      | none => []
      | some (num, bytesRead) =>
          s.next num bytesRead ::
            if bytesRead ≤ 0 then []
            else passesFrom buffer size todo (s.next num bytesRead)

/-- The passes over a buffer, with the uninitialised `current_num`. -/
def passes (buffer : Memory) (size : ℕ) (currentNum : ℤ) : List ScanState :=
  passesFrom buffer size (size + 1) ⟨0, currentNum, 0⟩

/-- The numbers that the loop reads. -/
def numbersRead (buffer : Memory) (size : ℕ) (currentNum : ℤ) : List ℤ :=
  (passes buffer size currentNum).map ScanState.currentNum

/-- The offsets that `sscanf` is called at. -/
def scanOffsets (buffer : Memory) (size : ℕ) (currentNum : ℤ) : List ℕ :=
  0 :: (passes buffer size currentNum).map ScanState.offset

section Passes

variable {buffer : Memory} {size todo : ℕ} {s : ScanState}

theorem passesFrom_none
    (h : sscanfInt (buffer.cstring size s.offset) = none) :
    passesFrom buffer size (todo + 1) s = [] := by
  simp only [passesFrom, h]

theorem passesFrom_some {num : ℤ} {n : ℕ}
    (h : sscanfInt (buffer.cstring size s.offset) = some (num, n)) :
    passesFrom buffer size (todo + 1) s =
      s.next num n :: passesFrom buffer size todo (s.next num n) := by
  have hpos := sscanfInt_pos h
  simp only [passesFrom, h, if_neg (Nat.not_le.mpr hpos)]

/-- A pass moves the offset inside the string. -/
theorem cstring_next {num : ℤ} {n : ℕ}
    (h : sscanfInt (buffer.cstring size s.offset) = some (num, n)) :
    buffer.cstring size (s.next num n).offset =
      (buffer.cstring size s.offset).drop n :=
  Memory.cstring_add (sscanfInt_le h)

/-- The string that is left gets shorter with each pass. -/
theorem length_cstring_next {num : ℤ} {n : ℕ}
    (h : sscanfInt (buffer.cstring size s.offset) = some (num, n)) :
    (buffer.cstring size (s.next num n).offset).length <
      (buffer.cstring size s.offset).length := by
  have hpos := sscanfInt_pos h
  have hle := sscanfInt_le h
  rw [cstring_next h, List.length_drop]
  omega

/-- The loop ends with the variables of its last pass. -/
theorem scanLoop_eq_passesFrom
    (h : (buffer.cstring size s.offset).length < todo) :
    scanLoop buffer size todo s =
      .done ((passesFrom buffer size todo s).getLastD s) := by
  induction todo generalizing s with
  | zero => omega
  | succ todo ih =>
      cases hscan : sscanfInt (buffer.cstring size s.offset) with
      | none =>
          rw [passesFrom_none hscan]
          simp only [scanLoop, hscan, List.getLastD_nil]
      | some found =>
          obtain ⟨num, n⟩ := found
          have hpos := sscanfInt_pos hscan
          have hshort := length_cstring_next hscan
          rw [passesFrom_some hscan, List.getLastD_cons, ← ih (by omega)]
          simp only [scanLoop, hscan, if_neg (Nat.not_le.mpr hpos)]

/-- The loop reads the numbers of the string, each one once and in order. -/
theorem passesFrom_numbers
    (h : (buffer.cstring size s.offset).length < todo) :
    (passesFrom buffer size todo s).map ScanState.currentNum =
      numbers (buffer.cstring size s.offset) := by
  induction todo generalizing s with
  | zero => omega
  | succ todo ih =>
      cases hscan : sscanfInt (buffer.cstring size s.offset) with
      | none =>
          rw [passesFrom_none hscan, numbers_of_none hscan, List.map_nil]
      | some found =>
          obtain ⟨num, n⟩ := found
          have hshort := length_cstring_next hscan
          rw [passesFrom_some hscan, numbers_of_some hscan, List.map_cons,
            ih (by omega), cstring_next hscan]
          rfl

/-- The offsets stay inside the string. -/
theorem passesFrom_offset {s' : ScanState}
    (h : s' ∈ passesFrom buffer size todo s) :
    s'.offset ≤ s.offset + (buffer.cstring size s.offset).length := by
  induction todo generalizing s with
  | zero => simp [passesFrom] at h
  | succ todo ih =>
      cases hscan : sscanfInt (buffer.cstring size s.offset) with
      | none =>
          rw [passesFrom_none hscan] at h
          simp at h
      | some found =>
          obtain ⟨num, n⟩ := found
          have hle := sscanfInt_le hscan
          have hoffset : (s.next num n).offset = s.offset + n := rfl
          rw [passesFrom_some hscan] at h
          rcases List.mem_cons.mp h with rfl | hlater
          · rw [hoffset]
            omega
          · have hrest := ih hlater
            rw [cstring_next hscan, List.length_drop, hoffset] at hrest
            omega

end Passes

section Scan

variable (buffer : Memory) (size : ℕ) (currentNum : ℤ)

theorem scan_eq_passes :
    scan buffer size currentNum =
      .done ((passes buffer size currentNum).getLastD ⟨0, currentNum, 0⟩) :=
  scanLoop_eq_passesFrom (length_cstring_start buffer size currentNum)

theorem numbersRead_eq :
    numbersRead buffer size currentNum = numbers (buffer.cstring size 0) :=
  passesFrom_numbers (length_cstring_start buffer size currentNum)

theorem scanOffsets_le {offset : ℕ}
    (h : offset ∈ scanOffsets buffer size currentNum) :
    offset ≤ (buffer.cstring size 0).length := by
  rcases List.mem_cons.mp h with rfl | hpass
  · exact Nat.zero_le _
  · obtain ⟨s, hs, rfl⟩ := List.mem_map.mp hpass
    have hle := passesFrom_offset hs
    rwa [Nat.zero_add] at hle

end Scan

end Pvos.Checksum
