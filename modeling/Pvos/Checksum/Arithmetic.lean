import Pvos.Checksum.Passes

/-!
# The arithmetic of the sum checker

The loop adds its numbers up in an `int`.  `arithmetic` lists what the additions
and the final subtraction give before the result is stored; it stays in the
range of an `int` exactly when the sums of the first numbers do, for each number
of them.
-/

namespace Pvos.Checksum

open Pvos.Support

/-- The sums of the first numbers fit in an `int`, for each number of them. -/
def PartialSumsFit (nums : List ℤ) : Prop :=
  ∀ part ∈ nums.inits, FitsInt part.sum

instance (nums : List ℤ) : Decidable (PartialSumsFit nums) :=
  inferInstanceAs (Decidable (∀ part ∈ nums.inits, _))

theorem PartialSumsFit.of_prefix {nums part : List ℤ}
    (h : PartialSumsFit nums) (hpart : part <+: nums) : FitsInt part.sum :=
  h part (List.mem_inits part nums |>.mpr hpart)

/-- The results of `sum += current_num` behind `s`, before they are stored. -/
def additions : ScanState → List ScanState → List ℤ
  | _, [] => []
  | s, s' :: rest => (s.sum + s'.currentNum) :: additions s' rest

/-- The results of all additions and of `sum -= current_num`, before they are
stored. -/
def arithmetic (buffer : Memory) (size : ℕ) (currentNum : ℤ) : List ℤ :=
  let start : ScanState := ⟨0, currentNum, 0⟩
  let states := passes buffer size currentNum
  let last := states.getLastD start
  additions start states ++ [last.sum - last.currentNum]

/-- The comparison behind the loop on unbounded integers. -/
def correctUnbounded (buffer : Memory) (size : ℕ) (currentNum : ℤ) : Bool :=
  let nums := numbersRead buffer size currentNum
  let last := nums.getLastD currentNum
  nums.sum - last = last

section From

variable {buffer : Memory} {size todo : ℕ} {s : ScanState}

/-- An addition is exact when its result fits. -/
theorem sum_next {num : ℤ} (n : ℕ) (h : FitsInt (s.sum + num)) :
    (s.next num n).sum = s.sum + num :=
  toInt32_of_fits h.1 h.2

/-- The additions stay in the range when the sums that they stand for do. -/
theorem additions_fit_iff
    (h : (buffer.cstring size s.offset).length < todo) (hsum : FitsInt s.sum) :
    (∀ r ∈ additions s (passesFrom buffer size todo s), FitsInt r) ↔
      ∀ part ∈ (numbers (buffer.cstring size s.offset)).inits,
        FitsInt (s.sum + part.sum) := by
  induction todo generalizing s with
  | zero => omega
  | succ todo ih =>
      cases hscan : sscanfInt (buffer.cstring size s.offset) with
      | none =>
          rw [passesFrom_none hscan, numbers_of_none hscan]
          simpa [additions] using hsum
      | some found =>
          obtain ⟨num, n⟩ := found
          have hshort := length_cstring_next hscan
          have hcurrent : (s.next num n).currentNum = num := rfl
          rw [passesFrom_some hscan, numbers_of_some hscan, additions,
            List.forall_mem_cons, List.inits_cons, List.forall_mem_cons,
            List.forall_mem_map, hcurrent]
          simp only [List.sum_nil, add_zero, List.sum_cons, hsum, true_and]
          constructor
          · rintro ⟨hfits, hrest⟩ part hpart
            have hnext := sum_next n hfits
            rw [ih (by omega) (by rwa [hnext]), cstring_next hscan,
              hnext] at hrest
            rw [← add_assoc]
            exact hrest part hpart
          · intro hparts
            have hfits : FitsInt (s.sum + num) := by
              simpa using hparts [] (by simp)
            have hnext := sum_next n hfits
            refine ⟨hfits, ?_⟩
            rw [ih (by omega) (by rwa [hnext]), cstring_next hscan, hnext]
            intro part hpart
            rw [add_assoc]
            exact hparts part hpart

/-- While the additions are exact the loop holds the exact sum. -/
theorem sum_of_additions_fit
    (h : (buffer.cstring size s.offset).length < todo)
    (hfits : ∀ r ∈ additions s (passesFrom buffer size todo s), FitsInt r) :
    ((passesFrom buffer size todo s).getLastD s).sum =
      s.sum + (numbers (buffer.cstring size s.offset)).sum := by
  induction todo generalizing s with
  | zero => omega
  | succ todo ih =>
      cases hscan : sscanfInt (buffer.cstring size s.offset) with
      | none =>
          rw [passesFrom_none hscan, numbers_of_none hscan]
          simp
      | some found =>
          obtain ⟨num, n⟩ := found
          have hshort := length_cstring_next hscan
          rw [passesFrom_some hscan, additions, List.forall_mem_cons] at hfits
          have hnext : (s.next num n).sum = s.sum + num := sum_next n hfits.1
          rw [passesFrom_some hscan, List.getLastD_cons,
            ih (by omega) hfits.2, cstring_next hscan, hnext,
            numbers_of_some hscan, List.sum_cons, add_assoc]

/-- The variable behind the loop holds the last number. -/
theorem currentNum_last (h : (buffer.cstring size s.offset).length < todo) :
    ((passesFrom buffer size todo s).getLastD s).currentNum =
      (numbers (buffer.cstring size s.offset)).getLastD s.currentNum := by
  obtain ⟨s', hloop, -, hcurrent⟩ := scanLoop_done h
  rw [scanLoop_eq_passesFrom h] at hloop
  rw [ScanEnd.done.inj hloop, hcurrent]

end From

section Whole

variable {buffer : Memory} {size : ℕ} {currentNum : ℤ}

/-- What is compared with the last number when the additions are exact. -/
theorem sub_last_eq
    (hfits : ∀ r ∈ additions ⟨0, currentNum, 0⟩
      (passes buffer size currentNum), FitsInt r) :
    let s := (passes buffer size currentNum).getLastD ⟨0, currentNum, 0⟩
    s.sum - s.currentNum = (numbers (buffer.cstring size 0)).sum -
      (numbers (buffer.cstring size 0)).getLastD currentNum := by
  have hstart := length_cstring_start buffer size currentNum
  have hsum := sum_of_additions_fit hstart hfits
  have hcurrent := currentNum_last hstart
  rw [zero_add] at hsum
  exact congrArg₂ _ hsum hcurrent

/-- The arithmetic stays in the range of an `int` exactly when the sums of the
first numbers do; without a number it negates the uninitialised variable. -/
theorem arithmetic_fits_iff (hcurrent : FitsInt currentNum) :
    (∀ r ∈ arithmetic buffer size currentNum, FitsInt r) ↔
      PartialSumsFit (numbers (buffer.cstring size 0)) ∧
        (numbers (buffer.cstring size 0) = [] → currentNum ≠ -2 ^ 31) := by
  have hadditions : (∀ r ∈ additions ⟨0, currentNum, 0⟩
      (passes buffer size currentNum), FitsInt r) ↔
        PartialSumsFit (numbers (buffer.cstring size 0)) := by
    have hzero : FitsInt 0 := by decide
    have hiff := additions_fit_iff
      (length_cstring_start buffer size currentNum) hzero
    simp only [zero_add] at hiff
    exact hiff
  simp only [arithmetic, List.forall_mem_append, hadditions,
    List.forall_mem_singleton]
  refine and_congr_right fun hfits => ?_
  rw [sub_last_eq (hadditions.mpr hfits)]
  obtain hnil | ⟨others, last, hsplit⟩ :=
    List.eq_nil_or_concat (numbers (buffer.cstring size 0))
  · obtain ⟨hlow, hhigh⟩ := hcurrent
    rw [hnil, List.sum_nil, List.getLastD_nil, FitsInt]
    constructor
    · intro hneg _
      omega
    · intro hne
      have hmin := hne rfl
      omega
  · rw [List.concat_eq_append] at hsplit
    have hothers : FitsInt others.sum :=
      hfits.of_prefix (hsplit ▸ List.prefix_append _ _)
    simpa [hsplit] using hothers

/-- Exact arithmetic gives the verdict of unbounded integers. -/
theorem correct_eq_unbounded
    (h : ∀ r ∈ arithmetic buffer size currentNum, FitsInt r) :
    ((passes buffer size currentNum).getLastD ⟨0, currentNum, 0⟩).correct =
      correctUnbounded buffer size currentNum := by
  simp only [arithmetic, List.forall_mem_append,
    List.forall_mem_singleton] at h
  obtain ⟨hadditions, hlow, hhigh⟩ := h
  have hothers : ((passes buffer size currentNum).getLastD
      ⟨0, currentNum, 0⟩).sumOfOthers = (numbers (buffer.cstring size 0)).sum -
        (numbers (buffer.cstring size 0)).getLastD currentNum :=
    (toInt32_of_fits hlow hhigh).trans (sub_last_eq hadditions)
  have hcurrent : ((passes buffer size currentNum).getLastD
      ⟨0, currentNum, 0⟩).currentNum =
        (numbers (buffer.cstring size 0)).getLastD currentNum :=
    currentNum_last (length_cstring_start buffer size currentNum)
  rw [Bool.eq_iff_iff]
  simp only [ScanState.correct, correctUnbounded, numbersRead_eq,
    decide_eq_true_eq, hothers, hcurrent]

/-- On unbounded integers the last number is compared with the sum of the
others. -/
theorem correctUnbounded_concat {others : List ℤ} {last : ℤ}
    (h : numbers (buffer.cstring size 0) = others ++ [last])
    (currentNum : ℤ) :
    correctUnbounded buffer size currentNum = true ↔ others.sum = last := by
  simp [correctUnbounded, numbersRead_eq, h]

end Whole

end Pvos.Checksum
