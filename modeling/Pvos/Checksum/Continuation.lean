import Pvos.Checksum.Scan

/-!
# Texts that go on

What follows a text decides about its last number and may add numbers.  A text
is `Stopped` when some byte of it ends the scan for good; then nothing that
follows matters.  Otherwise any `int` can be added behind its numbers with a few
bytes.
-/

namespace Pvos.Checksum

open Pvos.Support

/-! ## Scanning a text that goes on -/

/-- What is left of a text behind white space and a sign. -/
def behindSign (text : Text) : Text :=
  (splitSign (text.dropWhile isSpace)).2.2

section Scan

variable {text w : Text}

theorem splitSign_append (h : text ≠ []) (w : Text) :
    splitSign (text ++ w) =
      ((splitSign text).1, (splitSign text).2.1, (splitSign text).2.2 ++ w) := by
  cases text with
  | nil => exact absurd rfl h
  | cons b text =>
      rw [List.cons_append]
      by_cases hminus : b = 45
      · subst hminus
        rfl
      · by_cases hplus : b = 43
        · subst hplus
          rfl
        · simp [splitSign, hminus, hplus]

theorem splitSign_eq_nil (h : (splitSign text).2.2 = []) :
    text = [] ∨ text = [45] ∨ text = [43] := by
  unfold splitSign at h
  split at h
  next rest =>
    have hrest : rest = [] := h
    exact Or.inr (Or.inl (by rw [hrest]))
  next rest =>
    have hrest : rest = [] := h
    exact Or.inr (Or.inr (by rw [hrest]))
  next => exact Or.inl h

theorem dropWhile_ne_nil_of_behindSign (h : behindSign text ≠ []) :
    text.dropWhile isSpace ≠ [] := by
  intro hnil
  rw [behindSign, hnil] at h
  exact h rfl

theorem takeWhile_append_of_dropWhile {p : UInt8 → Bool}
    (h : text.dropWhile p ≠ []) (w : Text) :
    (text ++ w).takeWhile p = text.takeWhile p ∧
      (text ++ w).dropWhile p = text.dropWhile p ++ w := by
  induction text with
  | nil => exact absurd rfl h
  | cons b text ih =>
      by_cases hb : p b = true
      · rw [List.dropWhile_cons_of_pos hb] at h
        obtain ⟨htake, hdrop⟩ := ih h
        simp only [List.cons_append, List.takeWhile_cons_of_pos hb,
          List.dropWhile_cons_of_pos hb, htake, hdrop, and_self]
      · simp [hb]

/-- Digits end where the text goes on with something else. -/
theorem takeWhile_isDigit_append
    (h : (text.takeWhile isDigit).length < text.length ∨ EndsNumber w) :
    (text ++ w).takeWhile isDigit = text.takeWhile isDigit := by
  rw [List.takeWhile_append]
  split
  next hall =>
    rw [takeWhile_eq_nil_of_head (h.resolve_left (by omega)), List.append_nil]
    exact ((List.takeWhile_prefix _).eq_of_length hall).symm
  next => rfl

theorem scanNumber_eq (text : Text) :
    scanNumber text =
      if (behindSign text).takeWhile isDigit = [] then none
      else some
        (if (splitSign (text.dropWhile isSpace)).1 then
          -(digitsValue ((behindSign text).takeWhile isDigit) : ℤ)
          else (digitsValue ((behindSign text).takeWhile isDigit) : ℤ),
        (text.takeWhile isSpace).length +
          (splitSign (text.dropWhile isSpace)).2.1 +
          ((behindSign text).takeWhile isDigit).length) := rfl

theorem sscanfInt_eq_none_iff :
    sscanfInt text = none ↔ (behindSign text).takeWhile isDigit = [] := by
  rw [sscanfInt, scanNumber_eq]
  split
  next h => simp [h]
  next h => simp [h]

theorem length_behindSign (text : Text) :
    (text.takeWhile isSpace).length +
      (splitSign (text.dropWhile isSpace)).2.1 + (behindSign text).length =
        text.length := by
  have hwhole := congrArg List.length
    (List.takeWhile_append_dropWhile (p := isSpace) (l := text))
  have hsplit := splitSign_length (text.dropWhile isSpace)
  rw [List.length_append] at hwhole
  rw [behindSign]
  omega

theorem behindSign_append (h : behindSign text ≠ []) (w : Text) :
    behindSign (text ++ w) = behindSign text ++ w := by
  have htail := dropWhile_ne_nil_of_behindSign h
  obtain ⟨-, hdrop⟩ := takeWhile_append_of_dropWhile htail w
  rw [behindSign, hdrop, splitSign_append htail, behindSign]

/-- A text that goes on is scanned alike, when its digits end inside it. -/
theorem scanNumber_append (hsome : behindSign text ≠ [])
    (h : ((behindSign text).takeWhile isDigit).length <
      (behindSign text).length ∨ EndsNumber w) :
    scanNumber (text ++ w) = scanNumber text := by
  have htail := dropWhile_ne_nil_of_behindSign hsome
  obtain ⟨htake, hdrop⟩ := takeWhile_append_of_dropWhile htail w
  have hbehind := behindSign_append hsome w
  have hdigits := takeWhile_isDigit_append h
  simp only [scanNumber_eq, hbehind, hdigits, htake, hdrop,
    splitSign_append htail]

theorem sscanfInt_append {num : ℤ} {n : ℕ}
    (hscan : sscanfInt text = some (num, n))
    (h : n < text.length ∨ EndsNumber w) :
    sscanfInt (text ++ w) = some (num, n) := by
  have hlength := length_behindSign text
  have hsome : (behindSign text).takeWhile isDigit ≠ [] := by
    rw [ne_eq, ← sscanfInt_eq_none_iff, hscan]
    exact Option.some_ne_none _
  have hn : n = (text.takeWhile isSpace).length +
      (splitSign (text.dropWhile isSpace)).2.1 +
        ((behindSign text).takeWhile isDigit).length := by
    rw [sscanfInt, scanNumber_eq, if_neg hsome, Option.map_some,
      Option.some.injEq, Prod.mk.injEq] at hscan
    exact hscan.2.symm
  have hbehind : behindSign text ≠ [] := by
    intro hnil
    rw [hnil] at hsome
    exact hsome rfl
  rw [← hscan, sscanfInt, sscanfInt,
    scanNumber_append hbehind (h.imp_left fun hlt => by omega)]

/-- No number follows, whatever does. -/
theorem sscanfInt_append_none (hscan : sscanfInt text = none)
    (h : behindSign text ≠ []) (w : Text) : sscanfInt (text ++ w) = none := by
  have hnone := sscanfInt_eq_none_iff.mp hscan
  have hpos := List.length_pos_of_ne_nil h
  rw [← hscan, sscanfInt, sscanfInt, scanNumber_append h]
  left
  rwa [hnone, List.length_nil]

/-- What follows takes no number away. -/
theorem numbers_append_ne_nil (h : numbers text ≠ []) (w : Text) :
    numbers (text ++ w) ≠ [] := by
  have hsome : (behindSign text).takeWhile isDigit ≠ [] :=
    fun hnil => h (numbers_of_none (sscanfInt_eq_none_iff.mpr hnil))
  have hbehind : behindSign text ≠ [] := by
    intro hnil
    rw [hnil] at hsome
    exact hsome rfl
  cases hscan : sscanfInt (text ++ w) with
  | none =>
      rw [sscanfInt_eq_none_iff, behindSign_append hbehind,
        List.takeWhile_append] at hscan
      split at hscan
      next =>
        obtain ⟨hnil, -⟩ := List.append_eq_nil_iff.mp hscan
        exact absurd hnil hbehind
      next => exact absurd hscan hsome
  | some found =>
      rw [numbers_of_some hscan]
      exact List.cons_ne_nil _ _

end Scan

/-! ## What is left behind the numbers -/

def remainderFrom : ℕ → Text → Text
  | 0, text => text
  | todo + 1, text =>
      match sscanfInt text with
      | none => text
      | some (_, bytesRead) => remainderFrom todo (text.drop bytesRead)

/-- The text behind the last number. -/
def remainder (text : Text) : Text :=
  remainderFrom (text.length + 1) text

/-- Behind the last number, white space and a sign there is a byte that starts
no number. -/
def Stopped (text : Text) : Prop :=
  behindSign (remainder text) ≠ []

instance (text : Text) : Decidable (Stopped text) :=
  inferInstanceAs (Decidable (_ ≠ _))

/-- A property of texts holds of all of them when it holds where no number
follows, and in front of a number when it holds behind it. -/
theorem scan_induction {P : Text → Prop}
    (hnone : ∀ text, sscanfInt text = none → P text)
    (hsome : ∀ text num n, sscanfInt text = some (num, n) →
      P (text.drop n) → P text) (text : Text) : P text := by
  induction hlen : text.length using Nat.strong_induction_on
    generalizing text with
  | _ len ih =>
      cases hscan : sscanfInt text with
      | none => exact hnone text hscan
      | some found =>
          obtain ⟨num, n⟩ := found
          have hpos := sscanfInt_pos hscan
          have hle := sscanfInt_le hscan
          refine hsome text num n hscan (ih _ ?_ _ rfl)
          rw [List.length_drop]
          omega

theorem remainderFrom_eq {a b : ℕ} {text : Text} (ha : text.length < a)
    (hb : text.length < b) : remainderFrom a text = remainderFrom b text := by
  induction a generalizing b text with
  | zero => omega
  | succ a ih =>
      cases b with
      | zero => omega
      | succ b =>
          simp only [remainderFrom]
          cases hscan : sscanfInt text with
          | none => rfl
          | some found =>
              obtain ⟨num, n⟩ := found
              have hpos := sscanfInt_pos hscan
              have hle := sscanfInt_le hscan
              have hlen : (text.drop n).length = text.length - n :=
                List.length_drop
              exact ih (by omega) (by omega)

theorem remainder_of_none {text : Text} (h : sscanfInt text = none) :
    remainder text = text := by
  simp [remainder, remainderFrom, h]

theorem remainder_of_some {text : Text} {num : ℤ} {n : ℕ}
    (h : sscanfInt text = some (num, n)) :
    remainder text = remainder (text.drop n) := by
  have hpos := sscanfInt_pos h
  have hle := sscanfInt_le h
  have hlen : (text.drop n).length = text.length - n := List.length_drop
  rw [remainder, remainder,
    remainderFrom_eq (a := (text.drop n).length + 1) (b := text.length)
      (Nat.lt_succ_self _) (by omega)]
  simp only [remainderFrom, h]

theorem not_stopped_nil : ¬ Stopped [] := by decide

/-- What follows a stopped text does not matter. -/
theorem numbers_append_of_stopped {text : Text} (h : Stopped text)
    (w : Text) : numbers (text ++ w) = numbers text := by
  induction text using scan_induction with
  | hnone text hscan =>
      rw [Stopped, remainder_of_none hscan] at h
      rw [numbers_of_none hscan,
        numbers_of_none (sscanfInt_append_none hscan h w)]
  | hsome text num n hscan ih =>
      rw [Stopped, remainder_of_some hscan] at h
      have hlt : n < text.length := by
        by_contra hall
        rw [List.drop_of_length_le (not_lt.mp hall)] at h
        exact not_stopped_nil h
      rw [numbers_of_some hscan,
        numbers_of_some (sscanfInt_append hscan (Or.inl hlt)),
        List.drop_append_of_le_length hlt.le, ih h]

/-! ## Numbers that can follow -/

theorem length_decimal_int {num : ℤ} (h : FitsInt num) :
    (decimal num).length ≤ 11 := by
  obtain ⟨hlow, hhigh⟩ := h
  have hdigits : (decimalNat num.natAbs).length ≤ 10 :=
    length_decimalNat_le_of_lt (by decide) (by omega)
  unfold decimal
  split
  next =>
    rw [List.length_cons]
    omega
  next => omega

theorem endsNumber_nil : EndsNumber [] := by
  rintro b ⟨⟩

/-- Digits behind white space and a sign are a number. -/
theorem numbers_sign {spaces : Text} (hspaces : ∀ b ∈ spaces, isSpace b = true)
    {sign : UInt8} (hsign : sign = 45 ∨ sign = 43) (n : ℕ) :
    numbers ((spaces ++ [sign]) ++ decimalNat n) =
      [toInt32 (clampLong (if sign = 45 then -(n : ℤ) else n))] := by
  have hnot : isSpace sign = false := by
    rcases hsign with rfl | rfl <;> decide
  have htake : (spaces ++ ([sign] ++ decimalNat n)).takeWhile isSpace =
      spaces := by
    rw [List.takeWhile_append_of_pos hspaces]
    simp [hnot]
  have hdrop : (spaces ++ ([sign] ++ decimalNat n)).dropWhile isSpace =
      sign :: decimalNat n := by
    rw [List.dropWhile_append_of_pos hspaces]
    simp [hnot]
  have hsplit : splitSign (sign :: decimalNat n) =
      (decide (sign = 45), 1, decimalNat n) := by
    rcases hsign with rfl | rfl <;> rfl
  have hdigits : (decimalNat n).takeWhile isDigit = decimalNat n :=
    List.takeWhile_eq_self_iff.mpr fun b hb => isDigit_of_mem_decimalNat hb
  have hscan : sscanfInt ((spaces ++ [sign]) ++ decimalNat n) =
      some (toInt32 (clampLong (if sign = 45 then -(n : ℤ) else n)),
        spaces.length + 1 + (decimalNat n).length) := by
    rw [List.append_assoc]
    simp only [sscanfInt, scanNumber, htake, hdrop, hsplit, hdigits,
      if_neg (decimalNat_ne_nil n), digitsValue_decimalNat, Option.map_some,
      decide_eq_true_eq]
  have hnone : sscanfInt [] = none := by decide
  have hlen : ((spaces ++ [sign]) ++ decimalNat n).length ≤
      spaces.length + 1 + (decimalNat n).length := by
    rw [List.length_append, List.length_append, List.length_singleton]
  rw [numbers_of_some hscan, List.drop_of_length_le hlen,
    numbers_of_none hnone]

/-- Every `int` is what some unsigned number with either sign is stored as. -/
theorem exists_unsigned {num : ℤ} (h : FitsInt num) (negative : Prop)
    [Decidable negative] :
    ∃ n : ℕ, n < 2 ^ 32 ∧
      toInt32 (clampLong (if negative then -(n : ℤ) else n)) = num := by
  obtain ⟨hlow, hhigh⟩ := h
  by_cases hneg : negative
  · refine ⟨((-num) % 2 ^ 32).toNat, by omega, ?_⟩
    have hclamp : clampLong (-(((-num) % 2 ^ 32).toNat : ℤ)) =
        -(((-num) % 2 ^ 32).toNat : ℤ) := by
      unfold clampLong
      omega
    rw [if_pos hneg, hclamp, toInt32, Int.bmod_def]
    split <;> omega
  · refine ⟨(num % 2 ^ 32).toNat, by omega, ?_⟩
    have hclamp : clampLong ((num % 2 ^ 32).toNat : ℤ) =
        ((num % 2 ^ 32).toNat : ℤ) := by
      unfold clampLong
      omega
    rw [if_neg hneg, hclamp, toInt32, Int.bmod_def]
    split <;> omega

/-- A number that can follow another one takes at most 11 bytes. -/
theorem exists_spaces {num : ℤ} (hnum : FitsInt num) :
    ∃ spaces : Text, (∀ b ∈ spaces, b = 32) ∧
      (spaces ++ decimal num).length ≤ 11 ∧
      EndsNumber (spaces ++ decimal num) := by
  by_cases hneg : num < 0
  · refine ⟨[], by simp, length_decimal_int hnum, ?_⟩
    rw [List.nil_append, decimal, if_pos hneg]
    rintro b ⟨⟩
    decide
  · have hdigits : (decimalNat num.natAbs).length ≤ 10 :=
      length_decimalNat_le_of_lt (by decide) (by have := hnum.2; omega)
    refine ⟨[32], by simp, ?_, ?_⟩
    · rw [decimal, if_neg hneg, List.length_append, List.length_singleton]
      omega
    · rintro b ⟨⟩
      decide

/-- A number can follow where the scan ended in white space or a sign. -/
theorem exists_continuation_none {text : Text} (hscan : sscanfInt text = none)
    (h : behindSign text = []) {num : ℤ} (hnum : FitsInt num) :
    ∃ w, (∀ b ∈ w, b ≠ 0) ∧ w.length ≤ 11 ∧ (text = [] → EndsNumber w) ∧
      numbers (text ++ w) = numbers text ++ [num] := by
  have hspaces : ∀ b ∈ text.takeWhile isSpace, isSpace b = true :=
    fun b hb => List.mem_takeWhile_imp hb
  have hwhole := List.takeWhile_append_dropWhile (p := isSpace) (l := text)
  rw [numbers_of_none hscan, List.nil_append]
  have hsigned : ∀ sign : UInt8, sign = 45 ∨ sign = 43 →
      text.dropWhile isSpace = [sign] →
      ∃ w, (∀ b ∈ w, b ≠ 0) ∧ w.length ≤ 11 ∧ (text = [] → EndsNumber w) ∧
        numbers (text ++ w) = [num] := by
    intro sign hsign htail
    rw [htail] at hwhole
    obtain ⟨n, hlt, hstored⟩ := exists_unsigned hnum (sign = 45)
    have hlen : (decimalNat n).length ≤ 10 :=
      length_decimalNat_le_of_lt (by decide) (by omega)
    refine ⟨decimalNat n, ?_, by omega, ?_, ?_⟩
    · rintro b hb rfl
      exact absurd (isDigit_of_mem_decimalNat hb) (by decide)
    · rintro rfl
      simp at htail
    · rw [← hwhole, numbers_sign hspaces hsign, hstored]
  rcases splitSign_eq_nil h with htail | htail | htail
  · rw [htail, List.append_nil] at hwhole
    obtain ⟨spaces, hblank, hlen, hends⟩ := exists_spaces hnum
    refine ⟨spaces ++ decimal num, ?_, hlen, fun _ => hends, ?_⟩
    · intro b hb
      rcases List.mem_append.mp hb with hspace | hdigit
      · rw [hblank b hspace]
        decide
      · exact ne_of_mem_decimal hdigit (by decide) (by decide)
    · have hnone : sscanfInt [] = none := by decide
      have hall : ∀ b ∈ text ++ spaces, isSpace b = true := by
        intro b hb
        rcases List.mem_append.mp hb with hold | hspace
        · exact hspaces b (hwhole.symm ▸ hold)
        · rw [hblank b hspace]
          decide
      have hnums := numbers_decimal hall hnum.1 hnum.2 endsNumber_nil
      rw [numbers_of_none hnone, List.append_nil] at hnums
      rwa [← List.append_assoc]
  · exact hsigned 45 (Or.inl rfl) htail
  · exact hsigned 43 (Or.inr rfl) htail

/-- Unless a text is stopped, a few bytes add any `int` behind its numbers. -/
theorem exists_continuation {text : Text} (h : ¬ Stopped text) {num : ℤ}
    (hnum : FitsInt num) :
    ∃ w, (∀ b ∈ w, b ≠ 0) ∧ w.length ≤ 11 ∧ (text = [] → EndsNumber w) ∧
      numbers (text ++ w) = numbers text ++ [num] := by
  induction text using scan_induction with
  | hnone text hscan =>
      rw [Stopped, remainder_of_none hscan, not_not] at h
      exact exists_continuation_none hscan h hnum
  | hsome text num' n hscan ih =>
      rw [Stopped, remainder_of_some hscan] at h
      obtain ⟨w, hw, hlen, hends, hnums⟩ := ih h
      have hpos := sscanfInt_pos hscan
      have hle := sscanfInt_le hscan
      refine ⟨w, hw, hlen, ?_, ?_⟩
      · rintro rfl
        rw [List.length_nil] at hle
        omega
      · have hnext : n < text.length ∨ EndsNumber w := by
          rcases hle.lt_or_eq with hlt | heq
          · exact Or.inl hlt
          · exact Or.inr (hends (List.drop_of_length_le heq.ge))
        rw [numbers_of_some hscan,
          numbers_of_some (sscanfInt_append hscan hnext),
          List.drop_append_of_le_length hle, hnums, List.cons_append]

end Pvos.Checksum
