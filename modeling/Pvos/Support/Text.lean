import Mathlib.Data.Nat.Digits.Lemmas
import Mathlib.Data.Int.Order.Basic
import Mathlib.Data.List.TakeWhile
import Mathlib.Tactic.Common

/-!
# Decimal text: `%d` of `sprintf` and `sscanf`

C strings are lists of bytes without the terminator.  `decimal` is what `%d`
prints.  `scanNumber` is what `%d` matches: white space, an optional sign and
the longest run of digits; `sscanfInt` converts the match to an `int` the way
the C library does, saturating at `long` and truncating to 32 bits.
-/

namespace Pvos.Support

/-- The bytes of a C string. -/
abbrev Text := List UInt8

/-- The text of a string literal. -/
def ascii (s : String) : Text :=
  s.toList.map fun c => c.toNat.toUInt8

/-! ## Printing -/

/-- The character of a decimal digit. -/
def digitByte (d : ℕ) : UInt8 := UInt8.ofNat (48 + d)

def decimalNat (n : ℕ) : Text :=
  if n = 0 then [digitByte 0] else ((Nat.digits 10 n).map digitByte).reverse

/-- `%d` of `sprintf`. -/
def decimal (n : ℤ) : Text :=
  if n < 0 then 45 :: decimalNat n.natAbs else decimalNat n.natAbs

/-! ## Scanning -/

/-- `isspace` in the C locale. -/
def isSpace (b : UInt8) : Bool :=
  b = 32 || (9 ≤ b && b ≤ 13)

/-- `isdigit`. -/
def isDigit (b : UInt8) : Bool :=
  48 ≤ b && b ≤ 57

/-- The number written by a list of digits. -/
def digitsValue (ds : Text) : ℕ :=
  ds.foldl (fun v b => 10 * v + (b.toNat - 48)) 0

/-- Split an optional sign off: whether it is a minus, its length, the rest. -/
def splitSign : Text → Bool × ℕ × Text
  | 45 :: rest => (true, 1, rest)
  | 43 :: rest => (false, 1, rest)
  | rest => (false, 0, rest)

/-- The number a `%d` matches at the start of `s` and how many bytes it
takes. -/
def scanNumber (s : Text) : Option (ℤ × ℕ) :=
  let spaces := s.takeWhile isSpace
  let (negative, signLength, rest) := splitSign (s.dropWhile isSpace)
  let ds := rest.takeWhile isDigit
  if ds = [] then none
  else
    let value : ℤ := digitsValue ds
    some (if negative then -value else value,
      spaces.length + signLength + ds.length)

/-- The saturated result of a conversion to `long`. -/
def clampLong (v : ℤ) : ℤ :=
  max (-2 ^ 63) (min v (2 ^ 63 - 1))

/-- Conversion to a 32-bit `int`, and the wrap-around of its arithmetic. -/
def toInt32 (v : ℤ) : ℤ :=
  Int.bmod v (2 ^ 32)

/-- Conversion to a 32-bit `unsigned int`. -/
def toUint32 (v : ℤ) : ℕ :=
  (v % 2 ^ 32).toNat

/-- Conversion to `size_t`. -/
def toSizeT (v : ℤ) : ℕ :=
  (v % 2 ^ 64).toNat

/-- `%d%n` of `sscanf`: the number stored and the bytes consumed. -/
def sscanfInt (s : Text) : Option (ℤ × ℕ) :=
  (scanNumber s).map fun (v, n) => (toInt32 (clampLong v), n)

/-- A text without a zero byte, checked byte by byte. -/
theorem ne_zero_of_all {text : Text} (h : text.all (· != 0) = true) :
    ∀ b ∈ text, b ≠ 0 := by
  intro b hb
  simpa using List.all_eq_true.mp h b hb

theorem isSpace_of_mem_space {b : UInt8} (h : b ∈ ([32] : Text)) :
    isSpace b = true := by
  rw [List.mem_singleton.mp h]
  rfl

/-! ## Digits -/

theorem digitByte_toNat {d : ℕ} (hd : d < 10) :
    (digitByte d).toNat = 48 + d := by
  rw [digitByte, UInt8.toNat_ofNat']
  omega

theorem isDigit_digitByte {d : ℕ} (hd : d < 10) :
    isDigit (digitByte d) = true := by
  interval_cases d <;> decide

theorem isSpace_of_isDigit {b : UInt8} (h : isDigit b = true) :
    isSpace b = false := by
  simp only [isDigit, Bool.and_eq_true, decide_eq_true_eq, UInt8.le_iff_toNat_le] at h
  simp only [isSpace, Bool.or_eq_false_iff, Bool.and_eq_false_iff,
    decide_eq_false_iff_not, UInt8.le_iff_toNat_le]
  refine ⟨?_, Or.inr ?_⟩
  · rintro rfl
    simp at h
  · have h48 : (48 : UInt8).toNat = 48 := rfl
    have h13 : (13 : UInt8).toNat = 13 := rfl
    omega

theorem decimalNat_ne_nil (n : ℕ) : decimalNat n ≠ [] := by
  unfold decimalNat
  split
  next => simp
  next hn => simpa [Nat.digits_eq_nil_iff_eq_zero] using hn

theorem isDigit_of_mem_decimalNat {n : ℕ} {b : UInt8}
    (h : b ∈ decimalNat n) : isDigit b = true := by
  unfold decimalNat at h
  split at h
  next =>
    rw [List.mem_singleton.mp h]
    rfl
  next =>
    rw [List.mem_reverse, List.mem_map] at h
    obtain ⟨d, hd, rfl⟩ := h
    exact isDigit_digitByte (Nat.digits_lt_base (by decide) hd)

/-- One digit more than the number without its last digit. -/
theorem length_decimalNat (n : ℕ) :
    (decimalNat n).length =
      if n / 10 = 0 then 1 else (decimalNat (n / 10)).length + 1 := by
  unfold decimalNat
  split
  next hn => simp [hn]
  next hn =>
    have hpos : 0 < n := Nat.pos_of_ne_zero hn
    rw [Nat.digits_def' (by decide) hpos]
    split
    next hdiv => simp [hdiv]
    next => simp

theorem length_decimalNat_le_of_lt {n k : ℕ} (hk : 1 ≤ k) (hn : n < 10 ^ k) :
    (decimalNat n).length ≤ k := by
  unfold decimalNat
  split
  next => simpa using hk
  next =>
    rw [List.length_reverse, List.length_map]
    exact (Nat.digits_length_le_iff (by decide) n).mpr hn

theorem isDigit_or_minus_of_mem_decimal {n : ℤ} {b : UInt8}
    (h : b ∈ decimal n) : isDigit b = true ∨ b = 45 := by
  unfold decimal at h
  split at h
  next =>
    rcases List.mem_cons.mp h with rfl | hdigit
    · exact Or.inr rfl
    · exact Or.inl (isDigit_of_mem_decimalNat hdigit)
  next => exact Or.inl (isDigit_of_mem_decimalNat h)

/-- A printed number has neither white space nor a zero byte. -/
theorem ne_of_mem_decimal {n : ℤ} {b c : UInt8} (h : b ∈ decimal n)
    (hdigit : isDigit c = false) (hminus : c ≠ 45) : b ≠ c := by
  rintro rfl
  rcases isDigit_or_minus_of_mem_decimal h with hb | hb
  · rw [hb] at hdigit
    exact Bool.noConfusion hdigit
  · exact hminus hb

theorem decimal_natCast (n : ℕ) : decimal n = decimalNat n := by
  have hpos : ¬ ((n : ℤ) < 0) := by omega
  rw [decimal, if_neg hpos, Int.natAbs_natCast]

theorem digitsValue_append (ds : Text) (b : UInt8) :
    digitsValue (ds ++ [b]) = 10 * digitsValue ds + (b.toNat - 48) := by
  simp [digitsValue]

theorem digitsValue_reverse_map {ds : List ℕ} (h : ∀ d ∈ ds, d < 10) :
    digitsValue ((ds.map digitByte).reverse) = Nat.ofDigits 10 ds := by
  induction ds with
  | nil => rfl
  | cons d ds ih =>
      have hd : d < 10 := h d (by simp)
      have htail := ih fun e he => h e (List.mem_cons_of_mem d he)
      rw [List.map_cons, List.reverse_cons, digitsValue_append, htail,
        digitByte_toNat hd, Nat.ofDigits_cons]
      omega

theorem digitsValue_decimalNat (n : ℕ) : digitsValue (decimalNat n) = n := by
  unfold decimalNat
  split
  next hn =>
    subst hn
    rfl
  next =>
    rw [digitsValue_reverse_map fun d hd => Nat.digits_lt_base (by decide) hd]
    exact Nat.ofDigits_digits 10 n

/-! ## Scanning what was printed -/

/-- The text does not go on with a digit. -/
def EndsNumber (rest : Text) : Prop :=
  ∀ b, rest.head? = some b → isDigit b = false

theorem takeWhile_eq_nil_of_head {p : UInt8 → Bool} {rest : Text}
    (h : ∀ b, rest.head? = some b → p b = false) : rest.takeWhile p = [] := by
  cases rest with
  | nil => rfl
  | cons b rest => simp [h b rfl]

theorem dropWhile_eq_self_of_head {p : UInt8 → Bool} {rest : Text}
    (h : ∀ b, rest.head? = some b → p b = false) :
    rest.dropWhile p = rest := by
  cases rest with
  | nil => rfl
  | cons b rest => simp [h b rfl]

theorem splitSign_digit {b : UInt8} {rest : Text} (h : isDigit b = true) :
    splitSign (b :: rest) = (false, 0, b :: rest) := by
  unfold splitSign
  split
  next heq =>
    obtain ⟨rfl, rfl⟩ := List.cons.inj heq
    exact absurd h (by decide)
  next heq =>
    obtain ⟨rfl, rfl⟩ := List.cons.inj heq
    exact absurd h (by decide)
  next => rfl

theorem splitSign_decimal (n : ℤ) (rest : Text) :
    splitSign (decimal n ++ rest) =
      (decide (n < 0), (decimal n).length - (decimalNat n.natAbs).length,
        decimalNat n.natAbs ++ rest) := by
  unfold decimal
  split
  next hneg => simp [splitSign, hneg]
  next hpos =>
    obtain ⟨b, ds, hcons⟩ := List.exists_cons_of_ne_nil
      (decimalNat_ne_nil n.natAbs)
    have hb : isDigit b = true :=
      isDigit_of_mem_decimalNat (n := n.natAbs) (by simp [hcons])
    rw [hcons, List.cons_append, splitSign_digit hb]
    simp [hpos]

theorem decimal_head_not_space (n : ℤ) (rest : Text) :
    ∀ b, (decimal n ++ rest).head? = some b → isSpace b = false := by
  intro b hb
  unfold decimal at hb
  split at hb
  next =>
    rw [List.cons_append, List.head?_cons, Option.some.injEq] at hb
    subst b
    decide
  next =>
    obtain ⟨d, ds, hcons⟩ := List.exists_cons_of_ne_nil
      (decimalNat_ne_nil n.natAbs)
    rw [hcons, List.cons_append, List.head?_cons, Option.some.injEq] at hb
    subst b
    exact isSpace_of_isDigit
      (isDigit_of_mem_decimalNat (n := n.natAbs) (by simp [hcons]))

theorem length_decimalNat_le (n : ℤ) :
    (decimalNat n.natAbs).length ≤ (decimal n).length := by
  unfold decimal
  split
  next => simp
  next => exact Nat.le_refl _

/-- A printed number behind white space scans as itself, up to a byte that is
no digit. -/
theorem scanNumber_decimal {spaces : Text} (hspaces : ∀ b ∈ spaces, isSpace b = true)
    (n : ℤ) {rest : Text} (hrest : EndsNumber rest) :
    scanNumber (spaces ++ (decimal n ++ rest)) =
      some (n, spaces.length + (decimal n).length) := by
  have hhead := decimal_head_not_space n rest
  have htake : (spaces ++ (decimal n ++ rest)).takeWhile isSpace = spaces := by
    rw [List.takeWhile_append_of_pos hspaces, takeWhile_eq_nil_of_head hhead,
      List.append_nil]
  have hdrop : (spaces ++ (decimal n ++ rest)).dropWhile isSpace =
      decimal n ++ rest := by
    rw [List.dropWhile_append_of_pos hspaces, dropWhile_eq_self_of_head hhead]
  have hdigits : (decimalNat n.natAbs ++ rest).takeWhile isDigit =
      decimalNat n.natAbs := by
    rw [List.takeWhile_append_of_pos fun b hb => isDigit_of_mem_decimalNat hb,
      takeWhile_eq_nil_of_head hrest, List.append_nil]
  have hlen := length_decimalNat_le n
  simp only [scanNumber, htake, hdrop, splitSign_decimal, hdigits,
    if_neg (decimalNat_ne_nil _), digitsValue_decimalNat, Option.some.injEq,
    Prod.mk.injEq, decide_eq_true_eq]
  constructor
  · split <;> omega
  · omega

/-- A match takes at least one byte. -/
theorem scanNumber_pos {s : Text} {v : ℤ} {n : ℕ}
    (h : scanNumber s = some (v, n)) : 0 < n := by
  simp only [scanNumber] at h
  split at h
  next => simp at h
  next hne =>
    simp only [Option.some.injEq, Prod.mk.injEq] at h
    have := List.length_pos_of_ne_nil hne
    omega

theorem splitSign_length (s : Text) :
    (splitSign s).2.1 + (splitSign s).2.2.length = s.length := by
  unfold splitSign
  split <;> simp <;> omega

/-- A match takes no more bytes than there are. -/
theorem scanNumber_le {s : Text} {v : ℤ} {n : ℕ}
    (h : scanNumber s = some (v, n)) : n ≤ s.length := by
  have hwhole := congrArg List.length
    (List.takeWhile_append_dropWhile (p := isSpace) (l := s))
  have hsplit := splitSign_length (s.dropWhile isSpace)
  rw [List.length_append] at hwhole
  rcases hsign : splitSign (s.dropWhile isSpace) with
    ⟨negative, signLength, rest⟩
  simp only [scanNumber, hsign] at h hsplit
  have htake : (rest.takeWhile isDigit).length ≤ rest.length :=
    (List.takeWhile_prefix _).length_le
  split at h
  next => simp at h
  next =>
    simp only [Option.some.injEq, Prod.mk.injEq] at h
    omega

/-! ## Conversions that keep the value -/

theorem toInt32_of_fits {v : ℤ} (hlow : -2 ^ 31 ≤ v) (hhigh : v < 2 ^ 31) :
    toInt32 v = v := by
  rw [toInt32, Int.bmod_eq_of_le_mul_two] <;> omega

/-- An `int` that was kept in an `unsigned int`. -/
theorem toInt32_toUint32 {v : ℤ} (hlow : -2 ^ 31 ≤ v) (hhigh : v < 2 ^ 31) :
    toInt32 (toUint32 v) = v := by
  have hcast : (toUint32 v : ℤ) = v % (2 ^ 32 : ℕ) := by
    unfold toUint32
    omega
  rw [hcast, toInt32, Int.emod_bmod]
  exact toInt32_of_fits hlow hhigh

theorem toSizeT_natCast {n : ℕ} (h : n < 2 ^ 64) : toSizeT n = n := by
  unfold toSizeT
  omega

theorem toInt32_add (v w : ℤ) : toInt32 (toInt32 v + w) = toInt32 (v + w) :=
  Int.bmod_add_bmod

theorem toInt32_sub (v w : ℤ) : toInt32 (toInt32 v - w) = toInt32 (v - w) :=
  Int.bmod_sub_bmod

theorem sscanfInt_pos {s : Text} {v : ℤ} {n : ℕ}
    (h : sscanfInt s = some (v, n)) : 0 < n := by
  rw [sscanfInt, Option.map_eq_some_iff] at h
  obtain ⟨⟨w, n'⟩, hscan, heq⟩ := h
  obtain ⟨-, rfl⟩ := Prod.mk.inj heq
  exact scanNumber_pos hscan

theorem sscanfInt_le {s : Text} {v : ℤ} {n : ℕ}
    (h : sscanfInt s = some (v, n)) : n ≤ s.length := by
  rw [sscanfInt, Option.map_eq_some_iff] at h
  obtain ⟨⟨w, n'⟩, hscan, heq⟩ := h
  obtain ⟨-, rfl⟩ := Prod.mk.inj heq
  exact scanNumber_le hscan

theorem clampLong_of_fits {v : ℤ} (hlow : -2 ^ 31 ≤ v) (hhigh : v < 2 ^ 31) :
    clampLong v = v := by
  unfold clampLong
  omega

theorem sscanfInt_decimal {spaces : Text}
    (hspaces : ∀ b ∈ spaces, isSpace b = true) {n : ℤ} (hlow : -2 ^ 31 ≤ n)
    (hhigh : n < 2 ^ 31) {rest : Text} (hrest : EndsNumber rest) :
    sscanfInt (spaces ++ (decimal n ++ rest)) =
      some (n, spaces.length + (decimal n).length) := by
  rw [sscanfInt, scanNumber_decimal hspaces n hrest, Option.map_some]
  simp only [clampLong_of_fits hlow hhigh, toInt32_of_fits hlow hhigh]

end Pvos.Support
