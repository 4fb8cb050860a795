import Pvos.Support.CString

/-!
# The sum checker

The FIFO consumer and the socket servers check a text with the same loop over
`sscanf` with `%d%n`: it adds up the numbers found one after another, takes the
last one off again and compares.  Signed arithmetic wraps around.

`numbers` is the sequence of numbers of a text.  The loop over a buffer is
described by the numbers of the C string in it.
-/

namespace Pvos.Checksum

open Pvos.Support

/-! ## The loop -/

/-- The variables of the loop. -/
structure ScanState where
  sum : ℤ
  currentNum : ℤ
  offset : ℕ
  deriving DecidableEq

/-- `sscanf` found a number and consumed `bytesRead` bytes. -/
def ScanState.next (s : ScanState) (num : ℤ) (bytesRead : ℕ) : ScanState where
  sum := toInt32 (s.sum + num)
  currentNum := num
  offset := s.offset + bytesRead

/-- The loop ends because `sscanf` finds no number, or because
`bytes_read <= 0`. -/
inductive ScanEnd
  | done (s : ScanState)
  | stuck (s : ScanState)
  deriving DecidableEq

/-- The `while` loop over a buffer of `size` bytes; `todo` bounds its
passes. -/
def scanLoop (buffer : Memory) (size : ℕ) : ℕ → ScanState → ScanEnd
  | 0, s => .done s
  | todo + 1, s =>
      match sscanfInt (buffer.cstring size s.offset) with
      | none => .done s
      | some (num, bytesRead) =>
          if bytesRead ≤ 0 then .stuck (s.next num bytesRead)
          else scanLoop buffer size todo (s.next num bytesRead)

/-- The loop with the uninitialised `current_num`. -/
def scan (buffer : Memory) (size : ℕ) (currentNum : ℤ) : ScanEnd :=
  scanLoop buffer size (size + 1) ⟨0, currentNum, 0⟩

/-- `sum -= current_num`, the last number taken off. -/
def ScanState.sumOfOthers (s : ScanState) : ℤ :=
  toInt32 (s.sum - s.currentNum)

/-- `sum == current_num` behind the loop. -/
def ScanState.correct (s : ScanState) : Bool :=
  s.sumOfOthers = s.currentNum

/-! ## The numbers of a text -/

def numbersFrom : ℕ → Text → List ℤ
  | 0, _ => []
  | todo + 1, text =>
      match sscanfInt text with
      | none => []
      | some (num, bytesRead) =>
          num :: numbersFrom todo (text.drop bytesRead)

/-- The numbers found one after another from the start of a text. -/
def numbers (text : Text) : List ℤ :=
  numbersFrom (text.length + 1) text

theorem numbersFrom_eq {a b : ℕ} {text : Text} (ha : text.length < a)
    (hb : text.length < b) : numbersFrom a text = numbersFrom b text := by
  induction a generalizing b text with
  | zero => omega
  | succ a ih =>
      cases b with
      | zero => omega
      | succ b =>
          simp only [numbersFrom]
          cases hscan : sscanfInt text with
          | none => rfl
          | some found =>
              obtain ⟨num, n⟩ := found
              have hpos := sscanfInt_pos hscan
              have hle := sscanfInt_le hscan
              simp only
              rw [ih (b := b)]
              · rw [List.length_drop]
                omega
              · rw [List.length_drop]
                omega

theorem numbers_of_none {text : Text} (h : sscanfInt text = none) :
    numbers text = [] := by
  simp [numbers, numbersFrom, h]

theorem numbers_of_some {text : Text} {num : ℤ} {n : ℕ}
    (h : sscanfInt text = some (num, n)) :
    numbers text = num :: numbers (text.drop n) := by
  have hpos := sscanfInt_pos h
  have hle := sscanfInt_le h
  have hlen : (text.drop n).length = text.length - n := List.length_drop
  have hrest : numbersFrom text.length (text.drop n) =
      numbers (text.drop n) :=
    numbersFrom_eq (by omega) (Nat.lt_succ_self _)
  rw [numbers]
  simp only [numbersFrom, h, hrest]

/-! ## The decimal numbers of a text -/

def decimalsFrom : ℕ → Text → List ℤ
  | 0, _ => []
  | todo + 1, text =>
      match scanNumber text with
      | none => []
      | some (value, bytesRead) =>
          value :: decimalsFrom todo (text.drop bytesRead)

/-- The values of the numbers in a text, before they are stored in an
`int`. -/
def decimals (text : Text) : List ℤ :=
  decimalsFrom (text.length + 1) text

/-- `num` is the value of an `int`. -/
def FitsInt (num : ℤ) : Prop :=
  -2 ^ 31 ≤ num ∧ num < 2 ^ 31

instance (num : ℤ) : Decidable (FitsInt num) :=
  inferInstanceAs (Decidable (_ ∧ _))

theorem toInt32_fits (v : ℤ) : FitsInt (toInt32 v) := by
  rw [FitsInt, toInt32, Int.bmod_def]
  split <;> omega

theorem toInt32_succ_ne (v : ℤ) : toInt32 (v + 1) ≠ toInt32 v := by
  rw [toInt32, toInt32, Int.bmod_def, Int.bmod_def]
  split <;> split <;> omega

theorem numbersFrom_eq_map (todo : ℕ) (text : Text) :
    numbersFrom todo text =
      (decimalsFrom todo text).map fun v => toInt32 (clampLong v) := by
  induction todo generalizing text with
  | zero => rfl
  | succ todo ih =>
      simp only [numbersFrom, decimalsFrom, sscanfInt]
      cases scanNumber text with
      | none => rfl
      | some found => simp only [Option.map_some, List.map_cons, ih]

/-- Where the numbers of a text fit in an `int`, they are read as what they
are. -/
theorem numbers_eq_decimals {text : Text}
    (h : ∀ num ∈ decimals text, FitsInt num) :
    numbers text = decimals text := by
  rw [numbers, numbersFrom_eq_map, decimals]
  conv_rhs => rw [← List.map_id (decimalsFrom (text.length + 1) text)]
  apply List.map_congr_left
  intro num hnum
  obtain ⟨hlow, hhigh⟩ := h num hnum
  rw [clampLong_of_fits hlow hhigh, toInt32_of_fits hlow hhigh, id]

/-! ## What the loop computes -/

section Loop

variable {buffer : Memory} {size : ℕ}

/-- The loop ends without its guard and has read the numbers of the text. -/
theorem scanLoop_done {todo : ℕ} {s : ScanState}
    (h : (buffer.cstring size s.offset).length < todo) :
    ∃ s', scanLoop buffer size todo s = .done s' ∧
      toInt32 s'.sum =
        toInt32 (s.sum + (numbers (buffer.cstring size s.offset)).sum) ∧
      s'.currentNum =
        (numbers (buffer.cstring size s.offset)).getLastD s.currentNum := by
  induction todo generalizing s with
  | zero => omega
  | succ todo ih =>
      simp only [scanLoop]
      cases hscan : sscanfInt (buffer.cstring size s.offset) with
      | none =>
          rw [numbers_of_none hscan]
          exact ⟨s, rfl, by simp, rfl⟩
      | some found =>
          obtain ⟨num, n⟩ := found
          have hpos := sscanfInt_pos hscan
          have hle := sscanfInt_le hscan
          have hnext : buffer.cstring size (s.next num n).offset =
              (buffer.cstring size s.offset).drop n :=
            Memory.cstring_add hle
          obtain ⟨s', hloop, hsum, hcurrent⟩ := ih (s := s.next num n) (by
            rw [hnext, List.length_drop]
            omega)
          rw [hnext] at hsum hcurrent
          simp only [if_neg (Nat.not_le.mpr hpos)]
          refine ⟨s', hloop, ?_, ?_⟩
          · rw [hsum, numbers_of_some hscan, List.sum_cons, ScanState.next,
              toInt32_add, add_assoc]
          · rw [hcurrent, numbers_of_some hscan, ScanState.next,
              List.getLastD_cons]

/-- The loop starts with enough passes for the string in the buffer. -/
theorem length_cstring_start (buffer : Memory) (size : ℕ) (currentNum : ℤ) :
    (buffer.cstring size (⟨0, currentNum, 0⟩ : ScanState).offset).length <
      size + 1 :=
  Nat.lt_succ_of_le (Memory.length_cstring_le buffer size 0)

/-- The verdict on a buffer with numbers does not depend on the uninitialised
variable: it says whether the last number is the sum of the others. -/
theorem scan_correct {others : List ℤ} {last : ℤ}
    (h : numbers (buffer.cstring size 0) = others ++ [last])
    (currentNum : ℤ) :
    ∃ s, scan buffer size currentNum = .done s ∧ s.currentNum = last ∧
      s.sumOfOthers = toInt32 others.sum := by
  obtain ⟨s, hscan, hsum, hcurrent⟩ :=
    scanLoop_done (length_cstring_start buffer size currentNum)
  simp only [h, List.sum_append, List.sum_singleton, zero_add] at hsum
  simp only [h, List.getLastD_concat] at hcurrent
  refine ⟨s, hscan, hcurrent, ?_⟩
  rw [ScanState.sumOfOthers, hcurrent, ← toInt32_sub, hsum, toInt32_sub,
    add_sub_cancel_right]

end Loop

/-! ## Texts made of numbers -/

/-- `"%d "` of every number. -/
def spaced (nums : List ℤ) : Text :=
  nums.flatMap fun num => decimal num ++ [32]

/-- A line of numbers, the last one in front of the newline. -/
def messageText (nums : List ℤ) (last : ℤ) : Text :=
  spaced nums ++ (decimal last ++ [10])

theorem numbers_decimal {spaces : Text}
    (hspaces : ∀ b ∈ spaces, isSpace b = true) {num : ℤ}
    (hlow : -2 ^ 31 ≤ num) (hhigh : num < 2 ^ 31) {rest : Text}
    (hrest : EndsNumber rest) :
    numbers (spaces ++ (decimal num ++ rest)) = num :: numbers rest := by
  rw [numbers_of_some (sscanfInt_decimal hspaces hlow hhigh hrest),
    ← List.append_assoc, List.drop_left' (by simp)]

/-- A line of numbers is scanned as these numbers. -/
theorem numbers_messageText {nums : List ℤ} {last : ℤ}
    (h : ∀ num ∈ nums ++ [last], -2 ^ 31 ≤ num ∧ num < 2 ^ 31)
    {spaces : Text} (hspaces : ∀ b ∈ spaces, isSpace b = true) :
    numbers (spaces ++ messageText nums last) = nums ++ [last] := by
  induction nums generalizing spaces with
  | nil =>
      obtain ⟨hlow, hhigh⟩ := h last (by simp)
      have hnone : sscanfInt [10] = none := by decide
      simp only [messageText, spaced, List.flatMap_nil, List.nil_append]
      rw [numbers_decimal hspaces hlow hhigh (by rintro b ⟨⟩; decide),
        numbers_of_none hnone]
  | cons num nums ih =>
      obtain ⟨hlow, hhigh⟩ := h num (by simp)
      have htext : messageText (num :: nums) last =
          decimal num ++ ([32] ++ messageText nums last) := by
        simp [messageText, spaced]
      rw [htext, numbers_decimal hspaces hlow hhigh (by rintro b ⟨⟩; decide),
        ih (fun n hn => h n (List.mem_cons_of_mem _ hn))
          (fun _ => isSpace_of_mem_space),
        List.cons_append]

end Pvos.Checksum
