import Pvos.Checksum.Scan

/-!
# The producer of the FIFO

`run_producer` of `readline/producer.cpp` prints a line into its buffer with
`sprintf` calls at positions it computes by hand, from the number of digits of
its pid and the number of digits printed so far, and writes the buffer up to
its end.
-/

namespace Pvos.Readline

open Pvos.Support Pvos.Checksum

/-- `sizeof(buffer)`, in the producer and in the consumer. -/
def bufferSize : ℕ := 512

/-- What `rand` decides about a line; `falsy` stands for `falsy > 60`. -/
structure LineChoice where
  digits : List (Fin 10)
  length_lt : digits.length < 30
  falsy : Bool

/-- The `do` loop: `++len_of_pid; n /= base`, as long as `n` is left. -/
def lenOfPidLoop : ℕ → ℕ → ℕ → ℕ
  | 0, _, len => len
  | todo + 1, n, len =>
      if n / 10 = 0 then len + 1 else lenOfPidLoop todo (n / 10) (len + 1)

/-- `len_of_pid`. -/
def lenOfPid (pid : ℕ) : ℕ :=
  lenOfPidLoop (pid + 1) pid 0

/-- The `for` loop from `i` on: it prints the digits and adds them up. -/
def printDigits (lenOfPid : ℕ) :
    List (Fin 10) → ℕ → Memory → ℤ → Memory × ℤ
  | [], _, buffer, sum => (buffer, sum)
  | rnd :: rest, i, buffer, sum =>
      printDigits lenOfPid rest (i + 1)
        (buffer.sprintf (lenOfPid + i * 2 + 1) (decimal rnd.val ++ [32]))
        (toInt32 (sum + rnd.val))

/-- The `sprintf` calls of a line over what is in the buffer. -/
def printText (buffer : Memory) (pid : ℕ) (digits : List (Fin 10))
    (falsy : Bool) : Memory :=
  let start := buffer.sprintf 0 (decimal pid ++ [32])
  let (buffer, sum) := printDigits (lenOfPid pid) digits 0 start pid
  let sum := if falsy then toInt32 (sum + 1) else sum
  buffer.sprintf (lenOfPid pid + digits.length * 2 + 1) (decimal sum ++ [10])

/-- The buffer with the line, which is zeroed before. -/
def printLine (pid : ℕ) (choice : LineChoice) : Memory :=
  printText (fun _ => 0) pid choice.digits choice.falsy

/-- The bytes of `write(pfd, buffer, strlen(buffer))`. -/
def writtenLine (pid : ℕ) (choice : LineChoice) : Text :=
  (printLine pid choice).cstring bufferSize 0

/-! ## The positions -/

theorem lenOfPidLoop_eq {todo n : ℕ} (h : n < todo) (len : ℕ) :
    lenOfPidLoop todo n len = len + (decimalNat n).length := by
  induction todo generalizing n len with
  | zero => omega
  | succ todo ih =>
      rw [lenOfPidLoop, length_decimalNat]
      split
      next => rfl
      next hn =>
        rw [ih (by omega)]
        omega

theorem lenOfPid_eq (pid : ℕ) : lenOfPid pid = (decimal pid).length := by
  rw [lenOfPid, lenOfPidLoop_eq (Nat.lt_succ_self pid), decimal_natCast,
    Nat.zero_add]

theorem length_decimal_digit (d : Fin 10) : (decimal d.val).length = 1 := by
  rw [decimal_natCast, length_decimalNat, if_pos (by omega)]

/-- A text of printed numbers has no zero byte. -/
theorem ne_zero_of_mem_decimal_append {n : ℤ} {c b : UInt8} (hc : c ≠ 0)
    (h : b ∈ decimal n ++ [c]) : b ≠ 0 := by
  rcases List.mem_append.mp h with hb | hb
  · exact ne_of_mem_decimal hb (by decide) (by decide)
  · rw [List.mem_singleton.mp hb]
    exact hc

/-- The digits of a choice as numbers. -/
def digitNums (digits : List (Fin 10)) : List ℤ :=
  digits.map fun d : Fin 10 => (d.val : ℤ)

/-- Each `sprintf` of the loop hits the end of the text printed so far. -/
theorem printDigits_eq (len i : ℕ) {buffer : Memory}
    (digits : List (Fin 10)) (sum : ℤ)
    (hlen : (buffer.cstring bufferSize 0).length = len + i * 2 + 1)
    (hroom : len + (i + digits.length) * 2 + 1 < bufferSize) :
    ((printDigits len digits i buffer (toInt32 sum)).1.cstring bufferSize 0 =
        buffer.cstring bufferSize 0 ++ spaced (digitNums digits)) ∧
      (printDigits len digits i buffer (toInt32 sum)).2 =
        toInt32 (sum + (digitNums digits).sum) := by
  induction digits generalizing i buffer sum with
  | nil => simp [printDigits, spaced, digitNums]
  | cons d digits ih =>
      rw [List.length_cons] at hroom
      have hdigit := length_decimal_digit d
      have hprint := Memory.cstring_sprintf buffer bufferSize 0
        (fun b (hb : b ∈ decimal d.val ++ [32]) =>
          ne_zero_of_mem_decimal_append (by decide) hb)
        (by
          rw [hlen, List.length_append, hdigit, List.length_singleton]
          omega)
      rw [hlen, Nat.zero_add] at hprint
      have hlen' := congrArg List.length hprint
      rw [List.length_append, List.length_append, hlen, hdigit,
        List.length_singleton] at hlen'
      obtain ⟨htext, hsum⟩ := ih (i + 1) (sum + d.val)
        (hlen'.trans (by omega)) (by omega)
      rw [printDigits, toInt32_add]
      constructor
      · rw [htext, hprint]
        simp [spaced, digitNums]
      · rw [hsum]
        simp [digitNums, add_assoc]

theorem length_spaced_digitNums (digits : List (Fin 10)) :
    (spaced (digitNums digits)).length = digits.length * 2 := by
  induction digits with
  | nil => rfl
  | cons d digits ih =>
      have hdigit := length_decimal_digit d
      simp only [spaced, digitNums, List.map_cons, List.flatMap_cons,
        List.length_append, hdigit, List.length_cons,
        List.length_nil] at ih ⊢
      omega

theorem digitNums_sum (digits : List (Fin 10)) :
    0 ≤ (digitNums digits).sum ∧
      (digitNums digits).sum ≤ 9 * digits.length := by
  induction digits with
  | nil => simp [digitNums]
  | cons d digits ih =>
      simp only [digitNums, List.map_cons, List.sum_cons,
        List.length_cons] at ih ⊢
      omega

/-! ## The text -/

/-- The pid and the digits as numbers. -/
def textNums (pid : ℕ) (digits : List (Fin 10)) : List ℤ :=
  pid :: digitNums digits

/-- The last number of a text, which `falsy` corrupts. -/
def textSum (pid : ℕ) (digits : List (Fin 10)) (falsy : Bool) : ℤ :=
  (textNums pid digits).sum + if falsy then 1 else 0

/-- The text of the pid, the digits and the sum. -/
def checksumText (pid : ℕ) (digits : List (Fin 10)) (falsy : Bool) : Text :=
  messageText (textNums pid digits) (textSum pid digits falsy)

section Text

variable {pid : ℕ} {digits : List (Fin 10)} {falsy : Bool}

theorem textSum_bounds (pid : ℕ) (digits : List (Fin 10)) (falsy : Bool) :
    (pid : ℤ) ≤ pid + (digitNums digits).sum ∧
      pid + (digitNums digits).sum ≤ textSum pid digits falsy := by
  have hsum := (digitNums_sum digits).1
  simp only [textSum, textNums, List.sum_cons]
  split <;> omega

/-- The `int` that is added up is the exact sum. -/
theorem textSum_eq (hfits : textSum pid digits falsy < 2 ^ 31) :
    (if falsy then toInt32 (toInt32 (pid + (digitNums digits).sum) + 1)
      else toInt32 (pid + (digitNums digits).sum)) =
      textSum pid digits falsy := by
  have hbounds := textSum_bounds pid digits falsy
  rw [toInt32_add]
  simp only [textSum, textNums, List.sum_cons] at hfits hbounds ⊢
  split
  next hfalsy =>
    rw [if_pos hfalsy] at hfits
    exact toInt32_of_fits (by omega) hfits
  next =>
    rw [add_zero]
    exact toInt32_of_fits (by omega) (by omega)

theorem length_checksumText (pid : ℕ) (digits : List (Fin 10))
    (falsy : Bool) :
    (checksumText pid digits falsy).length =
      (decimal pid).length + digits.length * 2 + 1 +
        ((decimal (textSum pid digits falsy)).length + 1) := by
  have hdigits := length_spaced_digitNums digits
  have hspaced : (spaced (textNums pid digits)).length =
      (decimal pid).length + 1 + digits.length * 2 := by
    simp only [textNums, spaced, List.flatMap_cons, List.length_append,
      List.length_singleton, ← hdigits]
  rw [checksumText, messageText, List.length_append, hspaced,
    List.length_append, List.length_singleton]
  omega

/-- The calls print the pid, the digits and the sum, with no gap, over
whatever is in the buffer. -/
theorem cstring_printText (buffer : Memory)
    (hfits : textSum pid digits falsy < 2 ^ 31)
    (hroom : (checksumText pid digits falsy).length < bufferSize) :
    (printText buffer pid digits falsy).cstring bufferSize 0 =
      checksumText pid digits falsy := by
  have hbounds := textSum_bounds pid digits falsy
  rw [length_checksumText] at hroom
  have hstart : (buffer.sprintf 0 (decimal pid ++ [32])).cstring
      bufferSize 0 = decimal pid ++ [32] := by
    apply Memory.cstring_sprintf_self
    · exact fun b hb => ne_zero_of_mem_decimal_append (by decide) hb
    · rw [List.length_append, List.length_singleton]
      omega
  have hpos : (decimal pid ++ [32]).length = lenOfPid pid + 0 * 2 + 1 := by
    rw [lenOfPid_eq]
    simp
  obtain ⟨htext, hdigits⟩ := printDigits_eq (lenOfPid pid) 0 digits pid
    ((congrArg List.length hstart).trans hpos)
    (by rw [lenOfPid_eq]; omega)
  rw [toInt32_of_fits (by omega) (by omega)] at htext hdigits
  rw [hstart] at htext
  have hend : (decimal pid ++ [32] ++ spaced (digitNums digits)).length =
      lenOfPid pid + digits.length * 2 + 1 := by
    rw [List.length_append, hpos, length_spaced_digitNums]
    omega
  have hprint := Memory.cstring_sprintf
    (printDigits (lenOfPid pid) digits 0
      (buffer.sprintf 0 (decimal pid ++ [32])) pid).1 bufferSize 0
    (fun b (hb : b ∈ decimal (textSum pid digits falsy) ++ [10]) =>
      ne_zero_of_mem_decimal_append (by decide) hb)
    (by
      rw [htext, hend, List.length_append, List.length_singleton,
        lenOfPid_eq]
      omega)
  rw [htext, hend, Nat.zero_add] at hprint
  simp only [printText, hdigits, textSum_eq hfits, hprint]
  simp [checksumText, messageText, spaced, textNums]

/-- The text is scanned as its numbers. -/
theorem numbers_checksumText (hfits : textSum pid digits falsy < 2 ^ 31) :
    numbers (checksumText pid digits falsy) =
      textNums pid digits ++ [textSum pid digits falsy] := by
  have hbounds := textSum_bounds pid digits falsy
  rw [checksumText, ← List.nil_append (messageText _ _)]
  refine numbers_messageText ?_ (List.forall_mem_nil _)
  intro num hnum
  simp only [textNums, digitNums, List.cons_append, List.mem_cons,
    List.mem_append, List.mem_map, List.not_mem_nil, or_false] at hnum
  rcases hnum with rfl | ⟨d, -, rfl⟩ | rfl <;> omega

end Text

/-! ## The line -/

/-- The numbers of a line in front of the last one. -/
def lineNums (pid : ℕ) (choice : LineChoice) : List ℤ :=
  pid :: digitNums choice.digits

/-- The last number of a line, which `falsy` corrupts. -/
def lineSum (pid : ℕ) (choice : LineChoice) : ℤ :=
  (lineNums pid choice).sum + if choice.falsy then 1 else 0

theorem lineNums_sum (pid : ℕ) (choice : LineChoice) :
    (pid : ℤ) ≤ (lineNums pid choice).sum ∧
      (lineNums pid choice).sum ≤ pid + 261 := by
  have hsum := digitNums_sum choice.digits
  have hlen := choice.length_lt
  simp only [lineNums, List.sum_cons]
  omega

theorem lineSum_fits {pid : ℕ} (hpid : pid < 2 ^ 30) (choice : LineChoice) :
    0 ≤ lineSum pid choice ∧ lineSum pid choice < 2 ^ 31 := by
  have hnums := lineNums_sum pid choice
  unfold lineSum
  split <;> omega

theorem length_decimal_le {n : ℤ} (hlow : 0 ≤ n) (hhigh : n < 2 ^ 31) :
    (decimal n).length ≤ 10 := by
  obtain ⟨m, rfl⟩ := Int.eq_ofNat_of_zero_le hlow
  rw [decimal_natCast]
  exact length_decimalNat_le_of_lt (by decide) (by omega)

/-- The line written is the pid, the digits and the sum, with no gap. -/
theorem writtenLine_eq {pid : ℕ} (hpid : pid < 2 ^ 30) (choice : LineChoice) :
    writtenLine pid choice =
      messageText (lineNums pid choice) (lineSum pid choice) := by
  have hlen := choice.length_lt
  have hpidLen : (decimal pid).length ≤ 10 :=
    length_decimal_le (by omega) (by omega)
  have hsum := lineSum_fits hpid choice
  have hsumLen : (decimal (textSum pid choice.digits choice.falsy)).length ≤
      10 := length_decimal_le hsum.1 hsum.2
  refine cstring_printText _ hsum.2 ?_
  rw [length_checksumText, bufferSize]
  omega

end Pvos.Readline
