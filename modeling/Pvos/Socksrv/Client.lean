import Pvos.Socksrv.Verdicts

/-!
# Texts of the client and of the producer

Between two answers the client of `socksrv/socket_cl.cpp` prints a text into
its buffer like the producer of the FIFO does; it takes the position behind the
pid from the first `sprintf` instead of counting digits, and the buffer is not
zeroed before.

Both print the same text, and whoever checks it finds it correct if and only if
it was not corrupted.
-/

namespace Pvos.Socksrv

open Pvos.Support Pvos.Checksum Pvos.Readline

/-! ## The text of the client -/

/-- The `for` loop from `i` on. -/
def printDigitsAt (offset : ℕ) :
    List (Fin 10) → ℕ → Memory → ℤ → Memory × ℤ
  | [], _, lBuf, sum => (lBuf, sum)
  | rnd :: rest, i, lBuf, sum =>
      printDigitsAt offset rest (i + 1)
        (lBuf.sprintf (offset + i * 2) (decimal rnd.val ++ [32]))
        (toInt32 (sum + rnd.val))

/-- The block behind a timeout of `poll`; `lI` is `l_i` after its increment,
and `digits` what `rand` returned. -/
def clientText (lBuf : Memory) (pid : ℕ) (digits : List (Fin 10)) (lI : ℕ) :
    Memory :=
  let offset := (decimal pid ++ [32]).length
  let start := lBuf.sprintf 0 (decimal pid ++ [32])
  let (lBuf, sum) := printDigitsAt offset digits 0 start pid
  let sum := if lI % 2 = 1 then toInt32 (sum + 1) else sum
  lBuf.sprintf (offset + digits.length * 2) (decimal sum ++ [10])

theorem printDigitsAt_eq (len : ℕ) (digits : List (Fin 10)) (i : ℕ)
    (lBuf : Memory) (sum : ℤ) :
    printDigitsAt (len + 1) digits i lBuf sum =
      printDigits len digits i lBuf sum := by
  induction digits generalizing i lBuf sum with
  | nil => rfl
  | cons rnd rest ih =>
      rw [printDigitsAt, printDigits, ih, Nat.add_right_comm len 1]

/-- The two ways to find the position behind the pid agree. -/
theorem clientText_eq (lBuf : Memory) (pid : ℕ) (digits : List (Fin 10))
    (lI : ℕ) :
    clientText lBuf pid digits lI =
      printText lBuf pid digits (decide (lI % 2 = 1)) := by
  have hoffset : (decimal pid ++ [32]).length = lenOfPid pid + 1 := by
    rw [lenOfPid_eq, List.length_append, List.length_singleton]
  simp only [clientText, printText, hoffset, printDigitsAt_eq,
    decide_eq_true_eq, Nat.add_right_comm _ 1]

/-! ## Texts of both -/

/-- The buffer with a text of the producer, which is zeroed before, or of the
client; the flag says whether the sum is corrupted. -/
inductive Generated (pid : ℕ) (digits : List (Fin 10)) : Bool → Memory → Prop
  | producer (falsy : Bool) :
      Generated pid digits falsy (printText (fun _ => 0) pid digits falsy)
  | client (lBuf : Memory) (lI : ℕ) :
      Generated pid digits (decide (lI % 2 = 1))
        (clientText lBuf pid digits lI)

section Generated

variable {pid : ℕ} {digits : List (Fin 10)} {falsy : Bool} {buffer : Memory}

theorem Generated.cstring (h : Generated pid digits falsy buffer)
    (hfits : textSum pid digits falsy < 2 ^ 31)
    (hroom : (checksumText pid digits falsy).length < bufferSize) :
    buffer.cstring bufferSize 0 = checksumText pid digits falsy := by
  cases h with
  | producer => exact cstring_printText _ hfits hroom
  | client lBuf lI =>
      rw [clientText_eq]
      exact cstring_printText lBuf hfits hroom

/-- The verdict on a buffer that holds the text. -/
theorem verdicts_checksumText
    (h : buffer.cstring bufferSize 0 = checksumText pid digits falsy)
    (hfits : textSum pid digits falsy < 2 ^ 31) (currentNum : ℤ) :
    Verdicts buffer currentNum (!falsy) := by
  have hbounds := textSum_bounds pid digits falsy
  have hnums : numbers (buffer.cstring lBufSize 0) =
      textNums pid digits ++ [textSum pid digits falsy] := by
    rw [← numbers_checksumText hfits, ← h]
    rfl
  have hne : numbers (buffer.cstring lBufSize 0) ≠ [] := by simp [hnums]
  have hverdicts := verdicts_lastIsSum hne currentNum
  have hsum : (textNums pid digits).sum = pid + (digitNums digits).sum :=
    List.sum_cons
  have hothers : FitsInt (textNums pid digits).sum :=
    ⟨by omega, by omega⟩
  have hverdict : lastIsSum (numbers (buffer.cstring lBufSize 0)) = !falsy := by
    rw [hnums, Bool.eq_iff_iff, lastIsSum_concat hothers, textSum]
    cases falsy <;> simp
  exact hverdict ▸ hverdicts

end Generated

/-! ## Result -/

/-- The buffer of either generator is one terminated text of the pid, the
digits and the sum; the loop over it reads these numbers, and whoever checks a
buffer with this text finds it correct if and only if the sum was not
corrupted. -/
theorem checksum_round_trip {pid : ℕ} {digits : List (Fin 10)} {falsy : Bool}
    (hfits : textSum pid digits falsy < 2 ^ 31)
    (hroom : (checksumText pid digits falsy).length < bufferSize) :
    (∀ buffer, Generated pid digits falsy buffer →
        buffer.bytes 0 ((checksumText pid digits falsy).length + 1) =
            checksumText pid digits falsy ++ [0] ∧
          0 ∉ checksumText pid digits falsy ∧
          buffer.cstring bufferSize 0 = checksumText pid digits falsy) ∧
      ∀ buffer : Memory,
        buffer.cstring bufferSize 0 = checksumText pid digits falsy →
        ∀ currentNum,
          numbersRead buffer bufferSize currentNum =
              textNums pid digits ++ [textSum pid digits falsy] ∧
            ∃ correct, Verdicts buffer currentNum correct ∧
              (correct = true ↔ falsy = false) := by
  constructor
  · intro buffer hbuffer
    have hstring := hbuffer.cstring hfits hroom
    refine ⟨?_, ?_, hstring⟩
    · rw [← hstring]
      exact Memory.bytes_cstring_zero (by rwa [Nat.zero_add, hstring])
    · rw [← hstring]
      exact fun hzero => Memory.cstring_ne_zero hzero rfl
  · intro buffer hstring currentNum
    refine ⟨?_, !falsy, verdicts_checksumText hstring hfits currentNum, ?_⟩
    · rw [numbersRead_eq, hstring, numbers_checksumText hfits]
    · cases falsy <;> simp

/-- The client with pid 12 and two digits, in its first message, which it
corrupts, over a buffer that was not zeroed. -/
theorem checksum_round_trip_client :
    (clientText (fun _ => 55) 12 [3, 4] 1).bytes 0 11 =
        ascii "12 3 4 20\n" ++ [0] ∧
      numbersRead (clientText (fun _ => 55) 12 [3, 4] 1) bufferSize 5 =
        [12, 3, 4, 20] ∧
      ∃ correct, Verdicts (clientText (fun _ => 55) 12 [3, 4] 1) 5 correct ∧
        (correct = true ↔ true = false) := by
  have htext : checksumText 12 [3, 4] true = ascii "12 3 4 20\n" := by
    decide +kernel
  obtain ⟨hprinted, hchecked⟩ :=
    @checksum_round_trip 12 [3, 4] true (by decide) (by rw [htext]; decide)
  obtain ⟨hbytes, -, hstring⟩ :=
    hprinted _ (.client (fun _ => 55) 1)
  rw [htext] at hbytes
  obtain ⟨hread, hverdict⟩ := hchecked _ hstring 5
  exact ⟨hbytes, hread, hverdict⟩

end Pvos.Socksrv
