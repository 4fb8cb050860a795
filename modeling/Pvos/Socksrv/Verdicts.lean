import Pvos.Checksum.Arithmetic
import Pvos.Readline.Consumer
import Pvos.Socksrv.Segments

/-!
# The verdict on a buffer

The servers and the consumer of the FIFO check a buffer with the same loop.  On
a text of numbers whose sums fit in an `int` they say whether the last number is
the sum of the ones before it.
-/

namespace Pvos.Socksrv

open Pvos.Support Pvos.Checksum Pvos.Readline

/-- The three servers reply to the buffer with this verdict, and the consumer
prints its error for the other one. -/
structure Verdicts (buffer : Memory) (currentNum : ℤ) (correct : Bool) :
    Prop where
  mplex : (serveBuffer buffer currentNum).reply = some (replyText correct)
  communication :
    (answerBuffer buffer currentNum).reply = some (replyText correct)
  consumer : (checkLine buffer currentNum).isNone = correct

section Verdict

variable {buffer : Memory} {currentNum : ℤ}

theorem verdicts_of_scan {s : ScanState} (hclose : isClose buffer = false)
    (hscan : scan buffer lBufSize currentNum = .done s) :
    Verdicts buffer currentNum s.correct := by
  have hserved := serveBuffer_of_scan hclose hscan
  refine ⟨?_, ?_, ?_⟩
  · rw [hserved]
  · rw [answerBuffer_eq, hserved]
  · have hscan' : scan buffer bufferSize currentNum = .done s := hscan
    simp only [checkLine, hscan', finalState]
    cases s.correct <;> rfl

/-- A buffer with numbers gets the verdict on them from all programs. -/
theorem verdicts_lastIsSum
    (h : numbers (buffer.cstring lBufSize 0) ≠ []) (currentNum : ℤ) :
    Verdicts buffer currentNum
      (lastIsSum (numbers (buffer.cstring lBufSize 0))) := by
  obtain ⟨s, hscan, hcorrect⟩ := scan_lastIsSum h currentNum
  exact hcorrect ▸ verdicts_of_scan (isClose_of_numbers_cstring h) hscan

/-! ## Result -/

/-- The loop reads the numbers from the start of the string up to the first
place where no number follows, and every program finds them correct if and only
if the last one is the sum of the others; they are the numbers written in the
string, where these fit in an `int`. -/
theorem verdict_iff_sum {others : List ℤ} {last : ℤ}
    (h : numbers (buffer.cstring lBufSize 0) = others ++ [last])
    (hfits : PartialSumsFit (others ++ [last])) (currentNum : ℤ) :
    numbersRead buffer lBufSize currentNum = others ++ [last] ∧
      (∃ correct, Verdicts buffer currentNum correct ∧
        (correct = true ↔ others.sum = last)) ∧
      ((∀ num ∈ decimals (buffer.cstring lBufSize 0), FitsInt num) →
        decimals (buffer.cstring lBufSize 0) = others ++ [last]) := by
  refine ⟨?_, ⟨_, verdicts_lastIsSum (by simp [h]) currentNum, ?_⟩, ?_⟩
  · rw [numbersRead_eq, h]
  · rw [h]
    exact lastIsSum_concat (hfits.of_prefix (List.prefix_append _ _))
  · intro hdecimals
    rw [← numbers_eq_decimals hdecimals, h]

end Verdict

/-- A sign without a digit ends the numbers, a sign in front of one is part of
it. -/
theorem verdict_iff_sum_signs :
    numbersRead (Memory.write (fun _ => 0) 0 (ascii " 3-1+2 -x 5")) lBufSize 9 =
        [3, -1, 2] ∧
      ∃ correct, Verdicts
          (Memory.write (fun _ => 0) 0 (ascii " 3-1+2 -x 5")) 9 correct ∧
        (correct = true ↔ ([3, -1] : List ℤ).sum = 2) := by
  have hnums : numbers ((Memory.write (fun _ => 0) 0
      (ascii " 3-1+2 -x 5")).cstring lBufSize 0) = [3, -1] ++ [2] := by
    decide +kernel
  obtain ⟨hread, hverdict, -⟩ := verdict_iff_sum hnums (by decide) 9
  exact ⟨hread, hverdict⟩

/-! ## Exact arithmetic -/

/-- The results that a server computes for a buffer, before they are stored;
it checks no close request. -/
def servedArithmetic (lBuf : Memory) (currentNum : ℤ) : List ℤ :=
  if isClose lBuf then [] else arithmetic lBuf lBufSize currentNum

/-- No addition and no subtraction leaves the range of an `int`, and the
servers reply like on unbounded integers. -/
structure ExactChecksum (lBuf : Memory) (bytes : List UInt8)
    (currentNum : ℤ) : Prop where
  arithmetic :
    ∀ r ∈ servedArithmetic (lBuf.write 0 bytes) currentNum, FitsInt r
  mplex : isClose (lBuf.write 0 bytes) = false →
    (readDataFromClient lBuf currentNum (.data bytes)).reply = some (replyText
      (correctUnbounded (lBuf.write 0 bytes) lBufSize currentNum))
  communication : isClose (lBuf.write 0 bytes) = false →
    (answer lBuf currentNum (.data bytes)).reply = some (replyText
      (correctUnbounded (lBuf.write 0 bytes) lBufSize currentNum))

section Exact

variable {lBuf : Memory} {bytes : List UInt8} {currentNum : ℤ}

theorem exactChecksum_iff_arithmetic (hpos : 1 ≤ bytes.length) :
    ExactChecksum lBuf bytes currentNum ↔
      ∀ r ∈ servedArithmetic (lBuf.write 0 bytes) currentNum, FitsInt r := by
  refine ⟨ExactChecksum.arithmetic, fun hfits => ?_⟩
  have hmplex : isClose (lBuf.write 0 bytes) = false →
      (readDataFromClient lBuf currentNum (.data bytes)).reply =
        some (replyText
          (correctUnbounded (lBuf.write 0 bytes) lBufSize currentNum)) := by
    intro hopen
    rw [servedArithmetic, if_neg (by simp [hopen])] at hfits
    rw [readDataFromClient_data hpos, ← correct_eq_unbounded hfits,
      serveBuffer_of_scan hopen (scan_eq_passes _ _ _)]
  exact ⟨hfits, hmplex, fun hopen => by rw [answer_eq, hmplex hopen]⟩

/-! ## Result -/

/-- The arithmetic on a message is exact if and only if the message is a close
request, or the sums of its first numbers fit in an `int`, for each number of
them; without a number the uninitialised variable decides.  Then a reply is `OK`
exactly when the last number is the true sum of the others. -/
theorem checksum_exact_iff (hlen : 1 ≤ bytes.length ∧ bytes.length ≤ 511)
    (hcurrent : FitsInt currentNum)
    (hints : ∀ num ∈ decimals ((lBuf.write 0 bytes).cstring lBufSize 0),
      FitsInt num) :
    (ZeroBuf lBuf →
        (lBuf.write 0 bytes).cstring lBufSize 0 = textOf bytes) ∧
      (ExactChecksum lBuf bytes currentNum ↔
        isClose (lBuf.write 0 bytes) = true ∨
          PartialSumsFit
            (decimals ((lBuf.write 0 bytes).cstring lBufSize 0)) ∧
          (decimals ((lBuf.write 0 bytes).cstring lBufSize 0) = [] →
            currentNum ≠ -2 ^ 31)) ∧
      (ExactChecksum lBuf bytes currentNum → ∀ others last,
        decimals ((lBuf.write 0 bytes).cstring lBufSize 0) =
            others ++ [last] →
          ((readDataFromClient lBuf currentNum (.data bytes)).reply =
              some (ascii "OK\n") ↔ others.sum = last) ∧
            ((answer lBuf currentNum (.data bytes)).reply =
              some (ascii "OK\n") ↔ others.sum = last)) := by
  have hnums := numbers_eq_decimals hints
  refine ⟨fun hzero => cstring_write_of_zeroBuf hzero hlen.2, ?_, ?_⟩
  · rw [exactChecksum_iff_arithmetic hlen.1, servedArithmetic]
    split
    next hclose => simp [hclose]
    next hopen =>
      rw [arithmetic_fits_iff hcurrent, hnums]
      simp [hopen]
  · intro hexact others last hsplit
    have hne : numbers ((lBuf.write 0 bytes).cstring lBufSize 0) ≠ [] := by
      simp [hnums, hsplit]
    have hopen := isClose_of_numbers_cstring hne
    have hsum := correctUnbounded_concat (hnums.trans hsplit) currentNum
    have hok : ∀ correct, some (replyText correct) = some (ascii "OK\n") ↔
        correct = true := by decide
    rw [hexact.mplex hopen, hexact.communication hopen, hok, hsum]
    exact ⟨Iff.rfl, Iff.rfl⟩

end Exact

/-- The sums of `"1 2 3\n"` fit. -/
theorem checksum_exact_iff_small :
    ExactChecksum (fun _ => 0) (ascii "1 2 3\n") 7 ∧
      (readDataFromClient (fun _ => 0) 7 (.data (ascii "1 2 3\n"))).reply =
        some (ascii "OK\n") := by
  have htext : decimals ((Memory.write (fun _ => 0) 0
      (ascii "1 2 3\n")).cstring lBufSize 0) = [1, 2] ++ [3] := by
    decide +kernel
  have hints : ∀ num ∈ decimals ((Memory.write (fun _ => 0) 0
      (ascii "1 2 3\n")).cstring lBufSize 0), FitsInt num := by
    rw [htext]
    decide
  obtain ⟨-, hiff, hreply⟩ :=
    @checksum_exact_iff (fun _ => 0) (ascii "1 2 3\n") 7 (by decide) (by decide)
      hints
  have hexact := hiff.mpr (Or.inr (by rw [htext]; decide))
  exact ⟨hexact, ((hreply hexact _ _ htext).1).mpr (by decide)⟩

/-- Two additions wrap around, and the servers find the sum of `2147483647` and
`1` in `-2147483648`. -/
theorem sum_wraps_around :
    decimals (textOf (ascii "2147483647 1 -2147483648\n")) =
        [2147483647, 1] ++ [-2147483648] ∧
      (∀ num ∈ [2147483647, 1, -2147483648], FitsInt num) ∧
      ¬ ExactChecksum (fun _ => 0) (ascii "2147483647 1 -2147483648\n") 0 ∧
      (readDataFromClient (fun _ => 0) 0
          (.data (ascii "2147483647 1 -2147483648\n"))).reply =
        some (ascii "OK\n") ∧
      (answer (fun _ => 0) 0
          (.data (ascii "2147483647 1 -2147483648\n"))).reply =
        some (ascii "OK\n") := by
  have hopen : isClose (Memory.write (fun _ => 0) 0
      (ascii "2147483647 1 -2147483648\n")) = false := by decide
  have hreply : (readDataFromClient (fun _ => 0) 0
      (.data (ascii "2147483647 1 -2147483648\n"))).reply =
        some (ascii "OK\n") := by decide +kernel
  refine ⟨by decide +kernel, by decide, fun hexact => ?_, hreply,
    by rw [answer_eq, hreply]⟩
  have hmplex := hexact.mplex hopen
  rw [hreply] at hmplex
  have hunbounded : correctUnbounded (Memory.write (fun _ => 0) 0
      (ascii "2147483647 1 -2147483648\n")) lBufSize 0 = false := by
    decide +kernel
  rw [hunbounded] at hmplex
  exact absurd hmplex (by decide)

end Pvos.Socksrv
