import Pvos.Readline.Lines
import Pvos.Readline.Producer

/-!
# The consumer of the FIFO

`run_consumer` of `readline/producer.cpp` zeroes its buffer, reads a line into
it with `read_line_select`, one byte at a time, and checks the sum.

`LineState.pass` is one pass of the loop of `read_line_select`: a `select` and
the `read` of a byte.
-/

namespace Pvos.Readline

open Pvos.Support Pvos.Checksum

/-! ## `read_line_select` -/

/-- The buffer and `data_move`. -/
structure LineState where
  data : Memory
  dataMove : ℕ

namespace LineState

/-- The bytes read so far. -/
def stored (l : LineState) : List UInt8 :=
  l.data.bytes 0 l.dataMove

/-- A pass returns without a byte, or stores one and returns or goes on. -/
inductive Pass
  | returns (ret : ℤ)
  | stores (l : LineState) (ret : Option ℤ)

/-- `data[data_move++]` is read. -/
def store (l : LineState) (b : UInt8) : LineState where
  data := l.data.write l.dataMove [b]
  dataMove := l.dataMove + 1

/-- One pass of the `while` loop; `read` asks for one byte. -/
def pass (tLen : ℕ) (l : LineState) : Outcome → Pass
  | .timeout => .returns (-1)
  | .failed _ => .returns (if tLen ≤ l.dataMove then l.dataMove else -1)
  | .data [] =>
      .returns (if tLen ≤ l.dataMove then l.dataMove
        else if l.dataMove = 0 then 0 else l.dataMove)
  | .data (b :: _) =>
      if tLen ≤ l.dataMove then .returns l.dataMove
      else .stores (l.store b)
        (if b = newline then some (l.store b).dataMove else none)

/-- `memset(buffer, 0, 512)` in front of a call. -/
def clear (l : LineState) : LineState where
  data := l.data.memset 0 0 bufferSize
  dataMove := 0

end LineState

/-! ## The check of a line -/

/-- The variables behind the loop, which a `break` leaves as well. -/
def finalState : ScanEnd → ScanState
  | .done s => s
  | .stuck s => s

/-- The numbers of the message `"Sum is not correct! %d != %d\n"`, if it is
printed. -/
def checkLine (buffer : Memory) (currentNum : ℤ) : Option (ℤ × ℤ) :=
  let s := finalState (scan buffer bufferSize currentNum)
  if s.correct then none else some (s.sumOfOthers, s.currentNum)

/-! ## What a written line is to the consumer -/

section Line

variable {pid : ℕ}

theorem ne_newline_of_mem_spaced {nums : List ℤ} {b : UInt8}
    (h : b ∈ spaced nums) : b ≠ newline ∧ b ≠ 0 := by
  simp only [spaced, List.mem_flatMap, List.mem_append,
    List.mem_singleton] at h
  obtain ⟨num, -, hb | rfl⟩ := h
  · exact ⟨ne_of_mem_decimal hb (by decide) (by decide),
      ne_of_mem_decimal hb (by decide) (by decide)⟩
  · decide

theorem isLine_writtenLine (hpid : pid < 2 ^ 30) (choice : LineChoice) :
    IsLine (writtenLine pid choice) := by
  rw [writtenLine_eq hpid]
  refine ⟨spaced (lineNums pid choice) ++ decimal (lineSum pid choice), ?_, ?_⟩
  · intro h
    rcases List.mem_append.mp h with hb | hb
    · exact (ne_newline_of_mem_spaced hb).1 rfl
    · exact ne_of_mem_decimal hb (by decide) (by decide) rfl
  · rw [messageText, List.append_assoc]
    rfl

theorem writtenLine_ne_zero {choice : LineChoice} {b : UInt8}
    (h : b ∈ writtenLine pid choice) : b ≠ 0 :=
  Memory.cstring_ne_zero h

theorem length_writtenLine_lt (hpid : pid < 2 ^ 30) (choice : LineChoice) :
    (writtenLine pid choice).length < bufferSize := by
  have hlen := choice.length_lt
  have hsum := lineSum_fits hpid choice
  have hsumLen : (decimal (textSum pid choice.digits choice.falsy)).length ≤
      10 := length_decimal_le hsum.1 hsum.2
  have hpidLen : (decimal pid).length ≤ 10 :=
    length_decimal_le (by omega) (by omega)
  have htext := length_checksumText pid choice.digits choice.falsy
  rw [writtenLine_eq hpid]
  refine htext.trans_lt ?_
  rw [bufferSize]
  omega

/-- The error is printed for a written line exactly when it is corrupted. -/
theorem checkLine_writtenLine (hpid : pid < 2 ^ 30) (choice : LineChoice)
    {buffer : Memory}
    (h : buffer.cstring bufferSize 0 = writtenLine pid choice)
    (currentNum : ℤ) :
    (checkLine buffer currentNum).isSome = choice.falsy := by
  have hnums := lineNums_sum pid choice
  have hsum := lineSum_fits hpid choice
  have hscanned : numbers (buffer.cstring bufferSize 0) =
      lineNums pid choice ++ [lineSum pid choice] := by
    rw [h, writtenLine_eq hpid]
    exact numbers_checksumText hsum.2
  obtain ⟨s, hscan, hcurrent, hothers⟩ := scan_correct hscanned currentNum
  rw [toInt32_of_fits (by omega) (by omega)] at hothers
  simp only [checkLine, hscan, finalState, ScanState.correct, hothers,
    hcurrent, lineSum]
  cases choice.falsy <;> simp

end Line

end Pvos.Readline
