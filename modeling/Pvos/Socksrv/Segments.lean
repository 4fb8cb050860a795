import Pvos.Checksum.Arithmetic
import Pvos.Socksrv.Communication

/-!
# The servers answer reads

No server looks for the ends of lines: what one `read` returns is one message.
So a client gets one verdict for each read, however its lines are cut into
reads.  The verdict is on the integers that came with the read; where they and
their sums fit in an `int` it compares the last one with the sum of the others.
-/

namespace Pvos.Socksrv

open Pvos.Support Pvos.Checksum

/-! ## Streams of lines of integers -/

/-- A digit, a sign or white space. -/
def isNumberByte (b : UInt8) : Bool :=
  isDigit b || isSpace b || b = 43 || b = 45

/-- A newline-terminated line of at most 75 bytes with at least one integer. -/
structure IntegerLine (line : List UInt8) : Prop where
  length_le : line.length ≤ 75
  ends : ∃ text, line = text ++ [10] ∧ 10 ∉ text
  bytes : ∀ b ∈ line, isNumberByte b = true
  integers : numbers line ≠ []

/-- The results of successive reads that bring the lines; with each of them
the value of `current_num` before it is initialised. -/
structure Segmented (lines : List (List UInt8))
    (reads : List (List UInt8 × ℤ)) : Prop where
  stream : (reads.map Prod.fst).flatten = lines.flatten
  sizes : ∀ r ∈ reads, 1 ≤ r.1.length ∧ r.1.length ≤ 511

/-- The integers written in a text and the sums of the first of them fit in an
`int`. -/
structure SumsFit (bytes : List UInt8) : Prop where
  integers : ∀ num ∈ decimals bytes, FitsInt num
  sums : PartialSumsFit (decimals bytes)

/-- One verdict for each read; where the sums fit it says whether the last
integer of the read is the sum of the others. -/
def ReadVerdicts (reads : List (List UInt8 × ℤ)) (verdicts : List Bool) : Prop :=
  List.Forall₂ (fun r correct => SumsFit r.1 → ∀ others last,
    decimals r.1 = others ++ [last] → (correct = true ↔ others.sum = last))
    reads verdicts

/-- Where the sum in front of the last number fits, the comparison is the one
of the exact sum. -/
theorem lastIsSum_concat {others : List ℤ} {last : ℤ}
    (h : FitsInt others.sum) :
    lastIsSum (others ++ [last]) = true ↔ others.sum = last := by
  rw [lastIsSum, decide_eq_true_eq, List.dropLast_concat,
    List.getLastD_concat, toInt32_of_fits h.1 h.2]

section Reads

variable {lBuf : Memory} {bytes : List UInt8}

theorem isNumberByte_ne {b : UInt8} (h : isNumberByte b = true) :
    b ≠ 0 ∧ toLower b ≠ 99 := by
  constructor
  · rintro rfl
    exact absurd h (by decide)
  · intro hlower
    rcases eq_of_toLower hlower with rfl | rfl
    · exact absurd h (by decide)
    · exact absurd h (by decide)

/-- A text of integers is no close request. -/
theorem isClose_of_numberBytes (hpos : 1 ≤ bytes.length)
    (h : ∀ b ∈ bytes, isNumberByte b = true) :
    isClose (lBuf.write 0 bytes) = false := by
  cases bytes with
  | nil => exact absurd hpos (by decide)
  | cons b bytes =>
      by_contra hclose
      have hhead := toLower_of_isClose (Bool.not_eq_false _ ▸ hclose)
      exact (isNumberByte_ne (h b List.mem_cons_self)).2 hhead

theorem textOf_of_numberBytes (h : ∀ b ∈ bytes, isNumberByte b = true) :
    textOf bytes = bytes := by
  rw [textOf, List.takeWhile_eq_self_iff]
  intro b hb
  simpa using (isNumberByte_ne (h b hb)).1

/-- A read into a zeroed buffer is answered with the verdict on its integers,
and the buffer is zeroed again. -/
theorem read_verdict (hzero : ZeroBuf lBuf) (hpos : 1 ≤ bytes.length)
    (hle : bytes.length ≤ 511) (h : ∀ b ∈ bytes, isNumberByte b = true)
    (currentNum : ℤ) :
    ∃ correct buf, readDataFromClient lBuf currentNum (.data bytes) =
        ⟨0, false, some (replyText correct), buf⟩ ∧ ZeroBuf buf ∧
      (numbers bytes ≠ [] → correct = lastIsSum (numbers bytes)) := by
  have hclose : isClose (lBuf.write 0 bytes) = false :=
    isClose_of_numberBytes hpos h
  obtain ⟨s, hscan⟩ := scan_done (lBuf.write 0 bytes) currentNum
  have hserved := (readDataFromClient_data hpos currentNum).trans
    (serveBuffer_of_scan hclose hscan)
  refine ⟨s.correct, _, hserved, zeroBuf_memset _, fun hne => ?_⟩
  have hstring : (lBuf.write 0 bytes).cstring lBufSize 0 = bytes :=
    (cstring_write_of_zeroBuf hzero hle).trans (textOf_of_numberBytes h)
  obtain ⟨s', hscan', hcorrect⟩ :=
    scan_lastIsSum (by rwa [hstring]) currentNum
  obtain rfl : s = s' := ScanEnd.done.inj (hscan.symm.trans hscan')
  rwa [hstring] at hcorrect

/-- A zeroed buffer is no request to quit. -/
theorem isQuitRequest_of_zeroBuf (hzero : ZeroBuf lBuf) :
    isQuitRequest lBuf = false := by
  rw [isQuitRequest, decide_eq_false_iff_not]
  intro hquit
  have hfirst := congrArg List.head? hquit
  have hhead : toLower (lBuf 0) = 113 := by
    simpa [Memory.bytes, List.range_succ, ascii] using hfirst
  rw [hzero 0 (by decide)] at hhead
  exact absurd hhead (by decide)

theorem SumsFit.lastIsSum_iff {others : List ℤ} {last : ℤ}
    (h : SumsFit bytes) (hsplit : decimals bytes = others ++ [last]) :
    numbers bytes ≠ [] ∧
      (lastIsSum (numbers bytes) = true ↔ others.sum = last) := by
  have hothers : FitsInt others.sum :=
    h.sums.of_prefix (hsplit ▸ List.prefix_append _ _)
  rw [numbers_eq_decimals h.integers, hsplit]
  exact ⟨by simp, lastIsSum_concat hothers⟩

/-- All servers give the same verdicts, one for each read. -/
theorem replies_of_reads {reads : List (List UInt8 × ℤ)} (hzero : ZeroBuf lBuf)
    (hsizes : ∀ r ∈ reads, 1 ≤ r.1.length ∧ r.1.length ≤ 511)
    (hbytes : ∀ r ∈ reads, ∀ b ∈ r.1, isNumberByte b = true) :
    ∃ verdicts, ReadVerdicts reads verdicts ∧
      mplexReplies lBuf reads = verdicts.map replyText ∧
        commReplies lBuf (reads.map clientSends) = verdicts.map replyText := by
  induction reads generalizing lBuf with
  | nil => exact ⟨[], .nil, rfl, rfl⟩
  | cons r reads ih =>
      obtain ⟨bytes, currentNum⟩ := r
      obtain ⟨hpos, hle⟩ := hsizes _ List.mem_cons_self
      obtain ⟨correct, buf, hserved, hbuf, hverdict⟩ :=
        read_verdict hzero hpos hle (hbytes _ List.mem_cons_self) currentNum
      obtain ⟨verdicts, hverdicts, hmplex, hcomm⟩ := ih hbuf
        (fun r hr => hsizes r (List.mem_cons_of_mem _ hr))
        fun r hr => hbytes r (List.mem_cons_of_mem _ hr)
      have hpass : commPass lBuf (clientSends (bytes, currentNum)) =
          ⟨.goes, [replyText correct], buf⟩ := by
        simp [commPass, clientSends, answer_eq, hserved,
          isQuitRequest_of_zeroBuf hbuf]
      have hsum : SumsFit bytes → ∀ others last,
          decimals bytes = others ++ [last] →
            (correct = true ↔ others.sum = last) := by
        intro hfits others last hsplit
        obtain ⟨hne, hiff⟩ := hfits.lastIsSum_iff hsplit
        rwa [← hverdict hne] at hiff
      refine ⟨correct :: verdicts, .cons hsum hverdicts, ?_, ?_⟩
      · simp [mplexReplies, hserved, hmplex]
      · simp [commReplies, hpass, hcomm]

end Reads

/-! ## Reads and lines -/

/-- However the lines are cut into reads, every server sends one verdict for
each read, in order; where the sums fit in an `int` it says whether the last
integer of the read is the sum of the others. -/
theorem one_verdict_per_read {lines : List (List UInt8)}
    {reads : List (List UInt8 × ℤ)} {lBuf : Memory}
    (hlines : ∀ line ∈ lines, IntegerLine line) (hreads : Segmented lines reads)
    (hzero : ZeroBuf lBuf) :
    (∃ verdicts, ReadVerdicts reads verdicts ∧
        mplexReplies (fun _ => 0) reads = verdicts.map replyText) ∧
      ∃ verdicts, ReadVerdicts reads verdicts ∧
        commReplies lBuf (reads.map clientSends) = verdicts.map replyText := by
  have hbytes : ∀ r ∈ reads, ∀ b ∈ r.1, isNumberByte b = true := by
    intro r hr b hb
    have hmem : b ∈ lines.flatten := by
      rw [← hreads.stream]
      exact List.mem_flatten_of_mem (List.mem_map_of_mem hr) hb
    obtain ⟨line, hline, hb⟩ := List.mem_flatten.mp hmem
    exact (hlines line hline).bytes b hb
  have hstatic : ZeroBuf fun _ => 0 := fun _ _ => rfl
  obtain ⟨verdicts, hverdicts, hmplex, -⟩ :=
    replies_of_reads hstatic hreads.sizes hbytes
  obtain ⟨verdicts', hverdicts', -, hcomm⟩ :=
    replies_of_reads hzero hreads.sizes hbytes
  exact ⟨⟨verdicts, hverdicts, hmplex⟩, verdicts', hverdicts', hcomm⟩

theorem integerLine_of_all {text : List UInt8} (hlength : text.length ≤ 74)
    (hends : 10 ∉ text) (hbytes : (text ++ [10]).all isNumberByte = true)
    (hintegers : numbers (text ++ [10]) ≠ []) :
    IntegerLine (text ++ [10]) := by
  refine ⟨?_, ⟨text, rfl, hends⟩, ?_, hintegers⟩
  · rw [List.length_append, List.length_singleton]
    omega
  · exact List.all_eq_true.mp hbytes

/-- Two lines come with one read. -/
theorem one_verdict_per_read_merged :
    (∃ verdicts, ReadVerdicts [(ascii "1 1\n2 3\n", 0)] verdicts ∧
        mplexReplies (fun _ => 0) [(ascii "1 1\n2 3\n", 0)] =
          verdicts.map replyText) ∧
      ∃ verdicts, ReadVerdicts [(ascii "1 1\n2 3\n", 0)] verdicts ∧
        commReplies (fun _ => 0) ([(ascii "1 1\n2 3\n", 0)].map clientSends) =
          verdicts.map replyText := by
  have hfirst : IntegerLine (ascii "1 1" ++ [10]) :=
    integerLine_of_all (by decide) (by decide) (by decide) (by decide +kernel)
  have hsecond : IntegerLine (ascii "2 3" ++ [10]) :=
    integerLine_of_all (by decide) (by decide) (by decide) (by decide +kernel)
  have hlines : ∀ line ∈ [ascii "1 1" ++ [10], ascii "2 3" ++ [10]],
      IntegerLine line := by
    intro line hline
    simp only [List.mem_cons, List.not_mem_nil, or_false] at hline
    rcases hline with rfl | rfl
    · exact hfirst
    · exact hsecond
  have hreads : Segmented [ascii "1 1" ++ [10], ascii "2 3" ++ [10]]
      [(ascii "1 1\n2 3\n", 0)] :=
    ⟨by decide, by simp; decide⟩
  exact one_verdict_per_read hlines hreads fun _ _ => rfl

/-- The last integer of a line is the sum of the ones before it. -/
def lineVerdict (line : List UInt8) : Bool :=
  (decimals line).dropLast.sum = (decimals line).getLastD 0

/-- One verdict for each line, in order. -/
def VerdictPerLine (lines : List (List UInt8)) (replies : List Text) : Prop :=
  replies = lines.map fun line => replyText (lineVerdict line)

/-- The line `"1 1\n"` in two reads gets two verdicts, both of them `ERR`. -/
theorem verdicts_not_per_line :
    ∃ lines reads, (∀ line ∈ lines, IntegerLine line) ∧ Segmented lines reads ∧
      mplexReplies (fun _ => 0) reads = [ascii "ERR\n", ascii "ERR\n"] ∧
      commReplies (fun _ => 0) (reads.map clientSends) =
        [ascii "ERR\n", ascii "ERR\n"] ∧
      ¬ VerdictPerLine lines (mplexReplies (fun _ => 0) reads) ∧
      ¬ VerdictPerLine lines
        (commReplies (fun _ => 0) (reads.map clientSends)) := by
  have hline : IntegerLine (ascii "1 1" ++ [10]) :=
    integerLine_of_all (by decide) (by decide) (by decide) (by decide +kernel)
  have hmplex : mplexReplies (fun _ => 0) [(ascii "1 ", 0), (ascii "1\n", 0)] =
      [ascii "ERR\n", ascii "ERR\n"] := by decide +kernel
  have hcomm : commReplies (fun _ => 0)
      ([(ascii "1 ", 0), (ascii "1\n", 0)].map clientSends) =
        [ascii "ERR\n", ascii "ERR\n"] := by decide +kernel
  have hnot : ¬ VerdictPerLine [ascii "1 1" ++ [10]]
      [ascii "ERR\n", ascii "ERR\n"] := by
    intro h
    exact absurd (congrArg List.length h) (by decide)
  refine ⟨[ascii "1 1" ++ [10]], [(ascii "1 ", 0), (ascii "1\n", 0)], ?_,
    ⟨by decide, by simp; decide⟩, hmplex, hcomm, hmplex ▸ hnot, hcomm ▸ hnot⟩
  intro line hmem
  exact List.mem_singleton.mp hmem ▸ hline

end Pvos.Socksrv
