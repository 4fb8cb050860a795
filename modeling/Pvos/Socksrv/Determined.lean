import Pvos.Checksum.Continuation
import Pvos.Readline.Pipeline
import Pvos.Socksrv.Verdicts

/-!
# Uninitialised locals and the decisions

The servers that fork or start threads scan a message together with what their
uninitialised `l_buf` holds behind it, and a scan that finds no number leaves
`current_num` uninitialised.  The decision on a message is determined by its
bytes when it is a close request, or when it has a number and ends the scan
itself: with a zero byte, or with a byte that starts no number.

The consumer zeroes its buffer, and the buffer of the multiplexing server is
static; there only `current_num` is left.
-/

namespace Pvos.Socksrv

open Pvos.Support Pvos.Checksum Pvos.Readline

/-! ## The string behind a read -/

section Buffer

variable {bytes : List UInt8}

theorem cstring_write (lBuf : Memory) (hlen : bytes.length ≤ lBufSize) :
    (lBuf.write 0 bytes).cstring lBufSize 0 =
      (bytes ++ lBuf.bytes bytes.length (lBufSize - bytes.length)).takeWhile
        (· ≠ 0) := by
  rw [Memory.cstring, Nat.sub_zero, Memory.bytes_write lBuf 0 hlen,
    Nat.zero_add]

/-- A message with a zero byte is a string by itself. -/
theorem cstring_write_of_zero (lBuf : Memory) (hlen : bytes.length ≤ lBufSize)
    (hzero : 0 ∈ bytes) :
    (lBuf.write 0 bytes).cstring lBufSize 0 = textOf bytes := by
  obtain ⟨front, back, hsplit⟩ := List.append_of_mem hzero
  rw [cstring_write lBuf hlen, textOf, hsplit, List.append_assoc,
    List.cons_append, takeWhile_append_stop (by decide),
    takeWhile_append_stop (by decide)]

/-- Behind a message without a zero byte the string goes on. -/
theorem cstring_write_of_no_zero (lBuf : Memory)
    (hlen : bytes.length ≤ lBufSize) (hzero : 0 ∉ bytes) :
    ∃ w, (∀ b ∈ w, b ≠ 0) ∧ bytes.length + w.length ≤ lBufSize ∧
      (lBuf.write 0 bytes).cstring lBufSize 0 = bytes ++ w := by
  have hall : ∀ b ∈ bytes, decide (b ≠ 0) = true := by
    intro b hb
    exact decide_eq_true fun heq => hzero (heq ▸ hb)
  refine ⟨(lBuf.bytes bytes.length (lBufSize - bytes.length)).takeWhile
    (· ≠ 0), ?_, ?_, ?_⟩
  · exact fun b hb => by simpa using List.mem_takeWhile_imp hb
  · have hle := (List.takeWhile_prefix (p := (· ≠ 0)) (l := lBuf.bytes
      bytes.length (lBufSize - bytes.length))).length_le
    rw [Memory.length_bytes] at hle
    omega
  · rw [cstring_write lBuf hlen, List.takeWhile_append_of_pos hall]

/-- Any bytes that fit may be left behind a message. -/
theorem exists_cstring_write {w : List UInt8} (hw : ∀ b ∈ w, b ≠ 0)
    (hzero : 0 ∉ bytes) (hlen : bytes.length + w.length ≤ lBufSize) :
    ∃ lBuf : Memory,
      (lBuf.write 0 bytes).cstring lBufSize 0 = bytes ++ w := by
  refine ⟨Memory.write (fun _ => 0) bytes.length w, ?_⟩
  have hall : ∀ b ∈ bytes ++ w, decide (b ≠ 0) = true := by
    intro b hb
    rcases List.mem_append.mp hb with hold | hnew
    · exact decide_eq_true fun heq => hzero (heq ▸ hold)
    · exact decide_eq_true (hw b hnew)
  have hrest := Memory.cstring_zero lBufSize (bytes.length + w.length)
  rw [Memory.cstring] at hrest
  rw [cstring_write _ (by omega), Memory.bytes_write _ _ (by omega),
    ← List.append_assoc, List.takeWhile_append_of_pos hall, Nat.sub_sub,
    hrest, List.append_nil]

/-- Over a zeroed buffer only a whole close request is one. -/
theorem beginsClose_of_isClose
    (h : isClose (Memory.write (fun _ => 0) 0 bytes) = true) :
    BeginsClose bytes := by
  rw [isClose, decide_eq_true_eq] at h
  by_cases hlen : 5 ≤ bytes.length
  · rwa [Memory.bytes_write_take _ 0 hlen] at h
  · have hmem : toLower 0 ∈ ascii "close" := by
      rw [← h]
      refine List.mem_map_of_mem ?_
      simp only [Memory.bytes, List.mem_map, List.mem_range]
      exact ⟨bytes.length, by omega, by simp [Memory.write]⟩
    exact absurd hmem (by decide)

end Buffer

/-! ## One decision -/

/-- Whether the block for data from the client leaves the loop, and its
reply. -/
def answerDecision (a : Answered) : Decision :=
  ⟨a.leaves, a.reply⟩

section Decision

variable {lBuf : Memory} {bytes : List UInt8}

theorem answerDecision_eq (lBuf : Memory) (currentNum : ℤ)
    (read : ReadResult) :
    answerDecision (answer lBuf currentNum read) =
      decisionOf (readDataFromClient lBuf currentNum read) := by
  rw [answer_eq]
  rfl

theorem decision_of_close (hpos : 1 ≤ bytes.length) (currentNum : ℤ)
    (hclose : isClose (lBuf.write 0 bytes) = true) :
    decisionOf (readDataFromClient lBuf currentNum (.data bytes)) =
      ⟨true, none⟩ := by
  rw [readDataFromClient_data hpos, serveBuffer, if_pos hclose]
  rfl

theorem decision_of_numbers (hpos : 1 ≤ bytes.length) (currentNum : ℤ)
    (h : numbers ((lBuf.write 0 bytes).cstring lBufSize 0) ≠ []) :
    decisionOf (readDataFromClient lBuf currentNum (.data bytes)) =
      ⟨false, some (replyText (lastIsSum
        (numbers ((lBuf.write 0 bytes).cstring lBufSize 0))))⟩ := by
  obtain ⟨s, hscan, hcorrect⟩ := scan_lastIsSum h currentNum
  rw [readDataFromClient_data hpos,
    serveBuffer_of_scan (isClose_of_numbers_cstring h) hscan, ← hcorrect]
  rfl

/-- The loop that reads no number leaves the uninitialised variable. -/
theorem scan_of_no_numbers {buffer : Memory} {size : ℕ}
    (h : numbers (buffer.cstring size 0) = []) (currentNum : ℤ) :
    scan buffer size currentNum = .done ⟨0, currentNum, 0⟩ := by
  have hread := numbersRead_eq buffer size currentNum
  rw [h, numbersRead, List.map_eq_nil_iff] at hread
  rw [scan_eq_passes, hread, List.getLastD_nil]

theorem decision_of_no_numbers (hpos : 1 ≤ bytes.length) (currentNum : ℤ)
    (hopen : isClose (lBuf.write 0 bytes) = false)
    (h : numbers ((lBuf.write 0 bytes).cstring lBufSize 0) = []) :
    decisionOf (readDataFromClient lBuf currentNum (.data bytes)) =
      ⟨false, some (replyText (toInt32 (0 - currentNum) = currentNum))⟩ := by
  rw [readDataFromClient_data hpos,
    serveBuffer_of_scan hopen (scan_of_no_numbers h currentNum)]
  rfl

/-- Without a number the decision depends on the uninitialised variable. -/
theorem decision_depends (hpos : 1 ≤ bytes.length)
    (hopen : isClose (lBuf.write 0 bytes) = false)
    (h : numbers ((lBuf.write 0 bytes).cstring lBufSize 0) = []) :
    decisionOf (readDataFromClient lBuf 0 (.data bytes)) ≠
      decisionOf (readDataFromClient lBuf 1 (.data bytes)) := by
  rw [decision_of_no_numbers hpos 0 hopen h,
    decision_of_no_numbers hpos 1 hopen h]
  decide

end Decision

theorem replyText_inj {a b : Bool} :
    (⟨false, some (replyText a)⟩ : Decision) =
      ⟨false, some (replyText b)⟩ ↔ a = b := by
  revert a b
  decide

/-! ## The multiplexing server -/

/-- Over this content of the static buffer the decision is the same for all
values of the uninitialised locals. -/
def ServedDetermined (lBuf : Memory) (bytes : List UInt8) : Prop :=
  ∀ currentNum currentNum',
    decisionOf (readDataFromClient lBuf currentNum (.data bytes)) =
      decisionOf (readDataFromClient lBuf currentNum' (.data bytes))

theorem servedDetermined_iff {lBuf : Memory} {bytes : List UInt8}
    (hpos : 1 ≤ bytes.length) :
    ServedDetermined lBuf bytes ↔
      isClose (lBuf.write 0 bytes) = true ∨
        numbers ((lBuf.write 0 bytes).cstring lBufSize 0) ≠ [] := by
  constructor
  · intro h
    by_contra hnot
    obtain ⟨hopen, hnums⟩ := not_or.mp hnot
    exact decision_depends hpos (by simpa using hopen) (not_not.mp hnums)
      (h 0 1)
  · rintro (hclose | hnums) currentNum currentNum'
    · rw [decision_of_close hpos _ hclose, decision_of_close hpos _ hclose]
    · rw [decision_of_numbers hpos _ hnums, decision_of_numbers hpos _ hnums]

/-! ## The forking and the threaded server -/

/-- The decision on a message is the same for all values of the uninitialised
locals. -/
def AnswerDetermined (bytes : List UInt8) : Prop :=
  ∀ (lBuf lBuf' : Memory) (currentNum currentNum' : ℤ),
    answerDecision (answer lBuf currentNum (.data bytes)) =
      answerDecision (answer lBuf' currentNum' (.data bytes))

/-- A close request; or a message with a number that ends the scan by a zero
byte or by a byte that starts no number. -/
def Decides (bytes : List UInt8) : Prop :=
  BeginsClose bytes ∨
    numbers (textOf bytes) ≠ [] ∧ (0 ∈ bytes ∨ Stopped bytes)

section Answer

variable {bytes : List UInt8}

/-- Where there is room for a number and a zero byte behind it, only a message
that ends the scan has a fixed verdict. -/
theorem exists_other_verdict (hlen : bytes.length ≤ 500)
    (hgoes : ¬ Stopped bytes) :
    ∃ w, (∀ b ∈ w, b ≠ 0) ∧ bytes.length + w.length < lBufSize ∧
      lastIsSum (numbers (bytes ++ w)) ≠ lastIsSum (numbers bytes) := by
  -- the sum of all numbers makes the verdict true, any other number false
  obtain ⟨num, hfits, hchanges⟩ : ∃ num, FitsInt num ∧
      lastIsSum (numbers bytes ++ [num]) ≠ lastIsSum (numbers bytes) := by
    cases hverdict : lastIsSum (numbers bytes) with
    | true =>
        refine ⟨_, toInt32_fits ((numbers bytes).sum + 1), ?_⟩
        simp [lastIsSum, (toInt32_succ_ne _).symm]
    | false =>
        refine ⟨_, toInt32_fits (numbers bytes).sum, ?_⟩
        simp [lastIsSum]
  obtain ⟨w, hw, hwlen, -, hnums⟩ := exists_continuation hgoes hfits
  exact ⟨w, hw, by rw [lBufSize]; omega, by rwa [hnums]⟩

theorem textOf_of_no_zero (hzero : 0 ∉ bytes) : textOf bytes = bytes := by
  rw [textOf, List.takeWhile_eq_self_iff]
  exact fun b hb => decide_eq_true fun heq => hzero (heq ▸ hb)

/-- A message with numbers that ends the scan is answered with their
verdict. -/
theorem answer_of_ends (hlen : 1 ≤ bytes.length ∧ bytes.length ≤ 511)
    (hnums : numbers (textOf bytes) ≠ []) (h : 0 ∈ bytes ∨ Stopped bytes)
    (lBuf : Memory) (currentNum : ℤ) :
    answerDecision (answer lBuf currentNum (.data bytes)) =
      ⟨false, some (replyText (lastIsSum (numbers (textOf bytes))))⟩ := by
  have hsize : bytes.length ≤ lBufSize := by
    rw [lBufSize]
    omega
  rw [answerDecision_eq]
  by_cases hzero : 0 ∈ bytes
  · have hstring := cstring_write_of_zero lBuf hsize hzero
    rw [decision_of_numbers hlen.1 currentNum (by rwa [hstring]), hstring]
  · obtain ⟨w, -, -, hstring⟩ := cstring_write_of_no_zero lBuf hsize hzero
    rw [textOf_of_no_zero hzero] at hnums ⊢
    rw [decision_of_numbers hlen.1 currentNum
      (by rw [hstring]; exact numbers_append_ne_nil hnums w), hstring,
      numbers_append_of_stopped (h.resolve_left hzero) w]

theorem answerDetermined_of_decides
    (hlen : 1 ≤ bytes.length ∧ bytes.length ≤ 511) (h : Decides bytes) :
    AnswerDetermined bytes := by
  intro lBuf lBuf' currentNum currentNum'
  rcases h with hclose | ⟨hnums, hends⟩
  · rw [answerDecision_eq, answerDecision_eq,
      decision_of_close hlen.1 _ (isClose_of_beginsClose hclose),
      decision_of_close hlen.1 _ (isClose_of_beginsClose hclose)]
  · rw [answer_of_ends hlen hnums hends, answer_of_ends hlen hnums hends]

/-- The strings compared end inside the buffer. -/
theorem decides_of_answerDetermined
    (hlen : 1 ≤ bytes.length ∧ bytes.length ≤ 500)
    (h : AnswerDetermined bytes) : Decides bytes := by
  have hshort : bytes.length ≤ 511 := by omega
  by_cases hclose : BeginsClose bytes
  · exact Or.inl hclose
  have hopen : isClose (Memory.write (fun _ => 0) 0 bytes) = false := by
    by_contra hnot
    exact hclose (beginsClose_of_isClose (Bool.not_eq_false _ ▸ hnot))
  have hstring : (Memory.write (fun _ => 0) 0 bytes).cstring lBufSize 0 =
      textOf bytes := cstring_write_of_zeroBuf (fun _ _ => rfl) hshort
  have hnums : numbers (textOf bytes) ≠ [] := by
    intro hnil
    refine decision_depends hlen.1 hopen (by rwa [hstring]) ?_
    rw [← answerDecision_eq, ← answerDecision_eq]
    exact h _ _ 0 1
  refine Or.inr ⟨hnums, or_iff_not_imp_left.mpr fun hzero => ?_⟩
  by_contra hgoes
  obtain ⟨w, hw, hwlen, hchanges⟩ := exists_other_verdict hlen.2 hgoes
  obtain ⟨lBuf, hbehind⟩ := exists_cstring_write hw hzero hwlen.le
  rw [textOf_of_no_zero hzero] at hnums hstring
  have hsame := h lBuf (fun _ => 0) 0 0
  rw [answerDecision_eq, answerDecision_eq,
    decision_of_numbers hlen.1 0
      (by rw [hbehind]; exact numbers_append_ne_nil hnums w),
    decision_of_numbers hlen.1 0 (by rwa [hstring]), hbehind, hstring,
    replyText_inj] at hsame
  exact hchanges hsame

end Answer

/-! ## The consumer of the FIFO -/

/-- The check of a line is the same for all values of the uninitialised
locals and all buffers that were zeroed before the line was read. -/
def LineDetermined (line : List UInt8) : Prop :=
  ∀ (l l' : LineState) (currentNum currentNum' : ℤ), l.Zeroed → l'.Zeroed →
    l.stored = line → l'.stored = line →
      checkLine l.data currentNum = checkLine l'.data currentNum'

section Line

variable {line : List UInt8}

/-- The string in a zeroed buffer is the line up to its first zero byte. -/
theorem cstring_of_zeroed {l : LineState} (h : l.Zeroed)
    (hlt : l.dataMove < bufferSize) :
    l.data.cstring bufferSize 0 = textOf l.stored := by
  obtain ⟨n, hn⟩ : ∃ n, bufferSize = l.dataMove + (1 + n) :=
    ⟨bufferSize - l.dataMove - 1, by omega⟩
  have hzero : l.data.bytes l.dataMove 1 = [0] := by
    simp [Memory.bytes, h l.dataMove (Nat.le_refl _) hlt]
  rw [Memory.cstring, Nat.sub_zero, hn, Memory.bytes_add, Memory.bytes_add,
    Nat.zero_add, hzero, List.singleton_append,
    takeWhile_append_stop (by decide)]
  rfl

theorem checkLine_of_numbers {buffer : Memory} {others : List ℤ} {last : ℤ}
    (h : numbers (buffer.cstring bufferSize 0) = others ++ [last])
    (currentNum : ℤ) :
    checkLine buffer currentNum =
      if toInt32 others.sum = last then none
      else some (toInt32 others.sum, last) := by
  obtain ⟨s, hscan, hcurrent, hothers⟩ := scan_correct h currentNum
  simp [checkLine, hscan, finalState, ScanState.correct, hcurrent, hothers]

theorem lineDetermined_iff (hlen : line.length ≤ 511) :
    LineDetermined line ↔ numbers (textOf line) ≠ [] := by
  have hstring : ∀ l : LineState, l.Zeroed → l.stored = line →
      l.data.cstring bufferSize 0 = textOf line := by
    rintro l hzeroed rfl
    apply cstring_of_zeroed hzeroed
    rw [LineState.length_stored] at hlen
    rw [bufferSize]
    omega
  constructor
  · intro h hnil
    obtain ⟨l, hzeroed, hstored⟩ :
        ∃ l : LineState, l.Zeroed ∧ l.stored = line := by
      refine ⟨⟨Memory.write (fun _ => 0) 0 line, line.length⟩, ?_, ?_⟩
      · intro j hj _
        have hout : ¬ j < line.length := Nat.not_lt.mpr hj
        simp [Memory.write, hout]
      · rw [LineState.stored, Memory.bytes_write _ _ (Nat.le_refl _)]
        simp
    have hnone : numbers (l.data.cstring bufferSize 0) = [] := by
      rw [hstring l hzeroed hstored, hnil]
    have hsame := h l l 0 1 hzeroed hzeroed hstored hstored
    simp only [checkLine, scan_of_no_numbers hnone, finalState] at hsame
    exact absurd hsame (by decide)
  · intro hnums l l' currentNum currentNum' hzeroed hzeroed' hstored hstored'
    obtain hnil | ⟨others, last, hsplit⟩ :=
      List.eq_nil_or_concat (numbers (textOf line))
    · exact absurd hnil hnums
    · rw [List.concat_eq_append] at hsplit
      rw [checkLine_of_numbers ((hstring l hzeroed hstored) ▸ hsplit),
        checkLine_of_numbers ((hstring l' hzeroed' hstored') ▸ hsplit)]

end Line

/-! ## Result -/

/-- The forking and the threaded server decide from the bytes received when the
message decides; up to 500 bytes they do so for no other message.  Behind a
longer one the rest of `l_buf` has no room for a number of any size, and the
scan runs on behind the buffer.  The multiplexing server and the consumer need a
close request or a number in what they scan. -/
theorem decisions_determined_iff (lBuf : Memory) {bytes : List UInt8}
    (hlen : bytes.length ≤ 511) :
    (1 ≤ bytes.length →
        (Decides bytes → AnswerDetermined bytes) ∧
          (bytes.length ≤ 500 → AnswerDetermined bytes → Decides bytes) ∧
          (ServedDetermined lBuf bytes ↔
            isClose (lBuf.write 0 bytes) = true ∨
              numbers ((lBuf.write 0 bytes).cstring lBufSize 0) ≠ [])) ∧
      (LineDetermined bytes ↔ numbers (textOf bytes) ≠ []) :=
  ⟨fun hpos => ⟨answerDetermined_of_decides ⟨hpos, hlen⟩,
    fun hshort => decides_of_answerDetermined ⟨hpos, hshort⟩,
    servedDetermined_iff hpos⟩, lineDetermined_iff hlen⟩

/-- A zero byte behind the text ends the scan; without it the forking and the
threaded server scan on, the other programs need none. -/
theorem decisions_determined_iff_terminated :
    AnswerDetermined (ascii "1 1\n" ++ [0]) ∧
      ServedDetermined (fun _ => 0) (ascii "1 1\n") ∧
      LineDetermined (ascii "1 1\n") ∧ ¬ AnswerDetermined (ascii "1 1\n") := by
  have hzeroed : (ascii "1 1\n").length ≤ 511 := by decide
  have hterminated : (ascii "1 1\n" ++ [0]).length ≤ 511 := by decide
  obtain ⟨hread, hline⟩ := decisions_determined_iff (fun _ => 0) hzeroed
  obtain ⟨hread', -⟩ := decisions_determined_iff (fun _ => 0) hterminated
  refine ⟨(hread' (by decide)).1 (Or.inr ⟨?_, Or.inl (by decide)⟩),
    (hread (by decide)).2.2.mpr (Or.inr ?_), hline.mpr ?_, fun h => ?_⟩
  · decide +kernel
  · decide +kernel
  · decide +kernel
  · have hdecides := (hread (by decide)).2.1 (by decide) h
    rw [Decides] at hdecides
    revert hdecides
    decide +kernel

/-- What is left in `l_buf` follows the newline of a message; a text without a
number leaves the decision to `current_num`, and so does an empty line. -/
theorem decisions_not_determined :
    ¬ AnswerDetermined (ascii "1 1\n") ∧
      ¬ ServedDetermined (fun _ => 0) (ascii "hi\n") ∧
      ¬ LineDetermined [] := by
  refine ⟨fun h => ?_, fun h => ?_, fun h => ?_⟩
  · have hsame := h (fun _ => 0) (Memory.write (fun _ => 0) 4 (ascii "5")) 0 0
    revert hsame
    decide +kernel
  · have hsame := h 0 1
    revert hsame
    decide +kernel
  · have hsame := h ⟨fun _ => 0, 0⟩ ⟨fun _ => 0, 0⟩ 0 1 (fun _ _ _ => rfl)
      (fun _ _ _ => rfl) rfl rfl
    revert hsame
    decide +kernel

end Pvos.Socksrv
