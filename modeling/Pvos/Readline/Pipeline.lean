import Pvos.Readline.Consumer
import Pvos.Support.System

/-!
# Producers and a consumer at one FIFO

Any number of producers write lines into the FIFO, each write at once; the
consumer takes one byte after another out of it.  A `select` times out only
when the FIFO is empty, and there is always a writer, so `read` does not meet
the end of the file.

The invariant compares the lines written with the lines processed: the lines
between them are, as bytes, what the consumer has stored followed by the
content of the FIFO.
-/

namespace Pvos.Readline

open Pvos.Support Pvos.Checksum

/-! ## The system -/

/-- The FIFO and the call of `read_line_select` that is under way. -/
structure Pipeline where
  pipe : Text
  line : LineState

/-- A line written, a line processed with the numbers of its error message, or
the message about a timeout. -/
inductive PipelineEvent (P : Type*)
  | wrote (p : P) (line : Text) (falsy : Bool)
  | processed (line : Text) (error : Option (ℤ × ℤ))
  | timedOut

/-- A producer writes, or the consumer makes a pass; `current_num` is
uninitialised. -/
inductive PipelineAction (P : Type*)
  | write (p : P) (choice : LineChoice)
  | pass (currentNum : ℤ)

/-- What `select` and the `read` of a byte return. -/
def pipeOutcome : Text → Outcome
  | [] => .timeout
  | b :: _ => .data [b]

section System

variable {P : Type*}

/-- The message printed when `read_line_select` has returned `ret`. -/
def afterReadLine (l : LineState) (ret currentNum : ℤ) : PipelineEvent P :=
  if ret < 0 then .timedOut
  else .processed (l.data.cstring bufferSize 0) (checkLine l.data currentNum)

def pipelineStep (pid : P → ℕ) :
    PipelineAction P → Pipeline → Pipeline × List (PipelineEvent P)
  | .write p choice, s =>
      ({ s with pipe := s.pipe ++ writtenLine (pid p) choice },
        [.wrote p (writtenLine (pid p) choice) choice.falsy])
  | .pass currentNum, s =>
      match s.line.pass bufferSize (pipeOutcome s.pipe) with
      | .returns ret =>
          ({ s with line := s.line.clear },
            [afterReadLine s.line ret currentNum])
      | .stores l none => (⟨s.pipe.tail, l⟩, [])
      | .stores l (some ret) =>
          (⟨s.pipe.tail, l.clear⟩, [afterReadLine l ret currentNum])

/-- The FIFO is empty, the buffer zeroed for the first call. -/
def PipelineInit (s : Pipeline) : Prop :=
  s.pipe = [] ∧ ∃ l : LineState, s.line = l.clear

def pipelineSystem (pid : P → ℕ) : System Pipeline (PipelineEvent P) where
  init := PipelineInit
  step s es s' := ∃ a, pipelineStep pid a s = (s', es)

/-- The lines written, in the order of the FIFO, and whether their producer
corrupted them. -/
def writtenLines : List (PipelineEvent P) → List (Text × Bool) :=
  List.filterMap fun
    | .wrote _ line falsy => some (line, falsy)
    | _ => none

/-- The lines processed and whether the error was printed. -/
def processedLines : List (PipelineEvent P) → List (Text × Bool) :=
  List.filterMap fun
    | .processed line error => some (line, error.isSome)
    | _ => none

@[simp] theorem writtenLines_append (tr tr' : List (PipelineEvent P)) :
    writtenLines (tr ++ tr') = writtenLines tr ++ writtenLines tr' := by
  simp [writtenLines]

@[simp] theorem processedLines_append (tr tr' : List (PipelineEvent P)) :
    processedLines (tr ++ tr') = processedLines tr ++ processedLines tr' := by
  simp [processedLines]

end System

namespace LineState

theorem stored_store (l : LineState) (b : UInt8) :
    (l.store b).stored = l.stored ++ [b] := by
  unfold stored store
  rw [Memory.bytes_add, Memory.bytes_write_of_disjoint _ _
    (Or.inl (by omega)), Nat.zero_add, Memory.bytes_write _ _ (by simp)]
  simp

theorem length_stored (l : LineState) : l.stored.length = l.dataMove := by
  simp [stored]

@[simp] theorem stored_clear (l : LineState) : l.clear.stored = [] := rfl

/-- Behind the bytes stored the buffer is zero. -/
def Zeroed (l : LineState) : Prop :=
  ∀ j, l.dataMove ≤ j → j < bufferSize → l.data j = 0

theorem zeroed_clear (l : LineState) : l.clear.Zeroed := by
  intro j _ hj
  simp only [clear, Memory.memset]
  rw [if_pos (by omega)]

theorem Zeroed.store {l : LineState} (h : l.Zeroed) (b : UInt8) :
    (l.store b).Zeroed := by
  intro j hj hlt
  simp only [LineState.store] at hj ⊢
  rw [Memory.write, if_neg (by simp; omega)]
  exact h j (by omega) hlt

/-- The buffer holds the stored bytes as a string. -/
theorem Zeroed.cstring {l : LineState} (h : l.Zeroed)
    (hlt : l.dataMove < bufferSize) (hne : ∀ b ∈ l.stored, b ≠ 0) :
    l.data.cstring bufferSize 0 = l.stored := by
  apply Memory.cstring_of_bytes (n := l.dataMove + 1) hne (by omega)
  rw [Memory.bytes_add, Nat.zero_add]
  congr 1
  simp [Memory.bytes, h l.dataMove (Nat.le_refl _) hlt]

end LineState

/-! ## The invariant -/

section Invariant

variable {P : Type*} {pid : P → ℕ} {tr : List (PipelineEvent P)}
  {s : Pipeline} {queued : List (Text × Bool)}

/-- `queued` are the lines written and not processed yet. -/
structure PipelineInv (tr : List (PipelineEvent P)) (s : Pipeline)
    (queued : List (Text × Bool)) : Prop where
  history : writtenLines tr = processedLines tr ++ queued
  content : (queued.map Prod.fst).flatten = s.line.stored ++ s.pipe
  lines : ∀ q ∈ queued, ∃ pid choice, pid < 2 ^ 30 ∧
    q = (writtenLine pid choice, choice.falsy)
  noNewline : newline ∉ s.line.stored
  zeroed : s.line.Zeroed

theorem pipelineInv_init (h : PipelineInit s) :
    PipelineInv ([] : List (PipelineEvent P)) s [] := by
  obtain ⟨hpipe, l, hline⟩ := h
  refine ⟨rfl, ?_, by simp, ?_, ?_⟩
  · simp [hpipe, hline]
  · simp [hline]
  · rw [hline]
    exact l.zeroed_clear

theorem PipelineInv.write (h : PipelineInv tr s queued)
    (hpid : ∀ p, pid p < 2 ^ 30) (p : P) (choice : LineChoice) :
    PipelineInv (tr ++ [.wrote p (writtenLine (pid p) choice) choice.falsy])
      { s with pipe := s.pipe ++ writtenLine (pid p) choice }
      (queued ++ [(writtenLine (pid p) choice, choice.falsy)]) := by
  refine ⟨?_, ?_, ?_, h.noNewline, h.zeroed⟩
  · rw [writtenLines_append, processedLines_append, h.history]
    simp [writtenLines, processedLines]
  · simp [h.content]
  · intro q hq
    rcases List.mem_append.mp hq with hold | hnew
    · exact h.lines q hold
    · exact ⟨pid p, choice, hpid p, List.mem_singleton.mp hnew⟩

/-- When the FIFO is empty, nothing is stored. -/
theorem PipelineInv.of_empty (h : PipelineInv tr s queued)
    (hpipe : s.pipe = []) : queued = [] ∧ s.line.stored = [] := by
  have hcontent := h.content
  rw [hpipe, List.append_nil] at hcontent
  cases queued with
  | nil => exact ⟨rfl, hcontent.symm⟩
  | cons q queued =>
      obtain ⟨pid, choice, hpid, rfl⟩ := h.lines q List.mem_cons_self
      obtain ⟨text, -, hline⟩ := isLine_writtenLine hpid choice
      refine absurd ?_ h.noNewline
      rw [← hcontent, List.map_cons, List.flatten_cons, hline]
      simp

/-- A timeout forgets nothing. -/
theorem PipelineInv.pass_nil (h : PipelineInv tr s queued) (pid : P → ℕ)
    (hpipe : s.pipe = []) (currentNum : ℤ) :
    ∃ s', pipelineStep pid (.pass currentNum) s = (s', [.timedOut]) ∧
      s'.pipe = [] ∧ PipelineInv (tr ++ [.timedOut]) s' queued := by
  obtain ⟨rfl, hstored⟩ := h.of_empty hpipe
  refine ⟨{ s with line := s.line.clear }, ?_, hpipe, ?_⟩
  · simp [pipelineStep, hpipe, pipeOutcome, LineState.pass, afterReadLine]
  · refine ⟨?_, ?_, h.lines, by simp, s.line.zeroed_clear⟩
    · rw [writtenLines_append, processedLines_append, h.history]
      simp [writtenLines, processedLines]
    · simp [hpipe]

/-- A pass with room in the buffer stores the next byte. -/
theorem pipelineStep_byte (pid : P → ℕ) {b : UInt8} {rest : Text}
    (hpipe : s.pipe = b :: rest) (hroom : s.line.dataMove < bufferSize)
    (hb : b ≠ newline) (currentNum : ℤ) :
    pipelineStep pid (.pass currentNum) s =
      (⟨rest, s.line.store b⟩, []) := by
  simp only [pipelineStep, hpipe, pipeOutcome, LineState.pass,
    if_neg (Nat.not_le.mpr hroom), if_neg hb, List.tail_cons]

/-- A newline ends the line, which is processed. -/
theorem pipelineStep_newline (pid : P → ℕ) {rest : Text}
    (hpipe : s.pipe = newline :: rest)
    (hroom : s.line.dataMove < bufferSize) (currentNum : ℤ) :
    pipelineStep pid (.pass currentNum) s =
      (⟨rest, (s.line.store newline).clear⟩,
        [.processed ((s.line.store newline).data.cstring bufferSize 0)
          (checkLine (s.line.store newline).data currentNum)]) := by
  have hret : ¬ (((s.line.store newline).dataMove : ℤ) < 0) := by omega
  simp only [pipelineStep, hpipe, pipeOutcome, LineState.pass,
    if_neg (Nat.not_le.mpr hroom), if_true, List.tail_cons, afterReadLine,
    if_neg hret]

/-- The pass that completes the first queued line processes it as it was
written. -/
theorem PipelineInv.pass_newline {i : ℕ} {choice : LineChoice} {rest : Text}
    (h : PipelineInv tr s ((writtenLine i choice, choice.falsy) :: queued))
    (hi : i < 2 ^ 30)
    (hwhole : (s.line.store newline).stored = writtenLine i choice)
    (hrest : rest = (queued.map Prod.fst).flatten) (currentNum : ℤ) :
    PipelineInv
      (tr ++ [.processed ((s.line.store newline).data.cstring bufferSize 0)
        (checkLine (s.line.store newline).data currentNum)])
      ⟨rest, (s.line.store newline).clear⟩ queued := by
  have hmove := (s.line.store newline).length_stored
  rw [hwhole] at hmove
  have hlength := length_writtenLine_lt hi choice
  have hstring : (s.line.store newline).data.cstring bufferSize 0 =
      writtenLine i choice := by
    rw [← hwhole]
    apply (h.zeroed.store newline).cstring (by omega)
    rw [hwhole]
    exact fun b hb => writtenLine_ne_zero hb
  have hcheck := checkLine_writtenLine hi choice hstring currentNum
  refine ⟨?_, ?_, fun q hq => h.lines q (List.mem_cons_of_mem _ hq), by simp,
    LineState.zeroed_clear _⟩
  · rw [writtenLines_append, processedLines_append, h.history, hstring]
    simp [writtenLines, processedLines, hcheck]
  · rw [hrest]
    rfl

/-- The pass that stores another byte of a line. -/
theorem PipelineInv.pass_byte (h : PipelineInv tr s queued) {b : UInt8}
    {rest : Text} (hpipe : s.pipe = b :: rest) (hb : b ≠ newline) :
    PipelineInv tr ⟨rest, s.line.store b⟩ queued := by
  refine ⟨h.history, ?_, h.lines, ?_, h.zeroed.store b⟩
  · rw [h.content, LineState.stored_store, hpipe, List.append_assoc,
      List.singleton_append]
  · rw [LineState.stored_store, List.mem_append, List.mem_singleton, not_or]
    exact ⟨h.noNewline, fun heq => hb heq.symm⟩

/-- A pass takes one byte out of the FIFO. -/
theorem PipelineInv.pass_cons (h : PipelineInv tr s queued) (pid : P → ℕ)
    {b : UInt8} {rest : Text} (hpipe : s.pipe = b :: rest) (currentNum : ℤ) :
    ∃ s' es queued', pipelineStep pid (.pass currentNum) s = (s', es) ∧
      s'.pipe = rest ∧ writtenLines es = [] ∧
      PipelineInv (tr ++ es) s' queued' := by
  have hcontent := h.content
  rw [hpipe] at hcontent
  cases queued with
  | nil => simp at hcontent
  | cons q queued =>
      obtain ⟨i, choice, hi, rfl⟩ := h.lines q List.mem_cons_self
      obtain ⟨text, htext, hline⟩ := isLine_writtenLine hi choice
      have hlength := length_writtenLine_lt hi choice
      have hmove := s.line.length_stored
      rw [List.map_cons, List.flatten_cons, hline, List.append_assoc,
        List.singleton_append] at hcontent
      rw [hline, List.length_append, List.length_singleton] at hlength
      rcases next_byte hcontent.symm h.noNewline htext with
        ⟨rfl, hstored, hrest⟩ | ⟨hb, hlt⟩
      · rw [hstored] at hmove
        have hwhole : (s.line.store newline).stored = writtenLine i choice := by
          rw [LineState.stored_store, hstored, hline]
        exact ⟨_, _, queued, pipelineStep_newline pid hpipe (by omega)
          currentNum, rfl, rfl, h.pass_newline hi hwhole hrest currentNum⟩
      · have hkept := h.pass_byte hpipe hb
        rw [← List.append_nil tr] at hkept
        exact ⟨_, _, _, pipelineStep_byte pid hpipe (by omega) hb currentNum,
          rfl, rfl, hkept⟩

theorem pipelineInv_exec (hpid : ∀ p, pid p < 2 ^ 30)
    (h : (pipelineSystem pid).Exec tr s) :
    ∃ queued, PipelineInv tr s queued := by
  apply System.Exec.invariant (I := fun tr s => ∃ q, PipelineInv tr s q) _ _ h
  · exact fun s hs => ⟨[], pipelineInv_init hs⟩
  · rintro tr s es s' ⟨queued, hinv⟩ ⟨a, hstep⟩
    cases a with
    | write p choice =>
        obtain ⟨rfl, rfl⟩ := Prod.mk.inj hstep
        exact ⟨_, hinv.write hpid p choice⟩
    | pass currentNum =>
        cases hpipe : s.pipe with
        | nil =>
            obtain ⟨s₁, hpass, -, hinv'⟩ :=
              hinv.pass_nil pid hpipe currentNum
            obtain ⟨rfl, rfl⟩ := Prod.mk.inj (hpass.symm.trans hstep)
            exact ⟨queued, hinv'⟩
        | cons b rest =>
            obtain ⟨s₁, es₁, queued', hpass, -, -, hinv'⟩ :=
              hinv.pass_cons pid hpipe currentNum
            obtain ⟨rfl, rfl⟩ := Prod.mk.inj (hpass.symm.trans hstep)
            exact ⟨queued', hinv'⟩

/-- The consumer alone processes everything that has been written. -/
theorem PipelineInv.drain (h : PipelineInv tr s queued) (pid : P → ℕ) :
    ∃ es s', (pipelineSystem pid).Run s es s' ∧ writtenLines es = [] ∧
      PipelineInv (tr ++ es) s' [] := by
  obtain ⟨n, hn⟩ : ∃ n, s.pipe.length = n := ⟨_, rfl⟩
  induction n generalizing tr s queued with
  | zero =>
      have hpipe := List.length_eq_zero_iff.mp hn
      obtain ⟨rfl, -⟩ := h.of_empty hpipe
      exact ⟨[], s, .refl, rfl, by rwa [List.append_nil]⟩
  | succ n ih =>
      cases hpipe : s.pipe with
      | nil => simp [hpipe] at hn
      | cons b rest =>
          obtain ⟨s₁, es₁, queued', hpass, hrest, hwritten, hinv⟩ :=
            h.pass_cons pid hpipe 0
          rw [hpipe, List.length_cons] at hn
          obtain ⟨es, s', hrun, hnone, hdone⟩ :=
            ih hinv (by rw [hrest]; omega)
          refine ⟨es₁ ++ es, s', hrun.head ⟨_, hpass⟩, ?_, ?_⟩
          · rw [writtenLines_append, hwritten, hnone]
            rfl
          · rwa [← List.append_assoc]

end Invariant

/-! ## Result -/

/-- In every run the consumer has processed the lines written in the order of
the FIFO, each one once and uncut, with an error for exactly the corrupted
ones; what is missing is in its buffer and the FIFO, and is processed when the
consumer goes on. -/
theorem fifo_pipeline {P : Type*} {pid : P → ℕ} (hpid : ∀ p, pid p < 2 ^ 30)
    {tr : List (PipelineEvent P)} {s : Pipeline}
    (h : (pipelineSystem pid).Exec tr s) :
    (∃ queued, writtenLines tr = processedLines tr ++ queued ∧
        (queued.map Prod.fst).flatten = s.line.stored ++ s.pipe) ∧
      ∃ es s', (pipelineSystem pid).Run s es s' ∧
        processedLines (tr ++ es) = writtenLines tr := by
  obtain ⟨queued, hinv⟩ := pipelineInv_exec hpid h
  refine ⟨⟨queued, hinv.history, hinv.content⟩, ?_⟩
  obtain ⟨es, s', hrun, hnone, hdone⟩ := hinv.drain pid
  refine ⟨es, s', hrun, ?_⟩
  have hhistory := hdone.history
  rw [List.append_nil, writtenLines_append, hnone, List.append_nil] at hhistory
  exact hhistory.symm

/-- The actions one after another. -/
def runActions {P : Type*} (pid : P → ℕ) :
    List (PipelineAction P) → Pipeline → Pipeline × List (PipelineEvent P)
  | [], s => (s, [])
  | a :: actions, s =>
      let (s₁, es₁) := pipelineStep pid a s
      let (s₂, es₂) := runActions pid actions s₁
      (s₂, es₁ ++ es₂)

theorem run_runActions {P : Type*} (pid : P → ℕ)
    (actions : List (PipelineAction P)) (s : Pipeline) :
    (pipelineSystem pid).Run s (runActions pid actions s).2
      (runActions pid actions s).1 := by
  induction actions generalizing s with
  | nil => exact .refl
  | cons a actions ih => exact (ih _).head ⟨a, rfl⟩

/-- Two producers with pids 7 and 8; the second one corrupts its line. -/
def twoProducers (p : Bool) : ℕ :=
  if p then 7 else 8

/-- The first line is processed, the second one is still in the FIFO. -/
theorem fifo_pipeline_two_lines :
    ∃ tr s, (pipelineSystem twoProducers).Exec tr s ∧
      processedLines tr = [(ascii "7 1 8\n", false)] ∧
      writtenLines tr = [(ascii "7 1 8\n", false), (ascii "8 9\n", true)] ∧
      ∃ es s', (pipelineSystem twoProducers).Run s es s' ∧
        processedLines (tr ++ es) = writtenLines tr := by
  have hexec : (pipelineSystem twoProducers).Exec _ _ :=
    ⟨⟨[], LineState.clear ⟨fun _ => 0, 0⟩⟩, ⟨rfl, _, rfl⟩,
      run_runActions twoProducers
        ([.pass 5, .write true ⟨[1], by decide, false⟩,
          .write false ⟨[], by decide, true⟩] ++ List.replicate 6 (.pass 5)) _⟩
  refine ⟨_, _, hexec, by decide +kernel, by decide +kernel, ?_⟩
  exact (fifo_pipeline (by decide) hexec).2

end Pvos.Readline
