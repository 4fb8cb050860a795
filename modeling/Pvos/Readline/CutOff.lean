import Pvos.Readline.LineSelect

/-!
# Calls of `read_line_select` that are cut off

A call that meets a timeout or an error returns a negative value, and with it
go the bytes that it has stored before: they have left the stream, and
`run_consumer` clears the buffer.  At the end of the stream the same function
returns the bytes it has stored.

So a failed call has consumed nothing exactly when it fails at once.
-/

namespace Pvos.Readline

open Pvos.Support

/-! ## Where a call fails -/

/-- With `m` bytes stored a call fails here: a timeout ends it even when its
buffer is full, an error only when it reads. -/
def Select.Fails (tLen m : ℕ) : Select → Prop
  | .ready _ => False
  | .timeout => m ≤ tLen
  | .failed _ => m < tLen

/-- A call with `m` bytes stored takes `n` more off the stream and fails
then. -/
def FailsBehind (tLen m : ℕ) (sels : List Select) (stream : List UInt8)
    (n : ℕ) : Prop :=
  ∃ before sel after, sels = before ++ sel :: after ∧ before.length = n ∧
    (∀ s ∈ before, s.IsReady) ∧ n ≤ stream.length ∧
    newline ∉ stream.take n ∧ sel.Fails tLen (m + n)

/-- A timeout or an error comes behind some bytes of a line. -/
def CutOff (tLen : ℕ) (sels : List Select) (stream : List UInt8) : Prop :=
  ∃ n, 0 < n ∧ FailsBehind tLen 0 sels stream n

section Fails

variable {tLen m n : ℕ} {sel : Select} {sels : List Select}
  {stream : List UInt8}

theorem FailsBehind.of_fails (h : sel.Fails tLen m) (sels : List Select)
    (stream : List UInt8) : FailsBehind tLen m (sel :: sels) stream 0 :=
  ⟨[], sel, sels, rfl, rfl, by simp, Nat.zero_le _, by simp, h⟩

theorem FailsBehind.cons {b : UInt8} (behind : ℕ) (hb : b ≠ newline)
    (h : FailsBehind tLen (m + 1) sels stream n) :
    FailsBehind tLen m (.ready behind :: sels) (b :: stream) (n + 1) := by
  obtain ⟨before, sel, after, rfl, hlength, hready, hle, hline, hfails⟩ := h
  refine ⟨.ready behind :: before, sel, after, rfl, ?_, ?_, ?_, ?_, ?_⟩
  · rw [List.length_cons, hlength]
  · intro s hs
    rcases List.mem_cons.mp hs with rfl | hs
    · exact ⟨behind, rfl⟩
    · exact hready s hs
  · rw [List.length_cons]
    omega
  · rw [List.take_succ_cons, List.mem_cons, not_or]
    exact ⟨fun heq => hb heq.symm, hline⟩
  · rwa [show m + (n + 1) = m + 1 + n by omega]

/-- What the first `select` is in front of a failure. -/
theorem FailsBehind.cases (h : FailsBehind tLen m (sel :: sels) stream n) :
    (n = 0 ∧ sel.Fails tLen m) ∨
      ∃ n' behind b rest, n = n' + 1 ∧ sel = .ready behind ∧
        stream = b :: rest ∧ b ≠ newline ∧
        FailsBehind tLen (m + 1) sels rest n' := by
  obtain ⟨before, last, after, hsels, hlength, hready, hle, hline, hfails⟩ := h
  cases before with
  | nil =>
      obtain ⟨rfl, rfl⟩ := List.cons.inj hsels
      obtain rfl : 0 = n := hlength
      exact Or.inl ⟨rfl, hfails⟩
  | cons s before =>
      obtain ⟨rfl, rfl⟩ := List.cons.inj hsels
      obtain ⟨behind, rfl⟩ := hready _ List.mem_cons_self
      obtain rfl : before.length + 1 = n := hlength
      cases stream with
      | nil => exact absurd hle (Nat.not_succ_le_zero _)
      | cons b rest =>
          rw [List.take_succ_cons, List.mem_cons, not_or] at hline
          refine Or.inr ⟨_, behind, b, rest, rfl, rfl, rfl, Ne.symm hline.1,
            before, last, after, rfl, rfl,
            fun s hs => hready s (List.mem_cons_of_mem _ hs),
            Nat.le_of_succ_le_succ hle, hline.2, ?_⟩
          rwa [show m + 1 + before.length = m + (before.length + 1) by omega]

/-- A failure leaves the stream without the bytes that were stored. -/
theorem selectLoop_of_failsBehind {l : LineState}
    (h : FailsBehind tLen l.dataMove sels stream n) :
    ∃ l' sels',
      selectLoop tLen sels l stream = .returns (-1) l' (stream.drop n) sels' := by
  induction n generalizing sels l stream with
  | zero =>
      cases sels with
      | nil =>
          obtain ⟨before, sel, after, hsels, -⟩ := h
          simp at hsels
      | cons sel sels =>
          obtain ⟨-, hfails⟩ | ⟨_, _, _, _, hn, -⟩ := h.cases
          · cases sel with
            | ready behind => exact hfails.elim
            | timeout => exact ⟨l, sels, selectLoop_timeout stream⟩
            | failed errno =>
                refine ⟨l, sels, ?_⟩
                rw [selectLoop_failed, if_neg (Nat.not_le.mpr hfails)]
                rfl
          · omega
  | succ n ih =>
      cases sels with
      | nil =>
          obtain ⟨before, sel, after, hsels, -⟩ := h
          simp at hsels
      | cons sel sels =>
          obtain ⟨hn, -⟩ | ⟨n', behind, b, rest, hn, rfl, rfl, hb, hrest⟩ :=
            h.cases
          · omega
          · obtain rfl : n = n' := Nat.succ.inj hn
            have hroom : l.dataMove < tLen := by
              obtain ⟨_, last, _, _, _, _, _, _, hfails⟩ := hrest
              cases last with
              | ready behind => exact hfails.elim
              | timeout =>
                  have hle : l.dataMove + 1 + n ≤ tLen := hfails
                  omega
              | failed errno =>
                  have hlt : l.dataMove + 1 + n < tLen := hfails
                  omega
            obtain ⟨l', sels', hloop⟩ := ih (l := l.store b) hrest
            refine ⟨l', sels', ?_⟩
            rw [selectLoop_ready_byte behind rest hroom hb, hloop,
              List.drop_succ_cons]

/-- A call that returns a negative value has failed behind the bytes that it
took off the stream. -/
theorem selectLoop_negative {sels' : List Select} {l l' : LineState}
    {stream' : List UInt8} {ret : ℤ} (hroom : l.dataMove ≤ tLen)
    (h : selectLoop tLen sels l stream = .returns ret l' stream' sels')
    (hret : ret < 0) :
    ∃ n, FailsBehind tLen l.dataMove sels stream n ∧
      stream' = stream.drop n := by
  induction sels generalizing l stream with
  | nil => exact SelectCall.noConfusion h
  | cons sel sels ih =>
      cases sel with
      | timeout =>
          rw [selectLoop_timeout] at h
          obtain ⟨-, -, rfl, -⟩ := SelectCall.returns.inj h
          have hfails : Select.Fails tLen l.dataMove .timeout := hroom
          exact ⟨0, .of_fails hfails _ _, rfl⟩
      | failed errno =>
          rw [selectLoop_failed] at h
          obtain ⟨rfl, -, rfl, -⟩ := SelectCall.returns.inj h
          split at hret
          next => omega
          next hlt =>
            have hfails : Select.Fails tLen l.dataMove (.failed errno) :=
              Nat.not_le.mp hlt
            exact ⟨0, .of_fails hfails _ _, rfl⟩
      | ready behind =>
          rcases nextLength_cases tLen l stream with
            ⟨hstop, -⟩ | ⟨rest, hlt, rfl, -⟩ | ⟨b, rest, hlt, rfl, hb, -⟩
          · rw [selectLoop_ready_stop behind hstop] at h
            obtain ⟨rfl, -⟩ := SelectCall.returns.inj h
            omega
          · rw [selectLoop_ready_newline behind rest hlt] at h
            obtain ⟨rfl, -⟩ := SelectCall.returns.inj h
            omega
          · have hroom' : (l.store b).dataMove ≤ tLen := hlt
            rw [selectLoop_ready_byte behind rest hlt hb] at h
            obtain ⟨n, hfails, rfl⟩ := ih hroom' h
            exact ⟨n + 1, hfails.cons behind hb, rfl⟩

end Fails

/-- A call that returns a negative value leaves the stream as it was. -/
def FailureConsumesNothing (tLen : ℕ) (sels : List Select)
    (stream : List UInt8) : Prop :=
  ∀ data ret l stream' sels',
    readLineSelect data tLen sels stream = .returns ret l stream' sels' →
      ret < 0 → stream' = stream

theorem failureConsumesNothing_iff (tLen : ℕ) (sels : List Select)
    (stream : List UInt8) :
    FailureConsumesNothing tLen sels stream ↔ ¬ CutOff tLen sels stream := by
  constructor
  · rintro h ⟨n, hpos, hfails⟩
    have hle : n ≤ stream.length := by
      obtain ⟨_, _, _, _, _, _, hle, _⟩ := hfails
      exact hle
    obtain ⟨l, sels', hloop⟩ :=
      selectLoop_of_failsBehind (l := ⟨fun _ => 0, 0⟩) hfails
    have hsame := congrArg List.length
      (h _ _ _ _ _ hloop (by decide))
    rw [List.length_drop] at hsame
    omega
  · intro huncut data ret l stream' sels' hcall hret
    obtain ⟨n, hfails, rfl⟩ := selectLoop_negative (Nat.zero_le _) hcall hret
    obtain rfl | hpos := Nat.eq_zero_or_pos n
    · rfl
    · exact absurd ⟨n, hpos, hfails⟩ huncut

/-! ## The consumer over timeouts -/

/-- The buffer of `run_consumer` and what is left of the FIFO's stream. -/
structure Consumer where
  buffer : Memory
  stream : List UInt8

inductive ConsumerEvent
  | timedOut
  | received (bytes : List UInt8)

/-- One pass of the loop of `run_consumer`, up to the check of the line. -/
def consumerPass (sels : List Select) (s : Consumer) :
    Option (Consumer × List ConsumerEvent) :=
  match readLineSelect (s.buffer.memset 0 0 bufferSize) bufferSize sels
      s.stream with
  | .waits => none
  | .returns ret l stream _ =>
      some (⟨l.data, stream⟩,
        [if ret < 0 then .timedOut
          else .received (l.data.bytes 0 ret.toNat)])

/-- The consumer, whose calls meet timeouts and errors where `ok` allows
them. -/
def consumerSystem (ok : List Select → List UInt8 → Prop)
    (stream : List UInt8) : System Consumer ConsumerEvent where
  init s := s.stream = stream
  step s es s' :=
    ∃ sels, ok sels s.stream ∧ consumerPass sels s = some (s', es)

/-- The bytes of the calls that did not fail. -/
def received : List ConsumerEvent → List (List UInt8) :=
  List.filterMap fun
    | .received bytes => some bytes
    | .timedOut => none

@[simp] theorem received_append (tr tr' : List ConsumerEvent) :
    received (tr ++ tr') = received tr ++ received tr' := by
  simp [received]

theorem cutLines_concat (tLens : List ℕ) (tLen : ℕ) (stream : List UInt8) :
    cutLines (tLens ++ [tLen]) stream =
      ((cutLines tLens stream).1 ++
          [(cutLines tLens stream).2.take
            (nextLength tLen (cutLines tLens stream).2)],
        (cutLines tLens stream).2.drop
          (nextLength tLen (cutLines tLens stream).2)) := by
  induction tLens generalizing stream with
  | nil => rfl
  | cons t tLens ih => simp only [List.cons_append, cutLines, ih]

/-- A pass receives the next line, or it fails and has read nothing unless it
was cut off. -/
theorem consumerPass_cases {sels : List Select} {s s' : Consumer}
    {es : List ConsumerEvent} (h : consumerPass sels s = some (s', es)) :
    (es = [.timedOut] ∧
        (¬ CutOff bufferSize sels s.stream → s'.stream = s.stream)) ∨
      (es = [.received (s.stream.take (nextLength bufferSize s.stream))] ∧
        s'.stream = s.stream.drop (nextLength bufferSize s.stream)) := by
  unfold consumerPass at h
  split at h
  next => simp at h
  next ret l stream sels' hcall =>
    obtain ⟨rfl, rfl⟩ := Prod.mk.inj (Option.some.inj h)
    split
    next hneg =>
      refine Or.inl ⟨rfl, fun huncut => ?_⟩
      exact (failureConsumesNothing_iff _ _ _).mpr huncut _ _ _ _ _ hcall hneg
    next hret =>
      obtain ⟨rfl, hbytes, rfl⟩ :=
        readLineSelect_nonneg hcall (not_lt.mp hret)
      rw [Int.toNat_natCast, hbytes]
      exact Or.inr ⟨rfl, rfl⟩

/-- Where no call is cut off, the lines received are the pieces of the
stream, whatever calls time out between them. -/
theorem received_of_uncut {stream : List UInt8} {tr : List ConsumerEvent}
    {s : Consumer}
    (h : (consumerSystem (fun sels rest => ¬ CutOff bufferSize sels rest)
      stream).Exec tr s) :
    (received tr, s.stream) =
      cutLines (List.replicate (received tr).length bufferSize) stream := by
  apply System.Exec.invariant (I := fun tr s => (received tr, s.stream) =
    cutLines (List.replicate (received tr).length bufferSize) stream) _ _ h
  · rintro s rfl
    rfl
  · rintro tr s es s' hinv ⟨sels, huncut, hpass⟩
    rcases consumerPass_cases hpass with ⟨rfl, hsame⟩ | ⟨rfl, hnext⟩
    · rw [received_append, hsame huncut]
      simpa [received] using hinv
    · have hline : received (tr ++
            [.received (s.stream.take (nextLength bufferSize s.stream))]) =
          received tr ++
            [s.stream.take (nextLength bufferSize s.stream)] := by
        rw [received_append]
        rfl
      rw [hline, hnext, List.length_append, List.length_singleton,
        List.replicate_succ', cutLines_concat, ← hinv]

/-! ## Result -/

/-- A failed call has consumed nothing if and only if it was not cut off behind
bytes of a line.  A consumer none of whose calls is cut off receives the pieces
of the stream, all of them in order, over any timeouts. -/
theorem failed_call_consumes_nothing_iff (tLen : ℕ) (sels : List Select)
    (stream : List UInt8) :
    (FailureConsumesNothing tLen sels stream ↔ ¬ CutOff tLen sels stream) ∧
      ∀ tr s, (consumerSystem
          (fun sels rest => ¬ CutOff bufferSize sels rest) stream).Exec tr s →
        (received tr).flatten ++ s.stream = stream ∧
          received tr = (cutLines
            (List.replicate (received tr).length bufferSize) stream).1 := by
  refine ⟨failureConsumesNothing_iff tLen sels stream, fun tr s h => ?_⟩
  have hlines := received_of_uncut h
  have hpartition := cutLines_flatten
    (List.replicate (received tr).length bufferSize) stream
  rw [← hlines] at hpartition
  exact ⟨hpartition, congrArg Prod.fst hlines⟩

theorem not_cutOff_of_ready {tLen : ℕ} {sels : List Select}
    (h : ∀ sel ∈ sels, sel.IsReady) (stream : List UInt8) :
    ¬ CutOff tLen sels stream := by
  rintro ⟨n, -, before, sel, after, rfl, -, -, -, -, hfails⟩
  obtain ⟨behind, rfl⟩ := h sel (by simp)
  exact hfails

/-- A call that times out at once consumes nothing; the next one receives the
line. -/
theorem failed_call_consumes_nothing_iff_at_once :
    FailureConsumesNothing bufferSize [.timeout] (ascii "1 1\n") ∧
      ∃ tr s, (consumerSystem (fun sels rest => ¬ CutOff bufferSize sels rest)
          (ascii "1 1\n")).Exec tr s ∧
        received tr = [ascii "1 1\n"] ∧
        (received tr).flatten ++ s.stream = ascii "1 1\n" := by
  have hatOnce : ¬ CutOff bufferSize [.timeout] (ascii "1 1\n") := by
    rintro ⟨n, hpos, hfails⟩
    rcases hfails.cases with ⟨rfl, -⟩ | ⟨_, _, _, _, -, hsel, -⟩
    · exact absurd hpos (by decide)
    · exact Select.noConfusion hsel
  have hready : ∀ sel ∈ List.replicate 4 (Select.ready 0), sel.IsReady :=
    fun sel hsel => ⟨0, List.eq_of_mem_replicate hsel⟩
  obtain ⟨hcall, hruns⟩ := failed_call_consumes_nothing_iff bufferSize
    [.timeout] (ascii "1 1\n")
  refine ⟨hcall.mpr hatOnce, ?_⟩
  obtain ⟨s₁, s₂, hstream, htimeout, hline⟩ : ∃ s₁ s₂,
      s₁.stream = ascii "1 1\n" ∧
      consumerPass [.timeout] ⟨fun _ => 0, ascii "1 1\n"⟩ =
          some (s₁, [.timedOut]) ∧
        consumerPass (List.replicate 4 (.ready 0)) s₁ =
          some (s₂, [.received (ascii "1 1\n")]) := ⟨_, _, rfl, rfl, rfl⟩
  have hinit : (consumerSystem (fun sels rest => ¬ CutOff bufferSize sels rest)
      (ascii "1 1\n")).Exec [] ⟨fun _ => 0, ascii "1 1\n"⟩ := .init rfl
  have hexec := (hinit.step ⟨_, hatOnce, htimeout⟩).step
    ⟨_, not_cutOff_of_ready hready _, hline⟩
  exact ⟨_, s₂, hexec, rfl, (hruns _ _ hexec).1⟩

/-- The first byte of a line is lost when the second `select` times out: the
call has consumed it, and the consumer receives the rest. -/
theorem cut_off_call_consumes :
    ¬ FailureConsumesNothing bufferSize [.ready 0, .timeout]
        (ascii "1 1\n") ∧
      ∃ tr s, (consumerSystem (fun _ _ => True) (ascii "1 1\n")).Exec tr s ∧
        received tr = [ascii " 1\n"] ∧ s.stream = [] := by
  constructor
  · intro h
    have hsame := h (fun _ => 0) _ _ _ _ rfl (by decide)
    simp [ascii] at hsame
  · obtain ⟨s₁, s₂, hcut, hline, hend⟩ : ∃ s₁ s₂,
        consumerPass [.ready 0, .timeout] ⟨fun _ => 0, ascii "1 1\n"⟩ =
            some (s₁, [.timedOut]) ∧
          consumerPass (List.replicate 3 (.ready 0)) s₁ =
              some (s₂, [.received (ascii " 1\n")]) ∧
            s₂.stream = [] := ⟨_, _, rfl, rfl, rfl⟩
    have hinit : (consumerSystem (fun _ _ => True) (ascii "1 1\n")).Exec []
        ⟨fun _ => 0, ascii "1 1\n"⟩ := .init rfl
    exact ⟨_, s₂, (hinit.step ⟨_, trivial, hcut⟩).step ⟨_, trivial, hline⟩,
      rfl, hend⟩

end Pvos.Readline
