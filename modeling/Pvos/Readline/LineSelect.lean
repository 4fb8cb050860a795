import Pvos.Readline.Pipeline

/-!
# Calls of `read_line_select`

A call takes one byte after another off the stream behind the descriptor, until
it has a line, its buffer is full, or the stream ends.  What `select` and the
`read` behind it meet is one `Select`; a call that has used them all up is still
waiting.

The first part describes the calls that do not return a negative value, the
second one when a call returns at all.
-/

namespace Pvos.Readline

open Pvos.Support

/-! ## A call -/

/-- `select` finds the descriptor ready, or times out; or the `read` fails.  A
descriptor is ready at the end of the stream or with a byte and some more
`behind` it. -/
inductive Select
  | ready (behind : ℕ)
  | timeout
  | failed (errno : Errno)

namespace Select

/-- What `select` and `read` return in front of the stream that is left. -/
def outcome (stream : List UInt8) : Select → Outcome
  | ready behind => .data (stream.take (behind + 1))
  | timeout => .timeout
  | failed errno => .failed errno

/-- No timeout and no error. -/
def IsReady (sel : Select) : Prop :=
  ∃ behind, sel = ready behind

end Select

/-- A call waits, or it returns with its buffer, and leaves the rest of the
stream to later calls. -/
inductive SelectCall
  | waits
  | returns (ret : ℤ) (l : LineState) (stream : List UInt8)
      (sels : List Select)

/-- The `while` loop; only a byte that is stored has left the stream. -/
def selectLoop (tLen : ℕ) :
    List Select → LineState → List UInt8 → SelectCall
  | [], _, _ => .waits
  | sel :: sels, l, stream =>
      match l.pass tLen (sel.outcome stream) with
      | .returns ret => .returns ret l stream sels
      | .stores l none => selectLoop tLen sels l stream.tail
      | .stores l (some ret) => .returns ret l stream.tail sels

/-- `read_line_select`. -/
def readLineSelect (data : Memory) (tLen : ℕ) (sels : List Select)
    (stream : List UInt8) : SelectCall :=
  selectLoop tLen sels ⟨data, 0⟩ stream

/-! ## One pass of the loop -/

section Pass

variable {tLen : ℕ} {l : LineState} {sels : List Select}

theorem selectLoop_timeout (stream : List UInt8) :
    selectLoop tLen (.timeout :: sels) l stream =
      .returns (-1) l stream sels := rfl

theorem selectLoop_failed (errno : Errno) (stream : List UInt8) :
    selectLoop tLen (.failed errno :: sels) l stream =
      .returns (if tLen ≤ l.dataMove then l.dataMove else -1) l stream sels :=
  rfl

/-- The buffer is full, or the stream has ended. -/
theorem selectLoop_ready_stop (behind : ℕ) {stream : List UInt8}
    (h : tLen ≤ l.dataMove ∨ stream = []) :
    selectLoop tLen (.ready behind :: sels) l stream =
      .returns l.dataMove l stream sels := by
  simp only [selectLoop, Select.outcome]
  cases stream with
  | nil =>
      simp only [List.take_nil, LineState.pass]
      split
      next => rfl
      next =>
        split
        next hzero => rw [hzero]; rfl
        next => rfl
  | cons b stream =>
      have hfull : tLen ≤ l.dataMove := by simpa using h
      simp only [List.take_succ_cons, LineState.pass, if_pos hfull]

theorem selectLoop_ready_newline (behind : ℕ) (stream : List UInt8)
    (hroom : l.dataMove < tLen) :
    selectLoop tLen (.ready behind :: sels) l (newline :: stream) =
      .returns (l.store newline).dataMove (l.store newline) stream sels := by
  simp only [selectLoop, Select.outcome, List.take_succ_cons, LineState.pass,
    if_neg (Nat.not_le.mpr hroom), if_true, List.tail_cons]

theorem selectLoop_ready_byte (behind : ℕ) {b : UInt8} (stream : List UInt8)
    (hroom : l.dataMove < tLen) (hb : b ≠ newline) :
    selectLoop tLen (.ready behind :: sels) l (b :: stream) =
      selectLoop tLen sels (l.store b) stream := by
  simp only [selectLoop, Select.outcome, List.take_succ_cons, LineState.pass,
    if_neg (Nat.not_le.mpr hroom), if_neg hb, List.tail_cons]

end Pass

/-! ## The next piece of the stream -/

/-- The bytes up to the next newline, at most `tLen` and at most the rest of
the stream. -/
def nextLength (tLen : ℕ) (stream : List UInt8) : ℕ :=
  min (min (stream.idxOf newline + 1) tLen) stream.length

theorem nextLength_of_stop {tLen : ℕ} {stream : List UInt8}
    (h : tLen = 0 ∨ stream = []) : nextLength tLen stream = 0 := by
  rcases h with rfl | rfl
  · simp [nextLength]
  · simp [nextLength]

theorem nextLength_newline (tLen : ℕ) (stream : List UInt8) :
    nextLength (tLen + 1) (newline :: stream) = 1 := by
  simp only [nextLength, List.idxOf_cons_self, List.length_cons]
  omega

theorem nextLength_byte (tLen : ℕ) {b : UInt8} (stream : List UInt8)
    (hb : b ≠ newline) :
    nextLength (tLen + 1) (b :: stream) = nextLength tLen stream + 1 := by
  simp only [nextLength, List.idxOf_cons_ne _ hb, List.length_cons]
  omega

theorem nextLength_le (tLen : ℕ) (stream : List UInt8) :
    nextLength tLen stream ≤ tLen ∧ nextLength tLen stream ≤ stream.length := by
  unfold nextLength
  omega

/-- Nothing is read only at the end of the stream. -/
theorem nextLength_eq_zero {tLen : ℕ} (htLen : 1 ≤ tLen)
    (stream : List UInt8) : nextLength tLen stream = 0 ↔ stream = [] := by
  rw [← List.length_eq_zero_iff]
  unfold nextLength
  omega

/-- What a call meets next, and how long its piece is then: no room or no
stream, the newline, or another byte of the line. -/
theorem nextLength_cases (tLen : ℕ) (l : LineState) (stream : List UInt8) :
    ((tLen ≤ l.dataMove ∨ stream = []) ∧
        nextLength (tLen - l.dataMove) stream = 0) ∨
      (∃ rest, l.dataMove < tLen ∧ stream = newline :: rest ∧
        nextLength (tLen - l.dataMove) stream = 1) ∨
      ∃ b rest, l.dataMove < tLen ∧ stream = b :: rest ∧ b ≠ newline ∧
        nextLength (tLen - l.dataMove) stream =
          nextLength (tLen - (l.store b).dataMove) rest + 1 := by
  by_cases hstop : tLen ≤ l.dataMove ∨ stream = []
  · exact Or.inl ⟨hstop, nextLength_of_stop
      (hstop.imp_left fun hfull => Nat.sub_eq_zero_of_le hfull)⟩
  · obtain ⟨hlt, hne⟩ := not_or.mp hstop
    have hroom : l.dataMove < tLen := Nat.not_le.mp hlt
    obtain ⟨b, rest, rfl⟩ := List.exists_cons_of_ne_nil hne
    obtain ⟨room, hnext⟩ : ∃ room, tLen - l.dataMove = room + 1 :=
      ⟨tLen - l.dataMove - 1, by omega⟩
    right
    by_cases hb : b = newline
    · subst hb
      rw [hnext]
      exact Or.inl ⟨rest, hroom, rfl, nextLength_newline room rest⟩
    · have hstored : tLen - (l.store b).dataMove = room := by
        simp only [LineState.store]
        omega
      refine Or.inr ⟨b, rest, hroom, rfl, hb, ?_⟩
      rw [hnext, hstored, nextLength_byte room rest hb]

/-! ## Whole calls -/

/-- What a call that started with `l` has done when it returns `ret`: it read
the next `n` bytes and nothing else. -/
structure ReadsNext (n : ℕ) (l : LineState) (stream : List UInt8) (ret : ℤ)
    (l' : LineState) (stream' : List UInt8) : Prop where
  ret_eq : ret = l.dataMove + n
  stored : l'.stored = l.stored ++ stream.take n
  rest : stream' = stream.drop n

theorem ReadsNext.of_zero (l : LineState) (stream : List UInt8) :
    ReadsNext 0 l stream l.dataMove l stream :=
  ⟨by simp, by simp, rfl⟩

/-- One byte more in front. -/
theorem ReadsNext.cons {n : ℕ} {l l' : LineState} {b : UInt8}
    {stream stream' : List UInt8} {ret : ℤ}
    (h : ReadsNext n (l.store b) stream ret l' stream') :
    ReadsNext (n + 1) l (b :: stream) ret l' stream' := by
  refine ⟨?_, ?_, h.rest⟩
  · rw [h.ret_eq]
    simp only [LineState.store]
    omega
  · rw [h.stored, LineState.stored_store, List.take_succ_cons,
      List.append_assoc, List.singleton_append]

section Loop

variable {tLen : ℕ}

/-- A call that does not fail has read the next piece of the stream. -/
theorem selectLoop_nonneg {sels sels' : List Select} {l l' : LineState}
    {stream stream' : List UInt8} {ret : ℤ} (hroom : l.dataMove ≤ tLen)
    (h : selectLoop tLen sels l stream = .returns ret l' stream' sels')
    (hret : 0 ≤ ret) :
    ReadsNext (nextLength (tLen - l.dataMove) stream) l stream ret l'
      stream' := by
  induction sels generalizing l stream with
  | nil => exact SelectCall.noConfusion h
  | cons sel sels ih =>
      cases sel with
      | timeout =>
          rw [selectLoop_timeout] at h
          obtain ⟨rfl, -⟩ := SelectCall.returns.inj h
          exact absurd hret (by decide)
      | failed errno =>
          rw [selectLoop_failed] at h
          obtain ⟨rfl, rfl, rfl, rfl⟩ := SelectCall.returns.inj h
          split at hret
          next hfull =>
            rw [if_pos hfull, Nat.sub_eq_zero_of_le hfull,
              nextLength_of_stop (Or.inl rfl)]
            exact .of_zero l _
          next => exact absurd hret (by decide)
      | ready behind =>
          rcases nextLength_cases tLen l stream with
            ⟨hstop, hlen⟩ | ⟨rest, hlt, rfl, hlen⟩ |
              ⟨b, rest, hlt, rfl, hb, hlen⟩
          · rw [selectLoop_ready_stop behind hstop] at h
            obtain ⟨rfl, rfl, rfl, rfl⟩ := SelectCall.returns.inj h
            rw [hlen]
            exact .of_zero l _
          · rw [selectLoop_ready_newline behind rest hlt] at h
            obtain ⟨rfl, rfl, rfl, rfl⟩ := SelectCall.returns.inj h
            rw [hlen]
            exact (ReadsNext.of_zero _ _).cons
          · have hroom' : (l.store b).dataMove ≤ tLen := hlt
            rw [selectLoop_ready_byte behind rest hlt hb] at h
            rw [hlen]
            exact (ih hroom' h).cons

/-- Without timeouts and errors a call returns, after at most one `select` more
than it reads bytes. -/
theorem selectLoop_ready (tLen : ℕ) {sels : List Select} {l : LineState}
    (stream : List UInt8) (hready : ∀ sel ∈ sels, sel.IsReady)
    (hroom : l.dataMove ≤ tLen)
    (henough : nextLength (tLen - l.dataMove) stream < sels.length) :
    ∃ ret l' stream' sels',
      selectLoop tLen sels l stream = .returns ret l' stream' sels' ∧
        0 ≤ ret ∧ sels' <:+ sels ∧
        sels.length ≤
          sels'.length + nextLength (tLen - l.dataMove) stream + 1 := by
  induction sels generalizing l stream with
  | nil => exact absurd henough (Nat.not_lt_zero _)
  | cons sel sels ih =>
      obtain ⟨behind, rfl⟩ := hready sel List.mem_cons_self
      have hsuffix : sels <:+ .ready behind :: sels := List.suffix_cons _ _
      rw [List.length_cons] at henough ⊢
      rcases nextLength_cases tLen l stream with
        ⟨hstop, -⟩ | ⟨rest, hlt, rfl, -⟩ | ⟨b, rest, hlt, rfl, hb, hlen⟩
      · exact ⟨_, _, _, _, selectLoop_ready_stop behind hstop,
          Int.natCast_nonneg _, hsuffix, by omega⟩
      · exact ⟨_, _, _, _, selectLoop_ready_newline behind rest hlt,
          Int.natCast_nonneg _, hsuffix, by omega⟩
      · have hroom' : (l.store b).dataMove ≤ tLen := hlt
        rw [hlen] at henough ⊢
        obtain ⟨ret, l', stream', sels', hloop, hret, htail, hused⟩ :=
          ih rest (fun s hs => hready s (List.mem_cons_of_mem _ hs)) hroom'
            (by omega)
        refine ⟨ret, l', stream', sels', ?_, hret, htail.trans hsuffix,
          by omega⟩
        rw [selectLoop_ready_byte behind rest hlt hb, hloop]

end Loop

/-- A call that does not fail returns the next piece in its buffer. -/
theorem readLineSelect_nonneg {data : Memory} {tLen : ℕ}
    {sels sels' : List Select} {l : LineState} {stream stream' : List UInt8}
    {ret : ℤ}
    (h : readLineSelect data tLen sels stream = .returns ret l stream' sels')
    (hret : 0 ≤ ret) :
    ret = nextLength tLen stream ∧
      l.data.bytes 0 (nextLength tLen stream) =
        stream.take (nextLength tLen stream) ∧
      stream' = stream.drop (nextLength tLen stream) := by
  have hread := selectLoop_nonneg (Nat.zero_le _) h hret
  simp only [Nat.sub_zero] at hread
  obtain ⟨hlen, hstored, hrest⟩ := hread
  simp only [Nat.cast_zero, zero_add] at hlen
  have hle := nextLength_le tLen stream
  have hmove := congrArg List.length hstored
  rw [List.length_append, LineState.length_stored, LineState.length_stored,
    List.length_take, Nat.min_eq_left hle.2, Nat.zero_add] at hmove
  rw [LineState.stored, hmove] at hstored
  exact ⟨hlen, hstored, hrest⟩

/-- A call with enough `select`s behind it reads the next piece. -/
theorem readLineSelect_ready (data : Memory) (tLen : ℕ) {sels : List Select}
    (stream : List UInt8) (hready : ∀ sel ∈ sels, sel.IsReady)
    (henough : tLen < sels.length) :
    ∃ l sels',
      readLineSelect data tLen sels stream =
          .returns (nextLength tLen stream) l
            (stream.drop (nextLength tLen stream)) sels' ∧
        l.data.bytes 0 (nextLength tLen stream) =
          stream.take (nextLength tLen stream) ∧
        sels' <:+ sels ∧ sels.length ≤ sels'.length + (tLen + 1) := by
  have hle := nextLength_le tLen stream
  obtain ⟨ret, l, stream', sels', hcall, hret, htail, hused⟩ :=
    selectLoop_ready tLen (l := ⟨data, 0⟩) stream hready
      (Nat.zero_le _) (by simp only [Nat.sub_zero]; omega)
  obtain ⟨rfl, hbytes, rfl⟩ := readLineSelect_nonneg hcall hret
  simp only [Nat.sub_zero] at hused
  exact ⟨l, sels', hcall, hbytes, htail, by omega⟩

/-! ## Calls one after another -/

/-- Calls with their buffers and `t_len`s: the bytes of each one and what is
left of the stream, unless a call waits. -/
def readLineSelects : List (Memory × ℕ) → List Select → List UInt8 →
    Option (List (List UInt8) × List UInt8)
  | [], _, stream => some ([], stream)
  | (data, tLen) :: calls, sels, stream =>
      match readLineSelect data tLen sels stream with
      | .waits => none
      | .returns ret l stream sels =>
          (readLineSelects calls sels stream).map fun (pieces, rest) =>
            (l.data.bytes 0 ret.toNat :: pieces, rest)

/-- The stream cut behind its newlines and at the lengths, and what is left. -/
def cutLines : List ℕ → List UInt8 → List (List UInt8) × List UInt8
  | [], stream => ([], stream)
  | tLen :: tLens, stream =>
      let (pieces, rest) :=
        cutLines tLens (stream.drop (nextLength tLen stream))
      (stream.take (nextLength tLen stream) :: pieces, rest)

/-- The pieces are a partition of the stream. -/
theorem cutLines_flatten (tLens : List ℕ) (stream : List UInt8) :
    (cutLines tLens stream).1.flatten ++ (cutLines tLens stream).2 =
      stream := by
  induction tLens generalizing stream with
  | nil => rfl
  | cons tLen tLens ih =>
      simp only [cutLines, List.flatten_cons, List.append_assoc, ih,
        List.take_append_drop]

/-- Enough calls read the whole stream. -/
theorem cutLines_rest {tLens : List ℕ} (htLens : ∀ tLen ∈ tLens, 1 ≤ tLen)
    {stream : List UInt8} (henough : stream.length ≤ tLens.length) :
    (cutLines tLens stream).2 = [] := by
  induction tLens generalizing stream with
  | nil => simpa [cutLines] using henough
  | cons tLen tLens ih =>
      have hpos := nextLength_eq_zero (htLens tLen List.mem_cons_self) stream
      simp only [cutLines]
      apply ih fun t ht => htLens t (List.mem_cons_of_mem _ ht)
      rw [List.length_cons] at henough
      rw [List.length_drop]
      rcases Nat.eq_zero_or_pos (nextLength tLen stream) with hzero | hsome
      · rw [hpos.mp hzero, List.length_nil, Nat.zero_sub]
        exact Nat.zero_le _
      · omega

theorem readLineSelects_ready {calls : List (Memory × ℕ)}
    {sels : List Select} (stream : List UInt8)
    (hready : ∀ sel ∈ sels, sel.IsReady)
    (henough : (calls.map fun call => call.2 + 1).sum ≤ sels.length) :
    readLineSelects calls sels stream =
      some (cutLines (calls.map Prod.snd) stream) := by
  induction calls generalizing sels stream with
  | nil => rfl
  | cons call calls ih =>
      obtain ⟨data, tLen⟩ := call
      rw [List.map_cons, List.sum_cons] at henough
      simp only at henough
      obtain ⟨l, sels', hcall, hbytes, htail, hused⟩ :=
        readLineSelect_ready data tLen stream hready (by omega)
      have hrest := ih (stream.drop (nextLength tLen stream))
        (fun sel hsel => hready sel (htail.subset hsel)) (by omega)
      simp only [readLineSelects, hcall, hrest, Option.map_some,
        Int.toNat_natCast, hbytes, List.map_cons, cutLines]

/-! ## Result -/

/-- Without timeouts and errors a call returns the bytes up to the next
newline, at most `tLen` and at most what is left, none only at the end of the
stream; it takes these bytes off the stream and no others.  Repeated calls
partition the stream. -/
theorem read_line_select_prefix {sels : List Select}
    (hready : ∀ sel ∈ sels, sel.IsReady) (stream : List UInt8) :
    (∀ data tLen, 1 ≤ tLen → tLen < sels.length →
        ∃ l sels', readLineSelect data tLen sels stream =
            .returns (nextLength tLen stream) l
              (stream.drop (nextLength tLen stream)) sels' ∧
          l.data.bytes 0 (nextLength tLen stream) =
            stream.take (nextLength tLen stream) ∧
          (nextLength tLen stream = 0 ↔ stream = [])) ∧
      ∀ calls : List (Memory × ℕ), (∀ call ∈ calls, 1 ≤ call.2) →
        (calls.map fun call => call.2 + 1).sum ≤ sels.length →
        ∃ pieces rest, readLineSelects calls sels stream =
            some (pieces, rest) ∧
          (pieces, rest) = cutLines (calls.map Prod.snd) stream ∧
          pieces.flatten ++ rest = stream ∧
          (stream.length ≤ calls.length → rest = []) := by
  constructor
  · intro data tLen htLen henough
    obtain ⟨l, sels', hcall, hbytes, -⟩ :=
      readLineSelect_ready data tLen stream hready henough
    exact ⟨l, sels', hcall, hbytes, nextLength_eq_zero htLen stream⟩
  · intro calls hcalls henough
    refine ⟨_, _, readLineSelects_ready stream hready henough, rfl,
      cutLines_flatten _ stream, fun hlength => ?_⟩
    apply cutLines_rest
    · intro tLen htLen
      obtain ⟨call, hcall, rfl⟩ := List.mem_map.mp htLen
      exact hcalls call hcall
    · rwa [List.length_map]

/-- The newline is the last byte that fits; then two bytes are left. -/
theorem read_line_select_prefix_full :
    (∃ l sels', readLineSelect (fun _ => 0) 3
          (List.replicate 12 (.ready 0)) (ascii "ab\ncd") =
        .returns 3 l (ascii "cd") sels' ∧
      l.data.bytes 0 3 = ascii "ab\n") ∧
    ∃ pieces rest, readLineSelects
          [(fun _ => 0, 3), (fun _ => 0, 3), (fun _ => 0, 1)]
          (List.replicate 12 (.ready 0)) (ascii "ab\ncd") =
        some (pieces, rest) ∧
      pieces = [ascii "ab\n", ascii "cd", []] ∧
      pieces.flatten ++ rest = ascii "ab\ncd" := by
  have hready : ∀ sel ∈ List.replicate 12 (Select.ready 0), sel.IsReady :=
    fun sel hsel => ⟨0, List.eq_of_mem_replicate hsel⟩
  obtain ⟨hone, hmany⟩ := read_line_select_prefix hready (ascii "ab\ncd")
  constructor
  · obtain ⟨l, sels', hcall, hbytes, -⟩ :=
      hone (fun _ => 0) 3 (by decide) (by decide)
    exact ⟨l, sels', hcall, hbytes⟩
  · obtain ⟨pieces, rest, hcalls, hcut, hpartition, -⟩ :=
      hmany [(fun _ => 0, 3), (fun _ => 0, 3), (fun _ => 0, 1)]
        (by simp) (by simp)
    exact ⟨pieces, rest, hcalls, congrArg Prod.fst hcut, hpartition⟩

end Pvos.Readline
