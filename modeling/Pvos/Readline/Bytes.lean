import Pvos.Readline.Lines

/-!
# `readline_tout` on lists of bytes

What a call does with the bytes of its descriptor, without the two buffers:
`copied` are the bytes of the line in `out_buffer`, `pending` the ones between
`starting_offset` and `offset`, and `kept` the ones behind `offset`.
`readPair_matches` connects this description with the function; the later
modules reason about the description.
-/

namespace Pvos.Readline

open Pvos.Support

/-- `read` returns at most `L_BUFFER_SIZE` bytes. -/
def Outcome.Fits : Outcome → Prop
  | .data bytes => bytes.length ≤ lBufferSize
  | _ => True

/-- The bytes kept for the next call; `none` before the first read. -/
def FdBufferPair.kept (pair : FdBufferPair) : Option (List UInt8) :=
  if pair.offset = -1 then none else some pair.buffered

theorem FdBufferPair.Ok.buffered_eq {pair : FdBufferPair} (h : pair.Ok) :
    pair.buffered = pair.kept.getD [] := by
  unfold kept
  split
  next hfirst =>
    rcases h.range with ⟨-, hread⟩ | ⟨hoffset, -⟩
    · simp [buffered, hread]
    · omega
  next => rfl

/-! ## The description -/

/-- A call waits, or returns: the bytes it put in front of the zeros of
`out_buffer`, the bytes kept, and the outcomes left to later calls. -/
inductive LineResult
  | waits
  | returns (ret : ℤ) (errno : Errno) (out : List UInt8)
      (kept : Option (List UInt8)) (outcomes : List Outcome)

/-- `read` returned `ret <= 0` behind the bytes `line`. -/
def lineStop (line : List UInt8) (ret : ℤ) (errno : Errno)
    (outcomes : List Outcome) : LineResult :=
  if 0 < line.length then
    .returns (-line.length) .eagain line (some []) outcomes
  else .returns ret errno line (some []) outcomes

/-- The statements behind the loop. -/
def lineFinish (count : ℕ) (copied pending kept : List UInt8)
    (outcomes : List Outcome) : LineResult :=
  let lineLen := copied.length + pending.length
  if count ≤ lineLen then
    .returns (-lineLen) .eagain copied (some kept) outcomes
  else .returns lineLen .none (copied ++ pending) (some kept) outcomes

/-- The loop; `todo` is `count - line_len`. -/
def lineLoop (count : ℕ) :
    ℕ → List UInt8 → List UInt8 → List UInt8 → List Outcome → LineResult
  | 0, copied, pending, kept, outcomes =>
      lineFinish count copied pending kept outcomes
  | todo + 1, copied, pending, b :: kept, outcomes =>
      if b = newline then lineFinish count copied (pending ++ [b]) kept outcomes
      else lineLoop count todo copied (pending ++ [b]) kept outcomes
  | todo + 1, copied, pending, [], outcomes =>
      let line := copied ++ pending
      match outcomes with
      | [] => .waits
      | .timeout :: rest => .returns (-1) .etime line (some []) rest
      | .failed errno :: rest => lineStop line (-1) errno rest
      | .data [] :: rest => lineStop line 0 .none rest
      | .data (b :: bytes) :: rest =>
          if b = newline then lineFinish count line [b] bytes rest
          else lineLoop count todo line [b] bytes rest

/-- A call on a descriptor that keeps `kept`. -/
def lineCall (count : ℕ) (kept : Option (List UInt8))
    (outcomes : List Outcome) : LineResult :=
  match kept with
  | some bytes => lineLoop count count [] [] bytes outcomes
  | none =>
      match outcomes with
      | [] => .waits
      | .timeout :: rest => .returns (-1) .etime [] none rest
      | .failed errno :: rest => .returns (-1) errno [] none rest
      | .data bytes :: rest => lineLoop count count [] [] bytes rest

/-! ## The function matches its description -/

/-- What `r` shows of a call with the given `count` and descriptor. -/
structure Shows (count : ℕ) (fd : ℤ) (r : Returned) (ret : ℤ) (errno : Errno)
    (out : List UInt8) (kept : Option (List UInt8)) : Prop where
  ret : r.ret = ret
  errno : r.errno = errno
  length_le : out.length ≤ count
  out : r.out.bytes 0 count = out ++ List.replicate (count - out.length) 0
  ok : r.pair.Ok
  fd : r.pair.fd = fd
  kept : r.pair.kept = kept

inductive Matches (count : ℕ) (fd : ℤ) : Called → LineResult → Prop
  | waits : Matches count fd .waits .waits
  | returns {r : Returned} {ret : ℤ} {errno : Errno} {out : List UInt8}
      {kept : Option (List UInt8)} (outcomes : List Outcome)
      (h : Shows count fd r ret errno out kept) :
      Matches count fd (.returns r outcomes)
        (.returns ret errno out kept outcomes)

theorem bytes_eq_zeros {m : Memory} {off n : ℕ}
    (h : ∀ j, off ≤ j → j < off + n → m j = 0) :
    m.bytes off n = List.replicate n 0 := by
  apply List.ext_getElem
  · simp
  · intro i hi _
    rw [Memory.length_bytes] at hi
    rw [Memory.getElem_bytes, List.getElem_replicate]
    exact h _ (by omega) (by omega)

/-- A buffer that holds `out` in front of zeros. -/
theorem bytes_front_zeros {m : Memory} {count : ℕ} {out : List UInt8}
    (hle : out.length ≤ count) (hfront : m.bytes 0 out.length = out)
    (hzero : ∀ j, out.length ≤ j → j < count → m j = 0) :
    m.bytes 0 count = out ++ List.replicate (count - out.length) 0 := by
  rw [← Nat.add_sub_cancel' hle, Memory.bytes_add, hfront, Nat.zero_add,
    Nat.add_sub_cancel' hle]
  congr 1
  apply bytes_eq_zeros
  intro j hj hlt
  exact hzero j hj (by omega)

section Loop

variable {count : ℕ} {l : LoopState} {got : List UInt8}

/-- The bytes of the line that are in `out_buffer`. -/
def LoopState.copiedBytes (l : LoopState) : List UInt8 :=
  l.out.bytes 0 l.copied

/-- The bytes of the line that are in the inner buffer. -/
def LoopState.pendingBytes (l : LoopState) : List UInt8 :=
  l.pair.buffer.bytes l.startingOffset l.pendingLen

theorem LoopInv.offset_nonneg (h : LoopInv count l got) :
    0 ≤ l.pair.offset := by
  have := h.start_le
  omega

theorem LoopInv.kept (h : LoopInv count l got) :
    l.pair.kept = some l.pair.buffered := by
  have := h.offset_nonneg
  exact if_neg (by omega)

theorem LoopInv.shows_stop (h : LoopInv count l got) (hle : got.length ≤ count)
    (ret : ℤ) (errno : Errno) :
    Shows count l.pair.fd (l.stop ret errno) ret errno l.copiedBytes
      (some l.pair.buffered) := by
  have hcopied := h.copied
  have hlength : l.copiedBytes.length = l.copied := Memory.length_bytes _ _ _
  refine ⟨rfl, rfl, by omega, ?_, h.pair, rfl, h.kept⟩
  apply bytes_front_zeros (by omega)
  · rw [hlength]
    rfl
  · rw [hlength]
    exact h.zeroed

/-- Copying out moves the pending bytes into `out_buffer`. -/
theorem LoopInv.bytes_copyOut (h : LoopInv count l got) :
    l.copyOut.bytes 0 got.length = got := by
  rw [LoopState.copyOut, ← h.copied, Memory.bytes_add, Nat.zero_add,
    Memory.bytes_memcpy,
    Memory.bytes_memcpy_of_disjoint _ _ _ (Or.inl (by omega))]
  exact h.content

theorem LoopInv.copyOut_zeroed (h : LoopInv count l got) {j : ℕ}
    (hj : got.length ≤ j) (hlt : j < count) : l.copyOut j = 0 := by
  have hcopied := h.copied
  rw [LoopState.copyOut, Memory.memcpy, if_neg (by omega)]
  exact h.zeroed j (by omega) hlt

/-- The state in which the block that reads stops the call. -/
theorem LoopInv.shows_flush (h : LoopInv count l got) (hle : got.length ≤ count)
    (ret : ℤ) (errno : Errno) :
    Shows count l.pair.fd (l.flush.stop ret errno) ret errno got (some []) := by
  refine ⟨rfl, rfl, hle, ?_, FdBufferPair.ok_reset h.pair, rfl, rfl⟩
  exact bytes_front_zeros hle h.bytes_copyOut
    (fun j hj hlt => h.copyOut_zeroed hj hlt)

theorem LoopInv.got_eq (h : LoopInv count l got) :
    l.copiedBytes ++ l.pendingBytes = got :=
  h.content

theorem LoopInv.length_eq (h : LoopInv count l got) :
    l.copiedBytes.length + l.pendingBytes.length = got.length := by
  rw [← h.got_eq, List.length_append]

theorem LoopInv.matches_stopRead (h : LoopInv count l got)
    (hle : got.length ≤ count) (ret : ℤ) (errno : Errno)
    (outcomes : List Outcome) :
    Matches count l.pair.fd (.returns (l.flush.stopRead ret errno) outcomes)
      (lineStop got ret errno outcomes) := by
  have hlen : l.flush.lineLen = got.length := h.lineLen
  unfold LoopState.stopRead lineStop
  rw [hlen]
  split
  next => exact .returns _ (h.shows_flush hle _ _)
  next => exact .returns _ (h.shows_flush hle _ _)

theorem LoopInv.matches_finish (h : LoopInv count l got)
    (hle : got.length ≤ count) (outcomes : List Outcome) :
    Matches count l.pair.fd (.returns (l.finish count) outcomes)
      (lineFinish count l.copiedBytes l.pendingBytes l.pair.buffered
        outcomes) := by
  have hstart := h.start_le
  have hcopied := h.copied
  have hplace := h.place
  have hlength := h.length_eq
  unfold LoopState.finish lineFinish
  simp only [hlength, h.lineLen]
  split
  next => exact .returns _ (h.shows_stop hle _ _)
  next hlt =>
    rw [h.got_eq]
    have hpending : (l.startingOffset : ℤ) + l.pendingLen = l.pair.offset := by
      simp only [LoopState.pendingLen]
      omega
    have hterminator : got.length ≤ l.copied + l.pair.offset.toNat := by omega
    refine .returns _ ⟨rfl, rfl, hle, ?_, h.pair, rfl, h.kept⟩
    apply bytes_front_zeros hle
    · rw [Memory.bytes_write_of_disjoint _ _ (Or.inl (by omega))]
      exact h.bytes_copyOut
    · intro j hj hjlt
      simp only [Memory.write, List.length_singleton]
      split
      next hat =>
        have hzero : j - (l.copied + l.pair.offset.toNat) = 0 := by omega
        simp [hzero]
      next => exact h.copyOut_zeroed hj hjlt

theorem LoopInv.advance_bytes (h : LoopInv count l got) :
    l.advance.copiedBytes = l.copiedBytes ∧
      l.advance.pendingBytes = l.pendingBytes ++ [l.byte] := by
  have hstart := h.start_le
  have hpending : l.advance.pendingLen = l.pendingLen + 1 := by
    simp only [LoopState.pendingLen, LoopState.advance]
    omega
  have hoffset : l.startingOffset + l.pendingLen = l.pair.offset.toNat := by
    simp only [LoopState.pendingLen]
    omega
  refine ⟨rfl, ?_⟩
  rw [LoopState.pendingBytes, hpending, Memory.bytes_add]
  simp [LoopState.pendingBytes, LoopState.advance, Memory.bytes,
    LoopState.byte, hoffset]

theorem LoopInv.filled_bytes (h : LoopInv count l got) (bytes : List UInt8) :
    (l.flush.filled bytes).copiedBytes = got ∧
      (l.flush.filled bytes).pendingBytes = [] ∧
      (l.flush.filled bytes).pair.buffered = bytes := by
  refine ⟨?_, rfl, FdBufferPair.buffered_filled _ _⟩
  have hbytes := h.bytes_copyOut
  rw [← h.copied] at hbytes
  exact hbytes

/-- The loop matches its description. -/
theorem readLoop_matches (todo : ℕ) {outcomes : List Outcome}
    (h : LoopInv count l got) (htodo : got.length + todo = count)
    (hfits : ∀ o ∈ outcomes, o.Fits) :
    Matches count l.pair.fd (readLoop count todo l outcomes)
      (lineLoop count todo l.copiedBytes l.pendingBytes l.pair.buffered
        outcomes) := by
  induction todo generalizing l got outcomes with
  | zero => exact h.matches_finish (by omega) outcomes
  | succ todo ih =>
      -- one byte of the inner buffer, which may just have been filled
      have hbyte : ∀ {l' : LoopState} {rest : List Outcome},
          LoopInv count l' got → l'.pair.fd = l.pair.fd →
          l'.pair.offset < l'.pair.readBytes → (∀ o ∈ rest, o.Fits) →
          Matches count l.pair.fd
            (if l'.byte = newline then
              .returns (l'.advance.finish count) rest
            else readLoop count todo l'.advance rest)
            (if l'.byte = newline then
              lineFinish count l'.copiedBytes (l'.pendingBytes ++ [l'.byte])
                l'.advance.pair.buffered rest
            else lineLoop count todo l'.copiedBytes
              (l'.pendingBytes ++ [l'.byte]) l'.advance.pair.buffered rest) := by
        intro l' rest hinv hfd hlt hrest
        have hadvance := hinv.advance hlt
        have hlength : (got ++ [l'.byte]).length = got.length + 1 := by simp
        obtain ⟨hcopied, hpending⟩ := hinv.advance_bytes
        have hfd' : l'.advance.pair.fd = l.pair.fd := hfd
        rw [← hfd', ← hcopied, ← hpending]
        split
        next => exact hadvance.matches_finish (by omega) rest
        next => exact ih hadvance (by omega) hrest
      have hoffset := h.offset_nonneg
      by_cases hleft : l.pair.offset < l.pair.readBytes
      · simp only [readLoop, LoopState.refill, if_neg (Int.not_le.mpr hleft)]
        rw [buffered_advance hoffset hleft, lineLoop]
        exact hbyte h rfl hleft hfits
      · have hempty : l.pair.buffered = [] :=
          FdBufferPair.buffered_eq_nil (Int.not_lt.mp hleft)
        simp only [readLoop, LoopState.refill, if_pos (Int.not_lt.mp hleft)]
        rw [hempty]
        simp only [lineLoop, h.got_eq]
        cases outcomes with
        | nil => exact .waits
        | cons o rest =>
            cases o with
            | timeout => exact .returns _ (h.shows_flush (by omega) _ _)
            | failed errno => exact h.matches_stopRead (by omega) _ _ _
            | data bytes =>
                cases bytes with
                | nil => exact h.matches_stopRead (by omega) _ _ _
                | cons b bytes =>
                    have hchunk : IsChunk (b :: bytes) :=
                      ⟨Nat.succ_pos _, hfits _ List.mem_cons_self⟩
                    have hlt := l.flush.filled_lt hchunk
                    have hnext := hbyte (h.refill hchunk) rfl hlt
                      fun o ho => hfits o (List.mem_cons_of_mem _ ho)
                    obtain ⟨hcopied, hpending, hbuffered⟩ :=
                      h.filled_bytes (b :: bytes)
                    have hoffset' : 0 ≤
                        (l.flush.filled (b :: bytes)).pair.offset := Int.le_refl 0
                    rw [buffered_advance hoffset' hlt, List.cons.injEq]
                      at hbuffered
                    rw [hcopied, hpending, hbuffered.1, hbuffered.2] at hnext
                    exact hnext

end Loop

/-- A call on a pair matches its description. -/
theorem readPair_matches (count : ℕ) {pair : FdBufferPair} (h : pair.Ok)
    (out : Memory) {outcomes : List Outcome}
    (hfits : ∀ o ∈ outcomes, o.Fits) :
    Matches count pair.fd
      (readPair pair (out.memset 0 0 count) count outcomes)
      (lineCall count pair.kept outcomes) := by
  have hloop : ∀ (pair' : FdBufferPair) {rest : List Outcome}, pair'.Ok →
      pair'.fd = pair.fd → 0 ≤ pair'.offset → (∀ o ∈ rest, o.Fits) →
      Matches count pair.fd
        (readLoop count count (.start pair' (out.memset 0 0 count)) rest)
        (lineLoop count count [] [] pair'.buffered rest) := by
    intro pair' rest hok hfd hoffset hrest
    have hinv := loopInv_start count hok hoffset out
    have hmatch := readLoop_matches count hinv (Nat.zero_add _) hrest
    have hcontent := List.append_eq_nil_iff.mp hinv.got_eq
    rw [hcontent.1, hcontent.2] at hmatch
    rw [← hfd]
    exact hmatch
  by_cases hfirst : pair.offset = -1
  · have hzero : (out.memset 0 0 count).bytes 0 count =
        List.replicate count 0 := by
      apply bytes_eq_zeros
      intro j _ hj
      rw [Memory.memset, if_pos (by omega)]
    have hstop : ∀ errno, Shows count pair.fd
        ⟨-1, errno, out.memset 0 0 count, pair⟩ (-1) errno [] none :=
      fun errno => ⟨rfl, rfl, Nat.zero_le _, hzero, h, rfl, if_pos hfirst⟩
    simp only [readPair, FdBufferPair.kept, if_pos hfirst]
    cases outcomes with
    | nil => exact .waits
    | cons o rest =>
        cases o with
        | timeout => exact .returns _ (hstop _)
        | failed errno => exact .returns _ (hstop _)
        | data bytes =>
            have hle : (bytes.length : ℤ) ≤ lBufferSize := by
              exact_mod_cast hfits _ List.mem_cons_self
            have hmatch := hloop (pair.filled bytes)
              ⟨h.bufferLen, Or.inr ⟨by simp [FdBufferPair.filled],
                by simp [FdBufferPair.filled]⟩, hle⟩ rfl (Int.le_refl 0)
              fun o ho => hfits o (List.mem_cons_of_mem _ ho)
            rwa [FdBufferPair.buffered_filled] at hmatch
  · have hoffset : 0 ≤ pair.offset := by
      rcases h.range with ⟨hneg, -⟩ | ⟨hpos, -⟩
      · exact absurd hneg hfirst
      · exact hpos
    simp only [readPair, FdBufferPair.kept, if_neg hfirst]
    exact hloop pair h rfl hoffset hfits

end Pvos.Readline
