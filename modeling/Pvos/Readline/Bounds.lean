import Pvos.Readline.Descriptors

/-!
# The indices that `readline_tout` uses

Next to each block of `readline_tout` stand the bytes of the inner buffer and
of `out_buffer` that it reads or writes.  The copies stay inside both buffers.
The terminator is written at `copied + offset`; this is the end of the line
when the inner buffer has been refilled, and lies behind it when the line
started in bytes left by an earlier call.
-/

namespace Pvos.Readline

open Pvos.Support

/-! ## Accesses -/

/-- The bytes that a statement reads or writes: the first index and their
number. -/
inductive Access
  | inner (first len : ℤ)
  | outBuffer (first len : ℤ)
  deriving DecidableEq

/-- The indices from `first` on are those of a buffer of `size` bytes. -/
def IndicesBelow (size : ℕ) (first len : ℤ) : Prop :=
  0 ≤ len ∧ ∀ i, first ≤ i → i < first + len → 0 ≤ i ∧ i < size

/-- The inner buffer has `L_BUFFER_SIZE` bytes, `out_buffer` has `count`. -/
def Access.InBounds (count : ℕ) : Access → Prop
  | .inner first len => IndicesBelow lBufferSize first len
  | .outBuffer first len => IndicesBelow count first len

namespace LoopState

/-- `memcpy` of the pending bytes to `out_buffer + copied`. -/
def copyAccesses (l : LoopState) : List Access :=
  [.inner l.startingOffset (l.pair.offset - l.startingOffset),
    .outBuffer l.copied (l.pair.offset - l.startingOffset)]

/-- The block that reads: `memcpy`, `reset`, and a `read` unless `select` waits
or times out. -/
def refillAccesses (l : LoopState) (outcomes : List Outcome) : List Access :=
  if l.pair.readBytes ≤ l.pair.offset then
    l.copyAccesses ++ [.inner 0 l.pair.bufferLen] ++
      match outcomes with
      | [] => []
      | .timeout :: _ => []
      | _ => [.inner 0 l.pair.bufferLen]
  else []

/-- The statements behind the loop. -/
def finishAccesses (count : ℕ) (l : LoopState) : List Access :=
  if count ≤ l.lineLen then []
  else l.copyAccesses ++ [.outBuffer (l.copied + l.pair.offset) 1]

end LoopState

/-- The accesses of `readLoop`. -/
def readLoopAccesses (count : ℕ) :
    ℕ → LoopState → List Outcome → List Access
  | 0, l, _ => l.finishAccesses count
  | todo + 1, l, outcomes =>
      l.refillAccesses outcomes ++
        match l.refill outcomes with
        | .waits => []
        | .stops _ _ => []
        | .goes l' rest =>
            .inner l'.pair.offset 1 ::
              if l'.byte = newline then l'.advance.finishAccesses count
              else readLoopAccesses count todo l'.advance rest

/-- The accesses of `readPair`. -/
def readPairAccesses (pair : FdBufferPair) (out : Memory) (count : ℕ)
    (outcomes : List Outcome) : List Access :=
  if pair.offset = -1 then
    match outcomes with
    | [] => []
    | .timeout :: _ => []
    | .failed _ :: _ => [.inner 0 lBufferSize]
    | .data bytes :: rest =>
        .inner 0 lBufferSize ::
          readLoopAccesses count count (.start (pair.filled bytes) out) rest
  else readLoopAccesses count count (.start pair out) outcomes

/-- The accesses of a call with an `out_buffer`; a new pair is zeroed. -/
def readlineToutAccesses (pairs : List FdBufferPair) (fd : ℤ) (out : Memory)
    (count : ℕ) (outcomes : List Outcome) : List Access :=
  [.outBuffer 0 count] ++
    (if pairs.any fun pair => pair.fd = fd then [] else [.inner 0 lBufferSize]) ++
    readPairAccesses (pairOf pairs fd) (out.memset 0 0 count) count outcomes

/-! ## The terminator -/

/-- The place of the terminator of a line that ends in the bytes kept by the
pair. -/
def TerminatorFits (count : ℕ) (pair : FdBufferPair) : Prop :=
  ∀ text rest, pair.buffered = text ++ newline :: rest → newline ∉ text →
    text.length + 1 < count → pair.offset.toNat + text.length + 1 < count

/-- The same inside the loop. -/
def LoopState.TerminatorFits (count : ℕ) (l : LoopState) : Prop :=
  ∀ text rest, l.pair.buffered = text ++ newline :: rest → newline ∉ text →
    l.lineLen + text.length + 1 < count →
    l.copied + l.pair.offset.toNat + text.length + 1 < count

section Loop

variable {count : ℕ} {l : LoopState} {got : List UInt8}
  {outcomes : List Outcome}

theorem indicesBelow_of_le {size : ℕ} {first len : ℤ} (hfirst : 0 ≤ first)
    (hlen : 0 ≤ len) (hle : first + len ≤ size) :
    IndicesBelow size first len :=
  ⟨hlen, fun i hi hlt => ⟨by omega, by omega⟩⟩

theorem indicesBelow_one {size : ℕ} {first : ℤ} :
    IndicesBelow size first 1 ↔ 0 ≤ first ∧ first < size := by
  constructor
  · exact fun h => h.2 first (Int.le_refl _) (by omega)
  · exact fun h => indicesBelow_of_le h.1 (by omega) (by omega)

theorem LoopInv.pending (h : LoopInv count l got) :
    (l.copied : ℤ) + (l.pair.offset - l.startingOffset) = got.length := by
  have hstart := h.start_le
  have hcopied := h.copied
  simp only [LoopState.pendingLen] at hcopied
  omega

theorem LoopInv.offset_le (h : LoopInv count l got) :
    l.pair.offset ≤ lBufferSize := by
  have hsize := h.pair.readBytes_le
  have hpos := h.offset_nonneg
  rcases h.pair.range with ⟨hneg, -⟩ | ⟨-, hle⟩
  · omega
  · omega

theorem LoopInv.copyAccesses (h : LoopInv count l got)
    (hle : got.length ≤ count) : ∀ a ∈ l.copyAccesses, a.InBounds count := by
  have hstart := h.start_le
  have hpending := h.pending
  have hoffset := h.offset_le
  intro a ha
  simp only [LoopState.copyAccesses, List.mem_cons, List.not_mem_nil,
    or_false] at ha
  rcases ha with rfl | rfl
  · exact indicesBelow_of_le (by omega) (by omega) (by omega)
  · exact indicesBelow_of_le (by omega) (by omega) (by omega)

theorem innerBuffer_inBounds {pair : FdBufferPair} (h : pair.Ok) :
    (Access.inner 0 pair.bufferLen).InBounds count := by
  rw [h.bufferLen]
  exact indicesBelow_of_le (Int.le_refl 0) (by omega) (by omega)

theorem LoopInv.refillAccesses (h : LoopInv count l got)
    (hle : got.length ≤ count) :
    ∀ a ∈ l.refillAccesses outcomes, a.InBounds count := by
  have hread : ∀ a ∈ l.copyAccesses ++ [.inner 0 l.pair.bufferLen] ++
      [.inner 0 l.pair.bufferLen], a.InBounds count := by
    intro a ha
    simp only [List.mem_append, List.mem_singleton] at ha
    rcases ha with (ha | rfl) | rfl
    · exact h.copyAccesses hle a ha
    · exact innerBuffer_inBounds h.pair
    · exact innerBuffer_inBounds h.pair
  intro a ha
  apply hread
  unfold LoopState.refillAccesses at ha
  split at ha
  · split at ha
    · exact List.mem_append_left _ (by simpa using ha)
    · exact List.mem_append_left _ (by simpa using ha)
    · exact ha
  · simp at ha

/-- Behind the loop only the terminator can leave its buffer. -/
theorem LoopInv.finishAccesses (h : LoopInv count l got)
    (hle : got.length ≤ count) :
    (∀ a ∈ l.finishAccesses count, a.InBounds count) ↔
      (got.length < count → l.copied + l.pair.offset.toNat < count) := by
  have hoffset := h.offset_nonneg
  unfold LoopState.finishAccesses
  rw [h.lineLen]
  split
  next hfull => exact iff_of_true (by simp) fun hlt => by omega
  next hopen =>
    rw [List.forall_mem_append, and_iff_right (h.copyAccesses hle),
      List.forall_mem_singleton]
    refine indicesBelow_one.trans ?_
    constructor
    · intro hterminator _
      omega
    · intro hterminator
      have hlt := hterminator (by omega)
      omega

/-- Bytes that were read after the last copy start at the front of the inner
buffer, so the terminator goes right behind the line. -/
theorem LoopInv.terminatorFits (h : LoopInv count l got)
    (hstart : l.startingOffset = 0) : l.TerminatorFits count := by
  have hpending := h.pending
  have hoffset := h.offset_nonneg
  intro text rest _ _ hshort
  rw [h.lineLen] at hshort
  omega

/-- Without bytes kept there is no line that ends in them. -/
theorem LoopState.terminatorFits_of_nil (h : l.pair.buffered = []) :
    l.TerminatorFits count := by
  intro text rest heq
  rw [h] at heq
  simp at heq

/-- A byte that does not end the line moves from the kept ones to it. -/
theorem LoopInv.terminatorFits_advance (h : LoopInv count l got)
    (hlt : l.pair.offset < l.pair.readBytes) (hbyte : l.byte ≠ newline) :
    l.TerminatorFits count ↔ l.advance.TerminatorFits count := by
  have hoffset := h.offset_nonneg
  have hnext : l.advance.pair.offset.toNat = l.pair.offset.toNat + 1 := by
    simp only [LoopState.advance]
    omega
  have hlen : l.advance.lineLen = l.lineLen + 1 := rfl
  have hcopied : l.advance.copied = l.copied := rfl
  simp only [LoopState.TerminatorFits, hnext, hlen, hcopied]
  rw [buffered_advance hoffset hlt]
  constructor
  · intro hfits text rest heq htext hshort
    have hline := hfits (l.byte :: text) rest (by rw [heq]; rfl)
      (by simpa [Ne.symm hbyte] using htext)
      (by rw [List.length_cons]; omega)
    rw [List.length_cons] at hline
    omega
  · intro hfits text rest heq htext hshort
    cases text with
    | nil => exact absurd (List.cons.inj heq).1 hbyte
    | cons b text =>
        rw [List.mem_cons, not_or] at htext
        rw [List.length_cons] at hshort ⊢
        have hline := hfits text rest (List.cons.inj heq).2 htext.2 (by omega)
        omega

/-- The byte that ends the line. -/
theorem LoopInv.terminatorFits_newline (h : LoopInv count l got)
    (hlt : l.pair.offset < l.pair.readBytes) (hbyte : l.byte = newline) :
    l.TerminatorFits count ↔
      (got.length + 1 < count → l.copied + l.pair.offset.toNat + 1 < count) := by
  have hoffset := h.offset_nonneg
  simp only [LoopState.TerminatorFits, h.lineLen]
  rw [buffered_advance hoffset hlt, hbyte]
  constructor
  · intro hfits
    exact hfits [] _ rfl (by simp)
  · intro hfits text rest heq htext hshort
    cases text with
    | nil => exact hfits hshort
    | cons b text =>
        obtain ⟨rfl, -⟩ := List.cons.inj heq
        exact absurd List.mem_cons_self htext

/-- The accesses of the loop. -/
theorem readLoopAccesses_inBounds (todo : ℕ) (h : LoopInv count l got)
    (htodo : got.length + todo = count) (hfits : ∀ o ∈ outcomes, o.Fits) :
    (∀ a ∈ readLoopAccesses count todo l outcomes, a.InBounds count) ↔
      l.TerminatorFits count := by
  induction todo generalizing l got outcomes with
  | zero =>
      refine (h.finishAccesses (by omega)).trans (iff_of_true (by omega) ?_)
      intro text rest _ _ hshort
      rw [h.lineLen] at hshort
      omega
  | succ todo ih =>
      -- one byte of the inner buffer, which may just have been filled
      have hbyte : ∀ {l' : LoopState} {rest : List Outcome},
          LoopInv count l' got → l'.pair.offset < l'.pair.readBytes →
          (∀ o ∈ rest, o.Fits) →
          ((∀ a ∈ Access.inner l'.pair.offset 1 ::
              if l'.byte = newline then l'.advance.finishAccesses count
              else readLoopAccesses count todo l'.advance rest,
            a.InBounds count) ↔ l'.TerminatorFits count) := by
        intro l' rest hinv hlt hrest
        have hadvance := hinv.advance hlt
        have hlength : (got ++ [l'.byte]).length = got.length + 1 := by simp
        have hoffset := hinv.offset_nonneg
        have hindex : (Access.inner l'.pair.offset 1).InBounds count := by
          have hsize := hinv.pair.readBytes_le
          exact indicesBelow_one.mpr ⟨hoffset, by omega⟩
        rw [List.forall_mem_cons, and_iff_right hindex]
        split
        next hnewline =>
          have hnext : l'.advance.copied + l'.advance.pair.offset.toNat =
              l'.copied + l'.pair.offset.toNat + 1 := by
            simp only [LoopState.advance]
            omega
          rw [hadvance.finishAccesses (by omega),
            hinv.terminatorFits_newline hlt hnewline, hlength, hnext]
        next hne =>
          rw [hinv.terminatorFits_advance hlt hne]
          exact ih hadvance (by omega) hrest
      rw [readLoopAccesses, List.forall_mem_append,
        and_iff_right (h.refillAccesses (by omega))]
      by_cases hleft : l.pair.offset < l.pair.readBytes
      · simp only [LoopState.refill, if_neg (Int.not_le.mpr hleft)]
        exact hbyte h hleft hfits
      · have hempty : l.pair.buffered = [] :=
          FdBufferPair.buffered_eq_nil (Int.not_lt.mp hleft)
        have hnone : l.TerminatorFits count :=
          LoopState.terminatorFits_of_nil hempty
        simp only [LoopState.refill, if_pos (Int.not_lt.mp hleft)]
        cases outcomes with
        | nil => exact iff_of_true (by simp) hnone
        | cons o rest =>
            cases o with
            | timeout | failed => exact iff_of_true (by simp) hnone
            | data bytes =>
                cases bytes with
                | nil => exact iff_of_true (by simp) hnone
                | cons b bytes =>
                    have hchunk : IsChunk (b :: bytes) :=
                      ⟨Nat.succ_pos _, hfits _ List.mem_cons_self⟩
                    have hinv := h.refill hchunk
                    refine (hbyte hinv (l.flush.filled_lt hchunk) fun o ho =>
                      hfits o (List.mem_cons_of_mem _ ho)).trans ?_
                    exact iff_of_true (hinv.terminatorFits rfl) hnone

end Loop

/-! ## One call -/

section Call

variable {count : ℕ} {pair : FdBufferPair} {outcomes : List Outcome}

theorem startAccesses_inBounds (h : pair.Ok) (hoffset : 0 ≤ pair.offset)
    (out : Memory) (hfits : ∀ o ∈ outcomes, o.Fits) :
    (∀ a ∈ readLoopAccesses count count
        (.start pair (out.memset 0 0 count)) outcomes, a.InBounds count) ↔
      TerminatorFits count pair := by
  have hinv := loopInv_start count h hoffset out
  have haccesses := readLoopAccesses_inBounds count hinv (Nat.zero_add _) hfits
  simpa [LoopState.TerminatorFits, LoopState.start, TerminatorFits]
    using haccesses

theorem readPairAccesses_inBounds (h : pair.Ok) (out : Memory)
    (hfits : ∀ o ∈ outcomes, o.Fits) :
    (∀ a ∈ readPairAccesses pair (out.memset 0 0 count) count outcomes,
        a.InBounds count) ↔ TerminatorFits count pair := by
  unfold readPairAccesses
  by_cases hfirst : pair.offset = -1
  · have hempty : pair.buffered = [] := by
      rw [h.buffered_eq, FdBufferPair.kept, if_pos hfirst]
      rfl
    have hnone : TerminatorFits count pair := by
      intro text rest heq
      rw [hempty] at heq
      simp at heq
    have hread : (Access.inner 0 lBufferSize).InBounds count :=
      indicesBelow_of_le (Int.le_refl 0) (by omega) (by omega)
    rw [if_pos hfirst]
    cases outcomes with
    | nil => exact iff_of_true (by simp) hnone
    | cons o rest =>
        cases o with
        | timeout => exact iff_of_true (by simp) hnone
        | failed => exact iff_of_true (by simpa using hread) hnone
        | data bytes =>
            have hle : (bytes.length : ℤ) ≤ lBufferSize := by
              exact_mod_cast hfits _ List.mem_cons_self
            have hok : (pair.filled bytes).Ok :=
              ⟨h.bufferLen, Or.inr ⟨by simp [FdBufferPair.filled],
                by simp [FdBufferPair.filled]⟩, hle⟩
            rw [List.forall_mem_cons, and_iff_right hread,
              startAccesses_inBounds hok (Int.le_refl 0) out fun o ho =>
                hfits o (List.mem_cons_of_mem _ ho)]
            refine iff_of_true ?_ hnone
            intro text rest' _ _ hshort
            have hzero : (pair.filled bytes).offset.toNat = 0 := rfl
            omega
  · have hoffset : 0 ≤ pair.offset := by
      rcases h.range with ⟨hneg, -⟩ | ⟨hpos, -⟩
      · exact absurd hneg hfirst
      · exact hpos
    rw [if_neg hfirst]
    exact startAccesses_inBounds h hoffset out hfits

end Call

/-- Every index of a call lies in its buffer if and only if the terminator of a
line that ends in the kept bytes does. -/
theorem accesses_inBounds_iff {pairs : List FdBufferPair}
    (hpairs : PairsOk pairs) (fd : ℤ) (out : Memory) (count : ℕ)
    {outcomes : List Outcome} (hfits : ∀ o ∈ outcomes, o.Fits) :
    (∀ a ∈ readlineToutAccesses pairs fd out count outcomes,
        a.InBounds count) ↔ TerminatorFits count (pairOf pairs fd) := by
  have hzeroed : ∀ a ∈ [Access.outBuffer 0 count] ++
      (if pairs.any fun pair => pair.fd = fd then [] else
        [Access.inner 0 lBufferSize]), a.InBounds count := by
    intro a ha
    have hcases : a = .outBuffer 0 count ∨ a = .inner 0 lBufferSize := by
      rw [List.mem_append, List.mem_singleton] at ha
      refine ha.imp_right fun hnew => ?_
      split at hnew
      · simp at hnew
      · exact List.mem_singleton.mp hnew
    rcases hcases with rfl | rfl
    · exact indicesBelow_of_le (Int.le_refl 0) (by omega) (by omega)
    · exact indicesBelow_of_le (Int.le_refl 0) (by omega) (by omega)
  rw [readlineToutAccesses, List.forall_mem_append, and_iff_right hzeroed]
  exact readPairAccesses_inBounds (hpairs.pairOf fd) out hfits

/-- A first line. -/
theorem accesses_inBounds_iff_first_line :
    (∀ a ∈ readlineToutAccesses [] 0 (fun _ => 7) 4 [.data [97, 10, 98]],
        a.InBounds 4) ↔ TerminatorFits 4 (pairOf [] 0) := by
  refine accesses_inBounds_iff pairsOk_nil 0 (fun _ => 7) 4 ?_
  intro o ho
  rw [List.mem_singleton.mp ho]
  simp [Outcome.Fits, lBufferSize]

/-- `"a\n"` and `"bc\n"` come with one read; with `count = 4` the call for the
second line writes its terminator to `out_buffer[5]`. -/
theorem terminator_behind_out_buffer :
    ∃ r r' pairs pairs',
      readlineTout [] 0 (some fun _ => 7) 4 [.data [97, 10, 98, 99, 10]] =
          .returns r pairs [] ∧
        readlineTout pairs 0 (some fun _ => 7) 4 [] = .returns r' pairs' [] ∧
        r.ret = 2 ∧ r'.ret = 3 ∧
        .outBuffer 5 1 ∈ readlineToutAccesses pairs 0 (fun _ => 7) 4 [] ∧
        ¬ ∀ a ∈ readlineToutAccesses pairs 0 (fun _ => 7) 4 [],
          a.InBounds 4 := by
  obtain ⟨r, pairs, hcall, hret, r', pairs', hnext, hret', hmem⟩ :
      ∃ r pairs, readlineTout [] 0 (some fun _ => 7) 4
          [.data [97, 10, 98, 99, 10]] = .returns r pairs [] ∧ r.ret = 2 ∧
        ∃ r' pairs', readlineTout pairs 0 (some fun _ => 7) 4 [] =
            .returns r' pairs' [] ∧ r'.ret = 3 ∧
          .outBuffer 5 1 ∈ readlineToutAccesses pairs 0 (fun _ => 7) 4 [] :=
    ⟨_, _, rfl, by decide, _, _, rfl, by decide, by decide⟩
  refine ⟨r, r', pairs, pairs', hcall, hnext, hret, hret', hmem, fun h => ?_⟩
  exact absurd (indicesBelow_one.mp (h _ hmem)).2 (by decide)

end Pvos.Readline
