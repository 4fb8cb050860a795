import Pvos.Readline.Descriptors

/-!
# Incomplete and over-long lines

A call that returns `-n` with `EAGAIN` has used up `n` bytes and hands them to
its caller in `out_buffer`.  When the input ends or fails inside the line, the
block that reads has copied them out before.  When the line fills `count`
bytes, the bytes that came with the last read are not copied any more.
-/

namespace Pvos.Readline

open Pvos.Support

/-- A byte of the line arrives before the input ends or fails. -/
def LineStarts (bytes : List UInt8) (outcomes : List Outcome) : Prop :=
  bytes ≠ [] ∨ ∃ b chunk rest, outcomes = .data (b :: chunk) :: rest

/-- Of the first `count` bytes of the line the ones that come with the last
read are zero, or there are fewer. -/
def NothingLeftBehind (count : ℕ) (kept : Option (List UInt8))
    (outcomes : List Outcome) : Prop :=
  ∃ bytes rest, loopInput kept outcomes = some (bytes, rest) ∧
    LineStarts bytes rest ∧ ∀ b ∈ lastPart [] bytes rest count, b = 0

section Bytes

variable {kept : Option (List UInt8)} {outcomes : List Outcome}

/-- The bytes kept and the data to come are those of the loop. -/
theorem loopInput_bytes {bytes : List UInt8} {rest : List Outcome}
    (h : loopInput kept outcomes = some (bytes, rest)) :
    kept.getD [] ++ dataOf outcomes = bytes ++ dataOf rest := by
  cases kept with
  | some bytes' =>
      simp only [loopInput, Option.some.injEq, Prod.mk.injEq] at h
      rw [Option.getD_some, h.1, h.2]
  | none =>
      cases outcomes with
      | nil => simp [loopInput] at h
      | cons o outcomes =>
          cases o with
          | data bytes' =>
              simp only [loopInput, Option.some.injEq, Prod.mk.injEq] at h
              rw [← h.1, ← h.2]
              simp [dataOf]
          | _ => simp [loopInput] at h

/-- A line that has a byte has a first one. -/
theorem lineStarts_of_bytes {bytes : List UInt8} {chunks : List (List UInt8)}
    {rest : List Outcome} (hchunks : ∀ c ∈ chunks, c ≠ [])
    (hbytes : bytes ++ chunks.flatten ≠ []) :
    LineStarts bytes (chunks.map .data ++ rest) := by
  by_cases hempty : bytes = []
  · cases chunks with
    | nil => simp [hempty] at hbytes
    | cons c chunks =>
        cases c with
        | nil => exact absurd rfl (hchunks [] List.mem_cons_self)
        | cons b chunk =>
            exact Or.inr ⟨b, chunk, chunks.map .data ++ rest, rfl⟩
  · exact Or.inl hempty

theorem not_lineStarts_of_stops {o : Outcome} (h : o.Stops)
    (rest : List Outcome) : ¬ LineStarts [] (o :: rest) := by
  rintro (hne | ⟨b, chunk, rest', heq⟩)
  · exact hne rfl
  · rw [List.cons.injEq] at heq
    rcases h with rfl | ⟨errno, rfl⟩
    · simp at heq
    · simp at heq

theorem replicate_zero_eq_iff {lost : List UInt8} {n : ℕ}
    (h : lost.length = n) :
    List.replicate n 0 = lost ↔ ∀ b ∈ lost, b = 0 := by
  rw [eq_comm, List.eq_replicate_iff]
  exact and_iff_right h

end Bytes

/-! ## What the caller gets -/

section Call

variable {count n : ℕ} {kept kept' : Option (List UInt8)}
  {outcomes rest : List Outcome} {out : List UInt8} {ret : ℤ}

/-- The first `n` bytes of an `out_buffer` that holds `out` in front of
zeros. -/
def handedOver (count n : ℕ) (out : List UInt8) : List UInt8 :=
  (out ++ List.replicate (count - out.length) 0).take n

theorem handedOver_self (count : ℕ) (out : List UInt8) :
    handedOver count out.length out = out :=
  List.take_left' rfl

theorem length_handedOver_pos (hcount : 0 < count) (hn : 0 < n)
    (out : List UInt8) : handedOver count n out ≠ [] := by
  apply List.ne_nil_of_length_pos
  rw [handedOver, List.length_take, List.length_append, List.length_replicate]
  omega

/-- A call that returns `-n` with `EAGAIN` does not go beyond `count`. -/
theorem CallEnds.length_le (hcount : 0 < count) (hle : out.length ≤ count)
    (h : CallEnds count kept outcomes
      (.returns (-n) .eagain out kept' rest)) : n ≤ count := by
  generalize hret : (-n : ℤ) = ret at h
  cases h with
  | failed => omega
  | loop _ hends =>
      cases hends with
      | full => omega
      | cut => omega
      | nothing _ _ _ _ _ _ hbounds => omega

/-- Without a byte of the line, what is handed over is not from the stream. -/
theorem handedOver_of_stops (hcount : 0 < count) (hn : 0 < n)
    (out : List UInt8) {o : Outcome} (hstops : o.Stops)
    (rest : List Outcome) :
    ¬ handedOver count n out ++ [] ++ dataOf rest = dataOf (o :: rest) := by
  rw [hstops.dataOf_cons, List.append_nil]
  intro heq
  exact length_handedOver_pos hcount hn out (List.append_left_eq_self.mp heq)

/-- The bytes handed over, kept and still to come are the stream if and only
if none was left behind. -/
theorem CallEnds.handedOver_iff (hcount : 0 < count) (hn : 0 < n)
    (hret : ret = -n)
    (h : CallEnds count kept outcomes
      (.returns ret .eagain out kept' rest)) :
    handedOver count n out ++ kept'.getD [] ++ dataOf rest =
        kept.getD [] ++ dataOf outcomes ↔
      NothingLeftBehind count kept outcomes := by
  cases h with
  | failed errno _ hkept houtcomes =>
      subst hkept houtcomes
      refine iff_of_false ?_ ?_
      · exact handedOver_of_stops hcount hn [] (Or.inr ⟨.eagain, rfl⟩) rest
      · rintro ⟨bytes, rest', hinput, -⟩
        simp [loopInput] at hinput
  | loop hinput hends =>
      rename_i bytes input
      have hleft : NothingLeftBehind count kept outcomes ↔
          LineStarts bytes input ∧
            ∀ b ∈ lastPart [] bytes input count, b = 0 := by
        simp [NothingLeftBehind, hinput]
      rw [loopInput_bytes hinput, hleft]
      cases hends with
      | full chunks _ _ kept' hchunks houtcomes hbytes hfull =>
          obtain rfl : n = count := by omega
          rw [List.nil_append] at hbytes
          rw [List.length_append] at hfull
          have hstarts : LineStarts bytes input := by
            rw [houtcomes]
            apply lineStarts_of_bytes hchunks
            rw [hbytes]
            apply List.ne_nil_of_length_pos
            simp only [List.length_append]
            omega
          have htake : handedOver n n out =
              out ++ List.replicate (n - out.length) 0 := by
            rw [handedOver, List.take_of_length_le]
            rw [List.length_append, List.length_replicate]
            omega
          have hlost : (lastPart [] bytes input n).length = n - out.length := by
            omega
          rw [htake, Option.getD_some, houtcomes, dataOf_append, dataOf_chunks,
            ← List.append_assoc, hbytes, List.append_left_inj,
            List.append_left_inj, List.append_right_inj, ← houtcomes,
            replicate_zero_eq_iff hlost]
          exact (and_iff_right hstarts).symm
      | cut chunks o _ hchunks hstops houtcomes hbytes hopen hlost =>
          rw [List.nil_append] at hbytes hret ⊢
          have hlength : (bytes ++ chunks.flatten).length = n := by omega
          have hself : handedOver count n (bytes ++ chunks.flatten) =
              bytes ++ chunks.flatten := by
            rw [← hlength]
            exact handedOver_self _ _
          refine iff_of_true ?_ ⟨?_, ?_⟩
          · rw [hself, houtcomes, dataOf_append, dataOf_chunks,
              hstops.dataOf_cons]
            simp
          · rw [houtcomes]
            exact lineStarts_of_bytes hchunks hbytes
          · rw [hlost]
            simp
      | nothing o _ _ _ hstops houtcomes _ _ hnone =>
          rw [List.nil_append] at hnone
          subst hnone houtcomes
          refine iff_of_false ?_ ?_
          · rw [List.nil_append]
            exact handedOver_of_stops hcount hn [] hstops rest
          · rintro ⟨hstarts, -⟩
            exact not_lineStarts_of_stops hstops rest hstarts

end Call

/-- `out_buffer[0..n)` holds the bytes that the call has used up if and only
if none was left behind. -/
theorem incomplete_line_iff {pairs pairs' : List FdBufferPair} {fd : ℤ}
    {out : Memory} {count n : ℕ} {outcomes rest : List Outcome} {r : Returned}
    (hpairs : PairsOk pairs) (hfits : ∀ o ∈ outcomes, o.Fits)
    (hcount : 0 < count) (hn : 0 < n)
    (hcall : readlineTout pairs fd (some out) count outcomes =
      .returns r pairs' rest)
    (hret : r.ret = -n) (herrno : r.errno = .eagain) :
    r.out.bytes 0 n ++ (pairOf pairs' fd).buffered ++ dataOf rest =
        (pairOf pairs fd).buffered ++ dataOf outcomes ↔
      NothingLeftBehind count (pairOf pairs fd).kept outcomes := by
  obtain ⟨hstored, ret, errno, shown, kept, hshows, hends⟩ :=
    readlineTout_shows hpairs hfits hcall
  obtain rfl : ret = -n := hshows.ret.symm.trans hret
  obtain rfl : errno = .eagain := hshows.errno.symm.trans herrno
  have hpair : pairOf pairs' fd = r.pair := by
    have hstore := pairOf_storePair pairs r.pair
    rwa [hshows.fd, ← hstored] at hstore
  have hfront : r.out.bytes 0 n = handedOver count n shown := by
    rw [handedOver, ← hshows.out, Memory.take_bytes]
    exact hends.length_le hcount hshows.length_le
  rw [hpair, hshows.ok.buffered_eq, (hpairs.pairOf fd).buffered_eq,
    hshows.kept, hfront]
  exact hends.handedOver_iff hcount hn rfl

/-- The input ends behind the bytes `"ab"`. -/
theorem incomplete_line_iff_at_end :
    ∃ r pairs' rest,
      readlineTout [] 0 (some fun _ => 7) 4 [.data [97, 98], .data []] =
          .returns r pairs' rest ∧
        (r.out.bytes 0 2 ++ (pairOf pairs' 0).buffered ++ dataOf rest =
            (pairOf [] 0).buffered ++ dataOf [.data [97, 98], .data []] ↔
          NothingLeftBehind 4 (pairOf [] 0).kept
            [.data [97, 98], .data []]) := by
  have hcall : readlineTout [] 0 (some fun _ => 7) 4
      [.data [97, 98], .data []] = .returns _ _ _ := rfl
  refine ⟨_, _, _, hcall, incomplete_line_iff pairsOk_nil ?_ (by decide)
    (by decide) hcall rfl rfl⟩
  intro o ho
  simp only [List.mem_cons, List.not_mem_nil, or_false] at ho
  rcases ho with rfl | rfl <;> simp [Outcome.Fits, lBufferSize]

/-- Of `"abcdef\n"`, which comes with one read, a call with `count = 4` uses up
four bytes and hands over four zeros. -/
theorem overlong_line_lost :
    ∃ r pairs' rest,
      readlineTout [] 0 (some fun _ => 7) 4
          [.data [97, 98, 99, 100, 101, 102, 10]] = .returns r pairs' rest ∧
        r.ret = -4 ∧ r.errno = .eagain ∧
        r.out.bytes 0 4 = [0, 0, 0, 0] ∧
        (pairOf pairs' 0).buffered = [101, 102, 10] ∧
        ¬ r.out.bytes 0 4 ++ (pairOf pairs' 0).buffered ++ dataOf rest =
          (pairOf [] 0).buffered ++
            dataOf [.data [97, 98, 99, 100, 101, 102, 10]] := by
  have hcall : readlineTout [] 0 (some fun _ => 7) 4
      [.data [97, 98, 99, 100, 101, 102, 10]] = .returns _ _ _ := rfl
  exact ⟨_, _, _, hcall, by decide, by decide, by decide, by decide, by decide⟩

end Pvos.Readline
