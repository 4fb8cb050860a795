import Pvos.Readline.Bytes

/-!
# How a call of `readline_tout` ends

The line of a call is made of the bytes kept for it and of the chunks read
until it ends.  `LineEnds` lists the ways in which a call ends, with the bytes
that it used up, those that it handed over in `out_buffer`, and those that it
keeps.  Only a line that fills `count` bytes leaves bytes in neither place: the
ones that came with the last read.
-/

namespace Pvos.Readline

open Pvos.Support

/-- The bytes of the data that the outcomes bring. -/
def dataOf (outcomes : List Outcome) : List UInt8 :=
  outcomes.flatMap fun
    | .data bytes => bytes
    | _ => []

theorem dataOf_append (outcomes outcomes' : List Outcome) :
    dataOf (outcomes ++ outcomes') = dataOf outcomes ++ dataOf outcomes' :=
  List.flatMap_append

@[simp] theorem dataOf_chunks (chunks : List (List UInt8)) :
    dataOf (chunks.map .data) = chunks.flatten := by
  induction chunks with
  | nil => rfl
  | cons c chunks ih =>
      rw [List.map_cons, ← List.singleton_append, dataOf_append, ih]
      simp [dataOf]

/-- `read` returns `0` or an error. -/
def Outcome.Stops (o : Outcome) : Prop :=
  o = .data [] ∨ ∃ errno, o = .failed errno

theorem Outcome.Stops.dataOf_cons {o : Outcome} (h : o.Stops)
    (rest : List Outcome) : dataOf (o :: rest) = dataOf rest := by
  rcases h with rfl | ⟨errno, rfl⟩ <;> simp [dataOf]

/-- The bytes that stay in the inner buffer when the line is full after `todo`
more bytes: the ones behind the last read. -/
def lastPart (pending kept : List UInt8) (outcomes : List Outcome) (todo : ℕ) :
    List UInt8 :=
  if todo ≤ kept.length then pending ++ kept.take todo
  else
    match outcomes with
    | .data (b :: bytes) :: rest =>
        lastPart [] (b :: bytes) rest (todo - kept.length)
    | _ => []

/-- How a call ends that has seen the bytes `line`, keeps `kept` and has not
yet used up `outcomes`; `lost` is what stays behind when the line is full. -/
inductive LineEnds (count : ℕ) (line kept lost : List UInt8)
    (outcomes : List Outcome) : LineResult → Prop
  | waits (chunks : List (List UInt8)) (houtcomes : outcomes = chunks.map .data)
      (hopen : newline ∉ line ++ kept ++ chunks.flatten) :
      LineEnds count line kept lost outcomes .waits
  | line (chunks : List (List UInt8)) (rest : List Outcome)
      (text kept' : List UInt8) (houtcomes : outcomes = chunks.map .data ++ rest)
      (hbytes : line ++ kept ++ chunks.flatten = text ++ [newline] ++ kept')
      (htext : newline ∉ text) (hshort : text.length + 1 < count) :
      LineEnds count line kept lost outcomes
        (.returns (text.length + 1 : ℕ) .none (text ++ [newline])
          (some kept') rest)
  | full (chunks : List (List UInt8)) (rest : List Outcome)
      (front kept' : List UInt8) (hchunks : ∀ c ∈ chunks, c ≠ [])
      (houtcomes : outcomes = chunks.map .data ++ rest)
      (hbytes : line ++ kept ++ chunks.flatten = front ++ lost ++ kept')
      (hfull : (front ++ lost).length = count)
      (hopen : newline ∉ (front ++ lost).dropLast) :
      LineEnds count line kept lost outcomes
        (.returns (-count) .eagain front (some kept') rest)
  | timeout (chunks : List (List UInt8)) (rest : List Outcome)
      (houtcomes : outcomes = chunks.map .data ++ .timeout :: rest)
      (hopen : newline ∉ line ++ kept ++ chunks.flatten) :
      LineEnds count line kept lost outcomes
        (.returns (-1) .etime (line ++ kept ++ chunks.flatten) (some []) rest)
  | cut (chunks : List (List UInt8)) (o : Outcome) (rest : List Outcome)
      (hchunks : ∀ c ∈ chunks, c ≠ []) (hstops : o.Stops)
      (houtcomes : outcomes = chunks.map .data ++ o :: rest)
      (hbytes : line ++ kept ++ chunks.flatten ≠ [])
      (hopen : newline ∉ line ++ kept ++ chunks.flatten) (hlost : lost = []) :
      LineEnds count line kept lost outcomes
        (.returns (-(line ++ kept ++ chunks.flatten).length) .eagain
          (line ++ kept ++ chunks.flatten) (some []) rest)
  | nothing (o : Outcome) (rest : List Outcome) (ret : ℤ) (errno : Errno)
      (hstops : o.Stops) (houtcomes : outcomes = o :: rest)
      (hret : -1 ≤ ret ∧ ret ≤ 0) (herrno : o = .data [] → errno = .none)
      (hnone : line ++ kept = []) :
      LineEnds count line kept lost outcomes
        (.returns ret errno [] (some []) rest)

section Loop

variable {count : ℕ} {line kept lost : List UInt8} {outcomes : List Outcome}
  {result : LineResult}

/-- A byte moves from the kept ones to the line. -/
theorem LineEnds.byte {b : UInt8}
    (h : LineEnds count (line ++ [b]) kept lost outcomes result) :
    LineEnds count line (b :: kept) lost outcomes result := by
  have hmove : ∀ chunks : List (List UInt8),
      line ++ b :: kept ++ chunks.flatten =
        line ++ [b] ++ kept ++ chunks.flatten := by simp
  cases h with
  | waits chunks houtcomes hopen =>
      exact .waits chunks houtcomes (by rwa [hmove])
  | line chunks rest text kept' houtcomes hbytes htext hshort =>
      exact .line chunks rest text kept' houtcomes (by rwa [hmove]) htext hshort
  | full chunks rest front kept' hchunks houtcomes hbytes hfull hopen =>
      exact .full chunks rest front kept' hchunks houtcomes (by rwa [hmove])
        hfull hopen
  | timeout chunks rest houtcomes hopen =>
      rw [← hmove] at hopen ⊢
      exact .timeout chunks rest houtcomes hopen
  | cut chunks o rest hchunks hstops houtcomes hbytes hopen hlost =>
      rw [← hmove] at hbytes hopen ⊢
      exact .cut chunks o rest hchunks hstops houtcomes hbytes hopen hlost
  | nothing o rest ret errno hstops houtcomes hret herrno hnone =>
      simp at hnone

/-- A chunk is read when nothing is kept. -/
theorem LineEnds.read {b : UInt8} {bytes : List UInt8}
    (h : LineEnds count line (b :: bytes) lost outcomes result) :
    LineEnds count line [] lost (.data (b :: bytes) :: outcomes) result := by
  have hmove : ∀ chunks : List (List UInt8),
      line ++ b :: bytes ++ chunks.flatten =
        line ++ [] ++ ((b :: bytes) :: chunks).flatten := by simp
  have hall : ∀ chunks : List (List UInt8), (∀ c ∈ chunks, c ≠ []) →
      ∀ c ∈ (b :: bytes) :: chunks, c ≠ [] := by
    intro chunks hchunks c hc
    rcases List.mem_cons.mp hc with rfl | hc
    · simp
    · exact hchunks c hc
  cases h with
  | waits chunks houtcomes hopen =>
      rw [hmove] at hopen
      exact .waits _ (by rw [houtcomes, List.map_cons]) hopen
  | line chunks rest text kept' houtcomes hbytes htext hshort =>
      rw [hmove] at hbytes
      exact .line _ rest text kept' (by simp [houtcomes]) hbytes htext hshort
  | full chunks rest front kept' hchunks houtcomes hbytes hfull hopen =>
      rw [hmove] at hbytes
      exact .full _ rest front kept' (hall chunks hchunks)
        (by simp [houtcomes]) hbytes hfull hopen
  | timeout chunks rest houtcomes hopen =>
      rw [hmove] at hopen ⊢
      exact .timeout _ rest (by simp [houtcomes]) hopen
  | cut chunks o rest hchunks hstops houtcomes hbytes hopen hlost =>
      rw [hmove] at hbytes hopen ⊢
      exact .cut _ o rest (hall chunks hchunks) hstops (by simp [houtcomes])
        hbytes hopen hlost
  | nothing o rest ret errno hstops houtcomes hret herrno hnone =>
      simp at hnone

/-- A full line leaves its pending bytes behind. -/
theorem lineFinish_full {copied pending : List UInt8}
    (hfull : (copied ++ pending).length = count)
    (hopen : newline ∉ (copied ++ pending).dropLast) (hlost : lost = pending) :
    LineEnds count (copied ++ pending) kept lost outcomes
      (lineFinish count copied pending kept outcomes) := by
  subst hlost
  rw [List.length_append] at hfull
  unfold lineFinish
  simp only [hfull, Nat.le_refl, if_true]
  exact .full [] outcomes copied kept (by simp) rfl (by simp) (by simpa) hopen

/-- The statements behind the loop, at a newline. -/
theorem lineFinish_newline (text : List UInt8) {copied pending : List UInt8}
    (hline : copied ++ pending = text ++ [newline]) (htext : newline ∉ text)
    (hle : (copied ++ pending).length ≤ count)
    (hlost : (copied ++ pending).length = count → lost = pending) :
    LineEnds count (copied ++ pending) kept lost outcomes
      (lineFinish count copied pending kept outcomes) := by
  rcases Nat.lt_or_eq_of_le hle with hlt | hfull
  · have hlength : copied.length + pending.length = text.length + 1 := by
      rw [← List.length_append, hline]
      simp
    rw [List.length_append] at hlt
    unfold lineFinish
    simp only
    rw [if_neg (Nat.not_le.mpr hlt), hlength, hline]
    exact .line [] outcomes text kept rfl (by simp) htext (by omega)
  · refine lineFinish_full hfull ?_ (hlost hfull)
    rwa [hline, List.dropLast_concat]

theorem lastPart_byte (pending kept : List UInt8) (b : UInt8)
    (outcomes : List Outcome) (todo : ℕ) :
    lastPart pending (b :: kept) outcomes (todo + 1) =
      lastPart (pending ++ [b]) kept outcomes todo := by
  unfold lastPart
  simp only [List.length_cons, Nat.add_le_add_iff_right, List.take_succ_cons,
    List.append_assoc, List.singleton_append, Nat.add_sub_add_right]

theorem lastPart_read (pending : List UInt8) (b : UInt8) (bytes : List UInt8)
    (outcomes : List Outcome) (todo : ℕ) :
    lastPart pending [] (.data (b :: bytes) :: outcomes) (todo + 1) =
      lastPart [] (b :: bytes) outcomes (todo + 1) := by
  conv_lhs => unfold lastPart
  simp

theorem lastPart_stop (pending : List UInt8) {o : Outcome} (h : o.Stops)
    (outcomes : List Outcome) (todo : ℕ) :
    lastPart pending [] (o :: outcomes) (todo + 1) = [] := by
  unfold lastPart
  rcases h with rfl | ⟨errno, rfl⟩ <;> simp

theorem lastPart_zero (pending kept : List UInt8) (outcomes : List Outcome) :
    lastPart pending kept outcomes 0 = pending := by
  unfold lastPart
  simp

theorem timeout_ends (hopen : newline ∉ line) :
    LineEnds count line [] lost (.timeout :: outcomes)
      (.returns (-1) .etime line (some []) outcomes) := by
  have hends : LineEnds count line [] lost (.timeout :: outcomes)
      (.returns (-1) .etime (line ++ [] ++ [].flatten) (some []) outcomes) :=
    .timeout [] outcomes rfl (by simpa)
  simpa using hends

theorem lineStop_ends {o : Outcome} (hstops : o.Stops)
    (hopen : newline ∉ line) (hlost : lost = []) {ret : ℤ} (hret : -1 ≤ ret ∧ ret ≤ 0)
    {errno : Errno} (herrno : o = .data [] → errno = .none) :
    LineEnds count line [] lost (o :: outcomes)
      (lineStop line ret errno outcomes) := by
  unfold lineStop
  split
  next hpos =>
    have hne : line ≠ [] := List.ne_nil_of_length_pos hpos
    have hends : LineEnds count line [] lost (o :: outcomes)
        (.returns (-(line ++ [] ++ [].flatten).length) .eagain
          (line ++ [] ++ [].flatten) (some []) outcomes) :=
      .cut [] o outcomes (by simp) hstops rfl (by simpa) (by simpa) hlost
    simpa using hends
  next hzero =>
    obtain rfl : line = [] := List.eq_nil_of_length_eq_zero (by omega)
    exact .nothing o outcomes ret errno hstops rfl hret herrno rfl

/-- The loop ends in one of the ways listed. -/
theorem lineLoop_ends (todo : ℕ) {copied pending kept : List UInt8}
    {outcomes : List Outcome}
    (htodo : (copied ++ pending).length + todo = count)
    (hopen : newline ∉ copied ++ pending) :
    LineEnds count (copied ++ pending) kept (lastPart pending kept outcomes todo)
      outcomes (lineLoop count todo copied pending kept outcomes) := by
  induction todo generalizing copied pending kept outcomes with
  | zero =>
      rw [lineLoop]
      exact lineFinish_full htodo
        (fun hmem => hopen (List.dropLast_subset _ hmem)) (lastPart_zero _ _ _)
  | succ todo ih =>
      -- the byte `b` is the next one of the line
      have hbyte : ∀ (copied pending : List UInt8) (b : UInt8)
          (kept : List UInt8) (outcomes : List Outcome),
          (copied ++ pending).length + (todo + 1) = count →
          newline ∉ copied ++ pending →
          LineEnds count (copied ++ pending) (b :: kept)
            (lastPart pending (b :: kept) outcomes (todo + 1)) outcomes
            (if b = newline then
              lineFinish count copied (pending ++ [b]) kept outcomes
            else lineLoop count todo copied (pending ++ [b]) kept outcomes) := by
        intro copied pending b kept outcomes htodo hopen
        have hlength : (copied ++ (pending ++ [b])).length + todo = count := by
          rw [← htodo]
          simp only [List.length_append, List.length_singleton]
          omega
        apply LineEnds.byte
        rw [lastPart_byte, List.append_assoc]
        split
        next hb =>
          refine lineFinish_newline (copied ++ pending) ?_ hopen
            (by omega) fun hfull => ?_
          · rw [hb, List.append_assoc]
          · obtain rfl : todo = 0 := by omega
            exact lastPart_zero _ _ _
        next hb =>
          apply ih hlength
          rw [← List.append_assoc, List.mem_append, List.mem_singleton, not_or]
          exact ⟨hopen, Ne.symm hb⟩
      cases kept with
      | cons b kept => exact hbyte copied pending b kept outcomes htodo hopen
      | nil =>
          cases outcomes with
          | nil => exact .waits [] rfl (by simpa using hopen)
          | cons o rest =>
              cases o with
              | timeout =>
                  exact timeout_ends hopen
              | failed errno =>
                  exact lineStop_ends (Or.inr ⟨errno, rfl⟩) hopen
                    (lastPart_stop _ (Or.inr ⟨errno, rfl⟩) _ _) (by decide)
                    (by simp)
              | data bytes =>
                  cases bytes with
                  | nil =>
                      exact lineStop_ends (Or.inl rfl) hopen
                        (lastPart_stop _ (Or.inl rfl) _ _) (by decide)
                        (fun _ => rfl)
                  | cons b bytes =>
                      apply LineEnds.read
                      rw [lastPart_read]
                      have hnext := hbyte (copied ++ pending) [] b bytes rest
                        (by simpa using htodo) (by simpa using hopen)
                      rw [List.append_nil] at hnext
                      exact hnext

/-- The outcomes left are the last ones. -/
theorem LineEnds.suffix {ret : ℤ} {errno : Errno} {out : List UInt8}
    {kept' : Option (List UInt8)} {rest : List Outcome}
    (h : LineEnds count line kept lost outcomes
      (.returns ret errno out kept' rest)) : rest <:+ outcomes := by
  cases h with
  | line chunks _ _ _ houtcomes => exact ⟨chunks.map .data, houtcomes.symm⟩
  | full chunks _ _ _ _ houtcomes => exact ⟨chunks.map .data, houtcomes.symm⟩
  | timeout chunks _ houtcomes =>
      exact ⟨chunks.map .data ++ [.timeout], by simp [houtcomes]⟩
  | cut chunks o _ _ _ houtcomes =>
      exact ⟨chunks.map .data ++ [o], by simp [houtcomes]⟩
  | nothing o _ _ _ _ houtcomes => exact ⟨[o], by simp [houtcomes]⟩

end Loop

/-! ## The call -/

/-- The bytes kept and the outcomes with which a call enters its loop, if the
first read of a descriptor lets it do so. -/
def loopInput : Option (List UInt8) → List Outcome →
    Option (List UInt8 × List Outcome)
  | some bytes, outcomes => some (bytes, outcomes)
  | none, .data bytes :: rest => some (bytes, rest)
  | none, _ => none

/-- How a call ends: in its loop, or at the first read of the descriptor. -/
inductive CallEnds (count : ℕ) (kept : Option (List UInt8))
    (outcomes : List Outcome) : LineResult → Prop
  | loop {bytes : List UInt8} {rest : List Outcome} {result : LineResult}
      (hinput : loopInput kept outcomes = some (bytes, rest))
      (hends : LineEnds count [] bytes (lastPart [] bytes rest count) rest
        result) : CallEnds count kept outcomes result
  | waits (hkept : kept = none) (houtcomes : outcomes = []) :
      CallEnds count kept outcomes .waits
  | timeout (rest : List Outcome) (hkept : kept = none)
      (houtcomes : outcomes = .timeout :: rest) :
      CallEnds count kept outcomes (.returns (-1) .etime [] none rest)
  | failed (errno : Errno) (rest : List Outcome) (hkept : kept = none)
      (houtcomes : outcomes = .failed errno :: rest) :
      CallEnds count kept outcomes (.returns (-1) errno [] none rest)

theorem lineCall_ends (count : ℕ) (kept : Option (List UInt8))
    (outcomes : List Outcome) :
    CallEnds count kept outcomes (lineCall count kept outcomes) := by
  have hloop : ∀ (bytes : List UInt8) (rest : List Outcome),
      LineEnds count [] bytes (lastPart [] bytes rest count) rest
        (lineLoop count count [] [] bytes rest) := by
    intro bytes rest
    have hopen : newline ∉ ([] ++ [] : List UInt8) := by simp
    exact lineLoop_ends count (by simp) hopen
  cases kept with
  | some bytes => exact .loop rfl (hloop bytes outcomes)
  | none =>
      cases outcomes with
      | nil => exact .waits rfl rfl
      | cons o rest =>
          cases o with
          | timeout => exact .timeout rest rfl rfl
          | failed errno => exact .failed errno rest rfl rfl
          | data bytes => exact .loop rfl (hloop bytes rest)

theorem loopInput_suffix {kept : Option (List UInt8)} {bytes : List UInt8}
    {outcomes rest : List Outcome}
    (h : loopInput kept outcomes = some (bytes, rest)) : rest <:+ outcomes := by
  cases kept with
  | some bytes' =>
      simp only [loopInput, Option.some.injEq, Prod.mk.injEq] at h
      exact h.2 ▸ List.suffix_refl outcomes
  | none =>
      cases outcomes with
      | nil => simp [loopInput] at h
      | cons o outcomes =>
          cases o with
          | data bytes' =>
              simp only [loopInput, Option.some.injEq, Prod.mk.injEq] at h
              exact h.2 ▸ List.suffix_cons _ _
          | _ => simp [loopInput] at h

theorem CallEnds.suffix {count : ℕ} {kept kept' : Option (List UInt8)}
    {outcomes rest : List Outcome} {ret : ℤ} {errno : Errno}
    {out : List UInt8}
    (h : CallEnds count kept outcomes (.returns ret errno out kept' rest)) :
    rest <:+ outcomes := by
  cases h with
  | loop hinput hends => exact hends.suffix.trans (loopInput_suffix hinput)
  | timeout _ _ houtcomes => exact houtcomes ▸ List.suffix_cons _ _
  | failed _ _ _ houtcomes => exact houtcomes ▸ List.suffix_cons _ _

end Pvos.Readline
