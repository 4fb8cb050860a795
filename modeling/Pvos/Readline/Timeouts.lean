import Pvos.Readline.Descriptors
import Pvos.Support.CString
import Pvos.Support.System

/-!
# Timeouts of `readline_tout`

`main` of `readline/main.cpp` calls `readline_tout` again after every timeout.
A timeout before the first byte of a line changes nothing.  A timeout inside a
line comes after the bytes read so far were moved to `out_buffer`; the next call
zeroes them.

Every step of the loop uses up some outcomes and some bytes of the stream;
`MainEffect` says which, and what became of these bytes.
-/

namespace Pvos.Readline

open Pvos.Support

/-! ## The loop of `main` -/

/-- The static list, the buffer `line`, and the outcomes still to come. -/
structure MainState where
  pairs : List FdBufferPair
  line : Memory
  outcomes : List Outcome

/-- What `main` prints: `Timeouted`, the line of a call with `EAGAIN`, or the
bytes that a successful call returned. -/
inductive MainEvent
  | timeouted
  | incomplete (text : Text)
  | line (bytes : List UInt8)

/-- What is printed for a call that returned `r`, if the loop goes on. -/
def mainEvents (count : ℕ) (r : Returned) : Option (List MainEvent) :=
  if r.ret ≤ 0 then
    if r.errno = .etime then some [.timeouted]
    else if r.errno = .eagain then some [.incomplete (r.out.cstring count 0)]
    else none
  else some [.line (r.out.bytes 0 r.ret.toNat)]

/-- One round of the loop. -/
def mainStep (fd : ℤ) (count : ℕ) (s : MainState) :
    Option (MainState × List MainEvent) :=
  match readlineTout s.pairs fd (some s.line) count s.outcomes with
  | .returns r pairs rest =>
      (mainEvents count r).map fun es => (⟨pairs, r.out, rest⟩, es)
  | _ => none

/-- The loop with an empty static list, whatever the buffer holds. -/
def mainSystem (fd : ℤ) (count : ℕ) (outcomes : List Outcome) :
    System MainState MainEvent where
  init s := s.pairs = [] ∧ s.outcomes = outcomes
  step s es s' := mainStep fd count s = some (s', es)

/-- The lines that the successful calls returned. -/
def returnedLines (tr : List MainEvent) : List (List UInt8) :=
  tr.filterMap fun
    | .line bytes => some bytes
    | _ => none

theorem returnedLines_append (tr tr' : List MainEvent) :
    returnedLines (tr ++ tr') = returnedLines tr ++ returnedLines tr' :=
  List.filterMap_append

/-- The bytes kept for the next call on `fd`. -/
def MainState.kept (fd : ℤ) (s : MainState) : List UInt8 :=
  (pairOf s.pairs fd).buffered

/-! ## What one call does -/

/-- Timeouts and chunks that fit into the inner buffer; where the input has
ended nothing else comes. -/
structure Flows (outcomes : List Outcome) : Prop where
  arrives : ∀ o ∈ outcomes, o = .timeout ∨
    ∃ bytes, o = .data bytes ∧ bytes.length ≤ lBufferSize
  ends : ∀ before after, outcomes = before ++ .data [] :: after →
    ∀ o ∈ after, o = .data []

theorem Flows.fits {outcomes : List Outcome} (h : Flows outcomes) :
    ∀ o ∈ outcomes, o.Fits := by
  intro o ho
  rcases h.arrives o ho with rfl | ⟨bytes, rfl, hle⟩
  · trivial
  · exact hle

/-- No `read` fails. -/
theorem Flows.stops {outcomes : List Outcome} (h : Flows outcomes)
    {o : Outcome} (ho : o ∈ outcomes) (hstops : o.Stops) : o = .data [] := by
  rcases hstops with heq | ⟨errno, heq⟩
  · exact heq
  · rcases h.arrives o ho with htimeout | ⟨bytes, hdata, -⟩
    · simp [heq] at htimeout
    · simp [heq] at hdata

theorem Flows.rest {outcomes used rest : List Outcome} (h : Flows outcomes)
    (hused : outcomes = used ++ rest) : Flows rest := by
  refine ⟨fun o ho => h.arrives o ?_, fun before after heq => ?_⟩
  · exact hused ▸ List.mem_append_right _ ho
  · exact h.ends (used ++ before) after (by rw [hused, heq, List.append_assoc])

/-- From the end of the input on there are no bytes. -/
theorem Flows.dataOf_end {outcomes before after : List Outcome}
    (h : Flows outcomes) (heq : outcomes = before ++ .data [] :: after) :
    dataOf (.data [] :: after) = [] := by
  rw [dataOf, List.flatMap_eq_nil_iff]
  intro o ho
  rcases List.mem_cons.mp ho with rfl | hafter
  · rfl
  · rw [h.ends before after heq o hafter]

theorem Flows.timeout_notMem_end {outcomes before after : List Outcome}
    (h : Flows outcomes) (heq : outcomes = before ++ .data [] :: after) :
    .timeout ∉ Outcome.data [] :: after := by
  intro hmem
  rcases List.mem_cons.mp hmem with hdata | hafter
  · simp at hdata
  · have hdata := h.ends before after heq _ hafter
    simp at hdata

/-- The outcomes `used` turn the bytes `kept` into `kept'`: a line is returned,
the bytes in front of a timeout are gone, a full line is, or the input has
ended inside a line. -/
inductive MainEffect (count : ℕ) (kept : List UInt8) (used : List Outcome)
    (kept' : List UInt8) : List MainEvent → Prop
  | line (chunks : List (List UInt8)) (text : List UInt8)
      (hused : used = chunks.map .data)
      (hbytes : kept ++ chunks.flatten = text ++ [newline] ++ kept')
      (htext : newline ∉ text) :
      MainEffect count kept used kept' [.line (text ++ [newline])]
  | timeout (chunks : List (List UInt8))
      (hused : used = chunks.map .data ++ [.timeout])
      (hopen : newline ∉ kept ++ chunks.flatten) (hkept : kept' = []) :
      MainEffect count kept used kept' [.timeouted]
  | full (chunks : List (List UInt8)) (part : List UInt8) (text : Text)
      (hused : used = chunks.map .data)
      (hbytes : kept ++ chunks.flatten = part ++ kept')
      (hlength : part.length = count) (hopen : newline ∉ part.dropLast) :
      MainEffect count kept used kept' [.incomplete text]
  | ended (chunks : List (List UInt8)) (text : Text)
      (hused : used = chunks.map .data ++ [.data []])
      (hbytes : kept ++ chunks.flatten ≠ [])
      (hopen : newline ∉ kept ++ chunks.flatten) (hkept : kept' = []) :
      MainEffect count kept used kept' [.incomplete text]

section Step

variable {fd : ℤ} {count : ℕ} {s s' : MainState} {es : List MainEvent}

/-- The first chunk of a descriptor is read before the loop. -/
theorem loopInput_used {kept : Option (List UInt8)} {bytes : List UInt8}
    {outcomes rest : List Outcome}
    (h : loopInput kept outcomes = some (bytes, rest)) :
    ∃ first : List (List UInt8), outcomes = first.map .data ++ rest ∧
      bytes = kept.getD [] ++ first.flatten := by
  cases kept with
  | some bytes' =>
      simp only [loopInput, Option.some.injEq, Prod.mk.injEq] at h
      exact ⟨[], h.2, by simp [h.1]⟩
  | none =>
      cases outcomes with
      | nil => simp [loopInput] at h
      | cons o outcomes =>
          cases o with
          | data bytes' =>
              simp only [loopInput, Option.some.injEq, Prod.mk.injEq] at h
              exact ⟨[bytes'], by simp [h.2], by simp [h.1]⟩
          | _ => simp [loopInput] at h

end Step

section Call

variable {count : ℕ} {fd : ℤ} {r : Returned} {kept kept' : Option (List UInt8)}
  {outcomes rest : List Outcome} {ret : ℤ} {errno : Errno} {out : List UInt8}

theorem mainEvents_line (h : Shows count fd r ret errno out kept)
    (hret : ret = out.length) (hpos : 0 < out.length) :
    mainEvents count r = some [.line out] := by
  have hlength : r.ret = out.length := h.ret.trans hret
  have hout : r.out.bytes 0 out.length = out := by
    rw [← Memory.take_bytes r.out 0 h.length_le, h.out]
    exact List.take_left' rfl
  have hgoes : ¬ r.ret ≤ 0 := by omega
  rw [mainEvents, if_neg hgoes, hlength, Int.toNat_natCast, hout]

theorem mainEvents_timeout (h : Shows count fd r (-1) .etime out kept) :
    mainEvents count r = some [.timeouted] := by
  have hret : r.ret ≤ 0 := by rw [h.ret]; decide
  rw [mainEvents, if_pos hret, if_pos h.errno]

theorem mainEvents_incomplete {n : ℕ}
    (h : Shows count fd r (-n) .eagain out kept) :
    mainEvents count r = some [.incomplete (r.out.cstring count 0)] := by
  have hret : r.ret ≤ 0 := by rw [h.ret]; omega
  have herrno : r.errno ≠ .etime := by rw [h.errno]; decide
  rw [mainEvents, if_pos hret, if_neg herrno, if_pos h.errno]

theorem mainEvents_nothing (h : Shows count fd r ret .none out kept)
    (hle : ret ≤ 0) : mainEvents count r = none := by
  have hret : r.ret ≤ 0 := h.ret.trans_le hle
  have herrno : r.errno ≠ .etime ∧ r.errno ≠ .eagain := by
    rw [h.errno]
    decide
  rw [mainEvents, if_pos hret, if_neg herrno.1, if_neg herrno.2]

/-- Chunks read in front of the outcomes used. -/
theorem MainEffect.first {kept kept' : List UInt8} {used : List Outcome}
    {es : List MainEvent} (first : List (List UInt8))
    (h : MainEffect count (kept ++ first.flatten) used kept' es) :
    MainEffect count kept (first.map .data ++ used) kept' es := by
  have hmove : ∀ chunks : List (List UInt8),
      kept ++ first.flatten ++ chunks.flatten =
        kept ++ (first ++ chunks).flatten := by simp
  cases h with
  | line chunks text hused hbytes htext =>
      rw [hmove] at hbytes
      exact .line _ text (by simp [hused]) hbytes htext
  | timeout chunks hused hopen hkept =>
      rw [hmove] at hopen
      exact .timeout _ (by simp [hused]) hopen hkept
  | full chunks part text hused hbytes hlength hopen =>
      rw [hmove] at hbytes
      exact .full _ part text (by simp [hused]) hbytes hlength hopen
  | ended chunks text hused hbytes hopen hkept =>
      rw [hmove] at hbytes hopen
      exact .ended _ text (by simp [hused]) hbytes hopen hkept

/-- The input has ended, or the loop has an effect. -/
theorem LineEnds.effect {bytes lost : List UInt8} (hflows : Flows outcomes)
    (hshows : Shows count fd r ret errno out kept')
    (h : LineEnds count [] bytes lost outcomes
      (.returns ret errno out kept' rest)) :
    (∃ es used, mainEvents count r = some es ∧ outcomes = used ++ rest ∧
      MainEffect count bytes used (kept'.getD []) es) ∨
    (mainEvents count r = none ∧ bytes = [] ∧
      outcomes = .data [] :: rest) := by
  cases h with
  | line chunks _ text kept' houtcomes hbytes htext hshort =>
      left
      refine ⟨_, _, mainEvents_line hshows (by simp) (by simp), houtcomes, ?_⟩
      exact .line chunks text rfl hbytes htext
  | full chunks _ front kept' hchunks houtcomes hbytes hfull hopen =>
      left
      refine ⟨_, _, mainEvents_incomplete hshows, houtcomes, ?_⟩
      exact .full chunks _ _ rfl hbytes hfull hopen
  | timeout chunks _ houtcomes hopen =>
      left
      have hused : outcomes = chunks.map .data ++ [.timeout] ++ rest := by
        simp [houtcomes]
      refine ⟨_, _, mainEvents_timeout hshows, hused, ?_⟩
      exact .timeout chunks rfl hopen rfl
  | cut chunks o _ hchunks hstops houtcomes hbytes hopen hlost =>
      left
      obtain rfl : o = .data [] := hflows.stops (by simp [houtcomes]) hstops
      have hused : outcomes = chunks.map .data ++ [.data []] ++ rest := by
        simp [houtcomes]
      refine ⟨_, _, mainEvents_incomplete hshows, hused, ?_⟩
      exact .ended chunks _ rfl hbytes hopen rfl
  | nothing o _ _ _ hstops houtcomes hret herrno hnone =>
      right
      obtain rfl : o = .data [] := hflows.stops (by simp [houtcomes]) hstops
      obtain rfl := herrno rfl
      exact ⟨mainEvents_nothing hshows hret.2, hnone, houtcomes⟩

/-- A call that returns has an effect, or the input has ended. -/
theorem CallEnds.effect (hflows : Flows outcomes)
    (hshows : Shows count fd r ret errno out kept')
    (h : CallEnds count kept outcomes (.returns ret errno out kept' rest)) :
    (∃ es used, mainEvents count r = some es ∧ outcomes = used ++ rest ∧
      MainEffect count (kept.getD []) used (kept'.getD []) es) ∨
    (mainEvents count r = none ∧ newline ∉ kept.getD [] ++ dataOf outcomes ∧
      .timeout ∉ outcomes) := by
  cases h with
  | loop hinput hends =>
      obtain ⟨first, rfl, rfl⟩ := loopInput_used hinput
      rcases hends.effect (hflows.rest rfl) hshows with
        ⟨es, used, hes, rfl, heffect⟩ | ⟨hnone, hbytes, rfl⟩
      · left
        exact ⟨es, _, hes, (List.append_assoc _ _ _).symm, heffect.first first⟩
      · right
        refine ⟨hnone, ?_, ?_⟩
        · rw [dataOf_append, dataOf_chunks, ← List.append_assoc, hbytes,
            hflows.dataOf_end rfl]
          simp
        · rw [List.mem_append, not_or]
          exact ⟨by simp, hflows.timeout_notMem_end rfl⟩
  | timeout _ hkept houtcomes =>
      left
      exact ⟨_, [.timeout], mainEvents_timeout hshows, houtcomes,
        .timeout [] rfl (by simp [hkept]) rfl⟩
  | failed errno' _ hkept houtcomes =>
      have hdata := hflows.stops (by rw [houtcomes]; exact List.mem_cons_self)
        (Or.inr ⟨_, rfl⟩)
      simp at hdata

end Call

section Step

variable {fd : ℤ} {count : ℕ} {s s' : MainState} {es : List MainEvent}

/-- What one round makes of the bytes kept and of the outcomes. -/
theorem mainStep_effect (hpairs : PairsOk s.pairs) (hflows : Flows s.outcomes)
    (h : mainStep fd count s = some (s', es)) :
    PairsOk s'.pairs ∧ ∃ used, s.outcomes = used ++ s'.outcomes ∧
      MainEffect count (s.kept fd) used (s'.kept fd) es := by
  unfold mainStep at h
  split at h
  next r pairs rest hcall =>
    simp only [Option.map_eq_some_iff, Prod.mk.injEq] at h
    obtain ⟨es', hes, rfl, rfl⟩ := h
    obtain ⟨rfl, ret, errno, shown, kept, hshows, hends⟩ :=
      readlineTout_shows hpairs hflows.fits hcall
    have hpairs' := hpairs.storePair hshows.ok
    refine ⟨hpairs', ?_⟩
    have hkept : (pairOf (storePair s.pairs r.pair) fd).buffered =
        kept.getD [] := by
      rw [← hshows.fd, pairOf_storePair, hshows.ok.buffered_eq, hshows.kept]
    rcases hends.effect hflows hshows with
      ⟨es, used, hes', hused, heffect⟩ | ⟨hnone, -⟩
    · obtain rfl : es' = es := Option.some.inj (hes.symm.trans hes')
      refine ⟨used, hused, ?_⟩
      rw [MainState.kept, MainState.kept, hkept, (hpairs.pairOf fd).buffered_eq]
      exact heffect
    · simp [hnone] at hes
  next => simp at h

/-- Where the loop does not go on, no line and no timeout is left. -/
theorem mainStep_none (hpairs : PairsOk s.pairs) (hflows : Flows s.outcomes)
    (h : mainStep fd count s = none) :
    newline ∉ s.kept fd ++ dataOf s.outcomes ∧ .timeout ∉ s.outcomes := by
  rw [MainState.kept, (hpairs.pairOf fd).buffered_eq]
  unfold mainStep at h
  split at h
  next r pairs rest hcall =>
    rw [Option.map_eq_none_iff] at h
    obtain ⟨-, ret, errno, shown, kept, hshows, hends⟩ :=
      readlineTout_shows hpairs hflows.fits hcall
    rcases hends.effect hflows hshows with ⟨es, used, hes, -⟩ | ⟨-, hleft⟩
    · simp [h] at hes
    · exact hleft
  next hcall =>
    have hends := readlineTout_waits hpairs hflows.fits hcall
    cases hends with
    | waits hkept houtcomes => simp [hkept, houtcomes, dataOf]
    | loop hinput hends =>
        obtain ⟨first, hfirst, rfl⟩ := loopInput_used hinput
        cases hends with
        | waits chunks hchunks hopen =>
            rw [hfirst, hchunks]
            simpa [dataOf_append] using hopen

/-- What a state has still to deal with. -/
def MainState.left (fd : ℤ) (s : MainState) : ℕ :=
  (s.kept fd ++ dataOf s.outcomes).length + s.outcomes.length

/-- Every round uses up something. -/
theorem MainEffect.left_lt {used : List Outcome} (hcount : 0 < count)
    (hused : s.outcomes = used ++ s'.outcomes)
    (h : MainEffect count (s.kept fd) used (s'.kept fd) es) :
    s'.left fd < s.left fd := by
  unfold MainState.left
  rw [hused, dataOf_append]
  cases h with
  | line chunks text hchunks hbytes htext =>
      have hlength := congrArg List.length hbytes
      simp only [hchunks, dataOf_chunks, List.length_append, List.length_map,
        List.length_singleton] at hlength ⊢
      omega
  | timeout chunks hchunks hopen hkept =>
      simp only [hchunks, hkept, List.length_append, List.length_map,
        List.length_singleton, List.length_nil]
      omega
  | full chunks part text hchunks hbytes hlength' hopen =>
      have hlength := congrArg List.length hbytes
      simp only [hchunks, dataOf_chunks, List.length_append, List.length_map]
        at hlength ⊢
      omega
  | ended chunks text hchunks hbytes hopen hkept =>
      simp only [hchunks, hkept, List.length_append, List.length_map,
        List.length_singleton, List.length_nil]
      omega

end Step

/-! ## Timeouts between the lines -/

/-- No byte, or the last one is a newline. -/
def EndsLine (bytes : List UInt8) : Prop :=
  bytes = [] ∨ ∃ text, bytes = text ++ [newline]

/-- Every timeout comes in front of the first byte of a line. -/
def TimeoutsBetweenLines (outcomes : List Outcome) : Prop :=
  ∀ before after, outcomes = before ++ .timeout :: after →
    EndsLine (dataOf before)

/-- A stream of lines shorter than `count`, and a last one that has no newline
yet.  `ended` leaves out an end of file behind such an unfinished line. -/
structure Streams (count : ℕ) (outcomes : List Outcome)
    (lines : List (List UInt8)) (tail : List UInt8) : Prop where
  flows : Flows outcomes
  bytes : dataOf outcomes = lines.flatten ++ tail
  line_ok : ∀ line ∈ lines, IsLine line ∧ line.length < count
  tail_ok : newline ∉ tail ∧ tail.length < count
  ended : .data [] ∈ outcomes → tail = []

/-- The calls of `main` return the lines one after another, and in every state
the bytes not yet returned are kept or still to come. -/
structure LosesNothing (fd : ℤ) (count : ℕ) (outcomes : List Outcome)
    (lines : List (List UInt8)) : Prop where
  kept : ∀ tr s, (mainSystem fd count outcomes).Exec tr s →
    (returnedLines tr).flatten ++ s.kept fd ++ dataOf s.outcomes =
      dataOf outcomes
  inOrder : ∀ tr s, (mainSystem fd count outcomes).Exec tr s →
    returnedLines tr <+: lines
  all : ∀ tr s, (mainSystem fd count outcomes).Exec tr s →
    ∃ tr' s', (mainSystem fd count outcomes).Run s tr' s' ∧
      returnedLines (tr ++ tr') = lines

section Stream

variable {fd : ℤ} {count : ℕ} {outcomes : List Outcome}
  {lines : List (List UInt8)} {tail : List UInt8} {tr es : List MainEvent}
  {s s' : MainState}

theorem EndsLine.append {bytes bytes' : List UInt8} (h : EndsLine bytes)
    (h' : EndsLine bytes') : EndsLine (bytes ++ bytes') := by
  rcases h' with rfl | ⟨text, rfl⟩
  · rwa [List.append_nil]
  · exact Or.inr ⟨bytes ++ text, (List.append_assoc _ _ _).symm⟩

theorem EndsLine.eq_nil {bytes rest : List UInt8}
    (h : EndsLine (bytes ++ rest)) (hopen : newline ∉ rest) : rest = [] := by
  rcases List.eq_nil_or_concat' rest with hnil | ⟨front, b, rfl⟩
  · exact hnil
  · rcases h with hnil | ⟨text, htext⟩
    · simp at hnil
    · rw [← List.append_assoc] at htext
      have hb := (List.append_inj' htext rfl).2
      simp [List.singleton_inj.mp hb] at hopen

theorem endsLine_flatten (h : ∀ line ∈ lines, IsLine line) :
    EndsLine lines.flatten := by
  induction lines with
  | nil => exact Or.inl rfl
  | cons line lines ih =>
      obtain ⟨text, -, rfl⟩ := h line List.mem_cons_self
      have hfirst : EndsLine (text ++ [newline]) := Or.inr ⟨text, rfl⟩
      exact hfirst.append (ih fun l hl => h l (List.mem_cons_of_mem _ hl))

/-- What holds in every state, with or without timeouts. -/
structure MainInv (outcomes : List Outcome) (tr : List MainEvent)
    (s : MainState) : Prop where
  pairs : PairsOk s.pairs
  flows : Flows s.outcomes
  returned : EndsLine (returnedLines tr).flatten
  used : ∃ used, outcomes = used ++ s.outcomes

theorem MainInv.init (hflows : Flows outcomes)
    (h : (mainSystem fd count outcomes).init s) : MainInv outcomes [] s := by
  obtain ⟨hpairs, rfl⟩ := h
  exact ⟨hpairs ▸ pairsOk_nil, hflows, Or.inl rfl, [], rfl⟩

theorem MainInv.step (h : MainInv outcomes tr s)
    (hstep : mainStep fd count s = some (s', es)) :
    MainInv outcomes (tr ++ es) s' := by
  obtain ⟨hpairs, used, hused, heffect⟩ := mainStep_effect h.pairs h.flows hstep
  obtain ⟨before, hbefore⟩ := h.used
  have hrest : outcomes = before ++ used ++ s'.outcomes := by
    rw [hbefore, hused, List.append_assoc]
  refine ⟨hpairs, h.flows.rest hused, ?_, _, hrest⟩
  rw [returnedLines_append, List.flatten_append]
  refine h.returned.append ?_
  cases heffect with
  | line chunks text => exact Or.inr ⟨text, by simp [returnedLines]⟩
  | _ => exact Or.inl rfl

theorem mainInv_exec (hflows : Flows outcomes)
    (h : (mainSystem fd count outcomes).Exec tr s) : MainInv outcomes tr s :=
  h.invariant (fun _ => MainInv.init hflows) fun _ _ _ _ => MainInv.step

/-- Lines still to be returned. -/
def LinesLeft (fd : ℤ) (lines : List (List UInt8)) (tail : List UInt8)
    (tr : List MainEvent) (s : MainState) : Prop :=
  ∃ todo, lines = returnedLines tr ++ todo ∧
    s.kept fd ++ dataOf s.outcomes = todo.flatten ++ tail

/-- A stream that starts with a line gives the first of its lines. -/
theorem first_line {text bytes : List UInt8} {todo : List (List UInt8)}
    (h : text ++ [newline] ++ bytes = todo.flatten ++ tail)
    (htext : newline ∉ text) (htodo : ∀ line ∈ todo, IsLine line)
    (htail : newline ∉ tail) :
    ∃ todo', todo = (text ++ [newline]) :: todo' ∧
      bytes = todo'.flatten ++ tail := by
  cases todo with
  | nil =>
      have hmem : newline ∈ text ++ [newline] ++ bytes := by simp
      rw [h] at hmem
      exact absurd hmem (by simpa using htail)
  | cons line todo =>
      obtain ⟨text', htext', rfl⟩ := htodo line List.mem_cons_self
      rw [List.flatten_cons] at h
      simp only [List.append_assoc, List.singleton_append] at h
      rcases next_byte h htext htext' with ⟨-, rfl, hbytes⟩ | ⟨hne, -⟩
      · exact ⟨todo, rfl, hbytes⟩
      · exact absurd rfl hne

/-- `count` bytes of the stream hold the end of a line. -/
theorem newline_mem_part {part bytes : List UInt8} {todo : List (List UInt8)}
    (h : part ++ bytes = todo.flatten ++ tail) (hlength : part.length = count)
    (htodo : ∀ line ∈ todo, IsLine line ∧ line.length < count)
    (htail : tail.length < count) : newline ∈ part.dropLast := by
  cases todo with
  | nil =>
      have hle := congrArg List.length h
      simp only [List.length_append, List.flatten_nil, List.length_nil] at hle
      omega
  | cons line todo =>
      obtain ⟨⟨text, -, rfl⟩, hshort⟩ := htodo line List.mem_cons_self
      have hprefix : text ++ [newline] <+: (part ++ bytes).take (count - 1) := by
        rw [List.prefix_take_iff, h, List.flatten_cons, List.append_assoc]
        exact ⟨List.prefix_append _ _, by omega⟩
      have hpart : (part ++ bytes).take (count - 1) = part.dropLast := by
        rw [List.dropLast_eq_take, hlength,
          List.take_append_of_le_length (by omega)]
      rw [hpart] at hprefix
      exact hprefix.subset (by simp)

/-- The bytes of the outcomes used are returned or kept. -/
theorem LinesLeft.dataOf_used {used : List Outcome}
    (h : LinesLeft fd lines tail tr s)
    (hbytes : dataOf outcomes = lines.flatten ++ tail)
    (hused : outcomes = used ++ s.outcomes) :
    dataOf used = (returnedLines tr).flatten ++ s.kept fd := by
  obtain ⟨todo, hlines, hleft⟩ := h
  have hall : dataOf used ++ dataOf s.outcomes =
      (returnedLines tr).flatten ++ s.kept fd ++ dataOf s.outcomes := by
    rw [← dataOf_append, ← hused, hbytes, hlines, List.flatten_append,
      List.append_assoc, ← hleft, List.append_assoc]
  exact List.append_cancel_right hall

/-- While every timeout lies between two lines, a round returns the next line
or leaves all of them. -/
theorem LinesLeft.step (hstream : Streams count outcomes lines tail)
    (hbetween : TimeoutsBetweenLines outcomes) (hinv : MainInv outcomes tr s)
    (h : LinesLeft fd lines tail tr s)
    (hstep : mainStep fd count s = some (s', es)) :
    LinesLeft fd lines tail (tr ++ es) s' := by
  obtain ⟨-, used, hused, heffect⟩ :=
    mainStep_effect hinv.pairs hinv.flows hstep
  obtain ⟨before, hbefore⟩ := hinv.used
  have hreturned := h.dataOf_used hstream.bytes hbefore
  obtain ⟨todo, hlines, hleft⟩ := h
  have htodo : ∀ line ∈ todo, IsLine line ∧ line.length < count := by
    intro line hline
    exact hstream.line_ok line (hlines ▸ List.mem_append_right _ hline)
  rw [hused, dataOf_append] at hleft
  cases heffect with
  | line chunks text hchunks hbytes htext =>
      rw [hchunks, dataOf_chunks, ← List.append_assoc, hbytes,
        List.append_assoc] at hleft
      obtain ⟨todo', rfl, hrest⟩ := first_line hleft htext
        (fun line hline => (htodo line hline).1) hstream.tail_ok.1
      refine ⟨todo', ?_, hrest⟩
      rw [hlines, returnedLines_append, List.append_assoc]
      rfl
  | timeout chunks hchunks hopen hkept =>
      have hends : EndsLine (dataOf (before ++ chunks.map .data)) := by
        apply hbetween _ s'.outcomes
        rw [hbefore, hused, hchunks]
        simp
      rw [dataOf_append, dataOf_chunks, hreturned, List.append_assoc] at hends
      have hnone := hends.eq_nil hopen
      refine ⟨todo, by simpa [returnedLines] using hlines, ?_⟩
      rw [← hleft, hkept, hchunks, dataOf_append, dataOf_chunks,
        ← List.append_assoc, ← List.append_assoc, hnone]
      simp [dataOf]
  | full chunks part text hchunks hbytes hlength hopen =>
      rw [hchunks, dataOf_chunks, ← List.append_assoc, hbytes,
        List.append_assoc] at hleft
      exact absurd (newline_mem_part hleft hlength htodo hstream.tail_ok.2)
        hopen
  | ended chunks text hchunks hbytes hopen hkept =>
      have hrest : s.outcomes =
          chunks.map .data ++ .data [] :: s'.outcomes := by
        rw [hused, hchunks]
        simp
      have hend : .data [] ∈ outcomes := by
        rw [hbefore, hrest]
        simp
      rw [← dataOf_append, ← hused, hrest, dataOf_append, dataOf_chunks,
        hinv.flows.dataOf_end hrest, hstream.ended hend, List.append_nil,
        List.append_nil] at hleft
      have hends := endsLine_flatten fun line hline => (htodo line hline).1
      rw [← hleft, ← List.nil_append (_ ++ _)] at hends
      exact absurd (hends.eq_nil hopen) hbytes

theorem linesLeft_exec (hstream : Streams count outcomes lines tail)
    (hbetween : TimeoutsBetweenLines outcomes)
    (h : (mainSystem fd count outcomes).Exec tr s) :
    MainInv outcomes tr s ∧ LinesLeft fd lines tail tr s := by
  refine h.invariant (I := fun tr s =>
    MainInv outcomes tr s ∧ LinesLeft fd lines tail tr s) ?_ ?_
  · intro s hinit
    refine ⟨MainInv.init hstream.flows hinit, lines, rfl, ?_⟩
    obtain ⟨hpairs, rfl⟩ := hinit
    rw [← hstream.bytes, MainState.kept, hpairs]
    rfl
  · rintro tr s es s' ⟨hinv, hleft⟩ hstep
    exact ⟨hinv.step hstep, hleft.step hstream hbetween hinv hstep⟩

/-- From every state the calls to come return the lines that are left. -/
theorem linesLeft_all (hstream : Streams count outcomes lines tail)
    (hbetween : TimeoutsBetweenLines outcomes) (n : ℕ)
    (hexec : (mainSystem fd count outcomes).Exec tr s) (hn : s.left fd < n) :
    ∃ tr' s', (mainSystem fd count outcomes).Run s tr' s' ∧
      returnedLines (tr ++ tr') = lines := by
  have hcount : 0 < count := Nat.zero_lt_of_lt hstream.tail_ok.2
  induction n generalizing tr s with
  | zero => exact absurd hn (Nat.not_lt_zero _)
  | succ n ih =>
      obtain ⟨hinv, todo, hlines, hleft⟩ :=
        linesLeft_exec hstream hbetween hexec
      cases todo with
      | nil => exact ⟨[], s, .refl, by simp [hlines]⟩
      | cons line todo =>
          have hmem : newline ∈ s.kept fd ++ dataOf s.outcomes := by
            obtain ⟨⟨text, -, rfl⟩, -⟩ := hstream.line_ok line (by simp [hlines])
            simp [hleft]
          cases hstep : mainStep fd count s with
          | none =>
              have hnone := mainStep_none hinv.pairs hinv.flows hstep
              exact absurd hmem hnone.1
          | some next =>
              obtain ⟨s', es⟩ := next
              obtain ⟨-, used, hused, heffect⟩ :=
                mainStep_effect hinv.pairs hinv.flows hstep
              have hlt := heffect.left_lt hcount hused
              obtain ⟨tr', s'', hrun, hreturned⟩ :=
                ih (hexec.step hstep) (by omega)
              refine ⟨es ++ tr', s'', hrun.head hstep, ?_⟩
              rw [← List.append_assoc, hreturned]

theorem chunks_before {chunks : List (List UInt8)}
    {rest before after : List Outcome}
    (h : chunks.map .data ++ rest = before ++ .timeout :: after) :
    ∃ before', before = chunks.map .data ++ before' ∧
      rest = before' ++ .timeout :: after := by
  induction chunks generalizing before with
  | nil => exact ⟨before, rfl, h⟩
  | cons c chunks ih =>
      cases before with
      | nil => simp at h
      | cons o before =>
          rw [List.map_cons, List.cons_append, List.cons_append,
            List.cons.injEq] at h
          obtain ⟨rfl, hrest⟩ := h
          obtain ⟨before', rfl, hbefore'⟩ := ih hrest
          exact ⟨before', rfl, hbefore'⟩

/-- Where every call keeps the bytes not returned, a timeout finds none. -/
theorem endsLine_before (hstream : Streams count outcomes lines tail)
    (hkept : ∀ tr s, (mainSystem fd count outcomes).Exec tr s →
      (returnedLines tr).flatten ++ s.kept fd ++ dataOf s.outcomes =
        dataOf outcomes)
    (n : ℕ) (hexec : (mainSystem fd count outcomes).Exec tr s)
    (hn : s.left fd < n) {before after : List Outcome}
    (h : s.outcomes = before ++ .timeout :: after) :
    EndsLine ((returnedLines tr).flatten ++ s.kept fd ++ dataOf before) := by
  have hcount : 0 < count := Nat.zero_lt_of_lt hstream.tail_ok.2
  induction n generalizing tr s before with
  | zero => exact absurd hn (Nat.not_lt_zero _)
  | succ n ih =>
      have hinv := mainInv_exec hstream.flows hexec
      cases hstep : mainStep fd count s with
      | none =>
          have hnone := mainStep_none hinv.pairs hinv.flows hstep
          exact absurd (by simp [h]) hnone.2
      | some next =>
          obtain ⟨s', es⟩ := next
          obtain ⟨-, used, hused, heffect⟩ :=
            mainStep_effect hinv.pairs hinv.flows hstep
          have hlt := heffect.left_lt hcount hused
          have hexec' := hexec.step hstep
          have hnext : ∀ before, s'.outcomes = before ++ .timeout :: after →
              EndsLine ((returnedLines (tr ++ es)).flatten ++ s'.kept fd ++
                dataOf before) :=
            fun _ hrest => ih hexec' (by omega) hrest
          -- the call keeps or returns what it reads
          have hread : s.kept fd ++ dataOf used =
              (returnedLines es).flatten ++ s'.kept fd := by
            have heq := (hkept _ _ hexec).trans (hkept _ _ hexec').symm
            rw [hused, dataOf_append, returnedLines_append, List.flatten_append,
              ← List.append_assoc, List.append_left_inj, List.append_assoc,
              List.append_assoc] at heq
            exact List.append_cancel_left heq
          rw [hused] at h
          cases heffect with
          | line chunks text hchunks hbytes htext =>
              rw [hchunks] at h
              obtain ⟨before', rfl, hrest⟩ := chunks_before h
              have hends := hnext before' hrest
              rw [returnedLines_append, List.flatten_append, List.append_assoc
                (returnedLines tr).flatten, ← hread, hchunks] at hends
              rw [dataOf_append]
              simpa only [List.append_assoc] using hends
          | timeout chunks hchunks hopen hkept' =>
              rw [hchunks, List.append_assoc] at h
              obtain ⟨before', rfl, hrest⟩ := chunks_before h
              have hnone : s.kept fd ++ chunks.flatten = [] := by
                rw [hchunks, hkept'] at hread
                simpa [dataOf_append, dataOf, returnedLines] using hread
              obtain ⟨hkept₀, hchunks₀⟩ := List.append_eq_nil_iff.mp hnone
              rw [dataOf_append, dataOf_chunks, hkept₀, hchunks₀,
                List.append_nil, List.nil_append]
              cases before' with
              | nil => simpa [dataOf] using hinv.returned
              | cons o before' =>
                  obtain ⟨rfl, hafter⟩ := List.cons.inj hrest
                  have hends := hnext before' hafter
                  rw [hkept'] at hends
                  simpa [returnedLines_append, returnedLines, dataOf]
                    using hends
          | full chunks part text hchunks hbytes hlength hopen =>
              rw [hchunks, dataOf_chunks, hbytes] at hread
              have hpart : part = [] := List.append_cancel_right hread
              simp [hpart] at hlength
              omega
          | ended chunks text hchunks hbytes hopen hkept' =>
              rw [hchunks, hkept', dataOf_append, dataOf_chunks,
                ← List.append_assoc] at hread
              exact absurd (List.append_eq_nil_iff.mp hread).1 hbytes

/-- The calls of `main` return every line, and no byte is lost, if and only if
every timeout comes in front of the first byte of a line. -/
theorem timeouts_lose_nothing_iff (hstream : Streams count outcomes lines tail) :
    LosesNothing fd count outcomes lines ↔ TimeoutsBetweenLines outcomes := by
  constructor
  · intro h before after heq
    have hexec : (mainSystem fd count outcomes).Exec []
        ⟨[], fun _ => 0, outcomes⟩ := .init ⟨rfl, rfl⟩
    have hends := endsLine_before hstream h.kept _ hexec (Nat.lt_succ_self _) heq
    exact hends
  · intro hbetween
    refine ⟨fun tr s hexec => ?_, fun tr s hexec => ?_, fun tr s hexec => ?_⟩
    · obtain ⟨-, todo, hlines, hleft⟩ := linesLeft_exec hstream hbetween hexec
      rw [List.append_assoc, hleft, hstream.bytes, hlines, List.flatten_append,
        List.append_assoc]
    · obtain ⟨-, todo, hlines, -⟩ := linesLeft_exec hstream hbetween hexec
      exact ⟨todo, hlines.symm⟩
    · exact linesLeft_all hstream hbetween _ hexec (Nat.lt_succ_self _)

end Stream

/-- A timeout in front of the line `"a\n"`. -/
theorem timeouts_lose_nothing_iff_in_front :
    LosesNothing 0 4 [.timeout, .data [97, 10]] [[97, 10]] := by
  have hstream : Streams 4 [.timeout, .data [97, 10]] [[97, 10]] [] := by
    refine ⟨⟨by simp [lBufferSize], ?_⟩, rfl, ?_, by simp, by simp⟩
    · intro before after heq
      have hmem : Outcome.data [] ∈ [.timeout, .data [97, 10]] := by simp [heq]
      simp at hmem
    · intro line hline
      obtain rfl := List.mem_singleton.mp hline
      exact ⟨⟨[97], by decide, rfl⟩, by decide⟩
  apply (timeouts_lose_nothing_iff hstream).mpr
  intro before after heq
  cases before with
  | nil => exact Or.inl rfl
  | cons o before =>
      have hrest := (List.cons.inj heq).2
      have hmem : Outcome.timeout ∈ [Outcome.data [97, 10]] := by simp [hrest]
      simp at hmem

/-- Of the line `"ab\n"` with a timeout behind its first byte only `"b\n"` is
returned. -/
theorem timeout_in_line_lost :
    Streams 4 [.data [97], .timeout, .data [98, 10]] [[97, 98, 10]] [] ∧
      (∃ s, (mainSystem 0 4 [.data [97], .timeout, .data [98, 10]]).Exec
        [.timeouted, .line [98, 10]] s) ∧
      ¬ LosesNothing 0 4 [.data [97], .timeout, .data [98, 10]]
        [[97, 98, 10]] := by
  have hexec : ∃ s, (mainSystem 0 4
      [.data [97], .timeout, .data [98, 10]]).Exec
        [.timeouted, .line [98, 10]] s := by
    obtain ⟨s₁, s₂, htimeout, hline⟩ : ∃ s₁ s₂,
        mainStep 0 4 ⟨[], fun _ => 0, [.data [97], .timeout, .data [98, 10]]⟩ =
            some (s₁, [.timeouted]) ∧
          mainStep 0 4 s₁ = some (s₂, [.line [98, 10]]) := ⟨_, _, rfl, rfl⟩
    have hinit : (mainSystem 0 4
        [.data [97], .timeout, .data [98, 10]]).Exec []
          ⟨[], fun _ => 0, [.data [97], .timeout, .data [98, 10]]⟩ :=
      .init ⟨rfl, rfl⟩
    exact ⟨s₂, (hinit.step htimeout).step hline⟩
  refine ⟨?_, hexec, fun h => ?_⟩
  · refine ⟨⟨by simp [lBufferSize], ?_⟩, rfl, ?_, by simp, by simp⟩
    · intro before after heq
      have hmem : Outcome.data [] ∈
          [.data [97], .timeout, .data [98, 10]] := by simp [heq]
      simp at hmem
    · intro line hline
      obtain rfl := List.mem_singleton.mp hline
      exact ⟨⟨[97, 98], by decide, rfl⟩, by decide⟩
  · obtain ⟨s, hexec⟩ := hexec
    have hprefix := h.inOrder _ s hexec
    simp [returnedLines] at hprefix

end Pvos.Readline
