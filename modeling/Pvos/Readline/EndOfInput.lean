import Pvos.Readline.Timeouts

/-!
# `main` of `readline/main.cpp` at the end of the input

The input is a finite list of timeouts and chunks, and behind it every `read`
finds the end of the file.  A call uses up at most one of these ends, unless it
is the last one; so two of them stand for any number.

Every round of the loop uses up a byte or a timeout.  The round in which the
loop breaks finds nothing else than the end of the file.
-/

namespace Pvos.Readline

open Pvos.Support

/-- A timeout, or a chunk with at least one byte. -/
def Outcome.Arrives (o : Outcome) : Prop :=
  o = .timeout ∨ ∃ bytes, o = .data bytes ∧ IsChunk bytes

/-- The input in front of `n` reads at the end of the file. -/
def finiteInput (input : List Outcome) (n : ℕ) : List Outcome :=
  input ++ List.replicate n (.data [])

/-- `main` breaks out of its loop behind the next call. -/
def MainBreaks (fd : ℤ) (count : ℕ) (s : MainState) : Prop :=
  ∃ r pairs rest, readlineTout s.pairs fd (some s.line) count s.outcomes =
    .returns r pairs rest ∧ mainEvents count r = none

def Outcome.isTimeout : Outcome → Bool
  | .timeout => true
  | _ => false

/-- The bytes and timeouts that a state has still to deal with. -/
def MainState.inputLeft (fd : ℤ) (s : MainState) : ℕ :=
  (s.kept fd ++ dataOf s.outcomes).length + s.outcomes.countP Outcome.isTimeout

/-! ## What a call leaves of the ends of the file -/

section Call

variable {count : ℕ} {input : List Outcome}

theorem lineFinish_returns (count : ℕ) (copied pending kept : List UInt8)
    (outcomes : List Outcome) :
    ∃ ret errno out, lineFinish count copied pending kept outcomes =
      .returns ret errno out (some kept) outcomes := by
  unfold lineFinish
  simp only
  split
  next => exact ⟨_, _, _, rfl⟩
  next => exact ⟨_, _, _, rfl⟩

theorem lineStop_returns (line : List UInt8) (ret : ℤ) (errno : Errno)
    (outcomes : List Outcome) :
    ∃ ret' errno', lineStop line ret errno outcomes =
      .returns ret' errno' line (some []) outcomes := by
  unfold lineStop
  split
  next => exact ⟨_, _, rfl⟩
  next => exact ⟨_, _, rfl⟩

/-- The loop returns in front of the end of the file, or at its first one. -/
theorem lineLoop_stays (count todo : ℕ) (copied pending kept : List UInt8)
    (hinput : ∀ o ∈ input, o.Arrives) (k : ℕ) :
    ∃ ret errno out kept' input' k',
      lineLoop count todo copied pending kept (finiteInput input (k + 1)) =
          .returns ret errno out (some kept') (finiteInput input' k') ∧
        input' <:+ input ∧
        (k' = k + 1 ∨ k' = k ∧ input' = [] ∧ kept' = []) := by
  induction todo generalizing copied pending kept input with
  | zero =>
      obtain ⟨ret, errno, out, hfinish⟩ :=
        lineFinish_returns count copied pending kept (finiteInput input (k + 1))
      exact ⟨ret, errno, out, kept, input, k + 1, hfinish,
        List.suffix_refl input, Or.inl rfl⟩
  | succ todo ih =>
      -- the byte `b` is the next one of the line
      have hbyte : ∀ (copied pending : List UInt8) (b : UInt8)
          (kept : List UInt8) {input : List Outcome},
          (∀ o ∈ input, o.Arrives) →
          ∃ ret errno out kept' input' k',
            (if b = newline then
              lineFinish count copied (pending ++ [b]) kept
                (finiteInput input (k + 1))
            else lineLoop count todo copied (pending ++ [b]) kept
              (finiteInput input (k + 1))) =
                .returns ret errno out (some kept') (finiteInput input' k') ∧
              input' <:+ input ∧
              (k' = k + 1 ∨ k' = k ∧ input' = [] ∧ kept' = []) := by
        intro copied pending b kept input hinput
        split
        next =>
          obtain ⟨ret, errno, out, hfinish⟩ := lineFinish_returns count copied
            (pending ++ [b]) kept (finiteInput input (k + 1))
          exact ⟨ret, errno, out, kept, input, k + 1, hfinish,
            List.suffix_refl input, Or.inl rfl⟩
        next => exact ih _ _ _ hinput
      cases kept with
      | cons b kept => exact hbyte copied pending b kept hinput
      | nil =>
          cases input with
          | nil =>
              obtain ⟨ret, errno, hstop⟩ := lineStop_returns (copied ++ pending)
                0 .none (List.replicate k (.data []))
              exact ⟨ret, errno, _, [], [], k, hstop, List.suffix_refl [],
                Or.inr ⟨rfl, rfl, rfl⟩⟩
          | cons o input =>
              have hrest : ∀ o ∈ input, o.Arrives :=
                fun o ho => hinput o (List.mem_cons_of_mem _ ho)
              rcases hinput o List.mem_cons_self with rfl | ⟨bytes, rfl, hchunk⟩
              · exact ⟨_, _, _, [], input, k + 1, rfl, List.suffix_cons _ _,
                  Or.inl rfl⟩
              · cases bytes with
                | nil => exact absurd hchunk.1 (by decide)
                | cons b bytes =>
                    obtain ⟨ret, errno, out, kept', input', k', hcall, hsuffix,
                      hk⟩ := hbyte (copied ++ pending) [] b bytes hrest
                    exact ⟨ret, errno, out, kept', input', k', hcall,
                      hsuffix.trans (List.suffix_cons _ _), hk⟩

/-- Enough ends of the file for the calls to come. -/
def EndsLeft (kept : Option (List UInt8)) (input : List Outcome) (k : ℕ) :
    Prop :=
  2 ≤ k ∨ 1 ≤ k ∧ input = [] ∧ kept = some []

/-- A call does not wait, and it leaves enough ends of the file or returns `0`
at the last one. -/
theorem lineCall_stays (hcount : 0 < count) {kept : Option (List UInt8)} {k : ℕ}
    (hinput : ∀ o ∈ input, o.Arrives) (hk : EndsLeft kept input k) :
    ∃ ret errno out kept' input' k',
      lineCall count kept (finiteInput input k) =
          .returns ret errno out kept' (finiteInput input' k') ∧
        input' <:+ input ∧
        (EndsLeft kept' input' k' ∨ ret = 0 ∧ errno = .none) := by
  obtain ⟨todo, rfl⟩ : ∃ todo, count = todo + 1 := ⟨count - 1, by omega⟩
  -- the call enters its loop with the bytes kept
  have hloop : ∀ (bytes : List UInt8) {input : List Outcome},
      (∀ o ∈ input, o.Arrives) → 2 ≤ k →
      ∃ ret errno out kept' input' k',
        lineLoop (todo + 1) (todo + 1) [] [] bytes (finiteInput input k) =
            .returns ret errno out kept' (finiteInput input' k') ∧
          input' <:+ input ∧
          (EndsLeft kept' input' k' ∨ ret = 0 ∧ errno = .none) := by
    intro bytes input hinput hk
    obtain ⟨m, rfl⟩ : ∃ m, k = m + 1 := ⟨k - 1, by omega⟩
    obtain ⟨ret, errno, out, kept', input', k', hcall, hsuffix, hk'⟩ :=
      lineLoop_stays (todo + 1) (todo + 1) [] [] bytes hinput m
    refine ⟨ret, errno, out, some kept', input', k', hcall, hsuffix,
      Or.inl ?_⟩
    rcases hk' with rfl | ⟨rfl, rfl, rfl⟩
    · exact Or.inl hk
    · exact Or.inr ⟨by omega, rfl, rfl⟩
  rcases hk with hk | ⟨hk, rfl, rfl⟩
  · cases kept with
    | some bytes => exact hloop bytes hinput hk
    | none =>
        cases input with
        | nil =>
            obtain ⟨m, rfl⟩ : ∃ m, k = m + 2 := ⟨k - 2, by omega⟩
            exact ⟨0, .none, [], some [], [], m, rfl, List.suffix_refl [],
              Or.inr ⟨rfl, rfl⟩⟩
        | cons o input =>
            have hrest : ∀ o ∈ input, o.Arrives :=
              fun o ho => hinput o (List.mem_cons_of_mem _ ho)
            rcases hinput o List.mem_cons_self with rfl | ⟨bytes, rfl, -⟩
            · exact ⟨-1, .etime, [], none, input, k, rfl,
                List.suffix_cons _ _, Or.inl (Or.inl hk)⟩
            · obtain ⟨ret, errno, out, kept', input', k', hcall, hsuffix,
                hk'⟩ := hloop bytes hrest hk
              exact ⟨ret, errno, out, kept', input', k', hcall,
                hsuffix.trans (List.suffix_cons _ _), hk'⟩
  · obtain ⟨m, rfl⟩ : ∃ m, k = m + 1 := ⟨k - 1, by omega⟩
    exact ⟨0, .none, [], some [], [], m, rfl, List.suffix_refl [],
      Or.inr ⟨rfl, rfl⟩⟩

theorem flows_finiteInput (hinput : ∀ o ∈ input, o.Arrives) (n : ℕ) :
    Flows (finiteInput input n) := by
  constructor
  · intro o ho
    rcases List.mem_append.mp ho with hin | hend
    · rcases hinput o hin with rfl | ⟨bytes, rfl, hchunk⟩
      · exact Or.inl rfl
      · exact Or.inr ⟨bytes, rfl, hchunk.2⟩
    · exact Or.inr ⟨[], List.eq_of_mem_replicate hend, by simp⟩
  · intro before after heq o ho
    rcases List.append_eq_append_iff.mp heq with
      ⟨more, -, hends⟩ | ⟨more, hsplit, hmore⟩
    · have hmem : o ∈ List.replicate n (Outcome.data []) := by
        rw [hends]
        simp [ho]
      exact List.eq_of_mem_replicate hmem
    · cases more with
      | nil =>
          have hmem : o ∈ List.replicate n (Outcome.data []) := by
            rw [List.nil_append] at hmore
            simp [← hmore, ho]
          exact List.eq_of_mem_replicate hmem
      | cons m more =>
          obtain ⟨rfl, -⟩ := List.cons.inj hmore
          have hend : (Outcome.data []).Arrives := hinput _ (by simp [hsplit])
          rcases hend with htimeout | ⟨bytes, hdata, hchunk⟩
          · simp at htimeout
          · obtain rfl := Outcome.data.inj hdata
            exact absurd hchunk.1 (by decide)

end Call

/-! ## Where the loop breaks -/

section Breaks

variable {count : ℕ} {fd : ℤ} {r : Returned} {kept kept' : Option (List UInt8)}
  {outcomes rest : List Outcome} {ret : ℤ} {errno : Errno} {out : List UInt8}

/-- A call behind which the loop breaks finds nothing but the end of the
file. -/
theorem CallEnds.breaks (hflows : Flows outcomes)
    (hshows : Shows count fd r ret errno out kept')
    (h : CallEnds count kept outcomes (.returns ret errno out kept' rest))
    (hnone : mainEvents count r = none) :
    kept.getD [] = [] ∧ ∀ o ∈ outcomes, o = .data [] := by
  cases h with
  | loop hinput hends =>
      obtain ⟨first, rfl, rfl⟩ := loopInput_used hinput
      rcases hends.effect (hflows.rest rfl) hshows with
        ⟨es, used, hes, -⟩ | ⟨-, hbytes, rfl⟩
      · simp [hnone] at hes
      · obtain ⟨hkept, hfirst⟩ := List.append_eq_nil_iff.mp hbytes
        refine ⟨hkept, ?_⟩
        intro o ho
        rcases List.mem_append.mp ho with hin | hrest
        · obtain ⟨bytes, hmem, rfl⟩ := List.mem_map.mp hin
          rw [List.flatten_eq_nil_iff.mp hfirst bytes hmem]
        · rcases List.mem_cons.mp hrest with rfl | hafter
          · rfl
          · exact hflows.ends _ _ rfl o hafter
  | timeout =>
      have hes := mainEvents_timeout hshows
      simp [hnone] at hes
  | failed errno' _ hkept houtcomes =>
      have hdata := hflows.stops (by rw [houtcomes]; exact List.mem_cons_self)
        (Or.inr ⟨_, rfl⟩)
      simp at hdata

end Breaks

section Step

variable {fd : ℤ} {count : ℕ} {s s' : MainState} {es tr : List MainEvent}
  {input : List Outcome} {n : ℕ}

theorem mainBreaks_end (hpairs : PairsOk s.pairs) (hflows : Flows s.outcomes)
    (h : MainBreaks fd count s) :
    s.kept fd = [] ∧ ∀ o ∈ s.outcomes, o = .data [] := by
  obtain ⟨r, pairs, rest, hcall, hnone⟩ := h
  obtain ⟨-, ret, errno, shown, kept, hshows, hends⟩ :=
    readlineTout_shows hpairs hflows.fits hcall
  rw [MainState.kept, (hpairs.pairOf fd).buffered_eq]
  exact hends.breaks hflows hshows hnone

/-- Every round prints one message and uses up a byte or a timeout. -/
theorem MainEffect.inputLeft_lt {used : List Outcome} (hcount : 0 < count)
    (hused : s.outcomes = used ++ s'.outcomes)
    (h : MainEffect count (s.kept fd) used (s'.kept fd) es) :
    es.length = 1 ∧ s'.inputLeft fd < s.inputLeft fd := by
  unfold MainState.inputLeft
  rw [hused, dataOf_append, List.countP_append]
  cases h with
  | line chunks text hchunks hbytes htext =>
      refine ⟨rfl, ?_⟩
      have hlength := congrArg List.length hbytes
      simp only [hchunks, dataOf_chunks, List.length_append,
        List.length_singleton] at hlength ⊢
      omega
  | timeout chunks hchunks hopen hkept =>
      refine ⟨rfl, ?_⟩
      have htimeout : [Outcome.timeout].countP Outcome.isTimeout = 1 := rfl
      simp only [hchunks, hkept, List.length_append, List.countP_append,
        htimeout, List.length_nil]
      omega
  | full chunks part text hchunks hbytes hlength' hopen =>
      refine ⟨rfl, ?_⟩
      have hlength := congrArg List.length hbytes
      simp only [hchunks, dataOf_chunks, List.length_append] at hlength ⊢
      omega
  | ended chunks text hchunks hbytes hopen hkept =>
      refine ⟨rfl, ?_⟩
      have hpos := List.length_pos_of_ne_nil hbytes
      simp only [hchunks, hkept, dataOf_append, dataOf_chunks,
        List.length_append, List.length_nil] at hpos ⊢
      omega

/-- There are enough ends of the file behind the rest of the input. -/
def EndStays (fd : ℤ) (s : MainState) : Prop :=
  ∃ input k, s.outcomes = finiteInput input k ∧ (∀ o ∈ input, o.Arrives) ∧
    EndsLeft (pairOf s.pairs fd).kept input k

/-- The next call returns, and either the loop breaks or ends of the file are
left. -/
theorem EndStays.next (hcount : 0 < count) (hpairs : PairsOk s.pairs)
    (hflows : Flows s.outcomes) (h : EndStays fd s) :
    MainBreaks fd count s ∨
      ∃ s' es, mainStep fd count s = some (s', es) ∧ EndStays fd s' := by
  obtain ⟨input, k, houtcomes, hinput, hk⟩ := h
  obtain ⟨ret, errno, out, kept', input', k', hcall, hsuffix, hk'⟩ :=
    lineCall_stays hcount hinput hk
  rw [← houtcomes] at hcall
  rcases readlineTout_matches hpairs hflows.fits fd s.line count with
    ⟨-, hline⟩ | ⟨r, rest, ret', errno', shown, kept, hreadline, hline, hshows⟩
  · simp [hcall] at hline
  · rw [hcall] at hline
    simp only [LineResult.returns.injEq] at hline
    obtain ⟨rfl, rfl, rfl, rfl, rfl⟩ := hline
    cases hes : mainEvents count r with
    | none => exact Or.inl ⟨r, _, _, hreadline, hes⟩
    | some es =>
        right
        refine ⟨⟨storePair s.pairs r.pair, r.out, finiteInput input' k'⟩, es, ?_,
          input', k', rfl, fun o ho => hinput o (hsuffix.subset ho), ?_⟩
        · simp [mainStep, hreadline, hes]
        · rcases hk' with hleft | ⟨rfl, rfl⟩
          · have hstored := pairOf_storePair s.pairs r.pair
            rw [hshows.fd] at hstored
            simpa only [hstored, hshows.kept] using hleft
          · have hnone := mainEvents_nothing hshows (Int.le_refl 0)
            simp [hnone] at hes

/-- What holds in every state of a run on a finite input. -/
structure EndInv (fd : ℤ) (input : List Outcome) (n : ℕ) (tr : List MainEvent)
    (s : MainState) : Prop where
  main : MainInv (finiteInput input n) tr s
  stays : EndStays fd s
  calls : tr.length + s.inputLeft fd ≤
    (dataOf input).length + input.countP Outcome.isTimeout

theorem EndInv.step (hcount : 0 < count) (h : EndInv fd input n tr s)
    (hstep : mainStep fd count s = some (s', es)) :
    EndInv fd input n (tr ++ es) s' := by
  obtain ⟨-, used, hused, heffect⟩ :=
    mainStep_effect h.main.pairs h.main.flows hstep
  obtain ⟨hone, hlt⟩ := heffect.inputLeft_lt hcount hused
  have hcalls := h.calls
  refine ⟨h.main.step hstep, ?_, ?_⟩
  · rcases h.stays.next hcount h.main.pairs h.main.flows with
      ⟨r, pairs, rest, hcall, hnone⟩ | ⟨s₁, es₁, hnext, hstays⟩
    · simp [mainStep, hcall, hnone] at hstep
    · rw [hstep] at hnext
      simp only [Option.some.injEq, Prod.mk.injEq] at hnext
      obtain ⟨rfl, rfl⟩ := hnext
      exact hstays
  · rw [List.length_append, hone]
    omega

theorem endInv_exec (hcount : 0 < count) (hinput : ∀ o ∈ input, o.Arrives)
    (hn : 2 ≤ n)
    (h : (mainSystem fd count (finiteInput input n)).Exec tr s) :
    EndInv fd input n tr s := by
  refine h.invariant (I := EndInv fd input n) ?_ ?_
  · intro s hinit
    refine ⟨MainInv.init (flows_finiteInput hinput n) hinit,
      ⟨input, n, hinit.2, hinput, Or.inl hn⟩, ?_⟩
    have hends : ∀ n, dataOf (List.replicate n (.data [])) = [] ∧
        (List.replicate n (Outcome.data [])).countP Outcome.isTimeout = 0 := by
      intro n
      constructor
      · simp [dataOf]
      · simp [Outcome.isTimeout]
    obtain ⟨hpairs, houtcomes⟩ := hinit
    have hkept : s.kept fd = [] := by
      rw [MainState.kept, hpairs]
      rfl
    simp [MainState.inputLeft, hkept, houtcomes, finiteInput, dataOf_append,
      hends]
  · exact fun tr s es s' hinv hstep => hinv.step hcount hstep

/-- From every state the loop comes to its break. -/
theorem EndInv.breaks (hcount : 0 < count) (m : ℕ)
    (h : EndInv fd input n tr s) (hm : s.inputLeft fd < m) :
    ∃ tr' s', (mainSystem fd count (finiteInput input n)).Run s tr' s' ∧
      MainBreaks fd count s' := by
  induction m generalizing tr s with
  | zero => omega
  | succ m ih =>
      rcases h.stays.next hcount h.main.pairs h.main.flows with
        hbreaks | ⟨s', es, hstep, -⟩
      · exact ⟨[], s, .refl, hbreaks⟩
      · obtain ⟨-, used, hused, heffect⟩ :=
          mainStep_effect h.main.pairs h.main.flows hstep
        have hlt := (heffect.inputLeft_lt hcount hused).2
        obtain ⟨tr', s'', hrun, hbreaks⟩ := ih (h.step hcount hstep) (by omega)
        exact ⟨es ++ tr', s'', hrun.head hstep, hbreaks⟩

end Step

/-- On a finite input the loop makes no more calls than there are bytes and
timeouts before it breaks; it comes to its break, and then it has read all of
the input. -/
theorem main_stops_at_end {fd : ℤ} {count : ℕ} (hcount : 0 < count)
    {input : List Outcome} (hinput : ∀ o ∈ input, o.Arrives) {n : ℕ}
    (hn : 2 ≤ n) {tr : List MainEvent} {s : MainState}
    (hexec : (mainSystem fd count (finiteInput input n)).Exec tr s) :
    tr.length ≤ (dataOf input).length + input.countP Outcome.isTimeout ∧
      (∃ tr' s', (mainSystem fd count (finiteInput input n)).Run s tr' s' ∧
        MainBreaks fd count s') ∧
      (MainBreaks fd count s →
        s.kept fd = [] ∧ ∀ o ∈ s.outcomes, o = .data []) := by
  have hinv := endInv_exec hcount hinput hn hexec
  refine ⟨?_, hinv.breaks hcount _ (Nat.lt_succ_self _), ?_⟩
  · have hcalls := hinv.calls
    omega
  · exact mainBreaks_end hinv.main.pairs hinv.main.flows

/-- A timeout, and a line without a newline. -/
theorem main_stops_at_end_one_byte :
    ∃ tr' s', (mainSystem 0 128 (finiteInput [.timeout, .data [97]] 2)).Run
      ⟨[], fun _ => 0, finiteInput [.timeout, .data [97]] 2⟩ tr' s' ∧
        MainBreaks 0 128 s' := by
  have hexec : (mainSystem 0 128 (finiteInput [.timeout, .data [97]] 2)).Exec []
      ⟨[], fun _ => 0, finiteInput [.timeout, .data [97]] 2⟩ := .init ⟨rfl, rfl⟩
  refine (main_stops_at_end (by decide) ?_ (Nat.le_refl 2) hexec).2.1
  intro o ho
  simp only [List.mem_cons, List.not_mem_nil, or_false] at ho
  rcases ho with rfl | rfl
  · exact Or.inl rfl
  · exact Or.inr ⟨[97], rfl, by simp [IsChunk, lBufferSize]⟩

end Pvos.Readline
