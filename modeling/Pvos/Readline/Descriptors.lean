import Pvos.Readline.Ends

/-!
# Descriptors read through `readline_tout` are independent

All state lies in the static list of pairs.  A call changes the pair of its
descriptor only, and what it returns depends on nothing else; so calls on other
descriptors in between make no difference.
-/

namespace Pvos.Readline

open Pvos.Support

/-! ## The list of pairs -/

theorem pairOf_storePair_of_ne (pairs : List FdBufferPair)
    {pair : FdBufferPair} {fd : ℤ} (h : fd ≠ pair.fd) :
    pairOf (storePair pairs pair) fd = pairOf pairs fd := by
  induction pairs with
  | nil => simp [storePair, pairOf, h.symm]
  | cons first rest ih =>
      by_cases hfirst : first.fd = pair.fd
      · have hne : first.fd ≠ fd := fun heq => h (heq.symm.trans hfirst)
        simp [storePair, hfirst, pairOf, h.symm]
      · by_cases hfd : first.fd = fd
        · simp [storePair, h, pairOf, hfd]
        · simpa [storePair, hfirst, pairOf, hfd] using ih

/-- A stored pair replaces the one of its descriptor or goes behind the
list. -/
theorem mem_storePair {pairs : List FdBufferPair} {pair pair' : FdBufferPair}
    (h : pair' ∈ storePair pairs pair) : pair' = pair ∨ pair' ∈ pairs := by
  induction pairs with
  | nil => exact Or.inl (List.mem_singleton.mp h)
  | cons first rest ih =>
      simp only [storePair] at h
      split at h
      · rcases List.mem_cons.mp h with heq | hrest
        · exact Or.inl heq
        · exact Or.inr (List.mem_cons_of_mem _ hrest)
      · rcases List.mem_cons.mp h with heq | hrest
        · exact Or.inr (heq ▸ List.mem_cons_self)
        · exact (ih hrest).imp_right (List.mem_cons_of_mem _)

theorem nodup_storePair {pairs : List FdBufferPair} (pair : FdBufferPair)
    (h : (pairs.map FdBufferPair.fd).Nodup) :
    ((storePair pairs pair).map FdBufferPair.fd).Nodup := by
  induction pairs with
  | nil => simp [storePair]
  | cons first rest ih =>
      simp only [List.map_cons, List.nodup_cons] at h
      obtain ⟨hfirst, hrest⟩ := h
      simp only [storePair]
      split
      next heq =>
        rw [List.map_cons, List.nodup_cons, ← heq]
        exact ⟨hfirst, hrest⟩
      next hne =>
        rw [List.map_cons, List.nodup_cons]
        refine ⟨?_, ih hrest⟩
        intro hmem
        obtain ⟨pair', hpair', hfd⟩ := List.mem_map.mp hmem
        rcases mem_storePair hpair' with rfl | hold
        · exact hne hfd.symm
        · exact hfirst (hfd ▸ List.mem_map_of_mem hold)

/-- One pair for each descriptor, each as calls leave it. -/
structure PairsOk (pairs : List FdBufferPair) : Prop where
  nodup : (pairs.map FdBufferPair.fd).Nodup
  ok : ∀ pair ∈ pairs, pair.Ok

theorem pairsOk_nil : PairsOk [] :=
  ⟨by simp, by simp⟩

theorem PairsOk.pairOf {pairs : List FdBufferPair} (h : PairsOk pairs)
    (fd : ℤ) : (pairOf pairs fd).Ok := by
  unfold Readline.pairOf
  cases hfind : pairs.find? fun pair => pair.fd = fd with
  | none => exact FdBufferPair.ok_fresh fd
  | some pair => exact h.ok pair (List.mem_of_find?_eq_some hfind)

theorem PairsOk.storePair {pairs : List FdBufferPair} (h : PairsOk pairs)
    {pair : FdBufferPair} (hpair : pair.Ok) :
    PairsOk (storePair pairs pair) := by
  refine ⟨nodup_storePair pair h.nodup, fun pair' hmem => ?_⟩
  rcases mem_storePair hmem with rfl | hold
  · exact hpair
  · exact h.ok pair' hold

/-! ## Calls on several descriptors -/

theorem readlineTout_some (pairs : List FdBufferPair) (fd : ℤ) (out : Memory)
    (count : ℕ) (outcomes : List Outcome) :
    readlineTout pairs fd (some out) count outcomes =
      match readPair (pairOf pairs fd) (out.memset 0 0 count) count
        outcomes with
      | .waits => .waits
      | .returns r rest => .returns r (storePair pairs r.pair) rest := by
  rfl

/-- A call waits or returns together with its description. -/
theorem readlineTout_matches {pairs : List FdBufferPair}
    {outcomes : List Outcome} (h : PairsOk pairs)
    (hfits : ∀ o ∈ outcomes, o.Fits) (fd : ℤ) (out : Memory) (count : ℕ) :
    (readlineTout pairs fd (some out) count outcomes = .waits ∧
        lineCall count (pairOf pairs fd).kept outcomes = .waits) ∨
      ∃ r rest ret errno shown kept,
        readlineTout pairs fd (some out) count outcomes =
            .returns r (storePair pairs r.pair) rest ∧
          lineCall count (pairOf pairs fd).kept outcomes =
            .returns ret errno shown kept rest ∧
          Shows count fd r ret errno shown kept := by
  have hmatch := readPair_matches count (h.pairOf fd) out hfits
  rw [pairOf_fd] at hmatch
  rw [readlineTout_some]
  generalize readPair (pairOf pairs fd) (out.memset 0 0 count) count outcomes =
    called at hmatch
  generalize lineCall count (pairOf pairs fd).kept outcomes = result at hmatch
  cases hmatch with
  | waits => exact Or.inl ⟨rfl, rfl⟩
  | returns rest hshows =>
      exact Or.inr ⟨_, _, _, _, _, _, rfl, rfl, hshows⟩

/-- What a call that returns shows, and the list it leaves. -/
theorem readlineTout_shows {pairs pairs' : List FdBufferPair} {fd : ℤ}
    {out : Memory} {count : ℕ} {outcomes rest : List Outcome} {r : Returned}
    (h : PairsOk pairs) (hfits : ∀ o ∈ outcomes, o.Fits)
    (hcall : readlineTout pairs fd (some out) count outcomes =
      .returns r pairs' rest) :
    pairs' = storePair pairs r.pair ∧ ∃ ret errno shown kept,
      Shows count fd r ret errno shown kept ∧
        CallEnds count (pairOf pairs fd).kept outcomes
          (.returns ret errno shown kept rest) := by
  have hends := lineCall_ends count (pairOf pairs fd).kept outcomes
  rcases readlineTout_matches h hfits fd out count with
    ⟨hwaits, -⟩ | ⟨_, _, _, _, _, _, hreturns, hline, hshows⟩
  · rw [hwaits] at hcall
    exact Call.noConfusion hcall
  · rw [hreturns] at hcall
    obtain ⟨rfl, rfl, rfl⟩ := Call.returns.inj hcall
    rw [hline] at hends
    exact ⟨rfl, _, _, _, _, hshows, hends⟩

/-- A call that does not return waits for input. -/
theorem readlineTout_waits {pairs : List FdBufferPair} {fd : ℤ}
    {out : Memory} {count : ℕ} {outcomes : List Outcome}
    (h : PairsOk pairs) (hfits : ∀ o ∈ outcomes, o.Fits)
    (hcall : ∀ r pairs' rest, readlineTout pairs fd (some out) count outcomes ≠
      .returns r pairs' rest) :
    CallEnds count (pairOf pairs fd).kept outcomes .waits := by
  have hends := lineCall_ends count (pairOf pairs fd).kept outcomes
  rcases readlineTout_matches h hfits fd out count with
    ⟨-, hline⟩ | ⟨_, _, _, _, _, _, hreturns, -, -⟩
  · rwa [hline] at hends
  · exact absurd hreturns (hcall _ _ _)

/-- A call leaves the pairs well formed. -/
theorem readlineTout_ok {pairs pairs' : List FdBufferPair} {fd : ℤ}
    {out : Memory} {count : ℕ} {outcomes rest : List Outcome} {r : Returned}
    (h : PairsOk pairs) (hfits : ∀ o ∈ outcomes, o.Fits)
    (hcall : readlineTout pairs fd (some out) count outcomes =
      .returns r pairs' rest) :
    r.pair.fd = fd ∧ pairs' = storePair pairs r.pair ∧ PairsOk pairs' ∧
      rest <:+ outcomes := by
  obtain ⟨rfl, _, _, _, _, hshows, hends⟩ := readlineTout_shows h hfits hcall
  exact ⟨hshows.fd, rfl, h.storePair hshows.ok, hends.suffix⟩

/-- A call: its descriptor, `out_buffer` and `count`. -/
structure ReadlineCall where
  fd : ℤ
  out : Memory
  count : ℕ

/-- What the caller of a call sees. -/
structure CallResult where
  fd : ℤ
  ret : ℤ
  errno : Errno
  out : List UInt8

/-- The static list, and what every descriptor has still to deliver. -/
structure Readers where
  pairs : List FdBufferPair
  outcomes : ℤ → List Outcome

namespace Readers

/-- One call, if it returns. -/
def call (s : Readers) (c : ReadlineCall) : Option (Readers × CallResult) :=
  match readlineTout s.pairs c.fd (some c.out) c.count (s.outcomes c.fd) with
  | .returns r pairs rest =>
      some (⟨pairs, Function.update s.outcomes c.fd rest⟩,
        ⟨c.fd, r.ret, r.errno, r.out.bytes 0 c.count⟩)
  | _ => none

/-- Calls one after another, if all return. -/
def calls : Readers → List ReadlineCall → Option (Readers × List CallResult)
  | s, [] => some (s, [])
  | s, c :: rest =>
      match s.call c with
      | none => none
      | some (s', result) =>
          (calls s' rest).map fun (s'', results) => (s'', result :: results)

/-- The same for the descriptor `fd`. -/
structure Agree (fd : ℤ) (s t : Readers) : Prop where
  pair : pairOf s.pairs fd = pairOf t.pairs fd
  outcomes : s.outcomes fd = t.outcomes fd

/-- The outcomes of every descriptor fit into the inner buffer. -/
structure Ok (s : Readers) : Prop where
  pairs : PairsOk s.pairs
  fits : ∀ fd, ∀ o ∈ s.outcomes fd, o.Fits

variable {fd : ℤ} {s s' t : Readers} {c : ReadlineCall} {result : CallResult}

/-- A call stores the pair of its descriptor and uses up some of its
outcomes. -/
theorem call_eq_some (hok : s.Ok) (h : s.call c = some (s', result)) :
    ∃ (pair : FdBufferPair) (rest : List Outcome), pair.fd = c.fd ∧
      s'.pairs = storePair s.pairs pair ∧
      s'.outcomes = Function.update s.outcomes c.fd rest ∧
      result.fd = c.fd ∧ s'.Ok := by
  unfold call at h
  split at h
  next r pairs rest hcall =>
    simp only [Option.some.injEq, Prod.mk.injEq] at h
    obtain ⟨rfl, rfl⟩ := h
    obtain ⟨hfd, hpairs, hpairsOk, hsuffix⟩ :=
      readlineTout_ok hok.pairs (hok.fits c.fd) hcall
    refine ⟨r.pair, rest, hfd, hpairs, rfl, rfl, hpairsOk, ?_⟩
    intro fd' o ho
    by_cases heq : fd' = c.fd
    · subst heq
      simp only [Function.update_self] at ho
      exact hok.fits _ o (hsuffix.subset ho)
    · simp only [Function.update_of_ne heq] at ho
      exact hok.fits fd' o ho
  next => simp at h

/-- A call on another descriptor leaves a descriptor alone. -/
theorem agree_of_ne (hok : s.Ok) (h : s.call c = some (s', result))
    (hne : fd ≠ c.fd) : Agree fd s' s := by
  obtain ⟨pair, rest, hfd, hpairs, houtcomes, -, -⟩ := call_eq_some hok h
  constructor
  · rw [hpairs, pairOf_storePair_of_ne _ (by rwa [hfd])]
  · rw [houtcomes, Function.update_of_ne hne]

/-- Calls on a descriptor return the same where the descriptor is the same. -/
theorem Agree.call (hagree : Agree c.fd s t) (ht : t.Ok) :
    (s.call c).map Prod.snd = (t.call c).map Prod.snd ∧
      ∀ s' result, s.call c = some (s', result) →
        ∃ t', t.call c = some (t', result) ∧ Agree c.fd s' t' := by
  have hs' := readlineTout_some s.pairs c.fd c.out c.count (s.outcomes c.fd)
  have ht' := readlineTout_some t.pairs c.fd c.out c.count (t.outcomes c.fd)
  rw [hagree.pair, hagree.outcomes] at hs'
  cases hpair : readPair (pairOf t.pairs c.fd) (c.out.memset 0 0 c.count)
      c.count (t.outcomes c.fd) with
  | waits =>
      rw [hpair] at hs' ht'
      simp [Readers.call, hs', ht', hagree.outcomes]
  | returns r rest =>
      rw [hpair] at hs' ht'
      rw [← hagree.outcomes] at hs'
      have hscall : s.call c = some (⟨storePair s.pairs r.pair,
          Function.update s.outcomes c.fd rest⟩,
          ⟨c.fd, r.ret, r.errno, r.out.bytes 0 c.count⟩) := by
        simp [Readers.call, hs']
      have htcall : t.call c = some (⟨storePair t.pairs r.pair,
          Function.update t.outcomes c.fd rest⟩,
          ⟨c.fd, r.ret, r.errno, r.out.bytes 0 c.count⟩) := by
        simp [Readers.call, ht']
      have hfd := (readlineTout_ok ht.pairs (ht.fits c.fd) ht').1
      rw [hscall, htcall]
      refine ⟨rfl, ?_⟩
      intro s' result h
      simp only [Option.some.injEq, Prod.mk.injEq] at h
      obtain ⟨rfl, rfl⟩ := h
      refine ⟨_, rfl, ?_, ?_⟩
      · have hstored : ∀ pairs, pairOf (Readline.storePair pairs r.pair) c.fd =
            r.pair := by
          intro pairs
          rw [← hfd]
          exact pairOf_storePair pairs r.pair
        rw [hstored, hstored]
      · simp

theorem Agree.trans {u : Readers} (h : Agree fd s t) (h' : Agree fd t u) :
    Agree fd s u :=
  ⟨h.pair.trans h'.pair, h.outcomes.trans h'.outcomes⟩

/-- A run and the run of its calls on one descriptor stay in agreement on
it. -/
theorem Agree.calls (fd : ℤ) {calls : List ReadlineCall}
    {results : List CallResult} (hagree : Agree fd s t) (hs : s.Ok) (ht : t.Ok)
    (h : s.calls calls = some (s', results)) :
    s'.Ok ∧ ∃ t', t.calls (calls.filter (·.fd = fd)) =
        some (t', results.filter (·.fd = fd)) ∧ t'.Ok ∧ Agree fd s' t' := by
  induction calls generalizing s t results with
  | nil =>
      simp only [Readers.calls, Option.some.injEq, Prod.mk.injEq] at h
      obtain ⟨rfl, rfl⟩ := h
      exact ⟨hs, t, rfl, ht, hagree⟩
  | cons c calls ih =>
      simp only [Readers.calls] at h
      split at h
      next => simp at h
      next s₁ result hcall =>
        simp only [Option.map_eq_some_iff, Prod.exists, Prod.mk.injEq] at h
        obtain ⟨s₂, results', hrest, rfl, rfl⟩ := h
        obtain ⟨_, _, -, -, -, hfd, hs₁⟩ := call_eq_some hs hcall
        by_cases hc : c.fd = fd
        · subst hc
          obtain ⟨t₁, htcall, hagree₁⟩ := (hagree.call ht).2 _ _ hcall
          obtain ⟨-, -, -, -, -, -, ht₁⟩ := call_eq_some ht htcall
          obtain ⟨hs', t', htrest, ht', hagree'⟩ := ih hagree₁ hs₁ ht₁ hrest
          refine ⟨hs', t', ?_, ht', hagree'⟩
          simp [Readers.calls, htcall, htrest, hfd]
        · have hagree₁ := (agree_of_ne hs hcall (Ne.symm hc)).trans hagree
          obtain ⟨hs', t', htrest, ht', hagree'⟩ := ih hagree₁ hs₁ ht hrest
          refine ⟨hs', t', ?_, ht', hagree'⟩
          simp [htrest, hfd, hc]

end Readers

/-- From the empty list on, the calls on each descriptor return what they
return in a run of their own, also where they wait, and the list keeps one well
formed pair for each descriptor. -/
theorem descriptors_independent {outcomes : ℤ → List Outcome}
    (hfits : ∀ fd, ∀ o ∈ outcomes fd, o.Fits) {calls : List ReadlineCall}
    {s : Readers} {results : List CallResult}
    (h : Readers.calls ⟨[], outcomes⟩ calls = some (s, results)) :
    PairsOk s.pairs ∧ ∀ fd, ∃ t : Readers,
      Readers.calls ⟨[], outcomes⟩ (calls.filter (·.fd = fd)) =
          some (t, results.filter (·.fd = fd)) ∧
        ∀ c : ReadlineCall, c.fd = fd →
          (s.call c).map Prod.snd = (t.call c).map Prod.snd := by
  have hok : Readers.Ok ⟨[], outcomes⟩ := ⟨pairsOk_nil, hfits⟩
  constructor
  · exact (Readers.Agree.calls 0 ⟨rfl, rfl⟩ hok hok h).1.pairs
  · intro fd
    obtain ⟨-, t, ht, htok, hagree⟩ :=
      Readers.Agree.calls fd ⟨rfl, rfl⟩ hok hok h
    refine ⟨t, ht, fun c hc => ?_⟩
    subst hc
    exact (hagree.call htok).1

/-- The input of descriptors 0 and 5. -/
def twoInputs (fd : ℤ) : List Outcome :=
  if fd = 0 then [.data [97, 10, 98], .timeout]
  else if fd = 5 then [.data [99, 10]]
  else []

/-- A line of descriptor 5 between a line and a timeout of descriptor 0. -/
theorem descriptors_independent_two_inputs :
    ∃ s results, Readers.calls ⟨[], twoInputs⟩
        [⟨0, fun _ => 7, 4⟩, ⟨5, fun _ => 7, 4⟩, ⟨0, fun _ => 7, 4⟩] =
          some (s, results) ∧
      results.map CallResult.ret = [2, 2, -1] ∧ PairsOk s.pairs ∧
      ∀ fd, ∃ t : Readers, Readers.calls ⟨[], twoInputs⟩
            (([⟨0, fun _ => 7, 4⟩, ⟨5, fun _ => 7, 4⟩, ⟨0, fun _ => 7, 4⟩] :
              List ReadlineCall).filter (·.fd = fd)) =
          some (t, results.filter (·.fd = fd)) ∧
        ∀ c : ReadlineCall, c.fd = fd →
          (s.call c).map Prod.snd = (t.call c).map Prod.snd := by
  have hcalls : Readers.calls ⟨[], twoInputs⟩
      [⟨0, fun _ => 7, 4⟩, ⟨5, fun _ => 7, 4⟩, ⟨0, fun _ => 7, 4⟩] =
        some _ := rfl
  refine ⟨_, _, hcalls, by decide, descriptors_independent ?_ hcalls⟩
  intro fd o ho
  unfold twoInputs at ho
  split at ho
  · simp only [List.mem_cons, List.not_mem_nil, or_false] at ho
    rcases ho with rfl | rfl <;> simp [Outcome.Fits, lBufferSize]
  · split at ho
    · rw [List.mem_singleton.mp ho]
      simp [Outcome.Fits, lBufferSize]
    · simp at ho

end Pvos.Readline
