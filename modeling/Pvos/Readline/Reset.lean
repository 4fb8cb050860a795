import Pvos.Readline.Descriptors

/-!
# Resetting a descriptor

`readline_tout(fd, nullptr, count)` resets the pair of `fd`.  The `memset`
behind the lookup has by then used the null pointer, which does no harm only
for `count = 0`.

A reset pair reads in the block of the loop, a new one in front of the loop.
The two blocks treat an end of file differently: the first read of a new pair
takes it for a chunk without bytes and goes on to read in the loop.
-/

namespace Pvos.Readline

open Pvos.Support

/-! ## Calls on one descriptor -/

/-- What the calls on a descriptor return, up to the first one that does
not. -/
def resultsOn (fd : ℤ) :
    List FdBufferPair → List (Memory × ℕ) → List Outcome → List CallResult
  | _, [], _ => []
  | pairs, (out, count) :: calls, outcomes =>
      match readlineTout pairs fd (some out) count outcomes with
      | .returns r pairs' rest =>
          ⟨fd, r.ret, r.errno, r.out.bytes 0 count⟩ ::
            resultsOn fd pairs' calls rest
      | _ => []

/-- The same for their descriptions. -/
def lineResults (fd : ℤ) :
    Option (List UInt8) → List ℕ → List Outcome → List CallResult
  | _, [], _ => []
  | kept, count :: counts, outcomes =>
      match lineCall count kept outcomes with
      | .waits => []
      | .returns ret errno out kept' rest =>
          ⟨fd, ret, errno, out ++ List.replicate (count - out.length) 0⟩ ::
            lineResults fd kept' counts rest

section Results

variable {fd : ℤ} {pairs : List FdBufferPair} {outcomes : List Outcome}

theorem resultsOn_eq (h : PairsOk pairs) (hfits : ∀ o ∈ outcomes, o.Fits)
    (calls : List (Memory × ℕ)) :
    resultsOn fd pairs calls outcomes =
      lineResults fd (pairOf pairs fd).kept (calls.map Prod.snd) outcomes := by
  induction calls generalizing pairs outcomes with
  | nil => rfl
  | cons call calls ih =>
      obtain ⟨out, count⟩ := call
      simp only [resultsOn, List.map_cons, lineResults]
      rcases readlineTout_matches h hfits fd out count with
        ⟨hcall, hline⟩ | ⟨r, rest, ret, errno, shown, kept, hcall, hline, hshows⟩
      · rw [hcall, hline]
      · obtain ⟨-, -, hok, hsuffix⟩ := readlineTout_ok h hfits hcall
        have hstored := pairOf_storePair pairs r.pair
        rw [hshows.fd] at hstored
        rw [hcall, hline]
        simp only
        rw [ih hok fun o ho => hfits o (hsuffix.subset ho), hstored,
          hshows.kept, hshows.ret, hshows.errno, hshows.out]

end Results

/-! ## A reset pair and a new one -/

/-- The calls on a reset descriptor read alike those on a new one: each call
in front of the first data asks for bytes, and an end of file in front of it is
followed by one for each call to come that does. -/
def FirstReadAlike : List ℕ → List Outcome → Prop
  | [], _ => True
  | count :: _, [] => 0 < count
  | count :: counts, .timeout :: rest => 0 < count ∧ FirstReadAlike counts rest
  | count :: counts, .failed _ :: rest =>
      0 < count ∧ FirstReadAlike counts rest
  | counts, .data [] :: rest =>
      List.replicate (counts.countP (0 < ·)) (.data []) <+: rest
  | _, .data (_ :: _) :: _ => True

section Alike

variable {fd : ℤ} {counts : List ℕ} {outcomes rest : List Outcome}

theorem lineCall_zero (bytes : List UInt8) (outcomes : List Outcome) :
    lineCall 0 (some bytes) outcomes =
      .returns 0 .eagain [] (some bytes) outcomes := by
  rfl

/-- A call that asks for bytes reads a chunk in front of its loop as in it. -/
theorem lineCall_chunk (count : ℕ) (b : UInt8) (bytes : List UInt8)
    (rest : List Outcome) :
    lineCall (count + 1) (some []) (.data (b :: bytes) :: rest) =
      lineCall (count + 1) (some (b :: bytes)) rest := by
  rfl

/-- A call that keeps a byte does not report the end of the file. -/
theorem lineCall_kept_ne (count : ℕ) (b : UInt8) (bytes : List UInt8)
    (outcomes : List Outcome) (out : List UInt8) (kept : Option (List UInt8)) :
    lineCall (count + 1) (some (b :: bytes)) outcomes ≠
      .returns 0 .none out kept rest := by
  have hends := lineCall_ends (count + 1) (some (b :: bytes)) outcomes
  intro heq
  rw [heq] at hends
  generalize hret : (0 : ℤ) = ret at hends
  cases hends with
  | loop hinput hloop =>
      simp only [loopInput, Option.some.injEq, Prod.mk.injEq] at hinput
      obtain ⟨rfl, rfl⟩ := hinput
      cases hloop with
      | line => omega
      | nothing _ _ _ _ _ _ _ _ hnone => simp at hnone
  | failed => omega

/-- While a chunk is not read, it makes no difference where it is read. -/
theorem lineResults_chunk (b : UInt8) (bytes : List UInt8)
    (counts : List ℕ) (rest : List Outcome) :
    lineResults fd (some []) counts (.data (b :: bytes) :: rest) =
      lineResults fd (some (b :: bytes)) counts rest := by
  induction counts with
  | nil => rfl
  | cons count counts ih =>
      cases count with
      | zero =>
          simp only [lineResults, lineCall_zero]
          rw [ih]
      | succ count => simp only [lineResults, lineCall_chunk]

/-- An end of file more makes no difference if and only if there is one for
each call to come. -/
theorem lineResults_end_iff (counts : List ℕ) (rest : List Outcome) :
    lineResults fd (some []) counts (.data [] :: rest) =
        lineResults fd (some []) counts rest ↔
      List.replicate (counts.countP (0 < ·)) (.data []) <+: rest := by
  induction counts generalizing rest with
  | nil => simp [lineResults]
  | cons count counts ih =>
      cases count with
      | zero =>
          simp only [lineResults, lineCall_zero, List.cons.injEq, true_and]
          rw [ih]
          simp
      | succ count =>
          have hend : lineCall (count + 1) (some []) (.data [] :: rest) =
              .returns 0 .none [] (some []) rest := rfl
          have hmore : ((count + 1) :: counts).countP (0 < ·) =
              counts.countP (0 < ·) + 1 := by simp
          rw [hmore, List.replicate_succ]
          simp only [lineResults, hend]
          cases rest with
          | nil =>
              have hwaits : lineCall (count + 1) (some []) [] = .waits := rfl
              simp [hwaits]
          | cons o rest =>
              rw [List.cons_prefix_cons]
              cases o with
              | timeout =>
                  have htimeout : lineCall (count + 1) (some [])
                      (.timeout :: rest) =
                        .returns (-1) .etime [] (some []) rest := rfl
                  simp [htimeout]
              | failed errno =>
                  have hfailed : lineCall (count + 1) (some [])
                      (.failed errno :: rest) =
                        .returns (-1) errno [] (some []) rest := rfl
                  simp [hfailed]
              | data bytes =>
                  cases bytes with
                  | nil =>
                      have hend' : lineCall (count + 1) (some [])
                          (.data [] :: rest) =
                            .returns 0 .none [] (some []) rest := rfl
                      simp only [hend', List.cons.injEq, true_and]
                      exact ih rest
                  | cons b bytes =>
                      rw [lineCall_chunk]
                      refine iff_of_false (fun heq => ?_) (by simp)
                      cases hcall : lineCall (count + 1) (some (b :: bytes))
                          rest with
                      | waits => simp [hcall] at heq
                      | returns ret errno out kept rest' =>
                          rw [hcall] at heq
                          simp only [List.cons.injEq, CallResult.mk.injEq,
                            true_and] at heq
                          obtain ⟨⟨rfl, rfl, -⟩, -⟩ := heq
                          exact lineCall_kept_ne count b bytes rest out kept
                            hcall

/-- The calls on a reset descriptor return what they return on a new one if
and only if they read alike. -/
theorem lineResults_reset_iff (counts : List ℕ) (outcomes : List Outcome) :
    lineResults fd (some []) counts outcomes =
        lineResults fd none counts outcomes ↔
      FirstReadAlike counts outcomes := by
  induction counts generalizing outcomes with
  | nil => simp [lineResults, FirstReadAlike]
  | cons count counts ih =>
      cases outcomes with
      | nil =>
          have hnew : lineCall count none [] = .waits := rfl
          cases count with
          | zero => simp [lineResults, lineCall_zero, hnew, FirstReadAlike]
          | succ count =>
              have hwaits : lineCall (count + 1) (some []) [] = .waits := rfl
              simp [lineResults, hwaits, hnew, FirstReadAlike]
      | cons o rest =>
          cases o with
          | timeout =>
              have hnew : lineCall count none (.timeout :: rest) =
                  .returns (-1) .etime [] none rest := rfl
              cases count with
              | zero => simp [lineResults, lineCall_zero, hnew, FirstReadAlike]
              | succ count =>
                  have htimeout : lineCall (count + 1) (some [])
                      (.timeout :: rest) =
                        .returns (-1) .etime [] (some []) rest := rfl
                  simp [lineResults, htimeout, hnew, FirstReadAlike, ih]
          | failed errno =>
              have hnew : lineCall count none (.failed errno :: rest) =
                  .returns (-1) errno [] none rest := rfl
              cases count with
              | zero => simp [lineResults, lineCall_zero, hnew, FirstReadAlike]
              | succ count =>
                  have hfailed : lineCall (count + 1) (some [])
                      (.failed errno :: rest) =
                        .returns (-1) errno [] (some []) rest := rfl
                  simp [lineResults, hfailed, hnew, FirstReadAlike, ih]
          | data bytes =>
              have hnew : lineResults fd none (count :: counts)
                  (.data bytes :: rest) =
                    lineResults fd (some bytes) (count :: counts) rest := rfl
              rw [hnew]
              cases bytes with
              | nil => exact lineResults_end_iff (count :: counts) rest
              | cons b bytes => simp [lineResults_chunk, FirstReadAlike]

end Alike

/-! ## The reset -/

/-- The call `readline_tout(fd, nullptr, count)` returns `0`, writes nothing and
leaves the other pairs alone, and the calls behind it return what they return
on a descriptor without a pair. -/
def ResetLikeNew (pairs : List FdBufferPair) (fd : ℤ) (count : ℕ)
    (outcomes : List Outcome) (calls : List (Memory × ℕ)) : Prop :=
  ∃ r pairs', readlineTout pairs fd none count outcomes =
      .returns r pairs' outcomes ∧
    r.ret = 0 ∧ r.errno = .none ∧ (r.out = fun _ => 0) ∧
    pairs'.filter (·.fd ≠ fd) = pairs.filter (·.fd ≠ fd) ∧
    ∀ pairs₀, PairsOk pairs₀ → (∀ pair ∈ pairs₀, pair.fd ≠ fd) →
      resultsOn fd pairs' calls outcomes = resultsOn fd pairs₀ calls outcomes

section Reset

variable {pairs : List FdBufferPair} {fd : ℤ} {count : ℕ}
  {outcomes : List Outcome}

theorem filter_storePair (pairs : List FdBufferPair) (pair : FdBufferPair) :
    (storePair pairs pair).filter (·.fd ≠ pair.fd) =
      pairs.filter (·.fd ≠ pair.fd) := by
  induction pairs with
  | nil => simp [storePair]
  | cons first rest ih =>
      rw [storePair]
      split
      next heq => simp [heq]
      next hne => rw [List.filter_cons, List.filter_cons, ih]

theorem kept_reset (pair : FdBufferPair) : pair.reset.kept = some [] := by
  rfl

theorem kept_of_new (h : ∀ pair ∈ pairs, pair.fd ≠ fd) :
    (pairOf pairs fd).kept = none := by
  rw [pairOf_of_new h]
  rfl

/-- Any other `count` writes through the null pointer. -/
theorem readlineTout_null_crashes (hcount : 0 < count) :
    readlineTout pairs fd none count outcomes = .crashes :=
  if_pos ⟨rfl, hcount⟩

theorem readlineTout_null_zero (hfd : ∃ pair ∈ pairs, pair.fd = fd) :
    readlineTout pairs fd none 0 outcomes =
      .returns ⟨0, .none, fun _ => 0, (pairOf pairs fd).reset⟩
        (storePair pairs (pairOf pairs fd).reset) outcomes := by
  have hany : (pairs.any fun pair => pair.fd = fd) = true := by
    simpa [List.any_eq_true] using hfd
  have hout : ((none : Option Memory).getD fun _ => 0).memset 0 0 0 =
      fun _ => 0 := by
    funext a
    simp [Memory.memset]
  simp only [readlineTout, hany, hout]
  simp

end Reset

/-- A reset makes a descriptor like new if and only if it is made with
`count = 0` and what comes next reads alike. -/
theorem reset_like_new_iff {pairs : List FdBufferPair} (hpairs : PairsOk pairs)
    {fd : ℤ} (hfd : ∃ pair ∈ pairs, pair.fd = fd) (count : ℕ)
    {outcomes : List Outcome} (hfits : ∀ o ∈ outcomes, o.Fits)
    (calls : List (Memory × ℕ)) :
    ResetLikeNew pairs fd count outcomes calls ↔
      count = 0 ∧ FirstReadAlike (calls.map Prod.snd) outcomes := by
  have hreset : (pairOf pairs fd).reset.Ok :=
    FdBufferPair.ok_reset (hpairs.pairOf fd)
  have hresetFd : (pairOf pairs fd).reset.fd = fd := pairOf_fd pairs fd
  have hstored := pairOf_storePair pairs (pairOf pairs fd).reset
  rw [hresetFd] at hstored
  have hresults : resultsOn fd (storePair pairs (pairOf pairs fd).reset) calls
      outcomes = lineResults fd (some []) (calls.map Prod.snd) outcomes := by
    rw [resultsOn_eq (hpairs.storePair hreset) hfits, hstored, kept_reset]
  have hnew : ∀ pairs₀, PairsOk pairs₀ → (∀ pair ∈ pairs₀, pair.fd ≠ fd) →
      resultsOn fd pairs₀ calls outcomes =
        lineResults fd none (calls.map Prod.snd) outcomes := by
    intro pairs₀ hok hother
    rw [resultsOn_eq hok hfits, kept_of_new hother]
  constructor
  · rintro ⟨r, pairs', hcall, -, -, -, -, halike⟩
    obtain rfl : count = 0 := by
      by_contra hcount
      rw [readlineTout_null_crashes (Nat.pos_of_ne_zero hcount)] at hcall
      simp at hcall
    rw [readlineTout_null_zero hfd] at hcall
    simp only [Call.returns.injEq, and_true] at hcall
    obtain ⟨-, rfl⟩ := hcall
    have heq := halike [] pairsOk_nil (by simp)
    rw [hresults, hnew [] pairsOk_nil (by simp)] at heq
    exact ⟨rfl, (lineResults_reset_iff _ _).mp heq⟩
  · rintro ⟨rfl, halike⟩
    refine ⟨_, _, readlineTout_null_zero hfd, rfl, rfl, rfl, ?_, ?_⟩
    · have hfilter := filter_storePair pairs (pairOf pairs fd).reset
      rwa [hresetFd] at hfilter
    · intro pairs₀ hok hother
      rw [hresults, hnew pairs₀ hok hother]
      exact (lineResults_reset_iff _ _).mpr halike

/-- The list after one call on descriptor 0. -/
def afterOneCall : List FdBufferPair :=
  [⟨0, Memory.write (fun _ => 0) 0 [120, 10], 2, lBufferSize, 2⟩]

theorem afterOneCall_ok : PairsOk afterOneCall := by
  refine ⟨by decide, ?_⟩
  intro pair hpair
  rw [List.mem_singleton.mp hpair]
  exact ⟨rfl, Or.inr ⟨by decide, by decide⟩, by decide⟩

/-- A timeout and a line after a reset. -/
theorem reset_like_new_iff_timeout :
    ResetLikeNew afterOneCall 0 0 [.timeout, .data [97, 10]]
        [(fun _ => 7, 4), (fun _ => 7, 4)] ↔
      0 = 0 ∧ FirstReadAlike [4, 4] [.timeout, .data [97, 10]] := by
  refine reset_like_new_iff afterOneCall_ok ⟨_, List.mem_cons_self, rfl⟩ 0 ?_
    [(fun _ => 7, 4), (fun _ => 7, 4)]
  intro o ho
  simp only [List.mem_cons, List.not_mem_nil, or_false] at ho
  rcases ho with rfl | rfl <;> simp [Outcome.Fits, lBufferSize]

/-- With `count = 128` the reset crashes; and where an end of file comes in
front of `"a\n"`, the next call returns `0` after a reset, but the line on a new
descriptor. -/
theorem reset_not_like_new :
    (∃ r, readlineTout [] 0 (some fun _ => 7) 4 [.data [120, 10]] =
        .returns r afterOneCall []) ∧
      readlineTout afterOneCall 0 none 128 [] = .crashes ∧
      ¬ ResetLikeNew afterOneCall 0 128 [] [] ∧
      ¬ ResetLikeNew afterOneCall 0 0 [.data [], .data [97, 10]]
        [(fun _ => 7, 4)] := by
  refine ⟨⟨_, rfl⟩, rfl, ?_, ?_⟩
  · rintro ⟨r, pairs', hcall, -⟩
    have hcrashes : readlineTout afterOneCall 0 none 128 [] = .crashes := rfl
    simp [hcrashes] at hcall
  · rintro ⟨r, pairs', hcall, -, -, -, -, halike⟩
    have hreset : readlineTout afterOneCall 0 none 0
        [.data [], .data [97, 10]] = .returns _ _ _ := rfl
    rw [hreset] at hcall
    simp only [Call.returns.injEq, and_true] at hcall
    obtain ⟨-, rfl⟩ := hcall
    have heq := congrArg (List.map CallResult.ret)
      (halike [] pairsOk_nil (by simp))
    revert heq
    decide

end Pvos.Readline
