import Mathlib.Algebra.BigOperators.Group.Finset.Basic
import Mathlib.Data.List.TakeWhile
import Pvos.PipeThreads.ForkJoin
import Pvos.Support.Steps

/-!
# The contents in the order of the arguments

The passes of the two loops that are behind `main` determine which threads it
has created and which ones it has joined.  A thread in between is on its way to
what `read_file` returns, and no other thread can keep it from getting there.
So the output depends neither on the order of the steps nor on how long a
thread takes.
-/

namespace Pvos.PipeThreads

open Pvos.Support

/-! ## The invariant -/

namespace JoinPc

/-- The passes of the first loop that are behind `main`, of `n`. -/
def created (n : ℕ) : JoinPc → ℕ
  | .starting => 0
  | .creating i => i
  | .joining _ | .returned | .misjoins _ => n

/-- The passes of the second loop that are behind `main`. -/
def joined (n : ℕ) : JoinPc → ℕ
  | .starting | .creating _ => 0
  | .joining i | .misjoins i => i
  | .returned => n

end JoinPc

/-- The thread of argument `j`, compared with the passes behind `main`. -/
structure ThreadInv (n : ℕ) (pc : JoinPc) (j : ℕ) (a : ThreadArgument)
    (t : FileThreadPc) : Prop where
  uncreated : t = .uncreated ↔ ¬ (j < pc.created n ∧ a.creates = true)
  joined : t = .joined ↔ j < pc.joined n
  onTheWay : a.OnTheWay t

/-- Where the same passes are behind `main`. -/
theorem ThreadInv.of_same {n j : ℕ} {pc pc' : JoinPc} {a : ThreadArgument}
    {t : FileThreadPc} (h : ThreadInv n pc j a t)
    (hcreated : pc'.created n = pc.created n)
    (hjoined : pc'.joined n = pc.joined n) : ThreadInv n pc' j a t := by
  refine ⟨?_, ?_, h.onTheWay⟩
  · rw [hcreated]
    exact h.uncreated
  · rw [hjoined]
    exact h.joined

structure JoinInv (args : List ThreadArgument) (out : List Text)
    (s : FileMain) : Prop where
  created_le : s.pc.created args.length ≤ args.length
  joined_le : s.pc.joined args.length ≤ args.length
  handles_length : s.handles.length = s.pc.created args.length
  handles : ∀ j (a : ThreadArgument), args[j]? = some a →
    j < s.pc.created args.length →
    s.handles[j]? = some (if a.creates then some j else none)
  threads : ∀ j (a : ThreadArgument), args[j]? = some a →
    ThreadInv args.length s.pc j a (s.threads j)
  creates : ∀ a ∈ args.take (s.pc.joined args.length), a.creates = true
  misjoins : ∀ i, s.pc = .misjoins i →
    ∃ a, args[i]? = some a ∧ a.creates = false
  printed : out = if s.pc = .starting then []
    else joinedPrints args (args.take (s.pc.joined args.length))

section Steps

variable {args : List ThreadArgument} {out es : List Text} {s s' : FileMain}

theorem joinInv_start (args : List ThreadArgument) :
    JoinInv args [] FileMain.start where
  created_le := Nat.zero_le _
  joined_le := Nat.zero_le _
  handles_length := rfl
  handles _ _ _ hj := absurd hj (Nat.not_lt_zero _)
  threads _ _ _ :=
    { uncreated := iff_of_true rfl fun h => Nat.not_lt_zero _ h.1
      joined := iff_of_false (by simp [FileMain.start]) (Nat.not_lt_zero _)
      onTheWay := trivial }
  creates a ha := by simp [FileMain.start, JoinPc.joined] at ha
  misjoins i hi := by simp [FileMain.start] at hi
  printed := rfl

/-- The other threads stay as they are. -/
theorem JoinInv.threads_update (hinv : JoinInv args out s) {j : ℕ}
    {t : FileThreadPc} {pc : JoinPc}
    (hself : ∀ a, args[j]? = some a → ThreadInv args.length pc j a t)
    (hothers : ∀ i a, i ≠ j → args[i]? = some a →
      ThreadInv args.length s.pc i a (s.threads i) →
        ThreadInv args.length pc i a (s.threads i)) :
    ∀ i a, args[i]? = some a →
      ThreadInv args.length pc i a (Function.update s.threads j t i) :=
  (Function.forall_update_iff s.threads
    (fun i t => ∀ a, args[i]? = some a → ThreadInv args.length pc i a t)).mpr
    ⟨hself, fun i hi a ha => hothers i a hi ha (hinv.threads i a ha)⟩

/-- A step of a thread. -/
theorem joinInv_thread (hinv : JoinInv args out s) {j : ℕ}
    {a : ThreadArgument} {t : FileThreadPc} (ha : args[j]? = some a)
    (h : a.threadStep (s.threads j) = some t) :
    JoinInv args out { s with threads := Function.update s.threads j t } := by
  have hthread := hinv.threads j a ha
  obtain ⟨hway, -, hruns, hruns'⟩ := threadStep_spec hthread.onTheWay h
  refine { hinv with threads := hinv.threads_update ?_ fun _ _ _ _ h => h }
  intro b hb
  obtain rfl := Option.some.inj (ha.symm.trans hb)
  constructor
  · refine (iff_of_false ?_ ?_).trans hthread.uncreated
    · rintro rfl
      exact hruns'
    · intro heq
      rw [heq] at hruns
      exact hruns
  · refine (iff_of_false ?_ ?_).trans hthread.joined
    · rintro rfl
      exact hruns'
    · intro heq
      rw [heq] at hruns
      exact hruns
  · exact hway

theorem handles_concat {handles : List (Option ℕ)} {i : ℕ}
    {a : ThreadArgument} (hlength : handles.length = i)
    (hhandles : ∀ j (b : ThreadArgument), args[j]? = some b → j < i →
      handles[j]? = some (if b.creates then some j else none))
    (ha : args[i]? = some a) :
    ∀ j (b : ThreadArgument), args[j]? = some b → j < i + 1 →
      (handles ++ [if a.creates then some i else none])[j]? =
        some (if b.creates then some j else none) := by
  intro j b hb hj
  rcases Nat.lt_succ_iff_lt_or_eq.mp hj with hlt | rfl
  · rw [List.getElem?_append_left (by omega)]
    exact hhandles j b hb hlt
  · obtain rfl := Option.some.inj (ha.symm.trans hb)
    rw [← hlength]
    exact List.getElem?_concat_length

/-- A pass of the first loop, whose thread may not be created. -/
theorem joinInv_create (hinv : JoinInv args out s) {i : ℕ}
    (hpc : s.pc = .creating i) : JoinInv args out (s.createStep args i) := by
  obtain ⟨pc, handles, threads⟩ := s
  obtain rfl : pc = .creating i := hpc
  have hcreated : i ≤ args.length := hinv.created_le
  unfold FileMain.createStep
  split
  next hnone =>
    -- The second loop begins.
    have hle := List.getElem?_eq_none_iff.mp hnone
    obtain rfl : i = args.length := Nat.le_antisymm hcreated hle
    exact
      { created_le := Nat.le_refl _
        joined_le := Nat.zero_le _
        handles_length := hinv.handles_length
        handles := hinv.handles
        threads := fun j b hb => (hinv.threads j b hb).of_same rfl rfl
        creates := hinv.creates
        misjoins := fun _ h => by cases h
        printed := hinv.printed }
  next a ha =>
    have hi : i < args.length := (List.getElem?_eq_some_iff.mp ha).1
    have hlength : handles.length = i := hinv.handles_length
    have hhandles := handles_concat hlength hinv.handles ha
    -- The threads of the other arguments are created or not as before.
    have hothers (j : ℕ) (b : ThreadArgument) (hj : j ≠ i)
        (h : ThreadInv args.length (.creating i) j b (threads j)) :
        ThreadInv args.length (.creating (i + 1)) j b (threads j) := by
      refine ⟨h.uncreated.trans (not_congr (and_congr_left fun _ => ?_)),
        h.joined, h.onTheWay⟩
      show j < i ↔ j < i + 1
      omega
    split
    next hcreates =>
      rw [if_pos hcreates] at hhandles
      exact
        { created_le := hi
          joined_le := Nat.zero_le _
          handles_length := by simp [JoinPc.created, hlength]
          handles := hhandles
          threads := hinv.threads_update
            (fun b hb => by
              obtain rfl := Option.some.inj (ha.symm.trans hb)
              exact
                { uncreated := iff_of_false (by simp)
                    (not_not_intro ⟨Nat.lt_succ_self i, hcreates⟩)
                  joined := iff_of_false (by simp) (Nat.not_lt_zero i)
                  onTheWay := trivial })
            (fun j b hj _ => hothers j b hj)
          creates := hinv.creates
          misjoins := fun _ h => by cases h
          printed := hinv.printed }
    next hcreates =>
      rw [if_neg hcreates] at hhandles
      exact
        { created_le := hi
          joined_le := Nat.zero_le _
          handles_length := by simp [JoinPc.created, hlength]
          handles := hhandles
          threads := fun j b hb => by
            rcases eq_or_ne j i with rfl | hj
            · have h := hinv.threads j b hb
              obtain rfl := Option.some.inj (ha.symm.trans hb)
              refine ⟨iff_of_true ?_ fun hand => hcreates hand.2, h.joined,
                h.onTheWay⟩
              exact h.uncreated.mpr fun hand => Nat.lt_irrefl j hand.1
            · exact hothers j b hj (hinv.threads j b hb)
          creates := hinv.creates
          misjoins := fun _ h => by cases h
          printed := hinv.printed }

/-- A pass of the second loop: it ends the loop, joins the thread of the
argument, or finds no thread. -/
theorem joinStep_cases (hinv : JoinInv args out s) {i : ℕ}
    (hpc : s.pc = .joining i) (h : s.joinStep args i = some (s', es)) :
    (i = args.length ∧ s' = { s with pc := .returned } ∧ es = []) ∨
      ∃ a, args[i]? = some a ∧
        ((a.creates = true ∧ s.threads i = .returned a.content ∧
            s' = { s with
              pc := .joining (i + 1)
              threads := Function.update s.threads i .joined } ∧
            es = [a.prints]) ∨
          (a.creates = false ∧ s' = { s with pc := .misjoins i } ∧ es = [])) := by
  have hjoined := hinv.joined_le
  rw [hpc] at hjoined
  unfold FileMain.joinStep at h
  split at h
  next hi =>
    obtain ⟨a, ha⟩ : ∃ a, args[i]? = some a :=
      ⟨args[i], List.getElem?_eq_getElem hi⟩
    have hthread := hinv.threads i a ha
    have hhandle := hinv.handles i a ha (by rw [hpc]; exact hi)
    rw [hpc] at hthread
    refine Or.inr ⟨a, ha, ?_⟩
    cases hcreates : a.creates with
    | true =>
        rw [hcreates, if_pos rfl] at hhandle
        rw [hhandle] at h
        dsimp only at h
        cases ht : s.threads i with
        | uncreated =>
            exact absurd ⟨hi, hcreates⟩ (hthread.uncreated.mp ht)
        | joined => exact absurd (hthread.joined.mp ht) (Nat.lt_irrefl i)
        | opening | reading t reads =>
            rw [ht] at h
            cases h
        | returned content =>
            rw [ht] at h
            obtain ⟨rfl, rfl⟩ := Prod.mk.inj (Option.some.inj h)
            have hcontent : content = a.content := by
              have hway := hthread.onTheWay
              rwa [ht] at hway
            rw [hcontent]
            exact Or.inl ⟨rfl, rfl, rfl, rfl⟩
    | false =>
        rw [hcreates, if_neg Bool.false_ne_true] at hhandle
        rw [hhandle] at h
        obtain ⟨rfl, rfl⟩ := Prod.mk.inj (Option.some.inj h)
        exact Or.inr ⟨rfl, rfl, rfl⟩
  next hi =>
    obtain ⟨rfl, rfl⟩ := Prod.mk.inj (Option.some.inj h)
    exact Or.inl ⟨Nat.le_antisymm hjoined (Nat.le_of_not_lt hi), rfl, rfl⟩

theorem joinInv_join (hinv : JoinInv args out s) {i : ℕ}
    (hpc : s.pc = .joining i) (h : s.joinStep args i = some (s', es)) :
    JoinInv args (out ++ es) s' := by
  have hcases := joinStep_cases hinv hpc h
  obtain ⟨pc, handles, threads⟩ := s
  obtain rfl : pc = .joining i := hpc
  have hjoined : i ≤ args.length := hinv.joined_le
  rcases hcases with ⟨rfl, rfl, rfl⟩ |
    ⟨a, ha, ⟨hcreates, -, rfl, rfl⟩ | ⟨hcreates, rfl, rfl⟩⟩
  · rw [List.append_nil]
    exact
      { created_le := Nat.le_refl _
        joined_le := Nat.le_refl _
        handles_length := hinv.handles_length
        handles := hinv.handles
        threads := fun j b hb => (hinv.threads j b hb).of_same rfl rfl
        creates := hinv.creates
        misjoins := fun _ h => by cases h
        printed := hinv.printed }
  · have hi := (List.getElem?_eq_some_iff.mp ha).1
    have htake : args.take (i + 1) = args.take i ++ [a] := by
      rw [List.take_add_one, ha]
      rfl
    exact
      { created_le := Nat.le_refl _
        joined_le := hi
        handles_length := hinv.handles_length
        handles := hinv.handles
        threads := hinv.threads_update
          (fun b hb => by
            obtain rfl := Option.some.inj (ha.symm.trans hb)
            exact
              { uncreated := iff_of_false (by simp)
                  (not_not_intro ⟨hi, hcreates⟩)
                joined := iff_of_true rfl (Nat.lt_succ_self i)
                onTheWay := trivial })
          (fun j b hj _ h => by
            refine ⟨h.uncreated, h.joined.trans ?_, h.onTheWay⟩
            show j < i ↔ j < i + 1
            omega)
        creates := by
          show ∀ b ∈ args.take (i + 1), b.creates = true
          rw [htake, List.forall_mem_append]
          exact ⟨hinv.creates, List.forall_mem_singleton.mpr hcreates⟩
        misjoins := fun _ h => by cases h
        printed := by
          have hprinted : out = joinedPrints args (args.take i) :=
            hinv.printed
          show out ++ [a.prints] = joinedPrints args (args.take (i + 1))
          rw [htake, hprinted, joinedPrints, joinedPrints, List.map_append,
            List.append_assoc]
          rfl }
  · rw [List.append_nil]
    exact
      { created_le := Nat.le_refl _
        joined_le := hjoined
        handles_length := hinv.handles_length
        handles := hinv.handles
        threads := fun j b hb => (hinv.threads j b hb).of_same rfl rfl
        creates := hinv.creates
        misjoins := fun k hk => by
          obtain rfl : i = k := JoinPc.misjoins.inj hk
          exact ⟨a, ha, hcreates⟩
        printed := hinv.printed }

theorem joinInv_main (hinv : JoinInv args out s)
    (h : s.mainStep args = some (s', es)) : JoinInv args (out ++ es) s' := by
  unfold FileMain.mainStep at h
  split at h
  next hpc =>
    obtain ⟨pc, handles, threads⟩ := s
    obtain rfl : pc = .starting := hpc
    obtain ⟨rfl, rfl⟩ := Prod.mk.inj (Option.some.inj h)
    obtain rfl : out = [] := hinv.printed
    exact
      { created_le := Nat.zero_le _
        joined_le := Nat.zero_le _
        handles_length := hinv.handles_length
        handles := hinv.handles
        threads := fun j b hb => (hinv.threads j b hb).of_same rfl rfl
        creates := hinv.creates
        misjoins := fun _ h => by cases h
        printed := by simp [joinedPrints, JoinPc.joined] }
  next i hpc =>
    obtain ⟨rfl, rfl⟩ := Prod.mk.inj (Option.some.inj h)
    rw [List.append_nil]
    exact joinInv_create hinv hpc
  next i hpc => exact joinInv_join hinv hpc h
  next => cases h
  next => cases h

theorem joinInv_step (hinv : JoinInv args out s)
    (h : (forkJoinSystem args).step s es s') : JoinInv args (out ++ es) s' := by
  obtain ⟨who, h⟩ := h
  cases who with
  | none => exact joinInv_main hinv h
  | some j =>
      obtain ⟨a, ha, hthread⟩ := Option.bind_eq_some_iff.mp h
      obtain ⟨t, ht, hrest⟩ := Option.map_eq_some_iff.mp hthread
      obtain ⟨rfl, rfl⟩ := Prod.mk.inj hrest
      rw [List.append_nil]
      exact joinInv_thread hinv ha ht

theorem joinInv_steps {n : ℕ} (h : (forkJoinSystem args).Steps .start n out s) :
    JoinInv args out s := by
  refine System.Exec.invariant (I := JoinInv args) ?_ ?_
    ⟨FileMain.start, rfl, h.run⟩
  · rintro s rfl
    exact joinInv_start args
  · intro tr s es s' hinv hstep
    exact joinInv_step hinv hstep

/-! ## The number of steps -/

/-- The steps that `main` still makes, of `n` arguments. -/
def mainRank (n : ℕ) : JoinPc → ℕ
  | .starting => 2 * n + 3
  | .creating i => 2 * n + 2 - i
  | .joining i => n + 1 - i
  | .returned | .misjoins _ => 0

/-- The steps that the thread of argument `j` still makes. -/
def rankOfThread (args : List ThreadArgument) (threads : ℕ → FileThreadPc)
    (j : ℕ) : ℕ :=
  args[j]?.elim 0 fun a => a.threadRank (threads j)

def joinRank (args : List ThreadArgument) (s : FileMain) : ℕ :=
  mainRank args.length s.pc +
    ∑ j ∈ Finset.range args.length, rankOfThread args s.threads j

/-- Another state of a thread changes its summand. -/
theorem sum_rankOfThread_update {j : ℕ} {a : ThreadArgument}
    (ha : args[j]? = some a) (threads : ℕ → FileThreadPc) (t : FileThreadPc) :
    ∑ i ∈ Finset.range args.length,
        rankOfThread args (Function.update threads j t) i +
        a.threadRank (threads j) =
      ∑ i ∈ Finset.range args.length, rankOfThread args threads i +
        a.threadRank t := by
  have hj : j ∈ Finset.range args.length :=
    Finset.mem_range.mpr (List.getElem?_eq_some_iff.mp ha).1
  rw [← Finset.add_sum_erase _ _ hj,
    ← Finset.add_sum_erase _ (rankOfThread args threads) hj]
  have hothers : ∑ i ∈ (Finset.range args.length).erase j,
        rankOfThread args (Function.update threads j t) i =
      ∑ i ∈ (Finset.range args.length).erase j, rankOfThread args threads i := by
    refine Finset.sum_congr rfl fun i hi => ?_
    unfold rankOfThread
    rw [Function.update_of_ne (Finset.ne_of_mem_erase hi)]
  rw [hothers]
  simp only [rankOfThread, ha, Option.elim_some, Function.update_self]
  omega

/-- A pass of the first loop creates a thread that counted before. -/
theorem joinRank_create (hinv : JoinInv args out s) {i : ℕ}
    (hpc : s.pc = .creating i) :
    joinRank args (s.createStep args i) < joinRank args s := by
  have hcreated := hinv.created_le
  rw [hpc] at hcreated
  change i ≤ args.length at hcreated
  unfold joinRank FileMain.createStep
  rw [hpc]
  split
  next hnone =>
    dsimp only [mainRank]
    omega
  next a ha =>
    have hi := (List.getElem?_eq_some_iff.mp ha).1
    split
    next hcreates =>
      have huncreated : s.threads i = .uncreated := by
        rw [(hinv.threads i a ha).uncreated, hpc]
        exact fun hand => Nat.lt_irrefl i hand.1
      have hsum := sum_rankOfThread_update ha s.threads .opening
      rw [huncreated] at hsum
      dsimp only [ThreadArgument.threadRank, mainRank] at hsum ⊢
      omega
    next =>
      dsimp only [mainRank]
      omega

theorem joinRank_join (hinv : JoinInv args out s) {i : ℕ}
    (hpc : s.pc = .joining i) (h : s.joinStep args i = some (s', es)) :
    joinRank args s' < joinRank args s := by
  have hjoined := hinv.joined_le
  rw [hpc] at hjoined
  change i ≤ args.length at hjoined
  unfold joinRank
  rw [hpc]
  rcases joinStep_cases hinv hpc h with ⟨-, rfl, -⟩ |
    ⟨a, ha, ⟨-, ht, rfl, -⟩ | ⟨-, rfl, -⟩⟩
  · dsimp only [mainRank]
    omega
  · have hi := (List.getElem?_eq_some_iff.mp ha).1
    have hsum := sum_rankOfThread_update ha s.threads .joined
    rw [ht] at hsum
    dsimp only [ThreadArgument.threadRank, mainRank] at hsum ⊢
    omega
  · dsimp only [mainRank]
    omega

theorem joinRank_step (hinv : JoinInv args out s)
    (h : (forkJoinSystem args).step s es s') :
    joinRank args s' < joinRank args s := by
  obtain ⟨who, h⟩ := h
  cases who with
  | none =>
      unfold forkJoinStep FileMain.mainStep at h
      dsimp only at h
      split at h
      next hpc =>
        obtain ⟨rfl, rfl⟩ := Prod.mk.inj (Option.some.inj h)
        unfold joinRank
        rw [hpc]
        dsimp only [mainRank]
        omega
      next i hpc =>
        obtain ⟨rfl, rfl⟩ := Prod.mk.inj (Option.some.inj h)
        exact joinRank_create hinv hpc
      next i hpc => exact joinRank_join hinv hpc h
      next => cases h
      next => cases h
  | some j =>
      obtain ⟨a, ha, hthread⟩ := Option.bind_eq_some_iff.mp h
      obtain ⟨t, ht, hrest⟩ := Option.map_eq_some_iff.mp hthread
      obtain ⟨rfl, rfl⟩ := Prod.mk.inj hrest
      obtain ⟨-, hless, -, -⟩ :=
        threadStep_spec (hinv.threads j a ha).onTheWay ht
      have hsum := sum_rankOfThread_update ha s.threads t
      unfold joinRank
      dsimp only
      omega

/-! ## The end -/

/-- As long as `main` waits, the thread that it waits for makes steps. -/
theorem exists_joinTurn (hinv : JoinInv args out s) {i : ℕ}
    (hpc : s.pc = .joining i) :
    ∃ who next, forkJoinStep args s who = some next := by
  have hmain (h : ∃ next, s.joinStep args i = some next) :
      ∃ who next, forkJoinStep args s who = some next := by
    obtain ⟨next, h⟩ := h
    refine ⟨none, next, ?_⟩
    simp only [forkJoinStep, FileMain.mainStep, hpc, h]
  by_cases hi : i < args.length
  · obtain ⟨a, ha⟩ : ∃ a, args[i]? = some a :=
      ⟨args[i], List.getElem?_eq_getElem hi⟩
    have hthread := hinv.threads i a ha
    have hhandle := hinv.handles i a ha (by rw [hpc]; exact hi)
    rw [hpc] at hthread
    cases hcreates : a.creates with
    | true =>
        rw [hcreates, if_pos rfl] at hhandle
        by_cases ht : ∃ content, s.threads i = .returned content
        · obtain ⟨content, ht⟩ := ht
          refine hmain (Option.isSome_iff_exists.mp ?_)
          simp only [FileMain.joinStep, if_pos hi, hhandle, ht]
          rfl
        · have hruns : (s.threads i).Runs := by
            cases hpcOf : s.threads i with
            | uncreated =>
                exact hthread.uncreated.mp hpcOf ⟨hi, hcreates⟩
            | joined => exact Nat.lt_irrefl i (hthread.joined.mp hpcOf)
            | opening | reading t reads | returned content => trivial
          obtain ⟨t, hstep⟩ := exists_threadStep hthread.onTheWay hruns
            (fun content h => ht ⟨content, h⟩)
          refine ⟨some i, Option.isSome_iff_exists.mp ?_⟩
          simp only [forkJoinStep, FileMain.readerThreadStep, ha,
            Option.bind_some, hstep, Option.map_some]
          rfl
    | false =>
        rw [hcreates, if_neg Bool.false_ne_true] at hhandle
        refine hmain (Option.isSome_iff_exists.mp ?_)
        simp only [FileMain.joinStep, if_pos hi, hhandle]
        rfl
  · exact hmain ⟨_, if_neg hi⟩

theorem exists_forkJoinStep (hinv : JoinInv args out s)
    (hreturned : s.pc ≠ .returned) (hmisjoins : ∀ i, s.pc ≠ .misjoins i) :
    ∃ es s', (forkJoinSystem args).step s es s' := by
  have hnext : ∃ who next, forkJoinStep args s who = some next := by
    cases hpc : s.pc with
    | starting | creating i =>
        refine ⟨none, Option.isSome_iff_exists.mp ?_⟩
        simp only [forkJoinStep, FileMain.mainStep, hpc]
        rfl
    | joining i => exact exists_joinTurn hinv hpc
    | returned => exact absurd hpc hreturned
    | misjoins i => exact absurd hpc (hmisjoins i)
  obtain ⟨who, next, hstep⟩ := hnext
  exact ⟨next.2, next.1, who, hstep⟩

/-- `main` has printed a beginning of the contents that it can join. -/
theorem JoinInv.begins (hinv : JoinInv args out s) :
    out <+: joinedPrints args (joinable args) := by
  rw [hinv.printed]
  split
  next => exact List.nil_prefix
  next =>
    unfold joinedPrints
    rw [List.prefix_append_right_inj]
    exact (take_joinable hinv.creates).map ThreadArgument.prints

theorem JoinInv.returned (hinv : JoinInv args out s)
    (hpc : s.pc = .returned) :
    out = joinedPrints args (joinable args) ∧
      ∀ a ∈ args, a.creates = true := by
  have hcreates := hinv.creates
  have hprinted := hinv.printed
  rw [hpc] at hcreates hprinted
  change ∀ a ∈ args.take args.length, a.creates = true at hcreates
  rw [List.take_length] at hcreates
  refine ⟨hprinted.trans ?_, hcreates⟩
  rw [if_neg (by simp), joinable, List.takeWhile_eq_self_iff.mpr hcreates]
  show joinedPrints args (args.take args.length) = _
  rw [List.take_length]

/-- When `main` returns, no thread is left. -/
theorem JoinInv.no_step (hinv : JoinInv args out s) (hpc : s.pc = .returned) :
    ¬ (forkJoinSystem args).step s es s' := by
  rintro ⟨who, h⟩
  cases who with
  | none =>
      simp only [forkJoinStep, FileMain.mainStep, hpc] at h
      cases h
  | some j =>
      obtain ⟨a, ha, hthread⟩ := Option.bind_eq_some_iff.mp h
      obtain ⟨t, ht, -⟩ := Option.map_eq_some_iff.mp hthread
      have hj := (List.getElem?_eq_some_iff.mp ha).1
      have hjoined : s.threads j = .joined := by
        rw [(hinv.threads j a ha).joined, hpc]
        exact hj
      rw [hjoined] at ht
      cases ht

theorem JoinInv.misjoined (hinv : JoinInv args out s) {i : ℕ}
    (hpc : s.pc = .misjoins i) :
    out = joinedPrints args (joinable args) ∧
      ∃ a ∈ args, a.creates = false := by
  obtain ⟨a, ha, hcreates⟩ := hinv.misjoins i hpc
  have hbefore := hinv.creates
  have hprinted := hinv.printed
  rw [hpc] at hbefore hprinted
  change ∀ b ∈ args.take i, b.creates = true at hbefore
  rw [if_neg (by simp)] at hprinted
  refine ⟨hprinted.trans ?_, a, List.mem_of_getElem? ha, hcreates⟩
  have hjoinable : joinable args = args.take i := by
    conv_lhs => rw [joinable, ← List.take_append_drop i args]
    rw [List.takeWhile_append_of_pos hbefore,
      List.drop_eq_getElem?_toList_append, ha, Option.toList_some,
      List.singleton_append, List.takeWhile_cons_of_neg (by simp [hcreates]),
      List.append_nil]
  rw [hjoinable]
  rfl

theorem rank_start (args : List ThreadArgument) :
    joinRank args .start = 2 * args.length + 3 +
      (args.map fun a => a.pieces.length + 2).sum := by
  have hsum : ∑ j ∈ Finset.range args.length,
      rankOfThread args FileMain.start.threads j =
        (args.map fun a => a.pieces.length + 2).sum := by
    induction args with
    | nil => rfl
    | cons a args ih =>
        rw [List.length_cons, Finset.sum_range_succ', List.map_cons,
          List.sum_cons, Nat.add_comm, ← ih]
        rfl
  rw [joinRank, hsum]
  rfl

end Steps

/-- A file, and one that does not open. -/
def helloAndMissing : List ThreadArgument :=
  [⟨helloThread 0, true, true⟩, ⟨helloThread 0, true, false⟩]

end Pvos.PipeThreads
