import Pvos.Support.System

/-!
# How many steps a run can take between events

A rank that every silent step lowers bounds the silent steps of a run, and a
rank that the events pay for bounds the steps by the events.  Both are one
inequality for each step, with an invariant that the steps keep.  A rank that
some step lowers leads to a goal.
-/

namespace Pvos.Support

namespace System

variable {σ ε : Type*}

/-- `S.Steps s n tr s'`: `n` steps lead from `s` to `s'` and emit `tr`. -/
inductive Steps (S : System σ ε) (s : σ) : ℕ → List ε → σ → Prop
  | refl : Steps S s 0 [] s
  | tail {n : ℕ} {tr es : List ε} {s' s'' : σ} :
      Steps S s n tr s' → S.step s' es s'' →
        Steps S s (n + 1) (tr ++ es) s''

variable {S : System σ ε} {s s' : σ} {tr : List ε} {n : ℕ}

theorem Steps.run (h : S.Steps s n tr s') : S.Run s tr s' := by
  induction h with
  | refl => exact .refl
  | tail _ hstep ih => exact ih.tail hstep

theorem Run.steps (h : S.Run s tr s') : ∃ n, S.Steps s n tr s' := by
  induction h with
  | refl => exact ⟨0, .refl⟩
  | tail _ hstep ih =>
      obtain ⟨n, hsteps⟩ := ih
      exact ⟨n + 1, hsteps.tail hstep⟩

theorem Steps.eq_of_zero (h : S.Steps s 0 tr s') : s' = s := by
  cases h
  rfl

/-- Steps that each emit at most one event. -/
theorem Steps.length_le (hone : ∀ s es s', S.step s es s' → es.length ≤ 1)
    (h : S.Steps s n tr s') : tr.length ≤ n := by
  induction h with
  | refl => exact Nat.le_refl 0
  | tail _ hstep ih =>
      rw [List.length_append]
      have := hone _ _ _ hstep
      omega

/-- Where each step costs one unit of a rank and the events of a history refill
it by `gain`, the rank and the gain bound the number of steps. -/
theorem Steps.rank_le (I : σ → Prop) (rank : σ → ℕ) (gain : List ε → ℕ)
    (hgain : ∀ tr es, gain tr + gain es ≤ gain (tr ++ es))
    (hstep : ∀ s es s', I s → S.step s es s' →
      I s' ∧ rank s' + 1 ≤ rank s + gain es)
    (hs : I s) (h : S.Steps s n tr s') :
    I s' ∧ rank s' + n ≤ rank s + gain tr := by
  induction h with
  | refl => exact ⟨hs, Nat.le_add_right _ _⟩
  | @tail n tr es s₁ s₂ _ hlast ih =>
      obtain ⟨hI, hle⟩ := ih
      obtain ⟨hI', hless⟩ := hstep _ _ _ hI hlast
      have hpaid := hgain tr es
      exact ⟨hI', by omega⟩

/-- Where a step that lowers a rank is possible as long as the goal is not
reached, a run can be continued to the goal. -/
theorem exists_run_until (I : List ε → σ → Prop) (goal : σ → Prop)
    (rank : σ → ℕ)
    (hstep : ∀ tr s, I tr s → ¬ goal s →
      ∃ es s', S.step s es s' ∧ I (tr ++ es) s' ∧ rank s' < rank s)
    (hs : I tr s) : ∃ es s', S.Run s es s' ∧ I (tr ++ es) s' ∧ goal s' := by
  induction hn : rank s using Nat.strong_induction_on generalizing tr s with
  | _ n ih =>
      by_cases hgoal : goal s
      · exact ⟨[], s, .refl, by rwa [List.append_nil], hgoal⟩
      · obtain ⟨es, s₁, hfirst, hI, hless⟩ := hstep tr s hs hgoal
        obtain ⟨es', s', hrun, hI', hgoal'⟩ := ih (rank s₁) (hn ▸ hless) hI rfl
        exact ⟨es ++ es', s', .head hfirst hrun,
          by rwa [← List.append_assoc], hgoal'⟩

end System

end Pvos.Support
