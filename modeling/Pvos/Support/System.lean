import Mathlib.Data.List.Infix
import Mathlib.Logic.Function.Basic

/-!
# Labelled transition systems with traces

A step of a system emits a finite list of observable events; a step that emits
none is internal.  Runs are built by appending steps at the end, so that an
induction on a run meets the whole trace observed so far.

The invariant rules below are stated for predicates of the trace and the
current state.  A forward simulation matches one step by a run of the other
system with the same events, and transports every trace.
-/

namespace Pvos.Support

/-- A transition system over states `σ` whose steps emit events of type `ε`. -/
structure System (σ ε : Type*) where
  init : σ → Prop
  step : σ → List ε → σ → Prop

namespace System

variable {σ τ υ ε : Type*}

/-- `S.Run s tr s'`: finitely many steps lead from `s` to `s'` and emit `tr`. -/
inductive Run (S : System σ ε) (s : σ) : List ε → σ → Prop
  | refl : Run S s [] s
  | tail {tr es : List ε} {s' s'' : σ} :
      Run S s tr s' → S.step s' es s'' → Run S s (tr ++ es) s''

/-- `S.Exec tr s`: some run from an initial state emits `tr` and ends in `s`. -/
def Exec (S : System σ ε) (tr : List ε) (s : σ) : Prop :=
  ∃ s₀, S.init s₀ ∧ S.Run s₀ tr s

/-- States in which some run from an initial state ends. -/
def Reachable (S : System σ ε) (s : σ) : Prop :=
  ∃ tr, S.Exec tr s

/-- The histories a system can show. -/
def traces (S : System σ ε) : Set (List ε) :=
  {tr | ∃ s, S.Exec tr s}

/-! ## Composing runs -/

theorem Run.single {S : System σ ε} {s s' : σ} {es : List ε}
    (h : S.step s es s') : S.Run s es s' := by
  simpa using Run.tail Run.refl h

theorem Run.trans {S : System σ ε} {s s' s'' : σ} {tr tr' : List ε}
    (h : S.Run s tr s') (h' : S.Run s' tr' s'') : S.Run s (tr ++ tr') s'' := by
  induction h' with
  | refl => simpa using h
  | tail _ hstep ih =>
      rw [← List.append_assoc]
      exact Run.tail ih hstep

theorem Run.head {S : System σ ε} {s s' s'' : σ} {es tr : List ε}
    (h : S.step s es s') (h' : S.Run s' tr s'') : S.Run s (es ++ tr) s'' :=
  (Run.single h).trans h'

theorem Exec.init {S : System σ ε} {s : σ} (h : S.init s) : S.Exec [] s :=
  ⟨s, h, Run.refl⟩

theorem Exec.run {S : System σ ε} {s s' : σ} {tr tr' : List ε}
    (h : S.Exec tr s) (h' : S.Run s tr' s') : S.Exec (tr ++ tr') s' := by
  obtain ⟨s₀, hinit, hrun⟩ := h
  exact ⟨s₀, hinit, hrun.trans h'⟩

theorem Exec.step {S : System σ ε} {s s' : σ} {tr es : List ε}
    (h : S.Exec tr s) (h' : S.step s es s') : S.Exec (tr ++ es) s' :=
  h.run (Run.single h')

theorem Exec.reachable {S : System σ ε} {s : σ} {tr : List ε}
    (h : S.Exec tr s) : S.Reachable s :=
  ⟨tr, h⟩

/-! ## Invariants of runs -/

/-- A predicate of trace and state that holds initially and is kept by every
step holds along every run. -/
theorem Exec.invariant {S : System σ ε} {I : List ε → σ → Prop}
    (hinit : ∀ s, S.init s → I [] s)
    (hstep : ∀ tr s es s', I tr s → S.step s es s' → I (tr ++ es) s')
    {tr : List ε} {s : σ} (h : S.Exec tr s) : I tr s := by
  obtain ⟨s₀, hs₀, hrun⟩ := h
  induction hrun with
  | refl => exact hinit _ hs₀
  | tail _ hlast ih => exact hstep _ _ _ _ ih hlast

/-- The state-only form of `Exec.invariant`. -/
theorem Reachable.invariant {S : System σ ε} {I : σ → Prop}
    (hinit : ∀ s, S.init s → I s)
    (hstep : ∀ s es s', I s → S.step s es s' → I s')
    {s : σ} (h : S.Reachable s) : I s := by
  obtain ⟨tr, hexec⟩ := h
  exact hexec.invariant (I := fun _ s => I s) hinit
    (fun _ s es s' => hstep s es s')

/-! ## Events of a run -/

/-- Where a step emits at most one event, a run passes each of its events in a
step of its own. -/
theorem Run.split {S : System σ ε} (hone : ∀ s es s', S.step s es s' →
    es.length ≤ 1) {s s' : σ} {before after : List ε} {e : ε}
    (h : S.Run s (before ++ e :: after) s') :
    ∃ s₁ s₂, S.Run s before s₁ ∧ S.step s₁ [e] s₂ ∧ S.Run s₂ after s' := by
  generalize htr : before ++ e :: after = tr at h
  induction h generalizing after with
  | refl => simp at htr
  | @tail tr es s₁ s₂ hrun hstep ih =>
      match es, hone _ _ _ hstep with
      | [], _ =>
          rw [List.append_nil] at htr
          obtain ⟨t₁, t₂, hbefore, he, hafter⟩ := ih htr
          exact ⟨t₁, t₂, hbefore, he, by simpa using hafter.tail hstep⟩
      | [last], _ =>
          rcases List.eq_nil_or_concat after with rfl | ⟨rest, last', rfl⟩
          · obtain ⟨rfl, hlast⟩ := List.append_inj' htr rfl
            rw [hlast]
            exact ⟨s₁, s₂, hrun, hstep, .refl⟩
          · rw [List.concat_eq_append, ← List.cons_append,
              ← List.append_assoc] at htr
            obtain ⟨htr, hlast⟩ := List.append_inj' htr rfl
            obtain ⟨t₁, t₂, hbefore, he, hafter⟩ := ih htr
            refine ⟨t₁, t₂, hbefore, he, ?_⟩
            rw [List.concat_eq_append, hlast]
            exact hafter.tail hstep

/-! ## Computed runs -/

/-- Make steps by the given choices, one after the other. -/
def runChoices {C : Type*} (step : σ → C → Option (σ × List ε)) :
    σ → List C → Option (σ × List ε)
  | s, [] => some (s, [])
  | s, choice :: choices =>
      match step s choice with
      | none => none
      | some (s', es) =>
          match runChoices step s' choices with
          | none => none
          | some (s'', es') => some (s'', es ++ es')

/-- A computed run begins with the step of its first choice. -/
theorem runChoices_cons {C : Type*} {step : σ → C → Option (σ × List ε)}
    {s s' : σ} {choice : C} {choices : List C} {tr : List ε}
    (h : runChoices step s (choice :: choices) = some (s', tr)) :
    ∃ s₁ es es', step s choice = some (s₁, es) ∧
      runChoices step s₁ choices = some (s', es') ∧ tr = es ++ es' := by
  simp only [runChoices] at h
  split at h
  next => simp at h
  next s₁ es hfirst =>
    split at h
    next => simp at h
    next s₂ es' hrest =>
      simp only [Option.some.injEq, Prod.mk.injEq] at h
      obtain ⟨rfl, rfl⟩ := h
      exact ⟨s₁, es, es', hfirst, hrest, rfl⟩

theorem run_of_choices {S : System σ ε} {C : Type*}
    (step : σ → C → Option (σ × List ε))
    (hstep : ∀ s choice s' es, step s choice = some (s', es) → S.step s es s')
    {s s' : σ} {tr : List ε} (choices : List C)
    (h : runChoices step s choices = some (s', tr)) : S.Run s tr s' := by
  induction choices generalizing s tr with
  | nil =>
      simp only [runChoices, Option.some.injEq, Prod.mk.injEq] at h
      obtain ⟨rfl, rfl⟩ := h
      exact Run.refl
  | cons choice choices ih =>
      obtain ⟨s₁, es, es', hfirst, hrest, rfl⟩ := runChoices_cons h
      exact Run.head (hstep _ _ _ _ hfirst) (ih hrest)

/-! ## Conditions on the steps of computed runs -/

/-- Each step that the choices make meets `P` in the state in front of it. -/
def EachStep {C : Type*} (step : σ → C → Option (σ × List ε))
    (P : σ → C → Prop) : σ → List C → Prop
  | _, [] => True
  | s, choice :: choices =>
      P s choice ∧
        match step s choice with
        | none => True
        | some (s', _) => EachStep step P s' choices

/-- What the steps cost that the choices make. -/
def totalCost {C : Type*} (step : σ → C → Option (σ × List ε))
    (cost : σ → C → ℕ) : σ → List C → ℕ
  | _, [] => 0
  | s, choice :: choices =>
      cost s choice +
        match step s choice with
        | none => 0
        | some (s', _) => totalCost step cost s' choices

section Costs

variable {C : Type*} {step : σ → C → Option (σ × List ε)}

theorem totalCost_eq_zero_iff {cost : σ → C → ℕ} {s : σ} {choices : List C} :
    totalCost step cost s choices = 0 ↔
      EachStep step (fun s choice => cost s choice = 0) s choices := by
  induction choices generalizing s with
  | nil => exact iff_of_true rfl trivial
  | cons choice choices ih =>
      rw [totalCost, EachStep, Nat.add_eq_zero_iff]
      apply and_congr_right
      intro _
      cases step s choice with
      | none => exact iff_of_true rfl trivial
      | some next => exact ih

theorem eachStep_and {P Q : σ → C → Prop} {s : σ} {choices : List C} :
    EachStep step (fun s choice => P s choice ∧ Q s choice) s choices ↔
      EachStep step P s choices ∧ EachStep step Q s choices := by
  induction choices generalizing s with
  | nil => exact (and_self_iff).symm
  | cons choice choices ih =>
      simp only [EachStep]
      cases step s choice with
      | none => simp only [and_true]
      | some next =>
          exact (and_congr_right fun _ => ih).trans and_and_and_comm

/-- A value that each step raises by its cost is raised by a run by the cost of
all of its steps. -/
theorem add_totalCost {cost : σ → C → ℕ} (value : σ → ℤ)
    (hstep : ∀ s choice s' es, step s choice = some (s', es) →
      value s' = value s + cost s choice)
    {s s' : σ} {tr : List ε} {choices : List C}
    (h : runChoices step s choices = some (s', tr)) :
    value s' = value s + totalCost step cost s choices := by
  induction choices generalizing s tr with
  | nil =>
      simp only [runChoices, Option.some.injEq, Prod.mk.injEq] at h
      obtain ⟨rfl, rfl⟩ := h
      simp [totalCost]
  | cons choice choices ih =>
      obtain ⟨s₁, es, es', hfirst, hrest, -⟩ := runChoices_cons h
      rw [ih hrest, hstep _ _ _ _ hfirst, totalCost, hfirst]
      push_cast
      exact Int.add_assoc _ _ _

end Costs

/-! ## Final states -/

/-- No step leads on from `s`. -/
def Final (S : System σ ε) (s : σ) : Prop :=
  ∀ es s', ¬ S.step s es s'

theorem Final.eq_of_run {S : System σ ε} {s s' : σ} {tr : List ε}
    (h : S.Final s) (hrun : S.Run s tr s') : s' = s := by
  induction hrun with
  | refl => rfl
  | tail _ hstep ih => exact absurd (ih ▸ hstep) (h _ _)

theorem Final.nil_of_run {S : System σ ε} {s s' : σ} {tr : List ε}
    (h : S.Final s) (hrun : S.Run s tr s') : tr = [] := by
  cases hrun with
  | refl => rfl
  | tail hrun hstep => exact absurd (h.eq_of_run hrun ▸ hstep) (h _ _)

/-- Where every step keeps an invariant and lowers a rank, each run can be
continued until no step is left. -/
theorem exists_run_final_of_invariant {S : System σ ε} {I : σ → Prop}
    (rank : σ → ℕ) (hkeeps : ∀ s es s', I s → S.step s es s' → I s')
    (hrank : ∀ s es s', I s → S.step s es s' → rank s' < rank s) {s : σ}
    (hs : I s) : ∃ tr s', S.Run s tr s' ∧ S.Final s' ∧ I s' := by
  induction hn : rank s using Nat.strong_induction_on generalizing s with
  | _ n ih =>
      by_cases hfinal : S.Final s
      · exact ⟨[], s, Run.refl, hfinal, hs⟩
      · simp only [Final, not_forall, not_not] at hfinal
        obtain ⟨es, s₁, hstep⟩ := hfinal
        obtain ⟨tr, s', hrun, hs'⟩ := ih (rank s₁)
          (hn ▸ hrank s es s₁ hs hstep) (hkeeps s es s₁ hs hstep) rfl
        exact ⟨es ++ tr, s', Run.head hstep hrun, hs'⟩

/-- Where every step lowers a rank, each run can be continued until no step is
left. -/
theorem exists_run_final {S : System σ ε} (rank : σ → ℕ)
    (hrank : ∀ s es s', S.step s es s' → rank s' < rank s) (s : σ) :
    ∃ tr s', S.Run s tr s' ∧ S.Final s' := by
  obtain ⟨tr, s', hrun, hfinal, -⟩ :=
    exists_run_final_of_invariant (S := S) (I := fun _ => True) rank
      (fun _ _ _ _ _ => trivial) (fun s es s' _ => hrank s es s')
      (s := s) trivial
  exact ⟨tr, s', hrun, hfinal⟩

/-! ## Forward simulations -/

/-- `R` is a forward simulation of `S` by `T`: a step of `S` is matched by a
run of `T` with the same events. -/
structure Simulation (S : System σ ε) (T : System τ ε)
    (R : σ → τ → Prop) : Prop where
  init : ∀ s, S.init s → ∃ t, T.init t ∧ R s t
  step : ∀ s t es s', R s t → S.step s es s' → ∃ t', T.Run t es t' ∧ R s' t'

/-- Some relation simulates `S` by `T`. -/
def Simulates (S : System σ ε) (T : System τ ε) : Prop :=
  ∃ R, Simulation S T R

theorem Simulation.run {S : System σ ε} {T : System τ ε} {R : σ → τ → Prop}
    (h : Simulation S T R) {s s' : σ} {t : τ} {tr : List ε}
    (hR : R s t) (hrun : S.Run s tr s') :
    ∃ t', T.Run t tr t' ∧ R s' t' := by
  induction hrun with
  | refl => exact ⟨t, Run.refl, hR⟩
  | tail _ hstep ih =>
      obtain ⟨t₁, hrun₁, hR₁⟩ := ih
      obtain ⟨t₂, hrun₂, hR₂⟩ := h.step _ _ _ _ hR₁ hstep
      exact ⟨t₂, hrun₁.trans hrun₂, hR₂⟩

theorem Simulation.exec {S : System σ ε} {T : System τ ε} {R : σ → τ → Prop}
    (h : Simulation S T R) {s : σ} {tr : List ε} (hexec : S.Exec tr s) :
    ∃ t, T.Exec tr t ∧ R s t := by
  obtain ⟨s₀, hs₀, hrun⟩ := hexec
  obtain ⟨t₀, ht₀, hR₀⟩ := h.init s₀ hs₀
  obtain ⟨t, htrun, hR⟩ := h.run hR₀ hrun
  exact ⟨t, ⟨t₀, ht₀, htrun⟩, hR⟩

theorem Simulation.comp {S : System σ ε} {T : System τ ε} {U : System υ ε}
    {R : σ → τ → Prop} {Q : τ → υ → Prop}
    (h : Simulation S T R) (h' : Simulation T U Q) :
    Simulation S U (fun s u => ∃ t, R s t ∧ Q t u) := by
  constructor
  · intro s hs
    obtain ⟨t, ht, hR⟩ := h.init s hs
    obtain ⟨u, hu, hQ⟩ := h'.init t ht
    exact ⟨u, hu, t, hR, hQ⟩
  · rintro s u es s' ⟨t, hR, hQ⟩ hstep
    obtain ⟨t', hrun, hR'⟩ := h.step s t es s' hR hstep
    obtain ⟨u', hrun', hQ'⟩ := h'.run hQ hrun
    exact ⟨u', hrun', t', hR', hQ'⟩

theorem Simulates.trans {S : System σ ε} {T : System τ ε} {U : System υ ε}
    (h : Simulates S T) (h' : Simulates T U) : Simulates S U := by
  obtain ⟨R, hR⟩ := h
  obtain ⟨Q, hQ⟩ := h'
  exact ⟨_, hR.comp hQ⟩

theorem Simulates.traces_subset {S : System σ ε} {T : System τ ε}
    (h : Simulates S T) : S.traces ⊆ T.traces := by
  rintro tr ⟨s, hexec⟩
  obtain ⟨R, hR⟩ := h
  obtain ⟨t, ht, _⟩ := hR.exec hexec
  exact ⟨t, ht⟩

/-! ## Bisimulations -/

/-- Related states of `S` and `T` match each other step by step. -/
structure Bisimulation (S : System σ ε) (T : System τ ε)
    (R : σ → τ → Prop) : Prop where
  init_left : ∀ s, S.init s → ∃ t, T.init t ∧ R s t
  init_right : ∀ t, T.init t → ∃ s, S.init s ∧ R s t
  step_left : ∀ s t es s', R s t → S.step s es s' →
    ∃ t', T.step t es t' ∧ R s' t'
  step_right : ∀ s t es t', R s t → T.step t es t' →
    ∃ s', S.step s es s' ∧ R s' t'

theorem Bisimulation.simulation {S : System σ ε} {T : System τ ε}
    {R : σ → τ → Prop} (h : Bisimulation S T R) : Simulation S T R := by
  refine ⟨h.init_left, ?_⟩
  intro s t es s' hR hstep
  obtain ⟨t', hstep', hR'⟩ := h.step_left s t es s' hR hstep
  exact ⟨t', Run.single hstep', hR'⟩

theorem Bisimulation.symm {S : System σ ε} {T : System τ ε}
    {R : σ → τ → Prop} (h : Bisimulation S T R) :
    Bisimulation T S (fun t s => R s t) :=
  ⟨h.init_right, h.init_left, fun t s es t' => h.step_right s t es t',
    fun t s es s' => h.step_left s t es s'⟩

end System

end Pvos.Support
