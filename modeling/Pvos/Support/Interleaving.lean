import Mathlib.Algebra.BigOperators.Group.Finset.Basic
import Mathlib.Algebra.Order.BigOperators.Group.Finset
import Mathlib.Data.Fintype.BigOperators
import Mathlib.Data.Nat.ModEq
import Pvos.Support.System

/-!
# Interleaved processes over a shared state

A program gives, for one process, the next step on the shared state and on
its own local state.  Steps are executable functions; a choice argument
resolves what the environment decides (which operation is called, whether a
system call fails).  The interleaving lets any process take its next step at
any time.

Sums of a weight over all processes count the processes at a set of program
points.  `total_update` says how one step changes such a sum.
-/

namespace Pvos.Support

/-- A shared state together with the local state of every process. -/
@[ext]
structure Config (P G L : Type*) where
  shared : G
  loc : P → L

/-- One step of process `p` under the choice `c`: the new shared state, the
new local state and the events of the step, or `none` when it is blocked. -/
structure Program (P C G L ε : Type*) where
  proc : P → C → G → L → Option (G × L × List ε)

namespace Program

variable {P C G L ε : Type*} [DecidableEq P]

/-- The configuration after a step of process `p`. -/
def move (s : Config P G L) (p : P) (g : G) (l : L) : Config P G L where
  shared := g
  loc := Function.update s.loc p l

@[simp] theorem move_shared (s : Config P G L) (p : P) (g : G) (l : L) :
    (move s p g l).shared = g := rfl

@[simp] theorem move_loc (s : Config P G L) (p : P) (g : G) (l : L) :
    (move s p g l).loc = Function.update s.loc p l := rfl

/-- What holds of every process behind a step of `p`. -/
theorem forall_move {s : Config P G L} {p : P} {g : G} {l : L}
    {Q : P → L → Prop} (hp : Q p l) (hothers : ∀ q, q ≠ p → Q q (s.loc q)) :
    ∀ q, Q q ((move s p g l).loc q) :=
  (Function.forall_update_iff s.loc Q).mpr ⟨hp, hothers⟩

/-- What holds of some process behind a step of `p`. -/
theorem exists_move_iff {s : Config P G L} {p : P} {g : G} {l : L}
    (Q : P → L → Prop) :
    (∃ q, Q q ((move s p g l).loc q)) ↔ Q p l ∨ ∃ q ≠ p, Q q (s.loc q) :=
  Function.exists_update_iff s.loc Q

/-- The step of process `p` under the choice `c` in a configuration. -/
def exec (m : Program P C G L ε) (s : Config P G L) (p : P) (c : C) :
    Option (Config P G L × List ε) :=
  match m.proc p c s.shared (s.loc p) with
  | none => none
  | some (g, l, es) => some (move s p g l, es)

/-- All interleavings whose steps satisfy the condition `ok` on the state
before the step, the process and the choice. -/
def systemWhen (m : Program P C G L ε) (init : Config P G L → Prop)
    (ok : Config P G L → P → C → Prop) : System (Config P G L) ε where
  init := init
  step s es s' := ∃ p c, ok s p c ∧ m.exec s p c = some (s', es)

/-- All interleavings of the processes. -/
def system (m : Program P C G L ε) (init : Config P G L → Prop) :
    System (Config P G L) ε :=
  m.systemWhen init (fun _ _ _ => True)

/-- A condition that admits more steps admits more histories. -/
theorem traces_systemWhen_mono {m : Program P C G L ε}
    {init init' : Config P G L → Prop} {ok ok' : Config P G L → P → C → Prop}
    (hinit : ∀ s, init s → init' s) (hok : ∀ s p c, ok s p c → ok' s p c) :
    (m.systemWhen init ok).traces ⊆ (m.systemWhen init' ok').traces := by
  rintro tr ⟨s, s₀, hs₀, hrun⟩
  refine ⟨s, s₀, hinit s₀ hs₀, ?_⟩
  induction hrun with
  | refl => exact .refl
  | tail _ hstep ih =>
      obtain ⟨p, c, hstepOk, hexec⟩ := hstep
      exact ih.tail ⟨p, c, hok _ p c hstepOk, hexec⟩

theorem exec_eq_some {m : Program P C G L ε} {s s' : Config P G L} {p : P}
    {c : C} {es : List ε} (h : m.exec s p c = some (s', es)) :
    ∃ g l, m.proc p c s.shared (s.loc p) = some (g, l, es) ∧
      s' = move s p g l := by
  unfold exec at h
  split at h
  next => simp at h
  next g l es' hproc =>
    simp only [Option.some.injEq, Prod.mk.injEq] at h
    obtain ⟨rfl, rfl⟩ := h
    exact ⟨g, l, hproc, rfl⟩

theorem exec_of_proc {m : Program P C G L ε} {s : Config P G L} {p : P}
    {c : C} {g : G} {l : L} {es : List ε}
    (h : m.proc p c s.shared (s.loc p) = some (g, l, es)) :
    m.exec s p c = some (move s p g l, es) := by
  simp [exec, h]

theorem system_step_iff {m : Program P C G L ε}
    {init : Config P G L → Prop} {s s' : Config P G L} {es : List ε} :
    (m.system init).step s es s' ↔ ∃ p c, m.exec s p c = some (s', es) := by
  simp [system, systemWhen]

/-- A process that is not blocked can take its step. -/
theorem exists_step_of_proc {m : Program P C G L ε}
    {init : Config P G L → Prop} {s : Config P G L} {p : P} {c : C}
    {next : G × L × List ε}
    (h : m.proc p c s.shared (s.loc p) = some next) :
    ∃ es s', (m.system init).step s es s' :=
  ⟨next.2.2, _, system_step_iff.mpr ⟨p, c, exec_of_proc h⟩⟩

/-- Run the given processes with the given choices, in order. -/
def runSchedule (m : Program P C G L ε) :
    Config P G L → List (P × C) → Option (Config P G L × List ε)
  | s, [] => some (s, [])
  | s, (p, c) :: rest =>
      match m.exec s p c with
      | none => none
      | some (s', es) =>
          match runSchedule m s' rest with
          | none => none
          | some (s'', es') => some (s'', es ++ es')

theorem run_of_runSchedule {m : Program P C G L ε}
    {init : Config P G L → Prop} {s s' : Config P G L}
    (schedule : List (P × C)) {tr : List ε}
    (h : m.runSchedule s schedule = some (s', tr)) :
    (m.system init).Run s tr s' := by
  induction schedule generalizing s tr with
  | nil =>
      simp only [runSchedule, Option.some.injEq, Prod.mk.injEq] at h
      obtain ⟨rfl, rfl⟩ := h
      exact System.Run.refl
  | cons pc rest ih =>
      simp only [runSchedule] at h
      split at h
      next => simp at h
      next s₁ es hexec =>
        split at h
        next => simp at h
        next s₂ es' hrest =>
          simp only [Option.some.injEq, Prod.mk.injEq] at h
          obtain ⟨rfl, rfl⟩ := h
          exact System.Run.head (system_step_iff.mpr ⟨_, _, hexec⟩) (ih hrest)

/-- The same, refusing steps that violate the condition `ok`. -/
def runScheduleWhen (m : Program P C G L ε)
    (ok : Config P G L → P → C → Prop) [∀ s p c, Decidable (ok s p c)] :
    Config P G L → List (P × C) → Option (Config P G L × List ε)
  | s, [] => some (s, [])
  | s, (p, c) :: rest =>
      if ok s p c then
        match m.exec s p c with
        | none => none
        | some (s', es) =>
            match runScheduleWhen m ok s' rest with
            | none => none
            | some (s'', es') => some (s'', es ++ es')
      else none

theorem run_of_runScheduleWhen {m : Program P C G L ε}
    {init : Config P G L → Prop} {ok : Config P G L → P → C → Prop}
    [∀ s p c, Decidable (ok s p c)] {s s' : Config P G L}
    (schedule : List (P × C)) {tr : List ε}
    (h : m.runScheduleWhen ok s schedule = some (s', tr)) :
    (m.systemWhen init ok).Run s tr s' := by
  induction schedule generalizing s tr with
  | nil =>
      simp only [runScheduleWhen, Option.some.injEq, Prod.mk.injEq] at h
      obtain ⟨rfl, rfl⟩ := h
      exact System.Run.refl
  | cons pc rest ih =>
      simp only [runScheduleWhen] at h
      split at h
      next hok =>
        split at h
        next => simp at h
        next s₁ es hexec =>
          split at h
          next => simp at h
          next s₂ es' hrest =>
            simp only [Option.some.injEq, Prod.mk.injEq] at h
            obtain ⟨rfl, rfl⟩ := h
            exact System.Run.head ⟨_, _, hok, hexec⟩ (ih hrest)
      next => simp at h

/-- `n` steps of one process with the choice `c`. -/
def solo (m : Program P C G L ε) (p : P) (c : C) :
    ℕ → G → L → Option (G × L × List ε)
  | 0, g, l => some (g, l, [])
  | n + 1, g, l =>
      match m.proc p c g l with
      | none => none
      | some (g', l', es) =>
          match solo m p c n g' l' with
          | none => none
          | some (g'', l'', es') => some (g'', l'', es ++ es')

@[simp] theorem move_self (s : Config P G L) (p : P) :
    move s p s.shared (s.loc p) = s := by
  ext <;> simp

@[simp] theorem move_move (s : Config P G L) (p : P) (g g' : G) (l l' : L) :
    move (move s p g l) p g' l' = move s p g' l' := by
  ext <;> simp

/-- While the other processes rest, one process may take all its steps. -/
theorem run_of_solo {m : Program P C G L ε} {init : Config P G L → Prop}
    (ok : Config P G L → P → C → Prop) {p : P} {c : C} (hok : ∀ s, ok s p c)
    {n : ℕ} {s : Config P G L} {g : G} {l : L} {es : List ε}
    (h : m.solo p c n s.shared (s.loc p) = some (g, l, es)) :
    (m.systemWhen init ok).Run s es (move s p g l) := by
  induction n generalizing s es with
  | zero =>
      simp only [solo, Option.some.injEq, Prod.mk.injEq] at h
      obtain ⟨rfl, rfl, rfl⟩ := h
      rw [move_self]
      exact System.Run.refl
  | succ n ih =>
      simp only [solo] at h
      split at h
      next => simp at h
      next g₁ l₁ es₁ hproc =>
        split at h
        next => simp at h
        next g₂ l₂ es₂ hrest =>
          simp only [Option.some.injEq, Prod.mk.injEq] at h
          obtain ⟨rfl, rfl, rfl⟩ := h
          have hrun := ih (s := move s p g₁ l₁) (by simpa using hrest)
          rw [move_move] at hrun
          exact System.Run.head ⟨p, c, hok s, exec_of_proc hproc⟩ hrun

end Program

/-! ## Counting processes -/

section Total

variable {P L : Type*} [Fintype P]

/-- The sum of the weight `w` over the local states of all processes. -/
def total (w : L → ℕ) (loc : P → L) : ℕ :=
  ∑ p, w (loc p)

theorem total_eq_zero {w : L → ℕ} {loc : P → L} (h : ∀ p, w (loc p) = 0) :
    total w loc = 0 :=
  Finset.sum_eq_zero fun p _ => h p

/-- A weight carried by one process only. -/
theorem total_eq_of_unique {w : L → ℕ} {loc : P → L} {p : P}
    (h : ∀ q, q ≠ p → w (loc q) = 0) : total w loc = w (loc p) :=
  Finset.sum_eq_single p (fun q _ hq => h q hq)
    (fun hp => absurd (Finset.mem_univ p) hp)

theorem total_le_total {v w : L → ℕ} {loc : P → L}
    (h : ∀ p, v (loc p) ≤ w (loc p)) : total v loc ≤ total w loc :=
  Finset.sum_le_sum fun p _ => h p

theorem total_le_mul_card {w : L → ℕ} {loc : P → L} {b : ℕ}
    (h : ∀ p, w (loc p) ≤ b) : total w loc ≤ b * Fintype.card P := by
  rw [Nat.mul_comm]
  exact Finset.sum_le_card_nsmul _ _ b fun p _ => h p

theorem le_total (w : L → ℕ) (loc : P → L) (p : P) :
    w (loc p) ≤ total w loc :=
  Finset.single_le_sum (f := fun q => w (loc q)) (fun _ _ => Nat.zero_le _)
    (Finset.mem_univ p)

theorem add_le_total (w : L → ℕ) (loc : P → L) {p q : P} (hpq : p ≠ q) :
    w (loc p) + w (loc q) ≤ total w loc := by
  classical
  unfold total
  rw [← Finset.add_sum_erase _ _ (Finset.mem_univ p)]
  have hq : w (loc q) ≤ ∑ r ∈ Finset.univ.erase p, w (loc r) :=
    Finset.single_le_sum (f := fun r => w (loc r)) (fun _ _ => Nat.zero_le _)
      (Finset.mem_erase.mpr ⟨hpq.symm, Finset.mem_univ q⟩)
  omega

/-- When a weight sums to at most one, only one process carries it. -/
theorem eq_of_total_le_one {w : L → ℕ} {loc : P → L} (h : total w loc ≤ 1)
    {p q : P} (hp : 0 < w (loc p)) (hq : 0 < w (loc q)) : p = q := by
  by_contra hpq
  have := add_le_total w loc hpq
  omega

/-- If `p` alone carries the weight `w`, a weight that needs `w` is carried by
`p` alone. -/
theorem total_eq_of_exclusive {v w : L → ℕ} {loc : P → L}
    (hw : total w loc ≤ 1) (hneeds : ∀ l, w l = 0 → v l = 0) {p : P}
    (hp : 0 < w (loc p)) : total v loc = v (loc p) := by
  apply total_eq_of_unique
  intro r hr
  apply hneeds
  by_contra hwr
  exact hr (eq_of_total_le_one hw (Nat.pos_of_ne_zero hwr) hp)

variable [DecidableEq P]

/-- One process moving from `loc p` to `l` changes a sum by the difference of
the two weights. -/
theorem total_update (w : L → ℕ) (loc : P → L) (p : P) (l : L) :
    total w (Function.update loc p l) + w (loc p) = total w loc + w l := by
  unfold total
  rw [← Finset.add_sum_erase _ _ (Finset.mem_univ p),
    ← Finset.add_sum_erase _ (fun q => w (loc q)) (Finset.mem_univ p)]
  have hrest : ∑ q ∈ Finset.univ.erase p, w (Function.update loc p l q) =
      ∑ q ∈ Finset.univ.erase p, w (loc q) := by
    apply Finset.sum_congr rfl
    intro q hq
    rw [Function.update_of_ne (Finset.ne_of_mem_erase hq)]
  rw [hrest, Function.update_self]
  omega

/-- A step that changes a shared counter `f` and the weight of its process in
opposite directions keeps their sum, up to the amounts `a` and `b` it adds and
removes elsewhere. -/
theorem add_total_update (w : L → ℕ) {loc : P → L} (p : P) {l : L}
    {f f' a b : ℕ} (h : f' + w l + b = f + w (loc p) + a) :
    f' + total w (Function.update loc p l) + b = f + total w loc + a := by
  have := total_update w loc p l
  omega

/-- The modular form of `add_total_update`. -/
theorem add_total_update_modEq (w : L → ℕ) {loc : P → L} (p : P) {l : L}
    {n f f' a : ℕ} (h : f' + w l ≡ f + w (loc p) + a [MOD n]) :
    f' + total w (Function.update loc p l) ≡ f + total w loc + a [MOD n] := by
  have hupdate := total_update w loc p l
  apply Nat.ModEq.add_right_cancel' (w (loc p))
  have hsum := Nat.ModEq.add_right (total w loc) h
  have hleft : f' + total w (Function.update loc p l) + w (loc p) =
      f' + w l + total w loc := by omega
  have hright : f + total w loc + a + w (loc p) =
      f + w (loc p) + a + total w loc := by omega
  rw [hleft, hright]
  exact hsum

end Total

end Pvos.Support
