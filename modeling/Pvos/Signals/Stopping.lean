import Pvos.Support.System
import Pvos.Support.Text

/-!
# Children stopped and continued from the keyboard

The parent in `signals/stopping.cpp` forks ten children and reads commands: a
digit and a newline stop or continue a child, and `q` ends all of them.  The
digit is whatever `getchar` returned in its place, and a `fork` that fails
leaves -1 in `child_pids`, which `kill` takes for all processes.

The arrays are functions on all indexes; outside of their ten entries they hold
anything.
-/

namespace Pvos.Signals

open Pvos.Support

/-- `children`. -/
def children : ℕ := 10

/-- The signals that are sent. -/
inductive Signal
  | stop
  | cont
  | kill

/-- An index into `stopped` or `child_pids`, and a call of `kill`. -/
inductive StoppingEvent
  | index (i : ℤ)
  | kill (pid : ℤ) (signal : Signal)

/-- Where the parent is in `main`: in the loop that forks, at the test of
`pressed`, in the loop that kills, at `wait`, or over. -/
inductive StoppingPc
  | forking (i : ℕ)
  | test (pressed : ℤ)
  | killing (i : ℕ)
  | waiting
  | returned

/-- The variables of the parent, the calls of `getchar` so far, and which
processes are stopped. -/
structure Stopping where
  pc : StoppingPc
  stopped : ℤ → Bool
  childPids : ℤ → ℕ
  calls : ℕ
  halted : ℤ → Bool

/-- What a signal does to a process that stops or runs. -/
def Signal.halts (signal : Signal) (halted : Bool) : Bool :=
  match signal with
  | .stop => true
  | .cont => false
  | .kill => halted

/-- `kill`: the pid -1 stands for all processes. -/
def deliver (halted : ℤ → Bool) (pid : ℤ) (signal : Signal) : ℤ → Bool :=
  fun p => if pid = -1 ∨ pid = p then signal.halts (halted p) else halted p

/-- The next statements of the parent; `forks` are the results of `fork`,
`input` those of `getchar`. -/
def stoppingStep (forks input : ℕ → ℤ) (s : Stopping) :
    Option (Stopping × List StoppingEvent) :=
  match s.pc with
  | .forking i =>
      if i < children then
        some ({ s with
          pc := .forking (i + 1)
          stopped := Function.update s.stopped i false
          childPids := Function.update s.childPids i (toUint32 (forks i)) },
          [.index i, .index i])
      else
        some ({ s with pc := .test (input s.calls), calls := s.calls + 2 }, [])
  | .test pressed =>
      if pressed = 113 then some ({ s with pc := .killing 0 }, [])
      else
        let i := pressed - 48
        let pid := toInt32 (s.childPids i)
        if s.stopped i then
          some ({ s with
            pc := .test (input s.calls)
            calls := s.calls + 2
            stopped := Function.update s.stopped i false
            halted := deliver s.halted pid .cont },
            [.index i, .index i, .index i, .kill pid .cont, .index i])
        else
          some ({ s with
            pc := .test (input s.calls)
            calls := s.calls + 2
            stopped := Function.update s.stopped i true
            halted := deliver s.halted pid .stop },
            [.index i, .index i, .index i, .kill pid .stop, .index i])
  | .killing i =>
      if i < children then
        let pid := toInt32 (s.childPids i)
        some ({ s with
          pc := .killing (i + 1)
          halted := deliver s.halted pid .kill },
          [.index i, .kill pid .kill])
      else some ({ s with pc := .waiting }, [])
  | .waiting => some ({ s with pc := .returned }, [])
  | .returned => none

/-- The parent, with anything in its arrays. -/
def stoppingSystem (forks input : ℕ → ℤ) : System Stopping StoppingEvent where
  init s := s.pc = .forking 0 ∧ s.calls = 0 ∧ s.halted = fun _ => false
  step s es s' := stoppingStep forks input s = some (s', es)

/-- What `fork` returns to the parent: -1, or the pid of a new child. -/
structure ForkResults (forks : ℕ → ℤ) : Prop where
  result : ∀ i < children, forks i = -1 ∨ (0 < forks i ∧ forks i < 2 ^ 31)
  distinct : ∀ i < children, ∀ j < children, 0 < forks i →
    forks i = forks j → i = j

/-- The parent signals only its own children, uses the entries of its arrays,
knows at each test which children are stopped, and comes to an end when its
input does. -/
structure SignalsOwn (forks input : ℕ → ℤ) : Prop where
  indexes : ∀ tr s, (stoppingSystem forks input).Exec tr s →
    ∀ i : ℤ, .index i ∈ tr → 0 ≤ i ∧ i < children
  kills : ∀ tr s, (stoppingSystem forks input).Exec tr s →
    ∀ pid signal, .kill pid signal ∈ tr →
      0 < pid ∧ ∃ i < children, forks i = pid
  mirrors : ∀ s, (stoppingSystem forks input).Reachable s →
    ∀ pressed, s.pc = .test pressed → ∀ i < children, 0 < forks i →
      s.halted (forks i) = s.stopped i
  ends : ∀ n, (∀ m, n ≤ m → input m = -1) →
    ∀ s₀, (stoppingSystem forks input).init s₀ →
      ∃ tr s, (stoppingSystem forks input).Run s₀ tr s ∧ s.pc = .returned

/-- Up to the first `q` in the place of a command, each command is the digit of
a child that was forked; and where there is a `q`, all forks succeeded. -/
def CommandsObeyed (forks input : ℕ → ℤ) : Prop :=
  ∀ k, (∀ j < k, input (2 * j) ≠ 113) →
    (input (2 * k) = 113 ∧ ∀ i < children, 0 < forks i) ∨
      ∃ i < children, input (2 * k) = 48 + i ∧ 0 < forks i

/-! ## What one step does -/

/-- The signal for a child that is stopped or runs. -/
def commandSignal (stopped : Bool) : Signal :=
  if stopped then .cont else .stop

@[simp] theorem halts_commandSignal (stopped halted : Bool) :
    (commandSignal stopped).halts halted = !stopped := by
  cases stopped <;> rfl

/-- The state behind the command `pressed`, and its events. -/
def Stopping.command (input : ℕ → ℤ) (s : Stopping) (pressed : ℤ) :
    Stopping × List StoppingEvent :=
  let i := pressed - 48
  let pid := toInt32 (s.childPids i)
  let signal := commandSignal (s.stopped i)
  ({ s with
    pc := .test (input s.calls)
    calls := s.calls + 2
    stopped := Function.update s.stopped i (!s.stopped i)
    halted := deliver s.halted pid signal },
    [.index i, .index i, .index i, .kill pid signal, .index i])

section Steps

variable {forks input : ℕ → ℤ} {s s' : Stopping} {es : List StoppingEvent}

theorem stoppingStep_test {pressed : ℤ} (hpc : s.pc = .test pressed)
    (hne : pressed ≠ 113) :
    stoppingStep forks input s = some (s.command input pressed) := by
  simp only [stoppingStep, hpc, if_neg hne, Stopping.command]
  cases s.stopped (pressed - 48) <;> rfl

/-- What one step of the parent does. -/
inductive StoppingMove (forks input : ℕ → ℤ) (s : Stopping) :
    Stopping → List StoppingEvent → Prop
  | fork (i : ℕ) (hpc : s.pc = .forking i) (hi : i < children) :
      StoppingMove forks input s
        { s with
          pc := .forking (i + 1)
          stopped := Function.update s.stopped i false
          childPids := Function.update s.childPids i (toUint32 (forks i)) }
        [.index i, .index i]
  | forked (i : ℕ) (hpc : s.pc = .forking i) (hi : ¬ i < children) :
      StoppingMove forks input s
        { s with pc := .test (input s.calls), calls := s.calls + 2 } []
  | quit (hpc : s.pc = .test 113) :
      StoppingMove forks input s { s with pc := .killing 0 } []
  | command (pressed : ℤ) (hpc : s.pc = .test pressed) (hne : pressed ≠ 113) :
      StoppingMove forks input s (s.command input pressed).1
        (s.command input pressed).2
  | kill (i : ℕ) (hpc : s.pc = .killing i) (hi : i < children) :
      StoppingMove forks input s
        { s with
          pc := .killing (i + 1)
          halted := deliver s.halted (toInt32 (s.childPids i)) .kill }
        [.index i, .kill (toInt32 (s.childPids i)) .kill]
  | killed (i : ℕ) (hpc : s.pc = .killing i) (hi : ¬ i < children) :
      StoppingMove forks input s { s with pc := .waiting } []
  | waited (hpc : s.pc = .waiting) :
      StoppingMove forks input s { s with pc := .returned } []

theorem stoppingStep_cases (h : stoppingStep forks input s = some (s', es)) :
    StoppingMove forks input s s' es := by
  cases hpc : s.pc with
  | forking i =>
      simp only [stoppingStep, hpc] at h
      by_cases hi : i < children
      · rw [if_pos hi, Option.some.injEq, Prod.mk.injEq] at h
        obtain ⟨rfl, rfl⟩ := h
        exact .fork i hpc hi
      · rw [if_neg hi, Option.some.injEq, Prod.mk.injEq] at h
        obtain ⟨rfl, rfl⟩ := h
        exact .forked i hpc hi
  | test pressed =>
      by_cases hquit : pressed = 113
      · subst hquit
        simp only [stoppingStep, hpc, if_true, Option.some.injEq,
          Prod.mk.injEq] at h
        obtain ⟨rfl, rfl⟩ := h
        exact .quit hpc
      · rw [stoppingStep_test hpc hquit, Option.some.injEq] at h
        obtain ⟨rfl, rfl⟩ := Prod.ext_iff.mp h
        exact .command pressed hpc hquit
  | killing i =>
      simp only [stoppingStep, hpc] at h
      by_cases hi : i < children
      · rw [if_pos hi, Option.some.injEq, Prod.mk.injEq] at h
        obtain ⟨rfl, rfl⟩ := h
        exact .kill i hpc hi
      · rw [if_neg hi, Option.some.injEq, Prod.mk.injEq] at h
        obtain ⟨rfl, rfl⟩ := h
        exact .killed i hpc hi
  | waiting =>
      simp only [stoppingStep, hpc, Option.some.injEq, Prod.mk.injEq] at h
      obtain ⟨rfl, rfl⟩ := h
      exact .waited hpc
  | returned => simp [stoppingStep, hpc] at h

theorem StoppingMove.step (h : StoppingMove forks input s s' es) :
    (stoppingSystem forks input).step s es s' := by
  cases h with
  | fork i hpc hi => simp [stoppingSystem, stoppingStep, hpc, hi]
  | forked i hpc hi => simp [stoppingSystem, stoppingStep, hpc, hi]
  | quit hpc => simp [stoppingSystem, stoppingStep, hpc]
  | command pressed hpc hne => exact stoppingStep_test hpc hne
  | kill i hpc hi => simp [stoppingSystem, stoppingStep, hpc, hi]
  | killed i hpc hi => simp [stoppingSystem, stoppingStep, hpc, hi]
  | waited hpc => simp [stoppingSystem, stoppingStep, hpc]

end Steps

/-! ## Runs in which the commands are obeyed -/

/-- An index of the arrays, or a call of `kill` on a child. -/
def OwnEvent (forks : ℕ → ℤ) : StoppingEvent → Prop
  | .index i => 0 ≤ i ∧ i < children
  | .kill pid _ => 0 < pid ∧ ∃ i < children, forks i = pid

/-- The arrays hold the results of `fork`. -/
def PidsKept (forks : ℕ → ℤ) (s : Stopping) : Prop :=
  ∀ i < children, s.childPids i = toUint32 (forks i)

/-- `stopped` tells which children are stopped. -/
def Mirrors (forks : ℕ → ℤ) (s : Stopping) : Prop :=
  ∀ i < children, 0 < forks i → s.halted (forks i) = s.stopped i

/-- The variables at each place of `main`. -/
def StoppingInv (forks input : ℕ → ℤ) (s : Stopping) : Prop :=
  match s.pc with
  | .forking i => (∀ j < i, s.childPids j = toUint32 (forks j) ∧
      s.stopped j = false) ∧ s.calls = 0 ∧ s.halted = fun _ => false
  | .test pressed => PidsKept forks s ∧ Mirrors forks s ∧
      ∃ k, s.calls = 2 * k + 2 ∧ pressed = input (2 * k) ∧
        ∀ j < k, input (2 * j) ≠ 113
  | .killing _ => PidsKept forks s ∧ ∀ i < children, 0 < forks i
  | .waiting | .returned => True

section Obeyed

variable {forks input : ℕ → ℤ} {s s' : Stopping} {es : List StoppingEvent}

theorem ForkResults.toInt32_pid (h : ForkResults forks) {i : ℕ}
    (hi : i < children) : toInt32 (toUint32 (forks i)) = forks i := by
  have hresult := h.result i hi
  exact toInt32_toUint32 (by omega) (by omega)

/-- One child is signalled and its entry changed. -/
theorem Mirrors.command (h : Mirrors forks s) (hforks : ForkResults forks)
    {i : ℕ} (hi : i < children) (hpos : 0 < forks i) {t : Stopping}
    (hstopped : t.stopped = Function.update s.stopped i (!s.stopped i))
    (hhalted : t.halted = deliver s.halted (forks i)
      (commandSignal (s.stopped i))) : Mirrors forks t := by
  intro j hj hjpos
  rw [hstopped, hhalted, deliver, halts_commandSignal]
  by_cases hji : j = i
  · subst hji
    rw [if_pos (Or.inr rfl), Function.update_self]
  · have hne : ¬ (forks i = -1 ∨ forks i = forks j) := by
      rintro (hfailed | hsame)
      · omega
      · exact hji (hforks.distinct i hi j hj hpos hsame).symm
    have hentry : (j : ℤ) ≠ i := by omega
    rw [if_neg hne, Function.update_of_ne hentry]
    exact h j hj hjpos

theorem stoppingInv_step (hforks : ForkResults forks)
    (hobeyed : CommandsObeyed forks input) (h : StoppingInv forks input s)
    (hstep : StoppingMove forks input s s' es) :
    StoppingInv forks input s' ∧ ∀ e ∈ es, OwnEvent forks e := by
  cases hstep with
  | fork i hpc hi =>
      simp only [StoppingInv, hpc] at h
      obtain ⟨hdone, hcalls, hhalted⟩ := h
      refine ⟨⟨fun j hj => ?_, hcalls, hhalted⟩, ?_⟩
      · dsimp only
        by_cases hji : j = i
        · subst hji
          rw [Function.update_self, Function.update_self]
          exact ⟨rfl, rfl⟩
        · have hentry : (j : ℤ) ≠ i := by omega
          rw [Function.update_of_ne hentry, Function.update_of_ne hentry]
          exact hdone j (by omega)
      · simp [OwnEvent, hi]
  | forked i hpc hi =>
      simp only [StoppingInv, hpc] at h
      obtain ⟨hdone, hcalls, hhalted⟩ := h
      have hlast : ∀ j < children, j < i := fun j hj => by omega
      refine ⟨⟨fun j hj => (hdone j (hlast j hj)).1, fun j hj _ => ?_,
        0, ?_, ?_, ?_⟩, by simp⟩
      · rw [hhalted, (hdone j (hlast j hj)).2]
      · rw [hcalls]
      · rw [hcalls]
      · exact fun j hj => absurd hj (Nat.not_lt_zero j)
  | quit hpc =>
      simp only [StoppingInv, hpc] at h
      obtain ⟨hpids, -, k, -, hpressed, hnone⟩ := h
      refine ⟨⟨hpids, ?_⟩, by simp⟩
      rcases hobeyed k hnone with ⟨-, hall⟩ | ⟨i, hi, hdigit, -⟩
      · exact hall
      · unfold children at hi
        omega
  | command pressed hpc hne =>
      simp only [StoppingInv, hpc] at h
      obtain ⟨hpids, hmirrors, k, hcalls, hpressed, hnone⟩ := h
      rcases hobeyed k hnone with ⟨hquit, -⟩ | ⟨i, hi, hdigit, hpos⟩
      · exact absurd (hpressed.trans hquit) hne
      · have hindex : pressed - 48 = i := by omega
        have hpid : toInt32 (s.childPids i) = forks i := by
          rw [hpids i hi, hforks.toInt32_pid hi]
        simp only [Stopping.command, hindex, hpid]
        refine ⟨⟨hpids, hmirrors.command hforks hi hpos rfl rfl,
          k + 1, ?_, ?_, ?_⟩, ?_⟩
        · rw [hcalls, Nat.mul_succ]
        · rw [hcalls, Nat.mul_succ]
        · intro j hj
          rcases Nat.lt_succ_iff_lt_or_eq.mp hj with hlt | rfl
          · exact hnone j hlt
          · exact hpressed ▸ hne
        · have hown : ∃ j < children, forks j = forks i := ⟨i, hi, rfl⟩
          simp [OwnEvent, hi, hpos, hown]
  | kill i hpc hi =>
      simp only [StoppingInv, hpc] at h
      obtain ⟨hpids, hall⟩ := h
      have hpid : toInt32 (s.childPids i) = forks i := by
        rw [hpids i hi, hforks.toInt32_pid hi]
      have hown : ∃ j < children, forks j = forks i := ⟨i, hi, rfl⟩
      rw [hpid]
      refine ⟨⟨hpids, hall⟩, ?_⟩
      simp [OwnEvent, hi, hall i hi, hown]
  | killed i hpc hi => exact ⟨trivial, by simp⟩
  | waited hpc => exact ⟨trivial, by simp⟩

/-- What a run of obeyed commands keeps. -/
theorem stoppingInv_exec (hforks : ForkResults forks)
    (hobeyed : CommandsObeyed forks input) {tr : List StoppingEvent}
    (h : (stoppingSystem forks input).Exec tr s) :
    StoppingInv forks input s ∧ ∀ e ∈ tr, OwnEvent forks e := by
  refine h.invariant (I := fun tr s => StoppingInv forks input s ∧
    ∀ e ∈ tr, OwnEvent forks e) ?_ ?_
  · rintro s ⟨hpc, hcalls, hhalted⟩
    simp only [StoppingInv, hpc]
    exact ⟨⟨fun j hj => absurd hj (Nat.not_lt_zero j), hcalls, hhalted⟩,
      by simp⟩
  · rintro tr s es s' ⟨hinv, hown⟩ hstep
    obtain ⟨hinv', hown'⟩ :=
      stoppingInv_step hforks hobeyed hinv (stoppingStep_cases hstep)
    exact ⟨hinv', List.forall_mem_append.mpr ⟨hown, hown'⟩⟩

end Obeyed

/-! ## Where every run comes -/

section Reach

variable {forks input : ℕ → ℤ} {s₀ : Stopping}

theorem reach_forking (h : (stoppingSystem forks input).init s₀) {n : ℕ}
    (hn : n ≤ children) :
    ∃ tr s, (stoppingSystem forks input).Run s₀ tr s ∧ s.pc = .forking n ∧
      s.calls = 0 ∧ ∀ j < n, s.childPids j = toUint32 (forks j) := by
  induction n with
  | zero =>
      obtain ⟨hpc, hcalls, -⟩ := h
      exact ⟨[], s₀, .refl, hpc, hcalls, fun j hj => absurd hj (Nat.not_lt_zero j)⟩
  | succ n ih =>
      obtain ⟨tr, s, hrun, hpc, hcalls, hpids⟩ := ih (Nat.le_of_succ_le hn)
      refine ⟨_, _, hrun.tail (StoppingMove.fork n hpc hn).step, rfl, hcalls,
        fun j hj => ?_⟩
      dsimp only
      by_cases hjn : j = n
      · subst hjn
        exact Function.update_self _ _ _
      · have hentry : (j : ℤ) ≠ n := by omega
        rw [Function.update_of_ne hentry]
        exact hpids j (by omega)

/-- The parent comes to each command in front of which there is no `q`. -/
theorem reach_test (h : (stoppingSystem forks input).init s₀) {k : ℕ}
    (hnone : ∀ j < k, input (2 * j) ≠ 113) :
    ∃ tr s, (stoppingSystem forks input).Run s₀ tr s ∧
      s.pc = .test (input (2 * k)) ∧ s.calls = 2 * k + 2 ∧
      PidsKept forks s := by
  induction k with
  | zero =>
      obtain ⟨tr, s, hrun, hpc, hcalls, hpids⟩ :=
        reach_forking h (Nat.le_refl children)
      refine ⟨_, _, hrun.tail (StoppingMove.forked _ hpc
        (Nat.lt_irrefl children)).step, ?_, ?_, hpids⟩
      · dsimp only
        rw [hcalls]
      · dsimp only
        rw [hcalls]
  | succ k ih =>
      obtain ⟨tr, s, hrun, hpc, hcalls, hpids⟩ :=
        ih fun j hj => hnone j (Nat.lt_succ_of_lt hj)
      refine ⟨_, _, hrun.tail (StoppingMove.command _ hpc
        (hnone k (Nat.lt_succ_self k))).step, ?_, ?_, hpids⟩
      · simp only [Stopping.command, hcalls, Nat.mul_succ]
      · simp only [Stopping.command, hcalls, Nat.mul_succ]

/-- Behind a `q` it comes to each call of `kill`. -/
theorem reach_killing (h : (stoppingSystem forks input).init s₀) {k : ℕ}
    (hnone : ∀ j < k, input (2 * j) ≠ 113) (hquit : input (2 * k) = 113)
    {n : ℕ} (hn : n ≤ children) :
    ∃ tr s, (stoppingSystem forks input).Run s₀ tr s ∧ s.pc = .killing n ∧
      PidsKept forks s := by
  induction n with
  | zero =>
      obtain ⟨tr, s, hrun, hpc, -, hpids⟩ := reach_test h hnone
      rw [hquit] at hpc
      exact ⟨_, _, hrun.tail (StoppingMove.quit hpc).step, rfl, hpids⟩
  | succ n ih =>
      obtain ⟨tr, s, hrun, hpc, hpids⟩ := ih (Nat.le_of_succ_le hn)
      exact ⟨_, _, hrun.tail (StoppingMove.kill n hpc hn).step, rfl, hpids⟩

theorem reach_returned (h : (stoppingSystem forks input).init s₀) {k : ℕ}
    (hnone : ∀ j < k, input (2 * j) ≠ 113) (hquit : input (2 * k) = 113) :
    ∃ tr s, (stoppingSystem forks input).Run s₀ tr s ∧ s.pc = .returned := by
  obtain ⟨tr, s, hrun, hpc, -⟩ :=
    reach_killing h hnone hquit (Nat.le_refl children)
  have hkilled := hrun.tail (StoppingMove.killed _ hpc
    (Nat.lt_irrefl children)).step
  exact ⟨_, _, hkilled.tail (StoppingMove.waited rfl).step, rfl⟩

/-- Without a `q` in the place of a command the loop runs for ever. -/
theorem not_returned (hnone : ∀ k, input (2 * k) ≠ 113) {s : Stopping}
    (h : (stoppingSystem forks input).Reachable s) : s.pc ≠ .returned := by
  have hinv : ((∃ i, s.pc = .forking i) ∧ s.calls = 0) ∨
      ∃ k, s.pc = .test (input (2 * k)) ∧ s.calls = 2 * k + 2 := by
    refine h.invariant (I := fun s => ((∃ i, s.pc = .forking i) ∧
      s.calls = 0) ∨ ∃ k, s.pc = .test (input (2 * k)) ∧
        s.calls = 2 * k + 2) ?_ ?_
    · exact fun s hinit => Or.inl ⟨⟨0, hinit.1⟩, hinit.2.1⟩
    · rintro s es s' (⟨⟨i, hpc⟩, hcalls⟩ | ⟨k, hpc, hcalls⟩) hstep
      · cases stoppingStep_cases hstep with
        | fork => exact Or.inl ⟨⟨_, rfl⟩, hcalls⟩
        | forked =>
            refine Or.inr ⟨0, ?_, ?_⟩ <;> dsimp only <;> rw [hcalls]
        | _ => simp_all
      · cases stoppingStep_cases hstep with
        | quit hquit =>
            rw [hpc, StoppingPc.test.injEq] at hquit
            exact absurd hquit (hnone k)
        | command =>
            refine Or.inr ⟨k + 1, ?_, ?_⟩ <;>
              simp only [Stopping.command, hcalls, Nat.mul_succ]
        | _ => simp_all
  rcases hinv with ⟨⟨i, hpc⟩, -⟩ | ⟨k, hpc, -⟩
  · rw [hpc]
    exact StoppingPc.noConfusion
  · rw [hpc]
    exact StoppingPc.noConfusion

end Reach

/-! ## Result -/

section Result

variable {forks input : ℕ → ℤ}

theorem signalsOwn_of_obeyed (hforks : ForkResults forks)
    (hobeyed : CommandsObeyed forks input) : SignalsOwn forks input := by
  constructor
  · intro tr s hexec i hmem
    exact (stoppingInv_exec hforks hobeyed hexec).2 _ hmem
  · intro tr s hexec pid signal hmem
    exact (stoppingInv_exec hforks hobeyed hexec).2 _ hmem
  · rintro s ⟨tr, hexec⟩ pressed hpc
    have hinv := (stoppingInv_exec hforks hobeyed hexec).1
    simp only [StoppingInv, hpc] at hinv
    exact hinv.2.1
  · intro n hend s₀ hinit
    have hquit : ∃ k, input (2 * k) = 113 := by
      by_contra hnone
      have hall : ∀ k, input (2 * k) ≠ 113 := fun k hk => hnone ⟨k, hk⟩
      have hpast := hend (2 * n) (by omega)
      rcases hobeyed n fun j _ => hall j with ⟨hq, -⟩ | ⟨i, -, hdigit, -⟩
      · exact hall n hq
      · omega
    classical
    exact reach_returned hinit (fun j hj => Nat.find_min hquit hj)
      (Nat.find_spec hquit)

/-- Memory to start from. -/
def freshParent : Stopping where
  pc := .forking 0
  stopped _ := false
  childPids _ := 0
  calls := 0
  halted _ := false

theorem obeyed_of_signalsOwn (hforks : ForkResults forks)
    (h : SignalsOwn forks input) : CommandsObeyed forks input := by
  have hinit : (stoppingSystem forks input).init freshParent :=
    ⟨rfl, rfl, rfl⟩
  intro k hnone
  by_cases hquit : input (2 * k) = 113
  · refine Or.inl ⟨hquit, fun i hi => ?_⟩
    obtain ⟨tr, s, hrun, hpc, hpids⟩ := reach_killing hinit hnone hquit hi.le
    have hexec := System.Exec.step ⟨_, hinit, hrun⟩
      (StoppingMove.kill i hpc hi).step
    have hpos := (h.kills _ _ hexec _ _
      (List.mem_append_right _ (List.mem_cons_of_mem _ List.mem_cons_self))).1
    rwa [hpids i hi, hforks.toInt32_pid hi] at hpos
  · obtain ⟨tr, s, hrun, hpc, -, hpids⟩ := reach_test hinit hnone
    have hexec := System.Exec.step ⟨_, hinit, hrun⟩
      (StoppingMove.command _ hpc hquit).step
    obtain ⟨hlow, hhigh⟩ := h.indexes _ _ hexec (input (2 * k) - 48)
      (List.mem_append_right _ (by simp [Stopping.command]))
    obtain ⟨i, hi⟩ := Int.eq_ofNat_of_zero_le hlow
    have hlt : i < children := by omega
    have hpos := (h.kills _ _ hexec
      (toInt32 (s.childPids (input (2 * k) - 48)))
      (commandSignal (s.stopped (input (2 * k) - 48)))
      (List.mem_append_right _ (by simp [Stopping.command]))).1
    rw [hi, hpids i hlt, hforks.toInt32_pid hlt] at hpos
    exact Or.inr ⟨i, hlt, by omega, hpos⟩

end Result

/-- For all results of the forks and all input: the parent signals only its own
children, stays inside its arrays, knows which children are stopped and ends
with its input, if and only if its commands are obeyed. -/
theorem signals_own_iff {forks : ℕ → ℤ} (hforks : ForkResults forks)
    (input : ℕ → ℤ) : SignalsOwn forks input ↔ CommandsObeyed forks input :=
  ⟨obeyed_of_signalsOwn hforks, signalsOwn_of_obeyed hforks⟩

/-- The results of `getchar` when `text` is typed. -/
def typedInput (text : Text) : ℕ → ℤ := fun n =>
  match text[n]? with
  | some b => b.toNat
  | none => -1

/-- All forks succeed. -/
def tenPids : ℕ → ℤ := fun i => 100 + i

theorem forkResults_tenPids : ForkResults tenPids := by
  unfold tenPids
  constructor
  · intro i hi
    unfold children at hi
    omega
  · intro i _ j _ _ heq
    omega

theorem signals_own_iff_typed :
    SignalsOwn tenPids (typedInput (ascii "1\nq\n")) := by
  refine (signals_own_iff forkResults_tenPids _).mpr fun k hnone => ?_
  match k with
  | 0 => exact Or.inr ⟨1, by decide, rfl, by decide⟩
  | 1 => exact Or.inl ⟨rfl, by decide⟩
  | k + 2 => exact absurd rfl (hnone 1 (by omega))

/-- The fork of child 3 fails. -/
def ninePids : ℕ → ℤ := fun i => if i = 3 then -1 else 100 + i

/-- At the end of the input the loop does not end; and the digit of a child that
was not forked stops all processes. -/
theorem signals_not_own :
    ¬ SignalsOwn tenPids (typedInput []) ∧
      (∀ s, (stoppingSystem tenPids (typedInput [])).Reachable s →
        s.pc ≠ .returned) ∧
      ¬ SignalsOwn ninePids (typedInput (ascii "3\n")) := by
  have hempty : ∀ k, typedInput [] (2 * k) ≠ 113 := by
    intro k
    simp [typedInput]
  refine ⟨fun h => ?_, fun s => not_returned hempty, fun h => ?_⟩
  · obtain ⟨tr, s, hrun, hpc⟩ := h.ends 0 (fun m _ => rfl) freshParent
      ⟨rfl, rfl, rfl⟩
    exact not_returned hempty ⟨tr, _, ⟨rfl, rfl, rfl⟩, hrun⟩ hpc
  · have hforks : ForkResults ninePids := by
      unfold ninePids
      constructor
      · intro i hi
        unfold children at hi
        split <;> omega
      · intro i _ j _ hpos heq
        split at hpos <;> split at heq <;> omega
    rcases obeyed_of_signalsOwn hforks h 0 (by simp) with ⟨hq, -⟩ | ⟨i, -, hi, hpos⟩
    · exact absurd hq (by decide)
    · have hdigit : typedInput (ascii "3\n") (2 * 0) = 51 := rfl
      obtain rfl : i = 3 := by omega
      exact absurd hpos (by decide)

end Pvos.Signals
