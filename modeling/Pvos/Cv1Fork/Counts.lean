import Pvos.Cv1Fork.Pool

/-!
# The counters of the pool

`running_childs` is raised in front of a `fork` whose -1 is not looked at, and
lowered with each child collected; `created` and `finished` begin again behind
each report.
-/

namespace Pvos.Cv1Fork

open Pvos.Support

/-! ## What is counted -/

/-- The sum of a value of each event. -/
def total (value : PoolEvent → ℤ) : List PoolEvent → ℤ
  | [] => 0
  | e :: tr => value e + total value tr

/-- A child of the pool more that was not collected, or one less. -/
def PoolEvent.unreaped : PoolEvent → ℤ
  | .forked pid => if pid = -1 then 0 else 1
  | .reaped _ => -1
  | .report _ _ _ => 0

/-- The children created and not finished in a window that was reported. -/
def PoolEvent.window : PoolEvent → ℤ
  | .report created finished _ => created - finished
  | _ => 0

/-- The loop that collects children has ended. -/
def PoolPc.passed : PoolPc → Bool
  | .test _ => true
  | _ => false

/-- The counters of the pool are right: behind a collecting pass,
`running_childs` is the number of children forked in the pool and not
collected, and it is what the windows add up to, the open one included; it is
never negative; and when the loop was left, no child is left. -/
structure CountsRight (tr : List PoolEvent) (s : Pool) : Prop where
  running : s.pc.passed = true → s.runningChilds = total PoolEvent.unreaped tr
  windows : s.pc.passed = true →
    s.runningChilds = total PoolEvent.window tr + (s.created - s.finished)
  nonneg : 0 ≤ s.runningChilds
  left : s.pc = .returned → s.children.pids = []

@[simp] theorem total_nil (value : PoolEvent → ℤ) : total value [] = 0 := rfl

@[simp] theorem total_append (value : PoolEvent → ℤ) (tr tr' : List PoolEvent) :
    total value (tr ++ tr') = total value tr + total value tr' := by
  induction tr with
  | nil => exact (Int.zero_add _).symm
  | cons e tr ih =>
      rw [List.cons_append, total, total, ih, Int.add_assoc]

@[simp] theorem total_singleton (value : PoolEvent → ℤ) (e : PoolEvent) :
    total value [e] = value e :=
  Int.add_zero _

/-! ## The counters -/

/-- A child is counted that is not yet forked. -/
def PoolPc.ahead : PoolPc → ℤ
  | .fork => 1
  | _ => 0

/-- The pool has begun. -/
def PoolPc.begun : PoolPc → Bool
  | .starting _ _ | .childJob | .awaiting | .poolStart => false
  | _ => true

/-- The last `waitpid` has found that there is no child. -/
def PoolPc.childless : PoolPc → Bool
  | .poolStart | .returned => true
  | .test childId => childId < 0
  | _ => false

/-- The counters beside the events so far: a `fork` that fails leaves one child
too many in `running_childs`. -/
structure PoolInv (tr : List PoolEvent) (s : Pool) : Prop where
  positive : ∀ pid ∈ s.children.pids, 0 < pid
  quiet : s.pc.begun = false → tr = []
  childless : s.pc.childless = true → s.children.pids = []
  children : s.pc.begun = true →
    total PoolEvent.unreaped tr = s.children.pids.length
  running : s.runningChilds =
    total PoolEvent.unreaped tr + tr.count (.forked (-1)) + s.pc.ahead
  windows : s.runningChilds =
    total PoolEvent.window tr + (s.created - s.finished)

section Invariant

variable {processCount : ℕ} {tr : List PoolEvent} {s s' : Pool}
  {es : List PoolEvent}

theorem poolInv_init (h : (pool processCount).init s) : PoolInv [] s := by
  obtain ⟨⟨pid, hpc⟩, hrunning, hcreated, hfinished, hpos⟩ := h
  refine ⟨hpos, fun _ => rfl, ?_, ?_, ?_, ?_⟩
  · simp [hpc, PoolPc.childless]
  · simp [hpc, PoolPc.begun]
  · simp [hpc, hrunning, PoolPc.ahead]
  · simp [hrunning, hcreated, hfinished]

/-- A step that only goes on to another place. -/
theorem PoolInv.moved (h : PoolInv tr s) {old : PoolPc} (hpc : s.pc = old)
    (pc : PoolPc) (hbegun : pc.begun = old.begun) (hahead : pc.ahead = old.ahead)
    (hchildless : pc.childless = true → s.children.pids = []) :
    PoolInv (tr ++ []) { s with pc } := by
  subst hpc
  rw [List.append_nil]
  refine ⟨h.positive, fun hnot => ?_, hchildless, fun hbegun' => ?_, ?_,
    h.windows⟩
  · exact h.quiet (hbegun ▸ hnot)
  · exact h.children (hbegun ▸ hbegun')
  · rw [hahead]
    exact h.running

/-- A step in front of the pool that forks or collects a child. -/
theorem PoolInv.prepared (h : PoolInv tr s) {old : PoolPc} (hpc : s.pc = old)
    (pc : PoolPc) (children : Children) (hbefore : old.begun = false)
    (hbegun : pc.begun = false) (hahead : pc.ahead = old.ahead)
    (hchildless : pc.childless = false)
    (hpositive : ∀ pid ∈ children.pids, 0 < pid) :
    PoolInv (tr ++ []) { s with pc, children } := by
  subst hpc
  rw [List.append_nil]
  refine ⟨hpositive, fun _ => h.quiet hbefore, ?_, ?_, ?_, h.windows⟩
  · simp [hchildless]
  · simp [hbegun]
  · rw [hahead]
    exact h.running

/-- What a step inside the pool does to the children, to `running_childs` and to
the open window is what its events say. -/
structure Balanced (s : Pool) (es : List PoolEvent) (s' : Pool) : Prop where
  positive : ∀ pid ∈ s'.children.pids, 0 < pid
  begun : s'.pc.begun = true
  childless : s'.pc.childless = false
  children : (s'.children.pids.length : ℤ) =
    s.children.pids.length + total PoolEvent.unreaped es
  running : s'.runningChilds - s'.pc.ahead =
    s.runningChilds - s.pc.ahead +
      (total PoolEvent.unreaped es + es.count (.forked (-1)))
  windows : s'.runningChilds - (s'.created - s'.finished) =
    s.runningChilds - (s.created - s.finished) + total PoolEvent.window es

theorem PoolInv.balanced (h : PoolInv tr s) (hbegun : s.pc.begun = true)
    (hs' : Balanced s es s') : PoolInv (tr ++ es) s' := by
  have hchildren := h.children hbegun
  have hrunning := h.running
  have hwindows := h.windows
  refine ⟨hs'.positive, ?_, ?_, fun _ => ?_, ?_, ?_⟩
  · simp [hs'.begun]
  · simp [hs'.childless]
  · rw [total_append, hchildren]
    exact hs'.children.symm
  · have hbalance := hs'.running
    rw [total_append, List.count_append]
    push_cast
    omega
  · have hbalance := hs'.windows
    rw [total_append]
    omega

theorem PoolInv.step (h : PoolInv tr s) (hstep : PoolMove processCount s s' es) :
    PoolInv (tr ++ es) s' := by
  cases hstep with
  | starts i pid answer children hpc hfork =>
      refine h.prepared hpc _ children rfl rfl rfl rfl ?_
      rcases fork_cases hfork with ⟨-, rfl⟩ | ⟨hpid, rfl⟩
      · exact h.positive
      · exact positive_fork h.positive hpid
  | childJob i hpc =>
      exact h.moved hpc _ rfl rfl (by simp [PoolPc.childless])
  | awaits i pid hpc =>
      exact h.moved hpc _ rfl rfl (by simp [PoolPc.childless])
  | awaited pid hpc hmem =>
      exact h.prepared hpc _ _ rfl rfl rfl rfl (positive_collect h.positive)
  | noneLeft hpc hnone =>
      exact h.moved hpc _ rfl rfl fun _ => hnone
  | poolStart answer hpc =>
      have hchildless := h.childless (by rw [hpc]; rfl)
      obtain rfl := h.quiet (by rw [hpc]; rfl)
      refine ⟨h.positive, ?_, ?_, fun _ => ?_, rfl, rfl⟩
      · simp [PoolPc.begun]
      · simp [PoolPc.childless]
      · rw [hchildless]
        rfl
  | head answer hpc =>
      refine h.balanced (by rw [hpc]; rfl) ⟨h.positive, rfl, rfl, ?_, ?_, ?_⟩
      · simp
      · simp [hpc, PoolPc.ahead]
      · simp only [total_nil]
        omega
  | forks pid hpc hpid =>
      have hfailed : pid ≠ -1 := by omega
      refine h.balanced (by rw [hpc]; rfl)
        ⟨positive_fork h.positive hpid, rfl, rfl, ?_, ?_, ?_⟩
      · simp [PoolEvent.unreaped, hfailed, Children.pids]
        omega
      · simp [PoolEvent.unreaped, hfailed, hpc, PoolPc.ahead]
      · simp [PoolEvent.window]
  | forkFails hpc =>
      refine h.balanced (by rw [hpc]; rfl) ⟨h.positive, rfl, rfl, ?_, ?_, ?_⟩
      · simp [PoolEvent.unreaped]
      · simp [PoolEvent.unreaped, hpc, PoolPc.ahead]
      · simp [PoolEvent.window]
  | sleep hpc =>
      exact h.moved hpc _ rfl rfl (by simp [PoolPc.childless])
  | reaps pid hpc hmem hpid =>
      have hlength := List.length_erase_add_one hmem
      refine h.balanced (by rw [hpc]; rfl)
        ⟨positive_collect h.positive, rfl, rfl, ?_, ?_, ?_⟩
      · simp [PoolEvent.unreaped, Children.pids, ← hlength]
        omega
      · simp [PoolEvent.unreaped, hpc, PoolPc.ahead, Int.sub_eq_add_neg]
      · simp only [total_singleton, PoolEvent.window]
        omega
  | passed hpc =>
      exact h.moved hpc _ rfl rfl (by simp [PoolPc.childless])
  | noChild hpc hnone =>
      exact h.moved hpc _ rfl rfl fun _ => hnone
  | leaves childId hpc hneg =>
      refine h.moved hpc _ rfl rfl fun _ => ?_
      exact h.childless (by simpa [hpc, PoolPc.childless] using hneg)
  | reports childId answer hpc =>
      refine h.balanced (by rw [hpc]; rfl) ⟨h.positive, rfl, rfl, ?_, ?_, ?_⟩
      · simp [PoolEvent.unreaped]
      · simp [PoolEvent.unreaped, hpc, PoolPc.ahead]
      · simp only [total_singleton, PoolEvent.window]
        omega
  | again childId hpc =>
      exact h.moved hpc _ rfl rfl (by simp [PoolPc.childless])
  | exits pid hmem =>
      have hperm := pids_exits_perm hmem
      rw [List.append_nil]
      refine ⟨?_, h.quiet, ?_, ?_, h.running, h.windows⟩
      · intro pid' hpid'
        exact h.positive pid' (hperm.mem_iff.mp hpid')
      · intro hchildless
        exact (h.childless hchildless ▸ hperm).eq_nil
      · intro hbegun
        rw [hperm.length_eq]
        exact h.children hbegun

theorem poolInv_exec (h : (pool processCount).Exec tr s) : PoolInv tr s :=
  h.invariant (I := PoolInv) (fun _ hinit => poolInv_init hinit)
    fun _ _ _ _ hinv hstep => hinv.step (pool_moves hinv.positive hstep)

theorem PoolPc.ahead_nonneg (pc : PoolPc) : 0 ≤ pc.ahead := by
  unfold PoolPc.ahead
  split <;> decide

theorem PoolInv.nonneg (h : PoolInv tr s) : 0 ≤ s.runningChilds := by
  have hahead := s.pc.ahead_nonneg
  have hrunning := h.running
  cases hbegun : s.pc.begun with
  | false =>
      obtain rfl := h.quiet hbegun
      rw [total_nil, List.count_nil] at hrunning
      omega
  | true =>
      rw [h.children hbegun] at hrunning
      omega

/-- Behind a collecting pass the counter exceeds the children by the forks that
failed. -/
theorem PoolInv.running_passed (h : PoolInv tr s) (hpassed : s.pc.passed = true) :
    s.runningChilds =
      total PoolEvent.unreaped tr + tr.count (.forked (-1)) := by
  have hrunning := h.running
  cases hpc : s.pc with
  | test childId =>
      rw [hpc] at hrunning
      exact hrunning.trans (Int.add_zero _)
  | _ => simp [hpc, PoolPc.passed] at hpassed

end Invariant

/-- For any results of the forks, any exits and any readings of the clock: the
counters of the pool are right if and only if no `fork` of the pool has failed
in front of the collecting pass. -/
theorem counts_right_iff (processCount : ℕ) (tr : List PoolEvent) (s : Pool)
    (hexec : (pool processCount).Exec tr s) :
    CountsRight tr s ↔
      (s.pc.passed = true → PoolEvent.forked (-1) ∉ tr) := by
  have hinv := poolInv_exec hexec
  constructor
  · intro hright hpassed
    have hrunning := hinv.running_passed hpassed
    rw [hright.running hpassed] at hrunning
    rw [← List.count_eq_zero]
    omega
  · intro hforks
    refine ⟨fun hpassed => ?_, fun _ => hinv.windows, hinv.nonneg, ?_⟩
    · rw [hinv.running_passed hpassed, List.count_eq_zero.mpr (hforks hpassed)]
      exact Int.add_zero _
    · intro hpc
      exact hinv.childless (by rw [hpc]; rfl)

/-- The first job: one child, which exits and is awaited. -/
def firstJob : List PoolChoice :=
  [.main 10, .main 0, .exits 10, .main 10, .main (-1), .main 0]

/-- A `Pool` in front of its first `fork`, without children. -/
def Pool.start : Pool where
  pc := .starting 0 0
  runningChilds := 0
  created := 0
  finished := 0
  currentTime := 0
  lastTime := 0
  children := ⟨[], []⟩

theorem start_init (processCount : ℕ) : (pool processCount).init .start :=
  ⟨⟨0, rfl⟩, rfl, rfl, rfl, fun _ h => absurd h List.not_mem_nil⟩

theorem pool_exec_of_choices {processCount : ℕ} {tr : List PoolEvent} {s : Pool}
    (choices : List PoolChoice)
    (h : System.runChoices (poolStep processCount) .start choices =
      some (s, tr)) :
    (pool processCount).Exec tr s :=
  ⟨_, start_init processCount, System.run_of_choices (S := pool processCount)
    (poolStep processCount) (fun _ choice _ _ h => ⟨choice, h⟩) choices h⟩

/-- Two turns a second apart: the first child exits in the second of them. -/
theorem counts_right_iff_two_turns :
    ∃ tr s, (pool 1).Exec tr s ∧ s.pc = .test 0 ∧ s.runningChilds = 1 ∧
      CountsRight tr s := by
  have hexec : (pool 1).Exec _ _ := pool_exec_of_choices
    (firstJob ++
      [.main 1, .main 11, .main 0, .main 0, .main 1,
        .main 2, .main 12, .main 0, .exits 11, .main 11, .main 0]) rfl
  exact ⟨_, _, hexec, rfl, rfl,
    (counts_right_iff 1 _ _ hexec).mpr fun _ => by decide⟩

/-- The second `fork` of the pool fails, and one child runs where two are
counted. -/
theorem counts_not_right :
    ∃ tr s, (pool 1).Exec tr s ∧ s.pc = .test 0 ∧ s.runningChilds = 2 ∧
      s.children = ⟨[11], []⟩ ∧ ¬ CountsRight tr s := by
  have hexec : (pool 1).Exec _ _ := pool_exec_of_choices
    (firstJob ++
      [.main 1, .main 11, .main 0, .main 0, .main 1,
        .main 2, .main (-1), .main 0, .main 0]) rfl
  refine ⟨_, _, hexec, rfl, rfl, rfl, ?_⟩
  intro hright
  have htwo : (2 : ℤ) = 1 := hright.running rfl
  contradiction

end Pvos.Cv1Fork
