import Mathlib.Data.List.Perm.Basic
import Pvos.Support.System

/-!
# A pool of child processes

`main` of `cv1-fork/main.cpp` forks `process_count` children and waits until
none is left.  Then it forks a child in each turn of a loop, collects the
children that have exited, and reports once a second, until a turn finds no
child at all.

The result of each call is taken from the environment: the pid or the -1 of a
`fork`, the child that `waitpid` takes, the reading of the clock.  A child may
exit at any time.  The counters are unbounded.
-/

namespace Pvos.Cv1Fork

open Pvos.Support

/-! ## Children of a process -/

/-- The pids of the children that run, and of those that have exited and were
not collected. -/
structure Children where
  live : List ℤ
  zombies : List ℤ

/-- All children that were not collected. -/
def Children.pids (c : Children) : List ℤ := c.live ++ c.zombies

/-- `fork` returns -1, or the pid of a new child. -/
def Children.fork (answer : ℤ) (c : Children) : Option Children :=
  if answer = -1 then some c
  else if 0 < answer ∧ answer ∉ c.pids then
    some { c with live := c.live ++ [answer] }
  else none

/-- A child exits. -/
def Children.exits (pid : ℤ) (c : Children) : Option Children :=
  if pid ∈ c.live then
    some { live := c.live.erase pid, zombies := c.zombies ++ [pid] }
  else none

/-- `get_child_exit_status` returns what `waitpid` returns: a child that has
exited; -1 when there is no child; and with `WNOHANG`, 0 when none has exited.
Without, it blocks until a child has exited. -/
def Children.getChildExitStatus (wnohang : Bool) (answer : ℤ) (c : Children) :
    Option Children :=
  if answer ∈ c.zombies then some { c with zombies := c.zombies.erase answer }
  else if answer = -1 ∧ c.pids = [] then some c
  else if answer = 0 ∧ wnohang = true ∧ c.zombies = [] ∧ c.live ≠ [] then
    some c
  else none

/-! ## The program -/

/-- The next statements of `main`.  `childJob` is what a child of the first job
runs; where no child was forked, `pid` may hold 0 in the parent too. -/
inductive PoolPc
  | starting (i : ℕ) (pid : ℤ)
  | childJob
  | awaiting
  | poolStart
  | head
  | fork
  | sleep
  | reap
  | test (childId : ℤ)
  | returned

/-- The forks of the pool, the children it collects, and what it prints. -/
inductive PoolEvent
  | forked (pid : ℤ)
  | reaped (pid : ℤ)
  | report (created finished runningChilds : ℤ)
  deriving DecidableEq

/-- The variables of the pool, and the children. -/
structure Pool where
  pc : PoolPc
  runningChilds : ℤ
  created : ℤ
  finished : ℤ
  currentTime : ℤ
  lastTime : ℤ
  children : Children

/-- What comes next: a statement of `main`, with the result of its call, or the
exit of a child. -/
inductive PoolChoice
  | main (answer : ℤ)
  | exits (pid : ℤ)

/-- The next statements of `main`. -/
def mainStep (processCount : ℕ) (answer : ℤ) (s : Pool) :
    Option (Pool × List PoolEvent) :=
  match s.pc with
  | .starting i pid =>
      if i < processCount then
        (s.children.fork answer).map fun children =>
          ({ s with pc := .starting (i + 1) answer, children }, [])
      else if pid = 0 then some ({ s with pc := .childJob }, [])
      else some ({ s with pc := .awaiting }, [])
  | .childJob => none
  | .awaiting =>
      (s.children.getChildExitStatus false answer).map fun children =>
        if answer = -1 then ({ s with pc := .poolStart, children }, [])
        else ({ s with children }, [])
  | .poolStart =>
      some ({ s with
        pc := .head
        runningChilds := 0
        created := 0
        finished := 0
        lastTime := answer }, [])
  | .head =>
      some ({ s with
        pc := .fork
        currentTime := answer
        runningChilds := s.runningChilds + 1
        created := s.created + 1 }, [])
  | .fork =>
      (s.children.fork answer).map fun children =>
        ({ s with pc := .sleep, children }, [.forked answer])
  | .sleep => some ({ s with pc := .reap }, [])
  | .reap =>
      (s.children.getChildExitStatus true answer).map fun children =>
        if answer ≤ 0 then ({ s with pc := .test answer, children }, [])
        else
          ({ s with
            finished := s.finished + 1
            runningChilds := s.runningChilds - 1
            children }, [.reaped answer])
  | .test childId =>
      if childId < 0 then some ({ s with pc := .returned }, [])
      else if 1 ≤ s.currentTime - s.lastTime then
        some ({ s with
          pc := .head
          lastTime := answer
          created := 0
          finished := 0 },
          [.report s.created s.finished s.runningChilds])
      else some ({ s with pc := .head }, [])
  | .returned => none

def poolStep (processCount : ℕ) (s : Pool) :
    PoolChoice → Option (Pool × List PoolEvent)
  | .main answer => mainStep processCount answer s
  | .exits pid =>
      (s.children.exits pid).map fun children => ({ s with children }, [])

/-- The program in front of its first `fork`, with anything in `pid`, and
perhaps with children that were its own before. -/
def pool (processCount : ℕ) : System Pool PoolEvent where
  init s := (∃ pid, s.pc = .starting 0 pid) ∧ s.runningChilds = 0 ∧
    s.created = 0 ∧ s.finished = 0 ∧ ∀ pid ∈ s.children.pids, 0 < pid
  step s es s' := ∃ choice, poolStep processCount s choice = some (s', es)

/-! ## What one step does -/

section Children

variable {c c' : Children} {answer pid : ℤ} {wnohang : Bool}

theorem fork_cases (h : c.fork answer = some c') :
    (answer = -1 ∧ c' = c) ∨
      (0 < answer ∧ c' = { c with live := c.live ++ [answer] }) := by
  unfold Children.fork at h
  split at h
  next hfailed => exact .inl ⟨hfailed, (Option.some.inj h).symm⟩
  next =>
    rw [Option.ite_none_right_eq_some] at h
    exact .inr ⟨h.1.1, (Option.some.inj h.2).symm⟩

theorem exits_cases (h : c.exits pid = some c') :
    pid ∈ c.live ∧
      c' = { live := c.live.erase pid, zombies := c.zombies ++ [pid] } := by
  unfold Children.exits at h
  rw [Option.ite_none_right_eq_some] at h
  exact ⟨h.1, (Option.some.inj h.2).symm⟩

theorem getChildExitStatus_cases
    (h : c.getChildExitStatus wnohang answer = some c') :
    (answer ∈ c.zombies ∧ c' = { c with zombies := c.zombies.erase answer }) ∨
      (answer = -1 ∧ c.pids = [] ∧ c' = c) ∨
      (answer = 0 ∧ wnohang = true ∧ c' = c) := by
  unfold Children.getChildExitStatus at h
  split at h
  next hmem => exact .inl ⟨hmem, (Option.some.inj h).symm⟩
  next =>
    split at h
    next hnone =>
      exact .inr (.inl ⟨hnone.1, hnone.2, (Option.some.inj h).symm⟩)
    next =>
      rw [Option.ite_none_right_eq_some] at h
      exact .inr (.inr ⟨h.1.1, h.1.2.1, (Option.some.inj h.2).symm⟩)

theorem positive_fork (hpos : ∀ p ∈ c.pids, 0 < p) (hpid : 0 < pid) :
    ∀ p ∈ Children.pids { c with live := c.live ++ [pid] }, 0 < p := by
  intro p hp
  simp only [Children.pids, List.mem_append, List.mem_singleton] at hp hpos
  rcases hp with (hlive | rfl) | hzombie
  · exact hpos p (.inl hlive)
  · exact hpid
  · exact hpos p (.inr hzombie)

theorem positive_collect (hpos : ∀ p ∈ c.pids, 0 < p) :
    ∀ p ∈ Children.pids { c with zombies := c.zombies.erase pid }, 0 < p := by
  intro p hp
  rcases List.mem_append.mp hp with hlive | hzombie
  · exact hpos p (List.mem_append_left _ hlive)
  · exact hpos p (List.mem_append_right _ (List.mem_of_mem_erase hzombie))

theorem pids_exits_perm (hmem : pid ∈ c.live) :
    (Children.pids
      { live := c.live.erase pid, zombies := c.zombies ++ [pid] }).Perm
      c.pids := by
  unfold Children.pids
  rw [← List.append_assoc]
  refine (List.perm_append_singleton pid _).trans ?_
  exact (List.perm_cons_erase hmem).symm.append_right c.zombies

end Children

/-- What one step does to the pool. -/
inductive PoolMove (processCount : ℕ) (s : Pool) :
    Pool → List PoolEvent → Prop
  | starts (i : ℕ) (pid answer : ℤ) (children : Children)
      (hpc : s.pc = .starting i pid)
      (hfork : s.children.fork answer = some children) :
      PoolMove processCount s
        { s with pc := .starting (i + 1) answer, children } []
  | childJob (i : ℕ) (hpc : s.pc = .starting i 0) :
      PoolMove processCount s { s with pc := .childJob } []
  | awaits (i : ℕ) (pid : ℤ) (hpc : s.pc = .starting i pid) :
      PoolMove processCount s { s with pc := .awaiting } []
  | awaited (pid : ℤ) (hpc : s.pc = .awaiting)
      (hmem : pid ∈ s.children.zombies) :
      PoolMove processCount s
        { s with
          pc := .awaiting
          children :=
            { s.children with zombies := s.children.zombies.erase pid } } []
  | noneLeft (hpc : s.pc = .awaiting) (hnone : s.children.pids = []) :
      PoolMove processCount s { s with pc := .poolStart } []
  | poolStart (answer : ℤ) (hpc : s.pc = .poolStart) :
      PoolMove processCount s
        { s with
          pc := .head
          runningChilds := 0
          created := 0
          finished := 0
          lastTime := answer } []
  | head (answer : ℤ) (hpc : s.pc = .head) :
      PoolMove processCount s
        { s with
          pc := .fork
          currentTime := answer
          runningChilds := s.runningChilds + 1
          created := s.created + 1 } []
  | forks (pid : ℤ) (hpc : s.pc = .fork) (hpid : 0 < pid) :
      PoolMove processCount s
        { s with
          pc := .sleep
          children :=
            { s.children with live := s.children.live ++ [pid] } }
        [.forked pid]
  | forkFails (hpc : s.pc = .fork) :
      PoolMove processCount s { s with pc := .sleep } [.forked (-1)]
  | sleep (hpc : s.pc = .sleep) :
      PoolMove processCount s { s with pc := .reap } []
  | reaps (pid : ℤ) (hpc : s.pc = .reap) (hmem : pid ∈ s.children.zombies)
      (hpid : 0 < pid) :
      PoolMove processCount s
        { s with
          pc := .reap
          finished := s.finished + 1
          runningChilds := s.runningChilds - 1
          children :=
            { s.children with zombies := s.children.zombies.erase pid } }
        [.reaped pid]
  | passed (hpc : s.pc = .reap) :
      PoolMove processCount s { s with pc := .test 0 } []
  | noChild (hpc : s.pc = .reap) (hnone : s.children.pids = []) :
      PoolMove processCount s { s with pc := .test (-1) } []
  | leaves (childId : ℤ) (hpc : s.pc = .test childId) (hneg : childId < 0) :
      PoolMove processCount s { s with pc := .returned } []
  | reports (childId answer : ℤ) (hpc : s.pc = .test childId) :
      PoolMove processCount s
        { s with
          pc := .head
          lastTime := answer
          created := 0
          finished := 0 }
        [.report s.created s.finished s.runningChilds]
  | again (childId : ℤ) (hpc : s.pc = .test childId) :
      PoolMove processCount s { s with pc := .head } []
  | exits (pid : ℤ) (hmem : pid ∈ s.children.live) :
      PoolMove processCount s
        { s with children :=
            { live := s.children.live.erase pid
              zombies := s.children.zombies ++ [pid] } } []

section Moves

variable {processCount : ℕ} {s s' : Pool} {es : List PoolEvent}

theorem mainStep_moves {answer : ℤ}
    (hpos : ∀ pid ∈ s.children.pids, 0 < pid)
    (h : mainStep processCount answer s = some (s', es)) :
    PoolMove processCount s s' es := by
  unfold mainStep at h
  cases hpc : s.pc with
  | starting i pid =>
      simp only [hpc] at h
      split at h
      next =>
        obtain ⟨children, hfork, hs'⟩ := Option.map_eq_some_iff.mp h
        obtain ⟨rfl, rfl⟩ := Prod.ext_iff.mp hs'
        exact .starts i pid answer children hpc hfork
      next =>
        split at h
        next hzero =>
          obtain ⟨rfl, rfl⟩ := Prod.ext_iff.mp (Option.some.inj h)
          exact .childJob i (hzero ▸ hpc)
        next =>
          obtain ⟨rfl, rfl⟩ := Prod.ext_iff.mp (Option.some.inj h)
          exact .awaits i pid hpc
  | childJob => simp [hpc] at h
  | awaiting =>
      simp only [hpc] at h
      obtain ⟨children, hstatus, hs'⟩ := Option.map_eq_some_iff.mp h
      rcases getChildExitStatus_cases hstatus with
        ⟨hmem, rfl⟩ | ⟨rfl, hnone, rfl⟩ | ⟨-, hwnohang, -⟩
      · have hpid := hpos answer (List.mem_append_right _ hmem)
        rw [if_neg (by omega)] at hs'
        obtain ⟨rfl, rfl⟩ := Prod.ext_iff.mp hs'
        exact .awaited answer hpc hmem
      · obtain ⟨rfl, rfl⟩ := Prod.ext_iff.mp hs'
        exact .noneLeft hpc hnone
      · contradiction
  | poolStart =>
      simp only [hpc] at h
      obtain ⟨rfl, rfl⟩ := Prod.ext_iff.mp (Option.some.inj h)
      exact .poolStart answer hpc
  | head =>
      simp only [hpc] at h
      obtain ⟨rfl, rfl⟩ := Prod.ext_iff.mp (Option.some.inj h)
      exact .head answer hpc
  | fork =>
      simp only [hpc] at h
      obtain ⟨children, hfork, hs'⟩ := Option.map_eq_some_iff.mp h
      obtain ⟨rfl, rfl⟩ := Prod.ext_iff.mp hs'
      rcases fork_cases hfork with ⟨rfl, rfl⟩ | ⟨hpid, rfl⟩
      · exact .forkFails hpc
      · exact .forks answer hpc hpid
  | sleep =>
      simp only [hpc] at h
      obtain ⟨rfl, rfl⟩ := Prod.ext_iff.mp (Option.some.inj h)
      exact .sleep hpc
  | reap =>
      simp only [hpc] at h
      obtain ⟨children, hstatus, hs'⟩ := Option.map_eq_some_iff.mp h
      rcases getChildExitStatus_cases hstatus with
        ⟨hmem, rfl⟩ | ⟨rfl, hnone, rfl⟩ | ⟨rfl, -, rfl⟩
      · have hpid := hpos answer (List.mem_append_right _ hmem)
        rw [if_neg (by omega)] at hs'
        obtain ⟨rfl, rfl⟩ := Prod.ext_iff.mp hs'
        exact .reaps answer hpc hmem hpid
      · obtain ⟨rfl, rfl⟩ := Prod.ext_iff.mp hs'
        exact .noChild hpc hnone
      · obtain ⟨rfl, rfl⟩ := Prod.ext_iff.mp hs'
        exact .passed hpc
  | test childId =>
      simp only [hpc] at h
      split at h
      next hneg =>
        obtain ⟨rfl, rfl⟩ := Prod.ext_iff.mp (Option.some.inj h)
        exact .leaves childId hpc hneg
      next =>
        split at h
        next =>
          obtain ⟨rfl, rfl⟩ := Prod.ext_iff.mp (Option.some.inj h)
          exact .reports childId answer hpc
        next =>
          obtain ⟨rfl, rfl⟩ := Prod.ext_iff.mp (Option.some.inj h)
          exact .again childId hpc
  | returned => simp [hpc] at h

theorem pool_moves (hpos : ∀ pid ∈ s.children.pids, 0 < pid)
    (h : (pool processCount).step s es s') : PoolMove processCount s s' es := by
  obtain ⟨choice, h⟩ := h
  cases choice with
  | main answer => exact mainStep_moves hpos h
  | exits pid =>
      obtain ⟨children, hexits, hs'⟩ := Option.map_eq_some_iff.mp h
      obtain ⟨rfl, rfl⟩ := Prod.ext_iff.mp hs'
      obtain ⟨hmem, rfl⟩ := exits_cases hexits
      exact .exits pid hmem

end Moves

end Pvos.Cv1Fork
