import Mathlib.Data.List.Perm.Basic
import Mathlib.Logic.Relation
import Pvos.Support.System

/-!
# A handler that collects children

`main` of `signals/child_party.cpp` forks children without end; the handler of
`SIGCHLD` collects those that have exited.  Any number of exits sets one flag.
The signal is delivered between two steps of `main`, and is blocked while its
handler runs, so that an exit behind the last `waitpid` waits for the next
delivery.

`running_childs++` of `main` is a read and a write.  The children are numbered
in the order of their forks, and the counters are unbounded.
-/

namespace Pvos.Signals

open Pvos.Support

/-! ## The program -/

/-- The next statement of `main`. -/
inductive PartyPc
  | loadRunning
  | storeRunning
  | increment
  | fork
  | sleep
  | check
  | report
  deriving DecidableEq

/-- The next statement of `siging_handler`, or no handler runs. -/
inductive HandlerPc
  | idle
  | caught
  | waitpid
  | decrement
  | collect
  | report
  deriving DecidableEq

/-- What is printed. -/
inductive PartyEvent
  | created (created runningChilds : ℤ)
  | caught (signalsCaught collected : ℤ)

/-- The variables of the program, the value that `running_childs++` has read,
the flag of the signal, and the children: the number forked, and those that
run, have exited, and were collected. -/
structure ChildParty where
  pc : PartyPc
  register : ℤ
  runningChilds : ℤ
  created : ℤ
  handler : HandlerPc
  signalsCaught : ℤ
  collected : ℤ
  pending : Bool
  forked : ℕ
  live : List ℕ
  zombies : List ℕ
  reaped : List ℕ

/-- What comes next: a statement of `main`, whose `fork` may fail; the delivery
of the signal; a statement of the handler, whose `waitpid` may take any child
that has exited; or the exit of a child. -/
inductive PartyChoice
  | main (forks : Bool)
  | deliver
  | handler (child : ℕ)
  | exits (child : ℕ)

/-- The next statement of `main`. -/
def mainStep (forks : Bool) (s : ChildParty) : ChildParty × List PartyEvent :=
  match s.pc with
  | .loadRunning =>
      ({ s with pc := .storeRunning, register := s.runningChilds }, [])
  | .storeRunning =>
      ({ s with pc := .increment, runningChilds := s.register + 1 }, [])
  | .increment => ({ s with pc := .fork, created := s.created + 1 }, [])
  | .fork =>
      if forks then
        ({ s with
          pc := .sleep
          forked := s.forked + 1
          live := s.live ++ [s.forked] }, [])
      else ({ s with pc := .sleep }, [])
  | .sleep => ({ s with pc := .check }, [])
  | .check =>
      if s.created % 10 = 0 then ({ s with pc := .report }, [])
      else ({ s with pc := .loadRunning }, [])
  | .report =>
      ({ s with pc := .loadRunning }, [.created s.created s.runningChilds])

/-- The next statement of `siging_handler`. -/
def handlerStep (child : ℕ) (s : ChildParty) :
    Option (ChildParty × List PartyEvent) :=
  match s.handler with
  | .idle => none
  | .caught =>
      some ({ s with
        handler := .waitpid
        signalsCaught := s.signalsCaught + 1 }, [])
  | .waitpid =>
      if s.zombies = [] then some ({ s with handler := .report }, [])
      else if child ∈ s.zombies then
        some ({ s with
          handler := .decrement
          zombies := s.zombies.erase child
          reaped := s.reaped ++ [child] }, [])
      else none
  | .decrement =>
      some ({ s with
        handler := .collect
        runningChilds := s.runningChilds - 1 }, [])
  | .collect =>
      some ({ s with handler := .waitpid, collected := s.collected + 1 }, [])
  | .report =>
      some ({ s with handler := .idle }, [.caught s.signalsCaught s.collected])

def partyStep (s : ChildParty) :
    PartyChoice → Option (ChildParty × List PartyEvent)
  | .main forks =>
      if s.handler = .idle then some (mainStep forks s) else none
  | .deliver =>
      if s.handler = .idle ∧ s.pending = true then
        some ({ s with handler := .caught, pending := false }, [])
      else none
  | .handler child => handlerStep child s
  | .exits child =>
      if child ∈ s.live then
        some ({ s with
          pending := true
          live := s.live.erase child
          zombies := s.zombies ++ [child] }, [])
      else none

/-- The program in front of the loop. -/
def ChildParty.start : ChildParty where
  pc := .loadRunning
  register := 0
  runningChilds := 0
  created := 0
  handler := .idle
  signalsCaught := 0
  collected := 0
  pending := false
  forked := 0
  live := []
  zombies := []
  reaped := []

/-- All orders of the steps. -/
def childParty : System ChildParty PartyEvent where
  init s := s = .start
  step s es s' := ∃ choice, partyStep s choice = some (s', es)

/-! ## What one step does -/

/-- What one step does to the program and the children. -/
inductive PartyMove (s : ChildParty) : ChildParty → List PartyEvent → Prop
  | loadRunning (hidle : s.handler = .idle) (hpc : s.pc = .loadRunning) :
      PartyMove s
        { s with pc := .storeRunning, register := s.runningChilds } []
  | storeRunning (hidle : s.handler = .idle) (hpc : s.pc = .storeRunning) :
      PartyMove s { s with pc := .increment, runningChilds := s.register + 1 } []
  | increment (hidle : s.handler = .idle) (hpc : s.pc = .increment) :
      PartyMove s { s with pc := .fork, created := s.created + 1 } []
  | forks (hidle : s.handler = .idle) (hpc : s.pc = .fork) :
      PartyMove s
        { s with
          pc := .sleep
          forked := s.forked + 1
          live := s.live ++ [s.forked] } []
  | forkFails (hidle : s.handler = .idle) (hpc : s.pc = .fork) :
      PartyMove s { s with pc := .sleep } []
  | sleep (hidle : s.handler = .idle) (hpc : s.pc = .sleep) :
      PartyMove s { s with pc := .check } []
  | tenth (hidle : s.handler = .idle) (hpc : s.pc = .check)
      (hcreated : s.created % 10 = 0) :
      PartyMove s { s with pc := .report } []
  | notTenth (hidle : s.handler = .idle) (hpc : s.pc = .check)
      (hcreated : ¬ s.created % 10 = 0) :
      PartyMove s { s with pc := .loadRunning } []
  | report (hidle : s.handler = .idle) (hpc : s.pc = .report) :
      PartyMove s { s with pc := .loadRunning }
        [.created s.created s.runningChilds]
  | deliver (hidle : s.handler = .idle) (hpending : s.pending = true) :
      PartyMove s { s with handler := .caught, pending := false } []
  | caught (hhandler : s.handler = .caught) :
      PartyMove s
        { s with
          handler := .waitpid
          signalsCaught := s.signalsCaught + 1 } []
  | noneLeft (hhandler : s.handler = .waitpid) (hzombies : s.zombies = []) :
      PartyMove s { s with handler := .report } []
  | reap (child : ℕ) (hhandler : s.handler = .waitpid)
      (hchild : child ∈ s.zombies) :
      PartyMove s
        { s with
          handler := .decrement
          zombies := s.zombies.erase child
          reaped := s.reaped ++ [child] } []
  | decrement (hhandler : s.handler = .decrement) :
      PartyMove s
        { s with
          handler := .collect
          runningChilds := s.runningChilds - 1 } []
  | collect (hhandler : s.handler = .collect) :
      PartyMove s { s with handler := .waitpid, collected := s.collected + 1 } []
  | handled (hhandler : s.handler = .report) :
      PartyMove s { s with handler := .idle }
        [.caught s.signalsCaught s.collected]
  | exits (child : ℕ) (hchild : child ∈ s.live) :
      PartyMove s
        { s with
          pending := true
          live := s.live.erase child
          zombies := s.zombies ++ [child] } []

section Moves

variable {s s' : ChildParty} {es : List PartyEvent}

theorem mainStep_moves (forks : Bool) (hidle : s.handler = .idle) :
    PartyMove s (mainStep forks s).1 (mainStep forks s).2 := by
  unfold mainStep
  cases hpc : s.pc with
  | loadRunning => exact .loadRunning hidle hpc
  | storeRunning => exact .storeRunning hidle hpc
  | increment => exact .increment hidle hpc
  | fork =>
      cases forks with
      | true => exact .forks hidle hpc
      | false => exact .forkFails hidle hpc
  | sleep => exact .sleep hidle hpc
  | check =>
      dsimp only
      split
      next hcreated => exact .tenth hidle hpc hcreated
      next hcreated => exact .notTenth hidle hpc hcreated
  | report => exact .report hidle hpc

theorem handlerStep_moves {child : ℕ}
    (h : handlerStep child s = some (s', es)) : PartyMove s s' es := by
  unfold handlerStep at h
  cases hhandler : s.handler with
  | idle => simp [hhandler] at h
  | waitpid =>
      simp only [hhandler] at h
      split at h
      next hzombies =>
        simp only [Option.some.injEq, Prod.mk.injEq] at h
        obtain ⟨rfl, rfl⟩ := h
        exact .noneLeft hhandler hzombies
      next =>
        split at h
        next hchild =>
          simp only [Option.some.injEq, Prod.mk.injEq] at h
          obtain ⟨rfl, rfl⟩ := h
          exact .reap child hhandler hchild
        next => simp at h
  | caught =>
      simp only [hhandler, Option.some.injEq, Prod.mk.injEq] at h
      obtain ⟨rfl, rfl⟩ := h
      exact .caught hhandler
  | decrement =>
      simp only [hhandler, Option.some.injEq, Prod.mk.injEq] at h
      obtain ⟨rfl, rfl⟩ := h
      exact .decrement hhandler
  | collect =>
      simp only [hhandler, Option.some.injEq, Prod.mk.injEq] at h
      obtain ⟨rfl, rfl⟩ := h
      exact .collect hhandler
  | report =>
      simp only [hhandler, Option.some.injEq, Prod.mk.injEq] at h
      obtain ⟨rfl, rfl⟩ := h
      exact .handled hhandler

theorem partyStep_main {forks : Bool}
    (h : partyStep s (.main forks) = some (s', es)) :
    s.handler = .idle ∧ mainStep forks s = (s', es) := by
  rw [partyStep, Option.ite_none_right_eq_some] at h
  exact ⟨h.1, Option.some.inj h.2⟩

theorem partyStep_deliver (h : partyStep s .deliver = some (s', es)) :
    s.handler = .idle ∧ s.pending = true ∧
      s' = { s with handler := .caught, pending := false } ∧ es = [] := by
  rw [partyStep, Option.ite_none_right_eq_some] at h
  obtain ⟨⟨hidle, hpending⟩, hs'⟩ := h
  obtain ⟨rfl, rfl⟩ := Prod.ext_iff.mp (Option.some.inj hs')
  exact ⟨hidle, hpending, rfl, rfl⟩

theorem partyStep_exits {child : ℕ}
    (h : partyStep s (.exits child) = some (s', es)) :
    child ∈ s.live ∧
      s' = { s with
        pending := true
        live := s.live.erase child
        zombies := s.zombies ++ [child] } ∧ es = [] := by
  rw [partyStep, Option.ite_none_right_eq_some] at h
  obtain ⟨hchild, hs'⟩ := h
  obtain ⟨rfl, rfl⟩ := Prod.ext_iff.mp (Option.some.inj hs')
  exact ⟨hchild, rfl, rfl⟩

theorem partyStep_moves (h : childParty.step s es s') : PartyMove s s' es := by
  obtain ⟨choice, h⟩ := h
  cases choice with
  | main forks =>
      obtain ⟨hidle, hmain⟩ := partyStep_main h
      obtain ⟨rfl, rfl⟩ := Prod.ext_iff.mp hmain
      exact mainStep_moves forks hidle
  | deliver =>
      obtain ⟨hidle, hpending, rfl, rfl⟩ := partyStep_deliver h
      exact .deliver hidle hpending
  | handler child => exact handlerStep_moves h
  | exits child =>
      obtain ⟨hchild, rfl, rfl⟩ := partyStep_exits h
      exact .exits child hchild

end Moves

/-! ## No child is forgotten -/

/-- A call of `waitpid` is still to come. -/
def HandlerPc.waits : HandlerPc → Bool
  | .caught | .waitpid | .decrement | .collect => true
  | .idle | .report => false

/-- A child was taken by `waitpid` and is not yet counted. -/
def HandlerPc.uncounted : HandlerPc → ℕ
  | .decrement | .collect => 1
  | _ => 0

/-- The next statement of the handler, which prints nothing. -/
def HandlerMoves (s t : ChildParty) : Prop :=
  ∃ child, handlerStep child s = some (t, [])

/-- The statements of the handler come to a `waitpid`, before which no child is
taken, and which takes any of the children that have exited. -/
def ChildParty.Collects (s : ChildParty) : Prop :=
  ∃ t, Relation.ReflTransGen HandlerMoves s t ∧ t.handler = .waitpid ∧
    t.zombies = s.zombies ∧ t.reaped = s.reaped ∧
      ∀ child ∈ s.zombies, ∃ t', handlerStep child t = some (t', []) ∧
        t'.zombies = s.zombies.erase child ∧ t'.reaped = s.reaped ++ [child]

/-- The signal is pending: as soon as no handler runs it can be delivered, and
its handler collects. -/
def ChildParty.Notified (s : ChildParty) : Prop :=
  s.pending = true ∧ (s.handler = .idle →
    ∃ t, partyStep s .deliver = some (t, []) ∧ t.zombies = s.zombies ∧
      t.reaped = s.reaped ∧ t.Collects)

/-- A child that has exited will be collected, and the children collected are
counted when no handler runs; each of them once.  Every child that was forked
runs, has exited or was collected. -/
structure NoneForgotten (s : ChildParty) : Prop where
  noticed : s.zombies ≠ [] → s.Notified ∨ s.handler ≠ .idle ∧ s.Collects
  counted : s.handler = .idle → s.collected = s.reaped.length
  once : s.reaped.Nodup
  children : (s.reaped ++ s.zombies ++ s.live).Perm (List.range s.forked)

section Collects

variable {s t : ChildParty}

theorem collects_of_waitpid (h : s.handler = .waitpid) : s.Collects := by
  refine ⟨s, .refl, h, rfl, rfl, fun child hchild => ?_⟩
  have hne : s.zombies ≠ [] := List.ne_nil_of_mem hchild
  have htakes : handlerStep child s = some ({ s with
      handler := .decrement
      zombies := s.zombies.erase child
      reaped := s.reaped ++ [child] }, []) := by
    simp [handlerStep, h, hne, hchild]
  exact ⟨_, htakes, rfl, rfl⟩

/-- A statement that takes no child comes before the `waitpid`. -/
theorem ChildParty.Collects.of_move (h : t.Collects) (hmove : HandlerMoves s t)
    (hzombies : t.zombies = s.zombies) (hreaped : t.reaped = s.reaped) :
    s.Collects := by
  obtain ⟨u, hrun, hpc, hz, hr, htakes⟩ := h
  rw [hzombies, hreaped] at htakes
  exact ⟨u, .head hmove hrun, hpc, hz.trans hzombies, hr.trans hreaped, htakes⟩

theorem collects_of_collect (h : s.handler = .collect) : s.Collects := by
  have hnext : ({ s with handler := .waitpid, collected := s.collected + 1 } :
      ChildParty).Collects := collects_of_waitpid rfl
  exact hnext.of_move ⟨0, by simp [handlerStep, h]⟩ rfl rfl

/-- Where a `waitpid` is to come, the handler collects. -/
theorem collects_of_waits (h : s.handler.waits = true) : s.Collects := by
  cases hhandler : s.handler with
  | idle | report => simp [hhandler, HandlerPc.waits] at h
  | waitpid => exact collects_of_waitpid hhandler
  | collect => exact collects_of_collect hhandler
  | caught =>
      have hnext : ({ s with
          handler := .waitpid
          signalsCaught := s.signalsCaught + 1 } : ChildParty).Collects :=
        collects_of_waitpid rfl
      exact hnext.of_move ⟨0, by simp [handlerStep, hhandler]⟩ rfl rfl
  | decrement =>
      have hnext : ({ s with
          handler := .collect
          runningChilds := s.runningChilds - 1 } : ChildParty).Collects :=
        collects_of_collect rfl
      exact hnext.of_move ⟨0, by simp [handlerStep, hhandler]⟩ rfl rfl

theorem notified_of_pending (h : s.pending = true) : s.Notified := by
  refine ⟨h, fun hidle => ?_⟩
  have hnext : ({ s with handler := .caught, pending := false } :
      ChildParty).Collects := collects_of_waits rfl
  exact ⟨_, if_pos ⟨hidle, h⟩, rfl, rfl, hnext⟩

end Collects

/-- The flag, the place in the handler and the children. -/
structure PartyInv (s : ChildParty) : Prop where
  noticed : s.zombies ≠ [] → s.pending = true ∨ s.handler.waits = true
  counted : s.collected + s.handler.uncounted = s.reaped.length
  children : (s.reaped ++ s.zombies ++ s.live).Perm (List.range s.forked)

section Invariant

variable {s s' : ChildParty} {es : List PartyEvent}

theorem PartyInv.noneForgotten (h : PartyInv s) : NoneForgotten s := by
  refine ⟨fun hne => ?_, fun hidle => ?_, ?_, h.children⟩
  · rcases h.noticed hne with hpending | hwaits
    · exact Or.inl (notified_of_pending hpending)
    · refine Or.inr ⟨fun hidle => ?_, collects_of_waits hwaits⟩
      simp [hidle, HandlerPc.waits] at hwaits
  · have hcounted := h.counted
    rw [hidle] at hcounted
    exact (Int.add_zero _).symm.trans hcounted
  · have hnodup := h.children.nodup_iff.mpr List.nodup_range
    exact (List.nodup_append.mp (List.nodup_append.mp hnodup).1).1

theorem partyInv_start : PartyInv .start where
  noticed h := absurd rfl h
  counted := rfl
  children := .refl _

/-- A child that exits goes from one list to the next. -/
theorem perm_exits {α : Type*} [DecidableEq α] (front back list : List α)
    {a : α} (ha : a ∈ list) :
    (front ++ (back ++ [a]) ++ list.erase a).Perm (front ++ back ++ list) := by
  rw [← List.append_assoc, List.append_assoc, List.singleton_append]
  exact (List.perm_cons_erase ha).symm.append_left _

theorem PartyInv.step (h : PartyInv s) (hstep : PartyMove s s' es) :
    PartyInv s' := by
  cases hstep with
  | forks hidle hpc =>
      refine ⟨h.noticed, h.counted, ?_⟩
      dsimp only
      rw [← List.append_assoc, List.range_succ]
      exact h.children.append_right _
  | deliver hidle hpending =>
      refine ⟨fun _ => Or.inr rfl, ?_, h.children⟩
      have hcounted := h.counted
      rwa [hidle] at hcounted
  | caught hhandler =>
      refine ⟨fun _ => Or.inr rfl, ?_, h.children⟩
      have hcounted := h.counted
      rwa [hhandler] at hcounted
  | noneLeft hhandler hzombies =>
      refine ⟨fun hne => absurd hzombies hne, ?_, h.children⟩
      have hcounted := h.counted
      rwa [hhandler] at hcounted
  | reap child hhandler hchild =>
      refine ⟨fun _ => Or.inr rfl, ?_, ?_⟩
      · have hcounted := h.counted
        rw [hhandler] at hcounted
        dsimp only [HandlerPc.uncounted] at hcounted ⊢
        rw [List.length_append, List.length_singleton]
        omega
      · have hperm := perm_exits [] s.reaped s.zombies hchild
        exact (hperm.append_right s.live).trans h.children
  | decrement hhandler =>
      refine ⟨fun _ => Or.inr rfl, ?_, h.children⟩
      have hcounted := h.counted
      rwa [hhandler] at hcounted
  | collect hhandler =>
      refine ⟨fun _ => Or.inr rfl, ?_, h.children⟩
      have hcounted := h.counted
      rw [hhandler] at hcounted
      dsimp only [HandlerPc.uncounted] at hcounted ⊢
      omega
  | handled hhandler =>
      have hnoticed := h.noticed
      have hcounted := h.counted
      rw [hhandler] at hnoticed hcounted
      exact ⟨fun hne => (hnoticed hne).imp_right (by simp [HandlerPc.waits]),
        hcounted, h.children⟩
  | exits child hchild =>
      refine ⟨fun _ => Or.inl rfl, h.counted, ?_⟩
      exact (perm_exits s.reaped s.zombies s.live hchild).trans h.children
  | _ => exact ⟨h.noticed, h.counted, h.children⟩

theorem partyInv_reachable (h : childParty.Reachable s) : PartyInv s :=
  h.invariant (fun _ hs => hs ▸ partyInv_start)
    fun _ _ _ hinv hstep => hinv.step (partyStep_moves hstep)

end Invariant

/-- For any number of forks, any order of exits and deliveries: when a child has
exited and was not collected, the signal is pending, or the statements of the
handler that runs come to a `waitpid` that takes it; and when no handler runs,
`collected` is the number of children collected, each once. -/
theorem none_forgotten (s : ChildParty) (h : childParty.Reachable s) :
    NoneForgotten s :=
  (partyInv_reachable h).noneForgotten

/-- Two rounds of the loop, then both children exit before one delivery, and the
handler takes the first of them. -/
def bothExit : List PartyChoice :=
  List.replicate 13 (.main true) ++
    [.exits 1, .exits 0, .deliver, .handler 0, .handler 0]

theorem none_forgotten_both :
    ∃ s, childParty.Reachable s ∧ s.zombies = [1] ∧ s.pending = false ∧
      s.handler = .decrement ∧ s.reaped = [0] ∧ NoneForgotten s ∧
      s.Collects := by
  have hrun : childParty.Run .start _ _ :=
    System.run_of_choices (S := childParty) partyStep
      (fun _ choice _ _ h => ⟨choice, h⟩) bothExit rfl
  obtain ⟨s, hreach, hzombies, hpending, hhandler, hreaped⟩ :
      ∃ s, childParty.Reachable s ∧ s.zombies = [1] ∧ s.pending = false ∧
        s.handler = .decrement ∧ s.reaped = [0] :=
    ⟨_, ⟨_, _, rfl, hrun⟩, rfl, rfl, rfl, rfl⟩
  have hnone := none_forgotten s hreach
  refine ⟨s, hreach, hzombies, hpending, hhandler, hreaped, hnone, ?_⟩
  rcases hnone.noticed (by simp [hzombies]) with hnotified | hcollects
  · simp [ChildParty.Notified, hpending] at hnotified
  · exact hcollects.2

end Pvos.Signals
