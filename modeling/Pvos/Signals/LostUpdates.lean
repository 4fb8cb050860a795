import Pvos.Signals.ChildParty

/-!
# The counter behind an interrupted increment

`main` of `signals/child_party.cpp` reads `running_childs` and writes it back
one higher; what the handler subtracts in between is overwritten.  Beside the
forks that fail, nothing else takes the counter from the number of children
that were forked and not collected.
-/

namespace Pvos.Signals

open Pvos.Support

/-- `running_childs` is the number of children forked and not collected. -/
def CounterExact (s : ChildParty) : Prop :=
  s.runningChilds = s.forked - s.reaped.length

/-- A `fork` that fails. -/
def forkFails (s : ChildParty) : PartyChoice → Bool
  | .main forks => s.pc = .fork ∧ forks = false
  | _ => false

/-- A `waitpid` of the handler that finds a child, while `main` is between the
read and the write of `running_childs++`. -/
def collectsInBetween (s : ChildParty) : PartyChoice → Bool
  | .handler _ =>
      s.pc = .storeRunning ∧ s.handler = .waitpid ∧ s.zombies ≠ []
  | _ => false

/-- Every fork succeeds. -/
def ForksSucceed (choices : List PartyChoice) : Prop :=
  System.EachStep partyStep (fun s choice => forkFails s choice = false)
    .start choices

/-- No child is collected between a read and a write of `running_childs++`. -/
def IncrementsUndisturbed (choices : List PartyChoice) : Prop :=
  System.EachStep partyStep
    (fun s choice => collectsInBetween s choice = false) .start choices

/-! ## What is counted -/

/-- `main` has counted a child that it has not yet forked. -/
def PartyPc.ahead : PartyPc → ℤ
  | .increment | .fork => 1
  | _ => 0

/-- The handler has collected a child that is not yet subtracted. -/
def HandlerPc.owed : HandlerPc → ℤ
  | .decrement => 1
  | _ => 0

/-- The children that will have been counted when `main` and the handler are
done with their updates. -/
def ChildParty.counted (s : ChildParty) : ℤ :=
  if s.pc = .storeRunning then s.register
  else s.runningChilds - s.pc.ahead - s.handler.owed

/-- How far the count is above the children forked and not collected. -/
def ChildParty.surplus (s : ChildParty) : ℤ :=
  s.counted - (s.forked - s.reaped.length)

/-- A step makes the count wrong by one. -/
def miscounts (s : ChildParty) (choice : PartyChoice) : ℕ :=
  (forkFails s choice).toNat + (collectsInBetween s choice).toNat

section Steps

variable {s s' : ChildParty} {es : List PartyEvent}

/-- Where neither half of an increment is open, the counter is the count. -/
theorem surplus_eq (hidle : s.handler = .idle)
    (hpc : s.pc = .report ∨ s.pc = .loadRunning) :
    s.surplus = s.runningChilds - (s.forked - s.reaped.length) := by
  unfold ChildParty.surplus ChildParty.counted
  rcases hpc with hpc | hpc <;>
    simp [hpc, hidle, PartyPc.ahead, HandlerPc.owed]

@[simp] theorem miscounts_main (forks : Bool) :
    miscounts s (.main forks) = (forkFails s (.main forks)).toNat :=
  rfl

@[simp] theorem miscounts_handler (child : ℕ) :
    miscounts s (.handler child) =
      (collectsInBetween s (.handler child)).toNat :=
  Nat.zero_add _

@[simp] theorem miscounts_deliver : miscounts s .deliver = 0 := rfl

@[simp] theorem miscounts_exits (child : ℕ) : miscounts s (.exits child) = 0 :=
  rfl

theorem mainStep_surplus {forks : Bool} (hidle : s.handler = .idle) :
    (mainStep forks s).1.surplus =
      s.surplus + miscounts s (.main forks) := by
  unfold mainStep ChildParty.surplus ChildParty.counted
  cases hpc : s.pc with
  | fork =>
      cases forks with
      | true =>
          simp [forkFails, hpc, hidle, PartyPc.ahead, HandlerPc.owed]
          omega
      | false =>
          -- the child counted in front of the `fork` stays in the counter
          simp [forkFails, hpc, hidle, PartyPc.ahead, HandlerPc.owed]
          omega
  | check =>
      dsimp only
      split <;> simp [forkFails, hpc, hidle, PartyPc.ahead, HandlerPc.owed]
  | _ => simp [forkFails, hpc, hidle, PartyPc.ahead, HandlerPc.owed]

theorem handlerStep_surplus {child : ℕ}
    (h : handlerStep child s = some (s', es)) :
    s'.surplus = s.surplus + miscounts s (.handler child) := by
  unfold handlerStep at h
  cases hhandler : s.handler with
  | idle => simp [hhandler] at h
  | waitpid =>
      simp only [hhandler] at h
      split at h
      next hzombies =>
        simp only [Option.some.injEq, Prod.mk.injEq] at h
        obtain ⟨rfl, -⟩ := h
        simp [ChildParty.surplus, ChildParty.counted, collectsInBetween,
          hhandler, hzombies, HandlerPc.owed]
      next hzombies =>
        simp only [Option.ite_none_right_eq_some, Option.some.injEq,
          Prod.mk.injEq] at h
        obtain ⟨-, rfl, -⟩ := h
        -- what `main` has read does not change with the children collected
        by_cases hpc : s.pc = .storeRunning
        · simp [ChildParty.surplus, ChildParty.counted, collectsInBetween,
            hhandler, hzombies, hpc]
          omega
        · simp [ChildParty.surplus, ChildParty.counted, collectsInBetween,
            hhandler, hpc, HandlerPc.owed]
          omega
  | decrement =>
      simp only [hhandler, Option.some.injEq, Prod.mk.injEq] at h
      obtain ⟨rfl, -⟩ := h
      by_cases hpc : s.pc = .storeRunning
      · simp [ChildParty.surplus, ChildParty.counted, collectsInBetween,
          hhandler, hpc]
      · simp [ChildParty.surplus, ChildParty.counted, collectsInBetween,
          hhandler, hpc, HandlerPc.owed]
        omega
  | _ =>
      simp only [hhandler, Option.some.injEq, Prod.mk.injEq] at h
      obtain ⟨rfl, -⟩ := h
      simp [ChildParty.surplus, ChildParty.counted, collectsInBetween,
        hhandler, HandlerPc.owed]

/-- A step raises the surplus by the miscounts it makes. -/
theorem partyStep_surplus {choice : PartyChoice}
    (h : partyStep s choice = some (s', es)) :
    s'.surplus = s.surplus + miscounts s choice := by
  cases choice with
  | main forks =>
      obtain ⟨hidle, hmain⟩ := partyStep_main h
      rw [← mainStep_surplus hidle, hmain]
  | handler child => exact handlerStep_surplus h
  | deliver =>
      obtain ⟨hidle, -, rfl, -⟩ := partyStep_deliver h
      simp [ChildParty.surplus, ChildParty.counted, hidle, HandlerPc.owed]
  | exits child =>
      obtain ⟨-, rfl, -⟩ := partyStep_exits h
      simp [ChildParty.surplus, ChildParty.counted]

/-- A run from the start has a surplus of its miscounts. -/
theorem surplus_of_choices {choices : List PartyChoice}
    (h : System.runChoices partyStep .start choices = some (s, es)) :
    s.surplus = System.totalCost partyStep miscounts .start choices := by
  rw [System.add_totalCost ChildParty.surplus
    (fun _ _ _ _ hstep => partyStep_surplus hstep) h]
  exact Int.zero_add _

end Steps

theorem miscounts_eq_zero_iff {s : ChildParty} {choice : PartyChoice} :
    miscounts s choice = 0 ↔
      forkFails s choice = false ∧ collectsInBetween s choice = false := by
  rw [miscounts, Nat.add_eq_zero_iff, Bool.toNat_eq_zero, Bool.toNat_eq_zero]

theorem no_miscounts_iff {choices : List PartyChoice} :
    System.totalCost partyStep miscounts .start choices = 0 ↔
      ForksSucceed choices ∧ IncrementsUndisturbed choices := by
  rw [System.totalCost_eq_zero_iff]
  simp only [miscounts_eq_zero_iff]
  exact System.eachStep_and

theorem forksSucceed_iff {choices : List PartyChoice} :
    ForksSucceed choices ↔
      System.totalCost partyStep
        (fun s choice => (forkFails s choice).toNat) .start choices = 0 := by
  rw [System.totalCost_eq_zero_iff]
  simp only [Bool.toNat_eq_zero]
  exact Iff.rfl

/-- For any number of forks that all succeed, any order of exits and
deliveries: when no handler runs, `running_childs` at the `printf` and at the
head of the loop is the number of children forked and not collected if and only
if the handler has collected no child between a read and a write of
`running_childs++`. -/
theorem counter_exact_iff (choices : List PartyChoice) (s : ChildParty)
    (tr : List PartyEvent)
    (hrun : System.runChoices partyStep .start choices = some (s, tr))
    (hforks : ForksSucceed choices) (hidle : s.handler = .idle)
    (hpc : s.pc = .report ∨ s.pc = .loadRunning) :
    CounterExact s ↔ IncrementsUndisturbed choices := by
  have hsurplus := surplus_of_choices hrun
  rw [surplus_eq hidle hpc] at hsurplus
  calc CounterExact s
      ↔ (System.totalCost partyStep miscounts .start choices : ℤ) = 0 := by
        rw [← hsurplus]
        exact Int.sub_eq_zero.symm
    _ ↔ ForksSucceed choices ∧ IncrementsUndisturbed choices := by
        rw [Int.natCast_eq_zero, no_miscounts_iff]
    _ ↔ IncrementsUndisturbed choices := and_iff_right hforks

/-- The six statements of `main` for a child that is forked. -/
def forkedRound : List PartyChoice := List.replicate 6 (.main true)

/-- A child exits, and the handler collects it. -/
def exitCollected (child : ℕ) : List PartyChoice :=
  [.exits child, .deliver] ++ List.replicate 6 (.handler child)

theorem counter_exact_iff_between_rounds :
    ∃ s tr, System.runChoices partyStep .start
        (forkedRound ++ exitCollected 0) = some (s, tr) ∧
      s.forked = 1 ∧ s.reaped = [0] ∧ CounterExact s ∧
      IncrementsUndisturbed (forkedRound ++ exitCollected 0) := by
  have hforks : ForksSucceed (forkedRound ++ exitCollected 0) :=
    forksSucceed_iff.mpr rfl
  have hiff := counter_exact_iff _ _ _ rfl hforks rfl (.inr rfl)
  exact ⟨_, _, rfl, rfl, rfl, rfl, hiff.mp rfl⟩

/-- The first child exits and is collected after `main` has read the counter of
the second round and before it writes it. -/
theorem counter_not_exact :
    ∃ choices s tr,
      System.runChoices partyStep .start choices = some (s, tr) ∧
      ForksSucceed choices ∧ s.handler = .idle ∧ s.pc = .loadRunning ∧
      s.forked = 2 ∧ s.reaped = [0] ∧ s.runningChilds = 2 ∧
      ¬ CounterExact s := by
  refine ⟨forkedRound ++ [.main true] ++ exitCollected 0 ++
    List.replicate 5 (.main true), _, _, rfl, forksSucceed_iff.mpr rfl, rfl,
    rfl, rfl, rfl, rfl, ?_⟩
  intro hexact
  have htwo : (2 : ℤ) = 2 - 1 := hexact
  contradiction

end Pvos.Signals
