import Pvos.SemaphoresPr.Posix

/-!
# The POSIX crate is filled and drained in rounds

One process at a time is between its wait for the memory semaphore and the
post.  A producer permit stands for an item that may still be stored; a drain
posts the permits one by one while `state` is still the capacity, so the sum of
the permits is stated with the permits posted by the current drain.

The second half relates the program to the machine of `Crate`.
-/

namespace Pvos.SemaphoresPr

open Pvos.Support

/-! ## Permits under one statement -/

section Step

variable {P : Type*} {capacity : ℕ} {text : P → ℕ → Text} {p : P}
  {g g' : PosixCrate} {buf : Memory} {pc : PosixPc} {l' : PosixLocal}
  {es : List (CrateEvent P)}

theorem PosixStep.memory (h : PosixStep capacity text p g buf pc g' l' es) :
    g'.memorySem + l'.pc.holdsMemory = g.memorySem + pc.holdsMemory := by
  cases h <;> (try rw [PosixPc.holdsMemory_drainFrom]) <;>
    simp only [PosixPc.holdsMemory] <;> omega

/-- The permit for a full crate comes into being at the comparison and is used
up when the crate is empty. -/
theorem PosixStep.full (h : PosixStep capacity text p g buf pc g' l' es) :
    g'.consumerSem + l'.pc.holdsFull + (if pc = .reset then 1 else 0) =
      g.consumerSem + pc.holdsFull +
        (if pc = .compare ∧ g.state = capacity then 1 else 0) := by
  cases h <;> (try rw [PosixPc.holdsFull_drainFrom]) <;>
    simp [PosixPc.holdsFull, *]
  all_goals omega

/-- Permits are taken before and posted behind the item they stand for. -/
theorem PosixStep.permits (h : PosixStep capacity text p g buf pc g' l' es)
    (hok : pc.Ok capacity) (hreset : pc = .reset → g.state = capacity) :
    g'.producerSem + l'.pc.holdsPermit + g'.state + pc.posted capacity =
      g.producerSem + pc.holdsPermit + g.state + l'.pc.posted capacity := by
  cases h with
  | reset =>
      have := hreset rfl
      simp only [PosixPc.holdsPermit, PosixPc.posted]
      omega
  | postProducer i =>
      have hi : i < capacity := hok
      rw [PosixPc.posted_drainFrom hi, PosixPc.holdsPermit_drainFrom]
      simp only [PosixPc.holdsPermit, PosixPc.posted]
      omega
  | waitMemoryToDrain =>
      rw [PosixPc.posted_drainFrom (Nat.zero_le _),
        PosixPc.holdsPermit_drainFrom]
      rfl
  | _ => simp only [PosixPc.holdsPermit, PosixPc.posted] <;> omega

theorem PosixStep.ok (h : PosixStep capacity text p g buf pc g' l' es)
    (hok : pc.Ok capacity) : l'.pc.Ok capacity := by
  cases h with
  | read i => exact hok
  | waitMemoryToDrain => exact PosixPc.ok_drainFrom _ _
  | postProducer i => exact PosixPc.ok_drainFrom _ _
  | _ => trivial

theorem PosixStep.ofProducer
    (h : PosixStep capacity text p g buf pc g' l' es) :
    l'.pc.ofProducer = pc.ofProducer := by
  cases h <;> (try rw [PosixPc.ofProducer_drainFrom]) <;> rfl

theorem PosixStep.compares (h : PosixStep capacity text p g buf pc g' l' es) :
    l'.pc.compares = if pc = .increment then 1 else 0 := by
  cases h <;> (try rw [PosixPc.compares_drainFrom]) <;> rfl

theorem PosixStep.state (h : PosixStep capacity text p g buf pc g' l' es) :
    g'.state = if pc = .increment then g.state + 1
      else if pc = .reset then 0 else g.state := by
  cases h <;> rfl

theorem PosixStep.state_of_drained
    (h : PosixStep capacity text p g buf pc g' l' es)
    (hpc : l'.pc = .postMemoryDrained) : g'.state = 0 := by
  cases h <;> simp [PosixPc.drainFrom_ne] at hpc ⊢

/-- Outside the crate nothing is written. -/
theorem PosixStep.state_of_outside
    (h : PosixStep capacity text p g buf pc g' l' es)
    (hpc : pc.holdsMemory = 0) :
    g'.state = g.state ∧ g'.slots = g.slots ∧ es = [] := by
  cases h <;> simp [PosixPc.holdsMemory] at hpc ⊢

end Step

/-! ## The invariant -/

section Invariant

variable {P : Type*} [Fintype P]

/-- How the semaphores, `state` and the processes in flight belong together. -/
structure PosixInv (capacity : ℕ) (isProducer : P → Bool)
    (s : Config P PosixCrate PosixLocal) : Prop where
  memory : s.shared.memorySem + total (fun l => l.pc.holdsMemory) s.loc = 1
  permits : s.shared.producerSem + total (fun l => l.pc.holdsPermit) s.loc +
    s.shared.state = capacity + total (fun l => l.pc.posted capacity) s.loc
  room : s.shared.state ≠ capacity →
    s.shared.consumerSem + total (fun l => l.pc.holdsFull) s.loc = 0
  full : s.shared.state = capacity →
    s.shared.consumerSem + total (fun l => l.pc.holdsFull) s.loc +
      total (fun l => l.pc.compares) s.loc = 1
  emptied : ∀ p, (s.loc p).pc = .postMemoryDrained → s.shared.state = 0
  ok : ∀ p, (s.loc p).pc.Ok capacity
  role : ∀ p, (s.loc p).pc.ofProducer = isProducer p

variable {capacity : ℕ} {isProducer : P → Bool}
  {s : Config P PosixCrate PosixLocal}

theorem posixInv_init (hcap : 1 ≤ capacity)
    (h : PosixInit capacity isProducer s) : PosixInv capacity isProducer s := by
  obtain ⟨hshared, hpc⟩ := h
  have hzero : ∀ w : PosixPc → ℕ, (∀ b, w (.start b) = 0) →
      total (fun l : PosixLocal => w l.pc) s.loc = 0 := by
    intro w hw
    apply total_eq_zero
    intro p
    rw [hpc p, hw]
  constructor
  · rw [hshared, hzero _ (by decide)]
  · rw [hshared, hzero _ (by decide), hzero _ (by intro b; cases b <;> rfl)]
    rfl
  · intro _
    rw [hshared, hzero _ (by decide)]
  · intro hfull
    rw [hshared] at hfull
    simp only at hfull
    omega
  · intro p hp
    rw [hshared]
  · intro p
    rw [hpc p]
    cases isProducer p <;> trivial
  · intro p
    rw [hpc p]
    cases isProducer p <;> rfl

/-- Only one process is between its memory wait and the post. -/
theorem PosixInv.alone (h : PosixInv capacity isProducer s) {p q : P}
    (hp : 0 < (s.loc p).pc.holdsMemory) (hq : 0 < (s.loc q).pc.holdsMemory) :
    p = q :=
  eq_of_total_le_one (w := fun l : PosixLocal => l.pc.holdsMemory)
    (by have := h.memory; omega) hp hq

/-- A weight that only the process in the crate can carry. -/
theorem PosixInv.total_eq (h : PosixInv capacity isProducer s) {p : P}
    (hp : 0 < (s.loc p).pc.holdsMemory) (v : PosixPc → ℕ)
    (hv : ∀ pc : PosixPc, pc.holdsMemory = 0 → v pc = 0) :
    total (fun l : PosixLocal => v l.pc) s.loc = v (s.loc p).pc :=
  total_eq_of_exclusive (w := fun l : PosixLocal => l.pc.holdsMemory)
    (by have := h.memory; omega) (fun l => hv l.pc) hp

/-- Whoever holds the permit of a full crate finds it full. -/
theorem PosixInv.state_eq (h : PosixInv capacity isProducer s) {p : P}
    (hp : 0 < (s.loc p).pc.holdsFull) : s.shared.state = capacity := by
  by_contra hne
  have hroom := h.room hne
  have hle := le_total (fun l : PosixLocal => l.pc.holdsFull) s.loc p
  omega

theorem PosixPc.posted_eq_zero (capacity : ℕ) (pc : PosixPc)
    (h : pc.holdsMemory = 0) : pc.posted capacity = 0 := by
  cases pc <;> simp [PosixPc.holdsMemory, PosixPc.posted] at h ⊢

theorem PosixPc.compares_eq_zero (pc : PosixPc) (h : pc.holdsMemory = 0) :
    pc.compares = 0 := by
  cases pc <;> simp [PosixPc.holdsMemory, PosixPc.compares] at h ⊢

/-- A producer in the crate that has not stored its item finds room. -/
theorem PosixInv.state_lt (h : PosixInv capacity isProducer s) {p : P}
    (hp : (s.loc p).pc = .produce ∨ (s.loc p).pc = .increment) :
    s.shared.state < capacity := by
  have hmemory : 0 < (s.loc p).pc.holdsMemory := by
    rcases hp with hp | hp <;> rw [hp] <;> decide
  have hposted := h.total_eq hmemory (fun pc => pc.posted capacity)
    (PosixPc.posted_eq_zero capacity)
  have hzero : (s.loc p).pc.posted capacity = 0 := by
    rcases hp with hp | hp <;> rw [hp] <;> rfl
  have hone : (s.loc p).pc.holdsPermit = 1 := by
    rcases hp with hp | hp <;> rw [hp] <;> rfl
  have hle := le_total (fun l : PosixLocal => l.pc.holdsPermit) s.loc p
  have hpermits := h.permits
  omega

/-- The crate never holds more items than slots. -/
theorem PosixInv.state_le (h : PosixInv capacity isProducer s) :
    s.shared.state ≤ capacity := by
  by_cases hposted : ∀ p, (s.loc p).pc.posted capacity = 0
  · have hpermits := h.permits
    rw [total_eq_zero (w := fun l : PosixLocal => l.pc.posted capacity)
      hposted] at hpermits
    omega
  · obtain ⟨p, hp⟩ := not_forall.mp hposted
    have hfull : 0 < (s.loc p).pc.holdsFull := by
      cases hpc : (s.loc p).pc <;>
        simp [hpc, PosixPc.posted, PosixPc.holdsFull] at hp ⊢
    exact (h.state_eq hfull).le

theorem PosixInv.others_outside (h : PosixInv capacity isProducer s) {p q : P}
    (hp : (s.loc p).pc.holdsMemory = 1) (hqp : q ≠ p) :
    (s.loc q).pc.holdsMemory = 0 := by
  by_contra hq
  exact hqp (h.alone (Nat.pos_of_ne_zero hq) (by omega))

theorem PosixInv.all_outside (h : PosixInv capacity isProducer s)
    (hfree : 0 < s.shared.memorySem) (q : P) :
    (s.loc q).pc.holdsMemory = 0 := by
  have hmemory := h.memory
  have hle := le_total (fun l : PosixLocal => l.pc.holdsMemory) s.loc q
  omega

variable [DecidableEq P]

/-- The permit of a full crate under one statement. -/
theorem PosixInv.full_step (h : PosixInv capacity isProducer s)
    {text : P → ℕ → Text} {p : P} {g' : PosixCrate} {l' : PosixLocal}
    {es : List (CrateEvent P)} (hcap : 1 ≤ capacity)
    (hstep : PosixStep capacity text p s.shared (s.loc p).buf (s.loc p).pc
      g' l' es) :
    (g'.state ≠ capacity → g'.consumerSem + total (fun l => l.pc.holdsFull)
        (Function.update s.loc p l') = 0) ∧
      (g'.state = capacity → g'.consumerSem + total (fun l => l.pc.holdsFull)
          (Function.update s.loc p l') +
        total (fun l => l.pc.compares) (Function.update s.loc p l') = 1) := by
  have hfull := add_total_update (fun l : PosixLocal => l.pc.holdsFull) p
    hstep.full
  have hcompares :=
    total_update (fun l : PosixLocal => l.pc.compares) s.loc p l'
  have hstate := hstep.state
  rw [hstep.compares] at hcompares
  have hroom₀ := h.room
  have hfull₀ := h.full
  by_cases hreset : (s.loc p).pc = .reset
  · have hholds : 0 < (s.loc p).pc.holdsFull := by
      rw [hreset]
      decide
    have hle := le_total (fun l : PosixLocal => l.pc.holdsFull) s.loc p
    have hsome := hfull₀ (h.state_eq hholds)
    simp [hreset] at hfull hstate
    exact ⟨fun _ => by omega, fun _ => by omega⟩
  by_cases hincrement : (s.loc p).pc = .increment
  · have hlt := h.state_lt (Or.inr hincrement)
    have hnone := hroom₀ hlt.ne
    have hself : (s.loc p).pc.compares = 0 := by
      rw [hincrement]
      rfl
    have hzero := h.total_eq (p := p) (by rw [hincrement]; decide)
      PosixPc.compares PosixPc.compares_eq_zero
    rw [hself] at hzero hcompares
    simp [hincrement] at hfull hstate hcompares
    exact ⟨fun _ => by omega, fun _ => by omega⟩
  by_cases hcompare : (s.loc p).pc = .compare
  · have hself : (s.loc p).pc.compares = 1 := by
      rw [hcompare]
      rfl
    have hone := h.total_eq (p := p) (by rw [hcompare]; decide)
      PosixPc.compares PosixPc.compares_eq_zero
    rw [hself] at hone hcompares
    simp [hcompare] at hfull hstate hcompares
    rw [hstate]
    by_cases hcrate : s.shared.state = capacity
    · have := hfull₀ hcrate
      simp only [hcrate, if_true] at hfull
      exact ⟨fun hne => absurd hcrate hne, fun _ => by omega⟩
    · have := hroom₀ hcrate
      simp only [hcrate, if_false] at hfull
      exact ⟨fun _ => by omega, fun heq => absurd heq hcrate⟩
  · have hself : (s.loc p).pc.compares = 0 := by
      cases hpc : (s.loc p).pc <;> simp [hpc, PosixPc.compares] at hcompare ⊢
    simp [hreset, hincrement, hcompare, hself] at hfull hstate hcompares
    rw [hstate, hfull, hcompares]
    exact ⟨hroom₀, hfull₀⟩

theorem PosixInv.move (hcap : 1 ≤ capacity)
    (h : PosixInv capacity isProducer s) {text : P → ℕ → Text} {p : P}
    {g' : PosixCrate} {l' : PosixLocal} {es : List (CrateEvent P)}
    (hstep : PosixStep capacity text p s.shared (s.loc p).buf (s.loc p).pc
      g' l' es) :
    PosixInv capacity isProducer (Program.move s p g' l') := by
  have hreset : (s.loc p).pc = .reset → s.shared.state = capacity := by
    intro hpc
    apply h.state_eq (p := p)
    rw [hpc]
    decide
  obtain ⟨hroom, hfull⟩ := h.full_step hcap hstep
  constructor
  · have := add_total_update (fun l : PosixLocal => l.pc.holdsMemory) p
      (a := 0) (b := 0) hstep.memory
    exact this.trans h.memory
  · have hpermits := hstep.permits (h.ok p) hreset
    have := total_update (fun l : PosixLocal => l.pc.holdsPermit) s.loc p l'
    have := total_update (fun l : PosixLocal => l.pc.posted capacity) s.loc p l'
    have := h.permits
    simp only [Program.move_shared, Program.move_loc]
    omega
  · exact hroom
  · exact hfull
  · refine Program.forall_move
      (Q := fun _ (l : PosixLocal) => l.pc = .postMemoryDrained → g'.state = 0)
      hstep.state_of_drained fun q hqp hq => ?_
    have hsame : g'.state = s.shared.state := by
      refine (hstep.state_of_outside ?_).1
      by_contra hp
      exact hqp (h.alone (by rw [hq]; decide) (Nat.pos_of_ne_zero hp))
    rw [hsame]
    exact h.emptied q hq
  · exact Program.forall_move (Q := fun _ (l : PosixLocal) => l.pc.Ok capacity)
      (hstep.ok (h.ok p)) fun q _ => h.ok q
  · exact Program.forall_move
      (Q := fun q (l : PosixLocal) => l.pc.ofProducer = isProducer q)
      (hstep.ofProducer.trans (h.role p)) fun q _ => h.role q

theorem posixInv_step (hcap : 1 ≤ capacity) {text : P → ℕ → Text}
    {s' : Config P PosixCrate PosixLocal} {es : List (CrateEvent P)}
    (h : PosixInv capacity isProducer s)
    (hstep : (posixSystem capacity text isProducer).step s es s') :
    PosixInv capacity isProducer s' := by
  obtain ⟨p, interrupted, rfl, hexec⟩ := hstep
  obtain ⟨g', l', hproc, rfl⟩ := Program.exec_eq_some hexec
  exact h.move hcap (posixStep_cases hproc)

theorem posixInv_run (hcap : 1 ≤ capacity) {text : P → ℕ → Text}
    {s' : Config P PosixCrate PosixLocal} {tr : List (CrateEvent P)}
    (h : PosixInv capacity isProducer s)
    (hrun : (posixSystem capacity text isProducer).Run s tr s') :
    PosixInv capacity isProducer s' := by
  induction hrun with
  | refl => exact h
  | tail _ hstep ih => exact posixInv_step hcap ih hstep

theorem posixInv_reachable (hcap : 1 ≤ capacity) {text : P → ℕ → Text}
    (h : (posixSystem capacity text isProducer).Reachable s) :
    PosixInv capacity isProducer s :=
  h.invariant (fun _ => posixInv_init hcap)
    (fun _ _ _ hinv => posixInv_step hcap hinv)

end Invariant

/-! ## The program works like the crate machine -/

/-- The phase of the machine while process `p` is in the crate. -/
def phaseAt {P : Type*} (capacity state : ℕ) (p : P) :
    PosixPc → Option (Phase P)
  | .produce => some (.filling state)
  | .increment => some (.filling (state + 1))
  | .compare | .postConsumer | .postMemory => some (.filling state)
  | .read i => some (.draining p i)
  | .postProducer i => some (.draining p (i + 1))
  | .reset => some (.draining p capacity)
  | .postMemoryDrained => some (.filling state)
  | _ => none

/-- A state of the program and the state of the machine it stands for. -/
structure InPhase {P : Type*} (capacity : ℕ)
    (s : Config P PosixCrate PosixLocal) (a : CrateState P) : Prop where
  slots : a.slots = s.shared.slots
  inside : ∀ p phase, phaseAt capacity s.shared.state p (s.loc p).pc =
    some phase → a.phase = phase
  outside : (∀ p, (s.loc p).pc.holdsMemory = 0) →
    a.phase = .filling s.shared.state

section Phases

variable {P : Type*} {capacity state : ℕ} {p : P} {pc : PosixPc}

theorem phaseAt_eq_none (h : pc.holdsMemory = 0) :
    phaseAt capacity state p pc = none := by
  cases pc <;> simp [PosixPc.holdsMemory] at h <;> rfl

theorem phaseAt_drainFrom {i : ℕ} (hi : i ≤ capacity) :
    phaseAt capacity state p (.drainFrom capacity i) =
      some (.draining p i) := by
  unfold PosixPc.drainFrom
  split
  next => rfl
  next hlast =>
    obtain rfl : i = capacity := by omega
    rfl

variable {s : Config P PosixCrate PosixLocal} {a a' : CrateState P}

/-- The state of the machine while `p` is in the crate. -/
theorem InPhase.eq_of_inside (h : InPhase capacity s a) {phase : Phase P}
    (hphase : phaseAt capacity s.shared.state p (s.loc p).pc = some phase) :
    a = ⟨phase, s.shared.slots⟩ := by
  rw [← h.inside p phase hphase, ← h.slots]

/-- The state of the machine while nobody is in the crate. -/
theorem InPhase.eq_of_outside (h : InPhase capacity s a)
    (hall : ∀ q, (s.loc q).pc.holdsMemory = 0) :
    a = ⟨.filling s.shared.state, s.shared.slots⟩ := by
  rw [← h.outside hall, ← h.slots]

variable [DecidableEq P] {g' : PosixCrate} {l' : PosixLocal}

/-- A step of a process that waits outside the crate and goes on waiting. -/
theorem InPhase.move_outside (h : InPhase capacity s a)
    (hp : (s.loc p).pc.holdsMemory = 0) (hp' : l'.pc.holdsMemory = 0)
    (hstate : g'.state = s.shared.state) (hslots : g'.slots = s.shared.slots) :
    InPhase capacity (Program.move s p g' l') a := by
  refine ⟨h.slots.trans hslots.symm, ?_, ?_⟩
  · rw [Program.move_shared, hstate]
    refine Program.forall_move (Q := fun q (l : PosixLocal) => ∀ phase,
      phaseAt capacity s.shared.state q l.pc = some phase → a.phase = phase)
      (fun phase hphase => ?_) fun q _ => h.inside q
    rw [phaseAt_eq_none hp'] at hphase
    simp at hphase
  · intro hall
    rw [Program.move_shared, hstate]
    apply h.outside
    intro q
    by_cases hqp : q = p
    · rwa [hqp]
    · simpa [Function.update_of_ne hqp] using hall q

/-- A step of the only process in the crate. -/
theorem InPhase.move_inside
    (hothers : ∀ q, q ≠ p → (s.loc q).pc.holdsMemory = 0)
    (hslots : a'.slots = g'.slots)
    (hphase : phaseAt capacity g'.state p l'.pc = some a'.phase ∨
      (l'.pc.holdsMemory = 0 ∧ a'.phase = .filling g'.state)) :
    InPhase capacity (Program.move s p g' l') a' := by
  refine ⟨hslots, ?_, ?_⟩
  · refine Program.forall_move (Q := fun q (l : PosixLocal) => ∀ phase,
      phaseAt capacity g'.state q l.pc = some phase → a'.phase = phase)
      (fun phase hp => ?_) fun q hqp phase hq => ?_
    · rcases hphase with hsome | ⟨hout, -⟩
      · exact Option.some.inj (hsome.symm.trans hp)
      · rw [phaseAt_eq_none hout] at hp
        simp at hp
    · rw [phaseAt_eq_none (hothers q hqp)] at hq
      simp at hq
  · intro hall
    have hp := hall p
    rw [Program.move_loc, Function.update_self] at hp
    rcases hphase with hsome | ⟨-, hfilling⟩
    · rw [phaseAt_eq_none hp] at hsome
      simp at hsome
    · exact hfilling

end Phases

section Simulation

variable {P : Type*} [Fintype P] [DecidableEq P] {capacity : ℕ}
  {isProducer : P → Bool} {text : P → ℕ → Text}
  {s : Config P PosixCrate PosixLocal} {a : CrateState P}

/-- Every statement is a step of the machine or invisible to it. -/
theorem InPhase.step (hinv : PosixInv capacity isProducer s)
    (h : InPhase capacity s a) {p : P} {g' : PosixCrate} {l' : PosixLocal}
    {es : List (CrateEvent P)}
    (hstep : PosixStep capacity text p s.shared (s.loc p).buf (s.loc p).pc
      g' l' es) :
    ∃ a', (crateSystem capacity text isProducer).Run a es a' ∧
      InPhase capacity (Program.move s p g' l') a' := by
  have hinside : ∀ phase, phaseAt capacity s.shared.state p (s.loc p).pc =
      some phase → a = ⟨phase, s.shared.slots⟩ := fun _ => h.eq_of_inside
  have hok := hinv.ok p
  have hrole := hinv.role p
  have hothers := fun q => hinv.others_outside (p := p) (q := q)
  have hlt := hinv.state_lt (p := p)
  have hfull := hinv.state_eq (p := p)
  generalize hpc : (s.loc p).pc = pc at hstep
  rw [hpc] at hinside hok hrole hothers hlt hfull
  cases hstep with
  | waitProducer | waitConsumer =>
      exact ⟨a, .refl, h.move_outside (by rw [hpc]; rfl) rfl rfl rfl⟩
  | waitMemory hfree =>
      have hall := hinv.all_outside hfree
      obtain rfl := h.eq_of_outside hall
      exact ⟨_, .refl, .move_inside (fun q _ => hall q) rfl (Or.inl rfl)⟩
  | waitMemoryToDrain hfree =>
      have hall := hinv.all_outside hfree
      have ha := h.eq_of_outside hall
      rw [hfull Nat.one_pos] at ha
      subst ha
      exact ⟨_, .single (.begin _ p hrole.symm), .move_inside
        (fun q _ => hall q) rfl (Or.inl (phaseAt_drainFrom (Nat.zero_le _)))⟩
  | produce =>
      obtain rfl := hinside _ rfl
      exact ⟨_, .single (.produce _ p _ (hlt (Or.inl rfl)) hrole.symm),
        .move_inside (fun q => hothers q rfl) rfl (Or.inl rfl)⟩
  | read i =>
      obtain rfl := hinside _ rfl
      exact ⟨_, .single (.read _ p i hok),
        .move_inside (fun q => hothers q rfl) rfl (Or.inl rfl)⟩
  | reset =>
      obtain rfl := hinside _ rfl
      exact ⟨_, .single (.finish _ p),
        .move_inside (fun q => hothers q rfl) rfl (Or.inl rfl)⟩
  | postProducer i =>
      obtain rfl := hinside _ rfl
      exact ⟨_, .refl, .move_inside (fun q => hothers q rfl) rfl
        (Or.inl (phaseAt_drainFrom hok))⟩
  | postMemory | postMemoryDrained =>
      obtain rfl := hinside _ rfl
      exact ⟨_, .refl, .move_inside (fun q => hothers q rfl) rfl
        (Or.inr ⟨rfl, rfl⟩)⟩
  | _ =>
      obtain rfl := hinside _ rfl
      exact ⟨_, .refl, .move_inside (fun q => hothers q rfl) rfl (Or.inl rfl)⟩

theorem posix_simulation (hcap : 1 ≤ capacity) :
    System.Simulation (posixSystem capacity text isProducer)
      (crateSystem capacity text isProducer)
      (fun s a => PosixInv capacity isProducer s ∧ InPhase capacity s a) := by
  constructor
  · intro s hinit
    refine ⟨_, rfl, posixInv_init hcap hinit, ?_⟩
    obtain ⟨hshared, hpc⟩ := hinit
    refine ⟨by rw [hshared], ?_, fun _ => by rw [hshared]⟩
    intro p phase hphase
    rw [hpc p, phaseAt_eq_none] at hphase
    · simp at hphase
    · cases isProducer p <;> rfl
  · rintro s a es s' ⟨hinv, hphase⟩ ⟨p, interrupted, rfl, hexec⟩
    obtain ⟨g', l', hproc, rfl⟩ := Program.exec_eq_some hexec
    have hstep := posixStep_cases hproc
    obtain ⟨a', hrun, hphase'⟩ := hphase.step hinv hstep
    exact ⟨a', hrun, hinv.move hcap hstep, hphase'⟩

end Simulation

/-! ## The crate protocol -/

/-- What every run of the programs with POSIX semaphores keeps. -/
structure CrateSafe {P : Type*} [Fintype P] (capacity : ℕ)
    (tr : List (CrateEvent P)) (s : Config P PosixCrate PosixLocal) :
    Prop where
  one_inside : ∀ p q, 0 < (s.loc p).pc.holdsMemory →
    0 < (s.loc q).pc.holdsMemory → p = q
  balance : (∀ p, (s.loc p).pc.drains = 0) →
    s.shared.producerSem + total (fun l => l.pc.holdsPermit) s.loc +
      s.shared.state = capacity
  state_le : s.shared.state ≤ capacity
  drain_full : ∀ p, 0 < (s.loc p).pc.drains → s.shared.state = capacity
  consumers : s.shared.consumerSem +
    total (fun l => l.pc.holdsConsumer) s.loc ≤ 1
  rounds : InRounds capacity tr

section Protocol

variable {P : Type*} [Fintype P] {capacity : ℕ} {isProducer : P → Bool}
  {s : Config P PosixCrate PosixLocal}

theorem PosixInv.balance (h : PosixInv capacity isProducer s)
    (hdrains : ∀ p, (s.loc p).pc.drains = 0) :
    s.shared.producerSem + total (fun l => l.pc.holdsPermit) s.loc +
      s.shared.state = capacity := by
  have hposted : total (fun l => l.pc.posted capacity) s.loc = 0 := by
    apply total_eq_zero
    intro p
    have hp := hdrains p
    cases hpc : (s.loc p).pc <;>
      simp [hpc, PosixPc.drains, PosixPc.posted] at hp ⊢
  rw [h.permits, hposted]
  rfl

theorem PosixInv.drain_full (h : PosixInv capacity isProducer s) {p : P}
    (hp : 0 < (s.loc p).pc.drains) : s.shared.state = capacity := by
  apply h.state_eq (p := p)
  cases hpc : (s.loc p).pc <;>
    simp [hpc, PosixPc.drains, PosixPc.holdsFull] at hp ⊢

/-- There are never more producer permits than slots. -/
theorem PosixInv.producerSem_le (h : PosixInv capacity isProducer s) :
    s.shared.producerSem ≤ capacity := by
  have hpermits := h.permits
  by_cases hdrains : ∀ p, (s.loc p).pc.drains = 0
  · have := h.balance hdrains
    omega
  · obtain ⟨p, hp⟩ := not_forall.mp hdrains
    have hfull := h.drain_full (p := p) (Nat.pos_of_ne_zero hp)
    have hposted := h.total_eq (p := p)
      (by cases hpc : (s.loc p).pc <;>
        simp [hpc, PosixPc.drains, PosixPc.holdsMemory] at hp ⊢)
      (fun pc => pc.posted capacity) (PosixPc.posted_eq_zero capacity)
    have hle : (s.loc p).pc.posted capacity ≤ capacity := by
      have hok := h.ok p
      cases hpc : (s.loc p).pc <;>
        simp only [hpc, PosixPc.Ok, PosixPc.posted] at hok ⊢ <;> omega
    omega

/-- There is one permit of the consumer semaphore, if any. -/
theorem PosixInv.consumers_le (hcap : 1 ≤ capacity)
    (h : PosixInv capacity isProducer s) :
    s.shared.consumerSem + total (fun l => l.pc.holdsConsumer) s.loc ≤ 1 := by
  by_cases hdrained : ∃ p, (s.loc p).pc = .postMemoryDrained
  · obtain ⟨p, hp⟩ := hdrained
    have hempty := h.emptied p hp
    have hroom := h.room (by omega)
    have honly : total (fun l => l.pc.holdsConsumer) s.loc =
        (s.loc p).pc.holdsConsumer := by
      apply total_eq_of_unique (w := fun l : PosixLocal => l.pc.holdsConsumer)
      intro q hqp
      have hout := h.others_outside (p := p) (by rw [hp]; rfl) hqp
      have hle := le_total (fun l : PosixLocal => l.pc.holdsFull) s.loc q
      have hnone : (s.loc q).pc.holdsFull = 0 := by omega
      cases hpc : (s.loc q).pc <;>
        simp [hpc, PosixPc.holdsMemory, PosixPc.holdsFull,
          PosixPc.holdsConsumer] at hout hnone ⊢
    rw [honly, hp]
    simp only [PosixPc.holdsConsumer]
    omega
  · have hle : total (fun l => l.pc.holdsConsumer) s.loc ≤
        total (fun l => l.pc.holdsFull) s.loc := by
      apply total_le_total
      intro p
      have hp : (s.loc p).pc ≠ .postMemoryDrained :=
        fun heq => hdrained ⟨p, heq⟩
      cases hpc : (s.loc p).pc <;>
        simp [hpc, PosixPc.holdsFull, PosixPc.holdsConsumer] at hp ⊢
    by_cases hfull : s.shared.state = capacity
    · have := h.full hfull
      omega
    · have := h.room hfull
      omega

end Protocol

/-- For any number of producers and consumers and every interleaving of their
statements: one process is in the crate, permits and items add up to the
capacity outside a drain, only a full crate is drained, by one consumer, and
the history consists of rounds in which every slot is filled once, then read
once. -/
theorem posix_crate_safe {P : Type*} [Fintype P] [DecidableEq P]
    {capacity : ℕ} (hcap : 1 ≤ capacity) (beyond : ℕ → Text) (pid : P → ℕ)
    (isProducer : P → Bool) {tr : List (CrateEvent P)}
    {s : Config P PosixCrate PosixLocal}
    (h : (posixSystem capacity (producerText beyond pid) isProducer).Exec
      tr s) :
    CrateSafe capacity tr s := by
  have hinv := posixInv_reachable hcap h.reachable
  obtain ⟨a, hexec, -⟩ := (posix_simulation hcap).exec h
  exact ⟨fun p q => hinv.alone, hinv.balance, hinv.state_le,
    fun p => hinv.drain_full, hinv.consumers_le hcap, crate_inRounds hexec⟩

/-- A producer and a consumer of a crate of two items. -/
def freshCrate : Config Bool PosixCrate PosixLocal where
  shared := ⟨0, 1, 2, 0, fun _ _ => 0⟩
  loc p := ⟨.start p, fun _ => 0⟩

/-- A round: the producer stores two items, the consumer reads them. -/
theorem posix_crate_safe_one_round :
    ∃ tr s, (posixSystem 2 (producerText (fun _ => []) fun _ => 7) id).Exec
        tr s ∧
      tr.length = 4 ∧ CrateSafe 2 tr s := by
  have hinit : PosixInit 2 id freshCrate := ⟨rfl, fun _ => rfl⟩
  have hexec : (posixSystem 2 (producerText (fun _ => []) fun _ => 7) id).Exec
      _ _ :=
    ⟨freshCrate, hinit, Program.run_of_runScheduleWhen
      (List.replicate 13 (true, false) ++
        List.replicate 8 (false, false)) rfl⟩
  exact ⟨_, _, hexec, rfl, posix_crate_safe (by decide) _ _ _ hexec⟩

end Pvos.SemaphoresPr
