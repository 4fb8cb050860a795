import Pvos.SemaphoresPr.Interrupts
import Pvos.Support.Steps

/-!
# The crates never stop

With a producer and a consumer some process can always go on.  No statement can
be repeated without an item being read: every place in the crate pays for the
statements that fill it, and a read item for those that empty it.  So a number
of statements that depends on the processes and the capacity alone is enough
for the next item, whatever the scheduler does.

A capacity has to fit into its semaphore.  The slots are taken to be memory of
their own; the page that the programs map holds the first 26 of them, and
`items` has texts for the first nine.
-/

namespace Pvos.SemaphoresPr

open Pvos.Support

/-- Whether an item is read. -/
def CrateEvent.isRead {P : Type*} : CrateEvent P → Bool
  | .read _ _ _ => true
  | .produced _ _ _ => false

/-- The items read in a history. -/
def readItems {P : Type*} (tr : List (CrateEvent P)) : ℕ :=
  tr.countP CrateEvent.isRead

/-! ## POSIX semaphores -/

/-- The statements of a process up to the next item it reads, when the crate
pays seven for every item stored. -/
def PosixPc.distance (capacity : ℕ) : PosixPc → ℕ
  | .compare => 6
  | .postConsumer => 5
  | .postMemory => 4
  | .waitProducer => 3
  | .waitMemory => 2
  | .produce => 1
  | .increment => 0
  | .postMemoryDrained => 3
  | .waitConsumer => 2
  | .waitMemoryToDrain => 1
  | .read i => 7 * i
  | .postProducer i => 7 * (i + 1) + 5
  | .reset => 7 * capacity + 4

theorem PosixPc.distance_le {capacity : ℕ} {pc : PosixPc}
    (hok : pc.Ok capacity) : pc.distance capacity ≤ 7 * capacity + 6 := by
  cases pc <;> simp only [distance, Ok] at hok ⊢ <;> omega

theorem PosixPc.distance_drainFrom {capacity i : ℕ} (hi : i ≤ capacity) :
    (drainFrom capacity i).distance capacity ≤ 7 * i + 4 ∧
      (i < capacity → (drainFrom capacity i).distance capacity = 7 * i) := by
  unfold drainFrom
  split
  next hlt => exact ⟨Nat.le_add_right _ _, fun _ => rfl⟩
  next hlast =>
    obtain rfl : i = capacity := by omega
    exact ⟨Nat.le_refl _, fun hlt => absurd hlt hlast⟩

section Posix

variable {P : Type*} {capacity : ℕ} {text : P → ℕ → Text} {p : P}
  {g g' : PosixCrate} {buf : Memory} {pc : PosixPc} {l' : PosixLocal}
  {es : List (CrateEvent P)}

/-- One statement, for the crate and one process. -/
theorem PosixStep.distance (h : PosixStep capacity text p g buf pc g' l' es)
    (hcap : 1 ≤ capacity) (hok : pc.Ok capacity)
    (hroom : pc = .increment → g.state < capacity)
    (hreset : pc = .reset → g.state = capacity) :
    7 * (capacity - g'.state) + l'.pc.distance capacity + 1 ≤
      7 * (capacity - g.state) + pc.distance capacity +
        13 * readItems es := by
  cases h with
  | increment =>
      have := hroom rfl
      simp only [PosixPc.distance]
      omega
  | waitMemoryToDrain =>
      rw [(PosixPc.distance_drainFrom (Nat.zero_le capacity)).2 hcap]
      simp only [PosixPc.distance]
      omega
  | read i =>
      have hread : readItems [CrateEvent.read p i (slotBytes g.slots i)] = 1 :=
        rfl
      rw [hread]
      simp only [PosixPc.distance]
      omega
  | postProducer i =>
      have hi : i < capacity := hok
      have hdrain : (PosixPc.drainFrom capacity (i + 1)).distance capacity ≤
          7 * (i + 1) + 4 := (PosixPc.distance_drainFrom hi).1
      have hpost : (PosixPc.postProducer i).distance capacity =
          7 * (i + 1) + 5 := rfl
      dsimp only
      omega
  | reset =>
      rw [hreset rfl]
      simp only [PosixPc.distance]
      omega
  | _ =>
      simp only [PosixPc.distance]
      omega

end Posix

section PosixRuns

variable {P : Type*} [Fintype P] [DecidableEq P] {capacity : ℕ}
  {text : P → ℕ → Text} {isProducer : P → Bool}
  {s s' : Config P PosixCrate PosixLocal} {es : List (CrateEvent P)}

/-- The statements up to the next item read. -/
def toNextItem (capacity : ℕ) (s : Config P PosixCrate PosixLocal) : ℕ :=
  7 * (capacity - s.shared.state) +
    total (fun l => l.pc.distance capacity) s.loc

theorem posix_toNextItem_lt (hcap : 1 ≤ capacity)
    (hinv : PosixInv capacity isProducer s)
    (hstep : (posixSystem capacity text isProducer).step s es s') :
    toNextItem capacity s' + 1 ≤ toNextItem capacity s + 13 * readItems es := by
  obtain ⟨p, interrupted, rfl, hexec⟩ := hstep
  obtain ⟨g', l', hproc, rfl⟩ := Program.exec_eq_some hexec
  have hstep : PosixStep capacity text p s.shared (s.loc p).buf (s.loc p).pc
      g' l' es := posixStep_cases hproc
  have hlocal := hstep.distance hcap (hinv.ok p)
    (fun hpc => hinv.state_lt (Or.inr hpc))
    (fun hpc => hinv.state_eq (p := p) (by rw [hpc]; exact Nat.one_pos))
  have htotal := total_update (fun l : PosixLocal => l.pc.distance capacity)
    s.loc p l'
  simp only [toNextItem, Program.move_shared, Program.move_loc]
  omega

omit [Fintype P] [DecidableEq P] in
theorem readItems_append (tr es : List (CrateEvent P)) :
    readItems (tr ++ es) = readItems tr + readItems es :=
  List.countP_append

/-- The number of statements between two items. -/
theorem posix_steps_le (hcap : 1 ≤ capacity) {n : ℕ}
    {tr : List (CrateEvent P)} (hinv : PosixInv capacity isProducer s)
    (h : (posixSystem capacity text isProducer).Steps s n tr s') :
    toNextItem capacity s' + n ≤ toNextItem capacity s + 13 * readItems tr := by
  refine (h.rank_le (PosixInv capacity isProducer) (toNextItem capacity)
    (fun tr => 13 * readItems tr) ?_ ?_ hinv).2
  · intro tr es
    rw [readItems_append, Nat.mul_add]
  · exact fun s es s' hinv hstep => ⟨posixInv_step hcap hinv hstep,
      posix_toNextItem_lt hcap hinv hstep⟩

omit [DecidableEq P] in
theorem toNextItem_le (hinv : PosixInv capacity isProducer s) :
    toNextItem capacity s ≤ 7 * capacity + (7 * capacity + 6) * Fintype.card P := by
  have htotal : total (fun l => l.pc.distance capacity) s.loc ≤
      (7 * capacity + 6) * Fintype.card P :=
    total_le_mul_card fun p => PosixPc.distance_le (hinv.ok p)
  unfold toNextItem
  omega

omit [Fintype P] in
theorem posix_enabled {p : P} {next : PosixCrate × PosixLocal × List (CrateEvent P)}
    (h : posixStep capacity text p false s.shared (s.loc p) = some next) :
    ∃ es s', (posixSystem capacity text isProducer).step s es s' :=
  ⟨next.2.2, _, p, false, rfl, Program.exec_of_proc h⟩

omit [Fintype P] [DecidableEq P] in
/-- Inside the crate no statement waits. -/
theorem exists_posixStep_inside (p : P) {g : PosixCrate} {l : PosixLocal}
    (hinside : l.pc.holdsMemory ≠ 0) :
    ∃ next, posixStep capacity text p false g l = some next := by
  obtain ⟨pc, buf⟩ := l
  cases pc with
  | compare =>
      simp only [posixStep]
      split <;> exact ⟨_, rfl⟩
  | waitProducer | waitMemory | waitConsumer | waitMemoryToDrain =>
      exact absurd rfl hinside
  | _ => exact ⟨_, rfl⟩

omit [Fintype P] [DecidableEq P] in
/-- A wait is possible when there is a permit. -/
theorem exists_posixStep_outside (p : P) {g : PosixCrate} {l : PosixLocal}
    (houtside : l.pc.holdsMemory = 0)
    (hproducer : l.pc = .waitProducer → 0 < g.producerSem)
    (hconsumer : l.pc = .waitConsumer → 0 < g.consumerSem)
    (hmemory : 0 < g.memorySem) :
    ∃ next, posixStep capacity text p false g l = some next := by
  obtain ⟨pc, buf⟩ := l
  cases pc with
  | waitProducer => exact ⟨_, by simp [posixStep, semWait, hproducer rfl]; rfl⟩
  | waitMemory => exact ⟨_, by simp [posixStep, semWait, hmemory]; rfl⟩
  | waitConsumer => exact ⟨_, by simp [posixStep, semWait, hconsumer rfl]; rfl⟩
  | waitMemoryToDrain => exact ⟨_, by simp [posixStep, semWait, hmemory]; rfl⟩
  | _ => simp [PosixPc.holdsMemory] at houtside

omit [DecidableEq P] in
/-- While nobody holds a permit, the permits of the crate let a producer or a
consumer go on. -/
theorem PosixInv.permit_at_start (hinv : PosixInv capacity isProducer s)
    (hstart : ∀ p, (s.loc p).pc = .start (isProducer p)) :
    (s.shared.state = capacity → 0 < s.shared.consumerSem) ∧
      (s.shared.state ≠ capacity → 0 < s.shared.producerSem) := by
  have hzero : ∀ w : PosixPc → ℕ, (∀ b, w (.start b) = 0) →
      total (fun l : PosixLocal => w l.pc) s.loc = 0 := by
    intro w hw
    apply total_eq_zero
    intro p
    rw [hstart p, hw]
  constructor
  · intro hfull
    have hsum := hinv.full hfull
    rw [hzero PosixPc.holdsFull (by decide), hzero PosixPc.compares (by decide)]
      at hsum
    omega
  · intro hroom
    have hsum := hinv.permits
    rw [hzero PosixPc.holdsPermit (by decide),
      hzero (PosixPc.posted capacity) (by intro b; cases b <;> rfl)] at hsum
    have hle := hinv.state_le
    omega

omit [DecidableEq P] in
/-- With a producer and a consumer some process can go on. -/
theorem PosixInv.exists_enabled (hinv : PosixInv capacity isProducer s)
    {producer consumer : P} (hproducer : isProducer producer = true)
    (hconsumer : isProducer consumer = false) :
    ∃ p next, posixStep capacity text p false s.shared (s.loc p) =
      some next := by
  by_cases hinside : ∃ p, (s.loc p).pc.holdsMemory ≠ 0
  · obtain ⟨p, hp⟩ := hinside
    exact ⟨p, exists_posixStep_inside p hp⟩
  · have houtside : ∀ p, (s.loc p).pc.holdsMemory = 0 :=
      fun p => not_not.mp (not_exists.mp hinside p)
    have hmemory : 0 < s.shared.memorySem := by
      have hsum := hinv.memory
      rw [total_eq_zero (w := fun l : PosixLocal => l.pc.holdsMemory)
        houtside] at hsum
      omega
    by_cases hpermit : ∃ p, (s.loc p).pc ≠ .start (isProducer p)
    · obtain ⟨p, hp⟩ := hpermit
      have hrole := hinv.role p
      refine ⟨p, exists_posixStep_outside p (houtside p) ?_ ?_ hmemory⟩ <;>
        intro hpc <;> rw [hpc] at hrole hp <;> rw [← hrole] at hp <;>
        exact absurd rfl hp
    · have hstart : ∀ p, (s.loc p).pc = .start (isProducer p) :=
        fun p => not_not.mp (not_exists.mp hpermit p)
      obtain ⟨hfull, hroom⟩ := hinv.permit_at_start hstart
      by_cases hstate : s.shared.state = capacity
      · refine ⟨consumer, exists_posixStep_outside consumer
          (houtside consumer) ?_ (fun _ => hfull hstate) hmemory⟩
        intro hpc
        rw [hstart consumer, hconsumer] at hpc
        contradiction
      · refine ⟨producer, exists_posixStep_outside producer
          (houtside producer) (fun _ => hroom hstate) ?_ hmemory⟩
        intro hpc
        rw [hstart producer, hproducer] at hpc
        contradiction

end PosixRuns

/-- What the runs of a crate can do from a reachable state: some process goes
on, and the statements are bounded by the items read. -/
def GoesOn {P σ : Type*} [Fintype P] (capacity : ℕ) (isProducer : P → Bool)
    (S : System σ (CrateEvent P)) : Prop :=
  ∀ s, S.Reachable s →
    ((∃ p, isProducer p = true) → (∃ p, isProducer p = false) →
      ∃ es s', S.step s es s') ∧
    ∀ n tr s', S.Steps s n tr s' →
      n ≤ 7 * capacity + (7 * capacity + 6) * Fintype.card P +
        13 * readItems tr

/-! ## System V semaphores -/

section SysvRuns

variable {P : Type*} [Fintype P] [DecidableEq P] {capacity : ℕ}
  {text : P → ℕ → Text} {isProducer : P → Bool}
  {v v' : Config P SysvCrate SysvLocal} {es : List (CrateEvent P)}

omit [Fintype P] [DecidableEq P] in
/-- A process does not stay at a statement. -/
theorem sysvStep_pc_ne {p : P} {g g' : SysvCrate} {l l' : SysvLocal}
    (h : sysvStep capacity text p false g l = some (g', l', es)) :
    l'.pc.toPosix ≠ l.pc.toPosix := by
  obtain ⟨pc, buf⟩ := l
  cases pc with
  | compare =>
      simp only [sysvStep] at h
      split at h <;> simp only [Option.some.injEq, Prod.mk.injEq] at h <;>
        obtain ⟨-, rfl, -⟩ := h <;> simp [SysvPc.toPosix]
  | downConsumer =>
      simp only [sysvStep, Option.map_eq_some_iff, Prod.mk.injEq] at h
      obtain ⟨sems, -, -, rfl, -⟩ := h
      rw [SysvPc.toPosix_drainFrom]
      unfold PosixPc.drainFrom
      split <;> simp [SysvPc.toPosix]
  | read i =>
      simp only [sysvStep, Option.some.injEq, Prod.mk.injEq] at h
      obtain ⟨-, rfl, -⟩ := h
      rw [SysvPc.toPosix_drainFrom]
      unfold PosixPc.drainFrom
      split <;> simp [SysvPc.toPosix]
  | downProducer | upConsumer | upMemory | upProducer =>
      simp only [sysvStep, Option.map_eq_some_iff, Prod.mk.injEq] at h
      obtain ⟨sems, -, -, rfl, -⟩ := h
      simp [SysvPc.toPosix]
  | _ =>
      simp only [sysvStep, Option.some.injEq, Prod.mk.injEq] at h
      obtain ⟨-, rfl, -⟩ := h
      simp [SysvPc.toPosix]

/-- A System V statement is at least one POSIX statement. -/
theorem sysv_toNextItem_lt (hmax : (capacity : ℤ) ≤ semvmx)
    (hcap : 1 ≤ capacity)
    (hinv : PosixInv capacity isProducer (toPosix capacity v))
    (hstep : (sysvSystem capacity text isProducer).step v es v') :
    PosixInv capacity isProducer (toPosix capacity v') ∧
      toNextItem capacity (toPosix capacity v') + 1 ≤
        toNextItem capacity (toPosix capacity v) + 13 * readItems es := by
  obtain ⟨p, interrupted, rfl, hexec⟩ := hstep
  obtain ⟨g', l', hproc, rfl⟩ := Program.exec_eq_some hexec
  have hrun : (posixSystem capacity text isProducer).Run _ es _ :=
    sysv_step_run hmax hcap hinv hproc
  refine ⟨posixInv_run hcap hinv hrun, ?_⟩
  obtain ⟨n, hsteps⟩ := hrun.steps
  have hrank := posix_steps_le hcap hinv hsteps
  have hpos : n ≠ 0 := by
    rintro rfl
    have hsame := congrArg (fun c => (c.loc p).pc) hsteps.eq_of_zero
    rw [toPosix_move, Program.move_loc, Function.update_self] at hsame
    exact sysvStep_pc_ne hproc hsame
  omega

omit [Fintype P] [DecidableEq P] in
theorem semop_of_pos {ops : List Sembuf} {sems : Sems}
    (h : ∀ op ∈ ops, 0 < op.semOp) : ∃ sems', semopCall false ops sems = some sems' := by
  have hsemop : semop ops sems ≠ .blocked := by
    induction ops generalizing sems with
    | nil => simp [semop]
    | cons op ops ih =>
        obtain ⟨hop, hrest⟩ := List.forall_mem_cons.mp h
        simp only [semop]
        rw [if_neg (by omega), if_neg (by omega)]
        split
        · simp
        · exact ih hrest
  unfold semopCall
  cases hcall : semop ops sems with
  | blocked => exact absurd hcall hsemop
  | failed => exact ⟨sems, rfl⟩
  | done sems' => exact ⟨sems', rfl⟩

omit [Fintype P] [DecidableEq P] in
/-- Inside the crate no statement waits. -/
theorem exists_sysvStep_inside (hcap : 1 ≤ capacity) (hmax : capacity ≤ 32767)
    (p : P) {g : SysvCrate} {l : SysvLocal}
    (hinside : l.pc.toPosix.holdsMemory ≠ 0) :
    ∃ next, sysvStep capacity text p false g l = some next := by
  have hcall : ∀ ops, (∀ op : Sembuf, op ∈ ops → 0 < op.semOp) →
      ∃ sems, semopCall false ops g.sems = some sems := fun _ => semop_of_pos
  have hshort : (0 : ℤ) < Int.bmod capacity (2 ^ 16) := by
    rw [Int.bmod_eq_of_le] <;> omega
  obtain ⟨pc, buf⟩ := l
  cases pc with
  | compare =>
      simp only [sysvStep]
      split <;> exact ⟨_, rfl⟩
  | upConsumer =>
      obtain ⟨sems, hsems⟩ := hcall semConsumerUp (by simp [semConsumerUp])
      exact ⟨_, by simp only [sysvStep, hsems, Option.map_some]; rfl⟩
  | upMemory =>
      obtain ⟨sems, hsems⟩ := hcall semMemoryUp (by simp [semMemoryUp])
      exact ⟨_, by simp only [sysvStep, hsems, Option.map_some]; rfl⟩
  | upProducer =>
      obtain ⟨sems, hsems⟩ := hcall (producerMemUp capacity)
        (by simpa [producerMemUp] using hshort)
      exact ⟨_, by simp only [sysvStep, hsems, Option.map_some]; rfl⟩
  | downProducer | downConsumer => exact absurd rfl hinside
  | _ => exact ⟨_, rfl⟩

/-- With a producer and a consumer some process can go on. -/
theorem sysv_exists_step (hcap : 1 ≤ capacity) (hmax : capacity ≤ 32767)
    (hinv : PosixInv capacity isProducer (toPosix capacity v))
    {producer consumer : P} (hproducer : isProducer producer = true)
    (hconsumer : isProducer consumer = false) :
    ∃ es v', (sysvSystem capacity text isProducer).step v es v' := by
  have hstep : ∀ p, (∃ next, sysvStep capacity text p false v.shared (v.loc p) =
      some next) → ∃ es v', (sysvSystem capacity text isProducer).step v es v' :=
    fun p ⟨next, hnext⟩ =>
      ⟨next.2.2, _, p, false, rfl, Program.exec_of_proc hnext⟩
  by_cases hinside : ∃ p, (v.loc p).pc.toPosix.holdsMemory ≠ 0
  · obtain ⟨p, hp⟩ := hinside
    exact hstep p (exists_sysvStep_inside hcap hmax p hp)
  · have houtside : ∀ p, (v.loc p).pc.toPosix.holdsMemory = 0 :=
      fun p => not_not.mp (not_exists.mp hinside p)
    have hmemory : v.shared.sems 1 = 1 := by
      have hsum := hinv.memory
      rw [total_eq_zero (w := fun l : PosixLocal => l.pc.holdsMemory)
        houtside] at hsum
      exact hsum
    have hstart : ∀ p, ((toPosix capacity v).loc p).pc =
        .start (isProducer p) := by
      intro p
      have hout := houtside p
      have hrole := hinv.role p
      simp only [toPosix, SysvLocal.toPosix] at hrole ⊢
      rw [← hrole]
      cases hpc : (v.loc p).pc <;> rw [hpc] at hout <;>
        first | rfl | exact absurd hout Nat.one_ne_zero
    have hpc : ∀ p, (v.loc p).pc = .start (isProducer p) := by
      intro p
      have hp := hstart p
      simp only [toPosix, SysvLocal.toPosix] at hp
      cases hrole : isProducer p <;> rw [hrole] at hp <;>
        cases hpc : (v.loc p).pc <;> rw [hpc] at hp <;>
        first | rfl | contradiction
    have hunposted : total (fun l => l.pc.unposted capacity) v.loc = 0 := by
      apply total_eq_zero (w := fun l : SysvLocal => l.pc.unposted capacity)
      intro p
      rw [hpc p]
      cases isProducer p <;> rfl
    obtain ⟨hfull, hroom⟩ := hinv.permit_at_start hstart
    have hconsumerSem := hinv.consumers_le hcap
    have hproducerSem := hinv.producerSem_le
    simp only [toPosix, SysvCrate.toPosix, Sems.consumer, Sems.producer,
      hunposted, Nat.add_zero] at hfull hroom hconsumerSem hproducerSem
    have hmemory' : (v.shared.sems 1 : ℤ) ≤ semvmx := by
      rw [hmemory]
      decide
    by_cases hstate : v.shared.state = capacity
    · have hcall := (semopCall_down (i := 0) (j := 1) (by decide)
        (by unfold semvmx; omega) hmemory').mpr
          ⟨hfull hstate, by omega, rfl⟩
      have hat : (v.loc consumer).pc = .downConsumer := by
        rw [hpc consumer, hconsumer]
        rfl
      exact hstep consumer ⟨_, by
        simp only [sysvStep, hat, consumerMemDown, hcall, Option.map_some]
        rfl⟩
    · have hcall := (semopCall_down (i := 2) (j := 1) (by decide)
        (by unfold semvmx; omega) hmemory').mpr
          ⟨hroom hstate, by omega, rfl⟩
      have hat : (v.loc producer).pc = .downProducer := by
        rw [hpc producer, hproducer]
        rfl
      exact hstep producer ⟨_, by
        simp only [sysvStep, hat, producerMemDown, hcall, Option.map_some]
        rfl⟩

end SysvRuns

/-- Over the crate that `crate.cpp` leaves, runs without interrupted waits are
runs in which a wait returns only with a permit. -/
theorem posixUninterrupted_eq {P : Type*} [DecidableEq P] {capacity : ℕ}
    (hmax : capacity ≤ semValueMax) (text : P → ℕ → Text)
    (isProducer : P → Bool) :
    posixUninterrupted capacity text isProducer =
      posixSystem capacity text isProducer := by
  have hinit : PosixCreated capacity isProducer =
      PosixInit capacity isProducer := by
    funext s
    rw [PosixCreated, PosixInit, setValue, if_pos hmax]
  have hstep : (posixUninterrupted capacity text isProducer).step =
      (posixSystem capacity text isProducer).step := by
    funext s es s'
    refine propext ⟨?_, ?_⟩
    · rintro ⟨p, interrupted, hok, hexec⟩
      obtain ⟨g, l, hproc, rfl⟩ := Program.exec_eq_some hexec
      have hproc' := (posixStep_uninterrupted hok).symm.trans hproc
      exact ⟨p, false, rfl, Program.exec_of_proc hproc'⟩
    · rintro ⟨p, interrupted, rfl, hexec⟩
      exact ⟨p, false, fun _ => rfl, hexec⟩
  exact congrArg₂ System.mk hinit hstep

/-- For any number of producers and consumers the crate that `crate.cpp` leaves
never stops when no wait is interrupted, and in every part of a run the number of
statements is bounded by the items read; for every capacity a POSIX semaphore
can hold. -/
theorem posix_crate_goes_on {P : Type*} [Fintype P] [DecidableEq P]
    {capacity : ℕ} (hcap : 1 ≤ capacity) (hmax : capacity ≤ semValueMax)
    (beyond : ℕ → Text) (pid : P → ℕ) (isProducer : P → Bool) :
    GoesOn capacity isProducer
      (posixUninterrupted capacity (producerText beyond pid) isProducer) := by
  rw [posixUninterrupted_eq hmax]
  intro s hs
  have hinv := posixInv_reachable hcap hs
  refine ⟨?_, ?_⟩
  · rintro ⟨producer, hproducer⟩ ⟨consumer, hconsumer⟩
    obtain ⟨p, next, hnext⟩ := hinv.exists_enabled hproducer hconsumer
    exact posix_enabled hnext
  · intro n tr s' h
    have hsteps := posix_steps_le hcap hinv h
    have hfirst := toNextItem_le hinv
    omega

theorem posix_crate_goes_on_pair :
    GoesOn 2 id
      (posixUninterrupted 2 (producerText (fun _ => []) fun _ => 7) id) :=
  posix_crate_goes_on (P := Bool) (by decide) (by decide) _ _ _

/-- The same for the crate with System V semaphores, for every capacity such a
semaphore can hold. -/
theorem sysv_crate_goes_on {P : Type*} [Fintype P] [DecidableEq P]
    {capacity : ℕ} (hcap : 1 ≤ capacity) (hmax : capacity ≤ 32767)
    (beyond : ℕ → Text) (pid : P → ℕ) (isProducer : P → Bool) :
    GoesOn capacity isProducer
      (sysvSystem capacity (producerText beyond pid) isProducer) := by
  have hvalue : (capacity : ℤ) ≤ semvmx := by
    unfold semvmx
    omega
  rintro v ⟨tr₀, hexec⟩
  obtain ⟨s, -, rfl, hinv⟩ := (sysv_simulation hvalue hcap).exec hexec
  refine ⟨?_, ?_⟩
  · rintro ⟨producer, hproducer⟩ ⟨consumer, hconsumer⟩
    exact sysv_exists_step hcap hmax hinv hproducer hconsumer
  · intro n tr v' h
    have hsteps := (h.rank_le
      (fun v => PosixInv capacity isProducer (toPosix capacity v))
      (fun v => toNextItem capacity (toPosix capacity v))
      (fun tr => 13 * readItems tr)
      (fun tr es => by rw [readItems_append, Nat.mul_add])
      (fun v es v' => sysv_toNextItem_lt hvalue hcap) hinv).2
    have hfirst := toNextItem_le hinv
    omega

theorem sysv_crate_goes_on_pair :
    GoesOn 2 id (sysvSystem 2 (producerText (fun _ => []) fun _ => 7) id) :=
  sysv_crate_goes_on (P := Bool) (by decide) (by decide) _ _ _

end Pvos.SemaphoresPr
