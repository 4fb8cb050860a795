import Pvos.SemaphoresPr.PosixSafety
import Pvos.SemaphoresPr.Sysv

/-!
# The System V and the POSIX programs show the same histories

A `semop` of `vproducer.cpp` is two waits of `producer.cpp` one after the
other; the permits its consumer returns at once are those the POSIX consumer
posts one by one, so the System V producer semaphore lags behind by the permits
already posted in the drain.

Conversely a POSIX process may hold a permit while it waits for the memory.
Its program is related to the System V program through the crate machine, whose
steps are whole rounds of the loop with all other processes at their start.
-/

namespace Pvos.SemaphoresPr

open Pvos.Support

/-! ## A System V state as a POSIX state -/

/-- The same statement of the POSIX program. -/
def SysvPc.toPosix : SysvPc → PosixPc
  | .downProducer => .waitProducer
  | .produce => .produce
  | .increment => .increment
  | .compare => .compare
  | .upConsumer => .postConsumer
  | .upMemory => .postMemory
  | .downConsumer => .waitConsumer
  | .read i => .read i
  | .reset => .reset
  | .upProducer => .postMemoryDrained

/-- The permits a POSIX drain has posted and a System V drain has not. -/
def SysvPc.unposted (capacity : ℕ) : SysvPc → ℕ
  | .read i => i
  | .reset | .upProducer => capacity
  | _ => 0

theorem SysvPc.toPosix_drainFrom (capacity i : ℕ) :
    (drainFrom capacity i).toPosix = .drainFrom capacity i := by
  unfold drainFrom PosixPc.drainFrom
  split <;> rfl

theorem SysvPc.unposted_drainFrom {capacity i : ℕ} (hi : i ≤ capacity) :
    (drainFrom capacity i).unposted capacity = i := by
  unfold drainFrom
  split
  next => rfl
  next hlast =>
    simp only [unposted]
    omega

section ToPosix

variable {P : Type*} [Fintype P] (capacity : ℕ)

def SysvLocal.toPosix (l : SysvLocal) : PosixLocal :=
  ⟨l.pc.toPosix, l.buf⟩

theorem SysvLocal.toPosix_drainFrom (i : ℕ) (buf : Memory) :
    SysvLocal.toPosix ⟨.drainFrom capacity i, buf⟩ =
      ⟨.drainFrom capacity i, buf⟩ := by
  rw [toPosix, SysvPc.toPosix_drainFrom]

/-- The shared state with the permits posted one by one. -/
def SysvCrate.toPosix (g : SysvCrate) (loc : P → SysvLocal) : PosixCrate where
  consumerSem := Sems.consumer g.sems
  memorySem := Sems.memory g.sems
  producerSem := Sems.producer g.sems + total (fun l => l.pc.unposted capacity) loc
  state := g.state
  slots := g.slots

def toPosix (v : Config P SysvCrate SysvLocal) :
    Config P PosixCrate PosixLocal where
  shared := v.shared.toPosix capacity v.loc
  loc p := (v.loc p).toPosix

theorem toPosix_move [DecidableEq P] (v : Config P SysvCrate SysvLocal) (p : P)
    (g : SysvCrate) (l : SysvLocal) :
    toPosix capacity (Program.move v p g l) =
      Program.move (toPosix capacity v) p
        (g.toPosix capacity (Function.update v.loc p l)) l.toPosix := by
  ext q
  · rfl
  · simp only [toPosix, Program.move_loc]
    by_cases hqp : q = p
    · subst hqp
      simp
    · simp [Function.update_of_ne hqp]

variable {capacity} [DecidableEq P] {isProducer : P → Bool}
  {text : P → ℕ → Text} {v : Config P SysvCrate SysvLocal} {p : P}
  {g' : SysvCrate} {l' : SysvLocal} {es : List (CrateEvent P)}

omit [Fintype P] in
theorem posix_run_of_solo {n : ℕ} {s : Config P PosixCrate PosixLocal}
    {g : PosixCrate} {l : PosixLocal}
    (h : (posixProgram capacity text).solo p false n s.shared (s.loc p) =
      some (g, l, es)) :
    (posixSystem capacity text isProducer).Run s es (Program.move s p g l) :=
  Program.run_of_solo (fun _ _ interrupted => interrupted = false)
    (fun _ => rfl) h

/-- Statements of one POSIX process that lead to the semaphores, the crate and
the place of a System V process; `k` is what they leave of the producer
semaphore. -/
theorem toPosix_run_of_solo {n k : ℕ} {l : SysvLocal}
    (hl : v.loc p = l)
    (hsolo : (posixProgram capacity text).solo p false n
        (v.shared.toPosix capacity v.loc) l.toPosix =
      some (⟨g'.sems.consumer, g'.sems.memory, k, g'.state, g'.slots⟩,
        l'.toPosix, es))
    (hpermits : k + l.pc.unposted capacity = g'.sems.producer +
      total (fun l => l.pc.unposted capacity) v.loc + l'.pc.unposted capacity) :
    (posixSystem capacity text isProducer).Run (toPosix capacity v) es
      (toPosix capacity (Program.move v p g' l')) := by
  have hupdate :=
    total_update (fun l : SysvLocal => l.pc.unposted capacity) v.loc p l'
  have hk : k = g'.sems.producer +
      total (fun l => l.pc.unposted capacity) (Function.update v.loc p l') := by
    rw [hl] at hupdate
    omega
  rw [toPosix_move]
  apply posix_run_of_solo (n := n)
  rw [SysvCrate.toPosix, ← hk, ← hsolo, ← hl]
  rfl

/-- One statement of the System V program is one or two statements of the POSIX
program. -/
theorem sysv_step_run (hmax : (capacity : ℤ) ≤ semvmx) (hcap : 1 ≤ capacity)
    (hinv : PosixInv capacity isProducer (toPosix capacity v))
    (hproc : sysvStep capacity text p false v.shared (v.loc p) =
      some (g', l', es)) :
    (posixSystem capacity text isProducer).Run (toPosix capacity v) es
      (toPosix capacity (Program.move v p g' l')) := by
  have hproducer := hinv.producerSem_le
  have hmemory := hinv.memory
  have hconsumer := hinv.consumers_le hcap
  simp only [toPosix, SysvCrate.toPosix, Sems.consumer, Sems.memory,
    Sems.producer] at hproducer hmemory hconsumer
  unfold semvmx at hmax
  have h₀ : (v.shared.sems 0 : ℤ) < semvmx := by unfold semvmx; omega
  have h₁ : (v.shared.sems 1 : ℤ) < semvmx := by unfold semvmx; omega
  have h₂ : (v.shared.sems 2 : ℤ) ≤ semvmx := by unfold semvmx; omega
  generalize hl : v.loc p = l at hproc
  obtain ⟨pc, buf⟩ := l
  cases pc with
  | downProducer =>
      simp only [sysvStep, Option.map_eq_some_iff, Prod.mk.injEq] at hproc
      obtain ⟨sems, hcall, rfl, rfl, rfl⟩ := hproc
      rw [producerMemDown, semopCall_down (by decide) h₂ h₁.le] at hcall
      obtain ⟨hpermit, hfree, rfl⟩ := hcall
      refine toPosix_run_of_solo (n := 2) (k := v.shared.sems.producer +
        total (fun l => l.pc.unposted capacity) v.loc - 1) hl ?_ ?_
      · simp [Program.solo, posixProgram, SysvLocal.toPosix, SysvPc.toPosix,
          SysvCrate.toPosix, posixStep, semWait, hpermit, hfree]
      · simp [SysvPc.unposted]
        omega
  | downConsumer =>
      simp only [sysvStep, Option.map_eq_some_iff, Prod.mk.injEq] at hproc
      obtain ⟨sems, hcall, rfl, rfl, rfl⟩ := hproc
      rw [consumerMemDown, semopCall_down (by decide) h₀.le h₁.le] at hcall
      obtain ⟨hpermit, hfree, rfl⟩ := hcall
      refine toPosix_run_of_solo (n := 2) (k := v.shared.sems.producer +
        total (fun l => l.pc.unposted capacity) v.loc) hl ?_ ?_
      · rw [SysvLocal.toPosix_drainFrom]
        simp [Program.solo, posixProgram, SysvLocal.toPosix, SysvPc.toPosix,
          SysvCrate.toPosix, posixStep, semWait, hpermit, hfree]
      · rw [SysvPc.unposted_drainFrom (Nat.zero_le _)]
        simp [SysvPc.unposted]
  | read i =>
      have hi : i < capacity := by
        have hok := hinv.ok p
        simpa [toPosix, SysvLocal.toPosix, hl, SysvPc.toPosix, PosixPc.Ok]
          using hok
      simp only [sysvStep, Option.some.injEq, Prod.mk.injEq] at hproc
      obtain ⟨rfl, rfl, rfl⟩ := hproc
      refine toPosix_run_of_solo (n := 2) (k := v.shared.sems.producer +
        total (fun l => l.pc.unposted capacity) v.loc + 1) hl ?_ ?_
      · rw [SysvLocal.toPosix_drainFrom]
        rfl
      · rw [SysvPc.unposted_drainFrom hi]
        simp [SysvPc.unposted]
        omega
  | compare =>
      simp only [sysvStep] at hproc
      by_cases hfull : v.shared.state = capacity
      all_goals
        simp only [hfull, if_true, if_false, Option.some.injEq,
          Prod.mk.injEq] at hproc
        obtain ⟨rfl, rfl, rfl⟩ := hproc
        refine toPosix_run_of_solo (n := 1) hl ?_ rfl
        simp [Program.solo, posixProgram, SysvLocal.toPosix, SysvPc.toPosix,
          SysvCrate.toPosix, posixStep, hfull]
  | upProducer =>
      have hself : SysvPc.unposted capacity .upProducer = capacity := rfl
      have hlow : v.shared.sems 2 = 0 := by
        have hle := le_total (fun l : SysvLocal => l.pc.unposted capacity)
          v.loc p
        simp only [hl] at hle
        omega
      have hroom : (v.shared.sems 2 : ℤ) + capacity ≤ semvmx := by
        unfold semvmx
        omega
      simp only [sysvStep, semopCall_producerMemUp hcap hroom h₁,
        Option.map_some, Option.some.injEq, Prod.mk.injEq] at hproc
      obtain ⟨rfl, rfl, rfl⟩ := hproc
      refine toPosix_run_of_solo (n := 1) (k := v.shared.sems.producer +
        total (fun l => l.pc.unposted capacity) v.loc) hl rfl ?_
      have hnone : SysvPc.unposted capacity .downConsumer = 0 := rfl
      simp [hself, hnone]
      omega
  | _ =>
      simp only [sysvStep, semConsumerUp, semMemoryUp, semopCall_up h₀,
        semopCall_up h₁, Option.map_some, Option.some.injEq,
        Prod.mk.injEq] at hproc
      obtain ⟨rfl, rfl, rfl⟩ := hproc
      exact toPosix_run_of_solo (n := 1) hl rfl rfl

/-- The POSIX program can do whatever the System V program does. -/
theorem sysv_simulation (hmax : (capacity : ℤ) ≤ semvmx) (hcap : 1 ≤ capacity) :
    System.Simulation (sysvSystem capacity text isProducer)
      (posixSystem capacity text isProducer)
      (fun v s => s = toPosix capacity v ∧
        PosixInv capacity isProducer s) := by
  constructor
  · rintro v ⟨hshared, hpc⟩
    have hinit : PosixInit capacity isProducer (toPosix capacity v) := by
      constructor
      · have hzero : total (fun l => l.pc.unposted capacity) v.loc = 0 := by
          apply total_eq_zero (w := fun l : SysvLocal => l.pc.unposted capacity)
          intro p
          rw [hpc p]
          cases isProducer p <;> rfl
        simp only [toPosix, SysvCrate.toPosix, Sems.consumer, Sems.memory,
          Sems.producer, hzero, hshared]
        rfl
      · intro p
        simp only [toPosix, SysvLocal.toPosix, hpc p]
        cases isProducer p <;> rfl
    exact ⟨_, hinit, rfl, posixInv_init hcap hinit⟩
  · rintro v s es v' ⟨rfl, hinv⟩ ⟨p, interrupted, rfl, hexec⟩
    obtain ⟨g', l', hproc, rfl⟩ := Program.exec_eq_some hexec
    have hrun := sysv_step_run hmax hcap hinv hproc
    exact ⟨_, hrun, rfl, posixInv_run hcap hinv hrun⟩

end ToPosix

/-! ## The crate machine as runs of the System V program -/

section FromCrate

variable {P : Type*} [DecidableEq P] (capacity : ℕ) (isProducer : P → Bool)

/-- The System V program between two steps of the machine: all processes wait
at their start, but for the consumer that drains. -/
def QuietAt (v : Config P SysvCrate SysvLocal) : Phase P → Prop
  | .filling n =>
      n ≤ capacity ∧ v.shared.state = n ∧
        v.shared.sems =
          semsOf (if n = capacity then 1 else 0) 1 (capacity - n) ∧
        ∀ q, (v.loc q).pc = .start (isProducer q)
  | .draining p i =>
      i ≤ capacity ∧ isProducer p = false ∧ v.shared.state = capacity ∧
        v.shared.sems = semsOf 0 0 0 ∧
        (v.loc p).pc = .drainFrom capacity i ∧
        ∀ q, q ≠ p → (v.loc q).pc = .start (isProducer q)

variable {capacity isProducer} {text : P → ℕ → Text}
  {v : Config P SysvCrate SysvLocal} {p : P} {es : List (CrateEvent P)}

theorem sysv_run_of_solo {n : ℕ} {g : SysvCrate} {l : SysvLocal}
    (h : (sysvProgram capacity text).solo p false n v.shared (v.loc p) =
      some (g, l, es)) :
    (sysvSystem capacity text isProducer).Run v es (Program.move v p g l) :=
  Program.run_of_solo (fun _ _ interrupted => interrupted = false)
    (fun _ => rfl) h

theorem sysv_run_step {g : SysvCrate} {l : SysvLocal}
    (h : sysvStep capacity text p false v.shared (v.loc p) =
      some (g, l, es)) :
    (sysvSystem capacity text isProducer).Run v es (Program.move v p g l) :=
  .single ⟨p, false, rfl, Program.exec_of_proc h⟩

/-- After a round of the loop of `p` all processes are at their start again. -/
theorem start_move {l : SysvLocal} {g : SysvCrate}
    (hothers : ∀ q, q ≠ p → (v.loc q).pc = .start (isProducer q))
    (hp : l.pc = .start (isProducer p)) (q : P) :
    ((Program.move v p g l).loc q).pc = .start (isProducer q) :=
  Program.forall_move (Q := fun q (l : SysvLocal) => l.pc = .start (isProducer q))
    hp hothers q

theorem others_move {l : SysvLocal} {g : SysvCrate}
    (hothers : ∀ q, q ≠ p → (v.loc q).pc = .start (isProducer q)) (q : P)
    (hq : q ≠ p) :
    ((Program.move v p g l).loc q).pc = .start (isProducer q) := by
  simpa [Function.update_of_ne hq] using hothers q hq

theorem semopCall_producerMemDown {a n : ℕ} (hn : n < capacity)
    (hmax : (capacity : ℤ) ≤ semvmx) :
    semopCall false producerMemDown (semsOf a 1 (capacity - n)) =
      some (semsOf a 0 (capacity - (n + 1))) := by
  rw [producerMemDown, semopCall_down (by decide) (by simp; omega)
    (by simp [semvmx])]
  refine ⟨by simp; omega, by simp, ?_⟩
  simp [Nat.sub_sub]

theorem semopCall_semMemoryUp (a c : ℕ) :
    semopCall false semMemoryUp (semsOf a 0 c) = some (semsOf a 1 c) := by
  rw [semMemoryUp, semopCall_up (by simp [semvmx])]
  simp

/-- Storing one item is one round of the producer's loop. -/
theorem quiet_produce (hmax : (capacity : ℤ) ≤ semvmx) {n : ℕ}
    (hn : n < capacity) (hp : isProducer p = true)
    (h : QuietAt capacity isProducer v (.filling n)) :
    ∃ v', (sysvSystem capacity text isProducer).Run v
        [.produced p n (text p n)] v' ∧
      v'.shared.slots = storeItem v.shared.slots n (text p n) ∧
      QuietAt capacity isProducer v' (.filling (n + 1)) := by
  obtain ⟨-, hstate, hsems, hpc⟩ := h
  have hstart := hpc p
  rw [hp, SysvPc.start, if_pos rfl] at hstart
  rw [if_neg hn.ne] at hsems
  rcases Nat.lt_or_eq_of_le (Nat.succ_le_of_lt hn) with hmore | hlast
  · refine ⟨Program.move v p ⟨semsOf 0 1 (capacity - (n + 1)), n + 1,
        storeItem v.shared.slots n (text p n)⟩
        ⟨.downProducer, (v.loc p).buf.write 0 (text p n ++ [0])⟩,
      sysv_run_of_solo (n := 5) ?_, rfl, hmore.le, rfl, ?_,
      start_move (fun q _ => hpc q) (by rw [hp]; rfl)⟩
    · simp [Program.solo, sysvProgram, sysvStep, hstart, hstate, hsems,
        semopCall_producerMemDown hn hmax, semopCall_semMemoryUp, storeItem_eq,
        hmore.ne]
    · rw [if_neg hmore.ne]
      rfl
  · refine ⟨Program.move v p ⟨semsOf 1 1 0, n + 1,
        storeItem v.shared.slots n (text p n)⟩
        ⟨.downProducer, (v.loc p).buf.write 0 (text p n ++ [0])⟩,
      sysv_run_of_solo (n := 6) ?_, rfl, hlast.le, rfl, ?_,
      start_move (fun q _ => hpc q) (by rw [hp]; rfl)⟩
    · have hconsumerUp : semopCall false semConsumerUp (semsOf 0 0 0) =
          some (semsOf 1 0 0) := by
        rw [semConsumerUp, semopCall_up (by simp [semvmx])]
        simp
      have hfull : n + 1 = capacity := hlast
      simp [Program.solo, sysvProgram, sysvStep, hstart, hstate, hsems,
        semopCall_producerMemDown hn hmax, semopCall_semMemoryUp, storeItem_eq,
        hfull, hconsumerUp]
    · rw [if_pos hlast, show capacity - (n + 1) = 0 by omega]
      rfl

/-- A consumer starts to drain. -/
theorem quiet_begin (hp : isProducer p = false)
    (h : QuietAt capacity isProducer v (.filling capacity)) :
    ∃ v', (sysvSystem capacity text isProducer).Run v [] v' ∧
      v'.shared.slots = v.shared.slots ∧
      QuietAt capacity isProducer v' (.draining p 0) := by
  obtain ⟨-, hstate, hsems, hpc⟩ := h
  have hstart := hpc p
  rw [hp, SysvPc.start, if_neg (by decide)] at hstart
  rw [if_pos rfl, Nat.sub_self] at hsems
  refine ⟨Program.move v p ⟨semsOf 0 0 0, capacity, v.shared.slots⟩
      ⟨.drainFrom capacity 0, (v.loc p).buf⟩,
    sysv_run_of_solo (n := 1) ?_, rfl, Nat.zero_le _, hp, rfl, rfl, by simp,
    others_move fun q _ => hpc q⟩
  have hdown : semopCall false consumerMemDown (semsOf 1 1 0) =
      some (semsOf 0 0 0) := by
    rw [consumerMemDown, semopCall_down (by decide) (by simp [semvmx])
      (by simp [semvmx])]
    simp
  simp [Program.solo, sysvProgram, sysvStep, hstart, hstate, hsems, hdown]

/-- A consumer reads the next slot. -/
theorem quiet_read {i : ℕ} (hi : i < capacity)
    (h : QuietAt capacity isProducer v (.draining p i)) :
    ∃ v', (sysvSystem capacity text isProducer).Run v
        [.read p i (slotBytes v.shared.slots i)] v' ∧
      v'.shared.slots = v.shared.slots ∧
      QuietAt capacity isProducer v' (.draining p (i + 1)) := by
  obtain ⟨-, hp, hstate, hsems, hpc, hothers⟩ := h
  rw [SysvPc.drainFrom, if_pos hi] at hpc
  refine ⟨Program.move v p v.shared ⟨.drainFrom capacity (i + 1),
      (v.loc p).buf.memcpy 0 (v.shared.slots i) 0 maxCrateItemSize⟩,
    sysv_run_of_solo (n := 1) ?_, rfl, hi, hp, hstate, hsems, by simp,
    others_move hothers⟩
  simp [Program.solo, sysvProgram, sysvStep, hpc, slotBytes,
    Memory.bytes_memcpy]

omit [DecidableEq P] in
theorem sysv_upProducer (hmax : (capacity : ℤ) ≤ semvmx) (hcap : 1 ≤ capacity)
    (hpc : (v.loc p).pc = .upProducer) (hsems : v.shared.sems = semsOf 0 0 0) :
    sysvStep capacity text p false v.shared (v.loc p) =
      some (⟨semsOf 0 1 capacity, v.shared.state, v.shared.slots⟩,
        ⟨.downConsumer, (v.loc p).buf⟩, []) := by
  have hup : semopCall false (producerMemUp capacity) v.shared.sems =
      some (semsOf 0 1 capacity) := by
    rw [hsems, semopCall_producerMemUp hcap (by simpa using hmax)
      (by simp [semvmx])]
    simp
  simp [sysvStep, hpc, hup]

/-- The consumer is done. -/
theorem quiet_finish (hmax : (capacity : ℤ) ≤ semvmx) (hcap : 1 ≤ capacity)
    (h : QuietAt capacity isProducer v (.draining p capacity)) :
    ∃ v', (sysvSystem capacity text isProducer).Run v [] v' ∧
      v'.shared.slots = v.shared.slots ∧
      QuietAt capacity isProducer v' (.filling 0) := by
  obtain ⟨-, hp, -, hsems, hpc, hothers⟩ := h
  rw [SysvPc.drainFrom, if_neg (Nat.lt_irrefl _)] at hpc
  have hreset : (sysvSystem capacity text isProducer).Run v []
      (Program.move v p ⟨v.shared.sems, 0, v.shared.slots⟩
        ⟨.upProducer, (v.loc p).buf⟩) :=
    sysv_run_step (by simp [sysvStep, hpc])
  have hup : (sysvSystem capacity text isProducer).Run _ _ _ :=
    sysv_run_step (sysv_upProducer (p := p) (v := Program.move v p
      ⟨v.shared.sems, 0, v.shared.slots⟩ ⟨.upProducer, (v.loc p).buf⟩)
      hmax hcap (by simp) (by simpa using hsems))
  refine ⟨_, hreset.trans hup, rfl, Nat.zero_le _, rfl, ?_,
    start_move (others_move hothers) (by rw [hp]; rfl)⟩
  rw [if_neg (by omega), Nat.sub_zero]
  rfl

/-- The System V program can do whatever the machine does. -/
theorem crate_simulation (hmax : (capacity : ℤ) ≤ semvmx) (hcap : 1 ≤ capacity) :
    System.Simulation (crateSystem capacity text isProducer)
      (sysvSystem capacity text isProducer)
      (fun a v => v.shared.slots = a.slots ∧
        QuietAt capacity isProducer v a.phase) := by
  constructor
  · rintro a rfl
    refine ⟨⟨⟨semsOf 0 1 capacity, 0, fun _ _ => 0⟩,
        fun p => ⟨.start (isProducer p), fun _ => 0⟩⟩,
      ⟨rfl, fun _ => rfl⟩, rfl, Nat.zero_le _, rfl, ?_, fun _ => rfl⟩
    rw [if_neg (by omega), Nat.sub_zero]
  · rintro a v es a' ⟨hslots, hquiet⟩ hstep
    cases hstep with
    | produce slots p n hn hp =>
        obtain rfl : v.shared.slots = slots := hslots
        exact quiet_produce hmax hn hp hquiet
    | begin slots p hp =>
        obtain rfl : v.shared.slots = slots := hslots
        exact quiet_begin hp hquiet
    | read slots p i hi =>
        obtain rfl : v.shared.slots = slots := hslots
        exact quiet_read hi hquiet
    | finish slots p =>
        obtain rfl : v.shared.slots = slots := hslots
        exact quiet_finish hmax hcap hquiet

end FromCrate

/-! ## Equivalence -/

/-- For every capacity a System V semaphore can hold and any number of
producers and consumers, each of the two programs simulates the other; they
show the same histories of filled and read slots, down to the process and the
bytes of every step. -/
theorem posix_sysv_equivalent {P : Type*} [Fintype P] [DecidableEq P]
    {capacity : ℕ} (hcap : 1 ≤ capacity) (hmax : capacity ≤ 32767)
    (beyond : ℕ → Text) (pid : P → ℕ) (isProducer : P → Bool) :
    System.Simulates
        (posixSystem capacity (producerText beyond pid) isProducer)
        (sysvSystem capacity (producerText beyond pid) isProducer) ∧
      System.Simulates
        (sysvSystem capacity (producerText beyond pid) isProducer)
        (posixSystem capacity (producerText beyond pid) isProducer) ∧
      (posixSystem capacity (producerText beyond pid) isProducer).traces =
        (sysvSystem capacity (producerText beyond pid) isProducer).traces := by
  have hvalue : (capacity : ℤ) ≤ semvmx := by
    unfold semvmx
    omega
  have hposix : System.Simulates
      (posixSystem capacity (producerText beyond pid) isProducer)
      (sysvSystem capacity (producerText beyond pid) isProducer) :=
    System.Simulates.trans ⟨_, posix_simulation hcap⟩
      ⟨_, crate_simulation hvalue hcap⟩
  have hsysv : System.Simulates
      (sysvSystem capacity (producerText beyond pid) isProducer)
      (posixSystem capacity (producerText beyond pid) isProducer) :=
    ⟨_, sysv_simulation hvalue hcap⟩
  exact ⟨hposix, hsysv, Set.ext fun _ =>
    ⟨fun htr => hposix.traces_subset htr, fun htr => hsysv.traces_subset htr⟩⟩

/-- A producer and a consumer of a crate of two items. -/
theorem posix_sysv_equivalent_two :
    System.Simulates
        (posixSystem 2 (producerText (fun _ => []) fun _ => 7) id)
        (sysvSystem 2 (producerText (fun _ => []) fun _ => 7) id) ∧
      System.Simulates
        (sysvSystem 2 (producerText (fun _ => []) fun _ => 7) id)
        (posixSystem 2 (producerText (fun _ => []) fun _ => 7) id) ∧
      (posixSystem 2 (producerText (fun _ => []) fun _ => 7) id).traces =
        (sysvSystem 2 (producerText (fun _ => []) fun _ => 7) id).traces :=
  posix_sysv_equivalent (P := Bool) (by decide) (by decide) _ _ _

end Pvos.SemaphoresPr
