import Pvos.SemaphoresPr.Interrupts
import Pvos.SemaphoresPr.SlotTexts

/-!
# What a drain prints

The consumer copies the bytes of a slot to `buf` and prints it with `%s`.  The
producer of a later round overwrites only as many bytes as its text has, so a
shorter text is printed with the end of a longer one behind it.

Both programs are brought to the crate machine, also for capacities that their
semaphores cannot hold and for a crate with bytes of an earlier run.
-/

namespace Pvos.SemaphoresPr

open Pvos.Support

/-! ## The System V program as the crate machine -/

section Sysv

variable {P : Type*} {capacity : ℕ} {text : P → ℕ → Text} {p : P}

/-- What a statement does to the slots, and its events. -/
def SysvPc.effect (text : P → ℕ → Text) (p : P) (state : ℕ) (slots : Slots) :
    SysvPc → Slots × List (CrateEvent P)
  | .produce =>
      (storeItem slots state (text p state), [.produced p state (text p state)])
  | .read i => (slots, [.read p i (slotBytes slots i)])
  | _ => (slots, [])

theorem sysvStep_effect {interrupted : Bool} {g g' : SysvCrate} {pc : SysvPc}
    {buf : Memory} {l' : SysvLocal} {es : List (CrateEvent P)}
    (h : sysvStep capacity text p interrupted g ⟨pc, buf⟩ =
      some (g', l', es)) :
    (g'.slots, es) = pc.effect text p g.state g.slots := by
  cases pc with
  | produce =>
      simp only [sysvStep, storeItem_eq, Option.some.injEq, Prod.mk.injEq] at h
      obtain ⟨rfl, rfl, rfl⟩ := h
      rfl
  | read i =>
      simp only [sysvStep, Memory.bytes_memcpy, Option.some.injEq,
        Prod.mk.injEq] at h
      obtain ⟨rfl, rfl, rfl⟩ := h
      rfl
  | increment | reset =>
      simp only [sysvStep, Option.some.injEq, Prod.mk.injEq] at h
      obtain ⟨rfl, rfl, rfl⟩ := h
      rfl
  | compare =>
      simp only [sysvStep] at h
      split at h
      all_goals
        simp only [Option.some.injEq, Prod.mk.injEq] at h
        obtain ⟨rfl, rfl, rfl⟩ := h
        rfl
  | _ =>
      simp only [sysvStep, Option.map_eq_some_iff, Prod.mk.injEq] at h
      obtain ⟨sems, -, rfl, rfl, rfl⟩ := h
      rfl

theorem SysvPc.holdsMemory_toPosix (pc : SysvPc) :
    pc.toPosix.holdsMemory = pc.inside := by
  cases pc <;> rfl

/-- Every process is at a statement of its own loop, and a read is of a slot
of the crate. -/
structure SysvRoles (capacity : ℕ) (isProducer : P → Bool)
    (v : Config P SysvCrate SysvLocal) : Prop where
  ok : ∀ p, (v.loc p).pc.toPosix.Ok capacity
  role : ∀ p, (v.loc p).pc.toPosix.ofProducer = isProducer p

theorem SysvMoves.role {state state' : ℕ} {sems sems' : Sems} {pc pc' : SysvPc}
    (h : SysvMoves capacity sems state pc sems' state' pc') :
    pc'.toPosix.ofProducer = pc.toPosix.ofProducer ∧
      (pc.toPosix.Ok capacity → pc'.toPosix.Ok capacity) := by
  cases h with
  | downConsumer | read =>
      rw [SysvPc.toPosix_drainFrom]
      exact ⟨PosixPc.ofProducer_drainFrom _ _, fun _ => PosixPc.ok_drainFrom _ _⟩
  | _ => exact ⟨rfl, fun h => h⟩

variable [DecidableEq P] {isProducer : P → Bool}
  {v : Config P SysvCrate SysvLocal}

theorem SysvRoles.move (h : SysvRoles capacity isProducer v) {g' : SysvCrate}
    {l' : SysvLocal}
    (hstep : SysvMoves capacity v.shared.sems v.shared.state (v.loc p).pc
      g'.sems g'.state l'.pc) :
    SysvRoles capacity isProducer (Program.move v p g' l') := by
  obtain ⟨hrole, hok⟩ := hstep.role
  constructor
  · exact Program.forall_move
      (Q := fun _ (l : SysvLocal) => l.pc.toPosix.Ok capacity)
      (hok (h.ok p)) fun q _ => h.ok q
  · exact Program.forall_move
      (Q := fun q (l : SysvLocal) => l.pc.toPosix.ofProducer = isProducer q)
      (hrole.trans (h.role p)) fun q _ => h.role q

variable [Fintype P] {permits : ℕ} {a : CrateState P} {g' : SysvCrate}
  {l' : SysvLocal} {es : List (CrateEvent P)}

omit [DecidableEq P] in
theorem SysvInv.others_outside (h : SysvInv capacity permits v) {q : P}
    (hp : (v.loc p).pc.inside = 1) (hqp : q ≠ p) :
    ((toPosix capacity v).loc q).pc.holdsMemory = 0 := by
  have hq : (v.loc q).pc.inside = 0 := by
    by_contra hne
    exact hqp (h.alone (Nat.pos_of_ne_zero hne) (by omega))
  rw [← hq]
  exact SysvPc.holdsMemory_toPosix _

omit [DecidableEq P] in
theorem SysvInv.all_outside (h : SysvInv capacity permits v)
    (hfree : 1 ≤ v.shared.sems.memory) (q : P) :
    ((toPosix capacity v).loc q).pc.holdsMemory = 0 := by
  have hone := le_total (fun l : SysvLocal => l.pc.inside) v.loc q
  have hsum := h.memory
  have hq : (v.loc q).pc.inside = 0 := by omega
  rw [← hq]
  exact SysvPc.holdsMemory_toPosix _

/-- Every statement is a step of the machine or invisible to it. -/
theorem SysvInv.crate_step (hinv : SysvInv capacity permits v)
    (hle : permits ≤ capacity) (hroles : SysvRoles capacity isProducer v)
    (h : InPhase capacity (toPosix capacity v) a)
    (hstep : SysvMoves capacity v.shared.sems v.shared.state (v.loc p).pc
      g'.sems g'.state l'.pc)
    (heffect : (g'.slots, es) =
      (v.loc p).pc.effect text p v.shared.state v.shared.slots) :
    ∃ a', (crateSystem capacity text isProducer).Run a es a' ∧
      InPhase capacity (toPosix capacity (Program.move v p g' l')) a' := by
  rw [toPosix_move]
  have hinside : ∀ phase, phaseAt capacity v.shared.state p
      (v.loc p).pc.toPosix = some phase → a = ⟨phase, v.shared.slots⟩ :=
    fun _ => h.eq_of_inside
  have hok := hroles.ok p
  have hrole := hroles.role p
  have hothers := fun q => hinv.others_outside (p := p) (q := q)
  have hlt := hinv.state_lt hle (p := p)
  obtain ⟨sems', state', slots'⟩ := g'
  obtain ⟨pc', buf'⟩ := l'
  generalize (v.loc p).pc = pc at *
  obtain ⟨rfl, rfl⟩ : slots' = _ ∧ es = _ := Prod.ext_iff.mp heffect
  simp only at hstep
  cases hstep with
  | produce =>
      obtain rfl := hinside _ rfl
      exact ⟨_, .single (.produce _ p _ (hlt rfl) hrole.symm),
        .move_inside (fun q => hothers q rfl) rfl (Or.inl rfl)⟩
  | read i =>
      obtain rfl := hinside _ rfl
      refine ⟨_, .single (.read _ p i hok),
        .move_inside (fun q => hothers q rfl) rfl (Or.inl ?_)⟩
      rw [SysvLocal.toPosix_drainFrom]
      exact phaseAt_drainFrom hok
  | reset =>
      obtain rfl := hinside _ rfl
      exact ⟨_, .single (.finish _ p),
        .move_inside (fun q => hothers q rfl) rfl (Or.inl rfl)⟩
  | downProducer =>
      have hall := hinv.all_outside (by omega)
      obtain rfl := h.eq_of_outside hall
      exact ⟨_, .refl, .move_inside (fun q _ => hall q) rfl (Or.inl rfl)⟩
  | downConsumer =>
      have hall := hinv.all_outside (by omega)
      have hcrate : v.shared.state = capacity := by
        by_contra hne
        have hnone := hinv.room hne
        omega
      have ha : a = ⟨.filling v.shared.state, v.shared.slots⟩ :=
        h.eq_of_outside hall
      rw [hcrate] at ha
      subst ha
      refine ⟨_, .single (.begin _ p hrole.symm),
        .move_inside (fun q _ => hall q) rfl (Or.inl ?_)⟩
      rw [SysvLocal.toPosix_drainFrom]
      exact phaseAt_drainFrom (Nat.zero_le _)
  | upMemory | upProducer =>
      obtain rfl := hinside _ rfl
      exact ⟨_, .refl, .move_inside (fun q => hothers q rfl) rfl
        (Or.inr ⟨rfl, rfl⟩)⟩
  | _ =>
      obtain rfl := hinside _ rfl
      exact ⟨_, .refl, .move_inside (fun q => hothers q rfl) rfl (Or.inl rfl)⟩

/-- A run is one of the machine over the slots the crate had. -/
theorem sysv_crate_run {left : ℕ} (hleft : (left : ℤ) ≤ semvmx)
    {v₀ : Config P SysvCrate SysvLocal} {tr : List (CrateEvent P)}
    (hinit : SysvCreated capacity left isProducer v₀)
    (h : (sysvUninterrupted capacity left text isProducer).Run v₀ tr v) :
    ∃ a, (crateSystem capacity text isProducer).Run
      ⟨.filling 0, v₀.shared.slots⟩ tr a := by
  have hset := setValue_left capacity hleft
  have htracks : SysvInv capacity (setValue semvmx.toNat left capacity) v ∧
      SysvRoles capacity isProducer v ∧
      ∃ a, InPhase capacity (toPosix capacity v) a ∧
        (crateSystem capacity text isProducer).Run
          ⟨.filling 0, v₀.shared.slots⟩ tr a := by
    induction h with
    | refl =>
        refine ⟨sysvInv_created hinit, ?_, _, ?_, .refl⟩
        · obtain ⟨-, -, hpc⟩ := hinit
          refine ⟨fun p => ?_, fun p => ?_⟩
          · rw [hpc p]
            cases isProducer p <;> trivial
          · rw [hpc p]
            cases isProducer p <;> rfl
        · obtain ⟨-, hstate, hpc⟩ := hinit
          refine ⟨rfl, fun p phase hphase => ?_,
            fun _ => congrArg Phase.filling hstate.symm⟩
          have hnone : ((toPosix capacity v₀).loc p).pc.holdsMemory = 0 := by
            refine (SysvPc.holdsMemory_toPosix _).trans ?_
            rw [hpc p]
            cases isProducer p <;> rfl
          rw [phaseAt_eq_none hnone] at hphase
          simp at hphase
    | tail _ hstep ih =>
        obtain ⟨hinv, hroles, a, hphase, hrun⟩ := ih
        obtain ⟨p, interrupted, hok, hexec⟩ := hstep
        obtain ⟨g', l', hproc, rfl⟩ := Program.exec_eq_some hexec
        have hmoves := sysvStep_moves (hinv.sems_le hset.2) hok hproc
        obtain ⟨a', hrun', hphase'⟩ := hinv.crate_step hset.1 hroles hphase
          hmoves (sysvStep_effect hproc)
        exact ⟨hinv.move hset.1 hmoves, hroles.move hmoves, a', hphase',
          hrun.trans hrun'⟩
  obtain ⟨-, -, a, -, hrun⟩ := htracks
  exact ⟨a, hrun⟩

end Sysv

/-! ## The POSIX program as the crate machine -/

section Posix

variable {P : Type*} [Fintype P] [DecidableEq P] {capacity : ℕ}
  {text : P → ℕ → Text} {isProducer : P → Bool}
  {s : Config P PosixCrate PosixLocal} {tr : List (CrateEvent P)}

/-- Every history is one of the machine, also for a capacity that the producer
semaphore cannot hold. -/
theorem posix_crate_run
    (h : (posixUninterrupted capacity text isProducer).Exec tr s) :
    ∃ a, (crateSystem capacity text isProducer).Run
      ⟨.filling 0, fun _ _ => 0⟩ tr a := by
  obtain ⟨s₀, hinit, hrun⟩ := h
  by_cases hset : 1 ≤ capacity ∧ capacity ≤ semValueMax
  · obtain ⟨hshared, hpc⟩ := hinit
    rw [setValue, if_pos hset.2] at hshared
    have hexec : (posixSystem capacity text isProducer).Exec tr s := by
      refine ⟨s₀, ⟨hshared, hpc⟩, ?_⟩
      induction hrun with
      | refl => exact .refl
      | tail _ hstep ih =>
          obtain ⟨p, interrupted, hok, hexec⟩ := hstep
          refine ih.tail ⟨p, false, rfl, ?_⟩
          unfold Program.exec at hexec ⊢
          rwa [show (posixProgram capacity text).proc = posixStep capacity text
            from rfl, ← posixStep_uninterrupted hok]
    obtain ⟨a, ⟨a₀, rfl, hcrate⟩, -⟩ := (posix_simulation hset.1).exec hexec
    exact ⟨a, hcrate⟩
  · obtain rfl := (posixUninterrupted_final hset hinit).nil_of_run hrun
    exact ⟨_, .refl⟩

end Posix

/-! ## The texts of the producers -/

theorem items_short : ∀ word ∈ items,
    (∀ b ∈ ascii word, b ≠ 0) ∧ (ascii word).length ≤ 5 := by
  have hwords : ∀ word ∈ items, (ascii word).all (· != 0) = true ∧
      (ascii word).length ≤ 5 := by
    decide
  intro word hword
  obtain ⟨hall, hlength⟩ := hwords word hword
  exact ⟨ne_zero_of_all hall, hlength⟩

theorem itemAt_short (beyond : ℕ → Text) {i : ℕ} (hi : i < items.length) :
    (∀ b ∈ itemAt beyond i, b ≠ 0) ∧ (itemAt beyond i).length ≤ 5 := by
  have hitem : itemAt beyond i = ascii items[i] := by
    rw [itemAt, List.getElem?_eq_getElem hi]
    rfl
  rw [hitem]
  exact items_short _ (List.getElem_mem hi)

theorem length_producedText (beyond : ℕ → Text) (pid i : ℕ) :
    (producedText beyond pid i).length =
      (decimal pid).length + (itemAt beyond i).length + 3 := by
  have hopen : (ascii "(").length = 1 := rfl
  have hclose : (ascii ") ").length = 2 := rfl
  simp only [producedText, List.length_append, hopen, hclose]
  omega

/-- A pid of up to seven digits and an item of the table fit into a slot. -/
theorem producedText_fits (beyond : ℕ → Text) {pid i : ℕ} (hpid : pid < 10 ^ 7)
    (hi : i < items.length) : FitsSlot (producedText beyond pid i) := by
  obtain ⟨hnonzero, hlength⟩ := itemAt_short beyond hi
  constructor
  · intro b hb
    have hopen : ∀ c ∈ ascii "(", c ≠ 0 := ne_zero_of_all rfl
    have hclose : ∀ c ∈ ascii ") ", c ≠ 0 := ne_zero_of_all rfl
    simp only [producedText, List.mem_append] at hb
    rcases hb with ((hb | hb) | hb) | hb
    · exact hopen b hb
    · exact ne_of_mem_decimal hb (by decide) (by decide)
    · exact hclose b hb
    · exact hnonzero b hb
  · have hdigits := length_decimalNat_le_of_lt (by decide) hpid
    rw [length_producedText, decimal_natCast, maxCrateItemSize]
    omega

/-! ## What `%s` prints -/

/-- The string in a buffer of `size` bytes to whose front the bytes of a slot
were copied. -/
def printed (buf : Memory) (size : ℕ) (bytes : List UInt8) : Text :=
  (buf.write 0 bytes).cstring size 0

section Histories

variable {P : Type*}

/-- The rounds of a history; the last one need not be over. -/
def RoundsOf (capacity : ℕ) (tr : List (CrateEvent P))
    (rounds : List (Round P)) : Prop :=
  ∃ whole current, rounds = whole ++ [current] ∧
    (∀ r ∈ whole, r.Whole capacity) ∧ current.InOrder capacity ∧
    tr = rounds.flatMap Round.events

/-- Each string that a drain prints is the text stored in its round. -/
def PrintsItems (capacity : ℕ) (tr : List (CrateEvent P)) : Prop :=
  ∀ rounds, RoundsOf capacity tr rounds → ∀ r ∈ rounds,
    ∀ (i : ℕ) (p : P) (text : Text) (q : P) (bytes : List UInt8),
      r.items[i]? = some (p, text) → r.reads[i]? = some (q, bytes) →
      ∀ buf size, maxCrateItemSize ≤ size → printed buf size bytes = text

/-- No producer with a longer pid filled the slot in an earlier round, and the
byte behind the text was zero from the start. -/
def Covers (pid : P → ℕ) (slots : Slots) (earlier : List (Round P)) (i : ℕ)
    (p : P) (text : Text) : Prop :=
  (∀ r ∈ earlier, ∀ q item, r.items[i]? = some (q, item) →
    (decimal (pid q)).length ≤ (decimal (pid p)).length) ∧
  slots i text.length = 0

/-- A drain prints the item of its round if and only if its text covers those
of all earlier rounds. -/
def PrintsCovering (capacity : ℕ) (beyond : ℕ → Text) (pid : P → ℕ)
    (slots : Slots) (tr : List (CrateEvent P)) : Prop :=
  ∀ earlier r later, RoundsOf capacity tr (earlier ++ r :: later) →
    ∀ (i : ℕ) (p : P) (text : Text) (q : P) (bytes : List UInt8),
      i < items.length → r.items[i]? = some (p, text) →
      r.reads[i]? = some (q, bytes) → text = producedText beyond (pid p) i ∧
      ∀ buf size, maxCrateItemSize ≤ size →
        (printed buf size bytes = text ↔ Covers pid slots earlier i p text)

theorem Round.produced_mem {r : Round P} {i : ℕ} {p : P} {text : Text}
    (h : r.items[i]? = some (p, text)) : .produced p i text ∈ r.events := by
  obtain ⟨hi, heq⟩ := List.getElem?_eq_some_iff.mp h
  refine List.mem_append_left _ (List.mem_mapIdx.mpr ⟨i, hi, ?_⟩)
  rw [heq]

theorem mem_textAt {rounds : List (Round P)} {i : ℕ} {text : Text} :
    text ∈ rounds.filterMap (Round.textAt · i) ↔
      ∃ r ∈ rounds, ∃ e, r.items[i]? = some e ∧ e.2 = text := by
  simp [Round.textAt, List.mem_filterMap]

theorem crate_prints_covering {capacity : ℕ} {beyond : ℕ → Text}
    {pid : P → ℕ} (hpid : ∀ p, pid p < 10 ^ 7) {isProducer : P → Bool}
    {slots : Slots} {tr : List (CrateEvent P)} {a : CrateState P}
    (h : (crateSystem capacity (producerText beyond pid) isProducer).Run
      ⟨.filling 0, slots⟩ tr a) :
    PrintsCovering capacity beyond pid slots tr := by
  rintro earlier r later ⟨-, -, -, -, -, htr⟩ i p text q bytes hi hitem hread
  have hproduced : ∀ r' ∈ earlier ++ r :: later, ∀ p' item,
      r'.items[i]? = some (p', item) → item = producedText beyond (pid p') i := by
    intro r' hr' p' item hitem'
    refine (produced_of_run h ?_).1
    rw [htr]
    exact List.mem_flatMap.mpr ⟨r', hr', Round.produced_mem hitem'⟩
  have htext := hproduced r (by simp) p text hitem
  have hfits : ∀ item ∈ earlier.filterMap (Round.textAt · i),
      FitsSlot item := by
    intro item hmem
    obtain ⟨r', hr', e, hitem', rfl⟩ := mem_textAt.mp hmem
    rw [hproduced r' (List.mem_append_left _ hr') e.1 e.2 hitem']
    exact producedText_fits beyond (hpid _) hi
  refine ⟨htext, fun buf size hsize => ?_⟩
  obtain ⟨before, after, hr, htexts⟩ := Round.events_split hread
  have hsplit : tr = (earlier.flatMap Round.events ++ before) ++
      .read q i bytes :: (after ++ later.flatMap Round.events) := by
    rw [htr, List.flatMap_append, List.flatMap_cons, hr]
    simp
  have htextAt : r.textAt i = some text := by rw [Round.textAt, hitem]; rfl
  rw [hsplit] at h
  have hbytes := read_of_run h
  rw [slotTexts_append, slotTexts_rounds, htexts, htextAt] at hbytes
  have hlen : bytes.length = maxCrateItemSize := by
    rw [hbytes, Memory.length_bytes]
  have hfront : (buf.write 0 bytes).bytes 0 maxCrateItemSize = bytes := by
    rw [Memory.bytes_write_take _ _ hlen.ge, List.take_of_length_le hlen.le]
  have hall := List.forall_mem_append.mpr ⟨hfits, List.forall_mem_singleton.mpr
    (htext ▸ producedText_fits beyond (hpid p) hi)⟩
  rw [printed, cstring_slotAfter_iff hall hsize (hfront.trans hbytes), Covers]
  refine and_congr_left fun _ => ⟨fun hall r' hr' q' item hitem' => ?_,
    fun hall item hmem => ?_⟩
  · have hle := hall item (mem_textAt.mpr ⟨r', hr', (q', item), hitem', rfl⟩)
    rw [htext, hproduced r' (List.mem_append_left _ hr') q' item hitem',
      length_producedText, length_producedText] at hle
    omega
  · obtain ⟨r', hr', ⟨q', item'⟩, hitem', rfl⟩ := mem_textAt.mp hmem
    have hle := hall r' hr' q' item' hitem'
    rw [htext, hproduced r' (List.mem_append_left _ hr') q' item' hitem',
      length_producedText, length_producedText]
    omega

theorem exists_roundsOf {capacity : ℕ} {tr : List (CrateEvent P)}
    (h : InRounds capacity tr) : ∃ rounds, RoundsOf capacity tr rounds := by
  obtain ⟨whole, current, hwhole, hcurrent, htr⟩ := h
  exact ⟨whole ++ [current], whole, current, rfl, hwhole, hcurrent,
    by simpa using htr⟩

end Histories

/-- In every run in which no wait is interrupted, with any producers, pids of
up to seven digits and any number of rounds: the history consists of rounds,
and a drain prints the text of its round for a slot if and only if no producer
with a longer pid has filled the slot before, and the crate had a zero behind
the text from the start. -/
theorem drain_prints_iff {P : Type*} [Fintype P] [DecidableEq P]
    (capacity left : ℕ) (hleft : (left : ℤ) ≤ semvmx) (beyond : ℕ → Text)
    (pid : P → ℕ) (hpid : ∀ p, pid p < 10 ^ 7) (isProducer : P → Bool) :
    (∀ tr s, (posixUninterrupted capacity (producerText beyond pid)
        isProducer).Exec tr s →
      (∃ rounds, RoundsOf capacity tr rounds) ∧
        PrintsCovering capacity beyond pid (fun _ _ => 0) tr) ∧
    ∀ v₀ tr v, SysvCreated capacity left isProducer v₀ →
      (sysvUninterrupted capacity left (producerText beyond pid)
        isProducer).Run v₀ tr v →
      (∃ rounds, RoundsOf capacity tr rounds) ∧
        PrintsCovering capacity beyond pid v₀.shared.slots tr := by
  constructor
  · intro tr s h
    obtain ⟨a, hrun⟩ := posix_crate_run h
    exact ⟨exists_roundsOf (run_inRounds hrun), crate_prints_covering hpid hrun⟩
  · intro v₀ tr v hinit h
    obtain ⟨a, hrun⟩ := sysv_crate_run hleft hinit h
    exact ⟨exists_roundsOf (run_inRounds hrun), crate_prints_covering hpid hrun⟩

/-! ## A longer pid before a shorter one -/

/-- Two producers, the first one with the longer pid, and a consumer. -/
inductive Trio
  | long
  | short
  | drain
  deriving DecidableEq

instance : Fintype Trio :=
  ⟨{.long, .short, .drain}, fun p => by cases p <;> decide⟩

def threePids : Trio → ℕ
  | .long => 12
  | .short => 7
  | .drain => 9

/-- Producers 12 and 7 and a consumer of a crate of one item. -/
def longThenShort : Config Trio PosixCrate PosixLocal where
  shared := ⟨0, 1, 1, 0, fun _ _ => 0⟩
  loc p := ⟨.start (p ≠ .drain), fun _ => 0⟩

/-- The same with System V semaphores. -/
def longThenShortSysv : Config Trio SysvCrate SysvLocal where
  shared := ⟨semsOf 0 1 1, 0, fun _ _ => 0⟩
  loc p := ⟨.start (p ≠ .drain), fun _ => 0⟩

/-- The bytes of a slot with a text and zeros behind it. -/
def slotWith (text : String) : List UInt8 :=
  ascii text ++ List.replicate (maxCrateItemSize - text.length) 0

/-- A round with the longer pid. -/
def longRound : Round Trio :=
  ⟨[(.long, ascii "(12) one")], [(.drain, slotWith "(12) one")]⟩

/-- The shorter text leaves the last byte of the longer one. -/
def shortRound : Round Trio :=
  ⟨[(.short, ascii "(7) one")], [(.drain, slotWith "(7) onee")]⟩

def longThenShortRounds : List (Round Trio) := [longRound] ++ [shortRound]

theorem Round.whole_one {P : Type*} {p q : P} {text : Text}
    {bytes : List UInt8} (h : text.take maxCrateItemSize <+: bytes) :
    Round.Whole 1 ⟨[(p, text)], [(q, bytes)]⟩ := by
  refine ⟨⟨Nat.le_refl _, Nat.le_refl _, fun _ => rfl, ?_, ?_⟩, rfl, rfl⟩
  · intro e he e' he'
    rw [List.mem_singleton.mp he, List.mem_singleton.mp he']
  · intro i hi hr
    obtain rfl : i = 0 := Nat.lt_one_iff.mp hi
    exact h

theorem roundsOf_longThenShort : RoundsOf 1
    (longThenShortRounds.flatMap Round.events) longThenShortRounds := by
  refine ⟨_, _, rfl, fun r hr => ?_, (Round.whole_one ?_).toInOrder, rfl⟩
  · rw [List.mem_singleton.mp hr]
    exact Round.whole_one (by decide)
  · decide

/-- Both programs show these rounds. -/
theorem longThenShort_exec :
    (∃ s, (posixUninterrupted 1 (producerText (fun _ => []) threePids)
        (· ≠ .drain)).Exec (longThenShortRounds.flatMap Round.events) s) ∧
      ∃ v, (sysvUninterrupted 1 0 (producerText (fun _ => []) threePids)
        (· ≠ .drain)).Run longThenShortSysv
          (longThenShortRounds.flatMap Round.events) v := by
  have hposix : (posixUninterrupted 1 (producerText (fun _ => []) threePids)
      (· ≠ .drain)).Exec (longThenShortRounds.flatMap Round.events) _ :=
    ⟨longThenShort, ⟨rfl, fun _ => rfl⟩, Program.run_of_runScheduleWhen
      (List.replicate 7 (.long, false) ++ List.replicate 6 (.drain, false) ++
        List.replicate 7 (.short, false) ++ List.replicate 3 (.drain, false)) rfl⟩
  have hsysv : (sysvUninterrupted 1 0 (producerText (fun _ => []) threePids)
      (· ≠ .drain)).Run longThenShortSysv
        (longThenShortRounds.flatMap Round.events) _ :=
    Program.run_of_runScheduleWhen
      (List.replicate 6 (.long, false) ++ List.replicate 4 (.drain, false) ++
        List.replicate 6 (.short, false) ++ List.replicate 2 (.drain, false)) rfl
  exact ⟨⟨_, hposix⟩, _, hsysv⟩

/-- The first round is printed as it was stored, in the second one the drain
prints a text that nobody stored. -/
theorem drain_prints_iff_twice :
    (∃ s, (posixUninterrupted 1 (producerText (fun _ => []) threePids)
        (· ≠ .drain)).Exec (longThenShortRounds.flatMap Round.events) s) ∧
      (∃ v, (sysvUninterrupted 1 0 (producerText (fun _ => []) threePids)
        (· ≠ .drain)).Run longThenShortSysv
          (longThenShortRounds.flatMap Round.events) v) ∧
      PrintsCovering 1 (fun _ => []) threePids (fun _ _ => 0)
        (longThenShortRounds.flatMap Round.events) ∧
      printed (fun _ => 0) 128 (slotWith "(12) one") = ascii "(12) one" ∧
      printed (fun _ => 0) 128 (slotWith "(7) onee") ≠ ascii "(7) one" := by
  obtain ⟨⟨s, hexec⟩, v, hrun⟩ := longThenShort_exec
  have h := drain_prints_iff 1 0 (by decide) (fun _ => []) threePids
    (by decide) (· ≠ Trio.drain)
  have hposix := (h.1 _ _ hexec).2
  have hsysv := (h.2 _ _ _ ⟨rfl, rfl, fun _ => rfl⟩ hrun).2
  refine ⟨⟨s, hexec⟩, ⟨v, hrun⟩, hposix, ?_, fun hprinted => ?_⟩
  · refine ((hposix [] longRound [shortRound] roundsOf_longThenShort 0
      .long _ .drain _ (by decide) rfl rfl).2 _ _ (by decide)).mpr ⟨by simp, rfl⟩
  · have hcovers := ((hsysv [longRound] shortRound [] roundsOf_longThenShort 0 .short
      _ .drain _ (by decide) rfl rfl).2 _ _ (by decide)).mp hprinted
    exact absurd (hcovers.1 longRound (by simp) .long _ rfl) (by decide)

/-- What `printed` shows of the second round. -/
theorem printed_shortRound :
    printed (fun _ => 0) 128 (slotWith "(7) onee") = ascii "(7) onee" :=
  Memory.cstring_of_bytes (n := 9) (ne_zero_of_all rfl) (by decide) (by decide)

/-- Both programs print "(7) onee" for the item "(7) one". -/
theorem drain_prints_longer :
    (∃ tr s, (posixUninterrupted 1 (producerText (fun _ => []) threePids)
        (· ≠ .drain)).Exec tr s ∧ ¬ PrintsItems 1 tr) ∧
      ∃ v₀ tr v, SysvCreated 1 0 (· ≠ .drain) v₀ ∧
        (sysvUninterrupted 1 0 (producerText (fun _ => []) threePids)
          (· ≠ .drain)).Run v₀ tr v ∧ ¬ PrintsItems 1 tr := by
  have hfalse : ¬ PrintsItems 1 (longThenShortRounds.flatMap Round.events) := by
    intro h
    have heq := h _ roundsOf_longThenShort shortRound (by simp [longThenShortRounds])
      0 .short _ .drain _ rfl rfl (fun _ => 0) 128 (by decide)
    rw [printed_shortRound] at heq
    exact absurd heq (by decide)
  obtain ⟨⟨s, hexec⟩, v, hrun⟩ := longThenShort_exec
  exact ⟨⟨_, s, hexec, hfalse⟩, _, _, v, ⟨rfl, rfl, fun _ => rfl⟩, hrun, hfalse⟩

end Pvos.SemaphoresPr
