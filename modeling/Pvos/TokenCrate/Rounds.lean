import Pvos.Support.Steps
import Pvos.TokenCrate.OverRings

/-!
# `custom_queue.cpp` keeps printing

No process of `custom_queue.cpp` waits anywhere but at the head of its loop, and
some process can always go on.  Whatever the scheduler does, a number of
statements that depends on the processes and the crate alone is enough for a
consumer to print the next line.
-/

namespace Pvos.TokenCrate

open Pvos.Support Pvos.CustomQueue

/-! ## Nobody waits in the middle of a round -/

/-- What the queues promise to processes that take turns. -/
structure QueuesReady {P : Type*} (q : MQueue)
    (v : Config P Queues (LoopLocal Unit)) : Prop where
  turns : TakesTurns v
  fits : ∀ p point, (v.loc p).pc = .send point → Fits q (v.loc p).msgbuf
  room : ∀ p point, (v.loc p).pc = .send point →
    (v.shared point.channel).length < q.cap
  items : ∀ p i, (v.loc p).pc = .recv (.item i) → v.shared .crate ≠ []
  drains : ∀ p r i j, (v.loc p).pc = .recv (.item i) →
    (v.loc r).pc = .recv (.item j) → p = r
  no_fault : ∀ p, (v.loc p).pc ≠ .fault

/-- What every run over the rings keeps. -/
structure RingsInOrder {P : Type*} [DecidableEq P] (q : MQueue) (cap : ℕ)
    (pid : P → ℕ) (role : P → Role) (starter : P) (tr : List (LoopEvent P))
    (c : Config P Rings RingLocal) : Prop where
  alone : ∀ p r, (c.loc p).op.pc.inFlight ≠ 0 →
    (c.loc r).op.pc.inFlight ≠ 0 → p = r
  mutex : ∀ p ch, (c.loc p).pc.channel = some ch →
    (c.loc p).op.pc.inFlight ≠ 0 → (c.loc p).op.pc.holdsMutex = 0 →
    0 < (c.shared ch).semMutex
  room : ∀ p ch msg, (c.loc p).pc.channel = some ch →
    (c.loc p).op.pc = .sendWaitFull msg → 0 < (c.shared ch).semFull
  items : ∀ p i, (c.loc p).pc = .recv (.item i) →
    (c.loc p).op.pc = .recvWaitEmpty → 0 < (c.shared .crate).semEmpty
  fits : ∀ p point, (c.loc p).pc = .send point →
    ((c.loc p).op.msgbuf.cstring q.maxMSize 0).length < q.maxMSize
  no_fault : ∀ p, (c.loc p).pc ≠ .fault
  batch : ∀ p i, (c.loc p).pc = .recv (.item i) →
    (batchOf p tr).length = i ∧ AreItems pid role 0 (batchOf p tr)
  -- a consumer that starts sends the first token from here
  whole_batch : ∀ p, (c.loc p).pc = .send .restart → tr = [] ∧ p = starter ∨
    (batchOf p tr).length = cap ∧ AreItems pid role 0 (batchOf p tr)
  progress : (∃ p, role p = .producer) → (∃ p, role p = .consumer) →
    ∃ es c', (ringsSystem q cap pid role starter).step c es c'

section Order

variable {P : Type*} [Fintype P] [DecidableEq P] {q : MQueue} {cap : ℕ}
  {pid : P → ℕ} {role : P → Role} {starter turn p : P}
  {c : Config P Rings RingLocal} {v s : Config P Queues (LoopLocal Unit)}
  {tr : List (LoopEvent P)} {tok : Token P}

omit [Fintype P] in
theorem TokenInv.ready (hcap : 1 ≤ cap) (h8 : cap ≤ 8) (hroom : cap ≤ q.cap)
    (hsize : 20 ≤ q.maxMSize) (hpid : ∀ p, pid p < 2 ^ 31)
    (h : TokenInv cap pid role tr tok v) : QueuesReady q v where
  turns := h.takesTurns
  fits _ _ := h.fits hsize h8 hpid
  room _ _ := h.send_room hcap hroom
  items _ _ := h.item_present
  drains p r i j hp hr := by
    have hdraining := h.draining_of_pc hp
    rw [h.draining_of_pc hr] at hdraining
    simpa using congrArg Token.holder hdraining.symm
  no_fault := h.no_fault

omit [Fintype P] in
theorem Starting.ready (h8 : cap ≤ 8) (hpos : 0 < q.cap)
    (hsize : 20 ≤ q.maxMSize) (h : Starting cap role starter v s) :
    QueuesReady q v := by
  have hitem : ∀ p i, (v.loc p).pc ≠ .recv (.item i) := by
    intro p i hpc
    by_cases hp : p = starter
    · rw [hp, h.starter_pc] at hpc
      contradiction
    · rw [h.waiting p hp] at hpc
      cases hrole : role p <;> simp [hrole, Role.waiting] at hpc
  refine ⟨h.takesTurns, ?_, ?_, fun p i hpc => absurd hpc (hitem p i),
    fun p _ i _ hpc _ => absurd hpc (hitem p i), ?_⟩
  · intro p point hpc
    by_cases hp : p = starter
    · rw [hp, h.starter_text]
      exact fits_tokenText hsize (b := 0) h8 (by omega)
    · exact absurd (Or.inl ⟨point, hpc⟩) (h.not_acting hp)
  · intro p point _
    rw [h.empty]
    exact hpos
  · intro p hpc
    by_cases hp : p = starter
    · rw [hp, h.starter_pc] at hpc
      contradiction
    · rw [h.waiting p hp] at hpc
      cases hrole : role p <;> simp [hrole, Role.waiting] at hpc

omit [DecidableEq P] in
/-- A process that alone can go on over the queues has its turn. -/
theorem Refines.turn_of_alone (h : Refines q turn c v)
    (halone : ∀ r, r ≠ p → ¬ Acting v r) : Refines q p c v := by
  by_cases hp : p = turn
  · rwa [hp]
  · have hfree : (c.loc turn).op.pc.inFlight = 0 :=
      by_contra fun hflight => halone turn (Ne.symm hp) (h.acting hflight)
    exact h.pass_turn hfree (h.outside p hp)

omit [Fintype P] [DecidableEq P] in
theorem QueuesReady.sender_alone (h : QueuesReady q v) {point : SendPoint}
    (hpc : (v.loc p).pc = .send point) (r : P) (hr : r ≠ p) :
    ¬ Acting v r := by
  intro hacts
  obtain ⟨-, point', -, hrecv, -⟩ := h.turns r p hr hacts (Or.inl ⟨point, hpc⟩)
  rw [hpc] at hrecv
  contradiction

omit [Fintype P] [DecidableEq P] in
theorem QueuesReady.drainer_alone (h : QueuesReady q v) {i : ℕ}
    (hpc : (v.loc p).pc = .recv (.item i)) (r : P) (hr : r ≠ p) :
    ¬ Acting v r := by
  intro hacts
  obtain ⟨point, point', hpoint, hpoint', hsame, -⟩ :=
    h.turns r p hr hacts (Or.inr ⟨.item i, hpc, h.items p i hpc⟩)
  obtain rfl : point' = .item i := by simpa [hpc] using hpoint'.symm
  cases point with
  | item j => exact hr (h.drains r p j i hpoint hpc)
  | _ => simp at hsame

theorem Refines.exists_step (hready : QueuesReady q v)
    (h : Refines q turn c v) (hp : Acting v p) :
    ∃ es c', (ringsSystem q cap pid role starter).step c es c' := by
  have hstep : ∀ r, Refines q r c v → Acting v r →
      ∃ es c', (ringsSystem q cap pid role starter).step c es c' := by
    intro r hrefines hacts
    obtain ⟨rings, next, es, hnext⟩ :=
      hrefines.enabled pid hacts (hready.room r)
    exact Program.exists_step_of_proc (m := ringsProgram q pid) (c := ()) hnext
  by_cases hflight : (c.loc turn).op.pc.inFlight = 0
  · refine hstep p ?_ hp
    by_cases hpt : p = turn
    · rwa [hpt]
    · exact h.pass_turn hflight (h.outside p hpt)
  · exact hstep turn h (h.acting hflight)

theorem Refines.inOrder (hready : QueuesReady q v) (h : Refines q turn c v)
    (hbatch : ∀ p i, (v.loc p).pc = .recv (.item i) →
      (batchOf p tr).length = i ∧ AreItems pid role 0 (batchOf p tr))
    (hwhole : ∀ p, (v.loc p).pc = .send .restart → tr = [] ∧ p = starter ∨
      (batchOf p tr).length = cap ∧ AreItems pid role 0 (batchOf p tr))
    (hprogress : (∃ p, role p = .producer) → (∃ p, role p = .consumer) →
      ∃ p, Acting v p) : RingsInOrder q cap pid role starter tr c := by
  have hpcs : ∀ p, (c.loc p).pc = (v.loc p).pc := fun p => (h.vars p).pc
  constructor
  · intro p r hp hr
    rw [h.eq_turn hp, h.eq_turn hr]
  · intro p ch hch hflight hmutex
    obtain rfl := h.eq_turn hflight
    have hpermits := (h.permits ch).2.2
    rw [RingLocal.opAt_self hch] at hpermits
    omega
  · intro p ch msg hch hwait
    obtain ⟨point, hpoint⟩ := (h.serves p).send (by rw [hwait]; rfl)
    obtain rfl : point.channel = ch := by
      simpa [hpoint, LoopPc.channel] using hch
    have hpc : (v.loc p).pc = .send point := hpcs p ▸ hpoint
    have hpermits :=
      ((h.turn_of_alone (hready.sender_alone hpc)).permits point.channel).2.1
    rw [RingLocal.opAt_self hch, hwait,
      show (OpPc.sendWaitFull msg).sending = 0 from rfl] at hpermits
    have := hready.room p point hpc
    omega
  · intro p i hpoint hwait
    have hpc : (v.loc p).pc = .recv (.item i) := hpcs p ▸ hpoint
    have hpermits :=
      ((h.turn_of_alone (hready.drainer_alone hpc)).permits .crate).1
    rw [RingLocal.opAt_self (by rw [hpoint]; rfl), hwait,
      show OpPc.recvWaitEmpty.receiving = 0 from rfl] at hpermits
    have := List.length_pos_of_ne_nil (hready.items p i hpc)
    omega
  · intro p point hpoint
    have hpc : (v.loc p).pc = .send point := hpcs p ▸ hpoint
    rw [(h.vars p).msgbuf point hpc]
    exact (hready.fits p point hpc).2
  · intro p
    rw [hpcs p]
    exact hready.no_fault p
  · intro p i hpoint
    exact hbatch p i (hpcs p ▸ hpoint)
  · intro p hpoint
    exact hwhole p (hpcs p ▸ hpoint)
  · intro hproducer hconsumer
    obtain ⟨p, hp⟩ := hprogress hproducer hconsumer
    exact h.exists_step hready hp

end Order

/-- Over its own rings at most one process of `custom_queue.cpp` is inside a
queue operation beyond its first wait, none waits there or in the middle of a
round, every text ends inside `msgbuf`, the items of a batch come in order and
the batch is whole behind the last of them, and some process can go on. -/
theorem rings_in_order {P : Type*} [Fintype P] [DecidableEq P] (q : MQueue)
    {cap : ℕ} (hcap : 1 ≤ cap) (h8 : cap ≤ 8) (hroom : cap ≤ q.cap)
    (hlt : q.cap < uintModulus) (hsize : 20 ≤ q.maxMSize) (pid : P → ℕ)
    (hpid : ∀ p, pid p < 2 ^ 31) (role : P → Role) (starter : P)
    {tr : List (LoopEvent P)} {c : Config P Rings RingLocal}
    (h : (ringsSystem q cap pid role starter).Exec tr c) :
    RingsInOrder q cap pid role starter tr c := by
  have hpos : 0 < q.cap := by omega
  obtain ⟨turn, s, ⟨hrefines, tok, hinv⟩ | ⟨rfl, v, hrefines, hstart⟩⟩ :=
    rings_exec hcap h8 hpos hlt hsize hpid h
  · refine hrefines.inOrder (hinv.ready hcap h8 hroom hsize hpid) ?_ ?_ ?_
    · intro p i hpc
      obtain rfl := hinv.draining_of_pc hpc
      exact hinv.batch p i rfl
    · intro p hpc
      obtain rfl := hinv.drained_of_pc hpc
      exact Or.inr (hinv.batch p cap rfl)
    · rintro ⟨producer, hproducer⟩ ⟨consumer, hconsumer⟩
      obtain ⟨es, s', hstep⟩ := hinv.progress hcap hroom hproducer hconsumer
      obtain ⟨p, call, hexec⟩ := Program.system_step_iff.mp hstep
      obtain ⟨g, a, hproc, -⟩ := Program.exec_eq_some hexec
      exact ⟨p, (acting_of_loopStep hproc).1⟩
  · have hready := hstart.ready h8 hpos hsize
    refine hrefines.inOrder hready ?_ ?_ fun _ _ =>
      ⟨starter, Or.inl ⟨_, hstart.starter_pc⟩⟩
    · intro p i hpc
      exact absurd (hstart.empty .crate) (hready.items p i hpc)
    · intro p hpc
      exact Or.inl ⟨rfl, by_contra fun hp =>
        hstart.not_acting hp (Or.inl ⟨_, hpc⟩)⟩

/-- A crate for two items: the producer sends the first token, puts both items
into the crate and tells the consumer, which prints them. -/
def twoItemSchedule : List (Bool × Unit) :=
  List.replicate 49 (true, ()) ++ List.replicate 21 (false, ())

theorem rings_in_order_two_items :
    ∃ tr c, (ringsSystem mainQueue 2 (fun _ => 7) pairRole true).Exec tr c ∧
      (c.loc false).pc = .send .restart ∧
      batchOf false tr = [ascii "(7): jedna", ascii "(7): dva"] ∧
      RingsInOrder mainQueue 2 (fun _ => 7) pairRole true tr c := by
  have hinit : RingsInit mainQueue 2 pairRole true
      (freshRings mainQueue 2 pairRole true
        ⟨fun _ => [], fun _ => ⟨.fault, 0, 0, [], ()⟩⟩) :=
    freshRings_init (by decide) (by decide)
  have hexec : (ringsSystem mainQueue 2 (fun _ => 7) pairRole true).Exec _ _ :=
    ⟨_, hinit, Program.run_of_runSchedule twoItemSchedule rfl⟩
  exact ⟨_, _, hexec, by decide +kernel, by decide +kernel,
    rings_in_order mainQueue (by decide) (by decide) (by decide) (by decide)
      (by decide) _ (fun _ => by decide) _ _ hexec⟩

/-! ## Statements without events -/

/-- The statements behind an operation that shows nothing. -/
def LoopPc.unseen : LoopPc → ℕ
  | .send .full | .send .token | .send .restart => 7
  | _ => 0

/-- The statements a process can make without showing anything. -/
def RingLocal.silent (l : RingLocal) : ℕ :=
  l.op.pc.remaining + l.pc.unseen

theorem OpPc.remaining_pos (pc : OpPc) : 1 ≤ pc.remaining ∧ pc.remaining ≤ 7 := by
  cases pc <;> simp [OpPc.remaining]

theorem RingLocal.silent_le (l : RingLocal) : 1 ≤ l.silent ∧ l.silent ≤ 14 := by
  have h := OpPc.remaining_pos l.op.pc
  have hunseen : l.pc.unseen ≤ 7 := by
    unfold LoopPc.unseen
    split <;> decide
  unfold silent
  omega

section Silent

variable {P : Type*} {q : MQueue} {pid : P → ℕ} {p : P} {g g' : Rings}
  {l l' : RingLocal} {es : List (LoopEvent P)}

/-- A statement that shows nothing brings its process closer to an event. -/
theorem silent_lt (h : ringsStep q pid p g l = some (g', l', [])) :
    l'.silent < l.silent := by
  obtain ⟨ch, call, r, op, rs, hcall, hop, rfl, hcases⟩ := ringsStep_cases h
  rcases hcases with ⟨hidle, rfl, -⟩ | ⟨hidle, hnext⟩
  · exact Nat.add_lt_add_right ((opStep_cases hop).remaining_lt hidle) _
  · have hpos := (OpPc.remaining_pos l.op.pc).1
    cases hpc : l.pc with
    | send point =>
        simp only [RingLocal.behindCall, hpc, Prod.mk.injEq] at hnext
        obtain ⟨rfl, hes⟩ := hnext
        cases point with
        | item =>
            simp only [LoopLocal.afterSend] at hes
            split at hes <;> simp at hes
        | _ =>
            have hunseen : l.pc.unseen = 7 := by rw [hpc]; rfl
            change 7 + 0 < l.op.pc.remaining + l.pc.unseen
            omega
    | recv point =>
        simp only [RingLocal.behindCall, hpc, Prod.mk.injEq] at hnext
        have hes := hnext.2
        cases point with
        | token =>
            simp only [LoopLocal.afterRecv] at hes
            split at hes <;> simp at hes
        | full => simp [LoopLocal.afterRecv] at hes
        | item i => simp [LoopLocal.afterRecv] at hes
    | fault => simp [RingLocal.call, hpc] at hcall

/-- The statements of all processes between two events. -/
theorem steps_le_events [Fintype P] [DecidableEq P] {cap : ℕ} {role : P → Role}
    {starter : P} {c c' : Config P Rings RingLocal} {n : ℕ}
    {tr : List (LoopEvent P)}
    (h : (ringsSystem q cap pid role starter).Steps c n tr c') :
    n ≤ 14 * Fintype.card P + 14 * tr.length := by
  have hrank := h.rank_le (fun _ => True) (fun c => total RingLocal.silent c.loc)
    (fun tr => 14 * tr.length) (by simp [Nat.mul_add]) (by
      rintro c es c' - hstep
      refine ⟨trivial, ?_⟩
      obtain ⟨p, call, hexec⟩ := Program.system_step_iff.mp hstep
      obtain ⟨rings, next, hproc, rfl⟩ := Program.exec_eq_some hexec
      have htotal := total_update RingLocal.silent c.loc p next
      have hnext := next.silent_le
      have hp := (c.loc p).silent_le
      simp only [Program.move_loc]
      cases es with
      | nil =>
          have hless := silent_lt hproc
          rw [List.length_nil]
          omega
      | cons e es =>
          rw [List.length_cons]
          omega) trivial
  have hcard : total RingLocal.silent c.loc ≤ 14 * Fintype.card P :=
    total_le_mul_card fun p => (c.loc p).silent_le.2
  omega

end Silent

/-! ## Operations without a printed line -/

/-- Whether a line is printed. -/
def LoopEvent.isPrinted {P : Type*} : LoopEvent P → Bool
  | .printed _ _ => true
  | _ => false

/-- The lines printed in a history. -/
def printedLines {P : Type*} (tr : List (LoopEvent P)) : ℕ :=
  tr.countP LoopEvent.isPrinted

/-- How far a process is from the next line, as far as it goes. -/
def LoopPc.distance : LoopPc → ℕ
  | .recv .token => 2
  | .send .item => 1
  | .send .token | .send .full => 3
  | .recv .full => 1
  | .recv (.item _) => 0
  | .send .restart => 2
  | .fault => 0

/-- The operations up to the next line: four for every place in the crate, and
those of the processes. -/
def toNextLine {P : Type*} [Fintype P] (cap : ℕ)
    (s : Config P Queues (LoopLocal Unit)) : ℕ :=
  4 * (cap - (s.shared .crate).length) +
    total (fun l : LoopLocal Unit => l.pc.distance) s.loc

section Lines

variable {P : Type*} [Fintype P] [DecidableEq P] {room cap : ℕ} {pid : P → ℕ}
  {role : P → Role} {s s' : Config P Queues (LoopLocal Unit)}
  {tr es : List (LoopEvent P)}

omit [Fintype P] in
theorem crate_le (hcap : 1 ≤ cap) (h8 : cap ≤ 8)
    (h : (fifoSystem room cap pid role).Exec tr s) :
    (s.shared .crate).length ≤ cap := by
  obtain ⟨tok, hinv⟩ := tokenInv_run hcap h8 h
  rw [hinv.length]
  exact Token.count_le hinv.valid

omit [Fintype P] in
/-- A consumer that was told of a full crate reads an item. -/
theorem not_restart_of_received (hcap : 1 ≤ cap) (h8 : cap ≤ 8) {p : P}
    (h : (fifoSystem room cap pid role).Exec (tr ++ [.received p]) s) :
    (s.loc p).pc ≠ .send .restart := by
  obtain ⟨tok, hinv⟩ := tokenInv_run hcap h8 h
  intro hpc
  obtain rfl := hinv.drained_of_pc hpc
  have hbatch := (hinv.batch p cap rfl).1
  rw [batchOf_append_received, List.length_nil] at hbatch
  omega

omit [Fintype P] [DecidableEq P] in
/-- A `send` brings its process closer to a line, but for the `send` of an item,
which the crate pays for. -/
theorem distance_afterSend (p : P) (l : LoopLocal Unit) (point : SendPoint) :
    printedLines (l.afterSend p point).2 = 0 ∧
      (l.afterSend p point).1.pc.distance + 1 ≤
        (LoopPc.send point).distance + if point = .item then 3 else 0 := by
  cases point with
  | item =>
      unfold LoopLocal.afterSend
      dsimp only
      split <;> exact ⟨rfl, Nat.le_refl 4⟩
  | full => exact ⟨rfl, Nat.le_refl 3⟩
  | token => exact ⟨rfl, Nat.le_refl 3⟩
  | restart => exact ⟨rfl, Nat.le_refl 2⟩

omit [Fintype P] [DecidableEq P] in
theorem distance_afterToken (pid : P → ℕ) (p : P) (l : LoopLocal Unit)
    (text : Text) :
    printedLines (l.afterRecv pid p text .token).2 = 0 ∧
      (l.afterRecv pid p text .token).1.pc.distance + 1 ≤
        (LoopPc.recv .token).distance := by
  unfold LoopLocal.afterRecv
  dsimp only
  split
  · exact ⟨rfl, Nat.le_refl 2⟩
  · exact ⟨rfl, Nat.le_succ 1⟩

omit [Fintype P] [DecidableEq P] in
theorem pc_drainFrom (l : LoopLocal Unit) (i : ℕ) :
    (l.drainFrom i).pc = .recv (.item i) ∨
      (l.drainFrom i).pc = .send .restart := by
  unfold LoopLocal.drainFrom
  split
  · exact Or.inl rfl
  · exact Or.inr rfl

omit [Fintype P] [DecidableEq P] in
/-- One operation on the queues. -/
theorem loopStep_distance {p : P} {q g : Queues} {l a : LoopLocal Unit}
    (h : loopStep (fifoApi room) pid p q l = some (g, a, es))
    (hroom : (g .crate).length ≤ cap)
    (hrestart : es = [.received p] → a.pc ≠ .send .restart) :
    4 * (cap - (g .crate).length) + a.pc.distance + 1 ≤
      4 * (cap - (q .crate).length) + l.pc.distance + 7 * printedLines es := by
  cases hpc : l.pc with
  | send point =>
      obtain ⟨rfl, hnext⟩ := loopStep_send hpc h
      have hafter := distance_afterSend p l point
      rw [← hnext] at hafter
      dsimp only at hafter
      cases point with
      | item =>
          rw [SendPoint.channel, Function.update_self, List.length_append,
            List.length_singleton] at hroom ⊢
          rw [if_pos rfl] at hafter
          omega
      | _ =>
          rw [SendPoint.channel, Function.update_of_ne (by decide)]
          rw [if_neg (by decide)] at hafter
          omega
  | recv point =>
      obtain ⟨text, rest, hitem, rfl, hnext⟩ := loopStep_recv hpc h
      cases point with
      | token =>
          have hafter := distance_afterToken pid p l text
          rw [← hnext] at hafter
          dsimp only at hafter
          rw [RecvPoint.channel, Function.update_of_ne (by decide)]
          omega
      | full =>
          simp only [LoopLocal.afterRecv, Prod.mk.injEq] at hnext
          obtain ⟨ha, rfl⟩ := hnext
          have hdrain : a.pc = .recv (.item 0) := by
            rw [ha]
            apply (pc_drainFrom _ 0).resolve_right
            rw [← ha]
            exact hrestart rfl
          have hless : (LoopPc.recv (.item 0)).distance + 1 ≤
              (LoopPc.recv .full).distance := by decide
          rw [RecvPoint.channel, Function.update_of_ne (by decide), hdrain]
          omega
      | item i =>
          simp only [LoopLocal.afterRecv, Prod.mk.injEq] at hnext
          obtain ⟨ha, rfl⟩ := hnext
          have hdrain : a.pc.distance ≤ 2 := by
            rw [ha]
            rcases pc_drainFrom { l with msgbuf := text } (i + 1) with
              hpc | hpc <;> rw [hpc]
            · exact Nat.zero_le 2
            · exact Nat.le_refl 2
          have hprinted : printedLines [LoopEvent.printed p text] = 1 := rfl
          rw [RecvPoint.channel] at hitem
          rw [RecvPoint.channel, Function.update_self, hitem, List.length_cons,
            hprinted]
          omega
  | fault => simp [loopStep, hpc] at h

theorem toNextLine_lt (hcap : 1 ≤ cap) (h8 : cap ≤ 8)
    (h : (fifoSystem room cap pid role).Exec tr s)
    (hstep : (fifoSystem room cap pid role).step s es s') :
    toNextLine cap s' + 1 ≤ toNextLine cap s + 7 * printedLines es := by
  have hroom := crate_le hcap h8 (h.step hstep)
  have hrestart : ∀ p, es = [.received p] → (s'.loc p).pc ≠ .send .restart := by
    rintro p rfl
    exact not_restart_of_received hcap h8 (h.step hstep)
  obtain ⟨p, call, hexec⟩ := Program.system_step_iff.mp hstep
  obtain ⟨g, a, hproc, rfl⟩ := Program.exec_eq_some hexec
  have hlocal := loopStep_distance hproc hroom
    (by simpa using hrestart p)
  have htotal := total_update (fun l : LoopLocal Unit => l.pc.distance) s.loc p a
  simp only [toNextLine, Program.move_shared, Program.move_loc]
  omega

omit [Fintype P] [DecidableEq P] in
theorem events_afterSend (p : P) (l : LoopLocal Unit) (point : SendPoint) :
    (l.afterSend p point).2.length ≤ 1 := by
  cases point with
  | item =>
      unfold LoopLocal.afterSend
      dsimp only
      split <;> exact Nat.le_refl 1
  | _ => exact Nat.zero_le 1

omit [Fintype P] [DecidableEq P] in
theorem events_afterRecv (pid : P → ℕ) (p : P) (l : LoopLocal Unit)
    (text : Text) (point : RecvPoint) :
    (l.afterRecv pid p text point).2.length ≤ 1 := by
  cases point with
  | token =>
      unfold LoopLocal.afterRecv
      dsimp only
      split <;> exact Nat.le_refl 1
  | _ => exact Nat.le_refl 1

omit [Fintype P] [DecidableEq P] in
theorem loopStep_events {p : P} {q g : Queues} {l a : LoopLocal Unit}
    (h : loopStep (fifoApi room) pid p q l = some (g, a, es)) :
    es.length ≤ 1 := by
  cases hpc : l.pc with
  | send point =>
      have hafter := events_afterSend p l point
      rwa [← (loopStep_send hpc h).2] at hafter
  | recv point =>
      obtain ⟨text, rest, -, -, hnext⟩ := loopStep_recv hpc h
      have hafter := events_afterRecv pid p l text point
      rwa [← hnext] at hafter
  | fault => simp [loopStep, hpc] at h

/-- The events of all processes between two lines. -/
theorem events_le_lines (hcap : 1 ≤ cap) (h8 : cap ≤ 8)
    (hs : (fifoSystem room cap pid role).Reachable s)
    (h : (fifoSystem room cap pid role).Run s tr s') :
    tr.length ≤ 4 * cap + 3 * Fintype.card P + 7 * printedLines tr := by
  obtain ⟨n, hsteps⟩ := h.steps
  have hlength : tr.length ≤ n := by
    refine hsteps.length_le fun s es s' hstep => ?_
    obtain ⟨p, call, hexec⟩ := Program.system_step_iff.mp hstep
    obtain ⟨g, a, hproc, -⟩ := Program.exec_eq_some hexec
    exact loopStep_events hproc
  have hrank := hsteps.rank_le (fifoSystem room cap pid role).Reachable
    (toNextLine cap) (fun tr => 7 * printedLines tr)
    (fun tr es => by
      rw [printedLines, printedLines, printedLines, List.countP_append]
      omega)
    (fun s es s' ⟨tr, hexec⟩ hstep =>
      ⟨(hexec.step hstep).reachable, toNextLine_lt hcap h8 hexec hstep⟩) hs
  have hstart : total (fun l : LoopLocal Unit => l.pc.distance) s.loc ≤
      3 * Fintype.card P := by
    refine total_le_mul_card fun p => ?_
    unfold LoopPc.distance
    split <;> decide
  have hfirst : toNextLine cap s ≤ 4 * cap + 3 * Fintype.card P := by
    unfold toNextLine
    omega
  omega

end Lines

/-- However the scheduler runs the statements of `custom_queue.cpp`, in every
part of a run the number of statements is bounded by the lines printed in
it. -/
theorem rings_keep_printing {P : Type*} [Fintype P] [DecidableEq P]
    (q : MQueue) {cap : ℕ} (hcap : 1 ≤ cap) (h8 : cap ≤ 8) (hpos : 0 < q.cap)
    (hlt : q.cap < uintModulus) (hsize : 20 ≤ q.maxMSize) (pid : P → ℕ)
    (hpid : ∀ p, pid p < 2 ^ 31) (role : P → Role) (starter : P)
    {c c' : Config P Rings RingLocal} {n : ℕ} {tr : List (LoopEvent P)}
    (hc : (ringsSystem q cap pid role starter).Reachable c)
    (h : (ringsSystem q cap pid role starter).Steps c n tr c') :
    n ≤ 56 * (cap + Fintype.card P) + 98 * printedLines tr := by
  obtain ⟨tr₀, hexec⟩ := hc
  have hsimulation : System.Simulation (ringsSystem q cap pid role starter)
      (fifoSystem q.cap cap pid role) _ :=
    rings_simulation starter hcap h8 hpos hlt hsize hpid
  obtain ⟨s, hfifo, hmatches⟩ := hsimulation.exec hexec
  obtain ⟨s', hrun, -⟩ := hsimulation.run hmatches h.run
  have hevents := events_le_lines hcap h8 hfifo.reachable hrun
  have hsteps := steps_le_events h
  omega

/-- A crate for one item: the producer sends the first token, puts its item into
the crate and tells the consumer, which prints it. -/
def oneItemSchedule : List (Bool × Unit) :=
  List.replicate 28 (true, ()) ++ List.replicate 14 (false, ())

/-- The state in front of it. -/
def oneItemStart : Config Bool Rings RingLocal :=
  freshRings mainQueue 1 pairRole true
    ⟨fun _ => [], fun _ => ⟨.fault, 0, 0, [], ()⟩⟩

/-- The round of a crate for one item ends with its line. -/
theorem rings_keep_printing_one_item :
    ∃ n tr c, (ringsSystem mainQueue 1 (fun _ => 7) pairRole true).Steps
        oneItemStart n tr c ∧
      printedLines tr = 1 ∧ n ≤ 56 * (1 + 2) + 98 * printedLines tr := by
  have hinit : RingsInit mainQueue 1 pairRole true oneItemStart :=
    freshRings_init (by decide) (by decide)
  have hrun : (ringsSystem mainQueue 1 (fun _ => 7) pairRole true).Run
      oneItemStart _ _ := Program.run_of_runSchedule oneItemSchedule rfl
  obtain ⟨n, hsteps⟩ := hrun.steps
  exact ⟨n, _, _, hsteps, by decide +kernel, rings_keep_printing mainQueue
    (by decide) (by decide) (by decide) (by decide) (by decide) _
    (fun _ => by decide) _ _ (System.Exec.init hinit).reachable hsteps⟩

end Pvos.TokenCrate
