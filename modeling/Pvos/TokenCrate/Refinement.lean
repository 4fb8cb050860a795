import Pvos.TokenCrate.Rings

/-!
# While the processes take turns, the rings are queues

`Refines` relates a state of the rings to a state of first-in, first-out
queues.  Only the process whose turn it is may be in flight inside a `send` or
`recv`; every statement but the last leaves the queues as they are, and the
last one is the operation on the queue.
-/

namespace Pvos.TokenCrate

open Pvos.Support Pvos.CustomQueue

variable {P : Type*}

/-! ## Taking turns -/

/-- A process that can go on as soon as there is room: it sends, or its queue
holds a message. -/
def Acting (s : Config P Queues (LoopLocal Unit)) (p : P) : Prop :=
  (∃ point, (s.loc p).pc = .send point) ∨
    ∃ point, (s.loc p).pc = .recv point ∧ s.shared point.channel ≠ []

theorem Acting.nonempty {s : Config P Queues (LoopLocal Unit)} {p : P}
    (h : Acting s p) {point : RecvPoint} (hpc : (s.loc p).pc = .recv point) :
    s.shared point.channel ≠ [] := by
  rcases h with ⟨point', hpoint⟩ | ⟨point', hpoint, hitem⟩
  · simp [hpc] at hpoint
  · obtain rfl : point' = point := by simpa [hpc] using hpoint.symm
    exact hitem

/-- Two processes that can go on both wait for the same single message. -/
def TakesTurns (s : Config P Queues (LoopLocal Unit)) : Prop :=
  ∀ p r, p ≠ r → Acting s p → Acting s r →
    ∃ point point', (s.loc p).pc = .recv point ∧
      (s.loc r).pc = .recv point' ∧ point.channel = point'.channel ∧
      (s.shared point'.channel).length = 1

/-! ## The relation -/

/-- The variables of a process over the rings and over the queues; `msgbuf`
counts in front of a `send`. -/
structure SameVars (q : MQueue) (l : RingLocal) (a : LoopLocal Unit) :
    Prop where
  pc : l.pc = a.pc
  crateCapacity : l.crateCapacity = a.crateCapacity
  curidx : l.curidx = a.curidx
  msgbuf : ∀ point, a.pc = .send point →
    l.op.msgbuf.cstring q.maxMSize 0 = a.msgbuf

/-- The rings stand for the queues of `s` while it is the turn of `turn`. -/
structure Refines [Fintype P] (q : MQueue) (turn : P)
    (c : Config P Rings RingLocal) (s : Config P Queues (LoopLocal Unit)) :
    Prop where
  vars : ∀ p, SameVars q (c.loc p) (s.loc p)
  serves : ∀ p, (c.loc p).Serves
  outside : ∀ p, p ≠ turn → (c.loc p).op.pc.inFlight = 0
  acting : (c.loc turn).op.pc.inFlight ≠ 0 → Acting s turn
  rings : ∀ ch, ∃ tr queued, RingInv q tr queued (ringAt c ch) ∧
    ((c.loc turn).opAt ch).pc.Holds
      ((c.loc turn).op.msgbuf.cstring q.maxMSize 0) (s.shared ch)
      (queued.map blockText)

section Permits

variable [Fintype P] {q : MQueue} {turn : P} {c : Config P Rings RingLocal}
  {s : Config P Queues (LoopLocal Unit)}

theorem RingLocal.inFlight_opAt {l : RingLocal} (h : l.op.pc.inFlight = 0)
    (ch : Channel) : (l.opAt ch).pc.inFlight = 0 := by
  rw [opAt]
  split
  · exact h
  · rfl

/-- The permits of a ring follow from the queue and the process at turn. -/
theorem Refines.permits (h : Refines q turn c s) (ch : Channel) :
    (c.shared ch).semEmpty + ((c.loc turn).opAt ch).pc.receiving =
        (s.shared ch).length ∧
      (c.shared ch).semFull + ((c.loc turn).opAt ch).pc.sending +
        (s.shared ch).length = q.cap ∧
      (c.shared ch).semMutex + ((c.loc turn).opAt ch).pc.holdsMutex = 1 := by
  obtain ⟨tr, queued, hinv, hholds⟩ := h.rings ch
  exact hinv.permits
    (fun p hp => RingLocal.inFlight_opAt (h.outside p hp) ch) hholds

/-- Nobody in flight: it may be anybody's turn. -/
theorem Refines.pass_turn (h : Refines q turn c s)
    (hturn : (c.loc turn).op.pc.inFlight = 0) {p : P}
    (hp : (c.loc p).op.pc.inFlight = 0) : Refines q p c s := by
  refine ⟨h.vars, h.serves, ?_, fun hne => absurd hp hne, ?_⟩
  · intro r _
    by_cases hr : r = turn
    · rw [hr]
      exact hturn
    · exact h.outside r hr
  · intro ch
    obtain ⟨tr, queued, hinv, hholds⟩ := h.rings ch
    refine ⟨tr, queued, hinv, ?_⟩
    rw [OpPc.holds_of_not_inFlight (RingLocal.inFlight_opAt hturn ch)] at hholds
    rwa [OpPc.holds_of_not_inFlight (RingLocal.inFlight_opAt hp ch)]

/-- A process in flight is at its turn. -/
theorem Refines.eq_turn (h : Refines q turn c s) {p : P}
    (hp : (c.loc p).op.pc.inFlight ≠ 0) : p = turn := by
  by_contra hne
  exact hp (h.outside p hne)

/-- A process that passes its first wait can go on over the queues too. -/
theorem Refines.acting_of_wait (h : Refines q turn c s) {p : P} {ch : Channel}
    (hch : (c.loc p).pc.channel = some ch)
    (hwait : (∃ msg, (c.loc p).op.pc = .sendWaitFull msg) ∨
      (c.loc p).op.pc = .recvWaitEmpty ∧ 0 < (c.shared ch).semEmpty) :
    Acting s p := by
  rcases hwait with ⟨msg, hpc⟩ | ⟨hpc, hpermit⟩
  · obtain ⟨point, hpoint⟩ := (h.serves p).send (by rw [hpc]; rfl)
    exact Or.inl ⟨point, (h.vars p).pc ▸ hpoint⟩
  · obtain ⟨point, hpoint⟩ := (h.serves p).recv (by rw [hpc]; rfl)
    refine Or.inr ⟨point, (h.vars p).pc ▸ hpoint, ?_⟩
    rw [hpoint, LoopPc.channel, Option.some.injEq] at hch
    have hpermits := (h.permits ch).1
    intro hnil
    rw [← hch, hnil, List.length_nil, hch] at hpermits
    omega

/-- It finds nobody else in flight. -/
theorem Refines.turn_free (hturns : TakesTurns s) (h : Refines q turn c s)
    {p : P} (hne : p ≠ turn) {ch : Channel}
    (hch : (c.loc p).pc.channel = some ch)
    (hwait : (∃ msg, (c.loc p).op.pc = .sendWaitFull msg) ∨
      (c.loc p).op.pc = .recvWaitEmpty ∧ 0 < (c.shared ch).semEmpty) :
    (c.loc turn).op.pc.inFlight = 0 := by
  by_contra hflight
  obtain ⟨point, point', hp, hr, hsame, hone⟩ :=
    hturns p turn hne (h.acting_of_wait hch hwait) (h.acting hflight)
  rw [← (h.vars p).pc] at hp
  rw [← (h.vars turn).pc] at hr
  rcases hwait with ⟨msg, hpc⟩ | ⟨-, hpermit⟩
  · obtain ⟨point, hpoint⟩ := (h.serves p).send (by rw [hpc]; rfl)
    simp [hp] at hpoint
  · -- the one message of the queue is the one `turn` is receiving
    have hpoint : point.channel = ch := by
      rw [hp, LoopPc.channel, Option.some.injEq] at hch
      exact hch
    have hat : (c.loc turn).opAt ch = (c.loc turn).op := by
      apply RingLocal.opAt_self
      rw [hr, LoopPc.channel, ← hsame, hpoint]
    have hreceiving : (c.loc turn).op.pc.receiving ≠ 0 := by
      rcases OpPc.inSend_or_inRecv _ hflight with hin | hin
      · obtain ⟨point, hpoint⟩ := (h.serves turn).send hin
        simp [hr] at hpoint
      · rwa [OpPc.receiving, if_pos hin]
    have hpermits := (h.permits ch).1
    rw [hat] at hpermits
    rw [← hsame, hpoint] at hone
    omega

end Permits

/-! ## One statement -/

section Step

variable [Fintype P] [DecidableEq P] {q : MQueue} {turn p : P} {pid : P → ℕ}
  {c : Config P Rings RingLocal} {s : Config P Queues (LoopLocal Unit)}
  {ch ch' : Channel} {call : Call} {r : Ring} {op : OpLocal}
  {rs tr : List RingEvent} {queued : List (List UInt8)} {es : List (LoopEvent P)}

/-- The ring of the operation takes the statement. -/
theorem ringAt_step (hlt : q.cap < uintModulus) (next : RingLocal)
    (hch : (c.loc p).pc.channel = some ch)
    (hop : opStep q call (c.shared ch) (c.loc p).op = some (r, op, rs))
    (hnext : (next.opAt ch).pc = op.pc)
    (hinv : RingInv q tr queued (ringAt c ch)) :
    ∃ queued', RingInv q (tr ++ rs) queued'
        (ringAt (Program.move c p (Function.update c.shared ch r) next) ch) ∧
      queued ++ sentMessages rs = receivedMessages rs ++ queued' := by
  have hproc : (ringProgram P q).proc p call (ringAt c ch).shared
      ((ringAt c ch).loc p) = some (r, op, rs) := by
    rw [← RingLocal.opAt_self hch] at hop
    exact hop
  obtain ⟨queued', hinv'⟩ := ringInv_step hlt hinv
    (Program.system_step_iff.mpr ⟨p, call, Program.exec_of_proc hproc⟩)
  refine ⟨queued', hinv'.congr ?_ ?_, hinv.queued_append hinv'⟩
  · simp [ringAt]
  · intro p'
    by_cases hp : p' = p
    · rw [hp]
      simpa [ringAt] using hnext
    · simp [ringAt, hp]

/-- The other rings do not notice it. -/
theorem ringAt_step_ne (next : RingLocal)
    (hch : (c.loc p).pc.channel = some ch) (hne : ch' ≠ ch)
    (hnext : (next.opAt ch').pc = .idle)
    (hinv : RingInv q tr queued (ringAt c ch')) :
    RingInv q tr queued
      (ringAt (Program.move c p (Function.update c.shared ch r) next) ch') := by
  refine hinv.congr ?_ ?_
  · simp [ringAt, hne]
  · intro p'
    by_cases hp : p' = p
    · rw [hp]
      simpa [ringAt, RingLocal.opAt_ne hch hne] using hnext
    · simp [ringAt, hp]

/-- The variables do not change inside an operation. -/
theorem SameVars.opStep {l : RingLocal} {a : LoopLocal Unit} {r₀ : Ring}
    (h : SameVars q l a) (hserves : l.Serves)
    (hop : OpStep q r₀ l.op.msgbuf l.op.pc r op rs) :
    SameVars q { l with op := op } a := by
  refine ⟨h.pc, h.crateCapacity, h.curidx, ?_⟩
  intro point hpoint
  rw [← h.msgbuf point hpoint, hop.msgbuf]
  by_contra hin
  obtain ⟨point', hpoint'⟩ := hserves.recv (by simpa using hin)
  rw [h.pc, hpoint] at hpoint'
  contradiction

/-- A statement of the process at turn that is not the last of its
operation. -/
theorem Refines.step_turn (hlt : q.cap < uintModulus)
    (h : Refines q turn c s) (hcall : (c.loc turn).call = some (ch, call))
    (hop : opStep q call (c.shared ch) (c.loc turn).op = some (r, op, rs))
    (hidle : op.pc ≠ .idle) (hacting : op.pc.inFlight ≠ 0 → Acting s turn) :
    Refines q turn (Program.move c turn (Function.update c.shared ch r)
      { c.loc turn with op := op }) s := by
  have hch := RingLocal.call_channel hcall
  have hstep := opStep_cases hop
  constructor
  · exact Program.forall_move (Q := fun p l => SameVars q l (s.loc p))
      ((h.vars turn).opStep (h.serves turn) hstep) fun p _ => h.vars p
  · exact Program.forall_move (Q := fun _ (l : RingLocal) => l.Serves)
      ((h.serves turn).opStep hcall hop) fun p _ => h.serves p
  · intro p hp
    rw [Program.move_loc, Function.update_of_ne hp]
    exact h.outside p hp
  · simpa using hacting
  · intro ch'
    obtain ⟨tr, queued, hinv, hholds⟩ := h.rings ch'
    rw [Program.move_loc, Function.update_self]
    by_cases hne : ch' = ch
    · subst hne
      obtain ⟨queued', hinv', hqueued⟩ := ringAt_step hlt { c.loc turn with op := op } hch hop
        (congrArg OpLocal.pc (RingLocal.opAt_self hch)) hinv
      refine ⟨_, queued', hinv', ?_⟩
      rw [RingLocal.opAt_self hch] at hholds
      rw [RingLocal.opAt_self (by exact hch)]
      exact hstep.holds (h.serves turn).message hqueued hholds hidle
    · refine ⟨tr, queued, ringAt_step_ne _ hch hne
        (RingLocal.opAt_ne (by exact hch) hne) hinv, ?_⟩
      rw [RingLocal.opAt_ne hch hne] at hholds
      rw [RingLocal.opAt_ne (by exact hch) hne]
      exact hholds

/-- Another process calls `send` or `recv`. -/
theorem Refines.step_call (hlt : q.cap < uintModulus)
    (h : Refines q turn c s) (hp : p ≠ turn)
    (hcall : (c.loc p).call = some (ch, call))
    (hop : opStep q call (c.shared ch) (c.loc p).op = some (r, op, rs))
    (hidle : (c.loc p).op.pc = .idle) :
    Refines q turn (Program.move c p (Function.update c.shared ch r)
      { c.loc p with op := op }) s := by
  have hch := RingLocal.call_channel hcall
  have hstep := opStep_cases hop
  have hstart := hstep
  rw [hidle] at hstart
  obtain ⟨-, -, hrs, hflight⟩ := hstart.of_idle
  constructor
  · exact Program.forall_move (Q := fun p l => SameVars q l (s.loc p))
      ((h.vars p).opStep (h.serves p) hstep) fun p' _ => h.vars p'
  · exact Program.forall_move (Q := fun _ (l : RingLocal) => l.Serves)
      ((h.serves p).opStep hcall hop) fun p' _ => h.serves p'
  · exact Program.forall_move
      (Q := fun p' (l : RingLocal) => p' ≠ turn → l.op.pc.inFlight = 0)
      (fun _ => hflight) fun p' _ => h.outside p'
  · rw [Program.move_loc, Function.update_of_ne hp.symm]
    exact h.acting
  · intro ch'
    obtain ⟨tr, queued, hinv, hholds⟩ := h.rings ch'
    rw [Program.move_loc, Function.update_of_ne hp.symm]
    by_cases hne : ch' = ch
    · subst hne
      obtain ⟨queued', hinv', hqueued⟩ := ringAt_step hlt { c.loc p with op := op } hch hop
        (congrArg OpLocal.pc (RingLocal.opAt_self hch)) hinv
      have hstored : queued' = queued := by
        simpa [hrs, sentMessages, receivedMessages] using hqueued.symm
      exact ⟨_, queued', hinv', hstored ▸ hholds⟩
    · exact ⟨tr, queued, ringAt_step_ne _ hch hne
        (RingLocal.opAt_ne (by exact hch) hne) hinv, hholds⟩

end Step

/-! ## The end of an operation -/

/-- A text that fits into a message with a zero behind it. -/
def Fits (q : MQueue) (text : Text) : Prop :=
  (∀ b ∈ text, b ≠ 0) ∧ text.length < q.maxMSize

theorem SameVars.resume {q : MQueue} {l : RingLocal} {a : LoopLocal Unit}
    (h : ∀ point, a.pc = .send point → Fits q a.msgbuf) :
    SameVars q (l.resume a) a := by
  refine ⟨rfl, rfl, rfl, ?_⟩
  intro point hpoint
  obtain ⟨hzero, hlength⟩ := h point hpoint
  simp only [RingLocal.resume, hpoint]
  exact Memory.cstring_sprintf_self _ hzero (by omega)

/-- The statements behind a `recv` do not read the old text. -/
theorem afterRecv_congr (pid : P → ℕ) (p : P) {l l' : LoopLocal Unit}
    (hpc : l.pc = l'.pc) (hcapacity : l.crateCapacity = l'.crateCapacity)
    (hcuridx : l.curidx = l'.curidx) (text : Text) (point : RecvPoint) :
    l.afterRecv pid p text point = l'.afterRecv pid p text point := by
  obtain ⟨pc, crateCapacity, curidx, msgbuf, extra⟩ := l
  obtain ⟨pc', crateCapacity', curidx', msgbuf', extra'⟩ := l'
  obtain rfl : pc = pc' := hpc
  obtain rfl : crateCapacity = crateCapacity' := hcapacity
  obtain rfl : curidx = curidx' := hcuridx
  cases point <;> rfl

theorem behindCall_idle (q : MQueue) (pid : P → ℕ) (p : P) {l : RingLocal}
    (h : l.op.pc = .idle) : (l.behindCall q pid p).1.op.pc = .idle := by
  unfold RingLocal.behindCall
  split
  · rfl
  · rfl
  · exact h

theorem behindCall_send {q : MQueue} {pid : P → ℕ} (p : P) {l : RingLocal}
    {a : LoopLocal Unit} (h : SameVars q l a) {point : SendPoint}
    (hpc : l.pc = .send point) :
    l.behindCall q pid p =
      (l.resume (a.afterSend p point).1, (a.afterSend p point).2) := by
  obtain ⟨hpcs, hcapacity, hcuridx, hmsgbuf⟩ := h
  have hvars : l.vars q = a := by
    simp only [RingLocal.vars, hpcs, hcapacity, hcuridx,
      hmsgbuf point (hpcs ▸ hpc)]
  simp only [RingLocal.behindCall, hpc, hvars]

theorem behindCall_recv {q : MQueue} (pid : P → ℕ) (p : P) {l : RingLocal}
    {a : LoopLocal Unit} (h : SameVars q l a) {point : RecvPoint}
    (hpc : l.pc = .recv point) {text : Text}
    (htext : l.op.msgbuf.cstring q.maxMSize 0 = text) :
    l.behindCall q pid p =
      (l.resume (a.afterRecv pid p text point).1,
        (a.afterRecv pid p text point).2) := by
  simp only [RingLocal.behindCall, hpc, htext]
  rw [afterRecv_congr pid p (l := l.vars q) h.pc h.crateCapacity h.curidx]

theorem loopStep_send_eq {room : ℕ} {pid : P → ℕ} {p : P} {g : Queues} {l : LoopLocal Unit}
    {point : SendPoint} (hpc : l.pc = .send point)
    (hroom : (g point.channel).length < room) :
    loopStep (fifoApi room) pid p g l =
      some (Function.update g point.channel (g point.channel ++ [l.msgbuf]),
        l.afterSend p point) := by
  simp only [loopStep, hpc, fifo_send_eq hroom]
  rfl

theorem loopStep_recv_eq {room : ℕ} {pid : P → ℕ} {p : P} {g : Queues} {l : LoopLocal Unit}
    {point : RecvPoint} {text : Text} {rest : List Text}
    (hpc : l.pc = .recv point) (hitem : g point.channel = text :: rest) :
    loopStep (fifoApi room) pid p g l =
      some (Function.update g point.channel rest,
        l.afterRecv pid p text point) := by
  simp only [loopStep, hpc, fifoApi, hitem]
  rfl

section Return

variable [Fintype P] [DecidableEq P] {q : MQueue} {turn : P} {pid : P → ℕ}
  {c : Config P Rings RingLocal} {s : Config P Queues (LoopLocal Unit)}
  {ch : Channel} {call : Call} {r : Ring} {op : OpLocal}
  {rs : List RingEvent} {next : RingLocal} {es : List (LoopEvent P)}

/-- The process at turn returns with its ring and its queue in step. -/
theorem Refines.returned (h : Refines q turn c s) (l : RingLocal)
    {a : LoopLocal Unit} {g : Queues} {rings : Rings}
    (hfits : ∀ point, a.pc = .send point → Fits q a.msgbuf)
    (hrings : ∀ ch, ∃ tr queued, RingInv q tr queued
      (ringAt (Program.move c turn rings (l.resume a)) ch) ∧
      queued.map blockText = g ch) :
    Refines q turn (Program.move c turn rings (l.resume a))
      (Program.move s turn g a) := by
  constructor
  · intro p
    by_cases hp : p = turn
    · rw [hp]
      simpa using SameVars.resume hfits
    · simpa [hp] using h.vars p
  · exact Program.forall_move (Q := fun _ (l : RingLocal) => l.Serves)
      (RingLocal.serves_of_idle rfl) fun p _ => h.serves p
  · intro p hp
    rw [Program.move_loc, Function.update_of_ne hp]
    exact h.outside p hp
  · rw [Program.move_loc, Function.update_self]
    exact fun hflight => absurd rfl hflight
  · intro ch
    obtain ⟨tr, queued, hinv, hqueued⟩ := hrings ch
    refine ⟨tr, queued, hinv, ?_⟩
    rw [Program.move_loc, Function.update_self,
      OpPc.holds_of_not_inFlight]
    · exact hqueued
    · rw [RingLocal.opAt_of_idle rfl]
      rfl

/-- What the rings store behind the last statement of an operation. -/
theorem Refines.rings_returned (hlt : q.cap < uintModulus)
    (h : Refines q turn c s) (hch : (c.loc turn).pc.channel = some ch)
    (hop : opStep q call (c.shared ch) (c.loc turn).op = some (r, op, []))
    (hidle : op.pc = .idle) (hnext : next.op.pc = .idle)
    {tr : List RingEvent} {queued : List (List UInt8)}
    (hinv : RingInv q tr queued (ringAt c ch)) (ch' : Channel) :
    ∃ tr queued', RingInv q tr queued' (ringAt
        (Program.move c turn (Function.update c.shared ch r) next) ch') ∧
      queued'.map blockText =
        Function.update s.shared ch (queued.map blockText) ch' := by
  have hnextAt : ∀ ch', (next.opAt ch').pc = .idle :=
    RingLocal.opAt_of_idle hnext
  by_cases hne : ch' = ch
  · subst hne
    obtain ⟨queued', hinv', hqueued⟩ := ringAt_step hlt next hch hop
      ((hnextAt ch').trans hidle.symm) hinv
    have hstored : queued' = queued := by
      simpa [sentMessages, receivedMessages] using hqueued.symm
    refine ⟨_, queued', hinv', ?_⟩
    rw [Function.update_self, hstored]
  · obtain ⟨tr', queued', hinv', hholds⟩ := h.rings ch'
    refine ⟨tr', queued', ringAt_step_ne next hch hne (hnextAt ch') hinv', ?_⟩
    rw [RingLocal.opAt_ne hch hne] at hholds
    rw [Function.update_of_ne hne]
    exact hholds

/-- The end of `send` is the operation on the queue. -/
theorem Refines.return_send (hlt : q.cap < uintModulus)
    (h : Refines q turn c s) {point : SendPoint}
    (hpoint : (c.loc turn).pc = .send point)
    (hop : opStep q call (c.shared point.channel) (c.loc turn).op =
      some (r, op, rs))
    (hpc : (c.loc turn).op.pc = .sendPostEmpty)
    (hnext : (next, es) =
      RingLocal.behindCall q pid turn { c.loc turn with op := op }) :
    ∃ g a, loopStep (fifoApi q.cap) pid turn s.shared (s.loc turn) =
        some (g, a, es) ∧
      ((∀ point, a.pc = .send point → Fits q a.msgbuf) →
        Refines q turn (Program.move c turn
          (Function.update c.shared point.channel r) next)
          (Program.move s turn g a)) := by
  have hvars := (h.vars turn).opStep (h.serves turn) (opStep_cases hop)
  have hpoint' : (s.loc turn).pc = .send point := hvars.pc ▸ hpoint
  have hch : (c.loc turn).pc.channel = some point.channel := by
    rw [hpoint]
    rfl
  obtain ⟨tr, queued, hinv, hholds⟩ := h.rings point.channel
  rw [RingLocal.opAt_self hch, hpc] at hholds
  have hstored : queued.map blockText =
      s.shared point.channel ++ [(s.loc turn).msgbuf] := by
    rw [← (h.vars turn).msgbuf point hpoint']
    exact hholds
  have hroom : (s.shared point.channel).length < q.cap := by
    have hfits := hinv.layout.fits
    have hlength := congrArg List.length hstored
    rw [List.length_map, List.length_append, List.length_singleton] at hlength
    omega
  rw [behindCall_send turn hvars (by exact hpoint), Prod.mk.injEq] at hnext
  obtain ⟨rfl, rfl⟩ := hnext
  refine ⟨_, _, loopStep_send_eq hpoint' hroom, ?_⟩
  intro hfits
  have hstep := opStep_cases hop
  rw [hpc] at hstep
  cases hstep
  rw [← hstored]
  exact h.returned _ hfits (h.rings_returned hlt hch hop rfl rfl hinv)

/-- The end of `recv` is the operation on the queue. -/
theorem Refines.return_recv (hlt : q.cap < uintModulus)
    (h : Refines q turn c s) {point : RecvPoint}
    (hpoint : (c.loc turn).pc = .recv point)
    (hop : opStep q call (c.shared point.channel) (c.loc turn).op =
      some (r, op, rs))
    (hpc : (c.loc turn).op.pc = .recvPostFull)
    (hnext : (next, es) =
      RingLocal.behindCall q pid turn { c.loc turn with op := op }) :
    ∃ g a, loopStep (fifoApi q.cap) pid turn s.shared (s.loc turn) =
        some (g, a, es) ∧
      ((∀ point, a.pc = .send point → Fits q a.msgbuf) →
        Refines q turn (Program.move c turn
          (Function.update c.shared point.channel r) next)
          (Program.move s turn g a)) := by
  have hvars := (h.vars turn).opStep (h.serves turn) (opStep_cases hop)
  have hpoint' : (s.loc turn).pc = .recv point := hvars.pc ▸ hpoint
  have hch : (c.loc turn).pc.channel = some point.channel := by
    rw [hpoint]
    rfl
  have hstep := opStep_cases hop
  rw [hpc] at hstep
  cases hstep
  obtain ⟨tr, queued, hinv, hholds⟩ := h.rings point.channel
  rw [RingLocal.opAt_self hch, hpc] at hholds
  have hitem : s.shared point.channel =
      (c.loc turn).op.msgbuf.cstring q.maxMSize 0 ::
        queued.map blockText := hholds
  rw [behindCall_recv pid turn hvars (by exact hpoint) rfl,
    Prod.mk.injEq] at hnext
  obtain ⟨rfl, rfl⟩ := hnext
  refine ⟨_, _, loopStep_recv_eq hpoint' hitem, ?_⟩
  intro hfits
  exact h.returned _ hfits (h.rings_returned hlt hch hop rfl rfl hinv)

end Return

/-! ## A step of the whole program -/

section Program

variable [Fintype P] [DecidableEq P] {q : MQueue} {turn p : P} {pid : P → ℕ}
  {c : Config P Rings RingLocal} {s : Config P Queues (LoopLocal Unit)}
  {rings : Rings} {next : RingLocal} {es : List (LoopEvent P)}

/-- A statement of the process at turn leaves the queues as they are, or it is
the step of the queue loops at the end of an operation. -/
theorem Refines.step_at_turn (hlt : q.cap < uintModulus)
    (h : Refines q turn c s)
    (hstep : ringsStep q pid turn c.shared (c.loc turn) =
      some (rings, next, es)) :
    (es = [] ∧ Refines q turn (Program.move c turn rings next) s ∧
        next.op.pc.remaining < (c.loc turn).op.pc.remaining) ∨
      ∃ g a, loopStep (fifoApi q.cap) pid turn s.shared (s.loc turn) =
          some (g, a, es) ∧ next.op.pc = .idle ∧
        ((∀ point, a.pc = .send point → Fits q a.msgbuf) →
          Refines q turn (Program.move c turn rings next)
            (Program.move s turn g a)) := by
  obtain ⟨ch, call, r, op, rs, hcall, hop, rfl, hcases⟩ := ringsStep_cases hstep
  have hch := RingLocal.call_channel hcall
  have hopStep := opStep_cases hop
  rcases hcases with ⟨hidle, rfl, rfl⟩ | ⟨hidle, hnext⟩
  · refine Or.inl ⟨rfl, h.step_turn hlt hcall hop hidle ?_,
      hopStep.remaining_lt hidle⟩
    intro hflight
    by_cases hout : (c.loc turn).op.pc.inFlight = 0
    · have hstart : (c.loc turn).op.pc ≠ .idle := by
        intro hstart
        rw [hstart] at hopStep
        exact hflight hopStep.of_idle.2.2.2
      exact h.acting_of_wait hch (hopStep.first_wait hstart hout)
    · exact h.acting hout
  · obtain ⟨hpc, -⟩ := hopStep.of_return hidle
    have hback : next.op.pc = .idle := by
      have hresume := behindCall_idle q pid turn
        (l := { c.loc turn with op := op }) hidle
      rwa [← hnext] at hresume
    right
    rcases hpc with hpc | hpc
    · obtain ⟨point, hpoint⟩ := (h.serves turn).send (by rw [hpc]; rfl)
      obtain rfl : point.channel = ch := by
        simpa [hpoint, LoopPc.channel] using hch
      obtain ⟨g, a, hqueue, hreturn⟩ := h.return_send hlt hpoint hop hpc hnext
      exact ⟨g, a, hqueue, hback, hreturn⟩
    · obtain ⟨point, hpoint⟩ := (h.serves turn).recv (by rw [hpc]; rfl)
      obtain rfl : point.channel = ch := by
        simpa [hpoint, LoopPc.channel] using hch
      obtain ⟨g, a, hqueue, hreturn⟩ := h.return_recv hlt hpoint hop hpc hnext
      exact ⟨g, a, hqueue, hback, hreturn⟩

/-- Any statement of any process. -/
theorem Refines.step (hlt : q.cap < uintModulus) (hturns : TakesTurns s)
    (h : Refines q turn c s)
    (hstep : ringsStep q pid p c.shared (c.loc p) = some (rings, next, es)) :
    (es = [] ∧ ∃ turn, Refines q turn (Program.move c p rings next) s) ∨
      ∃ g a, loopStep (fifoApi q.cap) pid p s.shared (s.loc p) =
          some (g, a, es) ∧
        ((∀ point, a.pc = .send point → Fits q a.msgbuf) →
          Refines q p (Program.move c p rings next)
            (Program.move s p g a)) := by
  by_cases hself : Refines q p c s
  · rcases hself.step_at_turn hlt hstep with
      ⟨rfl, hsame, -⟩ | ⟨g, a, hqueue, -, hreturn⟩
    · exact Or.inl ⟨rfl, p, hsame⟩
    · exact Or.inr ⟨g, a, hqueue, hreturn⟩
  · -- it is the turn of another process, so `p` can only call
    have hp : p ≠ turn := fun heq => hself (heq ▸ h)
    have hout := h.outside p hp
    obtain ⟨ch, call, r, op, rs, hcall, hop, hrings, hcases⟩ :=
      ringsStep_cases hstep
    by_cases hstart : (c.loc p).op.pc = .idle
    · left
      rcases hcases with ⟨-, rfl, rfl⟩ | ⟨hidle, -⟩
      · exact ⟨rfl, turn, hrings ▸ h.step_call hlt hp hcall hop hstart⟩
      · have hpc := ((opStep_cases hop).of_return hidle).1
        simp [hstart] at hpc
    · have hwait := (opStep_cases hop).first_wait hstart hout
      have hfree := h.turn_free hturns hp (RingLocal.call_channel hcall) hwait
      exact absurd (h.pass_turn hfree hout) hself

/-! ## A whole operation -/

omit [Fintype P] [DecidableEq P] in
/-- An operation on the queues needs room or a message. -/
theorem acting_of_loopStep {room : ℕ} {g : Queues} {a : LoopLocal Unit}
    (h : loopStep (fifoApi room) pid p s.shared (s.loc p) = some (g, a, es)) :
    Acting s p ∧ ∀ point, (s.loc p).pc = .send point →
      (s.shared point.channel).length < room := by
  cases hpc : (s.loc p).pc with
  | send point =>
      refine ⟨Or.inl ⟨point, hpc⟩, ?_⟩
      rintro point' ⟨rfl⟩
      by_contra hfull
      have hblocked : (fifoApi room).send point.channel (s.loc p).extra
          (s.loc p).msgbuf s.shared = none := if_neg hfull
      simp only [loopStep, hpc, hblocked, Option.map_none] at h
      contradiction
  | recv point =>
      obtain ⟨text, rest, hitem, -⟩ := loopStep_recv hpc h
      refine ⟨Or.inr ⟨point, hpc, ?_⟩, ?_⟩
      · rw [hitem]
        exact List.cons_ne_nil text rest
      · intro point' hsend
        simp at hsend
  | fault => simp [loopStep, hpc] at h

omit [Fintype P] [DecidableEq P] in
theorem exists_ringsStep (pid : P → ℕ) (p : P) {g : Rings} {l : RingLocal}
    {ch : Channel} {call : Call} (hcall : l.call = some (ch, call))
    (hop : ∃ r op rs, opStep q call (g ch) l.op = some (r, op, rs)) :
    ∃ rings next es, ringsStep q pid p g l = some (rings, next, es) := by
  obtain ⟨r, op, rs, hop⟩ := hop
  simp only [ringsStep, hcall, hop]
  split <;> exact ⟨_, _, _, rfl⟩

omit [DecidableEq P] in
/-- A process that could go on over the queues can go on over the rings. -/
theorem Refines.enabled (pid : P → ℕ) (h : Refines q turn c s)
    (hacts : Acting s turn)
    (hroom : ∀ point, (s.loc turn).pc = .send point →
      (s.shared point.channel).length < q.cap) :
    ∃ rings next es, ringsStep q pid turn c.shared (c.loc turn) =
      some (rings, next, es) := by
  have hpc := (h.vars turn).pc
  cases hpoint : (s.loc turn).pc with
  | send point =>
      rw [hpoint] at hpc
      obtain ⟨-, hspace, hmutex⟩ := h.permits point.channel
      rw [RingLocal.opAt_self (by rw [hpc]; rfl)] at hspace hmutex
      have hless := hroom point hpoint
      have hcall : (c.loc turn).call =
          some (point.channel, .send (c.loc turn).op.msgbuf) := by
        simp only [RingLocal.call, hpc]
      refine exists_ringsStep pid turn hcall (exists_opStep _ _ ?_ ?_ ?_)
      · intro msg hwait
        rw [hwait, show (OpPc.sendWaitFull msg).sending = 0 from rfl] at hspace
        omega
      · intro hwait
        obtain ⟨point', hpoint'⟩ := (h.serves turn).recv (by rw [hwait]; rfl)
        simp [hpc] at hpoint'
      · omega
  | recv point =>
      rw [hpoint] at hpc
      obtain ⟨hitems, -, hmutex⟩ := h.permits point.channel
      rw [RingLocal.opAt_self (by rw [hpc]; rfl)] at hitems hmutex
      have hitem := List.length_pos_of_ne_nil (hacts.nonempty hpoint)
      have hcall : (c.loc turn).call = some (point.channel, .recv) := by
        simp only [RingLocal.call, hpc]
      refine exists_ringsStep pid turn hcall (exists_opStep _ _ ?_ ?_ ?_)
      · intro msg hwait
        obtain ⟨point', hpoint'⟩ := (h.serves turn).send (by rw [hwait]; rfl)
        simp [hpc] at hpoint'
      · intro hwait
        rw [hwait, show OpPc.recvWaitEmpty.receiving = 0 from rfl] at hitems
        omega
      · omega
  | fault =>
      rcases hacts with ⟨point, hpoint'⟩ | ⟨point, hpoint', -⟩ <;>
        simp [hpoint] at hpoint'

/-- The statements of one operation on the queues, one after the other. -/
theorem Refines.run_operation (hlt : q.cap < uintModulus)
    {init : Config P Rings RingLocal → Prop} (h : Refines q turn c s)
    {g : Queues} {a : LoopLocal Unit}
    (hstep : loopStep (fifoApi q.cap) pid turn s.shared (s.loc turn) =
      some (g, a, es))
    (hfits : ∀ point, a.pc = .send point → Fits q a.msgbuf) :
    ∃ c', ((ringsProgram q pid).system init).Run c es c' ∧
      Refines q turn c' (Program.move s turn g a) ∧
      (c'.loc turn).op.pc = .idle ∧ ∀ r, r ≠ turn → c'.loc r = c.loc r := by
  obtain ⟨hacts, hroom⟩ := acting_of_loopStep hstep
  induction hn : (c.loc turn).op.pc.remaining using Nat.strong_induction_on
    generalizing c with
  | _ n ih =>
      obtain ⟨rings, next, es', hnext⟩ := h.enabled pid hacts hroom
      have hfirst : ((ringsProgram q pid).system init).step c es'
          (Program.move c turn rings next) :=
        Program.system_step_iff.mpr ⟨turn, (), Program.exec_of_proc hnext⟩
      rcases h.step_at_turn hlt hnext with
        ⟨rfl, hsame, hless⟩ | ⟨g', a', hqueue, hidle, hreturn⟩
      · obtain ⟨c', hrun, hrefines, hidle, hothers⟩ :=
          ih _ (hn ▸ hless) hsame (by simp)
        refine ⟨c', System.Run.head hfirst hrun, hrefines, hidle, ?_⟩
        intro r hr
        rw [hothers r hr]
        simp [hr]
      · rw [hstep, Option.some.injEq, Prod.mk.injEq, Prod.mk.injEq] at hqueue
        obtain ⟨rfl, rfl, rfl⟩ := hqueue
        refine ⟨_, .single hfirst, hreturn hfits, by simpa using hidle, ?_⟩
        intro r hr
        simp [hr]

end Program

end Pvos.TokenCrate
