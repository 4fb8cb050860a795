import Pvos.CustomQueue.Leftovers
import Pvos.TokenCrate.Refinement

/-!
# `custom_queue.cpp` over its own rings

The loops of `custom_queue.cpp` start on three rings that `init_queue` left
empty, and the process with the argument `init` sends the first token.  The
token keeps the processes from being inside two operations at once, so the
rings show no history that three first-in, first-out queues do not show.
-/

namespace Pvos.TokenCrate

open Pvos.Support Pvos.CustomQueue

/-- The `send` of the first token: behind it a process of this role is at the
head of its loop. -/
def Role.first : Role → SendPoint
  | .producer => .token
  | .consumer => .restart

/-- Three fresh rings; `starter` has printed the first token into `msgbuf`, the
other processes are at the head of their loops. -/
structure RingsInit {P : Type*} (q : MQueue) (cap : ℕ) (role : P → Role)
    (starter : P) (c : Config P Rings RingLocal) : Prop where
  rings : ∀ ch, RingInit q (ringAt c ch)
  idle : ∀ p, (c.loc p).op.pc = .idle
  waiting : ∀ p, p ≠ starter → (c.loc p).pc = (role p).waiting
  starter_pc : (c.loc starter).pc = .send (role starter).first
  starter_text :
    (c.loc starter).op.msgbuf.cstring q.maxMSize 0 = tokenText cap 0

/-- All interleavings of the statements of all processes. -/
def ringsSystem {P : Type*} [DecidableEq P] (q : MQueue) (cap : ℕ)
    (pid : P → ℕ) (role : P → Role) (starter : P) :
    System (Config P Rings RingLocal) (LoopEvent P) :=
  (ringsProgram q pid).system (RingsInit q cap role starter)

/-! ## The texts fit into a message -/

theorem itemAt_text {i : ℤ} {item : Text} (h : itemAt i = some item) :
    (∀ b ∈ item, b ≠ 0) ∧ item.length ≤ 5 := by
  have hitems : ∀ s ∈ items,
      (ascii s).all (· != 0) = true ∧ (ascii s).length ≤ 5 := by
    decide
  unfold itemAt at h
  split at h
  next =>
    simp only [Option.map_eq_some_iff] at h
    obtain ⟨s, hs, rfl⟩ := h
    obtain ⟨hzero, hlength⟩ := hitems s (List.mem_of_getElem? hs)
    exact ⟨ne_zero_of_all hzero, hlength⟩
  next => simp at h

section Fits

variable {q : MQueue} (hsize : 20 ≤ q.maxMSize)

theorem decimal_ne_zero {n : ℤ} : ∀ b ∈ decimal n, b ≠ 0 :=
  fun _ hb => ne_of_mem_decimal hb rfl (by decide)

theorem length_decimal_le {n k : ℕ} (hk : 1 ≤ k) (hn : n < 10 ^ k) :
    (decimal n).length ≤ k := by
  rw [decimal_natCast]
  exact length_decimalNat_le_of_lt hk hn

include hsize

theorem fits_decimal {n : ℕ} (hn : n ≤ 8) : Fits q (decimal n) := by
  have hlength := length_decimal_le (n := n) (k := 1) (by decide) (by omega)
  exact ⟨decimal_ne_zero, by omega⟩

theorem fits_tokenText {a b : ℕ} (ha : a ≤ 8) (hb : b ≤ 8) :
    Fits q (tokenText a b) := by
  have hlengthA := length_decimal_le (n := a) (k := 1) (by decide) (by omega)
  have hlengthB := length_decimal_le (n := b) (k := 1) (by decide) (by omega)
  have hspace : (ascii " ").length = 1 := rfl
  constructor
  · simp only [tokenText, List.forall_mem_append]
    exact ⟨⟨decimal_ne_zero, ne_zero_of_all rfl⟩, decimal_ne_zero⟩
  · rw [tokenText, List.length_append, List.length_append]
    omega

theorem fits_itemText {pid : ℕ} (hpid : pid < 2 ^ 31) {i : ℤ} {item : Text}
    (h : itemAt i = some item) : Fits q (itemText pid item) := by
  obtain ⟨hzero, hitem⟩ := itemAt_text h
  have hlength := length_decimal_le (n := pid) (k := 10) (by decide) (by omega)
  have hopen : (ascii "(").length = 1 := rfl
  have hclose : (ascii "): ").length = 3 := rfl
  constructor
  · simp only [itemText, List.forall_mem_append]
    exact ⟨⟨⟨ne_zero_of_all rfl, decimal_ne_zero⟩, ne_zero_of_all rfl⟩, hzero⟩
  · rw [itemText, List.length_append, List.length_append, List.length_append]
    omega

end Fits

/-! ## The token makes the processes take turns -/

section Token

variable {P : Type*} [DecidableEq P] {cap : ℕ} {pid : P → ℕ} {role : P → Role}
  {tr : List (LoopEvent P)} {tok : Token P}
  {s : Config P Queues (LoopLocal Unit)} {p : P}

theorem TokenInv.acting_of_not_holder (h : TokenInv cap pid role tr tok s)
    (hp : tok.holder ≠ some p) (hacts : Acting s p) :
    ((∃ i, tok = .free i) ∧ (s.loc p).pc = .recv .token) ∨
      tok = .full ∧ (s.loc p).pc = .recv .full := by
  have hpc := h.waiting p hp
  have hproducers := h.producers
  have hconsumers := h.consumers
  cases hrole : role p with
  | producer =>
      rw [hrole] at hpc
      rcases hacts with ⟨point, hpoint⟩ | ⟨point, hpoint, hitem⟩
      · simp [hpc, Role.waiting] at hpoint
      · obtain rfl : point = .token := by simpa [hpc, Role.waiting] using hpoint.symm
        rw [RecvPoint.channel, hproducers] at hitem
        cases tok with
        | free i => exact Or.inl ⟨⟨i, rfl⟩, hpc⟩
        | _ => exact absurd rfl hitem
  | consumer =>
      rw [hrole] at hpc
      rcases hacts with ⟨point, hpoint⟩ | ⟨point, hpoint, hitem⟩
      · simp [hpc, Role.waiting] at hpoint
      · obtain rfl : point = .full := by simpa [hpc, Role.waiting] using hpoint.symm
        rw [RecvPoint.channel, hconsumers] at hitem
        cases tok with
        | full => exact Or.inr ⟨rfl, hpc⟩
        | _ => exact absurd rfl hitem

theorem TokenInv.takesTurns (h : TokenInv cap pid role tr tok s) :
    TakesTurns s := by
  intro p r hne hp hr
  by_cases hholder : tok.holder = some p
  · have hr' : tok.holder ≠ some r := by
      rw [hholder]
      exact fun heq => hne (Option.some.inj heq)
    rcases h.acting_of_not_holder hr' hr with ⟨⟨i, rfl⟩, -⟩ | ⟨rfl, -⟩ <;>
      simp at hholder
  · rcases h.acting_of_not_holder hholder hp with ⟨⟨i, rfl⟩, hpc⟩ | ⟨rfl, hpc⟩
    · rcases h.acting_of_not_holder (by simp) hr with ⟨-, hpc'⟩ | ⟨hfull, -⟩
      · exact ⟨_, _, hpc, hpc', rfl, by simp [h.producers]⟩
      · simp at hfull
    · rcases h.acting_of_not_holder (by simp) hr with ⟨⟨i, hfree⟩, -⟩ | ⟨-, hpc'⟩
      · simp at hfree
      · exact ⟨_, _, hpc, hpc', rfl, by simp [h.consumers]⟩

theorem TokenInv.fits {q : MQueue} (hsize : 20 ≤ q.maxMSize) (h8 : cap ≤ 8)
    (hpid : ∀ p, pid p < 2 ^ 31) (h : TokenInv cap pid role tr tok s)
    {point : SendPoint} (hpc : (s.loc p).pc = .send point) :
    Fits q (s.loc p).msgbuf := by
  by_cases hp : tok.holder = some p
  · have hat := h.holder p hp
    have hvalid := h.valid
    cases tok with
    | free i => simp at hp
    | full => simp at hp
    | taken r i =>
        obtain rfl : r = p := Option.some.inj hp
        obtain ⟨-, -, -, item, hitem, htext⟩ := hat
        rw [htext]
        exact fits_itemText hsize (hpid r) hitem
    | placed r i =>
        have hi : i < cap := hvalid.1
        rcases hat with ⟨-, -, htext⟩ | ⟨-, -, htext⟩
        · rw [htext]
          exact fits_decimal hsize h8
        · rw [htext]
          exact fits_tokenText hsize h8 (by omega)
    | draining r i => simp [hat.1] at hpc
    | drained r =>
        rw [hat.2]
        exact fits_tokenText hsize (b := 0) h8 (by omega)
  · have hwait := h.waiting p hp
    rw [hpc] at hwait
    cases hrole : role p <;> simp [hrole, Role.waiting] at hwait

end Token

/-! ## Until the first token is sent -/

section Start

variable {P : Type*} [DecidableEq P] {cap room : ℕ} {pid : P → ℕ}
  {role : P → Role} {starter p : P} {v s : Config P Queues (LoopLocal Unit)}

/-- Empty queues in front of the first `send`, which leads to `s`. -/
structure Starting (cap : ℕ) (role : P → Role) (starter : P)
    (v s : Config P Queues (LoopLocal Unit)) : Prop where
  empty : ∀ ch, v.shared ch = []
  starter_pc : (v.loc starter).pc = .send (role starter).first
  starter_text : (v.loc starter).msgbuf = tokenText cap 0
  waiting : ∀ p, p ≠ starter → (v.loc p).pc = (role p).waiting
  started : s = Program.move v starter (initialQueues cap)
    { v.loc starter with pc := (role starter).waiting }

theorem Starting.not_acting (h : Starting cap role starter v s)
    (hp : p ≠ starter) : ¬ Acting v p := by
  have hpc := h.waiting p hp
  rintro (⟨point, hpoint⟩ | ⟨point, -, hitem⟩)
  · cases hrole : role p <;> simp [hpc, hrole, Role.waiting] at hpoint
  · exact hitem (h.empty _)

theorem Starting.takesTurns (h : Starting cap role starter v s) :
    TakesTurns v := by
  intro p r hne hp hr
  have hp' : p = starter := by_contra fun hne' => h.not_acting hne' hp
  have hr' : r = starter := by_contra fun hne' => h.not_acting hne' hr
  exact absurd (hp'.trans hr'.symm) hne

theorem Starting.fifoInit (h : Starting cap role starter v s) :
    FifoInit cap role s := by
  rw [h.started]
  refine ⟨rfl, ?_⟩
  exact Program.forall_move
    (Q := fun p (l : LoopLocal Unit) => l.pc = (role p).waiting) rfl h.waiting

/-- The only step is the first `send`, and it shows nothing. -/
theorem Starting.step (h : Starting cap role starter v s) {g : Queues}
    {a : LoopLocal Unit} {es : List (LoopEvent P)}
    (hstep : loopStep (fifoApi room) pid p v.shared (v.loc p) =
      some (g, a, es)) :
    es = [] ∧ Program.move v p g a = s := by
  by_cases hp : p = starter
  · subst hp
    obtain ⟨rfl, hnext⟩ := loopStep_send h.starter_pc hstep
    have hqueues : Function.update v.shared (role p).first.channel
        (v.shared (role p).first.channel ++ [(v.loc p).msgbuf]) =
          initialQueues cap := by
      funext ch
      rw [h.starter_text, h.empty]
      cases role p <;> cases ch <;>
        simp [Role.first, initialQueues, h.empty]
    rw [hqueues, h.started]
    cases hrole : role p <;>
      simp only [hrole, Role.first, LoopLocal.afterSend, Prod.mk.injEq] at hnext <;>
      obtain ⟨rfl, rfl⟩ := hnext <;> exact ⟨rfl, rfl⟩
  · have hpc := h.waiting p hp
    cases hrole : role p <;> rw [hrole] at hpc <;>
      obtain ⟨text, rest, hitem, -⟩ := loopStep_recv hpc hstep <;>
      simp [h.empty] at hitem

end Start

/-! ## The simulation -/

section Simulation

variable {P : Type*} [Fintype P] [DecidableEq P] {q : MQueue} {cap : ℕ}
  {pid : P → ℕ} {role : P → Role} {starter : P}
  {c : Config P Rings RingLocal} {s : Config P Queues (LoopLocal Unit)}

/-- The rings stand for the queues, before or after the first token is
sent. -/
def Matches (q : MQueue) (cap : ℕ) (pid : P → ℕ) (role : P → Role)
    (starter : P) (c : Config P Rings RingLocal)
    (s : Config P Queues (LoopLocal Unit)) : Prop :=
  ∃ turn, (Refines q turn c s ∧ ∃ tr tok, TokenInv cap pid role tr tok s) ∨
    ∃ v, Refines q turn c v ∧ Starting cap role starter v s

/-- The queues in front of the first `send`. -/
def emptyQueues (q : MQueue) (c : Config P Rings RingLocal) :
    Config P Queues (LoopLocal Unit) where
  shared _ := []
  loc p := (c.loc p).vars q

omit [DecidableEq P] in
theorem refines_init (hcap : 0 < q.cap) (h : RingsInit q cap role starter c)
    (turn : P) : Refines q turn c (emptyQueues q c) := by
  constructor
  · exact fun p => ⟨rfl, rfl, rfl, fun _ _ => rfl⟩
  · exact fun p => RingLocal.serves_of_idle (h.idle p)
  · intro p _
    rw [h.idle p]
    rfl
  · rw [h.idle turn]
    exact fun hflight => absurd rfl hflight
  · intro ch
    refine ⟨[], [], ringInv_init hcap (h.rings ch), ?_⟩
    rw [RingLocal.opAt_of_idle (h.idle turn)]
    rfl

omit [Fintype P] in
theorem starting_emptyQueues (h : RingsInit q cap role starter c) :
    Starting cap role starter (emptyQueues q c)
      (Program.move (emptyQueues q c) starter (initialQueues cap)
        { (emptyQueues q c).loc starter with
          pc := (role starter).waiting }) where
  empty _ := rfl
  starter_pc := h.starter_pc
  starter_text := h.starter_text
  waiting := h.waiting
  started := rfl

theorem matches_init (hcap : 0 < q.cap)
    (h : RingsInit q cap role starter c) :
    ∃ s, FifoInit cap role s ∧ Matches q cap pid role starter c s := by
  have hstart := starting_emptyQueues h
  exact ⟨_, hstart.fifoInit, starter,
    Or.inr ⟨_, refines_init hcap h starter, hstart⟩⟩

/-- A statement behind the first token. -/
theorem Refines.step_token (hcap : 1 ≤ cap) (h8 : cap ≤ 8)
    (hlt : q.cap < uintModulus) (hsize : 20 ≤ q.maxMSize)
    (hpid : ∀ p, pid p < 2 ^ 31) {turn : P} {tr es : List (LoopEvent P)}
    {tok : Token P} {c' : Config P Rings RingLocal} (h : Refines q turn c s)
    (hinv : TokenInv cap pid role tr tok s)
    (hstep : (ringsSystem q cap pid role starter).step c es c') :
    ∃ s' turn' tok', (fifoSystem q.cap cap pid role).Run s es s' ∧
      Refines q turn' c' s' ∧ TokenInv cap pid role (tr ++ es) tok' s' := by
  obtain ⟨p, call, hexec⟩ := Program.system_step_iff.mp hstep
  obtain ⟨rings, next, hproc, rfl⟩ := Program.exec_eq_some hexec
  rcases h.step hlt hinv.takesTurns hproc with
    ⟨rfl, turn', hrefines'⟩ | ⟨g, a, hqueue, hreturn⟩
  · exact ⟨s, turn', tok, .refl, hrefines', by rwa [List.append_nil]⟩
  · have hfifo : (fifoSystem q.cap cap pid role).step s es
        (Program.move s p g a) :=
      Program.system_step_iff.mpr ⟨p, (), Program.exec_of_proc hqueue⟩
    obtain ⟨tok', hinv'⟩ := tokenInv_step q.cap hcap h8 hinv hfifo
    refine ⟨_, p, tok', .single hfifo, hreturn fun point hpoint => ?_, hinv'⟩
    have hfits : ((Program.move s p g a).loc p).pc = .send point → Fits q
        ((Program.move s p g a).loc p).msgbuf := hinv'.fits hsize h8 hpid
    simpa [hpoint] using hfits

/-- A statement in front of the first token shows nothing. -/
theorem Refines.step_starting (hlt : q.cap < uintModulus)
    {turn : P} {v : Config P Queues (LoopLocal Unit)}
    {es : List (LoopEvent P)} {c' : Config P Rings RingLocal}
    (h : Refines q turn c v) (hstart : Starting cap role starter v s)
    (hstep : (ringsSystem q cap pid role starter).step c es c') :
    es = [] ∧ ∃ turn', Refines q turn' c' v ∨ Refines q turn' c' s := by
  obtain ⟨p, call, hexec⟩ := Program.system_step_iff.mp hstep
  obtain ⟨rings, next, hproc, rfl⟩ := Program.exec_eq_some hexec
  rcases h.step hlt hstart.takesTurns hproc with
    ⟨rfl, turn', hrefines'⟩ | ⟨g, a, hqueue, hreturn⟩
  · exact ⟨rfl, turn', Or.inl hrefines'⟩
  · obtain ⟨rfl, rfl⟩ := hstart.step hqueue
    refine ⟨rfl, p, Or.inr (hreturn fun point hpoint => ?_)⟩
    have hpc := hstart.fifoInit.2 p
    rw [Program.move_loc, Function.update_self, hpoint] at hpc
    cases hrole : role p <;> simp [hrole, Role.waiting] at hpc

theorem Matches.step (hcap : 1 ≤ cap) (h8 : cap ≤ 8)
    (hlt : q.cap < uintModulus) (hsize : 20 ≤ q.maxMSize)
    (hpid : ∀ p, pid p < 2 ^ 31) {c' : Config P Rings RingLocal}
    {es : List (LoopEvent P)} (h : Matches q cap pid role starter c s)
    (hstep : (ringsSystem q cap pid role starter).step c es c') :
    ∃ s', (fifoSystem q.cap cap pid role).Run s es s' ∧
      Matches q cap pid role starter c' s' := by
  obtain ⟨turn, ⟨hrefines, tr, tok, hinv⟩ | ⟨v, hrefines, hstart⟩⟩ := h
  · obtain ⟨s', turn', tok', hrun, hrefines', hinv'⟩ :=
      hrefines.step_token hcap h8 hlt hsize hpid hinv hstep
    exact ⟨s', hrun, turn', Or.inl ⟨hrefines', _, tok', hinv'⟩⟩
  · obtain ⟨rfl, turn', hsame | hsent⟩ :=
      hrefines.step_starting hlt hstart hstep
    · exact ⟨s, .refl, turn', Or.inr ⟨v, hsame, hstart⟩⟩
    · exact ⟨s, .refl, turn', Or.inl ⟨hsent, [], .free 0,
        tokenInv_init pid hcap hstart.fifoInit⟩⟩

/-- Every run has shown nothing and the first token is not sent, or the token is
where the run says. -/
theorem rings_exec (hcap : 1 ≤ cap) (h8 : cap ≤ 8) (hpos : 0 < q.cap)
    (hlt : q.cap < uintModulus) (hsize : 20 ≤ q.maxMSize)
    (hpid : ∀ p, pid p < 2 ^ 31) {tr : List (LoopEvent P)}
    (h : (ringsSystem q cap pid role starter).Exec tr c) :
    ∃ turn s, (Refines q turn c s ∧ ∃ tok, TokenInv cap pid role tr tok s) ∨
      tr = [] ∧ ∃ v, Refines q turn c v ∧ Starting cap role starter v s := by
  refine h.invariant (I := fun tr c => ∃ turn s,
    (Refines q turn c s ∧ ∃ tok, TokenInv cap pid role tr tok s) ∨
      tr = [] ∧ ∃ v, Refines q turn c v ∧ Starting cap role starter v s) ?_ ?_
  · intro c hinit
    exact ⟨starter, _, Or.inr ⟨rfl, _, refines_init hpos hinit starter,
      starting_emptyQueues hinit⟩⟩
  · rintro tr c es c' ⟨turn, s, ⟨hrefines, tok, hinv⟩ |
      ⟨rfl, v, hrefines, hstart⟩⟩ hstep
    · obtain ⟨s', turn', tok', -, hrefines', hinv'⟩ :=
        hrefines.step_token hcap h8 hlt hsize hpid hinv hstep
      exact ⟨turn', s', Or.inl ⟨hrefines', tok', hinv'⟩⟩
    · obtain ⟨rfl, turn', hsame | hsent⟩ :=
        hrefines.step_starting hlt hstart hstep
      · exact ⟨turn', s, Or.inr ⟨rfl, v, hsame, hstart⟩⟩
      · exact ⟨turn', s, Or.inl ⟨hsent, .free 0,
          tokenInv_init pid hcap hstart.fifoInit⟩⟩

theorem rings_simulation (starter : P) (hcap : 1 ≤ cap) (h8 : cap ≤ 8) (hpos : 0 < q.cap)
    (hlt : q.cap < uintModulus) (hsize : 20 ≤ q.maxMSize)
    (hpid : ∀ p, pid p < 2 ^ 31) :
    System.Simulation (ringsSystem q cap pid role starter)
      (fifoSystem q.cap cap pid role)
      (Matches q cap pid role starter) where
  init _ h := matches_init hpos h
  step _ _ _ _ := Matches.step hcap h8 hlt hsize hpid

/-! ## The other direction -/

/-- Nobody is inside an operation. -/
def Quiet (q : MQueue) (c : Config P Rings RingLocal)
    (s : Config P Queues (LoopLocal Unit)) : Prop :=
  (∃ turn, Refines q turn c s) ∧ ∀ p, (c.loc p).op.pc = .idle

/-- One operation on the queues, statement by statement. -/
theorem Quiet.operation (hlt : q.cap < uintModulus)
    {init : Config P Rings RingLocal → Prop} (h : Quiet q c s) {p : P}
    {g : Queues} {a : LoopLocal Unit} {es : List (LoopEvent P)}
    (hstep : loopStep (fifoApi q.cap) pid p s.shared (s.loc p) =
      some (g, a, es))
    (hfits : ∀ point, a.pc = .send point → Fits q a.msgbuf) :
    ∃ c', ((ringsProgram q pid).system init).Run c es c' ∧
      Quiet q c' (Program.move s p g a) := by
  obtain ⟨⟨turn, hrefines⟩, hidle⟩ := h
  have hout : ∀ p, (c.loc p).op.pc.inFlight = 0 := by
    intro p
    rw [hidle p]
    rfl
  obtain ⟨c', hrun, hrefines', hback, hothers⟩ :=
    (hrefines.pass_turn (hout turn) (hout p)).run_operation hlt hstep hfits
  refine ⟨c', hrun, ⟨p, hrefines'⟩, ?_⟩
  intro r
  by_cases hr : r = p
  · rw [hr]
    exact hback
  · rw [hothers r hr]
    exact hidle r

/-- Fresh rings for a state of the queues before the first token. -/
def freshRings (q : MQueue) (cap : ℕ) (role : P → Role) (starter : P)
    (s : Config P Queues (LoopLocal Unit)) : Config P Rings RingLocal where
  shared _ := ⟨q.cap, 0, 1, 0, 0, fun _ => 0⟩
  loc := Function.update
    (fun p => ⟨(role p).waiting, (s.loc p).crateCapacity, (s.loc p).curidx,
      ⟨.idle, fun _ => 0⟩⟩) starter
    ⟨.send (role starter).first, (s.loc starter).crateCapacity,
      (s.loc starter).curidx,
      ⟨.idle, Memory.sprintf (fun _ => 0) 0 (tokenText cap 0)⟩⟩

omit [Fintype P] in
theorem freshRings_init (hsize : 20 ≤ q.maxMSize) (h8 : cap ≤ 8) :
    RingsInit q cap role starter (freshRings q cap role starter s) := by
  have hidle : ∀ p, ((freshRings q cap role starter s).loc p).op.pc = .idle := by
    intro p
    by_cases hp : p = starter
    · rw [hp]
      simp [freshRings]
    · simp [freshRings, hp]
  have hfits : Fits q (tokenText cap 0) :=
    fits_tokenText hsize (b := 0) h8 (by omega)
  refine ⟨fun ch => ⟨rfl, rfl, rfl, rfl, rfl, fun p =>
    RingLocal.opAt_of_idle (hidle p) ch⟩, hidle, ?_, ?_, ?_⟩
  · intro p hp
    simp [freshRings, hp]
  · simp [freshRings]
  · simp only [freshRings, Function.update_self]
    exact Memory.cstring_sprintf_self _ hfits.1 (by have := hfits.2; omega)

omit [DecidableEq P] in
/-- At the head of a loop the old text does not count. -/
theorem Refines.of_waiting {turn : P} {v : Config P Queues (LoopLocal Unit)}
    (h : Refines q turn c v) (hfifo : FifoInit cap role s)
    (hshared : v.shared = s.shared)
    (hloc : ∀ p, (v.loc p).pc = (s.loc p).pc ∧
      (v.loc p).crateCapacity = (s.loc p).crateCapacity ∧
      (v.loc p).curidx = (s.loc p).curidx) : Refines q turn c s := by
  obtain ⟨hvars, hserves, houtside, hacting, hrings⟩ := h
  refine ⟨?_, hserves, houtside, ?_, hshared ▸ hrings⟩
  · intro p
    obtain ⟨hpc, hcapacity, hcuridx⟩ := hloc p
    refine ⟨(hvars p).pc.trans hpc, (hvars p).crateCapacity.trans hcapacity,
      (hvars p).curidx.trans hcuridx, ?_⟩
    intro point hpoint
    have hwait := hfifo.2 p
    rw [hpoint] at hwait
    cases hrole : role p <;> simp [hrole, Role.waiting] at hwait
  · intro hflight
    have hacts := hacting hflight
    rwa [Acting, (hloc turn).1, hshared] at hacts

/-- Behind the first token the rings stand for any fresh queues. -/
theorem quiet_of_fifoInit (pid : P → ℕ) (starter : P) (hpos : 0 < q.cap) (hlt : q.cap < uintModulus)
    (hsize : 20 ≤ q.maxMSize) (h8 : cap ≤ 8) (hfifo : FifoInit cap role s) :
    ∃ c', (ringsSystem q cap pid role starter).Run
        (freshRings q cap role starter s) [] c' ∧ Quiet q c' s := by
  have hinit : RingsInit q cap role starter (freshRings q cap role starter s) :=
    freshRings_init hsize h8
  have hstart := starting_emptyQueues hinit
  have hquiet : Quiet q (freshRings q cap role starter s) (emptyQueues q _) :=
    ⟨⟨starter, refines_init hpos hinit starter⟩, hinit.idle⟩
  have hroom : ((emptyQueues q (freshRings q cap role starter s)).shared
      (role starter).first.channel).length < q.cap := hpos
  have hfirst : loopStep (fifoApi q.cap) pid starter _ _ = _ :=
    loopStep_send_eq hstart.starter_pc hroom
  obtain ⟨hes, hmove⟩ := hstart.step hfirst
  have hwaiting := hstart.fifoInit.2 starter
  rw [← hmove, Program.move_loc, Function.update_self] at hwaiting
  have hoperation : ∃ c', (ringsSystem q cap pid role starter).Run
      (freshRings q cap role starter s) _ c' ∧ Quiet q c' _ :=
    hquiet.operation hlt hfirst (by
      intro point hpoint
      rw [hpoint] at hwaiting
      cases hrole : role starter <;> simp [hrole, Role.waiting] at hwaiting)
  obtain ⟨c', hrun, ⟨turn, hrefines⟩, hidle⟩ := hoperation
  rw [hes] at hrun
  rw [hmove] at hrefines
  refine ⟨c', hrun, ⟨turn, hrefines.of_waiting hfifo hfifo.1.symm ?_⟩, hidle⟩
  intro p
  rw [hfifo.2 p]
  by_cases hp : p = starter
  · subst hp
    simp [emptyQueues, freshRings, RingLocal.vars]
  · simp [emptyQueues, freshRings, RingLocal.vars, hp]

/-- Some statements without events lead to rings that stand for `s`. -/
def Reaches (q : MQueue) (cap : ℕ) (pid : P → ℕ) (role : P → Role)
    (starter : P) (s : Config P Queues (LoopLocal Unit))
    (c : Config P Rings RingLocal) : Prop :=
  ∃ c', (ringsSystem q cap pid role starter).Run c [] c' ∧ Quiet q c' s ∧
    ∃ tr tok, TokenInv cap pid role tr tok s

theorem queues_simulation (starter : P) (hcap : 1 ≤ cap) (h8 : cap ≤ 8) (hpos : 0 < q.cap)
    (hlt : q.cap < uintModulus) (hsize : 20 ≤ q.maxMSize)
    (hpid : ∀ p, pid p < 2 ^ 31) :
    System.Simulation (fifoSystem q.cap cap pid role)
      (ringsSystem q cap pid role starter)
      (Reaches q cap pid role starter) where
  init s hfifo := by
    obtain ⟨c', hrun, hquiet⟩ :=
      quiet_of_fifoInit pid starter hpos hlt hsize h8 hfifo
    exact ⟨_, freshRings_init hsize h8, c', hrun, hquiet, [], .free 0,
      tokenInv_init pid hcap hfifo⟩
  step := by
    rintro s c es s' ⟨c', hrun, hquiet, tr, tok, hinv⟩ hstep
    obtain ⟨tok', hinv'⟩ := tokenInv_step q.cap hcap h8 hinv hstep
    obtain ⟨p, call, hexec⟩ := Program.system_step_iff.mp hstep
    obtain ⟨g, a, hproc, rfl⟩ := Program.exec_eq_some hexec
    have hfits : ∀ point, ((Program.move s p g a).loc p).pc = .send point →
        Fits q ((Program.move s p g a).loc p).msgbuf :=
      fun _ => hinv'.fits hsize h8 hpid
    have hoperation : ∃ c'', (ringsSystem q cap pid role starter).Run c' es c'' ∧
        Quiet q c'' (Program.move s p g a) :=
      hquiet.operation hlt hproc (by simpa using hfits)
    obtain ⟨c'', hrun', hquiet'⟩ := hoperation
    exact ⟨c'', hrun.trans hrun', c'', .refl, hquiet', _, tok', hinv'⟩

end Simulation

/-- Statement by statement over its own rings, `custom_queue.cpp` shows exactly
the histories of its loops over first-in, first-out queues. -/
theorem rings_traces_eq {P : Type*} [Fintype P] [DecidableEq P] (q : MQueue)
    {cap : ℕ} (hcap : 1 ≤ cap) (h8 : cap ≤ 8) (hpos : 0 < q.cap)
    (hlt : q.cap < uintModulus) (hsize : 20 ≤ q.maxMSize) (pid : P → ℕ)
    (hpid : ∀ p, pid p < 2 ^ 31) (role : P → Role) (starter : P) :
    (ringsSystem q cap pid role starter).traces =
      (fifoSystem q.cap cap pid role).traces := by
  apply Set.Subset.antisymm
  · exact System.Simulates.traces_subset
      ⟨_, rings_simulation starter hcap h8 hpos hlt hsize hpid⟩
  · exact System.Simulates.traces_subset
      ⟨_, queues_simulation starter hcap h8 hpos hlt hsize hpid⟩

/-- The program with one producer and one consumer. -/
theorem rings_traces_eq_main :
    (ringsSystem mainQueue 5 (fun _ => 7) pairRole true).traces =
      (fifoSystem 5 5 (fun _ => 7) pairRole).traces :=
  rings_traces_eq mainQueue (by decide) (by decide) (by decide) (by decide)
    (by decide) _ (fun _ => by decide) pairRole true

end Pvos.TokenCrate
