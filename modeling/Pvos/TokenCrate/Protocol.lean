import Pvos.TokenCrate.Token

/-!
# The crate protocol of `custom_queue.cpp`

With queues as large as the crate, no process ever waits for room, a consumer
always finds a full crate, and some process can always go on.
-/

namespace Pvos.TokenCrate

open Pvos.Support

/-! ## Progress -/

section Progress

variable {P : Type*} [DecidableEq P] {room cap : ℕ} {pid : P → ℕ}
  {role : P → Role} {tr : List (LoopEvent P)} {tok : Token P}
  {s : Config P Queues (LoopLocal Unit)}

theorem enabled_send {p : P} {point : SendPoint}
    (hpc : (s.loc p).pc = .send point)
    (hroom : (s.shared point.channel).length < room) :
    ∃ es s', (fifoSystem room cap pid role).step s es s' := by
  have hproc : (loopProgram (fifoApi room) pid).proc p () s.shared (s.loc p) =
      some (Function.update s.shared point.channel
        (s.shared point.channel ++ [(s.loc p).msgbuf]),
        (s.loc p).afterSend p point) := by
    simp only [loopProgram, loopStep, hpc, fifo_send_eq hroom]
    rfl
  exact Program.exists_step_of_proc hproc

theorem enabled_recv {p : P} {point : RecvPoint}
    (hpc : (s.loc p).pc = .recv point)
    (hitem : s.shared point.channel ≠ []) :
    ∃ es s', (fifoSystem room cap pid role).step s es s' := by
  obtain ⟨text, rest, hq⟩ := List.exists_cons_of_ne_nil hitem
  have hproc : (loopProgram (fifoApi room) pid).proc p () s.shared (s.loc p) =
      some (Function.update s.shared point.channel rest,
        (s.loc p).afterRecv pid p text point) := by
    simp only [loopProgram, loopStep, hpc, fifoApi, hq]
    rfl
  exact Program.exists_step_of_proc hproc

/-- The token's holder never waits for space or items, and nobody else is
at the crate. -/
theorem TokenInv.send_room (hcap : 1 ≤ cap) (hroom : cap ≤ room)
    (h : TokenInv cap pid role tr tok s) {p : P} {point : SendPoint}
    (hpc : (s.loc p).pc = .send point) :
    (s.shared point.channel).length < room := by
  by_cases hheld : tok.holder = some p
  · have hat := h.holder p hheld
    have hproducers := h.producers
    have hconsumers := h.consumers
    have hlength := h.length
    have hvalid := h.valid
    cases tok with
    | free i => simp at hheld
    | full => simp at hheld
    | taken r i =>
        obtain rfl : point = .item := by simpa [hat.1] using hpc.symm
        have hi : i < cap := hvalid.1
        simp only [Token.count] at hlength
        simp only [SendPoint.channel]
        omega
    | placed r i =>
        rcases hat with ⟨-, hpc', -⟩ | ⟨-, hpc', -⟩
        · obtain rfl : point = .full := by simpa [hpc'] using hpc.symm
          simp only [SendPoint.channel, hconsumers, Token.consumersQueue,
            List.length_nil]
          omega
        · obtain rfl : point = .token := by simpa [hpc'] using hpc.symm
          simp only [SendPoint.channel, hproducers, Token.producersQueue,
            List.length_nil]
          omega
    | draining r i => simp [hat.1] at hpc
    | drained r =>
        obtain rfl : point = .restart := by simpa [hat.1] using hpc.symm
        simp only [SendPoint.channel, hproducers, Token.producersQueue,
          List.length_nil]
        omega
  · have hwait := h.waiting p hheld
    rw [hpc] at hwait
    cases hrole : role p <;> simp [hrole, Role.waiting] at hwait

theorem TokenInv.draining_of_pc (h : TokenInv cap pid role tr tok s) {p : P}
    {i : ℕ} (hpc : (s.loc p).pc = .recv (.item i)) :
    tok = .draining p i := by
  by_cases hheld : tok.holder = some p
  · have hat := h.holder p hheld
    cases tok with
    | free i => simp at hheld
    | full => simp at hheld
    | taken r i => simp [hat.1] at hpc
    | placed r i =>
        rcases hat with ⟨-, hpc', -⟩ | ⟨-, hpc', -⟩ <;> simp [hpc'] at hpc
    | draining r j =>
        obtain rfl : r = p := Option.some.inj hheld
        obtain rfl : j = i := by simpa [hat.1] using hpc
        rfl
    | drained r => simp [hat.1] at hpc
  · have hwait := h.waiting p hheld
    rw [hpc] at hwait
    cases hrole : role p <;> simp [hrole, Role.waiting] at hwait

theorem TokenInv.item_present (h : TokenInv cap pid role tr tok s) {p : P}
    {i : ℕ} (hpc : (s.loc p).pc = .recv (.item i)) :
    s.shared .crate ≠ [] := by
  obtain rfl := h.draining_of_pc hpc
  have hlength : (s.shared .crate).length = cap - i := h.length
  have hi : i < cap := h.valid.1
  intro hnil
  rw [hnil, List.length_nil] at hlength
  omega

end Progress

/-! ## The protocol -/

/-- A process between receiving and passing on the token. -/
def LoopLocal.holdsToken {X : Type*} (l : LoopLocal X) : ℕ :=
  match l.pc with
  | .recv .token | .recv .full => 0
  | _ => 1

/-- What every run of the loops over queues of `room` messages keeps. -/
structure CrateInOrder {P : Type*} [Fintype P] [DecidableEq P] (room cap : ℕ)
    (pid : P → ℕ) (role : P → Role) (tr : List (LoopEvent P))
    (s : Config P Queues (LoopLocal Unit)) : Prop where
  one_token : (s.shared .producers).length + (s.shared .consumers).length +
    total LoopLocal.holdsToken s.loc = 1
  producers : ∀ text ∈ s.shared .producers, ∃ i : ℕ, i < cap ∧
    text = tokenText cap i ∧ (s.shared .crate).length = i
  consumers : ∀ text ∈ s.shared .consumers,
    text = decimal cap ∧ (s.shared .crate).length = cap
  indexed : ∀ p (i : ℤ), .indexed p i ∈ tr → 0 ≤ i ∧ i < cap
  no_fault : ∀ p, (s.loc p).pc ≠ .fault
  space : ∀ p point, (s.loc p).pc = .send point →
    (s.shared point.channel).length < room
  items : ∀ p i, (s.loc p).pc = .recv (.item i) → s.shared .crate ≠ []
  batch : ∀ p i, (s.loc p).pc = .recv (.item i) →
    (batchOf p tr).length = i ∧ AreItems pid role 0 (batchOf p tr)
  whole_batch : ∀ p, (s.loc p).pc = .send .restart →
    (batchOf p tr).length = cap ∧ AreItems pid role 0 (batchOf p tr)
  progress : (∃ p, role p = .producer) → (∃ p, role p = .consumer) →
    ∃ es s', (fifoSystem room cap pid role).step s es s'

section Protocol

variable {P : Type*} [DecidableEq P] {room cap : ℕ} {pid : P → ℕ}
  {role : P → Role} {tr : List (LoopEvent P)} {tok : Token P}
  {s : Config P Queues (LoopLocal Unit)}

theorem TokenInv.not_holds (h : TokenInv cap pid role tr tok s) {p : P}
    (hp : tok.holder ≠ some p) : (s.loc p).holdsToken = 0 := by
  rw [LoopLocal.holdsToken, h.waiting p hp]
  cases role p <;> rfl

theorem TokenInv.holds (h : TokenInv cap pid role tr tok s) {p : P}
    (hp : tok.holder = some p) : (s.loc p).holdsToken = 1 := by
  have hat := h.holder p hp
  cases tok with
  | free i => simp at hp
  | full => simp at hp
  | taken r i => simp [LoopLocal.holdsToken, hat.1]
  | placed r i =>
      rcases hat with ⟨-, hpc, -⟩ | ⟨-, hpc, -⟩ <;>
        simp [LoopLocal.holdsToken, hpc]
  | draining r i => simp [LoopLocal.holdsToken, hat.1]
  | drained r => simp [LoopLocal.holdsToken, hat.1]

/-- The token is in one place. -/
theorem TokenInv.one_token [Fintype P] (h : TokenInv cap pid role tr tok s) :
    (s.shared .producers).length + (s.shared .consumers).length +
      total LoopLocal.holdsToken s.loc = 1 := by
  cases hholder : tok.holder with
  | none =>
      have htotal : total LoopLocal.holdsToken s.loc = 0 := by
        apply total_eq_zero
        intro p
        apply h.not_holds
        rw [hholder]
        exact Option.some_ne_none p ∘ Eq.symm
      rw [h.producers, h.consumers, htotal]
      cases tok <;> simp at hholder ⊢
  | some p =>
      have htotal : total LoopLocal.holdsToken s.loc = 1 := by
        rw [← h.holds hholder]
        apply total_eq_of_unique
        intro q hq
        apply h.not_holds
        rw [hholder]
        exact fun heq => hq (Option.some.inj heq).symm
      rw [h.producers, h.consumers, htotal]
      cases tok <;> simp at hholder ⊢

theorem TokenInv.producers_text (h : TokenInv cap pid role tr tok s)
    {text : Text} (htext : text ∈ s.shared .producers) :
    ∃ i : ℕ, i < cap ∧ text = tokenText cap i ∧
      (s.shared .crate).length = i := by
  rw [h.producers] at htext
  cases tok with
  | free i => exact ⟨i, h.valid, List.mem_singleton.mp htext, h.length⟩
  | _ => simp at htext

theorem TokenInv.consumers_text (h : TokenInv cap pid role tr tok s)
    {text : Text} (htext : text ∈ s.shared .consumers) :
    text = decimal cap ∧ (s.shared .crate).length = cap := by
  rw [h.consumers] at htext
  cases tok with
  | full => exact ⟨List.mem_singleton.mp htext, h.length⟩
  | _ => simp at htext

theorem TokenInv.no_fault (h : TokenInv cap pid role tr tok s) (p : P) :
    (s.loc p).pc ≠ .fault := by
  intro hpc
  by_cases hp : tok.holder = some p
  · have hat := h.holder p hp
    cases tok with
    | free i => simp at hp
    | full => simp at hp
    | placed r i =>
        rcases hat with ⟨-, hpc', -⟩ | ⟨-, hpc', -⟩ <;> simp [hpc'] at hpc
    | taken r i => simp [hat.1] at hpc
    | draining r i => simp [hat.1] at hpc
    | drained r => simp [hat.1] at hpc
  · have hwait := h.waiting p hp
    rw [hpc] at hwait
    cases hrole : role p <;> simp [hrole, Role.waiting] at hwait

theorem TokenInv.drained_of_pc (h : TokenInv cap pid role tr tok s) {p : P}
    (hpc : (s.loc p).pc = .send .restart) : tok = .drained p := by
  by_cases hp : tok.holder = some p
  · have hat := h.holder p hp
    cases tok with
    | free i => simp at hp
    | full => simp at hp
    | taken r i => simp [hat.1] at hpc
    | placed r i =>
        rcases hat with ⟨-, hpc', -⟩ | ⟨-, hpc', -⟩ <;> simp [hpc'] at hpc
    | draining r i => simp [hat.1] at hpc
    | drained r =>
        obtain rfl : r = p := Option.some.inj hp
        rfl
  · have hwait := h.waiting p hp
    rw [hpc] at hwait
    cases hrole : role p <;> simp [hrole, Role.waiting] at hwait

/-- The holder of the token, or a process waiting for it, can go on. -/
theorem TokenInv.progress (hcap : 1 ≤ cap) (hroom : cap ≤ room)
    (h : TokenInv cap pid role tr tok s) {producer consumer : P}
    (hproducer : role producer = .producer)
    (hconsumer : role consumer = .consumer) :
    ∃ es s', (fifoSystem room cap pid role).step s es s' := by
  cases hholder : tok.holder with
  | none =>
      have hproducers := h.producers
      have hconsumers := h.consumers
      cases tok with
      | free i =>
          have hpc := h.waiting producer (by simp)
          rw [hproducer] at hpc
          exact enabled_recv hpc (by simp [hproducers])
      | full =>
          have hpc := h.waiting consumer (by simp)
          rw [hconsumer] at hpc
          exact enabled_recv hpc (by simp [hconsumers])
      | _ => simp at hholder
  | some p =>
      have hfault := h.no_fault p
      cases hpc : (s.loc p).pc with
      | send point => exact enabled_send hpc (h.send_room hcap hroom hpc)
      | recv point =>
          cases point with
          | item i => exact enabled_recv hpc (h.item_present hpc)
          | _ =>
              have hholds := h.holds hholder
              simp [LoopLocal.holdsToken, hpc] at hholds
      | fault => exact absurd hpc hfault

theorem TokenInv.crateInOrder [Fintype P] (hcap : 1 ≤ cap)
    (hroom : cap ≤ room) (h : TokenInv cap pid role tr tok s) :
    CrateInOrder room cap pid role tr s := by
  refine ⟨h.one_token, fun _ => h.producers_text, fun _ => h.consumers_text,
    h.indexed, h.no_fault, fun _ _ => h.send_room hcap hroom,
    fun _ _ => h.item_present, ?_, ?_, ?_⟩
  · intro p i hpc
    obtain rfl := h.draining_of_pc hpc
    exact h.batch p i rfl
  · intro p hpc
    obtain rfl := h.drained_of_pc hpc
    exact h.batch p cap rfl
  · rintro ⟨producer, hproducer⟩ ⟨consumer, hconsumer⟩
    exact h.progress hcap hroom hproducer hconsumer

end Protocol

/-- Over correct queues of capacity `cap` that hold the initial message, there
is one token in every reachable state, its text counts the items in the crate,
nobody waits for space or items, each batch consists of the items in order, and
some process can go on. -/
theorem crate_in_order {P : Type*} [Fintype P] [DecidableEq P] {cap : ℕ}
    (hcap : 1 ≤ cap) (h8 : cap ≤ 8) (pid : P → ℕ) (role : P → Role)
    {tr : List (LoopEvent P)} {s : Config P Queues (LoopLocal Unit)}
    (h : (fifoSystem cap cap pid role).Exec tr s) :
    CrateInOrder cap cap pid role tr s := by
  obtain ⟨tok, hinv⟩ := tokenInv_run hcap h8 h
  exact hinv.crateInOrder hcap le_rfl

/-- A producer and a consumer. -/
def pairRole : Bool → Role
  | true => .producer
  | false => .consumer

/-- Both wait over queues of two messages. -/
def freshPair : Config Bool Queues (LoopLocal Unit) where
  shared := initialQueues 2
  loc p := ⟨(pairRole p).waiting, 0, 0, [], ()⟩

/-- A round of the crate: two items are stored and printed. -/
theorem crate_in_order_one_round :
    ∃ tr s, (fifoSystem 2 2 (fun _ => 7) pairRole).Exec tr s ∧
      batchOf false tr = [ascii "(7): jedna", ascii "(7): dva"] ∧
      CrateInOrder 2 2 (fun _ => 7) pairRole tr s := by
  have hinit : FifoInit 2 pairRole freshPair := ⟨rfl, fun _ => rfl⟩
  have hexec : (fifoSystem 2 2 (fun _ => 7) pairRole).Exec _ _ :=
    ⟨freshPair, hinit, Program.run_of_runSchedule
      (List.replicate 6 (true, ()) ++
        List.replicate 4 (false, ())) rfl⟩
  exact ⟨_, _, hexec, by decide,
    crate_in_order (by decide) (by decide) _ _ hexec⟩

end Pvos.TokenCrate
