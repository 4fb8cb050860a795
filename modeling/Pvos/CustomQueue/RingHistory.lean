import Pvos.CustomQueue.Ring
import Pvos.Support.Cyclic

/-!
# The shared ring queue delivers in order, exactly once

The messages copied in and not yet copied out lie cyclically in the slots from
`front` on.  Full and empty queues have the same positions; only the permits
tell them apart, so the invariant counts the permits of every operation in
flight together with the stored messages.
-/

namespace Pvos.CustomQueue

open Pvos.Support

/-! ## Positions -/

/-- At the statement that advances `rear`. -/
def OpPc.atRear : OpPc → ℕ
  | .sendRear => 1
  | _ => 0

/-- At the statement that advances `front`. -/
def OpPc.atFront : OpPc → ℕ
  | .recvFront => 1
  | _ => 0

theorem OpPc.atRear_eq_zero (pc : OpPc) (h : pc.holdsMutex = 0) :
    pc.atRear = 0 := by
  cases pc <;> simp [OpPc.atRear, OpPc.holdsMutex] at h ⊢

theorem OpPc.atFront_eq_zero (pc : OpPc) (h : pc.holdsMutex = 0) :
    pc.atFront = 0 := by
  cases pc <;> simp [OpPc.atFront, OpPc.holdsMutex] at h ⊢

/-- Below a 32-bit capacity a position advances without wrapping early. -/
theorem nextPosition_eq {q : MQueue} (hlt : q.cap < uintModulus) {pos : ℕ}
    (hpos : pos < q.cap) : nextPosition q pos = (pos + 1) % q.cap := by
  have hle : (pos + 1) % q.cap < q.cap := Nat.mod_lt _ (by omega)
  rw [nextPosition, Nat.mod_eq_of_lt (show pos + 1 < uintModulus by omega),
    Nat.mod_eq_of_lt (hle.trans hlt)]

section Positions

variable {q : MQueue} {g g' : Ring} {pc : OpPc} {buf : Memory} {l' : OpLocal}
  {es : List RingEvent}

theorem OpStep.rear_lt (h : OpStep q g buf pc g' l' es)
    (hlt : q.cap < uintModulus) (hrear : g.rear < q.cap) : g'.rear < q.cap := by
  cases h with
  | sendRear =>
      simp only [nextPosition_eq hlt hrear]
      exact Nat.mod_lt _ (by omega)
  | _ => exact hrear

theorem OpStep.front_lt (h : OpStep q g buf pc g' l' es)
    (hlt : q.cap < uintModulus) (hfront : g.front < q.cap) :
    g'.front < q.cap := by
  cases h with
  | recvFront =>
      simp only [nextPosition_eq hlt hfront]
      exact Nat.mod_lt _ (by omega)
  | _ => exact hfront

theorem OpStep.rear_modEq (h : OpStep q g buf pc g' l' es)
    (hlt : q.cap < uintModulus) (hrear : g.rear < q.cap) :
    g'.rear + l'.pc.atRear ≡
      g.rear + pc.atRear + (sentMessages es).length [MOD q.cap] := by
  cases h with
  | sendRear =>
      rw [nextPosition_eq hlt hrear]
      exact Nat.mod_modEq (g.rear + 1) q.cap
  | _ => simp [OpPc.atRear, sentMessages, Nat.ModEq.refl]

theorem OpStep.front_modEq (h : OpStep q g buf pc g' l' es)
    (hlt : q.cap < uintModulus) (hfront : g.front < q.cap) :
    g'.front + l'.pc.atFront ≡
      g.front + pc.atFront + (receivedMessages es).length [MOD q.cap] := by
  cases h with
  | recvFront =>
      rw [nextPosition_eq hlt hfront]
      exact Nat.mod_modEq (g.front + 1) q.cap
  | _ => simp [OpPc.atFront, receivedMessages, Nat.ModEq.refl]

end Positions

/-! ## Slots -/

/-- The slots lie one behind the other inside the mapping. -/
theorem MQueue.slot_in_mapping (q : MQueue) {i : ℕ} (hi : i < q.cap) :
    dataOffset ≤ q.slotOffset i ∧
      q.slotOffset i + q.maxMSize ≤ q.mappedSize := by
  have hmul : (i + 1) * q.maxMSize ≤ q.cap * q.maxMSize :=
    Nat.mul_le_mul_right _ hi
  rw [Nat.succ_mul] at hmul
  simp only [MQueue.slotOffset, MQueue.mappedSize]
  omega

theorem MQueue.slotOffset_add_le (q : MQueue) {i j : ℕ} (hij : i < j) :
    q.slotOffset i + q.maxMSize ≤ q.slotOffset j := by
  have hmul : (i + 1) * q.maxMSize ≤ j * q.maxMSize :=
    Nat.mul_le_mul_right _ hij
  rw [Nat.succ_mul] at hmul
  simp only [MQueue.slotOffset]
  omega

/-- Copying a message to one slot leaves the other slots alone. -/
theorem slot_memcpy_of_ne (q : MQueue) (g : Ring) (msg : Memory) {i j : ℕ}
    (hij : j ≠ i) :
    Ring.slot q
        { g with data := g.data.memcpy (q.slotOffset i) msg 0 q.maxMSize } j =
      g.slot q j := by
  apply Memory.bytes_memcpy_of_disjoint
  rcases Nat.lt_or_gt_of_ne hij with hlt | hgt
  · exact Or.inl (q.slotOffset_add_le hlt)
  · exact Or.inr (q.slotOffset_add_le hgt)

theorem slot_memcpy_self (q : MQueue) (g : Ring) (msg : Memory) (i : ℕ) :
    Ring.slot q
        { g with data := g.data.memcpy (q.slotOffset i) msg 0 q.maxMSize } i =
      msg.bytes 0 q.maxMSize :=
  Memory.bytes_memcpy _ _ _ _ _

/-! ## The invariant -/

section Invariant

variable {P : Type*} [Fintype P]

/-- `queued` are the messages copied in and not yet copied out. -/
structure RingInv (q : MQueue) (tr : List RingEvent)
    (queued : List (List UInt8)) (s : Config P Ring OpLocal) : Prop where
  history : sentMessages tr = receivedMessages tr ++ queued
  mutex : s.shared.semMutex + total (fun l => l.pc.holdsMutex) s.loc = 1
  space : s.shared.semFull + total (fun l => l.pc.holdsSpace) s.loc +
    queued.length = q.cap
  items : s.shared.semEmpty + total (fun l => l.pc.holdsItem) s.loc =
    queued.length
  rear_lt : s.shared.rear < q.cap
  front_lt : s.shared.front < q.cap
  rear : s.shared.rear + total (fun l => l.pc.atRear) s.loc ≡
    (sentMessages tr).length [MOD q.cap]
  front : s.shared.front + total (fun l => l.pc.atFront) s.loc ≡
    (receivedMessages tr).length [MOD q.cap]
  layout : CyclicLayout (s.shared.slot q) q.cap
    (receivedMessages tr).length queued
  inMapping : ∀ e ∈ tr, dataOffset ≤ e.offset ∧
    e.offset + q.maxMSize ≤ q.mappedSize

theorem ringInv_init {q : MQueue} (hcap : 0 < q.cap)
    {s : Config P Ring OpLocal} (h : RingInit q s) : RingInv q [] [] s := by
  obtain ⟨hfull, hempty, hmutex, hfront, hrear, hidle⟩ := h
  have hzero : ∀ w : OpPc → ℕ, w .idle = 0 →
      total (fun l : OpLocal => w l.pc) s.loc = 0 := by
    intro w hw
    apply total_eq_zero
    intro p
    rw [hidle p, hw]
  constructor
  · rfl
  · rw [hmutex, hzero _ rfl]
  · rw [hfull, hzero _ rfl]
    rfl
  · rw [hempty, hzero _ rfl]
    rfl
  · rwa [hrear]
  · rwa [hfront]
  · rw [hrear, hzero _ rfl]
    exact Nat.ModEq.refl 0
  · rw [hfront, hzero _ rfl]
    exact Nat.ModEq.refl 0
  · exact CyclicLayout.nil _ _ _
  · intro e he
    cases he

/-- While a process copies in, no other process is between its copy and the
update of `rear`, so `rear` is the slot behind the stored messages. -/
theorem RingInv.rear_eq {q : MQueue} {tr : List RingEvent}
    {queued : List (List UInt8)} {s : Config P Ring OpLocal}
    (h : RingInv q tr queued s) {p : P} {msg : Memory}
    (hp : (s.loc p).pc = .sendCopy msg) :
    s.shared.rear = ((receivedMessages tr).length + queued.length) % q.cap := by
  have hnone : total (fun l => l.pc.atRear) s.loc = 0 := by
    rw [total_eq_of_exclusive (w := fun l => l.pc.holdsMutex)
      (p := p) (by have := h.mutex; omega) fun l => l.pc.atRear_eq_zero]
    · simp [hp, OpPc.atRear]
    · simp [hp, OpPc.holdsMutex]
  have hrear := h.rear
  rw [hnone, Nat.add_zero, h.history, List.length_append] at hrear
  rw [← hrear, Nat.mod_eq_of_lt h.rear_lt]

theorem RingInv.front_eq {q : MQueue} {tr : List RingEvent}
    {queued : List (List UInt8)} {s : Config P Ring OpLocal}
    (h : RingInv q tr queued s) {p : P} (hp : (s.loc p).pc = .recvCopy) :
    s.shared.front = (receivedMessages tr).length % q.cap := by
  have hnone : total (fun l => l.pc.atFront) s.loc = 0 := by
    rw [total_eq_of_exclusive (w := fun l => l.pc.holdsMutex)
      (p := p) (by have := h.mutex; omega) fun l => l.pc.atFront_eq_zero]
    · simp [hp, OpPc.atFront]
    · simp [hp, OpPc.holdsMutex]
  have hfront := h.front
  rw [hnone, Nat.add_zero] at hfront
  rw [← hfront, Nat.mod_eq_of_lt h.front_lt]

/-- A process about to copy in holds a permit for a free slot. -/
theorem RingInv.queued_lt {q : MQueue} {tr : List RingEvent}
    {queued : List (List UInt8)} {s : Config P Ring OpLocal}
    (h : RingInv q tr queued s) {p : P} {msg : Memory}
    (hp : (s.loc p).pc = .sendCopy msg) : queued.length < q.cap := by
  have hle : (s.loc p).pc.holdsSpace ≤ _ :=
    le_total (fun l => l.pc.holdsSpace) s.loc p
  have hone : (s.loc p).pc.holdsSpace = 1 := by rw [hp]; rfl
  have := h.space
  omega

/-- A process about to copy out holds a permit for a stored message. -/
theorem RingInv.queued_ne_nil {q : MQueue} {tr : List RingEvent}
    {queued : List (List UInt8)} {s : Config P Ring OpLocal}
    (h : RingInv q tr queued s) {p : P} (hp : (s.loc p).pc = .recvCopy) :
    ∃ msg rest, queued = msg :: rest := by
  have hle : (s.loc p).pc.holdsItem ≤ _ :=
    le_total (fun l => l.pc.holdsItem) s.loc p
  have hone : (s.loc p).pc.holdsItem = 1 := by rw [hp]; rfl
  cases queued with
  | nil =>
      have := h.items
      rw [List.length_nil] at this
      omega
  | cons msg rest => exact ⟨msg, rest, rfl⟩

variable [DecidableEq P]

/-- The counters and positions keep their relation to the history under every
statement. -/
theorem RingInv.move {q : MQueue} (hlt : q.cap < uintModulus)
    {tr es : List RingEvent} {queued queued' : List (List UInt8)}
    {s : Config P Ring OpLocal} (h : RingInv q tr queued s) {p : P}
    {g' : Ring} {l' : OpLocal}
    (hstep : OpStep q s.shared (s.loc p).msgbuf (s.loc p).pc g' l' es)
    (hhistory : sentMessages (tr ++ es) =
      receivedMessages (tr ++ es) ++ queued')
    (hlayout : CyclicLayout (g'.slot q) q.cap
      (receivedMessages (tr ++ es)).length queued')
    (hmapping : ∀ e ∈ es, dataOffset ≤ e.offset ∧
      e.offset + q.maxMSize ≤ q.mappedSize) :
    RingInv q (tr ++ es) queued' (Program.move s p g' l') := by
  have hlength := congrArg List.length hhistory
  have hlength₀ := congrArg List.length h.history
  simp only [List.length_append, sentMessages_append,
    receivedMessages_append] at hlength hlength₀
  constructor
  · exact hhistory
  · have := add_total_update (fun l : OpLocal => l.pc.holdsMutex) p
      (a := 0) (b := 0) hstep.mutex
    exact this.trans h.mutex
  · have := add_total_update (fun l : OpLocal => l.pc.holdsSpace) p
      hstep.space
    have := h.space
    simp only [Program.move_shared, Program.move_loc]
    omega
  · have := add_total_update (fun l : OpLocal => l.pc.holdsItem) p
      hstep.items
    have := h.items
    simp only [Program.move_shared, Program.move_loc]
    omega
  · exact hstep.rear_lt hlt h.rear_lt
  · exact hstep.front_lt hlt h.front_lt
  · have := add_total_update_modEq (fun l : OpLocal => l.pc.atRear) p
      (hstep.rear_modEq hlt h.rear_lt)
    rw [sentMessages_append, List.length_append]
    exact this.trans (h.rear.add_right _)
  · have := add_total_update_modEq (fun l : OpLocal => l.pc.atFront) p
      (hstep.front_modEq hlt h.front_lt)
    rw [receivedMessages_append, List.length_append]
    exact this.trans (h.front.add_right _)
  · exact hlayout
  · intro e he
    rcases List.mem_append.mp he with hold | hnew
    · exact h.inMapping e hold
    · exact hmapping e hnew

/-- Statements without a copy leave the stored messages alone. -/
theorem RingInv.move_of_silent {q : MQueue} (hlt : q.cap < uintModulus)
    {tr : List RingEvent} {queued : List (List UInt8)}
    {s : Config P Ring OpLocal} (h : RingInv q tr queued s) {p : P}
    {g' : Ring} {l' : OpLocal}
    (hstep : OpStep q s.shared (s.loc p).msgbuf (s.loc p).pc g' l' [])
    (hdata : g'.data = s.shared.data) :
    RingInv q (tr ++ []) queued (Program.move s p g' l') := by
  have hslot : g'.slot q = s.shared.slot q := by
    funext i
    simp only [Ring.slot, hdata]
  apply h.move hlt hstep
  · rw [List.append_nil]
    exact h.history
  · rw [List.append_nil, hslot]
    exact h.layout
  · intro e he
    cases he

/-- Copying in appends the message to the stored ones. -/
theorem RingInv.move_of_send {q : MQueue} (hlt : q.cap < uintModulus)
    {tr : List RingEvent} {queued : List (List UInt8)}
    {s : Config P Ring OpLocal} (h : RingInv q tr queued s) {p : P}
    {msg : Memory} (hp : (s.loc p).pc = .sendCopy msg)
    {g' : Ring} {l' : OpLocal} {es : List RingEvent}
    (hdata : g' = { s.shared with
      data := s.shared.data.memcpy (q.slotOffset s.shared.rear) msg 0 q.maxMSize })
    (hes : es = [.sent (q.slotOffset s.shared.rear) (msg.bytes 0 q.maxMSize)])
    (hstep : OpStep q s.shared (s.loc p).msgbuf (s.loc p).pc g' l' es) :
    RingInv q (tr ++ es) (queued ++ [msg.bytes 0 q.maxMSize])
      (Program.move s p g' l') := by
  subst hdata hes
  have hrear := h.rear_eq hp
  apply h.move hlt hstep
  · rw [sentMessages_append, receivedMessages_append, h.history]
    simp [sentMessages, receivedMessages]
  · have hlayout := h.layout.append
      (Ring.slot q { s.shared with
        data := s.shared.data.memcpy (q.slotOffset s.shared.rear) msg 0 q.maxMSize })
      (h.queued_lt hp) (x := msg.bytes 0 q.maxMSize)
      (by rw [← hrear]; exact slot_memcpy_self q s.shared msg _)
      (by
        intro j _ hj
        rw [← hrear] at hj
        exact slot_memcpy_of_ne q s.shared msg hj)
    simpa [receivedMessages] using hlayout
  · intro e he
    rw [List.mem_singleton.mp he]
    exact q.slot_in_mapping h.rear_lt

/-- Copying out removes the oldest stored message. -/
theorem RingInv.move_of_recv {q : MQueue} (hlt : q.cap < uintModulus)
    {tr : List RingEvent} {queued : List (List UInt8)}
    {s : Config P Ring OpLocal} (h : RingInv q tr queued s) {p : P}
    (hp : (s.loc p).pc = .recvCopy) {l' : OpLocal} {es : List RingEvent}
    (hes : es = [.received (q.slotOffset s.shared.front)
      (s.shared.slot q s.shared.front)])
    (hstep : OpStep q s.shared (s.loc p).msgbuf (s.loc p).pc s.shared l' es) :
    ∃ queued', RingInv q (tr ++ es) queued' (Program.move s p s.shared l') := by
  obtain ⟨msg, rest, rfl⟩ := h.queued_ne_nil hp
  have hmsg : s.shared.slot q s.shared.front = msg := by
    rw [h.front_eq hp]
    exact h.layout.head
  rw [hmsg] at hes
  subst hes
  refine ⟨rest, h.move hlt hstep ?_ ?_ ?_⟩
  · simpa [sentMessages, receivedMessages] using h.history
  · simpa [receivedMessages] using h.layout.tail
  · intro e he
    rw [List.mem_singleton.mp he]
    exact q.slot_in_mapping h.front_lt

theorem ringInv_step {q : MQueue} (hlt : q.cap < uintModulus)
    {tr es : List RingEvent} {queued : List (List UInt8)}
    {s s' : Config P Ring OpLocal} (h : RingInv q tr queued s)
    (hstep : (ringSystem P q).step s es s') :
    ∃ queued', RingInv q (tr ++ es) queued' s' := by
  obtain ⟨p, call, hexec⟩ := Program.system_step_iff.mp hstep
  obtain ⟨g', l', hproc, rfl⟩ := Program.exec_eq_some hexec
  have hop : OpStep q s.shared (s.loc p).msgbuf (s.loc p).pc g' l' es :=
    opStep_cases hproc
  have hop' := hop
  generalize hpc : (s.loc p).pc = pc at hop'
  cases hop' with
  | sendCopy msg => exact ⟨_, h.move_of_send hlt hpc rfl rfl hop⟩
  | recvCopy => exact h.move_of_recv hlt hpc rfl hop
  | _ => exact ⟨queued, h.move_of_silent hlt hop rfl⟩

/-- Along every run the invariant holds for the messages still stored. -/
theorem ringInv_run {q : MQueue} (hcap : 0 < q.cap) (hlt : q.cap < uintModulus)
    {tr : List RingEvent} {s : Config P Ring OpLocal}
    (h : (ringSystem P q).Exec tr s) : ∃ queued, RingInv q tr queued s := by
  refine h.invariant (I := fun tr s => ∃ queued, RingInv q tr queued s) ?_ ?_
  · intro s hinit
    exact ⟨[], ringInv_init hcap hinit⟩
  · rintro tr s es s' ⟨queued, hinv⟩ hstep
    exact ringInv_step hlt hinv hstep

end Invariant

/-! ## First in, first out -/

/-- What `recv` has copied out is a prefix of what `send` has copied in; the
messages in between lie untouched in the slots from `front` on, and every copy
stays inside the mapping. -/
theorem ring_fifo {P : Type*} [Fintype P] [DecidableEq P] (q : MQueue)
    (hcap : 0 < q.cap) (hlt : q.cap < uintModulus)
    {tr : List RingEvent} {s : Config P Ring OpLocal}
    (h : (ringSystem P q).Exec tr s) :
    receivedMessages tr <+: sentMessages tr ∧
      (∃ queued, sentMessages tr = receivedMessages tr ++ queued ∧
        CyclicLayout (s.shared.slot q) q.cap
          (receivedMessages tr).length queued) ∧
      ∀ e ∈ tr, dataOffset ≤ e.offset ∧
        e.offset + q.maxMSize ≤ q.mappedSize := by
  obtain ⟨queued, hinv⟩ := ringInv_run hcap hlt h
  refine ⟨?_, ⟨queued, hinv.history, hinv.layout⟩, hinv.inMapping⟩
  rw [hinv.history]
  exact List.prefix_append _ _

/-- The queue of capacity 5 right after its initialisation. -/
def freshQueue : Config Bool Ring OpLocal where
  shared := ⟨5, 0, 1, 0, 0, fun _ => 0⟩
  loc _ := ⟨.idle, fun _ => 0⟩

/-- One process sends two messages, the other one receives the first of
them. -/
theorem ring_fifo_two_messages :
    ∃ tr s, (ringSystem Bool ⟨5, 30⟩).Exec tr s ∧
      (sentMessages tr).length = 2 ∧ (receivedMessages tr).length = 1 ∧
      receivedMessages tr <+: sentMessages tr ∧
      (∃ queued, sentMessages tr = receivedMessages tr ++ queued ∧
        CyclicLayout (s.shared.slot ⟨5, 30⟩) 5
          (receivedMessages tr).length queued) ∧
      ∀ e ∈ tr, dataOffset ≤ e.offset ∧ e.offset + 30 ≤ 5 * 30 + 8 := by
  have hinit : RingInit ⟨5, 30⟩ freshQueue :=
    ⟨rfl, rfl, rfl, rfl, rfl, fun _ => rfl⟩
  have hexec : (ringSystem Bool ⟨5, 30⟩).Exec _ _ :=
    ⟨freshQueue, hinit, Program.run_of_runSchedule
      (List.replicate 7 (true, Call.send fun _ => 65) ++
        List.replicate 7 (true, Call.send fun _ => 66) ++
        List.replicate 7 (false, Call.recv)) rfl⟩
  exact ⟨_, _, hexec, rfl, rfl, ring_fifo ⟨5, 30⟩ (by decide) (by decide) hexec⟩

end Pvos.CustomQueue
