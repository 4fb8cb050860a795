import Pvos.CustomQueue.RingHistory
import Pvos.Support.CString

/-!
# What a ring stores in the middle of an operation

`send` changes the stored messages at its copy and `recv` at its own, in front
of the statements that make the operation visible to the other processes.
-/

namespace Pvos.CustomQueue

open Pvos.Support

/-- The C string in a message block. -/
def blockText (block : List UInt8) : Text :=
  block.takeWhile (· ≠ 0)

/-- Behind the copy of `send`. -/
def OpPc.copiedIn : OpPc → Bool
  | .sendRear | .sendPostMutex | .sendPostEmpty => true
  | _ => false

/-- Behind the copy of `recv`. -/
def OpPc.copiedOut : OpPc → Bool
  | .recvFront | .recvPostMutex | .recvPostFull => true
  | _ => false

/-- A ring holds the texts `stored` while the queue it stands for holds
`texts`: an operation changes the ring at its copy and the queue at its
return. -/
def OpPc.Holds (pc : OpPc) (text : Text) (texts stored : List Text) : Prop :=
  if pc.copiedIn then stored = texts ++ [text]
  else if pc.copiedOut then texts = text :: stored
  else stored = texts

/-- Inside `send`. -/
def OpPc.inSend : OpPc → Bool
  | .sendWaitFull _ | .sendWaitMutex _ | .sendCopy _ | .sendRear
  | .sendPostMutex | .sendPostEmpty => true
  | _ => false

/-- Inside `recv`. -/
def OpPc.inRecv : OpPc → Bool
  | .recvWaitEmpty | .recvWaitMutex | .recvCopy | .recvFront
  | .recvPostMutex | .recvPostFull => true
  | _ => false

/-- The permits of the queue that an operation in flight holds: the free place
of a `send`. -/
def OpPc.sending (pc : OpPc) : ℕ :=
  if pc.inSend then pc.inFlight else 0

/-- The message of a `recv` in flight. -/
def OpPc.receiving (pc : OpPc) : ℕ :=
  if pc.inRecv then pc.inFlight else 0

/-- The statements up to the return of an operation, and one for its call. -/
def OpPc.remaining : OpPc → ℕ
  | .idle => 7
  | .sendWaitFull _ | .recvWaitEmpty => 6
  | .sendWaitMutex _ | .recvWaitMutex => 5
  | .sendCopy _ | .recvCopy => 4
  | .sendRear | .recvFront => 3
  | .sendPostMutex | .recvPostMutex => 2
  | .sendPostEmpty | .recvPostFull => 1

theorem OpPc.holds_nothing (pc : OpPc) (h : pc.inFlight = 0) :
    pc.holdsMutex = 0 ∧ pc.holdsSpace = 0 ∧ pc.holdsItem = 0 := by
  cases pc <;> simp [inFlight] at h <;> exact ⟨rfl, rfl, rfl⟩

theorem OpPc.inSend_or_inRecv (pc : OpPc) (h : pc.inFlight ≠ 0) :
    pc.inSend = true ∨ pc.inRecv = true := by
  cases pc <;> simp [inFlight, inSend, inRecv] at h ⊢

section Holds

variable {q : MQueue} {g g' : Ring} {pc : OpPc} {buf : Memory} {op : OpLocal}
  {es : List RingEvent} {texts : List Text}

theorem OpPc.holds_of_not_inFlight {text : Text} {stored : List Text}
    (h : pc.inFlight = 0) : pc.Holds text texts stored ↔ stored = texts := by
  cases pc <;> simp [OpPc.inFlight] at h <;>
    simp [Holds, copiedIn, copiedOut]

theorem OpPc.Holds.permits {text : Text} {stored : List Text}
    (h : pc.Holds text texts stored) :
    stored.length + pc.receiving = texts.length + pc.holdsItem ∧
      stored.length + pc.holdsSpace = texts.length + pc.sending := by
  cases pc <;> simp only [Holds, copiedIn, copiedOut, Bool.false_eq_true,
    if_true, if_false] at h <;> subst h <;>
    simp [receiving, sending, inSend, inRecv, inFlight, holdsItem, holdsSpace]

/-- The message a `send` is about to copy. -/
def OpPc.message : OpPc → Option Memory
  | .sendWaitFull msg | .sendWaitMutex msg | .sendCopy msg => some msg
  | _ => none

/-- Every statement but the last keeps what the ring holds for the queue. -/
theorem OpStep.holds {queued queued' : List (List UInt8)}
    (h : OpStep q g buf pc g' op es)
    (hmessage : ∀ msg, pc.message = some msg → msg = buf)
    (hqueued : queued ++ sentMessages es = receivedMessages es ++ queued')
    (hholds : pc.Holds (buf.cstring q.maxMSize 0) texts (queued.map blockText))
    (hpc : op.pc ≠ .idle) :
    op.pc.Holds (op.msgbuf.cstring q.maxMSize 0) texts
      (queued'.map blockText) := by
  cases h with
  | sendCopy msg =>
      obtain rfl := hmessage msg rfl
      have hstored : queued' = queued ++ [msg.bytes 0 q.maxMSize] := by
        simpa [sentMessages, receivedMessages] using hqueued.symm
      rw [hstored, List.map_append, show queued.map blockText = texts from hholds]
      rfl
  | recvCopy =>
      have hstored : queued = g.slot q g.front :: queued' := by
        simpa [sentMessages, receivedMessages] using hqueued
      have htexts : queued.map blockText = texts := hholds
      rw [hstored, List.map_cons] at htexts
      have htext : Memory.cstring (buf.memcpy 0 g.data (q.slotOffset g.front)
          q.maxMSize) q.maxMSize 0 = blockText (g.slot q g.front) :=
        congrArg blockText (Memory.bytes_memcpy _ _ _ _ _)
      rw [htext]
      exact htexts.symm
  | sendPostEmpty => exact absurd rfl hpc
  | recvPostFull => exact absurd rfl hpc
  | _ =>
      have hstored : queued' = queued := by
        simpa [sentMessages, receivedMessages] using hqueued.symm
      rw [hstored]
      exact hholds

/-- Inside an operation the call does not change. -/
theorem OpStep.same_call (h : OpStep q g buf pc g' op es) (hpc : pc ≠ .idle) :
    (∀ msg, op.pc.message = some msg →
      pc.message = some msg ∧ op.msgbuf = buf) ∧
      (op.pc.inSend = true → pc.inSend = true) ∧
      (op.pc.inRecv = true → pc.inRecv = true) := by
  cases h with
  | callSend msg => exact absurd rfl hpc
  | callRecv => exact absurd rfl hpc
  | _ => simp [OpPc.message, OpPc.inSend, OpPc.inRecv]

/-- Calling `send` or `recv` touches nothing. -/
theorem OpStep.of_idle (h : OpStep q g buf .idle g' op es) :
    g' = g ∧ op.msgbuf = buf ∧ es = [] ∧ op.pc.inFlight = 0 := by
  cases h <;> exact ⟨rfl, rfl, rfl, rfl⟩

/-- The statements at which an operation begins to hold permits. -/
theorem OpStep.first_wait (h : OpStep q g buf pc g' op es)
    (hidle : pc ≠ .idle) (hflight : pc.inFlight = 0) :
    (∃ msg, pc = .sendWaitFull msg) ∨
      pc = .recvWaitEmpty ∧ 0 < g.semEmpty := by
  cases h with
  | callSend msg => exact absurd rfl hidle
  | callRecv => exact absurd rfl hidle
  | sendWaitFull msg hpermit => exact Or.inl ⟨msg, rfl⟩
  | recvWaitEmpty hpermit => exact Or.inr ⟨rfl, hpermit⟩
  | _ => simp [OpPc.inFlight] at hflight

/-- The last statements of the two operations. -/
theorem OpStep.of_return (h : OpStep q g buf pc g' op es)
    (hidle : op.pc = .idle) :
    (pc = .sendPostEmpty ∨ pc = .recvPostFull) ∧ op.msgbuf = buf ∧
      es = [] := by
  cases h <;> simp at hidle ⊢

theorem OpStep.remaining_lt (h : OpStep q g buf pc g' op es)
    (hidle : op.pc ≠ .idle) : op.pc.remaining < pc.remaining := by
  cases h with
  | sendPostEmpty => exact absurd rfl hidle
  | recvPostFull => exact absurd rfl hidle
  | _ => simp [OpPc.remaining]

/-- A statement is possible unless it waits for a permit that is not there. -/
theorem exists_opStep (q : MQueue) (call : Call) {g : Ring} {l : OpLocal}
    (hfull : ∀ msg, l.pc = .sendWaitFull msg → 0 < g.semFull)
    (hempty : l.pc = .recvWaitEmpty → 0 < g.semEmpty)
    (hmutex : l.pc.holdsMutex = 0 → 0 < g.semMutex) :
    ∃ g' op es, opStep q call g l = some (g', op, es) := by
  obtain ⟨pc, buf⟩ := l
  cases pc with
  | idle => cases call <;> exact ⟨_, _, _, rfl⟩
  | sendWaitFull msg => simp [opStep, semWait, hfull msg rfl]
  | sendWaitMutex msg => simp [opStep, semWait, hmutex rfl]
  | recvWaitEmpty => simp [opStep, semWait, hempty rfl]
  | recvWaitMutex => simp [opStep, semWait, hmutex rfl]
  | _ => exact ⟨_, _, _, rfl⟩

/-- Only `recv` writes to the buffer. -/
theorem OpStep.msgbuf (h : OpStep q g buf pc g' op es)
    (hpc : pc.inRecv = false) : op.msgbuf = buf := by
  cases h with
  | recvCopy => simp [OpPc.inRecv] at hpc
  | _ => rfl

end Holds

/-! ## The invariant under a change of buffers -/

section Invariant

variable {P : Type*} [Fintype P] {q : MQueue} {tr es : List RingEvent}
  {queued queued' : List (List UInt8)} {s s' : Config P Ring OpLocal}

/-- The invariant reads the ring and the next statements. -/
theorem RingInv.congr (h : RingInv q tr queued s)
    (hshared : s'.shared = s.shared)
    (hpc : ∀ p, (s'.loc p).pc = (s.loc p).pc) : RingInv q tr queued s' := by
  have htotal : ∀ w : OpPc → ℕ, total (fun l : OpLocal => w l.pc) s'.loc =
      total (fun l : OpLocal => w l.pc) s.loc := by
    intro w
    simp only [total, hpc]
  constructor
  · exact h.history
  · rw [hshared, htotal]
    exact h.mutex
  · rw [hshared, htotal]
    exact h.space
  · rw [hshared, htotal]
    exact h.items
  · rw [hshared]
    exact h.rear_lt
  · rw [hshared]
    exact h.front_lt
  · rw [hshared, htotal]
    exact h.rear
  · rw [hshared, htotal]
    exact h.front
  · rw [hshared]
    exact h.layout
  · exact h.inMapping

/-- While no other process is in flight, the one at `turn` says how the permits
stand to the texts of the queue. -/
theorem RingInv.permits (h : RingInv q tr queued s) {turn : P}
    (houtside : ∀ p, p ≠ turn → (s.loc p).pc.inFlight = 0) {text : Text}
    {texts : List Text}
    (hholds : (s.loc turn).pc.Holds text texts (queued.map blockText)) :
    s.shared.semEmpty + (s.loc turn).pc.receiving = texts.length ∧
      s.shared.semFull + (s.loc turn).pc.sending + texts.length = q.cap ∧
      s.shared.semMutex + (s.loc turn).pc.holdsMutex = 1 := by
  have hturn : ∀ w : OpPc → ℕ, (∀ pc : OpPc, pc.inFlight = 0 → w pc = 0) →
      total (fun l : OpLocal => w l.pc) s.loc = w (s.loc turn).pc :=
    fun w hw => total_eq_of_unique fun p hp => hw _ (houtside p hp)
  have hmutex := h.mutex
  have hspace := h.space
  have hitems := h.items
  rw [hturn _ fun pc hpc => pc.holds_nothing hpc |>.1] at hmutex
  rw [hturn _ fun pc hpc => pc.holds_nothing hpc |>.2.1] at hspace
  rw [hturn _ fun pc hpc => pc.holds_nothing hpc |>.2.2] at hitems
  obtain ⟨hreceiving, hsending⟩ := hholds.permits
  rw [List.length_map] at hreceiving hsending
  omega

/-- Between two histories the stored messages change by what was copied in and
out. -/
theorem RingInv.queued_append (h : RingInv q tr queued s)
    (h' : RingInv q (tr ++ es) queued' s') :
    queued ++ sentMessages es = receivedMessages es ++ queued' := by
  have hhistory := h'.history
  rw [sentMessages_append, receivedMessages_append, h.history,
    List.append_assoc, List.append_assoc] at hhistory
  exact List.append_cancel_left hhistory

end Invariant

end Pvos.CustomQueue
