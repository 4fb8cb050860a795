import Pvos.Support.Interleaving
import Pvos.Support.Memory

/-!
# The shared ring queue: `MQueue::send` and `MQueue::recv`

The shared object of `msgq/custom_queue.cpp` holds the positions `front` and
`rear`, the message slots behind them, and is guarded by three semaphores.
Every process repeatedly calls `send` or `recv`; each statement of the two
functions is one step, and the steps of different processes interleave freely.

Offsets into the mapping are natural numbers: the mapping of
`cap * max_m_size + 8` bytes exists, so products up to this length do not wrap.
The positions `front` and `rear` are `uint` and wrap modulo `2 ^ 32`.
-/

namespace Pvos.CustomQueue

open Pvos.Support

/-- The sizes given to the constructor of `MQueue`. -/
structure MQueue where
  cap : ℕ
  maxMSize : ℕ

/-- Values of the 32-bit unsigned type `uint`. -/
def uintModulus : ℕ := 2 ^ 32

/-- `2 * sizeof(uint)`: the bytes of `front` and `rear` before `data`. -/
def dataOffset : ℕ := 2 * 4

namespace MQueue

/-- The length given to `ftruncate` and `mmap`. -/
def mappedSize (q : MQueue) : ℕ :=
  q.cap * q.maxMSize + dataOffset

/-- The offset of `msgdata->data + i * max_m_size` in the mapping. -/
def slotOffset (q : MQueue) (i : ℕ) : ℕ :=
  dataOffset + i * q.maxMSize

end MQueue

/-- The shared `Queue` and the values of the three semaphores. -/
structure Ring where
  semFull : ℕ
  semEmpty : ℕ
  semMutex : ℕ
  front : ℕ
  rear : ℕ
  data : Memory

/-- The bytes in slot `i`. -/
def Ring.slot (q : MQueue) (g : Ring) (i : ℕ) : List UInt8 :=
  g.data.bytes (q.slotOffset i) q.maxMSize

/-- A queue operation a process may start; `msg` is the memory its argument
points to. -/
inductive Call
  | send (msg : Memory)
  | recv

/-- The next statement of a process: outside both functions, or in the body of
`send` or of `recv`. -/
inductive OpPc
  | idle
  | sendWaitFull (msg : Memory)
  | sendWaitMutex (msg : Memory)
  | sendCopy (msg : Memory)
  | sendRear
  | sendPostMutex
  | sendPostEmpty
  | recvWaitEmpty
  | recvWaitMutex
  | recvCopy
  | recvFront
  | recvPostMutex
  | recvPostFull

/-- A process: its next statement and the buffer `recv` copies to. -/
structure OpLocal where
  pc : OpPc
  msgbuf : Memory

/-- Copies of the two functions, with the offset in the mapping and the bytes
copied. -/
inductive RingEvent
  | sent (offset : ℕ) (msg : List UInt8)
  | received (offset : ℕ) (msg : List UInt8)
  deriving DecidableEq

/-- `sem_wait`: take a permit, or block. -/
def semWait (permits : ℕ) : Option ℕ :=
  if 0 < permits then some (permits - 1) else none

/-- `(pos + 1) % cap`, stored in a `uint`. -/
def nextPosition (q : MQueue) (pos : ℕ) : ℕ :=
  (pos + 1) % uintModulus % q.cap % uintModulus

/-- The next statement of a process on the shared object. -/
def opStep (q : MQueue) (call : Call) (g : Ring) (l : OpLocal) :
    Option (Ring × OpLocal × List RingEvent) :=
  match l.pc with
  | .idle =>
      match call with
      | .send msg => some (g, { l with pc := .sendWaitFull msg }, [])
      | .recv => some (g, { l with pc := .recvWaitEmpty }, [])
  | .sendWaitFull msg =>
      (semWait g.semFull).map fun n =>
        ({ g with semFull := n }, { l with pc := .sendWaitMutex msg }, [])
  | .sendWaitMutex msg =>
      (semWait g.semMutex).map fun n =>
        ({ g with semMutex := n }, { l with pc := .sendCopy msg }, [])
  | .sendCopy msg =>
      let offset := q.slotOffset g.rear
      some ({ g with data := g.data.memcpy offset msg 0 q.maxMSize },
        { l with pc := .sendRear }, [.sent offset (msg.bytes 0 q.maxMSize)])
  | .sendRear =>
      some ({ g with rear := nextPosition q g.rear },
        { l with pc := .sendPostMutex }, [])
  | .sendPostMutex =>
      some ({ g with semMutex := g.semMutex + 1 },
        { l with pc := .sendPostEmpty }, [])
  | .sendPostEmpty =>
      some ({ g with semEmpty := g.semEmpty + 1 }, { l with pc := .idle }, [])
  | .recvWaitEmpty =>
      (semWait g.semEmpty).map fun n =>
        ({ g with semEmpty := n }, { l with pc := .recvWaitMutex }, [])
  | .recvWaitMutex =>
      (semWait g.semMutex).map fun n =>
        ({ g with semMutex := n }, { l with pc := .recvCopy }, [])
  | .recvCopy =>
      let offset := q.slotOffset g.front
      let msgbuf := l.msgbuf.memcpy 0 g.data offset q.maxMSize
      some (g, { pc := .recvFront, msgbuf := msgbuf },
        [.received offset (msgbuf.bytes 0 q.maxMSize)])
  | .recvFront =>
      some ({ g with front := nextPosition q g.front },
        { l with pc := .recvPostMutex }, [])
  | .recvPostMutex =>
      some ({ g with semMutex := g.semMutex + 1 },
        { l with pc := .recvPostFull }, [])
  | .recvPostFull =>
      some ({ g with semFull := g.semFull + 1 }, { l with pc := .idle }, [])

/-- The processes using one queue. -/
def ringProgram (P : Type*) (q : MQueue) :
    Program P Call Ring OpLocal RingEvent where
  proc _ := opStep q

/-- A queue as the first `init_queue` leaves it: the semaphores hold `cap`, `0`
and `1`, both positions are `0`, and no process is inside an operation. -/
def RingInit {P : Type*} (q : MQueue) (s : Config P Ring OpLocal) : Prop :=
  s.shared.semFull = q.cap ∧ s.shared.semEmpty = 0 ∧ s.shared.semMutex = 1 ∧
    s.shared.front = 0 ∧ s.shared.rear = 0 ∧ ∀ p, (s.loc p).pc = .idle

/-- All interleavings of the calls of `send` and `recv` on one queue. -/
def ringSystem (P : Type*) [DecidableEq P] (q : MQueue) :
    System (Config P Ring OpLocal) RingEvent :=
  (ringProgram P q).system (RingInit q)

/-- The messages copied in by `send`, in the order of the copies. -/
def sentMessages (tr : List RingEvent) : List (List UInt8) :=
  tr.filterMap fun
    | .sent _ msg => some msg
    | .received _ _ => none

/-- The messages copied out by `recv`, in the order of the copies. -/
def receivedMessages (tr : List RingEvent) : List (List UInt8) :=
  tr.filterMap fun
    | .sent _ _ => none
    | .received _ msg => some msg

theorem sentMessages_append (tr tr' : List RingEvent) :
    sentMessages (tr ++ tr') = sentMessages tr ++ sentMessages tr' :=
  List.filterMap_append

theorem receivedMessages_append (tr tr' : List RingEvent) :
    receivedMessages (tr ++ tr') =
      receivedMessages tr ++ receivedMessages tr' :=
  List.filterMap_append

/-- The offset in the mapping at which a copy reads or writes. -/
def RingEvent.offset : RingEvent → ℕ
  | .sent offset _ => offset
  | .received offset _ => offset

/-! ## What one statement does -/

/-- What one statement does to the shared object, the process and the
history. -/
inductive OpStep (q : MQueue) (g : Ring) (buf : Memory) :
    OpPc → Ring → OpLocal → List RingEvent → Prop
  | callSend (msg : Memory) :
      OpStep q g buf .idle g ⟨.sendWaitFull msg, buf⟩ []
  | callRecv : OpStep q g buf .idle g ⟨.recvWaitEmpty, buf⟩ []
  | sendWaitFull (msg : Memory) (hpermit : 0 < g.semFull) :
      OpStep q g buf (.sendWaitFull msg) { g with semFull := g.semFull - 1 }
        ⟨.sendWaitMutex msg, buf⟩ []
  | sendWaitMutex (msg : Memory) (hpermit : 0 < g.semMutex) :
      OpStep q g buf (.sendWaitMutex msg) { g with semMutex := g.semMutex - 1 }
        ⟨.sendCopy msg, buf⟩ []
  | sendCopy (msg : Memory) :
      OpStep q g buf (.sendCopy msg)
        { g with
          data := g.data.memcpy (q.slotOffset g.rear) msg 0 q.maxMSize }
        ⟨.sendRear, buf⟩
        [.sent (q.slotOffset g.rear) (msg.bytes 0 q.maxMSize)]
  | sendRear :
      OpStep q g buf .sendRear { g with rear := nextPosition q g.rear }
        ⟨.sendPostMutex, buf⟩ []
  | sendPostMutex :
      OpStep q g buf .sendPostMutex { g with semMutex := g.semMutex + 1 }
        ⟨.sendPostEmpty, buf⟩ []
  | sendPostEmpty :
      OpStep q g buf .sendPostEmpty { g with semEmpty := g.semEmpty + 1 }
        ⟨.idle, buf⟩ []
  | recvWaitEmpty (hpermit : 0 < g.semEmpty) :
      OpStep q g buf .recvWaitEmpty { g with semEmpty := g.semEmpty - 1 }
        ⟨.recvWaitMutex, buf⟩ []
  | recvWaitMutex (hpermit : 0 < g.semMutex) :
      OpStep q g buf .recvWaitMutex { g with semMutex := g.semMutex - 1 }
        ⟨.recvCopy, buf⟩ []
  | recvCopy :
      OpStep q g buf .recvCopy g
        ⟨.recvFront, buf.memcpy 0 g.data (q.slotOffset g.front) q.maxMSize⟩
        [.received (q.slotOffset g.front) (g.slot q g.front)]
  | recvFront :
      OpStep q g buf .recvFront { g with front := nextPosition q g.front }
        ⟨.recvPostMutex, buf⟩ []
  | recvPostMutex :
      OpStep q g buf .recvPostMutex { g with semMutex := g.semMutex + 1 }
        ⟨.recvPostFull, buf⟩ []
  | recvPostFull :
      OpStep q g buf .recvPostFull { g with semFull := g.semFull + 1 }
        ⟨.idle, buf⟩ []

theorem semWait_eq_some {n m : ℕ} : semWait n = some m ↔ 0 < n ∧ m = n - 1 := by
  simp [semWait, eq_comm]

theorem opStep_cases {q : MQueue} {call : Call} {g g' : Ring} {pc : OpPc}
    {buf : Memory} {l' : OpLocal} {es : List RingEvent}
    (h : opStep q call g ⟨pc, buf⟩ = some (g', l', es)) :
    OpStep q g buf pc g' l' es := by
  cases pc with
  | idle =>
      cases call <;> simp only [opStep, Option.some.injEq, Prod.mk.injEq] at h <;>
        obtain ⟨rfl, rfl, rfl⟩ := h
      · exact .callSend _
      · exact .callRecv
  | sendWaitFull msg =>
      simp only [opStep, Option.map_eq_some_iff, semWait_eq_some, Prod.mk.injEq] at h
      obtain ⟨_, ⟨hpermit, rfl⟩, rfl, rfl, rfl⟩ := h
      exact .sendWaitFull msg hpermit
  | sendWaitMutex msg =>
      simp only [opStep, Option.map_eq_some_iff, semWait_eq_some, Prod.mk.injEq] at h
      obtain ⟨_, ⟨hpermit, rfl⟩, rfl, rfl, rfl⟩ := h
      exact .sendWaitMutex msg hpermit
  | recvWaitEmpty =>
      simp only [opStep, Option.map_eq_some_iff, semWait_eq_some, Prod.mk.injEq] at h
      obtain ⟨_, ⟨hpermit, rfl⟩, rfl, rfl, rfl⟩ := h
      exact .recvWaitEmpty hpermit
  | recvWaitMutex =>
      simp only [opStep, Option.map_eq_some_iff, semWait_eq_some, Prod.mk.injEq] at h
      obtain ⟨_, ⟨hpermit, rfl⟩, rfl, rfl, rfl⟩ := h
      exact .recvWaitMutex hpermit
  | recvCopy =>
      simp only [opStep, Memory.bytes_memcpy, Option.some.injEq, Prod.mk.injEq] at h
      obtain ⟨rfl, rfl, rfl⟩ := h
      exact .recvCopy
  | _ =>
      simp only [opStep, Option.some.injEq, Prod.mk.injEq] at h
      obtain ⟨rfl, rfl, rfl⟩ := h
      constructor

/-! ## Permits in flight -/

/-- Between the first wait and the last post of an operation. -/
def OpPc.inFlight : OpPc → ℕ
  | .idle | .sendWaitFull _ | .recvWaitEmpty => 0
  | _ => 1

/-- Between the wait for the mutex and its post. -/
def OpPc.holdsMutex : OpPc → ℕ
  | .sendCopy _ | .sendRear | .sendPostMutex => 1
  | .recvCopy | .recvFront | .recvPostMutex => 1
  | _ => 0

/-- Holding a permit for a slot that has no message: before the copy in, or
after the copy out. -/
def OpPc.holdsSpace : OpPc → ℕ
  | .sendWaitMutex _ | .sendCopy _ => 1
  | .recvFront | .recvPostMutex | .recvPostFull => 1
  | _ => 0

/-- Holding a permit for a slot with a message: after the copy in, or before
the copy out. -/
def OpPc.holdsItem : OpPc → ℕ
  | .sendRear | .sendPostMutex | .sendPostEmpty => 1
  | .recvWaitMutex | .recvCopy => 1
  | _ => 0

section Permits

variable {q : MQueue} {g g' : Ring} {pc : OpPc} {buf : Memory} {l' : OpLocal}
  {es : List RingEvent}

theorem OpStep.permits (h : OpStep q g buf pc g' l' es) :
    g'.semFull + g'.semEmpty + l'.pc.inFlight =
      g.semFull + g.semEmpty + pc.inFlight := by
  cases h <;> simp only [OpPc.inFlight] <;> omega

theorem OpStep.mutex (h : OpStep q g buf pc g' l' es) :
    g'.semMutex + l'.pc.holdsMutex = g.semMutex + pc.holdsMutex := by
  cases h <;> simp only [OpPc.holdsMutex] <;> omega

/-- A permit for space leaves the free slots when a message is copied in. -/
theorem OpStep.space (h : OpStep q g buf pc g' l' es) :
    g'.semFull + l'.pc.holdsSpace + (sentMessages es).length =
      g.semFull + pc.holdsSpace + (receivedMessages es).length := by
  cases h <;> simp [OpPc.holdsSpace, sentMessages, receivedMessages]
  all_goals omega

/-- A permit for an item leaves the filled slots when a message is copied
out. -/
theorem OpStep.items (h : OpStep q g buf pc g' l' es) :
    g'.semEmpty + l'.pc.holdsItem + (receivedMessages es).length =
      g.semEmpty + pc.holdsItem + (sentMessages es).length := by
  cases h <;> simp [OpPc.holdsItem, sentMessages, receivedMessages]
  all_goals omega

end Permits

end Pvos.CustomQueue
