import Pvos.CustomQueue.Stored
import Pvos.TokenCrate.Protocol

/-!
# The loops of `custom_queue.cpp` over its three rings

A process runs its loop and, inside a queue operation, the statements of `send`
or `recv`; each statement is one step, and the steps of all processes
interleave.  The message of a `send` and the buffer of a `recv` are the same
`msgbuf`.

While the processes take turns, the rings behave as first-in, first-out queues
whose operations take effect when they return.
-/

namespace Pvos.TokenCrate

open Pvos.Support Pvos.CustomQueue

/-- The shared rings behind the three queue names. -/
abbrev Rings := Channel → Ring

/-- The variables of a process of `custom_queue.cpp`; `op` holds `msgbuf` and
the next statement inside a queue operation. -/
structure RingLocal where
  pc : LoopPc
  crateCapacity : ℤ
  curidx : ℤ
  op : OpLocal

namespace RingLocal

/-- The queue operation at which the loop is. -/
def call (l : RingLocal) : Option (Channel × Call) :=
  match l.pc with
  | .send point => some (point.channel, .send l.op.msgbuf)
  | .recv point => some (point.channel, .recv)
  | .fault => none

/-- The variables as the statements of the loop see them. -/
def vars (q : MQueue) (l : RingLocal) : LoopLocal Unit where
  pc := l.pc
  crateCapacity := l.crateCapacity
  curidx := l.curidx
  msgbuf := l.op.msgbuf.cstring q.maxMSize 0
  extra := ()

/-- In front of the next queue operation; the text of a `send` has been printed
into `msgbuf`. -/
def resume (l : RingLocal) (next : LoopLocal Unit) : RingLocal where
  pc := next.pc
  crateCapacity := next.crateCapacity
  curidx := next.curidx
  op :=
    { pc := .idle
      msgbuf :=
        match next.pc with
        | .send _ => l.op.msgbuf.sprintf 0 next.msgbuf
        | _ => l.op.msgbuf }

/-- The statements behind a queue operation that returned. -/
def behindCall {P : Type*} (q : MQueue) (pid : P → ℕ) (p : P)
    (l : RingLocal) : RingLocal × List (LoopEvent P) :=
  match l.pc with
  | .send point =>
      let (next, es) := (l.vars q).afterSend p point
      (l.resume next, es)
  | .recv point =>
      let (next, es) :=
        (l.vars q).afterRecv pid p (l.op.msgbuf.cstring q.maxMSize 0) point
      (l.resume next, es)
  | .fault => (l, [])

end RingLocal

/-- The next statement of process `p`. -/
def ringsStep {P : Type*} (q : MQueue) (pid : P → ℕ) (p : P) (g : Rings)
    (l : RingLocal) : Option (Rings × RingLocal × List (LoopEvent P)) :=
  match l.call with
  | none => none
  | some (ch, call) =>
      match opStep q call (g ch) l.op with
      | none => none
      | some (r, op, _) =>
          let g' := Function.update g ch r
          let l' := { l with op := op }
          match op.pc with
          | .idle =>
              let (next, es) := l'.behindCall q pid p
              some (g', next, es)
          | _ => some (g', l', [])

/-- The loops of all processes over three rings. -/
def ringsProgram {P : Type*} (q : MQueue) (pid : P → ℕ) :
    Program P Unit Rings RingLocal (LoopEvent P) where
  proc p _ := ringsStep q pid p

/-! ## The part of a process that belongs to one ring -/

/-- The queue of the operation at which a loop is. -/
def LoopPc.channel : LoopPc → Option Channel
  | .send point => some point.channel
  | .recv point => some point.channel
  | .fault => none

/-- The statement of a process inside an operation on the queue `ch`. -/
def RingLocal.opAt (ch : Channel) (l : RingLocal) : OpLocal where
  pc := if l.pc.channel = some ch then l.op.pc else .idle
  msgbuf := l.op.msgbuf

/-- One ring and the processes as far as they are inside its operations. -/
def ringAt {P : Type*} (c : Config P Rings RingLocal) (ch : Channel) :
    Config P Ring OpLocal where
  shared := c.shared ch
  loc p := (c.loc p).opAt ch

theorem RingLocal.opAt_of_idle {l : RingLocal} (h : l.op.pc = .idle)
    (ch : Channel) : (l.opAt ch).pc = .idle := by
  rw [opAt, h, ite_self]

theorem RingLocal.opAt_self {l : RingLocal} {ch : Channel}
    (h : l.pc.channel = some ch) : l.opAt ch = l.op := by
  rw [opAt, if_pos h]

theorem RingLocal.opAt_ne {l : RingLocal} {ch ch' : Channel}
    (h : l.pc.channel = some ch) (hne : ch' ≠ ch) :
    (l.opAt ch').pc = .idle := by
  rw [opAt, if_neg]
  rw [h]
  exact fun heq => hne (Option.some.inj heq).symm

section Step

variable {P : Type*} {q : MQueue} {pid : P → ℕ} {p : P} {g g' : Rings}
  {l l' : RingLocal} {es : List (LoopEvent P)}

theorem RingLocal.call_channel {ch : Channel} {call : Call}
    (h : l.call = some (ch, call)) : l.pc.channel = some ch := by
  cases hpc : l.pc <;> simp [RingLocal.call, hpc] at h <;>
    simp [LoopPc.channel, h.1]

/-- A statement inside an operation, or its last one with the statements up to
the next operation. -/
theorem ringsStep_cases (h : ringsStep q pid p g l = some (g', l', es)) :
    ∃ ch call r op rs, l.call = some (ch, call) ∧
      opStep q call (g ch) l.op = some (r, op, rs) ∧
      g' = Function.update g ch r ∧
      ((op.pc ≠ .idle ∧ l' = { l with op := op } ∧ es = []) ∨
        (op.pc = .idle ∧
          (l', es) = RingLocal.behindCall q pid p { l with op := op })) := by
  simp only [ringsStep] at h
  split at h
  next => simp at h
  next ch call hcall =>
    split at h
    next => simp at h
    next r op rs hop =>
      refine ⟨ch, call, r, op, rs, hcall, hop, ?_⟩
      split at h
      next hpc =>
        simp only [Option.some.injEq, Prod.mk.injEq] at h
        obtain ⟨rfl, rfl, rfl⟩ := h
        exact ⟨rfl, Or.inr ⟨hpc, rfl⟩⟩
      next hpc =>
        simp only [Option.some.injEq, Prod.mk.injEq] at h
        obtain ⟨rfl, rfl, rfl⟩ := h
        exact ⟨rfl, Or.inl ⟨hpc, rfl, rfl⟩⟩

/-- The operation of a process is the one its loop is at, on its own
`msgbuf`. -/
structure RingLocal.Serves (l : RingLocal) : Prop where
  message : ∀ msg, l.op.pc.message = some msg → msg = l.op.msgbuf
  send : l.op.pc.inSend = true → ∃ point, l.pc = .send point
  recv : l.op.pc.inRecv = true → ∃ point, l.pc = .recv point

theorem RingLocal.serves_of_idle (h : l.op.pc = .idle) : l.Serves := by
  constructor <;> rw [h] <;> intros <;> contradiction

theorem RingLocal.Serves.opStep {ch : Channel} {call : Call} {r r' : Ring}
    {op : OpLocal} {rs : List RingEvent} (h : l.Serves)
    (hcall : l.call = some (ch, call))
    (hop : opStep q call r l.op = some (r', op, rs)) :
    RingLocal.Serves { l with op := op } := by
  by_cases hidle : l.op.pc = .idle
  · cases hpc : l.pc with
    | send point =>
        simp only [RingLocal.call, hpc, Option.some.injEq, Prod.mk.injEq] at hcall
        obtain ⟨rfl, rfl⟩ := hcall
        simp only [CustomQueue.opStep, hidle, Option.some.injEq,
          Prod.mk.injEq] at hop
        obtain ⟨-, rfl, -⟩ := hop
        refine ⟨?_, fun _ => ⟨point, rfl⟩, ?_⟩ <;>
          simp [OpPc.message, OpPc.inRecv]
    | recv point =>
        simp only [RingLocal.call, hpc, Option.some.injEq, Prod.mk.injEq] at hcall
        obtain ⟨rfl, rfl⟩ := hcall
        simp only [CustomQueue.opStep, hidle, Option.some.injEq,
          Prod.mk.injEq] at hop
        obtain ⟨-, rfl, -⟩ := hop
        refine ⟨?_, ?_, fun _ => ⟨point, rfl⟩⟩ <;>
          simp [OpPc.message, OpPc.inSend]
    | fault => simp [RingLocal.call, hpc] at hcall
  · obtain ⟨hmessage, hsend, hrecv⟩ := (opStep_cases hop).same_call hidle
    refine ⟨?_, fun hin => h.send (hsend hin), fun hin => h.recv (hrecv hin)⟩
    intro msg hmsg
    obtain ⟨hold, hbuf⟩ := hmessage msg hmsg
    exact (h.message msg hold).trans hbuf.symm

end Step

end Pvos.TokenCrate
