import Pvos.Support.Interleaving
import Pvos.Support.Text

/-!
# The producer and consumer loops over three message queues

`custom_queue.cpp`, `msgq/main.cpp` and `msgq/v_msgq.cpp` run the same two
loops over a crate queue, a queue between the producers and a queue to the
consumers; they differ in the calls that send and receive.  `QueueApi` holds
these calls, and `loopStep` is one queue operation of a process together with
the statements up to the next one.

A message is the C string in its buffer.  All calls return with success: a
receive waits for a message, a send for room.
-/

namespace Pvos.TokenCrate

open Pvos.Support

/-- The three queues, or the three message types, of a program. -/
inductive Channel
  | crate
  | producers
  | consumers
  deriving DecidableEq, Repr

/-- The send and receive calls of one program on its queues `Q`.  The calls
read and write one more variable of the process, of type `X`. -/
structure QueueApi (Q X : Type*) where
  send : Channel → X → Text → Q → Option (X × Q)
  recv : Channel → X → Q → Option (X × Text × Q)

/-- `items` of all three programs. -/
def items : List String :=
  ["jedna", "dva", "tri", "ctyri", "pet", "sest", "sedm", "osm"]

/-- `items[i]`, if `i` is inside the table. -/
def itemAt (i : ℤ) : Option Text :=
  if 0 ≤ i then (items[i.toNat]?).map ascii else none

/-! ## Message texts -/

/-- `sprintf(msgbuf, "%d %d", crate_capacity, curidx)`. -/
def tokenText (crateCapacity curidx : ℤ) : Text :=
  decimal crateCapacity ++ ascii " " ++ decimal curidx

/-- `sprintf(msgbuf, "(%d): %s", getpid(), item)`. -/
def itemText (pid : ℕ) (item : Text) : Text :=
  ascii "(" ++ decimal pid ++ ascii "): " ++ item

/-- `sscanf(msgbuf, "%d %d", &crate_capacity, &curidx)`; a variable without a
match keeps its value. -/
def scanToken (s : Text) (crateCapacity curidx : ℤ) : ℤ × ℤ :=
  match sscanfInt s with
  | none => (crateCapacity, curidx)
  | some (v, n) =>
      match sscanfInt (s.drop n) with
      | none => (v, curidx)
      | some (w, _) => (v, w)

/-- `sscanf(msgbuf, "%d", &crate_capacity)`. -/
def scanCapacity (s : Text) (crateCapacity : ℤ) : ℤ :=
  match sscanfInt s with
  | none => crateCapacity
  | some (v, _) => v

/-! ## One process -/

inductive Role
  | producer
  | consumer
  deriving DecidableEq, Repr

/-- The calls of `send`: an item into the crate, the message for the consumers,
the token back to the producers, and the token of an emptied crate. -/
inductive SendPoint
  | item
  | full
  | token
  | restart
  deriving DecidableEq, Repr

/-- The calls of `recv`: the token, the message for the consumers, and the
item in round `i` of the consumer's `for` loop. -/
inductive RecvPoint
  | token
  | full
  | item (i : ℕ)
  deriving DecidableEq, Repr

@[simp] def SendPoint.channel : SendPoint → Channel
  | .item => .crate
  | .full => .consumers
  | .token => .producers
  | .restart => .producers

@[simp] def RecvPoint.channel : RecvPoint → Channel
  | .token => .producers
  | .full => .consumers
  | .item _ => .crate

/-- The next queue operation of a process; `fault` after `items` was read out
of its bounds. -/
inductive LoopPc
  | send (point : SendPoint)
  | recv (point : RecvPoint)
  | fault
  deriving DecidableEq, Repr

/-- The variables of a process. -/
structure LoopLocal (X : Type*) where
  pc : LoopPc
  crateCapacity : ℤ
  curidx : ℤ
  msgbuf : Text
  extra : X

/-- The variables after a call that leaves `x` in the extra one. -/
def LoopLocal.withExtra {X : Type*} (l : LoopLocal X) (x : X) : LoopLocal X :=
  { l with extra := x }

/-- What a process shows: the index it reads from `items`, the items it puts
into the crate, the start of a batch and the lines it prints. -/
inductive LoopEvent (P : Type*)
  | indexed (p : P) (i : ℤ)
  | stored (p : P) (text : Text)
  | received (p : P)
  | printed (p : P) (text : Text)
  deriving DecidableEq

section Statements

variable {P X : Type*}

/-- The test of the `for` loop of the consumer, and the restart message
behind the loop. -/
def LoopLocal.drainFrom (l : LoopLocal X) (i : ℕ) : LoopLocal X :=
  if (i : ℤ) < l.crateCapacity then { l with pc := .recv (.item i) }
  else { l with pc := .send .restart, msgbuf := tokenText l.crateCapacity 0 }

/-- The statements behind a `recv` of the message `text`. -/
def LoopLocal.afterRecv (pid : P → ℕ) (p : P) (l : LoopLocal X)
    (text : Text) : RecvPoint → LoopLocal X × List (LoopEvent P)
  | .token =>
      let (crateCapacity, curidx) := scanToken text l.crateCapacity l.curidx
      let l' := { l with crateCapacity := crateCapacity, curidx := curidx + 1 }
      match itemAt curidx with
      | some item =>
          ({ l' with pc := .send .item, msgbuf := itemText (pid p) item },
            [.indexed p curidx])
      | none =>
          ({ l' with pc := .fault, msgbuf := text }, [.indexed p curidx])
  | .full =>
      let l' := { l with
        crateCapacity := scanCapacity text l.crateCapacity
        msgbuf := text }
      (l'.drainFrom 0, [.received p])
  | .item i =>
      let l' := { l with msgbuf := text }
      (l'.drainFrom (i + 1), [.printed p text])

/-- The statements behind a `send` of `msgbuf`. -/
def LoopLocal.afterSend (p : P) (l : LoopLocal X) :
    SendPoint → LoopLocal X × List (LoopEvent P)
  | .item =>
      if l.curidx = l.crateCapacity then
        ({ l with pc := .send .full, msgbuf := decimal l.crateCapacity },
          [.stored p l.msgbuf])
      else
        ({ l with
          pc := .send .token
          msgbuf := tokenText l.crateCapacity l.curidx }, [.stored p l.msgbuf])
  | .full | .token => ({ l with pc := .recv .token }, [])
  | .restart => ({ l with pc := .recv .full }, [])

/-- One queue operation of process `p` and the statements up to the next. -/
def loopStep {Q : Type*} (api : QueueApi Q X) (pid : P → ℕ) (p : P) (q : Q)
    (l : LoopLocal X) : Option (Q × LoopLocal X × List (LoopEvent P)) :=
  match l.pc with
  | .send point =>
      (api.send point.channel l.extra l.msgbuf q).map fun (x, q') =>
        (q', (l.withExtra x).afterSend p point)
  | .recv point =>
      (api.recv point.channel l.extra q).map fun (x, text, q') =>
        (q', (l.withExtra x).afterRecv pid p text point)
  | .fault => none

end Statements

/-- The loops of all processes over one kind of queues. -/
def loopProgram {P Q X : Type*} (api : QueueApi Q X) (pid : P → ℕ) :
    Program P Unit Q (LoopLocal X) (LoopEvent P) where
  proc p _ := loopStep api pid p

/-- Where a process of each role waits between two rounds. -/
def Role.waiting : Role → LoopPc
  | .producer => .recv .token
  | .consumer => .recv .full

/-- The lines process `p` has printed since it last received a message from
the consumers' queue. -/
def batchOf {P : Type*} [DecidableEq P] (p : P) (tr : List (LoopEvent P)) :
    List Text :=
  tr.foldl (fun lines e =>
    match e with
    | .received p' => if p' = p then [] else lines
    | .printed p' text => if p' = p then lines ++ [text] else lines
    | _ => lines) []

end Pvos.TokenCrate
