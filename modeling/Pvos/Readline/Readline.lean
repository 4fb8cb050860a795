import Pvos.Support.Memory

/-!
# `readline_tout`

`readline/main.cpp` reads lines from a descriptor with a timeout.  Bytes that
`read` returned behind a newline stay in a buffer that belongs to the
descriptor; the pairs of descriptor and buffer are kept in a static list.

Each `select` and the `read` behind it form one outcome of the environment.  A
call that has used up the outcomes waits for input.  The loop of the function
is split into `refill`, which is the block that reads when the inner buffer is
used up, and `advance`, which looks at one byte.
-/

namespace Pvos.Readline

open Pvos.Support

/-- `L_BUFFER_SIZE`. -/
def lBufferSize : ℕ := 128

/-- The byte `'\n'`. -/
def newline : UInt8 := 10

/-- Values of `errno`. -/
inductive Errno
  | none
  | etime
  | eagain
  | other (code : ℕ)
  deriving DecidableEq, Repr

/-- What `select` and `read` return: a timeout, the bytes read (none at the
end of the file), or an error of `read`. -/
inductive Outcome
  | timeout
  | data (bytes : List UInt8)
  | failed (errno : Errno)

structure FdBufferPair where
  fd : ℤ
  buffer : Memory
  offset : ℤ
  bufferLen : ℕ
  readBytes : ℤ

namespace FdBufferPair

/-- `FdBufferPair::reset`. -/
def reset (pair : FdBufferPair) : FdBufferPair :=
  { pair with
    offset := 0
    readBytes := 0
    buffer := pair.buffer.memset 0 0 pair.bufferLen }

/-- The pair made for a descriptor seen for the first time. -/
def fresh (fd : ℤ) : FdBufferPair where
  fd := fd
  buffer := fun _ => 0
  offset := -1
  bufferLen := lBufferSize
  readBytes := 0

/-- The state of `pair` after `read` returned `bytes`. -/
def filled (pair : FdBufferPair) (bytes : List UInt8) : FdBufferPair :=
  { pair with
    buffer := pair.buffer.write 0 bytes
    offset := 0
    readBytes := bytes.length }

end FdBufferPair

/-- What a call returns, with `errno`, the contents of `out_buffer` and the
pair of its descriptor. -/
structure Returned where
  ret : ℤ
  errno : Errno
  out : Memory
  pair : FdBufferPair

/-- A call waits for input, or returns and leaves some outcomes to later
calls. -/
inductive Called
  | waits
  | returns (r : Returned) (outcomes : List Outcome)

/-! ## The loop -/

/-- The variables of the loop. -/
structure LoopState where
  pair : FdBufferPair
  out : Memory
  startingOffset : ℕ
  lineLen : ℕ
  copied : ℕ

namespace LoopState

/-- `fd_pair->offset - starting_offset`. -/
def pendingLen (l : LoopState) : ℕ :=
  (l.pair.offset - l.startingOffset).toNat

/-- Copy the pending bytes of the inner buffer to `out_buffer + copied`. -/
def copyOut (l : LoopState) : Memory :=
  l.out.memcpy l.copied l.pair.buffer l.startingOffset l.pendingLen

/-- Return with `errno` set. -/
def stop (l : LoopState) (ret : ℤ) (errno : Errno) : Returned where
  ret := ret
  errno := errno
  out := l.out
  pair := l.pair

/-- `read` returned `ret <= 0` inside the loop. -/
def stopRead (l : LoopState) (ret : ℤ) (errno : Errno) : Returned :=
  if 0 < l.lineLen then l.stop (-l.lineLen) .eagain else l.stop ret errno

/-- The inner buffer is copied out and reset. -/
def flush (l : LoopState) : LoopState :=
  { l with
    pair := l.pair.reset
    out := l.copyOut
    copied := l.copied + l.pendingLen }

/-- The inner buffer after `read` returned `bytes` inside the loop. -/
def filled (l : LoopState) (bytes : List UInt8) : LoopState :=
  { l with
    pair := l.pair.filled bytes
    startingOffset := 0 }

/-- The call after the block that reads: waiting, returning or going on. -/
inductive Refilled
  | waits
  | stops (r : Returned) (outcomes : List Outcome)
  | goes (l : LoopState) (outcomes : List Outcome)

/-- Read when the inner buffer is used up. -/
def refill (l : LoopState) (outcomes : List Outcome) : Refilled :=
  if l.pair.readBytes ≤ l.pair.offset then
    match outcomes with
    | [] => .waits
    | .timeout :: rest => .stops (l.flush.stop (-1) .etime) rest
    | .failed errno :: rest => .stops (l.flush.stopRead (-1) errno) rest
    | .data [] :: rest => .stops (l.flush.stopRead 0 .none) rest
    | .data (b :: bytes) :: rest => .goes (l.flush.filled (b :: bytes)) rest
  else .goes l outcomes

/-- The byte at `offset`. -/
def byte (l : LoopState) : UInt8 := l.pair.buffer l.pair.offset.toNat

/-- `offset` and `line_len` move behind one byte. -/
def advance (l : LoopState) : LoopState :=
  { l with
    pair := { l.pair with offset := l.pair.offset + 1 }
    lineLen := l.lineLen + 1 }

/-- The statements behind the loop. -/
def finish (count : ℕ) (l : LoopState) : Returned :=
  if count ≤ l.lineLen then l.stop (-l.lineLen) .eagain
  else
    { ret := l.lineLen
      errno := .none
      out := l.copyOut.write (l.copied + l.pair.offset.toNat) [0]
      pair := l.pair }

end LoopState

/-- The `while` loop; `todo` is `count - line_len`. -/
def readLoop (count : ℕ) : ℕ → LoopState → List Outcome → Called
  | 0, l, outcomes => .returns (l.finish count) outcomes
  | todo + 1, l, outcomes =>
      match l.refill outcomes with
      | .waits => .waits
      | .stops r rest => .returns r rest
      | .goes l' rest =>
          if l'.byte = newline then .returns (l'.advance.finish count) rest
          else readLoop count todo l'.advance rest

/-! ## The function -/

/-- The variables at the start of the loop. -/
def LoopState.start (pair : FdBufferPair) (out : Memory) : LoopState where
  pair := pair
  out := out
  startingOffset := pair.offset.toNat
  lineLen := 0
  copied := 0

/-- The call for the pair of a descriptor, with `out_buffer` zeroed: the first
read of a new pair and the loop. -/
def readPair (pair : FdBufferPair) (out : Memory) (count : ℕ)
    (outcomes : List Outcome) : Called :=
  if pair.offset = -1 then
    match outcomes with
    | [] => .waits
    | .timeout :: rest => .returns ⟨-1, .etime, out, pair⟩ rest
    | .failed errno :: rest => .returns ⟨-1, errno, out, pair⟩ rest
    | .data bytes :: rest =>
        readLoop count count (.start (pair.filled bytes) out) rest
  else readLoop count count (.start pair out) outcomes

/-- The pair of `fd`, or a new one behind the list. -/
def pairOf (pairs : List FdBufferPair) (fd : ℤ) : FdBufferPair :=
  (pairs.find? fun pair => pair.fd = fd).getD (.fresh fd)

/-- Store the pair of a descriptor in the list. -/
def storePair (pairs : List FdBufferPair) (pair : FdBufferPair) :
    List FdBufferPair :=
  match pairs with
  | [] => [pair]
  | first :: rest =>
      if first.fd = pair.fd then pair :: rest else first :: storePair rest pair

/-- A call of `readline_tout`: it crashes, waits for input, or returns with the
new list of pairs. -/
inductive Call
  | crashes
  | waits
  | returns (r : Returned) (pairs : List FdBufferPair)
      (outcomes : List Outcome)

/-- `readline_tout(fd, out_buffer, count)`; `none` is the null pointer, which
the first `memset` writes through.  A `memset` of no bytes at the null pointer is
undefined in C; here it does nothing, and the test for the null pointer behind
it is kept, as in the build without optimisation. -/
def readlineTout (pairs : List FdBufferPair) (fd : ℤ) (outBuffer : Option Memory)
    (count : ℕ) (outcomes : List Outcome) : Call :=
  let out := (outBuffer.getD fun _ => 0).memset 0 0 count
  if outBuffer.isNone ∧ 0 < count then .crashes
  else if outBuffer.isNone ∧ (pairs.any fun pair => pair.fd = fd) then
    let pair := (pairOf pairs fd).reset
    .returns ⟨0, .none, out, pair⟩ (storePair pairs pair) outcomes
  else
    match readPair (pairOf pairs fd) out count outcomes with
    | .waits => .waits
    | .returns r rest => .returns r (storePair pairs r.pair) rest

end Pvos.Readline
