import Pvos.Socksrv.Interference

/-!
# The communication loop

`main` of `socksrv/socket_srv.cpp` and `client_comm` of
`socksrv/socket_srv_thread.cpp` serve one client with the same loop.  A pass
sends what stdin brings to the client, and answers what the client sent.

The answer is the one of `read_data_from_client`: the guard of the inner loop,
behind which the two differ, never holds.
-/

namespace Pvos.Socksrv

open Pvos.Support Pvos.Checksum

/-! ## Data from the client -/

/-- The variables behind the loop over the numbers. -/
def scanned : ScanEnd → ScanState
  | .done s => s
  | .stuck s => s

/-- What the block for data from the client does: whether it leaves the loop,
the reply it wrote, and `l_buf`. -/
structure Answered where
  leaves : Bool
  reply : Option Text
  lBuf : Memory

/-- The statements behind the `read`. -/
def answerBuffer (lBuf : Memory) (currentNum : ℤ) : Answered :=
  if isClose lBuf then ⟨true, none, lBuf⟩
  else
    let s := scanned (scan lBuf lBufSize currentNum)
    let printed := lBuf.sprintf 0 (replyText s.correct)
    ⟨false, some (printed.cstring lBufSize 0), printed.memset 0 0 lBufSize⟩

/-- The block, with the uninitialised `current_num`. -/
def answer (lBuf : Memory) (currentNum : ℤ) : ReadResult → Answered
  | .data [] => ⟨true, none, lBuf⟩
  | .data bytes => answerBuffer (lBuf.write 0 bytes) currentNum
  | .failed => answerBuffer lBuf currentNum

theorem answerBuffer_eq (lBuf : Memory) (currentNum : ℤ) :
    answerBuffer lBuf currentNum =
      ⟨(serveBuffer lBuf currentNum).closed, (serveBuffer lBuf currentNum).reply,
        (serveBuffer lBuf currentNum).lBuf⟩ := by
  unfold answerBuffer serveBuffer
  obtain ⟨s, hscan⟩ := scan_done lBuf currentNum
  rw [hscan]
  split <;> rfl

/-- The block decides like `read_data_from_client`. -/
theorem answer_eq (lBuf : Memory) (currentNum : ℤ) (read : ReadResult) :
    answer lBuf currentNum read =
      ⟨(readDataFromClient lBuf currentNum read).closed,
        (readDataFromClient lBuf currentNum read).reply,
        (readDataFromClient lBuf currentNum read).lBuf⟩ := by
  cases read with
  | failed => exact answerBuffer_eq lBuf currentNum
  | data bytes =>
      cases bytes with
      | nil => rfl
      | cons b bytes => exact answerBuffer_eq _ currentNum

/-! ## A pass -/

/-- What the system calls of a pass return: `poll` fails or reports `POLLIN`
for stdin and for the client, the bytes of the two `read`s. -/
structure CommInput where
  poll : Option (Bool × Bool)
  stdin : ReadResult
  read : ReadResult
  currentNum : ℤ

/-- A pass exits the process, leaves the loop, or goes on. -/
inductive CommEnd
  | exits (code : ℕ)
  | leaves
  | goes
  deriving DecidableEq

/-- How a pass ends, what it wrote to the client, and `l_buf`. -/
structure CommPass where
  ends : CommEnd
  written : List Text
  lBuf : Memory

/-- `!strncasecmp(l_buf, "quit", strlen("quit"))`. -/
def isQuitRequest (lBuf : Memory) : Bool :=
  (lBuf.bytes 0 4).map toLower = ascii "quit"

/-- The block for data on stdin: `l_buf` and what is sent to the client. -/
def forwardStdin (lBuf : Memory) : ReadResult → Memory × List Text
  | .data bytes => (lBuf.write 0 bytes, [bytes])
  | .failed => (lBuf, [])

/-- One pass of the loop. -/
def commPass (lBuf : Memory) (input : CommInput) : CommPass :=
  match input.poll with
  | none => ⟨.exits 1, [], lBuf⟩
  | some (stdinReadable, clientReadable) =>
      let (lBuf, sent) :=
        if stdinReadable then forwardStdin lBuf input.stdin else (lBuf, [])
      let a :=
        if clientReadable then answer lBuf input.currentNum input.read
        else ⟨false, none, lBuf⟩
      let written := sent ++ a.reply.toList
      if a.leaves then ⟨.leaves, written, a.lBuf⟩
      else if isQuitRequest a.lBuf then ⟨.exits 0, written, a.lBuf⟩
      else ⟨.goes, written, a.lBuf⟩

/-! ## Passes one after another -/

/-- What the loop writes to its client; `l_buf` keeps its place in memory. -/
def commReplies : Memory → List CommInput → List Text
  | _, [] => []
  | lBuf, input :: inputs =>
      let p := commPass lBuf input
      p.written ++ match p.ends with
        | .goes => commReplies p.lBuf inputs
        | _ => []

/-- The pass in which only the client has sent something. -/
def clientSends (read : List UInt8 × ℤ) : CommInput where
  poll := some (false, true)
  stdin := .failed
  read := .data read.1
  currentNum := read.2

/-- What `read_data_from_client` writes to a client alone. -/
def mplexReplies : Memory → List (List UInt8 × ℤ) → List Text
  | _, [] => []
  | lBuf, (bytes, currentNum) :: reads =>
      let r := readDataFromClient lBuf currentNum (.data bytes)
      r.reply.toList ++ if r.ret < 0 then [] else mplexReplies r.lBuf reads

end Pvos.Socksrv
