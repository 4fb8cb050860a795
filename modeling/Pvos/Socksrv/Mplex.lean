import Pvos.Checksum.Scan
import Pvos.Support.System
import Mathlib.Data.Finset.Insert

/-!
# The multiplexing server

`main` of `socksrv/socket_srv_mplex.cpp` polls stdin, the listening socket and
its clients.  A pass of the inner loop reads stdin, accepts a client, and
serves the first client that is readable.  `read_data_from_client` keeps its
buffer in a static variable.

The descriptors that the process has open are part of the state: `accept`
returns one that is not among them.
-/

namespace Pvos.Socksrv

open Pvos.Support Pvos.Checksum

/-- `sizeof(l_buf)`. -/
def lBufSize : ℕ := 512

/-- `POLLIN`. -/
def pollin : ℕ := 1

/-! ## `read_data_from_client` -/

/-- The bytes read, none at the end of the stream, or an error. -/
inductive ReadResult
  | data (bytes : List UInt8)
  | failed

/-- What a call returns: whether it closed the descriptor, the reply it wrote,
and the static buffer. -/
structure Served where
  ret : ℤ
  closed : Bool
  reply : Option Text
  lBuf : Memory

/-- `tolower` in the C locale. -/
def toLower (b : UInt8) : UInt8 :=
  if 65 ≤ b ∧ b ≤ 90 then b + 32 else b

/-- `!strncasecmp(l_buf, "close", strlen("close"))`. -/
def isClose (lBuf : Memory) : Bool :=
  (lBuf.bytes 0 5).map toLower = ascii "close"

/-- The reply printed into `l_buf`. -/
def replyText (correct : Bool) : Text :=
  if correct then ascii "OK\n" else ascii "ERR\n"

/-- The statements behind the `read`. -/
def serveBuffer (lBuf : Memory) (currentNum : ℤ) : Served :=
  if isClose lBuf then ⟨-1, true, none, lBuf⟩
  else
    match scan lBuf lBufSize currentNum with
    | .stuck _ => ⟨-1, false, none, lBuf⟩
    | .done s =>
        let printed := lBuf.sprintf 0 (replyText s.correct)
        ⟨0, false, some (printed.cstring lBufSize 0),
          printed.memset 0 0 lBufSize⟩

/-- `read_data_from_client`, with the uninitialised `current_num`. -/
def readDataFromClient (lBuf : Memory) (currentNum : ℤ) : ReadResult → Served
  | .data [] => ⟨-1, true, none, lBuf⟩
  | .data bytes => serveBuffer (lBuf.write 0 bytes) currentNum
  | .failed => serveBuffer lBuf currentNum

/-! ## The event loop -/

structure Pollfd where
  fd : ℤ
  events : ℕ
  revents : ℕ

/-- `revents & POLLIN`. -/
def Pollfd.readable (c : Pollfd) : Bool :=
  c.revents &&& pollin ≠ 0

/-- The variables of the server and the open descriptors of the process. -/
structure Server where
  sockListen : ℤ
  clients : List Pollfd
  lBuf : Memory
  openFds : Finset ℤ

/-- What the system calls of a pass return, and the values that variables hold
before they are initialised: `poll` fails or sets the `revents` by index, the
bytes of `read` from stdin and the old content of `buf`, the result of
`accept`, the `revents` of a new client, the `read` of a client. -/
structure PassInput where
  poll : Option (ℕ → ℕ)
  stdin : Option (List UInt8)
  stdinBuf : Memory
  accept : ℤ
  newRevents : ℕ
  read : ReadResult
  currentNum : ℤ

/-- What a pass does to descriptors. -/
inductive ServerEvent
  | accepted (fd : ℤ)
  | closed (fd : ℤ)
  | wrote (fd : ℤ) (text : Text)

/-- A pass exits the process, or goes on. -/
inductive PassEnd
  | exits (code : ℕ)
  | goes (s : Server)

/-- `clients[i].revents & POLLIN`; the list has these elements. -/
def readableAt (clients : List Pollfd) (i : ℕ) : Bool :=
  (clients[i]?.map Pollfd.readable).getD false

/-- The vector behind `poll`. -/
def polled (clients : List Pollfd) (revents : ℕ → ℕ) : List Pollfd :=
  clients.mapIdx fun i c => { c with revents := revents i }

/-- `!strncmp(buf, "quit", strlen("quit"))`. -/
def isQuit (buf : Memory) : Bool :=
  buf.bytes 0 4 = ascii "quit"

/-- The block that handles stdin: an exit, or nothing. -/
def handleStdin (s : Server) (input : PassInput) :
    Option (ℕ × List ServerEvent) :=
  if readableAt s.clients 0 then
    match input.stdin with
    | none => some (1, [])
    | some bytes =>
        if isQuit (input.stdinBuf.write 0 bytes) then
          some (0, [.closed s.sockListen])
        else none
  else none

/-- The block that accepts a client: `none` if `accept` fails. -/
def acceptClient (s : Server) (input : PassInput) :
    Option (Server × List ServerEvent) :=
  if readableAt s.clients 1 then
    if input.accept = -1 then none
    else some
      ({ s with
          clients := s.clients ++ [⟨input.accept, pollin, input.newRevents⟩]
          openFds := insert input.accept s.openFds },
        [.accepted input.accept])
  else some (s, [])

/-- The `for` loop from `i` on: the first readable client; `todo` bounds its
passes. -/
def firstReadable (clients : List Pollfd) : ℕ → ℕ → Option ℕ
  | 0, _ => none
  | todo + 1, i =>
      if clients.length ≤ i then none
      else if readableAt clients i then some i
      else firstReadable clients todo (i + 1)

/-- What a call of `read_data_from_client(fd)` shows. -/
def servedEvents (fd : ℤ) (r : Served) : List ServerEvent :=
  (if r.closed then [.closed fd] else []) ++
    (r.reply.map (.wrote fd)).toList

/-- The `for` loop: it serves one client, and erases it by its index when the
call returned a negative value. -/
def serveClients (s : Server) (input : PassInput) :
    Server × List ServerEvent :=
  match firstReadable s.clients s.clients.length 2 with
  | none => (s, [])
  | some i =>
      match s.clients[i]? with
      | none => (s, [])
      | some c =>
          let r := readDataFromClient s.lBuf input.currentNum input.read
          ({ s with
              clients := if r.ret < 0 then s.clients.eraseIdx i else s.clients
              lBuf := r.lBuf
              openFds := if r.closed then s.openFds.erase c.fd else s.openFds },
            servedEvents c.fd r)

/-- One pass of the inner loop. -/
def serverPass (s : Server) (input : PassInput) :
    PassEnd × List ServerEvent :=
  match input.poll with
  | none => (.exits 1, [])
  | some revents =>
      let s := { s with clients := polled s.clients revents }
      match handleStdin s input with
      | some (code, events) => (.exits code, events)
      | none =>
          match acceptClient s input with
          | none => (.exits 1, [.closed s.sockListen])
          | some (s, accepted) =>
              let (s, served) := serveClients s input
              (.goes s, accepted ++ served)

/-- The server behind `listen`: stdin and the listening socket are polled. -/
def ServerInit (s : Server) : Prop :=
  (∃ r r', s.clients = [⟨0, pollin, r⟩, ⟨s.sockListen, pollin, r'⟩]) ∧
    (s.lBuf = fun _ => 0) ∧ 0 ∈ s.openFds ∧ s.sockListen ∈ s.openFds

/-- The passes that go on, where `accept` returns a descriptor that is not
open. -/
def serverSystem : System Server ServerEvent where
  init := ServerInit
  step s es s' := ∃ input : PassInput, input.accept ∉ s.openFds ∧
    serverPass s input = (.goes s', es)

end Pvos.Socksrv
