import Pvos.Socksrv.Batches
import Pvos.Socksrv.ReadyReads
import Pvos.Socksrv.Relay

/-!
# The multiplexing server and its clients

Any number of processes of `socket_cl.cpp` are connected with one process of
`socket_srv_mplex.cpp`, and nobody types.  A client sends the texts that it
generates, and displays what the server replies; a pass of the server accepts
the client that waits longest, and serves one that has sent something.

Between two processes lie bytes that were written and not read yet.  A `write`
takes all its bytes and they arrive together; a `read` of the server takes what
has arrived, up to the size of the buffer.
-/

namespace Pvos.Socksrv

open Pvos.Support Pvos.Checksum Pvos.Readline

/-! ## The system -/

/-- A client has not connected yet, is in its loop, or has left it and closed
its socket. -/
inductive ClientStatus
  | outside
  | inside
  | left
  deriving DecidableEq

/-- The server; the connections that it has not accepted, and the ones its
descriptors stand for; of each client the status, whether the server has closed
its connection, `l_i`, and the bytes on the way in both directions. -/
structure Chat (P : Type*) where
  server : Server
  backlog : List P
  peer : ℤ → Option P
  status : P → ClientStatus
  hungUp : P → Bool
  lI : P → ℕ
  toServer : P → List UInt8
  toClient : P → List UInt8

/-- A text that was sent and whether its sum is corrupted, or bytes written to
stdout. -/
inductive ChatEvent (P : Type*)
  | sent (p : P) (text : Text) (corrupted : Bool)
  | displayed (p : P) (text : Text)

section System

variable {P : Type*} [DecidableEq P]

namespace Chat

/-- A `read` of the server would not block: there are bytes, or the end of the
stream. -/
def arrived (n : Chat P) (p : P) : Bool :=
  !(n.toServer p).isEmpty || n.status p = .left

/-- What `poll` sets in the server's vector. -/
def revents (n : Chat P) : ℕ → ℕ
  | 0 => 0
  | 1 => if n.backlog.isEmpty then 0 else pollin
  | i + 2 =>
      match n.server.clients[i + 2]?.bind fun c => n.peer c.fd with
      | some p => if n.arrived p then pollin else 0
      | none => 0

/-- What a call of the server does to the connections. -/
def afterEvent (n : Chat P) : ServerEvent → Chat P
  | .accepted fd =>
      match n.backlog with
      | [] => n
      | p :: rest =>
          { n with
            backlog := rest
            peer := Function.update n.peer fd (some p) }
  | .closed fd =>
      match n.peer fd with
      | none => n
      | some p => { n with hungUp := Function.update n.hungUp p true }
  | .wrote fd text =>
      match n.peer fd with
      | none => n
      | some p =>
          { n with
            toClient := Function.update n.toClient p (n.toClient p ++ text) }

/-- What a `read` takes out of the stream. -/
def afterRead (read : ReadResult) (n : Chat P) : ReadEvent → Chat P
  | .polled _ => n
  | .reads fd =>
      match n.peer fd with
      | none => n
      | some p =>
          { n with
            toServer := Function.update n.toServer p
              ((n.toServer p).drop (bytesRead read).length) }

/-- Behind a pass of the server with these calls. -/
def afterPass (n : Chat P) (input : PassInput) (server : Server)
    (es : List ServerEvent) : Chat P :=
  (passReads n.server input).foldl (afterRead input.read)
    (es.foldl afterEvent { n with server := server })

/-- What the calls of the server return: `poll` waits until something has
arrived, `accept` succeeds, and `read` takes what has arrived. -/
structure ServerSees (n : Chat P) (input : PassInput)
    (es : List ServerEvent) : Prop where
  poll : input.poll = some n.revents
  ready : ∃ i, n.revents i ≠ 0
  fresh : input.accept ∉ n.server.openFds
  accepts : input.accept ≠ -1
  read : ∀ fd, .reads fd ∈ passReads n.server input →
    ∃ p, (es.foldl afterEvent n).peer fd = some p ∧ n.arrived p = true ∧
      input.read = .data ((n.toServer p).take lBufSize)

/-- What the calls of a client return: `poll` times out, and `rand() % 30`
digits are generated, or there is something to read, which is displayed. -/
def ClientSees (n : Chat P) (p : P) (input : ClientInput) : Prop :=
  match input.poll with
  | .failed => False
  | .timeout => input.digits.length < 30
  | .ready stdinReadable serverReadable =>
      stdinReadable = false ∧ serverReadable = true ∧
        (n.toClient p ≠ [] ∨ n.hungUp p = true) ∧
        ∃ k, 1 ≤ k ∧ k ≤ lBufSize ∧
          input.server = .data ((n.toClient p).take k) ∧
          input.stdoutWrite = .wrote ((n.toClient p).take k).length

/-- Behind a pass of a client. -/
def afterClient (n : Chat P) (p : P) (r : ClientPass) : Chat P :=
  { n with
    status := if r.leaves then Function.update n.status p .left else n.status
    lI := Function.update n.lI p r.lI
    toServer := Function.update n.toServer p
      (n.toServer p ++
        (r.generated.getD [] ++ r.toServer.flatMap Relayed.passed))
    toClient := Function.update n.toClient p
      ((n.toClient p).drop
        (r.toStdout.flatMap fun d => bytesRead d.read).length) }

end Chat

/-- What a pass of a client shows. -/
def clientEvents (p : P) (r : ClientPass) : List (ChatEvent P) :=
  (r.generated.map fun text => .sent p text (r.lI % 2 = 1)).toList ++
    r.toStdout.map fun d => .displayed p d.passed

/-- A client connects, or makes a pass, or the server does; `admits` restricts
when a client generates a text, by what the server has not read yet. -/
inductive ChatStep (pid : P → ℕ) (admits : List UInt8 → Text → Prop)
    (n : Chat P) : List (ChatEvent P) → Chat P → Prop
  | connects {p : P} (houtside : n.status p = .outside) :
      ChatStep pid admits n []
        { n with
          status := Function.update n.status p .inside
          backlog := n.backlog ++ [p] }
  | clientPass {p : P} {lBuf : Memory} {input : ClientInput}
      (hinside : n.status p = .inside) (hsees : n.ClientSees p input)
      (hadmits : ∀ text,
        (clientPass (pid p) (n.lI p) lBuf input).generated = some text →
          admits (n.toServer p) text) :
      ChatStep pid admits n
        (clientEvents p (clientPass (pid p) (n.lI p) lBuf input))
        (n.afterClient p (clientPass (pid p) (n.lI p) lBuf input))
  | serverPass {input : PassInput} {server : Server} {es : List ServerEvent}
      (hsees : n.ServerSees input es)
      (hpass : serverPass n.server input = (.goes server, es)) :
      ChatStep pid admits n [] (n.afterPass input server es)

/-- The server listens, and nobody has connected. -/
structure ChatInit (n : Chat P) : Prop where
  server : ServerInit n.server
  backlog : n.backlog = []
  peer : ∀ fd, n.peer fd = none
  status : ∀ p, n.status p = .outside
  hungUp : ∀ p, n.hungUp p = false
  lI : ∀ p, n.lI p = 0
  toServer : ∀ p, n.toServer p = []
  toClient : ∀ p, n.toClient p = []

def chatSystem (pid : P → ℕ) (admits : List UInt8 → Text → Prop) :
    System (Chat P) (ChatEvent P) where
  init := ChatInit
  step := ChatStep pid admits

/-! ## Histories -/

/-- The texts of a client, and whether it corrupted them. -/
def sentBy (p : P) (tr : List (ChatEvent P)) : List (Text × Bool) :=
  tr.filterMap fun
    | .sent q text corrupted => if q = p then some (text, corrupted) else none
    | .displayed _ _ => none

/-- All a client has displayed. -/
def displayedBy (p : P) (tr : List (ChatEvent P)) : Text :=
  tr.flatMap fun
    | .sent _ _ _ => []
    | .displayed q text => if q = p then text else []

@[simp] theorem sentBy_append (p : P) (tr tr' : List (ChatEvent P)) :
    sentBy p (tr ++ tr') = sentBy p tr ++ sentBy p tr' := by
  simp [sentBy]

@[simp] theorem displayedBy_append (p : P) (tr tr' : List (ChatEvent P)) :
    displayedBy p (tr ++ tr') = displayedBy p tr ++ displayedBy p tr' := by
  simp [displayedBy]

end System

end Pvos.Socksrv
