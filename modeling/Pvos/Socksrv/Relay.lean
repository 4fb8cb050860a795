import Pvos.Socksrv.Client
import Pvos.Socksrv.QuitRequests

/-!
# Bytes passed on

The client and the communication loops of the servers pass on what they read:
from stdin to the socket, and the client from the socket to stdout.  The result
of `read` is the length given to `write`, also when it is -1; and what `write`
returned is only printed, so nobody sends the rest of a short write.
-/

namespace Pvos.Socksrv

open Pvos.Support

/-! ## One relay -/

/-- `write` returns the number of bytes it took, or fails. -/
inductive WriteResult
  | wrote (n : ℕ)
  | failed

/-- `l_len` behind `read`. -/
def readLen : ReadResult → ℤ
  | .data bytes => bytes.length
  | .failed => -1

/-- The bytes that a `read` brings. -/
def bytesRead : ReadResult → List UInt8
  | .data bytes => bytes
  | .failed => []

/-- The bytes that a `write(fd, l_buf, count)` takes. -/
def bytesTaken (lBuf : Memory) (count : ℕ) : WriteResult → List UInt8
  | .wrote n => lBuf.bytes 0 (min n count)
  | .failed => []

/-- A `read` and the `write` behind it: their results, the length given to
`write`, and the bytes it took. -/
structure Relayed where
  read : ReadResult
  write : WriteResult
  count : ℕ
  passed : List UInt8

/-- The `read` into `l_buf` and the `write` from it. -/
def relay (lBuf : Memory) (read : ReadResult) (write : WriteResult) :
    Memory × Relayed :=
  let lBuf := lBuf.write 0 (bytesRead read)
  let count := toSizeT (readLen read)
  (lBuf, ⟨read, write, count, bytesTaken lBuf count write⟩)

/-- Each `write` is asked for the bytes read and nothing else, and all together
take them in order. -/
structure RelaysExactly (rs : List Relayed) : Prop where
  counts : ∀ r ∈ rs, r.count = (bytesRead r.read).length
  bytes : rs.flatMap Relayed.passed = rs.flatMap fun r => bytesRead r.read

/-- The `read` does not fail, and the `write` takes all it brought. -/
def Relayed.Whole (r : Relayed) : Prop :=
  ∃ bytes, r.read = .data bytes ∧
    (bytes = [] ∨ ∃ n, r.write = .wrote n ∧ bytes.length ≤ n)

/-! ## The communication loops of the servers -/

/-- The block for data on stdin. -/
def stdinRelay (lBuf : Memory) (input : CommInput) (write : WriteResult) :
    List Relayed :=
  match input.poll with
  | some (true, _) => [(relay lBuf input.stdin write).2]
  | _ => []

/-- The relays of the passes that are made; with each pass the result of the
`write` to the client. -/
def serverRelays : List ((Memory × CommInput) × WriteResult) → List Relayed
  | [] => []
  | ((lBuf, input), write) :: passes =>
      stdinRelay lBuf input write ++ match (commPass lBuf input).ends with
        | .goes => serverRelays passes
        | _ => []

/-! ## The loop of the client -/

/-- `poll` fails, times out, or reports `POLLIN` for stdin and for the
socket. -/
inductive ClientPoll
  | failed
  | timeout
  | ready (stdinReadable serverReadable : Bool)

/-- What the calls of a pass return; `digits` is what `rand` returned for a
generated message. -/
structure ClientInput where
  poll : ClientPoll
  digits : List (Fin 10)
  stdin : ReadResult
  serverWrite : WriteResult
  server : ReadResult
  stdoutWrite : WriteResult

/-- Whether a pass leaves the loop, `l_i`, the message it generated, and its
relays to the socket and to stdout. -/
structure ClientPass where
  leaves : Bool
  lI : ℕ
  generated : Option Text
  toServer : List Relayed
  toStdout : List Relayed

/-- The block for data from the server: whether it leaves the loop, and what it
displays. -/
def displayServer (lBuf : Memory) (input : ClientInput) :
    Bool × List Relayed :=
  match input.server with
  | .data [] => (true, [])
  | server =>
      let (lBuf, displayed) := relay lBuf server input.stdoutWrite
      (isClose lBuf, [displayed])

/-- One pass of the loop. -/
def clientPass (pid lI : ℕ) (lBuf : Memory) (input : ClientInput) :
    ClientPass :=
  match input.poll with
  | .failed => ⟨true, lI, none, [], []⟩
  | .timeout =>
      let text := (clientText lBuf pid input.digits (lI + 1)).cstring lBufSize 0
      ⟨false, lI + 1, some text, [], []⟩
  | .ready stdinReadable serverReadable =>
      let (lBuf, sent) :=
        if stdinReadable then
          let (lBuf, sent) := relay lBuf input.stdin input.serverWrite
          (lBuf, [sent])
        else (lBuf, [])
      let (leaves, displayed) :=
        if serverReadable then displayServer lBuf input else (false, [])
      ⟨leaves, lI, none, sent, displayed⟩

/-- The passes that are made, each with its content of `l_buf`. -/
def clientPasses (pid : ℕ) :
    ℕ → List (Memory × ClientInput) → List ClientPass
  | _, [] => []
  | lI, (lBuf, input) :: passes =>
      let p := clientPass pid lI lBuf input
      p :: if p.leaves then [] else clientPasses pid p.lI passes

/-! ## Which relays are exact -/

section Relays

/-- The record of a `read` of at most 512 bytes and of the `write` behind
it. -/
def Relayed.Made (r : Relayed) : Prop :=
  (∃ lBuf, r = (relay lBuf r.read r.write).2) ∧
    (bytesRead r.read).length ≤ lBufSize

variable {r : Relayed}

theorem Relayed.Made.count_data {bytes : List UInt8} (h : r.Made)
    (hread : r.read = .data bytes) : r.count = bytes.length := by
  obtain ⟨⟨lBuf, hr⟩, hlen⟩ := h
  rw [hread] at hr hlen
  rw [hr]
  exact toSizeT_natCast (hlen.trans_lt (by decide))

/-- After a failed `read` the length is -1, as a `size_t`. -/
theorem Relayed.Made.count_failed (h : r.Made) (hread : r.read = .failed) :
    r.count = 2 ^ 64 - 1 := by
  obtain ⟨⟨lBuf, hr⟩, -⟩ := h
  rw [hread] at hr
  rw [hr]
  rfl

/-- The bytes that `write` takes are the first ones read. -/
theorem Relayed.Made.passed_data {bytes : List UInt8} (h : r.Made)
    (hread : r.read = .data bytes) :
    r.passed = bytes.take (match r.write with
      | .wrote n => n
      | .failed => 0) := by
  have hcount := h.count_data hread
  obtain ⟨⟨lBuf, hr⟩, -⟩ := h
  have hpassed : r.passed =
      bytesTaken (lBuf.write 0 (bytesRead r.read)) r.count r.write := by
    conv_lhs => rw [hr]
    conv_rhs => rw [hr]
    rfl
  rw [hpassed, hcount, hread]
  cases r.write with
  | failed => simp [bytesTaken]
  | wrote n =>
      simp only [bytesTaken, bytesRead]
      rw [Memory.bytes_write_take _ _ (Nat.min_le_right _ _),
        List.take_eq_take_iff]
      omega

theorem Relayed.Made.passed_begins (h : r.Made) (hcount : r.count =
    (bytesRead r.read).length) : r.passed <+: bytesRead r.read := by
  cases hread : r.read with
  | failed =>
      rw [h.count_failed hread, hread] at hcount
      simp [bytesRead] at hcount
  | data bytes =>
      rw [h.passed_data hread]
      exact List.take_prefix _ _

theorem Relayed.Made.whole_iff (h : r.Made) :
    r.Whole ↔ r.count = (bytesRead r.read).length ∧
      r.passed = bytesRead r.read := by
  cases hread : r.read with
  | failed =>
      rw [h.count_failed hread]
      simp [Whole, hread, bytesRead]
  | data bytes =>
      rw [h.count_data hread, h.passed_data hread]
      cases hwrite : r.write with
      | failed => simp [Whole, hread, hwrite, bytesRead, eq_comm]
      | wrote n =>
          simp only [Whole, hread, hwrite, bytesRead, ReadResult.data.injEq,
            WriteResult.wrote.injEq, exists_eq_left', true_and,
            List.take_eq_self_iff, or_iff_right_iff_imp]
          rintro rfl
          exact Nat.zero_le n

theorem relaysExactly_iff {rs : List Relayed} (h : ∀ r ∈ rs, r.Made) :
    RelaysExactly rs ↔ ∀ r ∈ rs, r.Whole := by
  constructor
  · rintro ⟨hcounts, hbytes⟩ r hr
    have hbegins : ∀ r ∈ rs, r.passed <+: bytesRead r.read :=
      fun r hr => (h r hr).passed_begins (hcounts r hr)
    exact (h r hr).whole_iff.mpr
      ⟨hcounts r hr, eq_of_flatMap_eq hbegins hbytes r hr⟩
  · intro hwhole
    have hboth := fun r hr => (h r hr).whole_iff.mp (hwhole r hr)
    exact ⟨fun r hr => (hboth r hr).1,
      List.flatMap_congr fun r hr => (hboth r hr).2⟩

theorem made_relay (lBuf : Memory) {read : ReadResult} (write : WriteResult)
    (h : (bytesRead read).length ≤ lBufSize) :
    (relay lBuf read write).2.Made :=
  ⟨⟨lBuf, rfl⟩, h⟩

/-- A relay leaves the buffer of the pass, and passes on its text when the
`write` takes all of it. -/
theorem relay_forwardStdin (lBuf : Memory) {read : ReadResult}
    (write : WriteResult) (hlen : (bytesRead read).length ≤ lBufSize) :
    (relay lBuf read write).1 = (forwardStdin lBuf read).1 ∧
      ((relay lBuf read write).2.Whole →
        (relay lBuf read write).2.passed =
          (forwardStdin lBuf read).2.flatten) := by
  constructor
  · cases read with
    | data bytes => rfl
    | failed => exact Memory.write_nil lBuf 0
  · intro hwhole
    rw [((made_relay lBuf write hlen).whole_iff.mp hwhole).2]
    cases read <;> simp [relay, bytesRead, forwardStdin]

end Relays

/-! ## Runs -/

theorem made_serverRelays {passes : List ((Memory × CommInput) × WriteResult)}
    (h : ∀ p ∈ passes, (bytesRead p.1.2.stdin).length ≤ lBufSize) :
    ∀ r ∈ serverRelays passes, r.Made := by
  induction passes with
  | nil => simp [serverRelays]
  | cons p passes ih =>
      obtain ⟨⟨lBuf, input⟩, write⟩ := p
      obtain ⟨hfirst, hrest⟩ := List.forall_mem_cons.mp h
      refine List.forall_mem_append.mpr ⟨?_, ?_⟩
      · intro r hr
        unfold stdinRelay at hr
        split at hr
        next => exact List.mem_singleton.mp hr ▸ made_relay lBuf write hfirst
        next => simp at hr
      · cases (commPass lBuf input).ends with
        | goes => exact ih hrest
        | leaves | exits code => simp

section Client

variable {pid : ℕ}

theorem made_displayServer {lBuf : Memory} {input : ClientInput}
    (h : (bytesRead input.server).length ≤ lBufSize) :
    ∀ r ∈ (displayServer lBuf input).2, r.Made := by
  unfold displayServer
  split
  next => simp
  next =>
    intro r hr
    exact List.mem_singleton.mp hr ▸ made_relay lBuf _ h

theorem made_clientPass {lI : ℕ} {lBuf : Memory} {input : ClientInput}
    (hstdin : (bytesRead input.stdin).length ≤ lBufSize)
    (hserver : (bytesRead input.server).length ≤ lBufSize) :
    (∀ r ∈ (clientPass pid lI lBuf input).toServer, r.Made) ∧
      ∀ r ∈ (clientPass pid lI lBuf input).toStdout, r.Made := by
  unfold clientPass
  split
  next => simp
  next => simp
  next stdinReadable serverReadable hpoll =>
    constructor
    · intro r hr
      cases stdinReadable with
      | false => simp at hr
      | true => exact List.mem_singleton.mp hr ▸ made_relay lBuf _ hstdin
    · intro r hr
      cases serverReadable with
      | false => simp at hr
      | true => exact made_displayServer hserver r hr

theorem made_clientPasses {lI : ℕ} {passes : List (Memory × ClientInput)}
    (h : ∀ p ∈ passes, (bytesRead p.2.stdin).length ≤ lBufSize ∧
      (bytesRead p.2.server).length ≤ lBufSize) :
    ∀ p ∈ clientPasses pid lI passes,
      (∀ r ∈ p.toServer, r.Made) ∧ ∀ r ∈ p.toStdout, r.Made := by
  induction passes generalizing lI with
  | nil => simp [clientPasses]
  | cons p passes ih =>
      obtain ⟨lBuf, input⟩ := p
      obtain ⟨⟨hstdin, hserver⟩, hrest⟩ := List.forall_mem_cons.mp h
      refine List.forall_mem_cons.mpr ⟨made_clientPass hstdin hserver, ?_⟩
      split
      next => simp
      next => exact ih hrest

/-- What the client passes on to the server. -/
def clientToServer (pid lI : ℕ) (passes : List (Memory × ClientInput)) :
    List Relayed :=
  (clientPasses pid lI passes).flatMap ClientPass.toServer

/-- What the client displays. -/
def clientToStdout (pid lI : ℕ) (passes : List (Memory × ClientInput)) :
    List Relayed :=
  (clientPasses pid lI passes).flatMap ClientPass.toStdout

end Client

/-! ## Result -/

/-- The loops pass on exactly the bytes that they read if and only if no `read`
fails and every `write` takes all it is given. -/
theorem relays_exactly_iff (pid lI : ℕ) :
    (∀ passes : List ((Memory × CommInput) × WriteResult),
        (∀ p ∈ passes, (bytesRead p.1.2.stdin).length ≤ lBufSize) →
        (RelaysExactly (serverRelays passes) ↔
          ∀ r ∈ serverRelays passes, r.Whole)) ∧
      ∀ passes : List (Memory × ClientInput),
        (∀ p ∈ passes, (bytesRead p.2.stdin).length ≤ lBufSize ∧
          (bytesRead p.2.server).length ≤ lBufSize) →
        (RelaysExactly (clientToServer pid lI passes) ↔
            ∀ r ∈ clientToServer pid lI passes, r.Whole) ∧
          (RelaysExactly (clientToStdout pid lI passes) ↔
            ∀ r ∈ clientToStdout pid lI passes, r.Whole) := by
  refine ⟨fun passes h => relaysExactly_iff (made_serverRelays h), ?_⟩
  intro passes h
  have hmade := @made_clientPasses pid lI passes h
  constructor
  · refine relaysExactly_iff fun r hr => ?_
    obtain ⟨p, hp, hrp⟩ := List.mem_flatMap.mp hr
    exact (hmade p hp).1 r hrp
  · refine relaysExactly_iff fun r hr => ?_
    obtain ⟨p, hp, hrp⟩ := List.mem_flatMap.mp hr
    exact (hmade p hp).2 r hrp

/-- Stdin brings a line to a server, and to the client, whose server answers at
the same time; `write` returns what it is given. -/
def chatPasses (write : WriteResult) : List (Memory × ClientInput) :=
  [(fun _ => 0, ⟨.ready true true, [], .data (ascii "1 1\n"), write,
    .data (ascii "OK\n"), .wrote 3⟩)]

theorem relays_exactly_iff_chat :
    RelaysExactly (serverRelays
        [((fun _ => 0, typed "hello\n" none), .wrote 6)]) ∧
      RelaysExactly (clientToServer 7 0 (chatPasses (.wrote 4))) ∧
      RelaysExactly (clientToStdout 7 0 (chatPasses (.wrote 4))) := by
  have hclient := (relays_exactly_iff 7 0).2 (chatPasses (.wrote 4)) (by decide)
  refine ⟨((relays_exactly_iff 7 0).1 _ (by decide)).mpr ?_, hclient.1.mpr ?_,
    hclient.2.mpr ?_⟩
  · exact List.forall_mem_singleton.mpr
      ⟨ascii "hello\n", rfl, Or.inr ⟨6, rfl, by decide⟩⟩
  · exact List.forall_mem_singleton.mpr
      ⟨ascii "1 1\n", rfl, Or.inr ⟨4, rfl, by decide⟩⟩
  · exact List.forall_mem_singleton.mpr
      ⟨ascii "OK\n", rfl, Or.inr ⟨3, rfl, by decide⟩⟩

/-- Two of six bytes are taken, and the rest is lost; a failed `read` is followed
by a `write` of -1 bytes. -/
theorem relays_not_exact :
    ¬ RelaysExactly (serverRelays
        [((fun _ => 0, typed "hello\n" none), .wrote 2)]) ∧
      ¬ RelaysExactly (clientToServer 7 0
        [(fun _ => 0, ⟨.ready true false, [], .failed, .failed, .failed,
          .failed⟩)]) := by
  constructor
  · intro h
    exact absurd h.bytes (by decide)
  · intro h
    have hcount := h.counts _ (List.mem_singleton.mpr rfl)
    revert hcount
    decide

end Pvos.Socksrv
