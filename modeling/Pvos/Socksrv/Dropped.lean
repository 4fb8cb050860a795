import Pvos.Checksum.ScanEnds
import Pvos.Socksrv.Mplex

/-!
# A client that is dropped was closed

`read_data_from_client` returns -1 at the end of the stream, for a close
request and in the guard of its loop over the numbers, and the server then
drops the client from its poll set.  Only the guard does not close the
descriptor, and the loop never comes there.

The calls are described with any `sscanf`; `size` is the number of bytes that
can be read from `l_buf` on, which may be more than its own.
-/

namespace Pvos.Socksrv

open Pvos.Support Pvos.Checksum

/-- `l_buf` behind the `read`. -/
def readInto (lBuf : Memory) : ReadResult → Memory
  | .data bytes => lBuf.write 0 bytes
  | .failed => lBuf

/-- What the statements behind the `read` come to. -/
inductive BufferServed (sscanf : Sscanf) (size : ℕ) (lBuf : Memory) :
    Served → Prop
  | close (hclose : isClose lBuf = true) :
      BufferServed sscanf size lBuf ⟨-1, true, none, lBuf⟩
  | guarded (v : ScanVars) (hclose : isClose lBuf = false)
      (hscan : (scanSystem sscanf lBuf size).Reachable (.guarded v)) :
      BufferServed sscanf size lBuf ⟨-1, false, none, lBuf⟩
  | replied (v : ScanVars) (hclose : isClose lBuf = false)
      (hscan : (scanSystem sscanf lBuf size).Reachable (.ended v)) :
      BufferServed sscanf size lBuf
        ⟨0, false,
          some ((lBuf.sprintf 0 (replyText v.state.correct)).cstring lBufSize 0),
          (lBuf.sprintf 0 (replyText v.state.correct)).memset 0 0 lBufSize⟩

/-- What a call of `read_data_from_client` comes to. -/
def DataServed (sscanf : Sscanf) (size : ℕ) (lBuf : Memory) :
    ReadResult → Served → Prop
  | .data [], r => r = ⟨-1, true, none, lBuf⟩
  | .data bytes, r => BufferServed sscanf size (lBuf.write 0 bytes) r
  | .failed, r => BufferServed sscanf size lBuf r

/-- A call returns, and has closed the descriptor when it returns a negative
value. -/
structure ReturnsClosed (sscanf : Sscanf) (size : ℕ) (lBuf : Memory)
    (read : ReadResult) : Prop where
  returns : ∃ r, DataServed sscanf size lBuf read r
  closed : ∀ r, DataServed sscanf size lBuf read r → r.ret < 0 →
    r.closed = true

section Calls

variable {sscanf : Sscanf} {lBuf : Memory} {size n : ℕ}

theorem bufferServed_cases (hscan : ScanEnds sscanf lBuf size n) :
    (∃ r, BufferServed sscanf size lBuf r) ∧
      ∀ r, BufferServed sscanf size lBuf r → r.ret < 0 → r.closed = true := by
  constructor
  · cases hclose : isClose lBuf with
    | true => exact ⟨_, .close hclose⟩
    | false =>
        have hstart : (scanSystem sscanf lBuf size).Exec [] (.loop ⟨0, 0, 0, 0⟩) :=
          .init ⟨0, 0, rfl⟩
        obtain ⟨tr, v, hrun⟩ := hscan.ends _ hstart.reachable
        exact ⟨_, .replied v hclose (hstart.run hrun).reachable⟩
  · intro r hserved hneg
    cases hserved with
    | close => rfl
    | guarded v hclose hguarded => exact absurd hguarded (hscan.unguarded v)
    | replied v => exact absurd hneg (by simp)

theorem returnsClosed {read : ReadResult}
    (hscan : ScanEnds sscanf (readInto lBuf read) size n) :
    ReturnsClosed sscanf size lBuf read := by
  cases read with
  | failed =>
      obtain ⟨hreturns, hclosed⟩ := bufferServed_cases hscan
      exact ⟨hreturns, hclosed⟩
  | data bytes =>
      cases bytes with
      | nil =>
          refine ⟨⟨_, rfl⟩, ?_⟩
          rintro r rfl -
          rfl
      | cons b bytes =>
          obtain ⟨hreturns, hclosed⟩ := bufferServed_cases hscan
          exact ⟨hreturns, hclosed⟩

end Calls

theorem serveBuffer_served (lBuf : Memory) (currentNum : ℤ) :
    BufferServed sscanfD lBufSize lBuf (serveBuffer lBuf currentNum) := by
  unfold serveBuffer
  cases hclose : isClose lBuf with
  | true => exact .close hclose
  | false =>
      obtain ⟨tr, v, hexec, -, hscan⟩ := scan_run lBuf lBufSize currentNum 0
      rw [hscan]
      exact .replied v hclose hexec.reachable

/-- The calls of the server are among those described. -/
theorem readDataFromClient_served (lBuf : Memory) (currentNum : ℤ)
    (read : ReadResult) :
    DataServed sscanfD lBufSize lBuf read
      (readDataFromClient lBuf currentNum read) := by
  cases read with
  | failed => exact serveBuffer_served lBuf currentNum
  | data bytes =>
      cases bytes with
      | nil => rfl
      | cons b bytes => exact serveBuffer_served _ currentNum

/-- For any `sscanf` that counts the bytes consumed and any string of `n` bytes:
the loop ends after at most `n` passes with `offset` inside the string, and
never comes to the branch of its guard; and where the `read` leaves such a
string in `l_buf`, `read_data_from_client` returns, and only closed descriptors
with a negative value. -/
theorem scan_loop_ends (sscanf : Sscanf) (hsscanf : CountsConsumed sscanf)
    (size n : ℕ) (hsize : n < size) :
    (∀ buffer, IsStrlen buffer n → ScanEnds sscanf buffer size n) ∧
      ∀ lBuf read, IsStrlen (readInto lBuf read) n →
        ReturnsClosed sscanf size lBuf read :=
  ⟨fun _ hstrlen => scanEnds hsscanf hstrlen hsize,
    fun _ _ hstrlen => returnsClosed (scanEnds hsscanf hstrlen hsize)⟩

/-- A line of six bytes in a buffer of zeros. -/
theorem scan_loop_ends_line :
    ScanEnds sscanfD (Memory.write (fun _ => 0) 0 (ascii "1 2 3\n")) 512 6 ∧
      ReturnsClosed sscanfD 512 (fun _ => 0) (.data (ascii "1 2 3\n")) := by
  have hstrlen : IsStrlen (Memory.write (fun _ => 0) 0 (ascii "1 2 3\n")) 6 :=
    ⟨rfl, by decide⟩
  obtain ⟨hloop, hcalls⟩ :=
    scan_loop_ends sscanfD countsConsumed_sscanfD 512 6 (by decide)
  exact ⟨hloop _ hstrlen, hcalls _ _ hstrlen⟩

end Pvos.Socksrv
