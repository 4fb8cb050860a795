import Pvos.Checksum.Passes
import Pvos.Readline.Pipeline
import Pvos.Socksrv.Communication

/-!
# Buffers that are used as strings

`sscanf` and `%s` read a buffer up to a zero byte, wherever that is.  A read
puts none behind its bytes: there is one inside `l_buf` only if the message
brings it, or if the buffer holds one behind the message.

The consumer zeroes its buffer, so that only a line that fills it has no end.
-/

namespace Pvos.Socksrv

open Pvos.Support Pvos.Checksum Pvos.Readline

/-- There is a zero byte inside the buffer at or behind the offset. -/
def Terminated (buffer : Memory) (size offset : ℕ) : Prop :=
  ∃ j, offset ≤ j ∧ j < size ∧ buffer j = 0

/-- A buffer with an end is used inside its bounds by every pass of the
loop. -/
theorem scanOffsets_terminated_iff (buffer : Memory) (size : ℕ)
    (currentNum : ℤ) :
    (∀ offset ∈ scanOffsets buffer size currentNum,
        Terminated buffer size offset) ↔ Terminated buffer size 0 := by
  constructor
  · exact fun h => h 0 List.mem_cons_self
  · intro h offset hoffset
    have hle := scanOffsets_le buffer size currentNum hoffset
    have hlt := Memory.length_cstring_lt_iff.mpr h
    have hzero := Memory.zero_behind_cstring hlt
    rw [Nat.zero_add] at hlt hzero
    exact ⟨_, hle, hlt, hzero⟩

/-! ## The servers -/

/-- `LOG_DEBUG`. -/
def logDebug : ℕ := 2

/-- `log_msg` formats a message of this level. -/
def logFormats (tLogLevel gDebug : ℕ) : Bool :=
  ¬ (tLogLevel ≠ 0 ∧ gDebug < tLogLevel)

/-- The bytes that a read puts into the buffer. -/
def ReadResult.bytes : ReadResult → List UInt8
  | .data bytes => bytes
  | .failed => []

/-- The offsets that the statements behind the `read` use `l_buf` at as a
string. -/
def checkUses (lBuf : Memory) (currentNum : ℤ) : List ℕ :=
  if isClose lBuf then [] else scanOffsets lBuf lBufSize currentNum

/-- The offsets of all uses for data from a client, in all three servers:
the `%s` of the debug message is the first one. -/
def stringUses (gDebug : ℕ) (lBuf : Memory) (currentNum : ℤ) :
    ReadResult → List ℕ
  | .data [] => []
  | .data bytes =>
      (if logFormats logDebug gDebug then [0] else []) ++
        checkUses (lBuf.write 0 bytes) currentNum
  | .failed => checkUses lBuf currentNum

/-- Every use ends inside `l_buf`. -/
def UsesTerminated (gDebug : ℕ) (lBuf : Memory) (currentNum : ℤ)
    (read : ReadResult) : Prop :=
  ∀ offset ∈ stringUses gDebug lBuf currentNum read,
    Terminated (lBuf.write 0 read.bytes) lBufSize offset

/-- The connection ended, or a close request came that no debug message
shows. -/
def NoUse (gDebug : ℕ) (lBuf : Memory) (read : ReadResult) : Prop :=
  read = .data [] ∨
    isClose (lBuf.write 0 read.bytes) = true ∧
      (read = .failed ∨ logFormats logDebug gDebug = false)

section Servers

variable {lBuf : Memory} {read : ReadResult} {currentNum : ℤ}

theorem checkUses_terminated_iff (buffer : Memory) (currentNum : ℤ) :
    (∀ offset ∈ checkUses buffer currentNum,
        Terminated buffer lBufSize offset) ↔
      isClose buffer = true ∨ Terminated buffer lBufSize 0 := by
  rw [checkUses]
  split
  next hclose => simp [hclose]
  next hopen =>
    rw [scanOffsets_terminated_iff]
    simp [hopen]

/-- The message brings a zero byte, or there is one behind it. -/
theorem terminated_write_iff {bytes : List UInt8} {size : ℕ}
    (hlen : bytes.length ≤ size) :
    Terminated (lBuf.write 0 bytes) size 0 ↔
      0 ∈ bytes ∨ Terminated lBuf size bytes.length := by
  constructor
  · rintro ⟨j, -, hlt, hzero⟩
    by_cases hin : j < bytes.length
    · left
      have hbyte : (lBuf.write 0 bytes) j = bytes[j] := by
        simp [Memory.write, hin]
      rw [← hzero, hbyte]
      exact List.getElem_mem hin
    · right
      refine ⟨j, Nat.not_lt.mp hin, hlt, ?_⟩
      simpa [Memory.write, hin] using hzero
  · rintro (hmem | ⟨j, hle, hlt, hzero⟩)
    · obtain ⟨j, hj, hzero⟩ := List.getElem_of_mem hmem
      refine ⟨j, Nat.zero_le _, by omega, ?_⟩
      simp [Memory.write, hj, hzero]
    · refine ⟨j, Nat.zero_le _, hlt, ?_⟩
      have hout : ¬ j < bytes.length := Nat.not_lt.mpr hle
      simp [Memory.write, hout, hzero]

theorem usesTerminated_iff (gDebug : ℕ)
    (hlen : read.bytes.length ≤ lBufSize) :
    UsesTerminated gDebug lBuf currentNum read ↔
      NoUse gDebug lBuf read ∨ 0 ∈ read.bytes ∨
        Terminated lBuf lBufSize read.bytes.length := by
  rw [← terminated_write_iff hlen, UsesTerminated, NoUse]
  cases read with
  | failed =>
      simp only [ReadResult.bytes, stringUses, Memory.write_nil]
      rw [checkUses_terminated_iff]
      simp
  | data bytes =>
      cases bytes with
      | nil => simp [stringUses]
      | cons b bytes =>
          simp only [ReadResult.bytes, stringUses, List.forall_mem_append]
          rw [checkUses_terminated_iff]
          cases hformats : logFormats logDebug gDebug with
          | true => simpa using fun hend => Or.inr hend
          | false => simp

end Servers

/-! ## Histories of the static buffer -/

/-- Every use ends inside the static buffer in calls of
`read_data_from_client` one after another, for any clients. -/
def CallsTerminated (gDebug : ℕ) : Memory → List (ReadResult × ℤ) → Prop
  | _, [] => True
  | lBuf, (read, currentNum) :: calls =>
      UsesTerminated gDebug lBuf currentNum read ∧
        CallsTerminated gDebug (readDataFromClient lBuf currentNum read).lBuf
          calls

section Calls

variable {lBuf : Memory}

theorem write_last (h : lBuf 511 = 0) {bytes : List UInt8}
    (hlen : bytes.length ≤ 511) : (lBuf.write 0 bytes) 511 = 0 := by
  have hout : ¬ 511 < bytes.length := Nat.not_lt.mpr hlen
  simp [Memory.write, hout, h]

theorem serveBuffer_last (h : lBuf 511 = 0) (currentNum : ℤ) :
    (serveBuffer lBuf currentNum).lBuf 511 = 0 := by
  cases hclose : isClose lBuf with
  | true =>
      rw [serveBuffer, if_pos hclose]
      exact h
  | false =>
      rw [serveBuffer_of_scan hclose (scan_eq_passes _ _ _)]
      simp [Memory.memset, lBufSize]

/-- A read that does not fill the static buffer leaves its last byte zero. -/
theorem readDataFromClient_last (h : lBuf 511 = 0) {read : ReadResult}
    (hlen : read.bytes.length ≤ 511) (currentNum : ℤ) :
    (readDataFromClient lBuf currentNum read).lBuf 511 = 0 := by
  cases read with
  | failed => exact serveBuffer_last h currentNum
  | data bytes =>
      cases bytes with
      | nil => exact h
      | cons b bytes => exact serveBuffer_last (write_last h hlen) currentNum

theorem calls_terminated (gDebug : ℕ) {calls : List (ReadResult × ℤ)}
    (h : lBuf 511 = 0) (hlens : ∀ c ∈ calls, c.1.bytes.length ≤ 511) :
    CallsTerminated gDebug lBuf calls := by
  induction calls generalizing lBuf with
  | nil => trivial
  | cons c calls ih =>
      obtain ⟨read, currentNum⟩ := c
      have hlen : read.bytes.length ≤ 511 := hlens _ List.mem_cons_self
      have hsize : read.bytes.length ≤ lBufSize := by
        rw [lBufSize]
        omega
      refine ⟨?_, ih (readDataFromClient_last h hlen currentNum)
        fun c hc => hlens c (List.mem_cons_of_mem _ hc)⟩
      rw [usesTerminated_iff gDebug hsize]
      exact Or.inr (Or.inr ⟨511, hlen, by decide, h⟩)

end Calls

/-! ## The consumer -/

/-- The offsets that the consumer uses its buffer at as a string: the `%s` of
its message, and the passes of the loop. -/
def lineUses (buffer : Memory) (currentNum : ℤ) : List ℕ :=
  0 :: scanOffsets buffer bufferSize currentNum

theorem lineUses_terminated_iff {l : LineState} (h : l.Zeroed)
    (hlen : l.dataMove ≤ bufferSize) (currentNum : ℤ) :
    (∀ offset ∈ lineUses l.data currentNum,
        Terminated l.data bufferSize offset) ↔
      l.dataMove < bufferSize ∨ 0 ∈ l.stored := by
  rw [lineUses, List.forall_mem_cons, scanOffsets_terminated_iff, and_self]
  constructor
  · rintro ⟨j, -, hlt, hzero⟩
    rcases Nat.lt_or_ge j l.dataMove with hin | hout
    · right
      rw [LineState.stored, ← hzero]
      simp only [Memory.bytes, List.mem_map, List.mem_range]
      exact ⟨j, hin, by rw [Nat.zero_add]⟩
    · exact Or.inl (by omega)
  · rintro (hlt | hmem)
    · exact ⟨_, Nat.zero_le _, hlt, h _ (Nat.le_refl _) hlt⟩
    · simp only [LineState.stored, Memory.bytes, List.mem_map,
        List.mem_range] at hmem
      obtain ⟨j, hj, hzero⟩ := hmem
      rw [Nat.zero_add] at hzero
      exact ⟨j, Nat.zero_le _, by omega, hzero⟩

/-! ## Result -/

/-- Formatting and scanning stay inside the buffer exactly when it is not used,
the message brings a zero byte, or the buffer holds one behind the message; for
the consumer, when the line does not fill its buffer or brings a zero byte.  As
long as no read fills it, the static buffer ends in a zero byte in every
history. -/
theorem string_uses_terminated_iff (gDebug : ℕ) (lBuf : Memory)
    (currentNum : ℤ) {read : ReadResult}
    (hlen : read.bytes.length ≤ lBufSize) :
    (UsesTerminated gDebug lBuf currentNum read ↔
        NoUse gDebug lBuf read ∨ 0 ∈ read.bytes ∨
          Terminated lBuf lBufSize read.bytes.length) ∧
      (∀ l : LineState, l.Zeroed → l.dataMove ≤ bufferSize →
        ((∀ offset ∈ lineUses l.data currentNum,
            Terminated l.data bufferSize offset) ↔
          l.dataMove < bufferSize ∨ 0 ∈ l.stored)) ∧
      ∀ calls : List (ReadResult × ℤ),
        (∀ c ∈ calls, c.1.bytes.length ≤ 511) →
        CallsTerminated gDebug (fun _ => 0) calls :=
  ⟨usesTerminated_iff gDebug hlen,
    fun _ h hline => lineUses_terminated_iff h hline currentNum,
    fun _ hlens => calls_terminated gDebug rfl hlens⟩

/-- A short message over a zeroed buffer, an empty line, and a message of 511
bytes behind a close request. -/
theorem string_uses_terminated_iff_almost_full :
    UsesTerminated 2 (fun _ => 0) 7 (.data (ascii "1 1\n")) ∧
      (∀ offset ∈ lineUses (fun _ => 0) 7,
        Terminated (fun _ => 0) bufferSize offset) ∧
      CallsTerminated 2 (fun _ => 0)
        [(.data (ascii "close"), 0), (.data (List.replicate 511 49), 0)] := by
  have hlen : (ReadResult.data (ascii "1 1\n")).bytes.length ≤ lBufSize := by
    decide
  obtain ⟨hread, hline, hcalls⟩ :=
    string_uses_terminated_iff 2 (fun _ => 0) 7 hlen
  refine ⟨hread.mpr (Or.inr (Or.inr ⟨4, by decide, by decide, rfl⟩)),
    (hline ⟨fun _ => 0, 0⟩ (fun _ _ _ => rfl) (Nat.zero_le _)).mpr
      (Or.inl (by decide)), hcalls _ fun c hc => ?_⟩
  rcases List.mem_cons.mp hc with rfl | hc
  · decide
  · rw [List.mem_singleton.mp hc]
    exact List.length_replicate.le

/-- Digits that fill the buffer. -/
def fullText : List UInt8 :=
  List.replicate lBufSize 49

theorem zero_not_mem_fullText : 0 ∉ fullText := by
  intro h
  exact absurd (List.eq_of_mem_replicate h) (by decide)

/-- A message that fills the zeroed buffer is scanned past its end, and so is a
line that fills the buffer of the consumer. -/
theorem full_buffer_not_terminated :
    ¬ UsesTerminated 1 (fun _ => 0) 0 (.data fullText) ∧
      ∃ l : LineState, l.Zeroed ∧ l.stored = fullText ∧
        ¬ ∀ offset ∈ lineUses l.data 0,
          Terminated l.data bufferSize offset := by
  have hlength : (ReadResult.data fullText).bytes.length = lBufSize :=
    List.length_replicate
  constructor
  · rw [usesTerminated_iff 1 hlength.le]
    rintro (hnone | hzero | ⟨j, hle, hlt, -⟩)
    · rcases hnone with hend | ⟨hclose, -⟩
      · exact absurd (congrArg ReadResult.bytes hend) (by decide)
      · revert hclose
        decide +kernel
    · exact zero_not_mem_fullText hzero
    · exact absurd (hlength ▸ hle) (Nat.not_le.mpr hlt)
  · have hstored : LineState.stored ⟨fun _ => 49, bufferSize⟩ = fullText := by
      rw [LineState.stored, Memory.bytes, List.map_const',
        List.length_range]
      rfl
    have hzeroed : LineState.Zeroed ⟨fun _ => 49, bufferSize⟩ :=
      fun j hle hlt => absurd hle (Nat.not_le.mpr hlt)
    refine ⟨_, hzeroed, hstored, ?_⟩
    rw [lineUses_terminated_iff hzeroed (Nat.le_refl _), hstored]
    exact not_or.mpr ⟨Nat.lt_irrefl _, zero_not_mem_fullText⟩

end Pvos.Socksrv
