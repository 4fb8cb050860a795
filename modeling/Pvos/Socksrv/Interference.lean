import Pvos.Socksrv.PollSet
import Mathlib.Logic.Function.Basic

/-!
# Clients of the multiplexing server share a buffer

`read` overwrites only the front of `l_buf`.  A reply zeroes the buffer behind
it, a close request leaves its bytes there, and the next message of another
client is scanned together with them.

`verdict` is the decision on a message by itself.  A client alone is served
with the verdicts on its messages; among other clients it is, as long as what
is left in the buffer adds nothing to the numbers of a message.
-/

namespace Pvos.Socksrv

open Pvos.Support Pvos.Checksum

/-! ## Messages and decisions -/

/-- The message starts with `"close"` in any letter case. -/
def BeginsClose (bytes : List UInt8) : Prop :=
  (bytes.take 5).map toLower = ascii "close"

instance (bytes : List UInt8) : Decidable (BeginsClose bytes) :=
  inferInstanceAs (Decidable (_ = _))

/-- The message as a C string. -/
def textOf (bytes : List UInt8) : Text :=
  bytes.takeWhile (· ≠ 0)

/-- What one `read` returns: a close request or a text with a leading
number. -/
structure IsMessage (bytes : List UInt8) : Prop where
  pos : 1 ≤ bytes.length
  le : bytes.length ≤ 511
  content : BeginsClose bytes ∨ numbers (textOf bytes) ≠ []

/-- Whether the connection is closed, and the reply. -/
structure Decision where
  closed : Bool
  reply : Option Text
  deriving DecidableEq

def decisionOf (r : Served) : Decision :=
  ⟨r.closed, r.reply⟩

/-- The decisions on the messages of one client, when the server receives no
others. -/
def decisionsAlone : Memory → List (List UInt8 × ℤ) → List Decision
  | _, [] => []
  | lBuf, (bytes, currentNum) :: reads =>
      let r := readDataFromClient lBuf currentNum (.data bytes)
      decisionOf r :: decisionsAlone r.lBuf reads

/-- The last number is the sum of the others. -/
def lastIsSum (nums : List ℤ) : Bool :=
  toInt32 nums.dropLast.sum = nums.getLastD 0

/-- The decision on a message by itself. -/
def verdict (bytes : List UInt8) : Decision :=
  if BeginsClose bytes then ⟨true, none⟩
  else ⟨false, some (replyText (lastIsSum (numbers (textOf bytes))))⟩

/-- The bytes left in the buffer behind a message neither continue its last
number nor add a number. -/
def Undisturbed (lBuf : Memory) (bytes : List UInt8) : Prop :=
  BeginsClose bytes ∨
    numbers ((lBuf.write 0 bytes).cstring lBufSize 0) = numbers (textOf bytes)

/-! ## One message -/

section Message

variable {lBuf : Memory} {bytes : List UInt8}

theorem isClose_of_beginsClose (h : BeginsClose bytes) :
    isClose (lBuf.write 0 bytes) = true := by
  have hlen := congrArg List.length h
  simp only [List.length_map, List.length_take] at hlen
  have hfive : (ascii "close").length = 5 := rfl
  have hle : 5 ≤ bytes.length := by omega
  unfold isClose
  rw [Memory.bytes_write_take lBuf 0 hle, decide_eq_true_eq]
  exact h

theorem eq_of_toLower {b : UInt8} (h : toLower b = 99) : b = 67 ∨ b = 99 := by
  unfold toLower at h
  split at h
  next =>
    left
    have hsub := congrArg (· - 32) h
    simpa using hsub
  next => exact Or.inr h

/-- A text that starts with the letter of a close request has no number. -/
theorem numbers_eq_nil_of_head {b : UInt8} (h : toLower b = 99) (rest : Text) :
    numbers (b :: rest) = [] := by
  apply numbers_of_none
  rcases eq_of_toLower h with rfl | rfl
  · simp [sscanfInt, scanNumber, isSpace, isDigit, splitSign]
  · simp [sscanfInt, scanNumber, isSpace, isDigit, splitSign]

/-- A close request starts with its first letter. -/
theorem toLower_first_of_isClose (h : isClose lBuf = true) :
    toLower (lBuf 0) = 99 := by
  rw [isClose, decide_eq_true_eq] at h
  have hfirst := congrArg List.head? h
  simpa [Memory.bytes, List.range_succ, ascii] using hfirst

theorem toLower_of_isClose {b : UInt8}
    (h : isClose (lBuf.write 0 (b :: bytes)) = true) : toLower b = 99 := by
  have hfirst := toLower_first_of_isClose h
  simpa [Memory.write] using hfirst

/-- A buffer with a close request holds no number. -/
theorem numbers_eq_nil_of_isClose (h : isClose lBuf = true) :
    numbers (lBuf.cstring lBufSize 0) = [] := by
  have hfirst := toLower_first_of_isClose h
  have hne : lBuf 0 ≠ 0 := by
    intro hzero
    rw [hzero] at hfirst
    exact absurd hfirst (by decide)
  have hsize : lBufSize = 1 + 511 := rfl
  rw [Memory.cstring, Nat.sub_zero, hsize, Memory.bytes_add,
    List.takeWhile_append_of_pos (by simpa [Memory.bytes] using hne)]
  exact numbers_eq_nil_of_head hfirst _

theorem isClose_of_numbers_cstring
    (h : numbers (lBuf.cstring lBufSize 0) ≠ []) : isClose lBuf = false := by
  by_contra hclose
  exact h (numbers_eq_nil_of_isClose (Bool.not_eq_false _ ▸ hclose))

/-- The verdict on a buffer with numbers does not depend on the uninitialised
variable. -/
theorem scan_lastIsSum {size : ℕ} (h : numbers (lBuf.cstring size 0) ≠ [])
    (currentNum : ℤ) :
    ∃ s, scan lBuf size currentNum = .done s ∧
      s.correct = lastIsSum (numbers (lBuf.cstring size 0)) := by
  obtain hnil | ⟨others, last, hsplit⟩ :=
    List.eq_nil_or_concat (numbers (lBuf.cstring size 0))
  · exact absurd hnil h
  · rw [List.concat_eq_append] at hsplit
    obtain ⟨s, hscan, hcurrent, hothers⟩ := scan_correct hsplit currentNum
    refine ⟨s, hscan, ?_⟩
    simp [ScanState.correct, hcurrent, hothers, hsplit, lastIsSum]

theorem isClose_of_numbers (h : numbers (textOf bytes) ≠ []) :
    isClose (lBuf.write 0 bytes) = false := by
  cases bytes with
  | nil => exact absurd rfl h
  | cons b bytes =>
      by_contra hclose
      have hhead := toLower_of_isClose (Bool.not_eq_false _ ▸ hclose)
      have hne : b ≠ 0 := by
        rintro rfl
        exact absurd hhead (by decide)
      refine h ?_
      rw [textOf, List.takeWhile_cons, if_pos (by simpa using hne)]
      exact numbers_eq_nil_of_head hhead _

/-- A call on a message is the check of the buffer it was written into. -/
theorem readDataFromClient_data (hpos : 1 ≤ bytes.length) (currentNum : ℤ) :
    readDataFromClient lBuf currentNum (.data bytes) =
      serveBuffer (lBuf.write 0 bytes) currentNum := by
  cases bytes with
  | nil => exact absurd hpos (by decide)
  | cons b bytes => rfl

/-- The buffer is zeroed. -/
def ZeroBuf (lBuf : Memory) : Prop :=
  ∀ j, j < lBufSize → lBuf j = 0

theorem zeroBuf_memset (m : Memory) : ZeroBuf (m.memset 0 0 lBufSize) := by
  intro j hj
  simp only [Memory.memset]
  rw [if_pos (by omega)]

/-- The decision on an undisturbed message is the verdict on it, and a reply
leaves nothing in the buffer. -/
theorem served_message (h : IsMessage bytes) (hquiet : Undisturbed lBuf bytes)
    (currentNum : ℤ) :
    decisionOf (readDataFromClient lBuf currentNum (.data bytes)) =
        verdict bytes ∧
      (¬ BeginsClose bytes →
        ZeroBuf (readDataFromClient lBuf currentNum (.data bytes)).lBuf) := by
  rw [readDataFromClient_data h.pos, verdict]
  by_cases hclose : BeginsClose bytes
  · refine ⟨?_, fun hnot => absurd hclose hnot⟩
    rw [if_pos hclose, serveBuffer, if_pos (isClose_of_beginsClose hclose)]
    rfl
  · have hne := h.content.resolve_left hclose
    have hnums := hquiet.resolve_left hclose
    obtain ⟨s, hscan, hcorrect⟩ :=
      scan_lastIsSum (by rwa [hnums]) currentNum
    rw [hnums] at hcorrect
    rw [if_neg hclose, serveBuffer_of_scan (isClose_of_numbers hne) hscan,
      hcorrect]
    exact ⟨rfl, fun _ => zeroBuf_memset _⟩

/-- In a zeroed buffer a message is the whole string. -/
theorem cstring_write_of_zeroBuf (hzero : ZeroBuf lBuf)
    (hlen : bytes.length ≤ 511) :
    (lBuf.write 0 bytes).cstring lBufSize 0 = textOf bytes := by
  obtain ⟨n, hn⟩ : ∃ n, lBufSize - bytes.length = n + 1 :=
    ⟨511 - bytes.length, by rw [lBufSize]; omega⟩
  have hle : bytes.length ≤ lBufSize := by
    rw [lBufSize]
    omega
  have hrest : lBuf.bytes (0 + bytes.length) (n + 1) =
      0 :: lBuf.bytes (bytes.length + 1) n := by
    rw [Nat.add_comm n 1, Memory.bytes_add, Nat.zero_add]
    simp [Memory.bytes, hzero bytes.length (by omega)]
  rw [Memory.cstring, Nat.sub_zero, Memory.bytes_write lBuf 0 hle, hn, hrest,
    takeWhile_append_stop (by decide), textOf]

/-- In a zeroed buffer nothing is left behind a message. -/
theorem undisturbed_of_zeroBuf (hzero : ZeroBuf lBuf)
    (hlen : bytes.length ≤ 511) : Undisturbed lBuf bytes :=
  Or.inr (congrArg numbers (cstring_write_of_zeroBuf hzero hlen))

end Message

/-! ## A client alone -/

/-- Messages of which none but the last is a close request. -/
def ClosesLast (messages : List (List UInt8)) : Prop :=
  ∀ bytes ∈ messages.dropLast, ¬ BeginsClose bytes

/-- Alone a client gets the verdicts on its messages. -/
theorem decisionsAlone_eq {reads : List (List UInt8 × ℤ)} {lBuf : Memory}
    (hzero : ZeroBuf lBuf) (h : ∀ r ∈ reads, IsMessage r.1)
    (hlast : ClosesLast (reads.map Prod.fst)) :
    decisionsAlone lBuf reads = (reads.map Prod.fst).map verdict := by
  induction reads generalizing lBuf with
  | nil => rfl
  | cons r reads ih =>
      obtain ⟨bytes, currentNum⟩ := r
      have hmessage : IsMessage bytes := h _ List.mem_cons_self
      obtain ⟨hdecision, hbuf⟩ := served_message hmessage
        (undisturbed_of_zeroBuf hzero hmessage.le) currentNum
      simp only [decisionsAlone, hdecision, List.map_cons, List.cons.injEq,
        true_and]
      cases reads with
      | nil => rfl
      | cons r' reads =>
          have hopen : ¬ BeginsClose bytes :=
            hlast bytes (by simp)
          apply ih (hbuf hopen) fun r hr => h r (List.mem_cons_of_mem _ hr)
          intro b hb
          exact hlast b (by
            simp only [List.map_cons, List.dropLast] at hb ⊢
            exact List.mem_cons_of_mem _ hb)

/-! ## Clients together -/

/-- The static buffer, and the clients whose connection was closed. -/
structure Shared (P : Type*) where
  lBuf : Memory
  closed : P → Bool

/-- A message that was served. -/
structure Exchange (P : Type*) where
  client : P
  bytes : List UInt8
  decision : Decision

section Shared

variable {P : Type*} [DecidableEq P]

/-- The server reads a message of `p`. -/
def serveMessage (s : Shared P) (p : P) (bytes : List UInt8)
    (currentNum : ℤ) : Shared P × Exchange P :=
  let r := readDataFromClient s.lBuf currentNum (.data bytes)
  (⟨r.lBuf, Function.update s.closed p r.closed⟩, ⟨p, bytes, decisionOf r⟩)

/-- Open clients send messages in any order; `ok` restricts what arrives at
which content of the buffer. -/
def sharedSystem (P : Type*) [DecidableEq P]
    (ok : Memory → List UInt8 → Prop) : System (Shared P) (Exchange P) where
  init s := s = ⟨fun _ => 0, fun _ => false⟩
  step s es s' := ∃ p bytes currentNum, s.closed p = false ∧
    IsMessage bytes ∧ ok s.lBuf bytes ∧
    s' = (serveMessage s p bytes currentNum).1 ∧
    es = [(serveMessage s p bytes currentNum).2]

/-- The messages of one client in a history. -/
def messagesOf (p : P) (tr : List (Exchange P)) : List (List UInt8) :=
  (tr.filter (·.client = p)).map Exchange.bytes

/-- The decisions for one client in a history. -/
def decisionsFor (p : P) (tr : List (Exchange P)) : List Decision :=
  (tr.filter (·.client = p)).map Exchange.decision

/-- Every client got the decisions it would get if its messages were the only
ones the server receives. -/
def Independent (tr : List (Exchange P)) : Prop :=
  ∀ p reads, reads.map Prod.fst = messagesOf p tr →
    decisionsAlone (fun _ => 0) reads = decisionsFor p tr

/-- Every decision is a verdict, and closed clients send no more. -/
structure SharedInv (tr : List (Exchange P)) (s : Shared P) : Prop where
  verdicts : ∀ e ∈ tr, IsMessage e.bytes ∧ e.decision = verdict e.bytes
  closesLast : ∀ p, ClosesLast (messagesOf p tr)
  isOpen : ∀ p, s.closed p = false → ∀ bytes ∈ messagesOf p tr,
    ¬ BeginsClose bytes

theorem verdict_closed (bytes : List UInt8) :
    (verdict bytes).closed = false ↔ ¬ BeginsClose bytes := by
  unfold verdict
  split
  next h => simp [h]
  next h => simp [h]

theorem SharedInv.serve {tr : List (Exchange P)} {s : Shared P}
    (h : SharedInv tr s) {p : P} (hopen : s.closed p = false)
    {bytes : List UInt8} (hmessage : IsMessage bytes)
    (hquiet : Undisturbed s.lBuf bytes) (currentNum : ℤ) :
    SharedInv (tr ++ [(serveMessage s p bytes currentNum).2])
      (serveMessage s p bytes currentNum).1 := by
  obtain ⟨hdecision, -⟩ := served_message hmessage hquiet currentNum
  have hclosed : (readDataFromClient s.lBuf currentNum (.data bytes)).closed =
      (verdict bytes).closed := congrArg Decision.closed hdecision
  have hself : messagesOf p (tr ++ [(serveMessage s p bytes currentNum).2]) =
      messagesOf p tr ++ [bytes] := by
    simp [messagesOf, serveMessage]
  have hother : ∀ q, q ≠ p →
      messagesOf q (tr ++ [(serveMessage s p bytes currentNum).2]) =
        messagesOf q tr := by
    intro q hq
    simp [messagesOf, serveMessage, hq.symm]
  refine ⟨?_, ?_, ?_⟩
  · intro e he
    rcases List.mem_append.mp he with hold | hnew
    · exact h.verdicts e hold
    · rw [List.mem_singleton.mp hnew]
      exact ⟨hmessage, hdecision⟩
  · intro q
    by_cases hq : q = p
    · rw [hq, hself, ClosesLast, List.dropLast_concat]
      exact h.isOpen p hopen
    · rw [hother q hq]
      exact h.closesLast q
  · intro q hq
    by_cases heq : q = p
    · subst heq
      simp only [serveMessage, Function.update_self, hclosed] at hq
      rw [hself]
      intro b hb
      rcases List.mem_append.mp hb with hold | hnew
      · exact h.isOpen q hopen b hold
      · rw [List.mem_singleton.mp hnew]
        exact (verdict_closed bytes).mp hq
    · simp only [serveMessage, Function.update_of_ne heq] at hq
      rw [hother q heq]
      exact h.isOpen q hq

/-- In every run whose messages are undisturbed by what is left in the buffer
the clients do not influence each other. -/
theorem clients_independent {tr : List (Exchange P)} {s : Shared P}
    (h : (sharedSystem P Undisturbed).Exec tr s) : Independent tr := by
  have hinv : SharedInv tr s := by
    refine h.invariant (I := SharedInv) ?_ ?_
    · rintro s rfl
      exact ⟨by simp, by simp [ClosesLast, messagesOf],
        by simp [messagesOf]⟩
    · rintro tr s es s' hinv ⟨p, bytes, currentNum, hopen, hmessage, hquiet,
        rfl, rfl⟩
      exact hinv.serve hopen hmessage hquiet currentNum
  intro p reads hreads
  have hmessages : ∀ r ∈ reads, IsMessage r.1 := by
    intro r hr
    have hmem : r.1 ∈ messagesOf p tr := hreads ▸ List.mem_map_of_mem hr
    obtain ⟨e, he, heq⟩ := List.mem_map.mp hmem
    exact heq ▸ (hinv.verdicts e (List.mem_of_mem_filter he)).1
  rw [decisionsAlone_eq (fun _ _ => rfl) hmessages
    (by rw [hreads]; exact hinv.closesLast p), hreads, messagesOf,
    decisionsFor, List.map_map]
  apply List.map_congr_left
  intro e he
  exact (hinv.verdicts e (List.mem_of_mem_filter he)).2.symm

end Shared

theorem isMessage_number {bytes : List UInt8}
    (hlen : 1 ≤ bytes.length ∧ bytes.length ≤ 511)
    (h : numbers (textOf bytes) ≠ []) : IsMessage bytes :=
  ⟨hlen.1, hlen.2, Or.inr h⟩

theorem isMessage_close {bytes : List UInt8}
    (hlen : 1 ≤ bytes.length ∧ bytes.length ≤ 511) (h : BeginsClose bytes) :
    IsMessage bytes :=
  ⟨hlen.1, hlen.2, Or.inl h⟩

/-- What is left of a close request follows the next message, but is no
number. -/
theorem clients_independent_after_close :
    ∃ tr s, (sharedSystem Bool Undisturbed).Exec tr s ∧
      tr.map Exchange.bytes = [ascii "close", ascii "2 3"] ∧
      Independent tr := by
  have hinit : (sharedSystem Bool Undisturbed).init
      ⟨fun _ => 0, fun _ => false⟩ := rfl
  have hexec : (sharedSystem Bool Undisturbed).Exec _ _ :=
    ((System.Exec.init hinit).step ⟨true, ascii "close", 0, rfl,
      isMessage_close (by decide) (by decide), Or.inl (by decide), rfl,
      rfl⟩).step ⟨false, ascii "2 3", 0, rfl,
        isMessage_number (by decide) (by decide +kernel),
        Or.inr (by decide +kernel), rfl, rfl⟩
  exact ⟨_, _, hexec, rfl, clients_independent hexec⟩

/-- The numbers left of a close request change the verdict on the message of
another client. -/
theorem clients_interfere :
    ∃ tr s, (sharedSystem Bool fun _ _ => True).Exec tr s ∧
      tr.map (fun e => (e.client, e.bytes)) =
        [(true, ascii "close 7 7"), (false, ascii "1 2 3")] ∧
      ¬ Independent tr := by
  have hinit : (sharedSystem Bool fun _ _ => True).init
      ⟨fun _ => 0, fun _ => false⟩ := rfl
  have hexec : (sharedSystem Bool fun _ _ => True).Exec _ _ :=
    ((System.Exec.init hinit).step ⟨true, ascii "close 7 7", 0, rfl,
      isMessage_close (by decide) (by decide), trivial, rfl, rfl⟩).step
      ⟨false, ascii "1 2 3", 0, rfl,
        isMessage_number (by decide) (by decide +kernel), trivial, rfl, rfl⟩
  refine ⟨_, _, hexec, rfl, ?_⟩
  intro h
  have halone := h false [(ascii "1 2 3", 0)] rfl
  revert halone
  decide +kernel

end Pvos.Socksrv
