import Pvos.Socksrv.Segments

/-!
# Requests to quit

At the end of a pass the communication loop looks for `quit` in `l_buf`.  By
then data of the client may have replaced what stdin brought, and a reply has
zeroed the buffer; and where stdin brought little or nothing, the buffer still
has what was in it before.

`l_buf` is declared in the body of the loop, so each pass of a run comes with
its own content of the buffer.
-/

namespace Pvos.Socksrv

open Pvos.Support

/-! ## Requests -/

/-- The bytes begin with `quit`, in any letter case. -/
def BeginsQuit (bytes : List UInt8) : Prop :=
  (bytes.take 4).map toLower = ascii "quit"

instance (bytes : List UInt8) : Decidable (BeginsQuit bytes) :=
  inferInstanceAs (Decidable (_ = _))

/-- The bytes that a pass reads from stdin. -/
def stdinRead (input : CommInput) : List UInt8 :=
  match input.poll, input.stdin with
  | some (true, _), .data bytes => bytes
  | _, _ => []

/-- The pass exits by the request if and only if it was typed. -/
def QuitObeyed (lBuf : Memory) (input : CommInput) : Prop :=
  (commPass lBuf input).ends = .exits 0 ↔ BeginsQuit (stdinRead input)

/-- No request is typed while the client has sent something; and where the
client has not, the first four bytes of `l_buf` were read from stdin, or they
are no request. -/
def QuitDecided (lBuf : Memory) (input : CommInput) : Prop :=
  (∀ stdinReadable, input.poll = some (stdinReadable, true) →
      ¬ BeginsQuit (stdinRead input)) ∧
    ∀ stdinReadable, input.poll = some (stdinReadable, false) →
      4 ≤ (stdinRead input).length ∨
        isQuitRequest (lBuf.write 0 (stdinRead input)) = false

/-! ## One pass -/

section Pass

variable {lBuf : Memory} {input : CommInput}

theorem BeginsQuit.length_le {bytes : List UInt8} (h : BeginsQuit bytes) :
    4 ≤ bytes.length := by
  have hlength := congrArg List.length h
  have hquit : (ascii "quit").length = 4 := rfl
  rw [List.length_map, List.length_take] at hlength
  omega

/-- Four bytes decide. -/
theorem isQuitRequest_write {bytes : List UInt8} (h : 4 ≤ bytes.length) :
    isQuitRequest (lBuf.write 0 bytes) = true ↔ BeginsQuit bytes := by
  rw [isQuitRequest, Memory.bytes_write_take _ _ h, decide_eq_true_eq]
  exact Iff.rfl

/-- The buffer behind the block for stdin. -/
theorem lBuf_stdin {stdinReadable clientReadable : Bool}
    (hpoll : input.poll = some (stdinReadable, clientReadable)) :
    (if stdinReadable then forwardStdin lBuf input.stdin else (lBuf, [])).1 =
      lBuf.write 0 (stdinRead input) := by
  rw [stdinRead, hpoll]
  cases stdinReadable with
  | false => exact (Memory.write_nil lBuf 0).symm
  | true =>
      cases input.stdin with
      | data bytes => rfl
      | failed => exact (Memory.write_nil lBuf 0).symm

/-- A reply leaves a zeroed buffer. -/
theorem answer_goes {currentNum : ℤ} {read : ReadResult}
    (h : (answer lBuf currentNum read).leaves = false) :
    ZeroBuf (answer lBuf currentNum read).lBuf := by
  have hbuffer : ∀ buf : Memory, (answerBuffer buf currentNum).leaves = false →
      ZeroBuf (answerBuffer buf currentNum).lBuf := by
    intro buf hgoes
    unfold answerBuffer at hgoes ⊢
    split at hgoes
    next => exact Bool.noConfusion hgoes
    next hclose =>
      rw [if_neg hclose]
      exact zeroBuf_memset _
  cases read with
  | failed => exact hbuffer lBuf h
  | data bytes =>
      cases bytes with
      | nil => exact Bool.noConfusion h
      | cons b bytes => exact hbuffer _ h

/-- A pass exits by a request only where the client has sent nothing. -/
theorem commPass_exits_iff :
    (commPass lBuf input).ends = .exits 0 ↔
      ∃ stdinReadable, input.poll = some (stdinReadable, false) ∧
        isQuitRequest (lBuf.write 0 (stdinRead input)) = true := by
  unfold commPass
  cases hpoll : input.poll with
  | none => simp
  | some readable =>
      obtain ⟨stdinReadable, clientReadable⟩ := readable
      have hstdin := @lBuf_stdin lBuf input _ _ hpoll
      dsimp only
      rw [hstdin]
      cases clientReadable with
      | false =>
          cases hquit : isQuitRequest (lBuf.write 0 (stdinRead input)) <;>
            simp [hquit]
      | true =>
          simp only [if_true]
          cases hleaves : (answer (lBuf.write 0 (stdinRead input))
            input.currentNum input.read).leaves with
          | true => simp
          | false =>
              simp [isQuitRequest_of_zeroBuf (answer_goes hleaves)]

theorem quitObeyed_iff : QuitObeyed lBuf input ↔ QuitDecided lBuf input := by
  unfold QuitObeyed QuitDecided
  rw [commPass_exits_iff]
  cases hpoll : input.poll with
  | none =>
      have hnone : stdinRead input = [] := by rw [stdinRead, hpoll]
      simp [hnone, BeginsQuit, ascii]
  | some readable =>
      obtain ⟨stdinReadable, clientReadable⟩ := readable
      cases clientReadable with
      | true => simp
      | false =>
          simp only [Option.some.injEq, Prod.mk.injEq, Bool.false_eq_true,
            and_false, false_implies, implies_true, true_and, and_true,
            exists_eq_left', forall_eq']
          rcases Nat.lt_or_ge (stdinRead input).length 4 with hshort | hlong
          · have hnot : ¬ BeginsQuit (stdinRead input) := fun hquit =>
              absurd hquit.length_le (Nat.not_le.mpr hshort)
            rw [iff_false_right hnot, Bool.not_eq_true,
              or_iff_right (Nat.not_le.mpr hshort)]
          · exact iff_of_true (isQuitRequest_write hlong) (Or.inl hlong)

end Pass

/-! ## Passes one after another -/

/-- The passes that are made: up to the first one that does not go on. -/
def passesMade : List (Memory × CommInput) → List (Memory × CommInput)
  | [] => []
  | (lBuf, input) :: passes =>
      (lBuf, input) :: match (commPass lBuf input).ends with
        | .goes => passesMade passes
        | _ => []

/-- How the loop ends; it goes on when the passes listed are over. -/
def loopEnd : List (Memory × CommInput) → CommEnd
  | [] => .goes
  | (lBuf, input) :: passes =>
      match (commPass lBuf input).ends with
      | .goes => loopEnd passes
      | ends => ends

/-- Where every pass decides, the loop exits by a request as soon as one is
typed, and only then. -/
theorem loopEnd_quit {passes : List (Memory × CommInput)}
    (h : ∀ p ∈ passesMade passes, QuitDecided p.1 p.2) :
    (loopEnd passes = .exits 0 ↔
        ∃ p ∈ passesMade passes, BeginsQuit (stdinRead p.2)) ∧
      ∀ p ∈ (passesMade passes).dropLast, ¬ BeginsQuit (stdinRead p.2) := by
  induction passes with
  | nil => simp [loopEnd, passesMade]
  | cons p passes ih =>
      obtain ⟨lBuf, input⟩ := p
      have hfirst : QuitObeyed lBuf input :=
        quitObeyed_iff.mpr (h (lBuf, input) List.mem_cons_self)
      unfold QuitObeyed at hfirst
      cases hends : (commPass lBuf input).ends with
      | goes =>
          have hnot : ¬ BeginsQuit (stdinRead input) := by
            rw [← hfirst, hends]
            simp
          simp only [passesMade, loopEnd, hends] at h ⊢
          obtain ⟨hiff, hbefore⟩ := ih fun p hp => h p (List.mem_cons_of_mem _ hp)
          refine ⟨by simp [hiff, hnot], ?_⟩
          cases hmade : passesMade passes with
          | nil => simp
          | cons q made =>
              rw [hmade] at hbefore
              rw [List.dropLast_cons_of_ne_nil (List.cons_ne_nil _ _)]
              exact List.forall_mem_cons.mpr ⟨hnot, hbefore⟩
      | leaves | exits code =>
          rw [hends] at hfirst
          simp [passesMade, loopEnd, hends, ← hfirst]

/-! ## Result -/

/-- A pass exits by the request if and only if it was typed, exactly where the
pass decides; a loop of such passes exits at the first request typed and at
nothing else. -/
theorem quit_obeyed_iff (passes : List (Memory × CommInput)) :
    (∀ p ∈ passes, QuitObeyed p.1 p.2 ↔ QuitDecided p.1 p.2) ∧
      ((∀ p ∈ passesMade passes, QuitDecided p.1 p.2) →
        (loopEnd passes = .exits 0 ↔
            ∃ p ∈ passesMade passes, BeginsQuit (stdinRead p.2)) ∧
          ∀ p ∈ (passesMade passes).dropLast,
            ¬ BeginsQuit (stdinRead p.2)) :=
  ⟨fun _ _ => quitObeyed_iff, loopEnd_quit⟩

/-- A pass in which stdin brings `text`, and the client `message` if it has sent
one. -/
def typed (text : String) (message : Option String) : CommInput where
  poll := some (true, message.isSome)
  stdin := .data (ascii text)
  read := .data (ascii (message.getD ""))
  currentNum := 0

/-- A line for the client, then a request. -/
def typedPasses : List (Memory × CommInput) :=
  [(fun _ => 0, typed "hello\n" none), (fun _ => 0, typed "QUIT\n" none)]

theorem quit_obeyed_iff_typed : loopEnd typedPasses = .exits 0 := by
  have hdecided : ∀ p ∈ passesMade typedPasses, QuitDecided p.1 p.2 := by
    intro p hp
    have hmem : p ∈ typedPasses := hp
    simp only [typedPasses, List.mem_cons, List.not_mem_nil, or_false] at hmem
    rcases hmem with rfl | rfl <;>
      exact ⟨by simp [typed], fun _ _ => Or.inl (by decide)⟩
  have hlast : (fun _ => 0, typed "QUIT\n" none) ∈ passesMade typedPasses :=
    List.mem_cons_of_mem _ List.mem_cons_self
  exact ((quit_obeyed_iff _).2 hdecided).1.mpr ⟨_, hlast, by decide⟩

/-- A request typed while the client has sent a message is lost; and two bytes
over an old buffer are taken for one. -/
theorem quit_not_obeyed :
    ¬ QuitObeyed (fun _ => 0) (typed "quit\n" (some "1 1\n")) ∧
      ¬ QuitObeyed (Memory.write (fun _ => 0) 0 (ascii "exit\n"))
        (typed "qu" none) := by
  constructor
  · rw [quitObeyed_iff]
    exact fun h => h.1 true rfl (by decide)
  · rw [quitObeyed_iff]
    intro h
    have hdecided := h.2 true rfl
    revert hdecided
    decide

end Pvos.Socksrv
