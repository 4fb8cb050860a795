import Pvos.TokenCrate.TypedQueue

/-!
# `init` over the queues of an earlier run

Message queues outlive the processes.  A process that is started with the
argument `init` opens them with `O_TRUNC` and sends the first token.

`mq_open` ignores `O_TRUNC`.  In the flags of `msgget` its bit is `IPC_CREAT`.
In both cases the messages that are there stay, and the new token comes behind
them.
-/

namespace Pvos.TokenCrate

open Pvos.Support

/-! ## Opening queues -/

def oRdwr : ℕ := 0o2

def oCreat : ℕ := 0o100

def oTrunc : ℕ := 0o1000

def ipcCreat : ℕ := 0o1000

/-- Opening a name, for which there may be a queue: without one, `creat` among
the flags asks for an empty queue. -/
def openQueue {α : Type*} (creat flags : ℕ) : Option (List α) → Option (List α)
  | some q => some q
  | none => if flags &&& creat = 0 then none else some []

/-- `mq_open`. -/
def mqOpen {α : Type*} : ℕ → Option (List α) → Option (List α) :=
  openQueue oCreat

/-- `msgget`. -/
def msgget {α : Type*} : ℕ → Option (List α) → Option (List α) :=
  openQueue ipcCreat

/-- `open_create_queue` of `main.cpp`. -/
def openCreateMq {α : Type*} (oflag : ℕ) (q : Option (List α)) :
    Option (List α) :=
  match mqOpen oflag q with
  | some q' => some q'
  | none => mqOpen (oflag ||| oCreat) q

/-- `open_create_queue` of `v_msgq.cpp`. -/
def openCreateMsgq {α : Type*} (msgflag : ℕ) (q : Option (List α)) :
    Option (List α) :=
  match msgget msgflag q with
  | some q' => some q'
  | none => msgget (msgflag ||| ipcCreat) q

/-- `qflags` of `main.cpp` with `init`. -/
def initOflag : ℕ := oRdwr ||| oTrunc

/-- `qflags` of `v_msgq.cpp` with `init`. -/
def initMsgflag : ℕ := 0o600 ||| oTrunc

section Open

variable {α : Type*}

/-- A queue that is there keeps its messages. -/
theorem openCreateMq_init (q : Option (List α)) :
    openCreateMq initOflag q = some (q.getD []) := by
  cases q <;> rfl

theorem openCreateMsgq_init (q : Option (List α)) :
    openCreateMsgq initMsgflag q = some (q.getD []) := by
  cases q <;> rfl

end Open

/-! ## The initial message -/

/-- `main.cpp` with `init`: the queues behind the initial message, when it can
be sent. -/
def initPosix (maxmsg : ℕ) (names : Channel → Option (List (ℕ × Text))) :
    Option PosixQueues := do
  let crate ← openCreateMq initOflag (names .crate)
  let producers ← openCreateMq initOflag (names .producers)
  let consumers ← openCreateMq initOflag (names .consumers)
  let queues : PosixQueues
    | .crate => crate
    | .producers => producers
    | .consumers => consumers
  let (_, queues) ←
    (posixApi maxmsg).send .producers 1 (tokenText capacity 0) queues
  return queues

/-- `v_msgq.cpp` with `init`. -/
def initSysv (qbytes : ℕ) (name : Option (List (ℕ × Text))) :
    Option (List (ℕ × Text)) := do
  let qcrate ← openCreateMsgq initMsgflag name
  let (_, qcrate) ←
    (sysvApi qbytes).send .producers 0 (tokenText capacity 0) qcrate
  return qcrate

/-- One token for an empty crate in the queues of `main.cpp`. -/
def PosixReestablished (maxmsg : ℕ)
    (names : Channel → Option (List (ℕ × Text))) : Prop :=
  ∃ queues, initPosix maxmsg names = some queues ∧
    (fun ch => (queues ch).map Prod.snd) = initialQueues capacity

/-- The same in the queue of `v_msgq.cpp`. -/
def SysvReestablished (qbytes : ℕ) (name : Option (List (ℕ × Text))) : Prop :=
  ∃ qcrate, initSysv qbytes name = some qcrate ∧
    (fun ch => withKey (Channel.type ch) qcrate) = initialQueues capacity

section Init

variable {maxmsg qbytes : ℕ} {names : Channel → Option (List (ℕ × Text))}
variable {name : Option (List (ℕ × Text))}

/-- The token comes behind the messages of the earlier run. -/
theorem initPosix_eq :
    initPosix maxmsg names =
      if ((names .producers).getD []).length < maxmsg then
        some (Function.update (fun ch => (names ch).getD []) .producers
          ((names .producers).getD [] ++ [(1, tokenText capacity 0)]))
      else none := by
  have hqueues : (fun
      | .crate => (names .crate).getD []
      | .producers => (names .producers).getD []
      | .consumers => (names .consumers).getD [] : PosixQueues) =
        fun ch => (names ch).getD [] := by
    funext ch
    cases ch <;> rfl
  simp only [initPosix, openCreateMq_init, Option.bind_eq_bind,
    Option.bind_some]
  rw [hqueues]
  simp only [posixApi]
  split
  · rfl
  · rfl

theorem initSysv_eq :
    initSysv qbytes name =
      if maxMsgSize * ((name.getD []).length + 1) ≤ qbytes then
        some (name.getD [] ++
          [(Channel.producers.type, tokenText capacity 0)])
      else none := by
  simp only [initSysv, openCreateMsgq_init, Option.bind_eq_bind,
    Option.bind_some, sysvApi]
  split
  · rfl
  · rfl

/-- `main.cpp` starts over only without messages in its queues. -/
theorem posix_reestablished_iff :
    PosixReestablished maxmsg names ↔
      (∀ ch, (names ch).getD [] = []) ∧ 0 < maxmsg := by
  rw [PosixReestablished, initPosix_eq]
  constructor
  · rintro ⟨queues, hinit, hqueues⟩
    obtain ⟨hroom, hqueue⟩ := Option.ite_none_right_eq_some.mp hinit
    obtain rfl := Option.some.inj hqueue
    refine ⟨fun ch => ?_, Nat.zero_lt_of_lt hroom⟩
    have hch := congrFun hqueues ch
    cases ch with
    | producers => simpa [initialQueues] using hch
    | crate | consumers => simpa [initialQueues] using hch
  · rintro ⟨hnone, hroom⟩
    simp only [hnone, List.length_nil, if_pos hroom, List.nil_append]
    refine ⟨_, rfl, ?_⟩
    funext ch
    cases ch <;> simp [initialQueues]

/-- `v_msgq.cpp` starts over only without messages of its types. -/
theorem sysv_reestablished_iff :
    SysvReestablished qbytes name ↔
      (∀ ch : Channel, withKey ch.type (name.getD []) = []) ∧
        maxMsgSize * ((name.getD []).length + 1) ≤ qbytes := by
  have hmessages : ∀ ch : Channel, withKey ch.type (name.getD [] ++
      [(Channel.producers.type, tokenText capacity 0)]) =
        withKey ch.type (name.getD []) ++ initialQueues capacity ch := by
    intro ch
    by_cases hch : ch = .producers
    · subst hch
      exact withKey_append_self _ _ _
    · rw [withKey_append_of_ne fun heq =>
        hch (Channel.type_injective heq).symm]
      cases ch with
      | producers => contradiction
      | crate | consumers => simp [initialQueues]
  rw [SysvReestablished, initSysv_eq]
  constructor
  · rintro ⟨qcrate, hinit, hqcrate⟩
    obtain ⟨hroom, hqueue⟩ := Option.ite_none_right_eq_some.mp hinit
    obtain rfl := Option.some.inj hqueue
    refine ⟨fun ch => ?_, hroom⟩
    have hch := congrFun hqcrate ch
    rw [hmessages] at hch
    exact List.append_left_eq_self.mp hch
  · rintro ⟨hnone, hroom⟩
    rw [if_pos hroom]
    refine ⟨_, rfl, ?_⟩
    funext ch
    rw [hmessages, hnone, List.nil_append]

end Init

end Pvos.TokenCrate
