import Pvos.CustomQueue.Init
import Pvos.CustomQueue.RingHistory
import Pvos.Support.CString
import Pvos.TokenCrate.Leftovers

/-!
# `init` over the shared memory of an earlier run

Shared memory objects and named semaphores outlive the processes too.  `main` of
`custom_queue.cpp` runs `init_queue` for its three queues, which only creates
what does not exist, and a process started with `init` then sends the first
token.

No other process runs, and no system call fails for a reason of its own.
-/

namespace Pvos.CustomQueue

open Pvos.Support Pvos.TokenCrate

/-! ## A process that runs alone -/

/-- The steps of a process until it is done, as far as there is fuel. -/
def runAlone {σ : Type*} (step : σ → Option σ) (done : σ → Bool) :
    ℕ → σ → Option σ
  | 0, _ => none
  | fuel + 1, s =>
      if done s then some s else (step s).bind (runAlone step done fuel)

theorem runAlone_succ {σ : Type*} {step : σ → Option σ} {done : σ → Bool}
    {s : σ} (h : done s = false) (fuel : ℕ) :
    runAlone step done (fuel + 1) s =
      (step s).bind (runAlone step done fuel) := by
  rw [runAlone, h]
  rfl

/-- `QUEUE_CAPACITY` and `MAX_MSG_SIZE`. -/
def mainQueue : MQueue where
  cap := 5
  maxMSize := 30

/-- The next system call of `init_queue`. -/
def initAlone (s : Kernel × InitLocal) : Option (Kernel × InitLocal) :=
  if s.2.alive then initQueue mainQueue false s.1 s.2 else none

/-- `init_queue`, when it returns `0`. -/
def initQueueAlone (msgbuf : Memory) (k : Kernel) :
    Option (Kernel × InitLocal) :=
  runAlone initAlone (fun s => s.2.pc = .ready) 13 (k, .start msgbuf)

/-- Outside `send` and `recv`. -/
def OpPc.isIdle : OpPc → Bool
  | .idle => true
  | _ => false

/-- The next statement of `send`. -/
def sendAlone (msg : Memory) (s : Kernel × InitLocal) :
    Option (Kernel × InitLocal) :=
  if s.2.alive then useQueue mainQueue (.send msg) s.1 s.2 else none

/-- `send`, when it returns. -/
def sendMessage (msg : Memory) (s : Kernel × InitLocal) :
    Option (Kernel × InitLocal) :=
  (sendAlone msg s).bind (runAlone (sendAlone msg) (fun s => s.2.op.pc.isIdle) 7)

/-- `custom_queue.cpp` with `init`: the objects behind the initial message, when
it can be sent. -/
def initCustom (msgbuf : Memory) (ks : Channel → Kernel) :
    Option (Channel → Kernel) := do
  let crate ← initQueueAlone msgbuf (ks .crate)
  let producers ← initQueueAlone msgbuf (ks .producers)
  let consumers ← initQueueAlone msgbuf (ks .consumers)
  let producers ← sendMessage (msgbuf.sprintf 0 (tokenText 5 0)) producers
  return fun
    | .crate => crate.1
    | .producers => producers.1
    | .consumers => consumers.1

/-! ## What the queues hold -/

/-- The string in slot `i`. -/
def Ring.text (g : Ring) (i : ℕ) : Text :=
  (g.slot mainQueue i).takeWhile (· ≠ 0)

/-- The messages that `recv` would return, one after the other. -/
def Kernel.messages (k : Kernel) : List Text :=
  if k.hasEmpty then
    (List.range k.ring.semEmpty).map fun i =>
      k.ring.text ((nextPosition mainQueue)^[i] k.ring.front)
  else []

/-- One token for an empty crate in the queues of `custom_queue.cpp`. -/
def CustomReestablished (msgbuf : Memory) (ks : Channel → Kernel) : Prop :=
  ∃ ks', initCustom msgbuf ks = some ks' ∧
    (fun ch => (ks' ch).messages) = initialQueues capacity

/-! ## `init_queue` -/

/-- `init_queue` returns `0`: the object of an earlier run can be touched, and
`front` is not `-1`. -/
def Kernel.Opens (k : Kernel) : Prop :=
  k.shmSize ≠ some 0 ∧ (k.shmSize ≠ none → k.ring.front ≠ uintModulus - 1)

/-- The shared memory behind `open_shm`. -/
def Kernel.openedShm (k : Kernel) : Kernel :=
  if k.shmSize = none then
    { k with
      shmSize := some mainQueue.mappedSize
      ring := { k.ring with front := 0, rear := 0, data := fun _ => 0 } }
  else k

/-- The objects behind `init_queue`: without `_full` all three semaphores are
set. -/
def Kernel.opened (k : Kernel) : Kernel :=
  if k.hasFull then k.openedShm
  else
    { k.openedShm with
      hasFull := true
      hasEmpty := true
      hasMutex := true
      ring := { k.openedShm.ring with
        semFull := 5, semEmpty := 0, semMutex := 1 } }

/-- A process behind `init_queue`. -/
def readyProcess (hasEmpty hasMutex : Bool) (msgbuf : Memory) : InitLocal where
  pc := .ready
  msgdata := true
  semFull := true
  semEmpty := hasEmpty
  semMutex := hasMutex
  op := ⟨.idle, msgbuf⟩
  alive := true

section Init

variable {k : Kernel} {msgbuf : Memory}

/-- A process in front of the system call `pc`, without semaphores. -/
def initAt (pc : InitPc) (msgdata : Bool) (msgbuf : Memory) : InitLocal :=
  { InitLocal.start msgbuf with pc, msgdata }

/-- The test behind `mmap`. -/
theorem initAlone_checkMap (k : Kernel) (msgbuf : Memory) :
    initAlone (k, initAt .checkMap true msgbuf) =
      if k.mapped then
        if k.ring.front = uintModulus - 1 then
          some (k, initAt .failed true msgbuf)
        else some (k, initAt .openFull true msgbuf)
      else some (k, { initAt .checkMap true msgbuf with alive := false }) :=
  rfl

/-- An object that exists is opened and mapped as it is. -/
theorem initQueueAlone_of_shmSize {size : ℕ} (h : k.shmSize = some size) :
    initQueueAlone msgbuf k =
      (initAlone (k, initAt .checkMap true msgbuf)).bind
        (runAlone initAlone (fun s => s.2.pc = .ready) 10) := by
  have hopen : initAlone (k, .start msgbuf) =
      some (k, initAt .mmap false msgbuf) := by
    simp [initAlone, initQueue, openShm, InitLocal.start, initAt, h]
  have hmmap : initAlone (k, initAt .mmap false msgbuf) =
      some (k, initAt .checkMap true msgbuf) := rfl
  rw [initQueueAlone, runAlone_succ rfl, hopen, Option.bind_some,
    runAlone_succ rfl, hmmap, Option.bind_some, runAlone_succ rfl]

theorem mapped_of_shmSize {size : ℕ} (h : k.shmSize = some size) :
    k.mapped = decide (0 < size) := by
  simp only [Kernel.mapped, h]

theorem initQueueAlone_of_opens (h : k.Opens) :
    initQueueAlone msgbuf k =
      some (k.opened, readyProcess k.opened.hasEmpty k.opened.hasMutex msgbuf) := by
  obtain ⟨hsize, hfront⟩ := h
  cases hshm : k.shmSize with
  | none =>
      obtain ⟨shmSize, hasFull, hasEmpty, hasMutex, g⟩ := k
      obtain rfl : shmSize = none := hshm
      cases hasFull with
      | true => rfl
      | false => rfl
  | some size =>
      have hpos : 0 < size := Nat.pos_of_ne_zero fun hzero =>
        hsize (by rw [hshm, hzero])
      rw [initQueueAlone_of_shmSize hshm, initAlone_checkMap,
        mapped_of_shmSize hshm, if_pos (decide_eq_true hpos),
        if_neg (hfront (by simp [hshm])), Option.bind_some]
      obtain ⟨shmSize, hasFull, hasEmpty, hasMutex, g⟩ := k
      obtain rfl : shmSize = some size := hshm
      cases hasFull with
      | true => rfl
      | false => rfl

theorem initQueueAlone_of_not_opens (h : ¬ k.Opens) :
    initQueueAlone msgbuf k = none := by
  cases hshm : k.shmSize with
  | none => exact absurd ⟨by simp [hshm], by simp [hshm]⟩ h
  | some size =>
      rw [initQueueAlone_of_shmSize hshm, initAlone_checkMap,
        mapped_of_shmSize hshm]
      rcases Nat.eq_zero_or_pos size with rfl | hpos
      · rfl
      · have hfront : k.ring.front = uintModulus - 1 := by
          by_contra hfront
          exact h ⟨by simp [hshm, hpos.ne'], fun _ => hfront⟩
        rw [if_pos (decide_eq_true hpos), if_pos hfront]
        rfl

end Init

/-! ## `send` -/

/-- Neither wait of `send` blocks, and the handles that it uses are valid. -/
structure Kernel.Sends (k : Kernel) : Prop where
  hasEmpty : k.hasEmpty = true
  hasMutex : k.hasMutex = true
  semFull : 0 < k.ring.semFull
  semMutex : 0 < k.ring.semMutex

/-- The objects behind `send`. -/
def Kernel.sent (k : Kernel) (msg : Memory) : Kernel :=
  { k with ring :=
    { semFull := k.ring.semFull - 1
      semEmpty := k.ring.semEmpty + 1
      semMutex := k.ring.semMutex - 1 + 1
      front := k.ring.front
      rear := nextPosition mainQueue k.ring.rear
      data := k.ring.data.memcpy (mainQueue.slotOffset k.ring.rear) msg 0 30 } }

section Send

variable {k : Kernel} {msg msgbuf : Memory}

theorem sendMessage_of_sends (hmapped : k.mapped = true) (h : k.Sends) :
    sendMessage msg (k, readyProcess k.hasEmpty k.hasMutex msgbuf) =
      some (k.sent msg, readyProcess true true msgbuf) := by
  obtain ⟨shmSize, hasFull, hasEmpty, hasMutex,
    ⟨semFull, semEmpty, semMutex, front, rear, data⟩⟩ := k
  obtain ⟨hempty, hmutex, hfullPos, hmutexPos⟩ := h
  obtain rfl : hasEmpty = true := hempty
  obtain rfl : hasMutex = true := hmutex
  obtain ⟨full, rfl⟩ := Nat.exists_eq_add_one_of_ne_zero hfullPos.ne'
  obtain ⟨mutex, rfl⟩ := Nat.exists_eq_add_one_of_ne_zero hmutexPos.ne'
  match shmSize, hmapped with
  | some (size + 1), _ => rfl

theorem sendMessage_of_not_sends (hmapped : k.mapped = true) (h : ¬ k.Sends) :
    sendMessage msg (k, readyProcess k.hasEmpty k.hasMutex msgbuf) = none := by
  obtain ⟨shmSize, hasFull, hasEmpty, hasMutex,
    ⟨semFull, semEmpty, semMutex, front, rear, data⟩⟩ := k
  match shmSize, hmapped with
  | some (size + 1), _ =>
      -- the waits come first, the post with the last handle at the end
      match semFull, hasMutex, semMutex, hasEmpty, h with
      | 0, _, _, _, _ => rfl
      | _ + 1, false, _, _, _ => rfl
      | _ + 1, true, 0, _, _ => rfl
      | _ + 1, true, _ + 1, false, _ => rfl
      | full + 1, true, mutex + 1, true, h =>
          exact absurd ⟨rfl, rfl, full.succ_pos, mutex.succ_pos⟩ h

end Send

/-! ## A new token -/

/-- Nothing of an earlier run is in the way of an empty queue. -/
structure Kernel.Unused (k : Kernel) : Prop where
  opens : k.Opens
  noMessage : k.hasFull = true → k.hasEmpty = true → k.ring.semEmpty = 0

/-- Nothing of an earlier run is in the way of a first message. -/
structure Kernel.TakesToken (k : Kernel) : Prop where
  sends : k.hasFull = true → k.Sends
  front : k.shmSize ≠ none → k.ring.front = k.ring.rear ∨
    k.ring.text k.ring.front = tokenText 5 0

section Token

variable {k : Kernel} {msg msgbuf : Memory} {ks : Channel → Kernel}

theorem opened_mapped (h : k.Opens) : k.opened.mapped = true := by
  obtain ⟨hsize, -⟩ := h
  obtain ⟨shmSize, hasFull, hasEmpty, hasMutex, g⟩ := k
  match shmSize, hasFull, hsize with
  | none, true, _ => rfl
  | none, false, _ => rfl
  | some 0, _, hsize => exact absurd rfl hsize
  | some (_ + 1), true, _ => rfl
  | some (_ + 1), false, _ => rfl

theorem openedShm_sends_iff : k.openedShm.Sends ↔ k.Sends := by
  rw [Kernel.openedShm]
  split
  · exact ⟨fun ⟨h, h', hf, hm⟩ => ⟨h, h', hf, hm⟩,
      fun ⟨h, h', hf, hm⟩ => ⟨h, h', hf, hm⟩⟩
  · rfl

theorem opened_sends_iff : k.opened.Sends ↔ (k.hasFull = true → k.Sends) := by
  rw [Kernel.opened]
  split
  next hfull => simp [hfull, openedShm_sends_iff]
  next hfull =>
    have hsends : Kernel.Sends { k.openedShm with
        hasFull := true
        hasEmpty := true
        hasMutex := true
        ring := { k.openedShm.ring with
          semFull := 5, semEmpty := 0, semMutex := 1 } } :=
      ⟨rfl, rfl, by simp, by simp⟩
    simp [hfull, hsends]

theorem messages_eq_nil_iff :
    k.messages = [] ↔ (k.hasEmpty = true → k.ring.semEmpty = 0) := by
  rw [Kernel.messages]
  split
  next hempty => simp [hempty]
  next hempty => simp [hempty]

/-- The queue is empty behind `init_queue`. -/
theorem opened_messages_iff :
    k.opened.messages = [] ↔
      (k.hasFull = true → k.hasEmpty = true → k.ring.semEmpty = 0) := by
  rw [messages_eq_nil_iff, Kernel.opened, Kernel.openedShm]
  split
  next hfull =>
    split
    next => simp [hfull]
    next => simp [hfull]
  next hfull => simp [hfull]

theorem opened_front_iff :
    (k.opened.ring.front = k.opened.ring.rear ∨
        k.opened.ring.text k.opened.ring.front = tokenText 5 0) ↔
      (k.shmSize ≠ none → k.ring.front = k.ring.rear ∨
        k.ring.text k.ring.front = tokenText 5 0) := by
  have hsame : k.opened.ring.front = k.openedShm.ring.front ∧
      k.opened.ring.rear = k.openedShm.ring.rear ∧
      k.opened.ring.text = k.openedShm.ring.text := by
    rw [Kernel.opened]
    split
    · exact ⟨rfl, rfl, rfl⟩
    · exact ⟨rfl, rfl, rfl⟩
  rw [hsame.1, hsame.2.1, hsame.2.2, Kernel.openedShm]
  split
  next hshm => simp [hshm]
  next hshm => simp [hshm]

/-- The message that `recv` finds at `front` behind `send`. -/
theorem sent_text {text : Text}
    (hmsg : (msg.bytes 0 30).takeWhile (· ≠ 0) = text) :
    (k.sent msg).ring.text k.ring.front =
      if k.ring.front = k.ring.rear then text
      else k.ring.text k.ring.front := by
  split
  next heq =>
    rw [heq, ← hmsg]
    exact congrArg (List.takeWhile _)
      (slot_memcpy_self mainQueue k.ring msg k.ring.rear)
  next hne =>
    exact congrArg (List.takeWhile _)
      (slot_memcpy_of_ne mainQueue k.ring msg hne)

/-- The queue holds one message behind `send`: the one that has been sent, or
one that lay at `front`. -/
theorem sent_messages_iff (hempty : k.hasEmpty = true) {text : Text}
    (hmsg : (msg.bytes 0 30).takeWhile (· ≠ 0) = text) :
    (k.sent msg).messages = [text] ↔ k.ring.semEmpty = 0 ∧
      (k.ring.front = k.ring.rear ∨ k.ring.text k.ring.front = text) := by
  have hmessages : (k.sent msg).messages =
      (List.range (k.ring.semEmpty + 1)).map fun i =>
        (k.sent msg).ring.text ((nextPosition mainQueue)^[i] k.ring.front) :=
    if_pos hempty
  rw [hmessages, List.range_succ_eq_map, List.map_cons, List.cons.injEq,
    Function.iterate_zero_apply, sent_text hmsg]
  simp only [List.map_eq_nil_iff, List.range_eq_nil]
  by_cases heq : k.ring.front = k.ring.rear
  · simp [heq]
  · simp [heq, and_comm]

/-- The objects behind `init`. -/
def tokenSent (msgbuf : Memory) (ks : Channel → Kernel) : Channel → Kernel
  | .crate => (ks .crate).opened
  | .producers =>
      (ks .producers).opened.sent (msgbuf.sprintf 0 (tokenText 5 0))
  | .consumers => (ks .consumers).opened

theorem initCustom_eq_some_iff {ks' : Channel → Kernel} :
    initCustom msgbuf ks = some ks' ↔
      (∀ ch, (ks ch).Opens) ∧ (ks .producers).opened.Sends ∧
        tokenSent msgbuf ks = ks' := by
  by_cases hopens : ∀ ch, (ks ch).Opens
  · have hmapped := opened_mapped (hopens .producers)
    simp only [initCustom, initQueueAlone_of_opens (hopens _),
      Option.bind_eq_bind, Option.bind_some]
    by_cases hsends : (ks .producers).opened.Sends
    · rw [sendMessage_of_sends hmapped hsends, Option.bind_some]
      have hsent : (fun
          | .crate => (ks .crate).opened
          | .producers =>
              (ks .producers).opened.sent (msgbuf.sprintf 0 (tokenText 5 0))
          | .consumers => (ks .consumers).opened : Channel → Kernel) =
            tokenSent msgbuf ks := by
        funext ch
        cases ch <;> rfl
      simp [hsends, hopens, hsent]
    · rw [sendMessage_of_not_sends hmapped hsends, Option.bind_none]
      simp [hsends]
  · have hnone : initCustom msgbuf ks = none := by
      obtain ⟨ch, hch⟩ := not_forall.mp hopens
      simp only [initCustom, Option.bind_eq_bind]
      cases ch with
      | crate => simp [initQueueAlone_of_not_opens hch]
      | producers => simp [initQueueAlone_of_not_opens hch]
      | consumers => simp [initQueueAlone_of_not_opens hch]
    simp [hnone, hopens]

/-- What the token looks like in the buffer of `main`. -/
theorem token_message (msgbuf : Memory) :
    ((msgbuf.sprintf 0 (tokenText 5 0)).bytes 0 30).takeWhile (· ≠ 0) =
      tokenText 5 0 := by
  have htext : tokenText 5 0 = [53, 32, 48] := rfl
  have hcstring : (msgbuf.sprintf 0 (tokenText 5 0)).cstring 30 0 =
      tokenText 5 0 := by
    rw [htext]
    exact Memory.cstring_sprintf_self msgbuf (by simp) (by simp)
  exact hcstring

/-- `custom_queue.cpp` starts over only with unused queues, or with the ones of
an earlier run that can be taken for unused. -/
theorem custom_reestablished_iff :
    CustomReestablished msgbuf ks ↔
      (∀ ch, (ks ch).Unused) ∧ (ks .producers).TakesToken := by
  have hcontents : (fun ch => (tokenSent msgbuf ks ch).messages) =
      initialQueues capacity ↔
        (ks .crate).opened.messages = [] ∧
        ((ks .producers).opened.sent
          (msgbuf.sprintf 0 (tokenText 5 0))).messages = [tokenText 5 0] ∧
        (ks .consumers).opened.messages = [] := by
    constructor
    · intro h
      exact ⟨congrFun h .crate, congrFun h .producers, congrFun h .consumers⟩
    · rintro ⟨hcrate, hproducers, hconsumers⟩
      funext ch
      cases ch with
      | crate => exact hcrate
      | producers => exact hproducers
      | consumers => exact hconsumers
  constructor
  · rintro ⟨ks', hinit, hqueues⟩
    obtain ⟨hopens, hsends, rfl⟩ := initCustom_eq_some_iff.mp hinit
    obtain ⟨hcrate, hproducers, hconsumers⟩ := hcontents.mp hqueues
    obtain ⟨hempty, hfront⟩ :=
      (sent_messages_iff hsends.hasEmpty (token_message msgbuf)).mp hproducers
    refine ⟨fun ch => ⟨hopens ch, opened_messages_iff.mp ?_⟩,
      opened_sends_iff.mp hsends, opened_front_iff.mp hfront⟩
    cases ch with
    | crate => exact hcrate
    | producers => exact messages_eq_nil_iff.mpr fun _ => hempty
    | consumers => exact hconsumers
  · rintro ⟨hunused, htoken⟩
    have hsends := opened_sends_iff.mpr htoken.sends
    have hnone : ∀ ch, (ks ch).opened.messages = [] := fun ch =>
      opened_messages_iff.mpr (hunused ch).noMessage
    refine ⟨_, initCustom_eq_some_iff.mpr
      ⟨fun ch => (hunused ch).opens, hsends, rfl⟩,
      hcontents.mpr ⟨hnone .crate, ?_, hnone .consumers⟩⟩
    rw [sent_messages_iff hsends.hasEmpty (token_message msgbuf)]
    exact ⟨messages_eq_nil_iff.mp (hnone .producers) hsends.hasEmpty,
      opened_front_iff.mpr htoken.front⟩

end Token

/-! ## All three programs -/

/-- After any earlier run, `init` leaves one token and an empty crate if and only
if this run has left no message in the queues and, in shared memory, no queue
that cannot be opened or, for the producers, that cannot take the token.  Only
what is stored is decided here, not the permits of the crate and of the
consumers. -/
theorem init_reestablishes_iff (maxmsg qbytes : ℕ) (msgbuf : Memory)
    (names : Channel → Option (List (ℕ × Text)))
    (name : Option (List (ℕ × Text))) (ks : Channel → Kernel) :
    (PosixReestablished maxmsg names ↔
        (∀ ch, (names ch).getD [] = []) ∧ 0 < maxmsg) ∧
      (SysvReestablished qbytes name ↔
        (∀ ch : Channel, withKey ch.type (name.getD []) = []) ∧
          maxMsgSize * ((name.getD []).length + 1) ≤ qbytes) ∧
      (CustomReestablished msgbuf ks ↔
        (∀ ch, (ks ch).Unused) ∧ (ks .producers).TakesToken) :=
  ⟨posix_reestablished_iff, sysv_reestablished_iff, custom_reestablished_iff⟩

/-- Before the first run. -/
def nothing : Kernel :=
  ⟨none, false, false, false, ⟨0, 0, 0, 0, 0, fun _ => 0⟩⟩

/-- After a first `init` a second one leaves two tokens. -/
theorem second_init_second_token :
    (∃ queues, initPosix 10 (fun _ => none) = some queues ∧
        ¬ PosixReestablished 10 fun ch => some (queues ch)) ∧
      (∃ qcrate, initSysv 16384 none = some qcrate ∧
        ¬ SysvReestablished 16384 (some qcrate)) ∧
      ∃ ks, initCustom (fun _ => 0) (fun _ => nothing) = some ks ∧
        ¬ CustomReestablished (fun _ => 0) ks := by
  refine ⟨⟨_, initPosix_eq.trans (if_pos (by decide)), ?_⟩,
    ⟨_, initSysv_eq.trans (if_pos (by decide)), ?_⟩, ?_⟩
  · rw [posix_reestablished_iff]
    rintro ⟨hnone, -⟩
    simpa using hnone .producers
  · rw [sysv_reestablished_iff]
    rintro ⟨hnone, -⟩
    simpa [withKey] using hnone .producers
  · have hopens : ∀ ch : Channel, nothing.Opens := fun _ =>
      ⟨by simp [nothing], by simp [nothing]⟩
    have hsends : nothing.opened.Sends := ⟨rfl, rfl, by decide, by decide⟩
    refine ⟨_, initCustom_eq_some_iff.mpr ⟨hopens, hsends, rfl⟩, ?_⟩
    rw [custom_reestablished_iff]
    rintro ⟨hunused, -⟩
    exact absurd ((hunused .producers).noMessage rfl rfl) (by decide)

end Pvos.CustomQueue
