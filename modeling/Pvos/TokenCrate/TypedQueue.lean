import Pvos.Support.Keyed
import Pvos.TokenCrate.Protocol

/-!
# One typed queue does the work of three

`msgq/main.cpp` runs the loops over three POSIX queues, which order messages by
priority; `msgq/v_msgq.cpp` runs them over one System V queue and tells the
messages apart by their type.  Both behave as three first-in, first-out queues:
every message of `main.cpp` has priority 1, and the messages of one type keep
their order.

The lengths at which the kernel makes a sender wait are parameters.
-/

namespace Pvos.TokenCrate

open Pvos.Support

/-- `capacity` of both programs. -/
def capacity : ℕ := 5

/-- `MAX_MSG_SIZE` of `v_msgq.cpp`, the size of every message text. -/
def maxMsgSize : ℕ := 30

/-! ## POSIX queues -/

/-- The messages of the three queues with their priorities, in order of
arrival. -/
abbrev PosixQueues := Channel → List (ℕ × Text)

/-- The highest priority in a queue. -/
def highestPriority (q : List (ℕ × Text)) : ℕ :=
  q.foldr (fun e prio => max e.1 prio) 0

/-- `mq_receive`: the oldest message of the highest priority. -/
def mqReceive (q : List (ℕ × Text)) :
    Option (ℕ × Text × List (ℕ × Text)) :=
  (takeFirst (highestPriority q) q).map fun (text, rest) =>
    (highestPriority q, text, rest)

/-- The priority of a message: `msgprio` for the crate, otherwise 1. -/
def Channel.priority (msgprio : ℕ) : Channel → ℕ
  | .crate => msgprio
  | .producers | .consumers => 1

/-- The calls of `main.cpp` on queues of `maxmsg` messages; the variable
`msgprio` is read for the crate and overwritten by every receive. -/
def posixApi (maxmsg : ℕ) : QueueApi PosixQueues ℕ where
  send ch msgprio text q :=
    if (q ch).length < maxmsg then
      some (msgprio,
        Function.update q ch (q ch ++ [(ch.priority msgprio, text)]))
    else none
  recv ch _ q :=
    (mqReceive (q ch)).map fun (prio, text, rest) =>
      (prio, text, Function.update q ch rest)

/-- Empty queues but for the initial message, sent with `msgprio = 1`. -/
def initialPosix : PosixQueues
  | .producers => [(1, tokenText capacity 0)]
  | _ => []

/-- Every process of `main.cpp` is at the head of its loop. -/
def PosixInit {P : Type*} (role : P → Role)
    (s : Config P PosixQueues (LoopLocal ℕ)) : Prop :=
  s.shared = initialPosix ∧ ∀ p, (s.loc p).pc = (role p).waiting ∧
    (s.loc p).crateCapacity = capacity ∧ (s.loc p).extra = 1

/-- `msgq/main.cpp`. -/
def posixSystem {P : Type*} [DecidableEq P] (maxmsg : ℕ) (pid : P → ℕ)
    (role : P → Role) :
    System (Config P PosixQueues (LoopLocal ℕ)) (LoopEvent P) :=
  (loopProgram (posixApi maxmsg) pid).system (PosixInit role)

/-! ## One System V queue -/

/-- `consumer_type`, `producer_type` and `load_type`. -/
def Channel.type : Channel → ℕ
  | .consumers => 1
  | .producers => 2
  | .crate => 3

/-- The calls of `v_msgq.cpp` on a queue of at most `qbytes` bytes; the
variable is `msg.type`. -/
def sysvApi (qbytes : ℕ) : QueueApi (List (ℕ × Text)) ℕ where
  send ch _ text q :=
    if maxMsgSize * (q.length + 1) ≤ qbytes then
      some (ch.type, q ++ [(ch.type, text)])
    else none
  recv ch _ q :=
    (takeFirst ch.type q).map fun (text, rest) => (ch.type, text, rest)

/-- `msg` before the loop: zeroed, or the initial message in the process that
sent it. -/
def InitialMsg (l : LoopLocal ℕ) : Prop :=
  (l.extra = 0 ∧ l.msgbuf = []) ∨
    (l.extra = Channel.producers.type ∧ l.msgbuf = tokenText capacity 0)

/-- Every process of `v_msgq.cpp` is at the head of its loop. -/
def SysvInit {P : Type*} (role : P → Role)
    (s : Config P (List (ℕ × Text)) (LoopLocal ℕ)) : Prop :=
  s.shared = [(Channel.producers.type, tokenText capacity 0)] ∧
    ∀ p, (s.loc p).pc = (role p).waiting ∧
      (s.loc p).crateCapacity = capacity ∧ InitialMsg (s.loc p)

/-- `msgq/v_msgq.cpp`. -/
def sysvSystem {P : Type*} [DecidableEq P] (qbytes : ℕ) (pid : P → ℕ)
    (role : P → Role) :
    System (Config P (List (ℕ × Text)) (LoopLocal ℕ)) (LoopEvent P) :=
  (loopProgram (sysvApi qbytes) pid).system (SysvInit role)

/-! ## Processes with the same variables -/

/-- The same process over two kinds of queues.  The buffer is read only between
two calls of one round, so at the head of the loop it may differ. -/
structure SameLocal {X Y : Type*} (l : LoopLocal X) (k : LoopLocal Y) :
    Prop where
  pc : l.pc = k.pc
  crateCapacity : l.crateCapacity = k.crateCapacity
  curidx : l.curidx = k.curidx
  msgbuf : ∀ point, l.pc = .send point → l.msgbuf = k.msgbuf

section SameLocal

variable {P X Y Z : Type*} {pid : P → ℕ} {p : P} {l : LoopLocal X}
  {k : LoopLocal Y}

theorem SameLocal.symm (h : SameLocal l k) : SameLocal k l :=
  ⟨h.pc.symm, h.crateCapacity.symm, h.curidx.symm,
    fun point hpc => (h.msgbuf point (h.pc.trans hpc)).symm⟩

theorem SameLocal.trans {m : LoopLocal Z} (h : SameLocal l k)
    (h' : SameLocal k m) : SameLocal l m :=
  ⟨h.pc.trans h'.pc, h.crateCapacity.trans h'.crateCapacity,
    h.curidx.trans h'.curidx, fun point hpc =>
      (h.msgbuf point hpc).trans (h'.msgbuf point (h.pc ▸ hpc))⟩

/-- Equal but for the extra variable. -/
theorem SameLocal.of_eq (hpc : l.pc = k.pc)
    (hcapacity : l.crateCapacity = k.crateCapacity)
    (hcuridx : l.curidx = k.curidx) (hbuf : l.msgbuf = k.msgbuf) :
    SameLocal l k :=
  ⟨hpc, hcapacity, hcuridx, fun _ _ => hbuf⟩

theorem SameLocal.drainFrom (hcapacity : l.crateCapacity = k.crateCapacity)
    (hcuridx : l.curidx = k.curidx) (hbuf : l.msgbuf = k.msgbuf) (i : ℕ) :
    SameLocal (l.drainFrom i) (k.drainFrom i) := by
  simp only [LoopLocal.drainFrom, hcapacity]
  split
  · exact .of_eq rfl rfl hcuridx hbuf
  · exact .of_eq rfl rfl hcuridx rfl

/-- The statements behind a receive show the same events. -/
theorem SameLocal.afterRecv (h : SameLocal l k) (pid : P → ℕ) (p : P) (x : X)
    (y : Y) (text : Text) (point : RecvPoint) :
    ((l.withExtra x).afterRecv pid p text point).2 =
        ((k.withExtra y).afterRecv pid p text point).2 ∧
      SameLocal ((l.withExtra x).afterRecv pid p text point).1
        ((k.withExtra y).afterRecv pid p text point).1 := by
  cases point with
  | token =>
      simp only [LoopLocal.afterRecv, LoopLocal.withExtra, h.crateCapacity, h.curidx]
      split
      next => exact ⟨rfl, .of_eq rfl rfl rfl rfl⟩
      next => exact ⟨rfl, .of_eq rfl rfl rfl rfl⟩
  | full =>
      refine ⟨rfl, ?_⟩
      simp only [LoopLocal.afterRecv, LoopLocal.withExtra, h.crateCapacity]
      apply SameLocal.drainFrom
      · rfl
      · exact h.curidx
      · rfl
  | item i =>
      refine ⟨rfl, ?_⟩
      simp only [LoopLocal.afterRecv]
      apply SameLocal.drainFrom
      · exact h.crateCapacity
      · exact h.curidx
      · rfl

/-- The statements behind a send show the same events. -/
theorem SameLocal.afterSend (h : SameLocal l k) (x : X) (y : Y)
    {point : SendPoint} (hpc : l.pc = .send point) :
    ((l.withExtra x).afterSend p point).2 =
        ((k.withExtra y).afterSend p point).2 ∧
      SameLocal ((l.withExtra x).afterSend p point).1
        ((k.withExtra y).afterSend p point).1 := by
  have hbuf := h.msgbuf point hpc
  cases point with
  | item =>
      simp only [LoopLocal.afterSend, LoopLocal.withExtra, h.crateCapacity,
        h.curidx, hbuf]
      by_cases hlast : k.curidx = k.crateCapacity
      · simp only [hlast, ↓reduceIte]
        exact ⟨trivial, .of_eq rfl rfl rfl rfl⟩
      · simp only [hlast, ↓reduceIte]
        exact ⟨trivial, .of_eq rfl rfl rfl rfl⟩
  | _ => exact ⟨rfl, .of_eq rfl h.crateCapacity h.curidx hbuf⟩

theorem afterRecv_extra (pid : P → ℕ) (p : P) (l : LoopLocal X) (text : Text)
    (point : RecvPoint) :
    (l.afterRecv pid p text point).1.extra = l.extra := by
  cases point with
  | token =>
      simp only [LoopLocal.afterRecv]
      split <;> rfl
  | _ =>
      simp only [LoopLocal.afterRecv, LoopLocal.drainFrom]
      split <;> rfl

theorem afterSend_extra (l : LoopLocal X) (point : SendPoint) :
    (l.afterSend p point).1.extra = l.extra := by
  cases point with
  | item =>
      simp only [LoopLocal.afterSend]
      split <;> rfl
  | _ => rfl

end SameLocal

/-! ## Matching steps -/

/-- Two configurations whose queues and extra variables are related and whose
processes are the same. -/
structure Matched {P Q R X Y : Type*} (queues : Q → R → Prop)
    (extras : X → Y → Prop) (a : Config P Q (LoopLocal X))
    (b : Config P R (LoopLocal Y)) : Prop where
  shared : queues a.shared b.shared
  loc : ∀ p, SameLocal (a.loc p) (b.loc p)
  extra : ∀ p, extras (a.loc p).extra (b.loc p).extra

section Matching

variable {P Q R X Y : Type*} [DecidableEq P] {queues : Q → R → Prop}
  {extras : X → Y → Prop} {apiA : QueueApi Q X} {apiB : QueueApi R Y}
  {pid : P → ℕ} {a a' : Config P Q (LoopLocal X)}
  {b : Config P R (LoopLocal Y)} {es : List (LoopEvent P)} {p : P}

omit [DecidableEq P] in
theorem Matched.symm (h : Matched queues extras a b) :
    Matched (fun r q => queues q r) (fun y x => extras x y) b a :=
  ⟨h.shared, fun p => (h.loc p).symm, h.extra⟩

theorem Matched.move (h : Matched queues extras a b) {q : Q} {r : R}
    {l : LoopLocal X} {k : LoopLocal Y} (hshared : queues q r)
    (hsame : SameLocal l k) (hextra : extras l.extra k.extra) :
    Matched queues extras (Program.move a p q l) (Program.move b p r k) := by
  refine ⟨hshared, ?_, ?_⟩
  · intro p'
    by_cases hp : p' = p
    · subst hp
      simpa using hsame
    · simpa [Function.update_of_ne hp] using h.loc p'
  · intro p'
    by_cases hp : p' = p
    · subst hp
      simpa using hextra
    · simpa [Function.update_of_ne hp] using h.extra p'

/-- If the calls of one program are matched by those of the other, so are its
steps. -/
theorem Matched.exec (h : Matched queues extras a b)
    (hsend : ∀ p point x q', (a.loc p).pc = .send point →
      apiA.send point.channel (a.loc p).extra (a.loc p).msgbuf a.shared =
        some (x, q') →
      ∃ y r', apiB.send point.channel (b.loc p).extra (a.loc p).msgbuf
        b.shared = some (y, r') ∧ queues q' r' ∧ extras x y)
    (hrecv : ∀ p ch x text q',
      apiA.recv ch (a.loc p).extra a.shared = some (x, text, q') →
      ∃ y r', apiB.recv ch (b.loc p).extra b.shared = some (y, text, r') ∧
        queues q' r' ∧ extras x y)
    (hexec : (loopProgram apiA pid).exec a p () = some (a', es)) :
    ∃ b', (loopProgram apiB pid).exec b p () = some (b', es) ∧
      Matched queues extras a' b' := by
  obtain ⟨q', l', hproc, rfl⟩ := Program.exec_eq_some hexec
  have hsame := h.loc p
  simp only [loopProgram, loopStep] at hproc
  cases hpc : (a.loc p).pc with
  | send point =>
      simp only [hpc, Option.map_eq_some_iff, Prod.exists] at hproc
      obtain ⟨x, q₁, hcall, heq⟩ := hproc
      obtain ⟨rfl, hlocal⟩ := Prod.mk.injEq .. ▸ heq
      obtain ⟨y, r', hcall', hqueues, hextras⟩ := hsend p point x q₁ hpc hcall
      obtain ⟨hevents, hsame'⟩ := hsame.afterSend (p := p) x y hpc
      rw [hsame.msgbuf point hpc] at hcall'
      rw [hlocal] at hevents hsame'
      obtain rfl : es = _ := hevents
      refine ⟨_, Program.exec_of_proc (g := r')
        (l := (((b.loc p).withExtra y).afterSend p point).1) ?_,
        h.move hqueues hsame' ?_⟩
      · simp only [loopProgram, loopStep, ← hsame.pc, hpc, hcall']
        rfl
      · have hx := afterSend_extra (p := p) ((a.loc p).withExtra x) point
        rw [hlocal] at hx
        rw [afterSend_extra, hx]
        exact hextras
  | recv point =>
      simp only [hpc, Option.map_eq_some_iff, Prod.exists] at hproc
      obtain ⟨x, text, q₁, hcall, heq⟩ := hproc
      obtain ⟨rfl, hlocal⟩ := Prod.mk.injEq .. ▸ heq
      obtain ⟨y, r', hcall', hqueues, hextras⟩ :=
        hrecv p point.channel x text q₁ hcall
      obtain ⟨hevents, hsame'⟩ :=
        hsame.afterRecv pid p x y text point
      rw [hlocal] at hevents hsame'
      obtain rfl : es = _ := hevents
      refine ⟨_, Program.exec_of_proc (g := r')
        (l := (((b.loc p).withExtra y).afterRecv pid p text point).1) ?_,
        h.move hqueues hsame' ?_⟩
      · simp only [loopProgram, loopStep, ← hsame.pc, hpc, hcall']
        rfl
      · have hx := afterRecv_extra pid p ((a.loc p).withExtra x) text point
        rw [hlocal] at hx
        rw [afterRecv_extra, hx]
        exact hextras
  | fault => simp [hpc] at hproc

end Matching

/-! ## The queues of both programs -/

/-- A System V queue and three first-in, first-out queues with the same
messages. -/
structure SysvQueues (q : List (ℕ × Text)) (r : Queues) : Prop where
  messages : ∀ ch : Channel, r ch = withKey ch.type q
  length : q.length = (r .crate).length + (r .producers).length +
    (r .consumers).length

/-- Three POSIX queues with the messages of three first-in, first-out queues,
all of priority 1. -/
def PosixOf (r : Queues) (q : PosixQueues) : Prop :=
  ∀ ch, q ch = (r ch).map fun text => (1, text)

theorem Channel.type_injective : Function.Injective Channel.type := by
  intro ch ch' h
  cases ch <;> cases ch' <;> first | rfl | cases h

theorem SysvQueues.append {q : List (ℕ × Text)} {r : Queues}
    (h : SysvQueues q r) (ch : Channel) (text : Text) :
    SysvQueues (q ++ [(ch.type, text)])
      (Function.update r ch (r ch ++ [text])) := by
  constructor
  · intro ch'
    by_cases hch : ch' = ch
    · subst hch
      rw [Function.update_self, withKey_append_self, h.messages]
    · rw [Function.update_of_ne hch, h.messages,
        withKey_append_of_ne fun heq => hch (Channel.type_injective heq).symm]
  · have hlength := h.length
    cases ch <;> simp <;> omega

theorem SysvQueues.take {q rest : List (ℕ × Text)} {r : Queues}
    (h : SysvQueues q r) {ch : Channel} {text : Text}
    (htake : takeFirst ch.type q = some (text, rest)) :
    ∃ texts, r ch = text :: texts ∧
      SysvQueues rest (Function.update r ch texts) := by
  obtain ⟨hself, hother, hrest⟩ := withKey_of_takeFirst htake
  have hmessages := h.messages ch
  rw [hself] at hmessages
  refine ⟨_, hmessages, ?_, ?_⟩
  · intro ch'
    by_cases hch : ch' = ch
    · subst hch
      rw [Function.update_self]
    · rw [Function.update_of_ne hch, h.messages,
        hother _ fun heq => hch (Channel.type_injective heq)]
  · have hlength := h.length
    have hhead := congrArg List.length hmessages
    rw [List.length_cons] at hhead
    cases ch <;> simp <;> omega

theorem PosixOf.append {r : Queues} {q : PosixQueues} (h : PosixOf r q)
    (ch : Channel) (text : Text) :
    PosixOf (Function.update r ch (r ch ++ [text]))
      (Function.update q ch (q ch ++ [(1, text)])) := by
  intro ch'
  by_cases hch : ch' = ch
  · subst hch
    simp [h ch']
  · rw [Function.update_of_ne hch, Function.update_of_ne hch, h ch']

theorem PosixOf.tail {r : Queues} {q : PosixQueues} (h : PosixOf r q)
    (ch : Channel) (texts : List Text) :
    PosixOf (Function.update r ch texts)
      (Function.update q ch (texts.map fun text => (1, text))) := by
  intro ch'
  by_cases hch : ch' = ch
  · subst hch
    simp
  · rw [Function.update_of_ne hch, Function.update_of_ne hch, h ch']

/-- Among messages of priority 1 the oldest is received. -/
theorem mqReceive_map (text : Text) (texts : List Text) :
    mqReceive ((text :: texts).map fun text => (1, text)) =
      some (1, text, texts.map fun text => (1, text)) := by
  have hhighest : highestPriority
      ((text :: texts).map fun text => (1, text)) = 1 := by
    induction texts with
    | nil => rfl
    | cons text' texts ih =>
        simp only [List.map_cons, highestPriority, List.foldr_cons] at ih ⊢
        omega
  simp only [mqReceive, hhighest]
  rfl

theorem mqReceive_nil : mqReceive [] = none := rfl

/-! ## Both programs match the loops over first-in, first-out queues -/

section Programs

variable {P : Type*} [DecidableEq P] {maxmsg qbytes : ℕ} {pid : P → ℕ}
  {role : P → Role} {tr es : List (LoopEvent P)} {tok : Token P} {p : P}
  {f f' : Config P Queues (LoopLocal Unit)}
  {v v' : Config P (List (ℕ × Text)) (LoopLocal ℕ)}
  {m m' : Config P PosixQueues (LoopLocal ℕ)}

/-- While a process sends, the other queues are empty. -/
theorem TokenInv.length_le_of_send (h : TokenInv capacity pid role tr tok f)
    {point : SendPoint} (hpc : (f.loc p).pc = .send point) :
    (f.shared .crate).length + (f.shared .producers).length +
      (f.shared .consumers).length ≤ capacity := by
  have hcount := Token.count_le h.valid
  have hheld : tok.holder = some p := by
    by_contra hp
    have hwait := h.waiting p hp
    rw [hpc] at hwait
    cases hrole : role p <;> simp [hrole, Role.waiting] at hwait
  rw [h.length, h.producers, h.consumers]
  cases tok <;> simp at hheld hcount ⊢ <;> omega

theorem sysv_exec_fifo (hmaxmsg : capacity ≤ maxmsg)
    (hinv : TokenInv capacity pid role tr tok f)
    (h : Matched SysvQueues (fun _ _ => True) v f)
    (hexec : (loopProgram (sysvApi qbytes) pid).exec v p () = some (v', es)) :
    ∃ f', (loopProgram (fifoApi maxmsg) pid).exec f p () = some (f', es) ∧
      Matched SysvQueues (fun _ _ => True) v' f' := by
  refine h.exec ?_ ?_ hexec
  · intro r point x q' hpc hcall
    have hroom := hinv.send_room (by decide) hmaxmsg
      ((h.loc r).pc.symm.trans hpc)
    simp only [sysvApi] at hcall
    split at hcall
    next =>
      simp only [Option.some.injEq, Prod.mk.injEq] at hcall
      obtain ⟨-, rfl⟩ := hcall
      exact ⟨_, _, fifo_send_eq hroom, h.shared.append _ _, trivial⟩
    next => simp at hcall
  · intro r ch x text q' hcall
    simp only [sysvApi, Option.map_eq_some_iff, Prod.exists,
      Prod.mk.injEq] at hcall
    obtain ⟨text', rest, htake, -, rfl, rfl⟩ := hcall
    obtain ⟨texts, hr, hqueues⟩ := h.shared.take htake
    refine ⟨(), Function.update f.shared ch texts, ?_, hqueues, trivial⟩
    simp [fifoApi, hr]

theorem fifo_exec_sysv (hqbytes : maxMsgSize * (capacity + 1) ≤ qbytes)
    (hinv : TokenInv capacity pid role tr tok f)
    (h : Matched (fun r q => SysvQueues q r) (fun _ _ => True) f v)
    (hexec : (loopProgram (fifoApi maxmsg) pid).exec f p () = some (f', es)) :
    ∃ v', (loopProgram (sysvApi qbytes) pid).exec v p () = some (v', es) ∧
      Matched (fun r q => SysvQueues q r) (fun _ _ => True) f' v' := by
  refine h.exec ?_ ?_ hexec
  · intro r point x q' hpc hcall
    have hle := hinv.length_le_of_send hpc
    rw [← h.shared.length] at hle
    have hfits : maxMsgSize * (v.shared.length + 1) ≤ qbytes :=
      (Nat.mul_le_mul_left _ (Nat.succ_le_succ hle)).trans hqbytes
    simp only [fifoApi] at hcall
    split at hcall
    next =>
      simp only [Option.some.injEq, Prod.mk.injEq] at hcall
      obtain ⟨-, rfl⟩ := hcall
      exact ⟨_, _, if_pos hfits, h.shared.append _ _, trivial⟩
    next => simp at hcall
  · intro r ch x text q' hcall
    obtain ⟨texts, hr, rfl⟩ := fifo_recv_eq_some hcall
    rw [h.shared.messages] at hr
    obtain ⟨rest, htake, hrest⟩ := exists_takeFirst hr
    obtain ⟨texts', hr', hqueues⟩ := h.shared.take htake
    rw [h.shared.messages, hr, List.cons.injEq] at hr'
    obtain ⟨-, rfl⟩ := hr'
    refine ⟨ch.type, rest, ?_, hqueues, trivial⟩
    simp [sysvApi, htake]

theorem posix_exec_fifo
    (h : Matched (fun q r => PosixOf r q) (fun msgprio _ => msgprio = 1) m f)
    (hexec : (loopProgram (posixApi maxmsg) pid).exec m p () =
      some (m', es)) :
    ∃ f', (loopProgram (fifoApi maxmsg) pid).exec f p () = some (f', es) ∧
      Matched (fun q r => PosixOf r q) (fun msgprio _ => msgprio = 1)
        m' f' := by
  refine h.exec ?_ ?_ hexec
  · intro r point x q' _ hcall
    simp only [posixApi, h.extra r] at hcall
    split at hcall
    next hroom =>
      simp only [Option.some.injEq, Prod.mk.injEq] at hcall
      obtain ⟨rfl, rfl⟩ := hcall
      rw [h.shared, List.length_map] at hroom
      refine ⟨(), _, fifo_send_eq hroom, ?_, rfl⟩
      have hpriority : point.channel.priority 1 = 1 := by
        cases point <;> rfl
      rw [hpriority]
      exact h.shared.append _ _
    next => simp at hcall
  · intro r ch x text q' hcall
    simp only [posixApi, Option.map_eq_some_iff, Prod.exists,
      Prod.mk.injEq] at hcall
    obtain ⟨prio, text', rest, hreceive, rfl, rfl, rfl⟩ := hcall
    rw [h.shared] at hreceive
    cases hr : f.shared ch with
    | nil => simp [hr, mqReceive_nil] at hreceive
    | cons text texts =>
        rw [hr, mqReceive_map] at hreceive
        simp only [Option.some.injEq, Prod.mk.injEq] at hreceive
        obtain ⟨rfl, rfl, rfl⟩ := hreceive
        refine ⟨(), Function.update f.shared ch texts, ?_,
          h.shared.tail _ _, rfl⟩
        simp [fifoApi, hr]

theorem fifo_exec_posix
    (h : Matched PosixOf (fun _ msgprio => msgprio = 1) f m)
    (hexec : (loopProgram (fifoApi maxmsg) pid).exec f p () =
      some (f', es)) :
    ∃ m', (loopProgram (posixApi maxmsg) pid).exec m p () = some (m', es) ∧
      Matched PosixOf (fun _ msgprio => msgprio = 1) f' m' := by
  refine h.exec ?_ ?_ hexec
  · intro r point x q' _ hcall
    simp only [fifoApi] at hcall
    split at hcall
    next hroom =>
      simp only [Option.some.injEq, Prod.mk.injEq] at hcall
      obtain ⟨-, rfl⟩ := hcall
      have hpriority : point.channel.priority 1 = 1 := by
        cases point <;> rfl
      refine ⟨1, _, ?_, h.shared.append _ _, rfl⟩
      simp only [posixApi, h.extra r, h.shared point.channel, List.length_map,
        hroom, ↓reduceIte, hpriority]
    next => simp at hcall
  · intro r ch x text q' hcall
    obtain ⟨texts, hr, rfl⟩ := fifo_recv_eq_some hcall
    refine ⟨1, _, ?_, h.shared.tail ch texts, rfl⟩
    simp only [posixApi, h.shared ch, hr, mqReceive_map, Option.map_some]

end Programs

/-! ## The two programs -/

/-- A state of `v_msgq.cpp`, projected by message type, is a state of
`main.cpp`; there every priority and every `msgprio` is 1. -/
structure Projects {P : Type*}
    (v : Config P (List (ℕ × Text)) (LoopLocal ℕ))
    (m : Config P PosixQueues (LoopLocal ℕ)) : Prop where
  queues : ∀ ch : Channel, m.shared ch =
    (withKey ch.type v.shared).map fun text => (1, text)
  loc : ∀ p, SameLocal (v.loc p) (m.loc p)
  msgprio : ∀ p, (m.loc p).extra = 1

/-- Both states match a state of the loops over first-in, first-out queues. -/
def BothMatch {P : Type*} [DecidableEq P] (pid : P → ℕ) (role : P → Role)
    (v : Config P (List (ℕ × Text)) (LoopLocal ℕ))
    (m : Config P PosixQueues (LoopLocal ℕ)) : Prop :=
  ∃ (f : Config P Queues (LoopLocal Unit)) (tr : List (LoopEvent P))
      (tok : Token P), TokenInv capacity pid role tr tok f ∧
    Matched SysvQueues (fun _ _ => True) v f ∧
    Matched PosixOf (fun _ msgprio => msgprio = 1) f m

theorem BothMatch.projects {P : Type*} [DecidableEq P] {pid : P → ℕ}
    {role : P → Role} {v : Config P (List (ℕ × Text)) (LoopLocal ℕ)}
    {m : Config P PosixQueues (LoopLocal ℕ)}
    (h : BothMatch pid role v m) : Projects v m := by
  obtain ⟨f, tr, tok, -, hsysv, hposix⟩ := h
  refine ⟨?_, fun p => (hsysv.loc p).trans (hposix.loc p), hposix.extra⟩
  intro ch
  rw [hposix.shared ch, hsysv.shared.messages ch]

/-- The loops over first-in, first-out queues at their start. -/
theorem fifoInit_of {P X : Type*} {role : P → Role} {loc : P → LoopLocal X}
    (h : ∀ p, (loc p).pc = (role p).waiting) :
    FifoInit capacity role
      ⟨initialQueues capacity, fun p => { loc p with extra := () }⟩ :=
  ⟨rfl, h⟩

theorem sysvQueues_init :
    SysvQueues [(Channel.producers.type, tokenText capacity 0)]
      (initialQueues capacity) := by
  constructor
  · intro ch
    cases ch <;> rfl
  · rfl

theorem posixOf_init : PosixOf (initialQueues capacity) initialPosix := by
  intro ch
  cases ch <;> rfl

/-- `v_msgq.cpp` and `main.cpp` match each other step by step, with the same
items stored and the same lines printed, through states of which one is the
projection of the other.  The kernel must hold a whole crate: `capacity`
messages in a POSIX queue, one more in the System V queue. -/
theorem typed_queue_bisimulation {P : Type*} [DecidableEq P]
    {maxmsg qbytes : ℕ} (hmaxmsg : capacity ≤ maxmsg)
    (hqbytes : maxMsgSize * (capacity + 1) ≤ qbytes) (pid : P → ℕ)
    (role : P → Role) :
    ∃ R, System.Bisimulation (sysvSystem qbytes pid role)
        (posixSystem maxmsg pid role) R ∧
      ∀ v m, R v m → Projects v m := by
  refine ⟨BothMatch pid role, ⟨?_, ?_, ?_, ?_⟩, fun v m => BothMatch.projects⟩
  · rintro v ⟨hshared, hloc⟩
    have hpc := fun p => (hloc p).1
    refine ⟨⟨initialPosix, fun p => { v.loc p with extra := 1 }⟩,
      ⟨rfl, fun p => ⟨hpc p, (hloc p).2.1, rfl⟩⟩, _, _, _,
      tokenInv_init pid (by decide) (fifoInit_of hpc), ?_, ?_⟩
    · refine ⟨?_, fun p => .of_eq rfl rfl rfl rfl, fun _ => trivial⟩
      rw [hshared]
      exact sysvQueues_init
    · exact ⟨posixOf_init, fun p => .of_eq rfl rfl rfl rfl, fun _ => rfl⟩
  · rintro m ⟨hshared, hloc⟩
    have hpc := fun p => (hloc p).1
    refine ⟨⟨[(Channel.producers.type, tokenText capacity 0)],
        fun p => { m.loc p with msgbuf := [], extra := 0 }⟩,
      ⟨rfl, fun p => ⟨hpc p, (hloc p).2.1, Or.inl ⟨rfl, rfl⟩⟩⟩, _, _, _,
      tokenInv_init pid (by decide) (fifoInit_of hpc), ?_, ?_⟩
    · refine ⟨sysvQueues_init, fun p => ⟨rfl, rfl, rfl, ?_⟩, fun _ => trivial⟩
      intro point hsend
      have hwait := (hpc p).symm.trans hsend
      cases hrole : role p <;> simp [hrole, Role.waiting] at hwait
    · refine ⟨?_, fun p => .of_eq rfl rfl rfl rfl, fun p => (hloc p).2.2⟩
      rw [hshared]
      exact posixOf_init
  · rintro v m es v' ⟨f, tr, tok, hinv, hsysv, hposix⟩ hstep
    obtain ⟨p, c, hexec⟩ := Program.system_step_iff.mp hstep
    obtain ⟨f', hfexec, hsysv'⟩ := sysv_exec_fifo hmaxmsg hinv hsysv hexec
    obtain ⟨m', hmexec, hposix'⟩ := fifo_exec_posix hposix hfexec
    obtain ⟨tok', hinv'⟩ := tokenInv_step maxmsg (by decide)
      (by decide) hinv (Program.system_step_iff.mpr ⟨p, c, hfexec⟩)
    exact ⟨m', Program.system_step_iff.mpr ⟨p, c, hmexec⟩, f', _, tok', hinv',
      hsysv', hposix'⟩
  · rintro v m es m' ⟨f, tr, tok, hinv, hsysv, hposix⟩ hstep
    obtain ⟨p, c, hexec⟩ := Program.system_step_iff.mp hstep
    obtain ⟨f', hfexec, hposix'⟩ := posix_exec_fifo hposix.symm hexec
    obtain ⟨v', hvexec, hsysv'⟩ := fifo_exec_sysv hqbytes hinv hsysv.symm hfexec
    obtain ⟨tok', hinv'⟩ := tokenInv_step maxmsg (by decide)
      (by decide) hinv (Program.system_step_iff.mpr ⟨p, c, hfexec⟩)
    exact ⟨v', Program.system_step_iff.mpr ⟨p, c, hvexec⟩, f', _, tok', hinv',
      hsysv'.symm, hposix'.symm⟩

/-- Every run of `v_msgq.cpp`, projected by message type, is a run of
`main.cpp` with the same items stored and the same lines printed, and
conversely; all messages `main.cpp` ever has in its queues, and its `msgprio`,
are of priority 1. -/
theorem typed_queue_equivalent {P : Type*} [DecidableEq P]
    {maxmsg qbytes : ℕ} (hmaxmsg : capacity ≤ maxmsg)
    (hqbytes : maxMsgSize * (capacity + 1) ≤ qbytes) (pid : P → ℕ)
    (role : P → Role) :
    (∃ R, System.Bisimulation (sysvSystem qbytes pid role)
        (posixSystem maxmsg pid role) R ∧
      ∀ v m, R v m → Projects v m) ∧
      (∀ tr v, (sysvSystem qbytes pid role).Exec tr v →
        ∃ m, (posixSystem maxmsg pid role).Exec tr m ∧ Projects v m) ∧
      (∀ tr m, (posixSystem maxmsg pid role).Exec tr m →
        ∃ v, (sysvSystem qbytes pid role).Exec tr v ∧ Projects v m) ∧
      ∀ tr m, (posixSystem maxmsg pid role).Exec tr m →
        (∀ ch, ∀ e ∈ m.shared ch, e.1 = 1) ∧
          ∀ p, (m.loc p).extra = 1 := by
  obtain ⟨R, hbisim, hprojects⟩ :=
    typed_queue_bisimulation hmaxmsg hqbytes pid role
  have hright : ∀ tr m, (posixSystem maxmsg pid role).Exec tr m →
      ∃ v, (sysvSystem qbytes pid role).Exec tr v ∧ Projects v m := by
    intro tr m hexec
    obtain ⟨v, hexec', hR⟩ := hbisim.symm.simulation.exec hexec
    exact ⟨v, hexec', hprojects v m hR⟩
  refine ⟨⟨R, hbisim, hprojects⟩, ?_, hright, ?_⟩
  · intro tr v hexec
    obtain ⟨m, hexec', hR⟩ := hbisim.simulation.exec hexec
    exact ⟨m, hexec', hprojects v m hR⟩
  · intro tr m hexec
    obtain ⟨v, -, hproject⟩ := hright tr m hexec
    refine ⟨?_, hproject.msgprio⟩
    intro ch e he
    rw [hproject.queues ch] at he
    obtain ⟨text, -, rfl⟩ := List.mem_map.mp he
    rfl

/-- With the limits a kernel sets by default, 10 messages and 16384 bytes. -/
theorem typed_queue_equivalent_defaults :
    (∃ R, System.Bisimulation (sysvSystem 16384 (fun _ => 7) pairRole)
        (posixSystem 10 (fun _ => 7) pairRole) R ∧
      ∀ v m, R v m → Projects v m) ∧
      (∀ tr v, (sysvSystem 16384 (fun _ => 7) pairRole).Exec tr v →
        ∃ m, (posixSystem 10 (fun _ => 7) pairRole).Exec tr m ∧
          Projects v m) ∧
      (∀ tr m, (posixSystem 10 (fun _ => 7) pairRole).Exec tr m →
        ∃ v, (sysvSystem 16384 (fun _ => 7) pairRole).Exec tr v ∧
          Projects v m) ∧
      ∀ tr m, (posixSystem 10 (fun _ => 7) pairRole).Exec tr m →
        (∀ ch, ∀ e ∈ m.shared ch, e.1 = 1) ∧
          ∀ p, (m.loc p).extra = 1 :=
  typed_queue_equivalent (by decide) (by decide) (fun _ => 7) pairRole

end Pvos.TokenCrate
