import Pvos.TokenCrate.Loop

/-!
# One token for the whole crate

Over three first-in, first-out queues the processes pass a single token
around: a message between the producers, a message to the consumers, or a
process between two queue operations.  The place of the token determines how
many items the crate holds and what every process is about to do.
-/

namespace Pvos.TokenCrate

open Pvos.Support

/-! ## First-in, first-out queues -/

/-- The messages in each of the three queues, oldest first. -/
abbrev Queues := Channel → List Text

/-- Queues with room for `room` messages each. -/
def fifoApi (room : ℕ) : QueueApi Queues Unit where
  send ch _ text q :=
    if (q ch).length < room then
      some ((), Function.update q ch (q ch ++ [text]))
    else none
  recv ch _ q :=
    match q ch with
    | [] => none
    | text :: rest => some ((), text, Function.update q ch rest)

/-- Empty queues but for the initial message of a crate of capacity `cap`. -/
def initialQueues (cap : ℕ) : Queues
  | .producers => [tokenText cap 0]
  | _ => []

/-- Every process waits at the head of its loop and the queues hold the
initial message only. -/
def FifoInit {P : Type*} (cap : ℕ) (role : P → Role)
    (s : Config P Queues (LoopLocal Unit)) : Prop :=
  s.shared = initialQueues cap ∧ ∀ p, (s.loc p).pc = (role p).waiting

/-- `custom_queue.cpp`: the loops over three queues that work as first-in,
first-out queues of `room` messages, with the initial message for a crate of
capacity `cap`. -/
def fifoSystem {P : Type*} [DecidableEq P] (room cap : ℕ) (pid : P → ℕ)
    (role : P → Role) :
    System (Config P Queues (LoopLocal Unit)) (LoopEvent P) :=
  (loopProgram (fifoApi room) pid).system (FifoInit cap role)

theorem fifo_send_eq {room : ℕ} {ch : Channel} {x : Unit} {text : Text}
    {q : Queues} (h : (q ch).length < room) :
    (fifoApi room).send ch x text q =
      some ((), Function.update q ch (q ch ++ [text])) :=
  if_pos h

theorem fifo_recv_eq_some {room : ℕ} {ch : Channel} {x x' : Unit}
    {text : Text} {q q' : Queues}
    (h : (fifoApi room).recv ch x q = some (x', text, q')) :
    ∃ rest, q ch = text :: rest ∧ q' = Function.update q ch rest := by
  simp only [fifoApi] at h
  split at h
  next => simp at h
  next text' rest hq =>
    simp only [Option.some.injEq, Prod.mk.injEq] at h
    obtain ⟨-, rfl, rfl⟩ := h
    exact ⟨rest, hq, rfl⟩

/-! ## Message texts -/

theorem endsNumber_nil : EndsNumber [] := by
  intro b hb
  simp at hb

/-- The token text scans as the two numbers printed. -/
theorem scanToken_tokenText {a b : ℕ} (ha : a < 2 ^ 31) (hb : b < 2 ^ 31)
    (c d : ℤ) : scanToken (tokenText a b) c d = ((a : ℤ), (b : ℤ)) := by
  have hfirst : sscanfInt ([] ++ (decimal a ++ (ascii " " ++ decimal b))) =
      some ((a : ℤ), (decimal a).length) := by
    rw [sscanfInt_decimal (by simp) (by omega) (by omega)]
    · simp
    · intro x hx
      have hspace : x = 32 := by
        simpa [ascii] using hx.symm
      rw [hspace]
      rfl
  have hsecond : sscanfInt (ascii " " ++ (decimal b ++ [])) =
      some ((b : ℤ), 1 + (decimal b).length) :=
    sscanfInt_decimal (fun _ => isSpace_of_mem_space) (by omega) (by omega)
      endsNumber_nil
  rw [List.nil_append] at hfirst
  rw [List.append_nil] at hsecond
  have hdrop : (tokenText a b).drop (decimal a).length =
      ascii " " ++ decimal b := by
    simp [tokenText]
  simp only [scanToken]
  rw [tokenText, List.append_assoc, hfirst]
  simp only
  rw [← List.append_assoc, ← tokenText, hdrop, hsecond]

theorem scanCapacity_decimal {a : ℕ} (ha : a < 2 ^ 31) (c : ℤ) :
    scanCapacity (decimal a) c = a := by
  have hscan : sscanfInt ([] ++ (decimal a ++ [])) =
      some ((a : ℤ), 0 + (decimal a).length) :=
    sscanfInt_decimal (by simp) (by omega) (by omega) endsNumber_nil
  rw [List.nil_append, List.append_nil] at hscan
  simp [scanCapacity, hscan]

theorem itemAt_of_lt {i : ℕ} (h : i < 8) : ∃ item, itemAt i = some item := by
  have hlt : i < items.length := h
  exact ⟨ascii items[i], by simp [itemAt, hlt]⟩

/-! ## The token -/

/-- Where the token is: `free i` and `full` in a queue, otherwise at a process.
A producer holds it before (`taken`) and after (`placed`) it puts item `i` into
the crate, a consumer while it reads item `i` (`draining`) and after the last
one (`drained`). -/
inductive Token (P : Type*)
  | free (i : ℕ)
  | taken (p : P) (i : ℕ)
  | placed (p : P) (i : ℕ)
  | full
  | draining (p : P) (i : ℕ)
  | drained (p : P)

namespace Token

variable {P : Type*}

/-- The process that holds the token. -/
@[simp] def holder : Token P → Option P
  | free _ | full => none
  | taken p _ | placed p _ | draining p _ | drained p => some p

/-- The content of the queue between the producers. -/
@[simp] def producersQueue (cap : ℕ) : Token P → List Text
  | free i => [tokenText cap i]
  | _ => []

/-- The content of the queue to the consumers. -/
@[simp] def consumersQueue (cap : ℕ) : Token P → List Text
  | full => [decimal cap]
  | _ => []

/-- The index of the oldest item in the crate. -/
@[simp] def start : Token P → ℕ
  | draining _ i => i
  | _ => 0

/-- The number of items in the crate. -/
@[simp] def count (cap : ℕ) : Token P → ℕ
  | free i | taken _ i => i
  | placed _ i => i + 1
  | full => cap
  | draining _ i => cap - i
  | drained _ => 0

/-- The bounds of the index and the role of the holder. -/
def Valid (cap : ℕ) (role : P → Role) : Token P → Prop
  | free i => i < cap
  | taken p i | placed p i => i < cap ∧ role p = .producer
  | full => True
  | draining p i => i < cap ∧ role p = .consumer
  | drained p => role p = .consumer

theorem count_le {cap : ℕ} {role : P → Role} {tok : Token P}
    (h : tok.Valid cap role) : tok.count cap ≤ cap := by
  cases tok <;> simp only [Valid, count] at h ⊢ <;> omega

end Token

section Invariant

variable {P X : Type*} (cap : ℕ) (pid : P → ℕ) (role : P → Role)

/-- `text` is item `i` as some producer prints it. -/
def IsItem (i : ℕ) (text : Text) : Prop :=
  ∃ p item, role p = .producer ∧ itemAt i = some item ∧
    text = itemText (pid p) item

/-- The lines are the items `start, start + 1, …`. -/
def AreItems (start : ℕ) (lines : List Text) : Prop :=
  ∀ i (h : i < lines.length), IsItem pid role (start + i) lines[i]

/-- The variables of the process that holds the token. -/
def HolderAt (l : LoopLocal X) : Token P → Prop
  | .taken p i =>
      l.pc = .send .item ∧ l.crateCapacity = cap ∧ l.curidx = i + 1 ∧
        ∃ item, itemAt i = some item ∧ l.msgbuf = itemText (pid p) item
  | .placed _ i =>
      (i + 1 = cap ∧ l.pc = .send .full ∧ l.msgbuf = decimal cap) ∨
        (i + 1 < cap ∧ l.pc = .send .token ∧
          l.msgbuf = tokenText cap (i + 1 : ℕ))
  | .draining _ i => l.pc = .recv (.item i) ∧ l.crateCapacity = cap
  | .drained _ => l.pc = .send .restart ∧ l.msgbuf = tokenText cap 0
  | .free _ | .full => True

/-- How many items of the current batch the holder has printed. -/
@[simp] def Token.printedBy : Token P → Option (P × ℕ)
  | .draining p i => some (p, i)
  | .drained p => some (p, cap)
  | _ => none

/-- The token `tok` determines the queues, the crate and every process. -/
structure TokenInv [DecidableEq P] (tr : List (LoopEvent P)) (tok : Token P)
    (s : Config P Queues (LoopLocal X)) : Prop where
  valid : tok.Valid cap role
  producers : s.shared .producers = tok.producersQueue cap
  consumers : s.shared .consumers = tok.consumersQueue cap
  length : (s.shared .crate).length = tok.count cap
  crate : AreItems pid role tok.start (s.shared .crate)
  waiting : ∀ p, tok.holder ≠ some p → (s.loc p).pc = (role p).waiting
  holder : ∀ p, tok.holder = some p → HolderAt cap pid (s.loc p) tok
  batch : ∀ p n, tok.printedBy cap = some (p, n) →
    (batchOf p tr).length = n ∧ AreItems pid role 0 (batchOf p tr)
  indexed : ∀ p (i : ℤ), .indexed p i ∈ tr → 0 ≤ i ∧ i < cap

end Invariant

section Items

variable {P : Type*} {pid : P → ℕ} {role : P → Role}

theorem areItems_nil (start : ℕ) : AreItems pid role start [] :=
  fun _ h => absurd h (Nat.not_lt_zero _)

theorem AreItems.append {start : ℕ} {lines : List Text} {text : Text}
    (h : AreItems pid role start lines)
    (htext : IsItem pid role (start + lines.length) text) :
    AreItems pid role start (lines ++ [text]) := by
  intro i hi
  rw [List.length_append, List.length_singleton] at hi
  rcases Nat.lt_succ_iff_lt_or_eq.mp hi with hlt | rfl
  · rw [List.getElem_append_left hlt]
    exact h i hlt
  · simpa using htext

theorem AreItems.tail {start : ℕ} {lines : List Text} {text : Text}
    (h : AreItems pid role start (text :: lines)) :
    AreItems pid role (start + 1) lines := by
  intro i hi
  have hcons := h (i + 1) (by simpa using hi)
  rw [List.getElem_cons_succ] at hcons
  rwa [Nat.add_assoc, Nat.add_comm 1 i]

theorem AreItems.head {start : ℕ} {lines : List Text} {text : Text}
    (h : AreItems pid role start (text :: lines)) :
    IsItem pid role start text := by
  have hget := h 0 (Nat.zero_lt_succ _)
  rwa [Nat.add_zero, List.getElem_cons_zero] at hget

end Items

theorem batchOf_append_received {P : Type*} [DecidableEq P] (p : P)
    (tr : List (LoopEvent P)) : batchOf p (tr ++ [.received p]) = [] := by
  simp [batchOf]

theorem batchOf_append_printed {P : Type*} [DecidableEq P] (p : P)
    (tr : List (LoopEvent P)) (text : Text) :
    batchOf p (tr ++ [.printed p text]) = batchOf p tr ++ [text] := by
  simp [batchOf]

/-! ## Moving the token -/

section Local

variable {P : Type*} {room cap : ℕ} {pid : P → ℕ} {es : List (LoopEvent P)}
  {p : P} {q' : Queues} {l' : LoopLocal Unit}

theorem loopStep_send {q : Queues} {l : LoopLocal Unit} {point : SendPoint}
    (hpc : l.pc = .send point)
    (h : loopStep (fifoApi room) pid p q l = some (q', l', es)) :
    q' = Function.update q point.channel (q point.channel ++ [l.msgbuf]) ∧
      (l', es) = l.afterSend p point := by
  simp only [loopStep, hpc, Option.map_eq_some_iff, Prod.exists] at h
  obtain ⟨x, q₁, hsend, heq⟩ := h
  simp only [Prod.mk.injEq] at heq
  obtain ⟨rfl, heq⟩ := heq
  simp only [fifoApi] at hsend
  split at hsend
  next =>
    simp only [Option.some.injEq, Prod.mk.injEq] at hsend
    exact ⟨hsend.2.symm, heq.symm⟩
  next => simp at hsend

theorem loopStep_recv {q : Queues} {l : LoopLocal Unit} {point : RecvPoint}
    (hpc : l.pc = .recv point)
    (h : loopStep (fifoApi room) pid p q l = some (q', l', es)) :
    ∃ text rest, q point.channel = text :: rest ∧
      q' = Function.update q point.channel rest ∧
      (l', es) = l.afterRecv pid p text point := by
  simp only [loopStep, hpc, Option.map_eq_some_iff, Prod.exists] at h
  obtain ⟨x, text, q₁, hrecv, heq⟩ := h
  simp only [Prod.mk.injEq] at heq
  obtain ⟨rfl, heq⟩ := heq
  obtain ⟨rest, hq, hq'⟩ := fifo_recv_eq_some hrecv
  exact ⟨text, rest, hq, hq', heq.symm⟩

/-- The test of the `for` loop at item `i` of a full batch. -/
theorem holderAt_drainFrom (pid : P → ℕ) (p : P) {l : LoopLocal Unit}
    {i : ℕ} (hi : i ≤ cap)
    (hcapacity : l.crateCapacity = cap) :
    (i < cap ∧ HolderAt cap pid (l.drainFrom i) (.draining p i)) ∨
      (i = cap ∧ HolderAt cap pid (l.drainFrom i) (.drained p)) := by
  rcases Nat.lt_or_eq_of_le hi with hlt | rfl
  · left
    simp [LoopLocal.drainFrom, HolderAt, hcapacity, hlt]
  · right
    simp [LoopLocal.drainFrom, hcapacity, HolderAt]

end Local

section Step

variable {P : Type*} [DecidableEq P] {room cap : ℕ} {pid : P → ℕ}
  {role : P → Role} {tr es : List (LoopEvent P)} {tok tok' : Token P}
  {s : Config P Queues (LoopLocal Unit)} {p : P} {q' : Queues}
  {l' : LoopLocal Unit}

/-- What remains to be shown when `p` takes, keeps or passes on the token; all
other processes wait before and after. -/
theorem TokenInv.move (h : TokenInv cap pid role tr tok s)
    (hheld : tok.holder = none ∨ tok.holder = some p)
    (hvalid : tok'.Valid cap role)
    (hproducers : q' .producers = tok'.producersQueue cap)
    (hconsumers : q' .consumers = tok'.consumersQueue cap)
    (hlength : (q' .crate).length = tok'.count cap)
    (hcrate : AreItems pid role tok'.start (q' .crate))
    (hlocal : (tok'.holder = none ∧ l'.pc = (role p).waiting) ∨
      (tok'.holder = some p ∧ HolderAt cap pid l' tok'))
    (hbatch : ∀ p' n, tok'.printedBy cap = some (p', n) →
      (batchOf p' (tr ++ es)).length = n ∧
        AreItems pid role 0 (batchOf p' (tr ++ es)))
    (hindexed : ∀ p' (i : ℤ), .indexed p' i ∈ es → 0 ≤ i ∧ i < cap) :
    TokenInv cap pid role (tr ++ es) tok' (Program.move s p q' l') := by
  constructor
  · exact hvalid
  · exact hproducers
  · exact hconsumers
  · exact hlength
  · exact hcrate
  · refine Program.forall_move (Q := fun p (l : LoopLocal Unit) =>
      tok'.holder ≠ some p → l.pc = (role p).waiting)
      (fun hp => ?_) fun p' hpp _ => ?_
    · rcases hlocal with ⟨-, hpc⟩ | ⟨hholder, -⟩
      · exact hpc
      · exact absurd hholder hp
    · apply h.waiting
      rcases hheld with hnone | hsome
      · rw [hnone]
        exact Option.some_ne_none p' ∘ Eq.symm
      · rw [hsome]
        intro heq
        exact hpp (Option.some.inj heq).symm
  · intro p' hp'
    rcases hlocal with ⟨hnone, -⟩ | ⟨hholder, hat⟩
    · rw [hnone] at hp'
      simp at hp'
    · rw [hholder, Option.some.injEq] at hp'
      subst hp'
      simpa using hat
  · exact hbatch
  · intro p' i hmem
    rcases List.mem_append.mp hmem with hold | hnew
    · exact h.indexed p' i hold
    · exact hindexed p' i hnew

/-- A producer receives the token. -/
theorem TokenInv.take (h8 : cap ≤ 8) (h : TokenInv cap pid role tr tok s)
    (hheld : tok.holder ≠ some p) (hrole : role p = .producer)
    (hproc : loopStep (fifoApi room) pid p s.shared (s.loc p) =
      some (q', l', es)) :
    ∃ tok', TokenInv cap pid role (tr ++ es) tok' (Program.move s p q' l') := by
  have hpc := h.waiting p hheld
  rw [hrole] at hpc
  obtain ⟨text, rest, hq, rfl, hl⟩ := loopStep_recv hpc hproc
  have hproducers := h.producers
  rw [show RecvPoint.token.channel = Channel.producers from rfl] at hq
  rw [hq] at hproducers
  cases tok with
  | free i =>
      simp only [Token.producersQueue, List.cons.injEq] at hproducers
      obtain ⟨rfl, rfl⟩ := hproducers
      have hi : i < cap := h.valid
      obtain ⟨item, hitem⟩ := itemAt_of_lt (show i < 8 by omega)
      simp only [LoopLocal.afterRecv,
        scanToken_tokenText (show cap < 2 ^ 31 by omega)
          (show i < 2 ^ 31 by omega), hitem, Prod.mk.injEq] at hl
      obtain ⟨rfl, rfl⟩ := hl
      refine ⟨.taken p i, h.move (Or.inl rfl) ⟨hi, hrole⟩ ?_ ?_ ?_ ?_
        (Or.inr ⟨rfl, rfl, rfl, rfl, item, hitem, rfl⟩) ?_ ?_⟩
      · simp
      · simpa using h.consumers
      · simpa using h.length
      · simpa using h.crate
      · simp
      · intro p' j hmem
        simp only [List.mem_singleton, LoopEvent.indexed.injEq] at hmem
        omega
  | _ => simp at hproducers

/-- The producer with the token puts its item into the crate. -/
theorem TokenInv.place {i : ℕ} (h : TokenInv cap pid role tr (.taken p i) s)
    (hproc : loopStep (fifoApi room) pid p s.shared (s.loc p) =
      some (q', l', es)) :
    ∃ tok', TokenInv cap pid role (tr ++ es) tok' (Program.move s p q' l') := by
  obtain ⟨hpc, hcapacity, hcuridx, item, hitem, hbuf⟩ := h.holder p rfl
  obtain ⟨hi, hrole⟩ := h.valid
  obtain ⟨rfl, hl⟩ := loopStep_send hpc hproc
  have hlength : (s.shared .crate).length = i := h.length
  have hat : HolderAt cap pid l' (.placed p i) ∧
      es = [.stored p (s.loc p).msgbuf] := by
    simp only [LoopLocal.afterSend, hcapacity, hcuridx] at hl
    split at hl
    next hlast =>
      simp only [Prod.mk.injEq] at hl
      obtain ⟨rfl, rfl⟩ := hl
      exact ⟨Or.inl ⟨by omega, rfl, rfl⟩, rfl⟩
    next hmore =>
      simp only [Prod.mk.injEq] at hl
      obtain ⟨rfl, rfl⟩ := hl
      exact ⟨Or.inr ⟨by omega, rfl, by simp⟩, rfl⟩
  obtain ⟨hat, rfl⟩ := hat
  refine ⟨.placed p i, h.move (Or.inr rfl) ⟨hi, hrole⟩ ?_ ?_ ?_ ?_
    (Or.inr ⟨rfl, hat⟩) ?_ ?_⟩
  · simpa using h.producers
  · simpa using h.consumers
  · simp [hlength]
  · simp only [SendPoint.channel, Function.update_self]
    apply h.crate.append
    refine ⟨p, item, hrole, ?_, hbuf⟩
    simpa [hlength] using hitem
  · simp
  · simp

/-- The producer with the token sends it on, to the consumers if its item was
the last one. -/
theorem TokenInv.pass {i : ℕ} (h : TokenInv cap pid role tr (.placed p i) s)
    (hproc : loopStep (fifoApi room) pid p s.shared (s.loc p) =
      some (q', l', es)) :
    ∃ tok', TokenInv cap pid role (tr ++ es) tok' (Program.move s p q' l') := by
  obtain ⟨hi, hrole⟩ := h.valid
  have hlength : (s.shared .crate).length = i + 1 := h.length
  have hproducers : s.shared .producers = [] := h.producers
  have hconsumers : s.shared .consumers = [] := h.consumers
  rcases h.holder p rfl with ⟨hlast, hpc, hbuf⟩ | ⟨hmore, hpc, hbuf⟩
  · obtain ⟨rfl, hl⟩ := loopStep_send hpc hproc
    simp only [LoopLocal.afterSend, Prod.mk.injEq] at hl
    obtain ⟨rfl, rfl⟩ := hl
    refine ⟨.full, h.move (Or.inr rfl) trivial ?_ ?_ ?_ ?_
      (Or.inl ⟨rfl, by rw [hrole]; rfl⟩) ?_ ?_⟩
    · simpa using hproducers
    · simp [hconsumers, hbuf]
    · simp [hlength, hlast]
    · simpa using h.crate
    · simp
    · simp
  · obtain ⟨rfl, hl⟩ := loopStep_send hpc hproc
    simp only [LoopLocal.afterSend, Prod.mk.injEq] at hl
    obtain ⟨rfl, rfl⟩ := hl
    refine ⟨.free (i + 1), h.move (Or.inr rfl) hmore ?_ ?_ ?_ ?_
      (Or.inl ⟨rfl, by rw [hrole]; rfl⟩) ?_ ?_⟩
    · simp [hproducers, hbuf]
    · simpa using hconsumers
    · simp [hlength]
    · simpa using h.crate
    · simp
    · simp

/-- The consumer is in front of item `i` of a batch, or behind the last one. -/
theorem TokenInv.move_draining (h : TokenInv cap pid role tr tok s)
    (hheld : tok.holder = none ∨ tok.holder = some p)
    (hrole : role p = .consumer) {i : ℕ} (hi : i ≤ cap)
    (hproducers : q' .producers = []) (hconsumers : q' .consumers = [])
    (hlength : (q' .crate).length = cap - i)
    (hcrate : AreItems pid role i (q' .crate))
    {l : LoopLocal Unit} (hcapacity : l.crateCapacity = cap)
    (hbatch : (batchOf p (tr ++ es)).length = i ∧
      AreItems pid role 0 (batchOf p (tr ++ es)))
    (hindexed : ∀ p' (i : ℤ), .indexed p' i ∈ es → 0 ≤ i ∧ i < cap) :
    ∃ tok', TokenInv cap pid role (tr ++ es) tok'
      (Program.move s p q' (l.drainFrom i)) := by
  rcases holderAt_drainFrom pid p hi hcapacity with
    ⟨hlt, hat⟩ | ⟨rfl, hat⟩
  · refine ⟨.draining p i, h.move hheld ⟨hlt, hrole⟩ hproducers hconsumers
      hlength hcrate (Or.inr ⟨rfl, hat⟩) ?_ hindexed⟩
    rintro p' n hprinted
    simp only [Token.printedBy, Option.some.injEq, Prod.mk.injEq] at hprinted
    obtain ⟨rfl, rfl⟩ := hprinted
    exact hbatch
  · have hempty : q' .crate = [] := by
      rw [← List.length_eq_zero_iff, hlength, Nat.sub_self]
    refine ⟨.drained p, h.move hheld hrole hproducers hconsumers
      ?_ ?_ (Or.inr ⟨rfl, hat⟩) ?_ hindexed⟩
    · simp [hempty]
    · rw [hempty]
      exact areItems_nil _
    · rintro p' n hprinted
      simp only [Token.printedBy, Option.some.injEq, Prod.mk.injEq] at hprinted
      obtain ⟨rfl, rfl⟩ := hprinted
      exact hbatch

/-- A consumer receives the message that the crate is full. -/
theorem TokenInv.collect (hcap : cap ≤ 8) (h : TokenInv cap pid role tr tok s)
    (hheld : tok.holder ≠ some p) (hrole : role p = .consumer)
    (hproc : loopStep (fifoApi room) pid p s.shared (s.loc p) =
      some (q', l', es)) :
    ∃ tok', TokenInv cap pid role (tr ++ es) tok' (Program.move s p q' l') := by
  have hpc := h.waiting p hheld
  rw [hrole] at hpc
  obtain ⟨text, rest, hq, rfl, hl⟩ := loopStep_recv hpc hproc
  have hconsumers := h.consumers
  rw [show RecvPoint.full.channel = Channel.consumers from rfl] at hq
  rw [hq] at hconsumers
  cases tok with
  | full =>
      simp only [Token.consumersQueue, List.cons.injEq] at hconsumers
      obtain ⟨rfl, rfl⟩ := hconsumers
      simp only [LoopLocal.afterRecv, Prod.mk.injEq] at hl
      obtain ⟨rfl, rfl⟩ := hl
      refine h.move_draining (Or.inl rfl) hrole (Nat.zero_le _) ?_ ?_ ?_ ?_
        (scanCapacity_decimal (by omega) _) ?_ ?_
      · simpa using h.producers
      · simp
      · simpa using h.length
      · simpa using h.crate
      · simp [batchOf_append_received, areItems_nil]
      · simp
  | _ => simp at hconsumers

/-- The consumer with the token prints the oldest item of the crate. -/
theorem TokenInv.drain {i : ℕ} (h : TokenInv cap pid role tr (.draining p i) s)
    (hproc : loopStep (fifoApi room) pid p s.shared (s.loc p) =
      some (q', l', es)) :
    ∃ tok', TokenInv cap pid role (tr ++ es) tok' (Program.move s p q' l') := by
  obtain ⟨hpc, hcapacity⟩ := h.holder p rfl
  obtain ⟨hi, hrole⟩ := h.valid
  obtain ⟨text, rest, hq, rfl, hl⟩ := loopStep_recv hpc hproc
  rw [show (RecvPoint.item i).channel = Channel.crate from rfl] at hq
  simp only [LoopLocal.afterRecv, Prod.mk.injEq] at hl
  obtain ⟨rfl, rfl⟩ := hl
  have hlength := h.length
  have hcrate := h.crate
  rw [hq] at hlength hcrate
  simp only [List.length_cons, Token.count] at hlength
  obtain ⟨hbatchLength, hbatch⟩ := h.batch p i rfl
  refine h.move_draining (Or.inr rfl) hrole hi ?_ ?_ ?_ ?_ hcapacity ?_ ?_
  · simpa using h.producers
  · simpa using h.consumers
  · simp only [RecvPoint.channel, Function.update_self]
    omega
  · simpa using hcrate.tail
  · rw [batchOf_append_printed, List.length_append, List.length_singleton,
      hbatchLength]
    refine ⟨rfl, hbatch.append ?_⟩
    rw [hbatchLength, Nat.zero_add]
    exact hcrate.head
  · simp

/-- The consumer with the token returns it to the producers. -/
theorem TokenInv.restart (hcap : 1 ≤ cap)
    (h : TokenInv cap pid role tr (.drained p) s)
    (hproc : loopStep (fifoApi room) pid p s.shared (s.loc p) =
      some (q', l', es)) :
    ∃ tok', TokenInv cap pid role (tr ++ es) tok' (Program.move s p q' l') := by
  obtain ⟨hpc, hbuf⟩ := h.holder p rfl
  obtain ⟨rfl, hl⟩ := loopStep_send hpc hproc
  simp only [LoopLocal.afterSend, Prod.mk.injEq] at hl
  obtain ⟨rfl, rfl⟩ := hl
  have hrole : role p = .consumer := h.valid
  have hproducers : s.shared .producers = [] := h.producers
  have hempty : s.shared .crate = [] :=
    List.length_eq_zero_iff.mp h.length
  refine ⟨.free 0, h.move (Or.inr rfl) hcap ?_ ?_ ?_ ?_
    (Or.inl ⟨rfl, by rw [hrole]; rfl⟩) ?_ ?_⟩
  · simp [hproducers, hbuf]
  · simpa using h.consumers
  · simp [hempty]
  · simpa using h.crate
  · simp
  · simp

theorem tokenInv_init (pid : P → ℕ) (hcap : 1 ≤ cap)
    (h : FifoInit cap role s) : TokenInv cap pid role [] (.free 0) s := by
  obtain ⟨hshared, hpc⟩ := h
  constructor
  · exact hcap
  · rw [hshared]
    rfl
  · rw [hshared]
    rfl
  · rw [hshared]
    rfl
  · rw [hshared]
    exact areItems_nil _
  · intro p _
    exact hpc p
  · intro p hp
    simp at hp
  · intro p n hp
    simp at hp
  · simp

theorem tokenInv_step (room : ℕ) (hcap : 1 ≤ cap) (h8 : cap ≤ 8)
    {s' : Config P Queues (LoopLocal Unit)}
    (h : TokenInv cap pid role tr tok s)
    (hstep : (fifoSystem room cap pid role).step s es s') :
    ∃ tok', TokenInv cap pid role (tr ++ es) tok' s' := by
  obtain ⟨p, c, hexec⟩ := Program.system_step_iff.mp hstep
  obtain ⟨q', l', hproc, rfl⟩ := Program.exec_eq_some hexec
  by_cases hheld : tok.holder = some p
  · cases tok with
    | free i => simp at hheld
    | full => simp at hheld
    | taken r i =>
        obtain rfl : r = p := Option.some.inj hheld
        exact h.place hproc
    | placed r i =>
        obtain rfl : r = p := Option.some.inj hheld
        exact h.pass hproc
    | draining r i =>
        obtain rfl : r = p := Option.some.inj hheld
        exact h.drain hproc
    | drained r =>
        obtain rfl : r = p := Option.some.inj hheld
        exact h.restart hcap hproc
  · cases hrole : role p with
    | producer => exact h.take h8 hheld hrole hproc
    | consumer => exact h.collect h8 hheld hrole hproc

theorem tokenInv_run (hcap : 1 ≤ cap) (h8 : cap ≤ 8)
    (h : (fifoSystem room cap pid role).Exec tr s) :
    ∃ tok, TokenInv cap pid role tr tok s := by
  refine h.invariant
    (I := fun tr s => ∃ tok, TokenInv cap pid role tr tok s) ?_ ?_
  · intro s hinit
    exact ⟨.free 0, tokenInv_init pid hcap hinit⟩
  · rintro tr s es s' ⟨tok, hinv⟩ hstep
    exact tokenInv_step room hcap h8 hinv hstep

end Step

end Pvos.TokenCrate
