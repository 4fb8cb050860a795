import Pvos.TokenCrate.OverRings
import Pvos.TokenCrate.TypedQueue

/-!
# Three programs with the same histories

`custom_queue.cpp`, `msgq/main.cpp` and `msgq/v_msgq.cpp` run their loops over
rings in shared memory, over POSIX queues and over one System V queue.  A reader
of their output cannot tell them apart.

They differ in the length of their queues, which the token makes irrelevant, and
in the variables that a process has at the head of its loop: it overwrites them
with the next message.
-/

namespace Pvos.TokenCrate

open Pvos.Support Pvos.CustomQueue

/-! ## Variables at the head of the loop -/

/-- The same queues and processes, but for the capacity and the buffer of those
at the head of their loops. -/
structure Alike {P : Type*} (role : P → Role)
    (f g : Config P Queues (LoopLocal Unit)) : Prop where
  shared : f.shared = g.shared
  pc : ∀ p, (f.loc p).pc = (g.loc p).pc
  curidx : ∀ p, (f.loc p).curidx = (g.loc p).curidx
  vars : ∀ p, (f.loc p).pc ≠ (role p).waiting → f.loc p = g.loc p

section Alike

variable {P : Type*} {cap room room' : ℕ} {pid : P → ℕ} {role : P → Role}
  {p : P} {es : List (LoopEvent P)} {l k l' : LoopLocal Unit}
  {q q' : Queues}

/-- A token determines all variables. -/
theorem afterRecv_token (l k : LoopLocal Unit) {a b : ℕ} (ha : a < 2 ^ 31)
    (hb : b < 2 ^ 31) :
    l.afterRecv pid p (tokenText a b) .token =
      k.afterRecv pid p (tokenText a b) .token := by
  simp only [LoopLocal.afterRecv, scanToken_tokenText ha hb]

/-- The message for the consumers determines all but the index. -/
theorem afterRecv_full {a : ℕ} (ha : a < 2 ^ 31)
    (hcuridx : l.curidx = k.curidx) :
    l.afterRecv pid p (decimal a) .full =
      k.afterRecv pid p (decimal a) .full := by
  simp only [LoopLocal.afterRecv, scanCapacity_decimal ha,
    LoopLocal.drainFrom, hcuridx]

/-- A queue with more room only lets a sender go on that would wait. -/
theorem loopStep_room
    (hroom : ∀ point, l.pc = .send point → (q point.channel).length < room')
    (h : loopStep (fifoApi room) pid p q l = some (q', l', es)) :
    loopStep (fifoApi room') pid p q l = some (q', l', es) := by
  cases hpc : l.pc with
  | send point =>
      obtain ⟨rfl, hl⟩ := loopStep_send hpc h
      simp only [loopStep, hpc, fifo_send_eq (hroom point hpc)]
      exact congrArg (fun r => some (_, r)) hl.symm
  | recv point =>
      obtain ⟨text, rest, hq, rfl, hl⟩ := loopStep_recv hpc h
      simp only [loopStep, hpc, fifoApi, hq]
      exact congrArg (fun r => some (_, r)) hl.symm
  | fault => simp [loopStep, hpc] at h

variable [DecidableEq P] {tr : List (LoopEvent P)} {tok : Token P}
  {f f' g : Config P Queues (LoopLocal Unit)}

/-- Behind a message that a waiting process receives its old variables are
forgotten. -/
theorem TokenInv.loopStep_waiting (hinv : TokenInv cap pid role tr tok f)
    (hcap : cap ≤ 8) (hpc : (f.loc p).pc = (role p).waiting)
    (hsame : (f.loc p).pc = k.pc) (hcuridx : (f.loc p).curidx = k.curidx)
    (h : loopStep (fifoApi room) pid p f.shared (f.loc p) =
      some (q', l', es)) :
    loopStep (fifoApi room') pid p f.shared k = some (q', l', es) := by
  have hreceives (point : RecvPoint) (hpoint : (f.loc p).pc = .recv point)
      (hforgets : ∀ text rest, f.shared point.channel = text :: rest →
        (f.loc p).afterRecv pid p text point = k.afterRecv pid p text point) :
      loopStep (fifoApi room') pid p f.shared k = some (q', l', es) := by
    obtain ⟨text, rest, hq, rfl, hl⟩ := loopStep_recv hpoint h
    rw [hforgets text rest hq] at hl
    simp only [loopStep, ← hsame, hpoint, fifoApi, hq]
    exact congrArg (fun r => some (_, r)) hl.symm
  cases hrole : role p with
  | producer =>
      rw [hrole] at hpc
      refine hreceives .token hpc fun text rest hq => ?_
      have hqueue := hinv.producers
      change f.shared .producers = text :: rest at hq
      rw [hq] at hqueue
      cases tok with
      | free i =>
          obtain ⟨rfl, -⟩ := List.cons.inj hqueue
          have hi : i < cap := hinv.valid
          exact afterRecv_token _ _ (by omega) (by omega)
      | _ => simp at hqueue
  | consumer =>
      rw [hrole] at hpc
      refine hreceives .full hpc fun text rest hq => ?_
      have hqueue := hinv.consumers
      change f.shared .consumers = text :: rest at hq
      rw [hq] at hqueue
      cases tok with
      | full =>
          obtain ⟨rfl, -⟩ := List.cons.inj hqueue
          exact afterRecv_full (by omega) hcuridx
      | _ => simp at hqueue

/-- Both do the same at `p`. -/
theorem Alike.move (h : Alike role f g) (q : Queues) (l : LoopLocal Unit) :
    Alike role (Program.move f p q l) (Program.move g p q l) := by
  refine ⟨rfl, fun p' => ?_, fun p' => ?_, fun p' hpc => ?_⟩
  · rcases eq_or_ne p' p with rfl | hne
    · simp
    · simpa [Function.update_of_ne hne] using h.pc p'
  · rcases eq_or_ne p' p with rfl | hne
    · simp
    · simpa [Function.update_of_ne hne] using h.curidx p'
  · rcases eq_or_ne p' p with rfl | hne
    · simp
    · simp only [Program.move_loc, Function.update_of_ne hne] at hpc ⊢
      exact h.vars p' hpc

theorem Alike.exec (h : Alike role f g)
    (hinv : TokenInv cap pid role tr tok f) (hcap : 1 ≤ cap) (h8 : cap ≤ 8)
    (hroom : cap ≤ room')
    (hexec : (loopProgram (fifoApi room) pid).exec f p () = some (f', es)) :
    ∃ g', (loopProgram (fifoApi room') pid).exec g p () = some (g', es) ∧
      Alike role f' g' := by
  obtain ⟨q', l', hproc, rfl⟩ := Program.exec_eq_some hexec
  change loopStep (fifoApi room) pid p f.shared (f.loc p) =
    some (q', l', es) at hproc
  have hmatch : loopStep (fifoApi room') pid p g.shared (g.loc p) =
      some (q', l', es) := by
    rw [← h.shared]
    by_cases hpc : (f.loc p).pc = (role p).waiting
    · exact hinv.loopStep_waiting h8 hpc (h.pc p) (h.curidx p) hproc
    · rw [← h.vars p hpc]
      exact loopStep_room
        (fun point hpoint => hinv.send_room hcap hroom hpoint) hproc
  exact ⟨_, Program.exec_of_proc hmatch, h.move q' l'⟩

end Alike

/-! ## POSIX queues and first-in, first-out queues -/

section Posix

variable {P : Type*} [DecidableEq P] {pid : P → ℕ} {role : P → Role}
  {room maxmsg : ℕ}

/-- A state of the loops over first-in, first-out queues, and one of
`main.cpp`. -/
def FifoMatches (pid : P → ℕ) (role : P → Role)
    (f : Config P Queues (LoopLocal Unit))
    (m : Config P PosixQueues (LoopLocal ℕ)) : Prop :=
  (∃ tr tok, TokenInv capacity pid role tr tok f) ∧
    ∃ g, Alike role f g ∧
      Matched PosixOf (fun _ msgprio => msgprio = 1) g m

theorem fifo_posix_simulation (hmaxmsg : capacity ≤ maxmsg) :
    System.Simulation (fifoSystem room capacity pid role)
      (posixSystem maxmsg pid role) (FifoMatches pid role) where
  init f hf := by
    have hinit := tokenInv_init pid (show 1 ≤ capacity by decide) hf
    obtain ⟨hshared, hpc⟩ := hf
    -- `main.cpp` starts with a capacity of its own.
    refine ⟨⟨initialPosix, fun p =>
        { f.loc p with crateCapacity := capacity, extra := 1 }⟩,
      ⟨rfl, fun p => ⟨hpc p, rfl, rfl⟩⟩, ⟨[], .free 0, hinit⟩,
      ⟨f.shared, fun p => { f.loc p with crateCapacity := capacity }⟩, ?_, ?_⟩
    · exact ⟨rfl, fun _ => rfl, fun _ => rfl, fun p hp => absurd (hpc p) hp⟩
    · refine ⟨?_, fun p => .of_eq rfl rfl rfl rfl, fun _ => rfl⟩
      rw [hshared]
      exact posixOf_init
  step := by
    rintro f m es f' ⟨⟨tr, tok, hinv⟩, g, halike, hmatched⟩ hstep
    obtain ⟨tok', hinv'⟩ :=
      tokenInv_step room (by decide) (by decide) hinv hstep
    obtain ⟨p, c, hexec⟩ := Program.system_step_iff.mp hstep
    obtain ⟨g', hgexec, halike'⟩ :=
      halike.exec hinv (by decide) (by decide) hmaxmsg hexec
    obtain ⟨m', hmexec, hmatched'⟩ := fifo_exec_posix hmatched hgexec
    exact ⟨m', .single (Program.system_step_iff.mpr ⟨p, c, hmexec⟩),
      ⟨_, tok', hinv'⟩, g', halike', hmatched'⟩

/-- A state of `main.cpp`, and one of the loops over first-in, first-out
queues. -/
def PosixMatches (pid : P → ℕ) (role : P → Role)
    (m : Config P PosixQueues (LoopLocal ℕ))
    (f : Config P Queues (LoopLocal Unit)) : Prop :=
  ∃ g tr tok, TokenInv capacity pid role tr tok g ∧ Alike role g f ∧
    Matched (fun q r => PosixOf r q) (fun msgprio _ => msgprio = 1) m g

theorem posix_fifo_simulation (hroom : capacity ≤ room) :
    System.Simulation (posixSystem maxmsg pid role)
      (fifoSystem room capacity pid role) (PosixMatches pid role) where
  init m hm := by
    obtain ⟨hshared, hloc⟩ := hm
    have hinit : FifoInit capacity role
        ⟨initialQueues capacity, fun p => { m.loc p with extra := () }⟩ :=
      fifoInit_of fun p => (hloc p).1
    refine ⟨_, hinit, _, [], .free 0,
      tokenInv_init pid (show 1 ≤ capacity by decide) hinit, ?_, ?_⟩
    · exact ⟨rfl, fun _ => rfl, fun _ => rfl, fun _ _ => rfl⟩
    · refine ⟨?_, fun p => .of_eq rfl rfl rfl rfl, fun p => (hloc p).2.2⟩
      rw [hshared]
      exact posixOf_init
  step := by
    rintro m f es m' ⟨g, tr, tok, hinv, halike, hmatched⟩ hstep
    obtain ⟨p, c, hexec⟩ := Program.system_step_iff.mp hstep
    obtain ⟨g', hgexec, hmatched'⟩ := posix_exec_fifo hmatched hexec
    obtain ⟨tok', hinv'⟩ := tokenInv_step maxmsg (by decide) (by decide) hinv
      (Program.system_step_iff.mpr ⟨p, c, hgexec⟩)
    obtain ⟨f', hfexec, halike'⟩ :=
      halike.exec hinv (by decide) (by decide) hroom hgexec
    exact ⟨f', .single (Program.system_step_iff.mpr ⟨p, c, hfexec⟩), g', _,
      tok', hinv', halike', hmatched'⟩

end Posix

/-- The three programs show the same histories, for any roles and pids of
their processes and whatever the lengths of their queues, as long as these hold
a whole crate. -/
theorem same_histories {P : Type*} [Fintype P] [DecidableEq P] (q : MQueue)
    (hroom : capacity ≤ q.cap) (hlt : q.cap < uintModulus)
    (hsize : 20 ≤ q.maxMSize) {maxmsg qbytes : ℕ} (hmaxmsg : capacity ≤ maxmsg)
    (hqbytes : maxMsgSize * (capacity + 1) ≤ qbytes) (pid : P → ℕ)
    (hpid : ∀ p, pid p < 2 ^ 31) (role : P → Role) (starter : P) :
    (ringsSystem q capacity pid role starter).traces =
        (posixSystem maxmsg pid role).traces ∧
      (posixSystem maxmsg pid role).traces =
        (sysvSystem qbytes pid role).traces := by
  have hpos : 0 < q.cap := (show 0 < capacity by decide).trans_le hroom
  constructor
  · apply Set.Subset.antisymm
    · have hrings : System.Simulation (ringsSystem q capacity pid role starter)
          (fifoSystem q.cap capacity pid role) _ :=
        rings_simulation starter (by decide) (by decide) hpos hlt hsize hpid
      exact System.Simulates.traces_subset
        ⟨_, hrings.comp (fifo_posix_simulation hmaxmsg)⟩
    · have hqueues : System.Simulation (fifoSystem q.cap capacity pid role)
          (ringsSystem q capacity pid role starter) _ :=
        queues_simulation starter (by decide) (by decide) hpos hlt hsize hpid
      exact System.Simulates.traces_subset
        ⟨_, (posix_fifo_simulation hroom).comp hqueues⟩
  · obtain ⟨R, hbisim, -⟩ :=
      typed_queue_bisimulation hmaxmsg hqbytes pid role
    apply Set.Subset.antisymm
    · exact System.Simulates.traces_subset ⟨_, hbisim.symm.simulation⟩
    · exact System.Simulates.traces_subset ⟨_, hbisim.simulation⟩

/-- One producer and one consumer, with the lengths that a kernel sets by
default. -/
theorem same_histories_defaults :
    (ringsSystem mainQueue capacity (fun _ => 7) pairRole true).traces =
        (posixSystem 10 (fun _ => 7) pairRole).traces ∧
      (posixSystem 10 (fun _ => 7) pairRole).traces =
        (sysvSystem 16384 (fun _ => 7) pairRole).traces :=
  same_histories mainQueue (by decide) (by decide) (by decide) (by decide)
    (by decide) (fun _ => 7) (fun _ => by decide) pairRole true

end Pvos.TokenCrate
