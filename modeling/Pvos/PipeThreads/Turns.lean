import Pvos.PipeThreads.Readers

/-!
# The turn is never lost while a child waits

The byte in the pipe is the turn.  Until the parent has written it, the parent
holds it; then it is in the pipe or with the one child that has read it.

The turn gets lost when the last `fork` fails, since the parent then writes
nothing, and when a child returns because its file does not open.
-/

namespace Pvos.PipeThreads

open Pvos.Support

/-! ## Parties -/

namespace ReaderPc

/-- At the beginning, which the first process alone executes. -/
def inLoop : ReaderPc → Bool
  | .starting | .forking => true
  | _ => false

/-- In the block of the parent, or before it. -/
def ofParent : ReaderPc → Bool
  | .starting | .forking | .parentClosing | .parentWriting | .parentLeaving
  | .waiting => true
  | _ => false

/-- In the block of a child. -/
def ofChild : ReaderPc → Bool
  | .taking | .closing | .opening | .copying | .passing | .leaving => true
  | _ => false

/-- The turn is with a process that is here. -/
def hasTurn : ReaderPc → Bool
  | .starting | .forking | .parentClosing | .parentWriting => true
  | .closing | .opening | .copying | .passing => true
  | _ => false

end ReaderPc

namespace FileReader

/-- The parent has still to write the turn, and will. -/
def WillWrite (p : FileReader) : Prop :=
  p.pc.inLoop = true ∧ 0 < lastPid p.pid p.argv ∨
    p.pc = .parentClosing ∨ p.pc = .parentWriting

/-- A child has the turn, and will write it back. -/
def WillPass (p : FileReader) : Prop :=
  (p.pc = .closing ∨ p.pc = .opening) ∧ p.file ≠ none ∨
    p.pc = .copying ∨ p.pc = .passing

/-- The arguments that the loop has still to fork for. -/
def toFork (p : FileReader) : List Argument :=
  if p.pc.inLoop then p.argv.filter Argument.forks else []

end FileReader

/-- A child has not yet had its turn. -/
def FileReaders.Waits (s : FileReaders) : Prop :=
  ∃ p ∈ s.processes, p.pc = .taking

/-- The turn is still to be written by the parent, in the pipe, or with a child
that will write it back. -/
def FileReaders.TurnKept (s : FileReaders) : Prop :=
  (∃ p ∈ s.processes, p.WillWrite) ∨ 0 < s.pipe ∨
    ∃ p ∈ s.processes, p.WillPass

/-- The places where the turn is. -/
def FileReaders.turns (s : FileReaders) : ℕ :=
  s.pipe + s.processes.countP (·.pc.hasTurn)

/-- All forks fail, or the last one makes a child and either every child can
open its file or there is only this one. -/
def TurnsPassed (args : List Argument) : Prop :=
  args ≠ [] ∧
    ((∀ a ∈ args, a.forks = false) ∨
      (∃ a ∈ args.getLast?, a.forks = true) ∧
        ((∀ a ∈ args, a.forks = true → a.file ≠ none) ∨
          args.countP Argument.forks = 1))

/-! ## The first process and its children -/

/-- What holds of the first process and its children, whatever fails. -/
structure Family (args : List Argument) (o : FileReader)
    (cs : List FileReader) : Prop where
  first : o.pc.ofChild = false
  children : ∀ c ∈ cs, c.pc.ofParent = false
  forked : cs.map (·.argv.head?) ++ o.toFork.map some =
    (args.filter Argument.forks).map some
  pid : o.pc.inLoop = true → lastPid o.pid o.argv = lastPid 0 args
  firstEnds : o.pc.inLoop = true → o.readEnd = true ∧ o.writeEnd = true
  ends : ∀ c ∈ cs, c.pc = .taking → c.readEnd = true ∧ c.writeEnd = true

section Family

variable {bufsiz : ℕ} {args : List Argument} {s : FileReaders}
variable {o c : FileReader} {cs before after : List FileReader}
variable {r : ReaderStep}

theorem lastPid_ne_zero {pid : ℤ} (hpid : pid ≠ 0) :
    lastPid pid args ≠ 0 := by
  induction args generalizing pid with
  | nil => exact hpid
  | cons a args ih =>
      refine ih ?_
      split <;> omega

theorem lastPid_zero_ne_zero (hargs : args ≠ []) : lastPid 0 args ≠ 0 := by
  obtain ⟨a, args, rfl⟩ := List.exists_cons_of_ne_nil hargs
  rw [lastPid]
  refine lastPid_ne_zero ?_
  split <;> omega

theorem lastPid_append (pid : ℤ) (args args' : List Argument) :
    lastPid pid (args ++ args') = lastPid (lastPid pid args) args' := by
  induction args generalizing pid with
  | nil => rfl
  | cons a args ih => exact ih _

theorem lastPid_pos_iff (hargs : args ≠ []) :
    0 < lastPid 0 args ↔ ∃ a ∈ args.getLast?, a.forks = true := by
  obtain ⟨args', a, rfl⟩ := (List.eq_nil_or_concat' args).resolve_left hargs
  rw [lastPid_append]
  by_cases ha : a.forks = true
  · simp [lastPid, ha]
  · simp [lastPid, ha]

theorem toFork_of_inLoop (h : o.pc.inLoop = true) :
    o.toFork = o.argv.filter Argument.forks :=
  if_pos h

theorem toFork_of_not_inLoop (h : o.pc.inLoop = false) : o.toFork = [] := by
  rw [FileReader.toFork, h]
  rfl

theorem Family.init (args : List Argument) :
    Family args (firstReader args) [] :=
  ⟨rfl, by simp, rfl, fun _ => rfl, fun _ => ⟨rfl, rfl⟩, by simp⟩

/-- The first process moves on behind the loop. -/
theorem Family.behind_loop (h : Family args o cs) (hnone : o.toFork = [])
    {o' : FileReader} (hfirst : o'.pc.ofChild = false)
    (hloop : o'.pc.inLoop = false) : Family args o' cs := by
  have hforked := h.forked
  rw [hnone, ← toFork_of_not_inLoop hloop] at hforked
  exact ⟨hfirst, h.children, hforked, by simp [hloop], by simp [hloop], h.ends⟩

theorem Family.first_step (h : Family args o cs) (hargs : args ≠ [])
    (hmove : ReaderMove bufsiz s o r) :
    Family args r.process (cs ++ r.child.toList) := by
  have hpid := h.pid
  have hends := h.firstEnds
  have hforked := h.forked
  have hfirst := h.first
  cases hmove with
  | starts printed hpc hprinted =>
      rw [hpc] at hpid hends
      rw [toFork_of_inLoop (by rw [hpc]; rfl)] at hforked
      rw [Option.toList_none, List.append_nil]
      exact ⟨rfl, h.children, hforked, hpid, hends, h.ends⟩
  | forks a argv hpc hargv ha =>
      have hloop : o.pc.inLoop = true := by rw [hpc]; rfl
      rw [toFork_of_inLoop hloop, hargv, List.filter_cons_of_pos ha] at hforked
      have hpid := hpid hloop
      rw [hargv, lastPid, if_pos ha] at hpid
      have hrest : FileReader.toFork { o with argv, pid := 1 } =
          argv.filter Argument.forks := toFork_of_inLoop hloop
      simp only [Option.toList_some]
      refine ⟨hfirst, ?_, ?_, fun _ => hpid, hends, ?_⟩
      · rw [List.forall_mem_append, List.forall_mem_singleton]
        exact ⟨h.children, rfl⟩
      · rw [hrest, List.map_append, List.append_assoc]
        simpa [hargv] using hforked
      · rw [List.forall_mem_append, List.forall_mem_singleton]
        exact ⟨h.ends, fun _ => hends hloop⟩
  | forkFails a argv hpc hargv ha =>
      have hloop : o.pc.inLoop = true := by rw [hpc]; rfl
      rw [toFork_of_inLoop hloop, hargv, List.filter_cons_of_neg (by simp [ha])]
        at hforked
      have hpid := hpid hloop
      rw [hargv, lastPid, if_neg (by simp [ha])] at hpid
      rw [Option.toList_none, List.append_nil]
      have hrest : FileReader.toFork { o with argv, pid := -1 } =
          argv.filter Argument.forks := toFork_of_inLoop hloop
      refine ⟨hfirst, h.children, ?_, fun _ => hpid, hends, h.ends⟩
      rw [hrest]
      exact hforked
  | isChild hpc hargv hzero =>
      rw [hpc, hargv, hzero] at hpid
      exact absurd (hpid rfl).symm (lastPid_zero_ne_zero hargs)
  | isParent hpc hargv | isNeither hpc hargv =>
      rw [Option.toList_none, List.append_nil]
      exact h.behind_loop (by simp [FileReader.toFork, hargv]) rfl rfl
  | takes hpc | endOfFile hpc | closes hpc | openFails hpc | opens _ hpc
  | copied hpc | copies _ hpc | passes hpc | leaves hpc =>
      simp [hpc, ReaderPc.ofChild] at hfirst
  | brokenPipe hpc =>
      rw [Option.toList_none, List.append_nil]
      refine h.behind_loop (toFork_of_not_inLoop ?_) rfl rfl
      rcases hpc with hpc | hpc
      all_goals rw [hpc]; rfl
  | parentCloses hpc | parentWrites hpc | parentLeaves hpc | waited hpc
  | returns hpc =>
      rw [Option.toList_none, List.append_nil]
      exact h.behind_loop (toFork_of_not_inLoop (by rw [hpc]; rfl)) rfl rfl

/-- A child forks nobody, keeps its argument, and does not wait for the turn a
second time. -/
structure ReaderMove.OfChild (c : FileReader) (r : ReaderStep) : Prop where
  forksNobody : r.child = none
  pc : r.process.pc.ofParent = false
  argv : r.process.argv = c.argv
  taken : r.process.pc ≠ .taking

theorem ReaderMove.ofChild (hmove : ReaderMove bufsiz s c r)
    (hpc : c.pc.ofParent = false) : ReaderMove.OfChild c r := by
  cases hmove with
  | starts _ h | forks _ _ h | forkFails _ _ h | isParent h | isChild h
  | isNeither h | parentCloses h | parentWrites h | parentLeaves h | waited h =>
      simp [h, ReaderPc.ofParent] at hpc
  | copies _ h => exact ⟨rfl, hpc, rfl, by simp [h]⟩
  | _ => exact ⟨rfl, rfl, rfl, by simp [FileReader.finish]⟩

theorem Family.child_step (h : Family args o (before ++ c :: after))
    (hmove : ReaderMove bufsiz s c r) :
    Family args o (before ++ r.process :: after) := by
  have hchildren := h.children
  have hforked := h.forked
  have hends := h.ends
  simp only [List.forall_mem_append, List.forall_mem_cons] at hchildren hends
  have hchild := hmove.ofChild hchildren.2.1
  refine ⟨h.first, ?_, ?_, h.pid, h.firstEnds, ?_⟩
  · simp only [List.forall_mem_append, List.forall_mem_cons]
    exact ⟨hchildren.1, hchild.pc, hchildren.2.2⟩
  · simpa [hchild.argv] using hforked
  · simp only [List.forall_mem_append, List.forall_mem_cons]
    exact ⟨hends.1, fun htaking => absurd htaking hchild.taken, hends.2.2⟩

/-- One step of a process of a family. -/
theorem Family.step {ps : List FileReader} {p : FileReader}
    (h : Family args o cs) (hargs : args ≠ []) (hps : ps = o :: cs)
    (hsplit : ps = before ++ p :: after) (hmove : ReaderMove bufsiz s p r) :
    ∃ o' cs', before ++ r.process :: (after ++ r.child.toList) = o' :: cs' ∧
      Family args o' cs' := by
  rw [hps] at hsplit
  cases before with
  | nil =>
      obtain ⟨rfl, rfl⟩ := List.cons.inj hsplit
      exact ⟨r.process, _, rfl, h.first_step hargs hmove⟩
  | cons first before =>
      obtain ⟨rfl, rfl⟩ := List.cons.inj hsplit
      have hchild := hmove.ofChild (h.children p (by simp))
      refine ⟨o, before ++ r.process :: after, ?_, h.child_step hmove⟩
      simp [hchild.forksNobody]

/-- Only the loop sends a process to the pipe. -/
theorem Family.not_taking {p : FileReader} (h : Family args o cs)
    (hargs : args ≠ []) (hp : p ∈ o :: cs) (hmove : ReaderMove bufsiz s p r) :
    r.process.pc ≠ .taking := by
  rcases List.mem_cons.mp hp with rfl | hp
  · intro htaking
    have hfirst := (h.first_step hargs hmove).first
    simp [htaking, ReaderPc.ofChild] at hfirst
  · exact (hmove.ofChild (h.children p hp)).taken

theorem Family.taking (h : Family args o cs) {p : FileReader}
    (hp : p ∈ o :: cs) (hpc : p.pc = .taking) :
    p ∈ cs ∧ p.readEnd = true ∧ p.writeEnd = true := by
  rcases List.mem_cons.mp hp with rfl | hp
  · have hfirst := h.first
    simp [hpc, ReaderPc.ofChild] at hfirst
  · exact ⟨hp, h.ends p hp hpc⟩

/-- A child was forked for an argument, and opens the file with this name. -/
theorem Family.argument (h : Family args o cs) (hc : c ∈ cs) :
    ∃ a ∈ args, a.forks = true ∧ c.file = a.file := by
  have hmem : c.argv.head? ∈ (args.filter Argument.forks).map some := by
    rw [← h.forked]
    exact List.mem_append_left _ (List.mem_map_of_mem hc)
  obtain ⟨a, ha, heq⟩ := List.mem_map.mp hmem
  obtain ⟨hmem, hforks⟩ := List.mem_filter.mp ha
  exact ⟨a, hmem, hforks, by rw [FileReader.file, ← heq]; rfl⟩

theorem Family.length_le (h : Family args o cs) :
    cs.length ≤ args.countP Argument.forks := by
  have hlen := congrArg List.length h.forked
  rw [List.length_append, List.length_map, List.length_map, List.length_map,
    ← List.countP_eq_length_filter] at hlen
  omega

/-- Where a child waits and the turns are passed on, the parent writes the turn
and the other children can open their files. -/
theorem Family.others_open (h : Family args o cs) (hpassed : TurnsPassed args)
    {q : FileReader} (hq : q ∈ cs) :
    0 < lastPid 0 args ∧ ∀ c ∈ cs, c ≠ q → c.file ≠ none := by
  obtain ⟨hargs, hpassed⟩ := hpassed
  obtain ⟨hlast, hfiles⟩ := hpassed.resolve_left fun hfail => by
    obtain ⟨a, ha, hforks, -⟩ := h.argument hq
    rw [hfail a ha] at hforks
    contradiction
  refine ⟨(lastPid_pos_iff hargs).mpr hlast, fun c hc hne hfile => ?_⟩
  rcases hfiles with hopen | hone
  · obtain ⟨a, ha, hforks, heq⟩ := h.argument hc
    exact hopen a ha hforks (heq.symm.trans hfile)
  · have hle := h.length_le
    rw [hone] at hle
    obtain ⟨c', rfl⟩ := List.length_eq_one_iff.mp
      (le_antisymm hle (List.length_pos_of_mem hq))
    exact hne ((List.mem_singleton.mp hc).trans (List.mem_singleton.mp hq).symm)

end Family

/-! ## The turn -/

/-- The step of `p` may lose the turn: no child for the parent to write it for,
no file, or nobody to read it. -/
def LosesTurn (s : FileReaders) (p : FileReader) : Prop :=
  p.pc = .forking ∧ p.argv = [] ∧ p.pid ≤ 0 ∨
    p.pc = .opening ∧ p.file = none ∨
    ∀ q ∈ s.processes, q.readEnd = false

section Turn

variable {bufsiz : ℕ} {args : List Argument} {s : FileReaders}
variable {p : FileReader} {before after : List FileReader}
variable {r : ReaderStep}

theorem ReaderMove.turns (h : ReaderMove bufsiz s p r) (hmem : p ∈ s.processes)
    (hends : p.pc = .taking → p.writeEnd = true) :
    r.pipe + (r.process :: r.child.toList).countP (·.pc.hasTurn) =
        s.pipe + [p].countP (·.pc.hasTurn) ∨
      r.pipe + (r.process :: r.child.toList).countP (·.pc.hasTurn) + 1 =
          s.pipe + [p].countP (·.pc.hasTurn) ∧ LosesTurn s p := by
  cases h with
  | isChild hpc hargv hpid =>
      exact Or.inr ⟨by simp [hpc, ReaderPc.hasTurn],
        Or.inl ⟨hpc, hargv, hpid.le⟩⟩
  | isNeither hpc hargv hpid =>
      exact Or.inr ⟨by simp [hpc, ReaderPc.hasTurn],
        Or.inl ⟨hpc, hargv, hpid.le⟩⟩
  | openFails hpc hfile =>
      exact Or.inr ⟨by simp [hpc, ReaderPc.hasTurn],
        Or.inr (Or.inl ⟨hpc, hfile⟩)⟩
  | brokenPipe hpc hnobody =>
      refine Or.inr ⟨?_, Or.inr (Or.inr hnobody)⟩
      rcases hpc with hpc | hpc
      all_goals simp [hpc, ReaderPc.hasTurn, FileReader.finish]
  | endOfFile hpc hnobody =>
      have hopen := hends hpc
      rw [hnobody p hmem] at hopen
      contradiction
  | takes hpc hpipe =>
      refine Or.inl ?_
      simp only [hpc, ReaderPc.hasTurn, Option.toList_none, List.countP_cons,
        List.countP_nil, if_true, Bool.false_eq_true, if_false]
      omega
  | starts _ hpc | forks _ _ hpc | forkFails _ _ hpc | isParent hpc
  | parentCloses hpc | parentWrites hpc | parentLeaves hpc | waited hpc
  | closes hpc | opens _ hpc | copied hpc | copies _ hpc | passes hpc
  | leaves hpc | returns hpc =>
      exact Or.inl (by simp [hpc, ReaderPc.hasTurn, FileReader.finish])

theorem ReaderMove.child_turn (h : ReaderMove bufsiz s p r) {c : FileReader}
    (hc : r.child = some c) : r.process.pc.hasTurn = true := by
  cases h with
  | forks _ _ hpc => simp [hpc, ReaderPc.hasTurn]
  | _ => simp at hc

theorem FileReaders.turns_pos (hp : p ∈ s.processes)
    (hturn : p.pc.hasTurn = true) : 0 < s.turns := by
  have hpos : 0 < s.processes.countP (·.pc.hasTurn) :=
    List.countP_pos_iff.mpr ⟨p, hp, hturn⟩
  rw [FileReaders.turns]
  omega

/-- What holds in every run: the turn is in one place at most. -/
structure TurnInv (args : List Argument) (s : FileReaders) : Prop where
  family : ∃ o cs, s.processes = o :: cs ∧ Family args o cs
  unique : s.turns ≤ 1

theorem TurnInv.taking (h : TurnInv args s) (hp : p ∈ s.processes)
    (hpc : p.pc = .taking) : p.readEnd = true ∧ p.writeEnd = true := by
  obtain ⟨o, cs, hps, hfamily⟩ := h.family
  exact (hfamily.taking (hps ▸ hp) hpc).2

/-- One step keeps the turn, or may lose it. -/
theorem TurnInv.turns_step (h : TurnInv args s)
    (hsplit : s.processes = before ++ p :: after)
    (hmove : ReaderMove bufsiz s p r) :
    let s' : FileReaders :=
      ⟨r.pipe, before ++ r.process :: (after ++ r.child.toList)⟩
    s'.turns = s.turns ∨ s'.turns + 1 = s.turns ∧ LosesTurn s p := by
  have hmem : p ∈ s.processes := by simp [hsplit]
  have hturns := hmove.turns hmem fun hpc => (h.taking hmem hpc).2
  simp only [FileReaders.turns, hsplit, List.countP_append, List.countP_cons,
    List.countP_nil] at hturns ⊢
  rcases hturns with hturns | ⟨hturns, hloses⟩
  · exact Or.inl (by omega)
  · exact Or.inr ⟨by omega, hloses⟩

theorem TurnInv.step (h : TurnInv args s) (hargs : args ≠ [])
    (hsplit : s.processes = before ++ p :: after)
    (hmove : ReaderMove bufsiz s p r) :
    TurnInv args ⟨r.pipe, before ++ r.process :: (after ++ r.child.toList)⟩ := by
  obtain ⟨o, cs, hps, hfamily⟩ := h.family
  refine ⟨hfamily.step hargs hps hsplit hmove, ?_⟩
  have hunique := h.unique
  rcases h.turns_step hsplit hmove with hturns | ⟨hturns, -⟩
  · rw [hturns]
    exact hunique
  · omega

theorem TurnInv.init (args : List Argument) :
    TurnInv args ⟨0, [firstReader args]⟩ :=
  ⟨⟨_, _, rfl, Family.init args⟩, le_refl 1⟩

theorem turnInv_reachable (hargs : args ≠ [])
    (h : (readerSystem bufsiz args).Reachable s) : TurnInv args s := by
  refine h.invariant ?_ ?_
  · rintro s rfl
    exact TurnInv.init args
  · rintro s es s' hinv ⟨before, p, after, bytesRead, r, hsplit, hstep, -, rfl⟩
    exact hinv.step hargs hsplit (readerStep_move hstep)

/-- A step that loses the turn does it when no child waits. -/
theorem TurnInv.not_waits (h : TurnInv args s) (hpassed : TurnsPassed args)
    (hmem : p ∈ s.processes) (hloses : LosesTurn s p) : ¬ s.Waits := by
  rintro ⟨q, hq, htaking⟩
  obtain ⟨o, cs, hps, hfamily⟩ := h.family
  obtain ⟨hqcs, hread, -⟩ := hfamily.taking (hps ▸ hq) htaking
  obtain ⟨hpos, hfiles⟩ := hfamily.others_open hpassed hqcs
  rw [hps, List.mem_cons] at hmem
  rcases hloses with ⟨hpc, hargv, hpid⟩ | ⟨hpc, hfile⟩ | hnobody
  · rcases hmem with rfl | hmem
    · have hlastPid := hfamily.pid (by rw [hpc]; rfl)
      rw [hargv, lastPid] at hlastPid
      omega
    · have hchild := hfamily.children p hmem
      simp [hpc, ReaderPc.ofParent] at hchild
  · rcases hmem with rfl | hmem
    · have hfirst := hfamily.first
      simp [hpc, ReaderPc.ofChild] at hfirst
    · refine hfiles p hmem ?_ hfile
      rintro rfl
      rw [htaking] at hpc
      contradiction
  · rw [hnobody q hq] at hread
    contradiction

/-- The turn is somewhere as long as a child waits. -/
theorem TurnInv.waits_step (h : TurnInv args s) (hpassed : TurnsPassed args)
    (hkept : s.Waits → s.turns = 1)
    (hsplit : s.processes = before ++ p :: after)
    (hmove : ReaderMove bufsiz s p r) :
    let s' : FileReaders :=
      ⟨r.pipe, before ++ r.process :: (after ++ r.child.toList)⟩
    s'.Waits → s'.turns = 1 := by
  intro s'
  rintro ⟨q, hq, htaking⟩
  have hmem : p ∈ s.processes := by simp [hsplit]
  have hstays : s.Waits → s'.turns = 1 := by
    intro hwaits
    rcases h.turns_step hsplit hmove with hturns | ⟨-, hloses⟩
    · exact hturns.trans (hkept hwaits)
    · exact absurd hwaits (h.not_waits hpassed hmem hloses)
  simp only [s', List.mem_append, List.mem_cons, Option.mem_toList] at hq
  rcases hq with hq | rfl | hq | hchild
  · exact hstays ⟨q, by simp [hsplit, hq], htaking⟩
  · obtain ⟨o, cs, hps, hfamily⟩ := h.family
    exact absurd htaking (hfamily.not_taking hpassed.1 (hps ▸ hmem) hmove)
  · exact hstays ⟨q, by simp [hsplit, hq], htaking⟩
  · have hpos : 0 < s'.turns :=
      FileReaders.turns_pos (by simp [s']) (hmove.child_turn hchild)
    have hunique := (h.step hpassed.1 hsplit hmove).unique
    exact le_antisymm hunique hpos

theorem turns_of_waits (hpassed : TurnsPassed args)
    (h : (readerSystem bufsiz args).Reachable s) :
    s.Waits → s.turns = 1 := by
  have hboth : TurnInv args s ∧ (s.Waits → s.turns = 1) := by
    refine h.invariant (I := fun s => TurnInv args s ∧ (s.Waits → s.turns = 1))
      ?_ ?_
    · rintro s rfl
      exact ⟨TurnInv.init args, fun _ => rfl⟩
    · rintro s es s' ⟨hinv, hkept⟩
        ⟨before, p, after, bytesRead, r, hsplit, hstep, -, rfl⟩
      have hmove := readerStep_move hstep
      exact ⟨hinv.step hpassed.1 hsplit hmove,
        hinv.waits_step hpassed hkept hsplit hmove⟩
  exact hboth.2

/-- The turn is with somebody who will write it. -/
theorem TurnInv.turnKept (h : TurnInv args s) (hpassed : TurnsPassed args)
    (hwaits : s.Waits) (hturns : s.turns = 1) : s.TurnKept := by
  obtain ⟨q, hq, htaking⟩ := hwaits
  obtain ⟨o, cs, hps, hfamily⟩ := h.family
  obtain ⟨hqcs, -⟩ := hfamily.taking (hps ▸ hq) htaking
  obtain ⟨hpos, hfiles⟩ := hfamily.others_open hpassed hqcs
  rcases Nat.eq_zero_or_pos s.pipe with hpipe | hpipe
  · rw [FileReaders.turns, hpipe, zero_add] at hturns
    obtain ⟨p, hp, hturn⟩ := List.countP_pos_iff.mp (hturns ▸ Nat.one_pos)
    have hmem : p = o ∨ p ∈ cs := by simpa [hps] using hp
    cases hpc : p.pc with
    | starting | forking =>
        have hloop : p.pc.inLoop = true := by rw [hpc]; rfl
        refine Or.inl ⟨p, hp, Or.inl ⟨hloop, ?_⟩⟩
        rcases hmem with rfl | hmem
        · rw [hfamily.pid hloop]
          exact hpos
        · have hchild := hfamily.children p hmem
          simp [hpc, ReaderPc.ofParent] at hchild
    | parentClosing => exact Or.inl ⟨p, hp, Or.inr (Or.inl hpc)⟩
    | parentWriting => exact Or.inl ⟨p, hp, Or.inr (Or.inr hpc)⟩
    | closing | opening =>
        refine Or.inr (Or.inr ⟨p, hp, Or.inl ⟨by simp [hpc], ?_⟩⟩)
        rcases hmem with rfl | hmem
        · have hfirst := hfamily.first
          simp [hpc, ReaderPc.ofChild] at hfirst
        · refine hfiles p hmem ?_
          rintro rfl
          rw [htaking] at hpc
          contradiction
    | copying | passing => exact Or.inr (Or.inr ⟨p, hp, Or.inr (by simp [hpc])⟩)
    | _ => simp [hpc, ReaderPc.hasTurn] at hturn
  · exact Or.inr (Or.inl hpipe)

/-- A process without a step is over, or blocked in `read` or `wait`. -/
theorem readerStep_eq_none (h : readerStep bufsiz s p 1 = none) :
    p.Ended ∨ p.pc = .taking ∧ s.pipe = 0 ∨
      p.pc = .waiting ∧ ¬ ∀ q ∈ s.processes.tail, q.Ended := by
  cases hpc : p.pc with
  | exited => exact Or.inl (Or.inl hpc)
  | killed => exact Or.inl (Or.inr hpc)
  | waiting =>
      simp only [readerStep, hpc, ite_eq_right_iff, reduceCtorEq,
        imp_false] at h
      exact Or.inr (Or.inr ⟨rfl, h⟩)
  | taking =>
      refine Or.inr (Or.inl ⟨rfl, ?_⟩)
      by_contra hpipe
      simp [readerStep, hpc, Nat.pos_of_ne_zero hpipe] at h
  | opening =>
      simp only [readerStep, hpc] at h
      cases hfile : p.file with
      | none | some content => simp [hfile] at h
  | copying =>
      by_cases hunread : p.unread = []
      all_goals simp [readerStep, hpc, hunread] at h
  | _ => simp [readerStep, hpc] at h

/-- The program comes to an end only when all processes are over. -/
theorem TurnInv.ended (h : TurnInv args s) (hkept : s.Waits → s.turns = 1)
    (hfinal : (readerSystem bufsiz args).Final s) :
    ∀ p ∈ s.processes, p.Ended := by
  have hnone : ∀ p ∈ s.processes, readerStep bufsiz s p 1 = none := by
    intro p hp
    obtain ⟨before, after, hsplit⟩ := List.append_of_mem hp
    refine Option.eq_none_iff_forall_ne_some.mpr fun r hr => ?_
    exact hfinal _ _ ⟨before, p, after, 1, r, hsplit, hr, rfl, rfl⟩
  have hnowait : ¬ s.Waits := by
    intro hwaits
    have hturns := hkept hwaits
    obtain ⟨q, hq, htaking⟩ := hwaits
    have hpipe : s.pipe = 0 := by
      rcases readerStep_eq_none (hnone q hq) with hended | ⟨-, hpipe⟩ | ⟨hpc, -⟩
      · simp [FileReader.Ended, htaking] at hended
      · exact hpipe
      · simp [htaking] at hpc
    rw [FileReaders.turns, hpipe, zero_add] at hturns
    obtain ⟨p, hp, hturn⟩ := List.countP_pos_iff.mp (hturns ▸ Nat.one_pos)
    rcases readerStep_eq_none (hnone p hp) with
      (hpc | hpc) | ⟨hpc, -⟩ | ⟨hpc, -⟩
    all_goals simp [hpc, ReaderPc.hasTurn] at hturn
  obtain ⟨o, cs, hps, hfamily⟩ := h.family
  have hcs : ∀ c ∈ cs, c.Ended := by
    intro c hc
    have hmem : c ∈ s.processes := by simp [hps, hc]
    rcases readerStep_eq_none (hnone c hmem) with hended | ⟨hpc, -⟩ | ⟨hpc, -⟩
    · exact hended
    · exact absurd ⟨c, hmem, hpc⟩ hnowait
    · have hchild := hfamily.children c hc
      simp [hpc, ReaderPc.ofParent] at hchild
  rw [hps, List.forall_mem_cons]
  refine ⟨?_, hcs⟩
  have hmem : o ∈ s.processes := by simp [hps]
  rcases readerStep_eq_none (hnone o hmem) with hended | ⟨hpc, -⟩ | ⟨-, hwait⟩
  · exact hended
  · exact absurd ⟨o, hmem, hpc⟩ hnowait
  · rw [hps] at hwait
    exact absurd hcs hwait

end Turn

/-! ## The turn is lost -/

/-- The turn is kept while a child waits, and whatever happened so far, the run
can go on until all processes are over. -/
structure TurnsGoOn (S : System FileReaders UInt8) (s : FileReaders) :
    Prop where
  kept : s.Waits → s.TurnKept
  goesOn : ∃ tr s', S.Run s tr s' ∧ ∀ p ∈ s'.processes, p.Ended

section Lost

variable {bufsiz : ℕ} {args : List Argument}

theorem turnsGoOn_of_turnsPassed (hpassed : TurnsPassed args) {s : FileReaders}
    (h : (readerSystem bufsiz args).Reachable s) :
    TurnsGoOn (readerSystem bufsiz args) s := by
  have hargs := hpassed.1
  refine ⟨fun hwaits => ?_, ?_⟩
  · exact (turnInv_reachable hargs h).turnKept hpassed hwaits
      (turns_of_waits hpassed h hwaits)
  · obtain ⟨tr, s', hrun, hfinal⟩ :=
      System.exists_run_final _ (readerSystem_rank_lt bufsiz args) s
    obtain ⟨tr₀, hexec⟩ := h
    have h' := (hexec.run hrun).reachable
    exact ⟨tr, s', hrun, (turnInv_reachable hargs h').ended
      (turns_of_waits hpassed h') hfinal⟩

/-- Without a process that has the turn and with an empty pipe, it is lost. -/
theorem not_turnKept {s : FileReaders} (hpipe : s.pipe = 0)
    (h : ∀ p ∈ s.processes, p.pc.hasTurn = false) : ¬ s.TurnKept := by
  have hnone : ∀ p ∈ s.processes, ∀ pc : ReaderPc, pc.hasTurn = true →
      p.pc ≠ pc := by
    rintro p hp pc hpc rfl
    rw [h p hp] at hpc
    contradiction
  rintro (⟨p, hp, ⟨hloop, -⟩ | hpc | hpc⟩ | hpos |
    ⟨p, hp, ⟨hpc | hpc, -⟩ | hpc | hpc⟩)
  · cases hpc : p.pc with
    | starting | forking => exact hnone p hp _ rfl hpc
    | _ => simp [hpc, ReaderPc.inLoop] at hloop
  · exact hnone p hp _ rfl hpc
  · exact hnone p hp _ rfl hpc
  · omega
  all_goals exact hnone p hp _ rfl hpc

/-- Without an argument the only process waits for a turn that nobody gives. -/
theorem not_turnsGoOn_nil (bufsiz : ℕ) :
    ∃ s, (readerSystem bufsiz []).Reachable s ∧
      ¬ TurnsGoOn (readerSystem bufsiz []) s := by
  refine ⟨_, exec_lone.reachable, fun h => ?_⟩
  obtain ⟨tr, s', hrun, hended⟩ := h.goesOn
  rw [final_lone.eq_of_run hrun] at hended
  have hover := hended _ (List.mem_singleton_self _)
  simp [FileReader.Ended, loneReader] at hover

theorem forkedReaders_ne_nil (h : ∃ a ∈ args, a.forks = true) :
    forkedReaders args ≠ [] := by
  obtain ⟨a, ha, hforks⟩ := h
  intro hnil
  have hmap := forkedReaders_map_file args
  rw [hnil, List.map_nil, eq_comm, List.map_eq_nil_iff,
    List.filter_eq_nil_iff] at hmap
  exact hmap a ha hforks

theorem forkedReaders_hasTurn :
    ∀ c ∈ forkedReaders args, c.pc.hasTurn = false := by
  intro c hc
  obtain ⟨argv, rfl⟩ := mem_forkedReaders hc
  rfl

/-- When the last `fork` fails, the parent does not write the turn. -/
theorem lost_of_lastPid_neg (bufsiz : ℕ) (hpid : lastPid 0 args < 0)
    (hsome : ∃ a ∈ args, a.forks = true) :
    ∃ s, (readerSystem bufsiz args).Reachable s ∧ s.Waits ∧ ¬ s.TurnKept := by
  have hne := forkedReaders_ne_nil hsome
  have hargs : args ≠ [] := by
    rintro rfl
    exact hne rfl
  have hbranch : readerStep bufsiz
      ⟨0, [] ++ loopReader (lastPid 0 args) [] :: forkedReaders args⟩
      (loopReader (lastPid 0 args) []) 0 =
        some ⟨parentReader .waiting true true args, 0, [], none⟩ := by
    simp [readerStep, forkNext, loopReader, parentReader, not_lt_of_gt hpid,
      hpid.ne]
  have hexec := (exec_loop hargs).step (reader_moves hbranch)
  obtain ⟨c, hc⟩ := List.exists_mem_of_ne_nil _ hne
  refine ⟨_, hexec.reachable, ⟨c, by simp [hc], ?_⟩, not_turnKept rfl ?_⟩
  · obtain ⟨argv, rfl⟩ := mem_forkedReaders hc
    rfl
  · rw [List.nil_append, List.forall_mem_cons]
    exact ⟨rfl, forkedReaders_hasTurn⟩

/-- A child whose file does not open takes the turn away from the others. -/
theorem lost_of_file_none (bufsiz : ℕ) (hpid : 0 < lastPid 0 args)
    {a : Argument} (ha : a ∈ args) (hforks : a.forks = true)
    (hfile : a.file = none) (hmany : args.countP Argument.forks ≠ 1) :
    ∃ s, (readerSystem bufsiz args).Reachable s ∧ s.Waits ∧ ¬ s.TurnKept := by
  have hne := forkedReaders_ne_nil ⟨a, ha, hforks⟩
  have hfiles := forkedReaders_map_file args
  have hmem : none ∈ (forkedReaders args).map FileReader.file := by
    rw [hfiles, ← hfile]
    exact List.mem_map_of_mem (List.mem_filter.mpr ⟨ha, hforks⟩)
  obtain ⟨c, hc, hnone⟩ := List.mem_map.mp hmem
  obtain ⟨argv, rfl⟩ := mem_forkedReaders hc
  obtain ⟨before, after, hsplit⟩ := List.append_of_mem hc
  -- somebody else waits for the turn
  have hother : before ++ after ≠ [] := by
    intro hnil
    obtain ⟨rfl, rfl⟩ := List.append_eq_nil_iff.mp hnil
    have hlen := congrArg List.length hfiles
    rw [hsplit, List.length_map, List.length_map,
      ← List.countP_eq_length_filter] at hlen
    exact hmany hlen.symm
  have hexec : (readerSystem bufsiz args).Exec [] _ := exec_parent hpid hne
  rw [hsplit, ← List.cons_append] at hexec
  have hfails : readerStep bufsiz
      ⟨0, parentReader .parentLeaving false true args :: before ++
        turnReader .opening argv [] [] :: after⟩
      (turnReader .opening argv [] []) 0 =
        some ⟨turnReader .returning argv [] [], 0, [], none⟩ := by
    rw [FileReader.file] at hnone
    simp only [forkedReader] at hnone
    simp [readerStep, turnReader, FileReader.file, hnone]
  have hexec := (hexec.run run_take).step (reader_moves hfails)
  have hwaiting : ∀ c ∈ before ++ after, c.pc = .taking := by
    intro c hc
    have hmem : c ∈ forkedReaders args := by
      rw [hsplit]
      rcases List.mem_append.mp hc with hc | hc
      · exact List.mem_append_left _ hc
      · exact List.mem_append_right _ (List.mem_cons_of_mem _ hc)
    obtain ⟨argv, rfl⟩ := mem_forkedReaders hmem
    rfl
  obtain ⟨q, hq⟩ := List.exists_mem_of_ne_nil _ hother
  refine ⟨_, hexec.reachable, ⟨q, ?_, hwaiting q hq⟩, not_turnKept rfl ?_⟩
  · rcases List.mem_append.mp hq with hq | hq
    · simp [hq]
    · simp [hq]
  · rw [List.forall_mem_append] at hwaiting
    simp only [List.forall_mem_append, List.forall_mem_cons]
    refine ⟨⟨rfl, fun c hc => ?_⟩, rfl, fun c hc => ?_⟩
    · rw [hwaiting.1 c hc]
      rfl
    · rw [hwaiting.2 c hc]
      rfl

/-- For every list of arguments, with what fails about them: the turn is never
lost while somebody waits for it if and only if all forks fail, or the last
`fork` succeeds and no child among several fails to open its file. -/
theorem turns_go_on_iff :
    (∀ s, (readerSystem bufsiz args).Reachable s →
      TurnsGoOn (readerSystem bufsiz args) s) ↔ TurnsPassed args := by
  refine ⟨fun h => ?_, fun hpassed s => turnsGoOn_of_turnsPassed hpassed⟩
  by_cases hargs : args = []
  · obtain ⟨s, hs, hnot⟩ := not_turnsGoOn_nil bufsiz
    exact absurd (h s (hargs ▸ hs)) (hargs ▸ hnot)
  refine ⟨hargs, ?_⟩
  by_cases hsome : ∃ a ∈ args, a.forks = true
  · have hpos : 0 < lastPid 0 args := by
      by_contra hpid
      have hneg : lastPid 0 args < 0 :=
        lt_of_le_of_ne (not_lt.mp hpid) (lastPid_zero_ne_zero hargs)
      obtain ⟨s, hs, hwaits, hlost⟩ :=
        lost_of_lastPid_neg bufsiz hneg hsome
      exact hlost ((h s hs).kept hwaits)
    refine Or.inr ⟨(lastPid_pos_iff hargs).mp hpos, ?_⟩
    by_contra hfiles
    obtain ⟨hfail, hmany⟩ := not_or.mp hfiles
    push Not at hfail
    obtain ⟨a, ha, hforks, hfile⟩ := hfail
    obtain ⟨s, hs, hwaits, hlost⟩ :=
      lost_of_file_none bufsiz hpos ha hforks hfile hmany
    exact hlost ((h s hs).kept hwaits)
  · refine Or.inl fun a ha => ?_
    by_contra hforks
    exact hsome ⟨a, ha, by simpa using hforks⟩

/-- Two children; the file of the first does not open. -/
theorem turn_lost_two_children :
    ∃ s, (readerSystem 4096 [⟨true, none⟩, ⟨true, some [65]⟩]).Reachable s ∧
      s.Waits ∧ ¬ s.TurnKept :=
  lost_of_file_none 4096 (by decide) List.mem_cons_self rfl rfl (by decide)

end Lost

end Pvos.PipeThreads
