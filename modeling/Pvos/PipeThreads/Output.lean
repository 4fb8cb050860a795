import Pvos.PipeThreads.Turns

/-!
# What the children print

A child prints while it has the turn, but its bytes leave the buffer of stdio
in blocks, the last ones when the process returns.  By then the turn is with the
next child; and the last child never returns, since the `write` of the turn
kills it.

So the file of the last child loses its end, at least one byte of it, and every
child can be the last one: only files without a byte are printed whole.
-/

namespace Pvos.PipeThreads

open Pvos.Support

/-- The arguments when every `fork` makes a child and every file opens. -/
def openFiles (files : List (List UInt8)) : List Argument :=
  files.map fun content => ⟨true, some content⟩

/-- Whatever the order of the steps, the output at the end is made of the whole
files, one behind the other. -/
def PrintsWhole (bufsiz : ℕ) (files : List (List UInt8)) : Prop :=
  ∀ tr s, (readerSystem bufsiz (openFiles files)).Exec tr s →
    (readerSystem bufsiz (openFiles files)).Final s →
    ∃ order : List (List UInt8), order.Perm files ∧ tr = order.flatten

section OpenFiles

variable {files : List (List UInt8)}

theorem openFiles_forks : ∀ a ∈ openFiles files, a.forks = true := by
  intro a ha
  obtain ⟨content, -, rfl⟩ := List.mem_map.mp ha
  rfl

theorem openFiles_file : ∀ a ∈ openFiles files, a.file ≠ none := by
  intro a ha
  obtain ⟨content, -, rfl⟩ := List.mem_map.mp ha
  simp

theorem filter_openFiles :
    (openFiles files).filter Argument.forks = openFiles files :=
  List.filter_eq_self.mpr openFiles_forks

theorem openFiles_map_file :
    (openFiles files).map Argument.file = files.map some := by
  simp [openFiles, Function.comp_def]

theorem openFiles_ne_nil (hfiles : files ≠ []) : openFiles files ≠ [] := by
  simpa [openFiles] using hfiles

/-- The last `fork` makes a child. -/
theorem openFiles_last (hfiles : files ≠ []) :
    ∃ a ∈ (openFiles files).getLast?, a.forks = true := by
  have hargs := openFiles_ne_nil hfiles
  rw [List.getLast?_eq_some_getLast hargs]
  exact ⟨_, rfl, openFiles_forks _ (List.getLast_mem hargs)⟩

end OpenFiles

/-! ## Files without a byte -/

/-- A process that has nothing to print. -/
structure FileReader.Silent (p : FileReader) : Prop where
  start : p.pc = .starting → p.argv ≠ []
  empty : ∀ a ∈ p.argv, a.file.getD [] = []
  unread : p.unread = []
  stdout : p.stdout = []

section Silent

variable {bufsiz : ℕ} {files : List (List UInt8)} {tr : List UInt8}
variable {s : FileReaders} {p : FileReader} {r : ReaderStep}

theorem FileReader.Silent.first (hfiles : files ≠ [])
    (hempty : ∀ content ∈ files, content = []) :
    (firstReader (openFiles files)).Silent := by
  refine ⟨fun _ => openFiles_ne_nil hfiles, fun a ha => ?_, rfl, rfl⟩
  obtain ⟨content, hcontent, rfl⟩ := List.mem_map.mp ha
  exact hempty content hcontent

/-- Such a process prints nothing, and its children have nothing to print
either. -/
theorem FileReader.Silent.step (h : p.Silent) (hmove : ReaderMove bufsiz s p r) :
    r.output = [] ∧ r.process.Silent ∧ ∀ c ∈ r.child, c.Silent := by
  obtain ⟨hstart, hempty, hunread, hstdout⟩ := h
  cases hmove with
  | starts printed hpc hprinted =>
      have hnil : printed = [] := by
        simpa [hstart hpc] using hprinted
      subst hnil
      exact ⟨by simp [flushed], ⟨by simp, hempty, hunread, by simp [kept]⟩,
        by simp⟩
  | forks a argv hpc hargv =>
      rw [hargv, List.forall_mem_cons] at hempty
      refine ⟨rfl, ⟨by simp [hpc], hempty.2, hunread, hstdout⟩, ?_⟩
      intro c hc
      obtain rfl := Option.some.inj hc
      refine ⟨by simp, ?_, hunread, hstdout⟩
      rw [hargv, List.forall_mem_cons]
      exact hempty
  | forkFails a argv hpc hargv =>
      rw [hargv, List.forall_mem_cons] at hempty
      exact ⟨rfl, ⟨by simp [hpc], hempty.2, hunread, hstdout⟩, by simp⟩
  | opens content hpc hfile =>
      obtain ⟨a, ha, hcontent⟩ := Option.bind_eq_some_iff.mp hfile
      have hnil : content = [] := by
        simpa [hcontent] using hempty a (List.mem_of_mem_head? ha)
      exact ⟨rfl, ⟨by simp, hempty, hnil, hstdout⟩, by simp⟩
  | copies _ _ hne => exact absurd hunread hne
  | returns => exact ⟨hstdout, ⟨by simp [FileReader.finish], hempty, hunread,
      rfl⟩, by simp⟩
  | brokenPipe => exact ⟨rfl, ⟨by simp [FileReader.finish], hempty, hunread,
      hstdout⟩, by simp⟩
  | _ => exact ⟨rfl, ⟨by simp, hempty, hunread, hstdout⟩, by simp⟩

theorem silent_exec (hfiles : files ≠ [])
    (hempty : ∀ content ∈ files, content = [])
    (h : (readerSystem bufsiz (openFiles files)).Exec tr s) :
    tr = [] ∧ ∀ p ∈ s.processes, p.Silent := by
  refine h.invariant (I := fun tr s => tr = [] ∧ ∀ p ∈ s.processes, p.Silent)
    ?_ ?_
  · rintro s rfl
    rw [List.forall_mem_singleton]
    exact ⟨rfl, .first hfiles hempty⟩
  · rintro tr s es s' ⟨rfl, hsilent⟩
      ⟨before, p, after, bytesRead, r, hsplit, hstep, rfl, rfl⟩
    simp only [hsplit, List.forall_mem_append,
      List.forall_mem_cons] at hsilent
    obtain ⟨houtput, hprocess, hchild⟩ :=
      hsilent.2.1.step (readerStep_move hstep)
    simp only [List.forall_mem_append, List.forall_mem_cons,
      Option.mem_toList]
    exact ⟨houtput, hsilent.1, hprocess, hsilent.2.2, hchild⟩

theorem printsWhole_of_empty (hfiles : files ≠ [])
    (hempty : ∀ content ∈ files, content = []) : PrintsWhole bufsiz files := by
  intro tr s hexec _
  refine ⟨files, .refl _, ?_⟩
  rw [(silent_exec hfiles hempty hexec).1, List.flatten_eq_nil_iff.mpr hempty]

end Silent

/-! ## The last child -/

/-- What a child has to print. -/
def FileReader.content (p : FileReader) : List UInt8 :=
  p.file.getD []

section Last

variable {bufsiz : ℕ} {args : List Argument} {files : List (List UInt8)}
variable {before after : List FileReader} {argv : List Argument}

/-- A child copies the rest of its file. -/
theorem run_copy (before after : List FileReader) (argv : List Argument)
    (printed unread : List UInt8) :
    ∃ output, flushed bufsiz printed ++ output =
        flushed bufsiz (printed ++ unread) ∧
      (readerSystem bufsiz args).Run
        ⟨0, before ++ turnReader .copying argv unread (kept bufsiz printed) ::
          after⟩ output
        ⟨0, before ++ turnReader .passing argv []
          (kept bufsiz (printed ++ unread)) :: after⟩ := by
  induction hn : unread.length using Nat.strong_induction_on
    generalizing printed unread with
  | _ n ih =>
      by_cases hunread : unread = []
      · subst hunread
        have hcopied : readerStep bufsiz
            ⟨0, before ++ turnReader .copying argv [] (kept bufsiz printed) ::
              after⟩
            (turnReader .copying argv [] (kept bufsiz printed)) 0 =
              some ⟨turnReader .passing argv [] (kept bufsiz printed), 0, [],
                none⟩ := rfl
        refine ⟨[], by simp, ?_⟩
        rw [List.append_nil]
        exact System.Run.single (reader_moves hcopied)
      · have hpos := List.length_pos_of_ne_nil hunread
        have hcopies : readerStep bufsiz
            ⟨0, before ++ turnReader .copying argv unread
              (kept bufsiz printed) :: after⟩
            (turnReader .copying argv unread (kept bufsiz printed)) 512 =
              some ⟨turnReader .copying argv (unread.drop 512)
                (kept bufsiz (printed ++ unread.take 512)), 0,
                flushed bufsiz (kept bufsiz printed ++ unread.take 512),
                none⟩ := by
          simp [readerStep, turnReader, hunread, kept_kept]
        obtain ⟨output, hflushed, hrun⟩ :=
          ih (unread.drop 512).length (by rw [List.length_drop]; omega)
            (printed ++ unread.take 512) (unread.drop 512) rfl
        rw [List.append_assoc, List.take_append_drop] at hflushed hrun
        refine ⟨_, ?_, System.Run.head (reader_moves hcopies) hrun⟩
        rw [← List.append_assoc, flushed_append_flushed, hflushed]

/-- A child that has its turn prints its file; what is in its buffer then stays
there. -/
theorem run_print {content : List UInt8}
    (hfile : (forkedReader argv).file = some content) :
    (readerSystem bufsiz args).Run
      ⟨1, before ++ forkedReader argv :: after⟩ (flushed bufsiz content)
      ⟨0, before ++ turnReader .passing argv [] (kept bufsiz content) ::
        after⟩ := by
  have hopen : readerStep bufsiz
      ⟨0, before ++ turnReader .opening argv [] [] :: after⟩
      (turnReader .opening argv [] []) 0 =
        some ⟨turnReader .copying argv content (kept bufsiz []), 0, [],
          none⟩ := by
    rw [FileReader.file] at hfile
    simp only [forkedReader] at hfile
    simp [readerStep, turnReader, FileReader.file, hfile, kept]
  obtain ⟨output, hflushed, hrun⟩ := run_copy before after argv [] content
  simp only [flushed, List.take_nil, List.nil_append] at hflushed
  subst hflushed
  exact (run_take.tail (reader_moves hopen)).trans hrun

/-- A child that is over. -/
def endedReader (argv : List Argument) : FileReader :=
  { (turnReader .returning argv [] []).finish .exited with stdout := [] }

/-- A child has its turn while another one waits: all of its file is printed, the
last bytes after it has given the turn back. -/
theorem run_turn {content : List UInt8} {q : FileReader}
    (hfile : (forkedReader argv).file = some content)
    (hq : q ∈ before ∨ q ∈ after) (hread : q.readEnd = true) :
    (readerSystem bufsiz args).Run
      ⟨1, before ++ forkedReader argv :: after⟩ content
      ⟨1, before ++ endedReader argv :: after⟩ := by
  have hpass : readerStep bufsiz
      ⟨0, before ++ turnReader .passing argv [] (kept bufsiz content) :: after⟩
      (turnReader .passing argv [] (kept bufsiz content)) 0 =
        some ⟨turnReader .leaving argv [] (kept bufsiz content), 1, [],
          none⟩ := by
    refine congrArg some (writeByte_of_reader ⟨q, ?_, hread⟩ _ _)
    exact List.mem_append.mpr (hq.imp id (List.mem_cons_of_mem _))
  have hleave : readerStep bufsiz
      ⟨1, before ++ turnReader .leaving argv [] (kept bufsiz content) :: after⟩
      (turnReader .leaving argv [] (kept bufsiz content)) 0 =
        some ⟨{ turnReader .returning argv [] (kept bufsiz content) with
          writeEnd := false }, 1, [], none⟩ := rfl
  have hreturn : readerStep bufsiz
      ⟨1, before ++ { turnReader .returning argv [] (kept bufsiz content) with
        writeEnd := false } :: after⟩
      { turnReader .returning argv [] (kept bufsiz content) with
        writeEnd := false } 0 =
        some ⟨endedReader argv, 1, kept bufsiz content, none⟩ := rfl
  have hrun : (readerSystem bufsiz args).Run _ _ _ :=
    (((run_print hfile).tail (reader_moves hpass)).tail
      (reader_moves hleave)).tail (reader_moves hreturn)
  rw [List.append_nil, List.append_nil, flushed_append_kept] at hrun
  exact hrun

/-- The last child is killed when it gives the turn back. -/
theorem run_killed {content : List UInt8}
    (hfile : (forkedReader argv).file = some content)
    (hothers : ∀ q ∈ before ++ after, q.readEnd = false) :
    (readerSystem bufsiz args).Run
      ⟨1, before ++ forkedReader argv :: after⟩ (flushed bufsiz content)
      ⟨0, before ++ (turnReader .passing argv [] (kept bufsiz content)).finish
        .killed :: after⟩ := by
  have hkill : readerStep bufsiz
      ⟨0, before ++ turnReader .passing argv [] (kept bufsiz content) :: after⟩
      (turnReader .passing argv [] (kept bufsiz content)) 0 =
        some ⟨(turnReader .passing argv [] (kept bufsiz content)).finish .killed,
          0, [], none⟩ := by
    rw [List.forall_mem_append] at hothers
    refine congrArg some (writeByte_of_nobody ?_ _ _)
    simp only [List.forall_mem_append, List.forall_mem_cons]
    exact ⟨hothers.1, rfl, hothers.2⟩
  have hrun : (readerSystem bufsiz args).Run _ _ _ :=
    (run_print hfile).tail (reader_moves hkill)
  rw [List.append_nil] at hrun
  exact hrun

/-- One child after the other has its turn, while `q` waits. -/
theorem run_turns {q : FileReader} (cs : List FileReader)
    (hcs : ∀ c ∈ cs, ∃ argv, c = forkedReader argv ∧ c.file ≠ none)
    (hq : q ∈ before ∨ q ∈ after) (hread : q.readEnd = true) :
    (readerSystem bufsiz args).Run ⟨1, before ++ (cs ++ after)⟩
      (cs.map FileReader.content).flatten
      ⟨1, before ++ (cs.map (fun c => endedReader c.argv) ++ after)⟩ := by
  induction cs generalizing before with
  | nil => exact .refl
  | cons c cs ih =>
      rw [List.forall_mem_cons] at hcs
      obtain ⟨⟨argv, rfl, hfile⟩, hcs⟩ := hcs
      obtain ⟨content, hcontent⟩ := Option.ne_none_iff_exists'.mp hfile
      have hturn : (readerSystem bufsiz args).Run
          ⟨1, before ++ forkedReader argv :: (cs ++ after)⟩ content
          ⟨1, before ++ endedReader argv :: (cs ++ after)⟩ :=
        run_turn hcontent (hq.imp id (List.mem_append_right _)) hread
      have hrest : (readerSystem bufsiz args).Run
          ⟨1, before ++ [endedReader argv] ++ (cs ++ after)⟩
          (cs.map FileReader.content).flatten
          ⟨1, before ++ [endedReader argv] ++
            (cs.map (fun c => endedReader c.argv) ++ after)⟩ :=
        ih hcs (hq.imp (List.mem_append_left _) id)
      rw [List.append_assoc, List.append_assoc] at hrest
      rw [List.map_cons, List.flatten_cons, FileReader.content, hcontent]
      exact hturn.trans hrest

theorem forkedReaders_file_ne_none
    (hfiles : ∀ a ∈ args, a.forks = true → a.file ≠ none) :
    ∀ c ∈ forkedReaders args, ∃ argv, c = forkedReader argv ∧ c.file ≠ none := by
  intro c hc
  obtain ⟨argv, rfl⟩ := mem_forkedReaders hc
  have hmem := List.mem_map_of_mem (f := FileReader.file) hc
  rw [forkedReaders_map_file] at hmem
  obtain ⟨a, ha, heq⟩ := List.mem_map.mp hmem
  obtain ⟨ha, hforks⟩ := List.mem_filter.mp ha
  exact ⟨argv, rfl, heq ▸ hfiles a ha hforks⟩

/-- The children have their turns, the one between `before` and `after` the last
one. -/
theorem run_children {content : List UInt8} (parent : FileReader)
    (hparent : parent.readEnd = false)
    (hbefore : ∀ c ∈ before, ∃ argv, c = forkedReader argv ∧ c.file ≠ none)
    (hafter : ∀ c ∈ after, ∃ argv, c = forkedReader argv ∧ c.file ≠ none)
    (hfile : (forkedReader argv).file = some content) :
    ∃ cs : List FileReader, (∀ c ∈ cs, c.Ended) ∧
      (readerSystem bufsiz args).Run
        ⟨1, parent :: (before ++ forkedReader argv :: after)⟩
        ((before.map FileReader.content).flatten ++
          (after.map FileReader.content).flatten ++ flushed bufsiz content)
        ⟨0, parent :: cs⟩ := by
  generalize hover : before.map (fun c => endedReader c.argv) = before'
  generalize hover' : after.map (fun c => endedReader c.argv) = after'
  have hfirst : (readerSystem bufsiz args).Run
      ⟨1, [parent] ++ (before ++ forkedReader argv :: after)⟩
      (before.map FileReader.content).flatten
      ⟨1, [parent] ++ (before' ++ forkedReader argv :: after)⟩ := by
    rw [← hover]
    exact run_turns before hbefore (Or.inr List.mem_cons_self) rfl
  have hsecond : (readerSystem bufsiz args).Run
      ⟨1, parent :: (before' ++ [forkedReader argv]) ++ (after ++ [])⟩
      (after.map FileReader.content).flatten
      ⟨1, parent :: (before' ++ [forkedReader argv]) ++ (after' ++ [])⟩ := by
    rw [← hover']
    have hmem : forkedReader argv ∈ parent :: (before' ++ [forkedReader argv]) := by
      simp
    exact run_turns after hafter (Or.inl hmem) rfl
  have hthird : (readerSystem bufsiz args).Run
      ⟨1, parent :: before' ++ forkedReader argv :: after'⟩
      (flushed bufsiz content)
      ⟨0, parent :: before' ++
        (turnReader .passing argv [] (kept bufsiz content)).finish .killed ::
          after'⟩ := by
    refine run_killed hfile fun q hq => ?_
    simp only [← hover, ← hover', List.cons_append, List.mem_cons,
      List.mem_append, List.mem_map] at hq
    rcases hq with rfl | ⟨c, -, rfl⟩ | ⟨c, -, rfl⟩
    · exact hparent
    · rfl
    · rfl
  refine ⟨before' ++ (turnReader .passing argv [] (kept bufsiz content)).finish
    .killed :: after', ?_, ?_⟩
  · intro c hc
    simp only [← hover, ← hover', List.mem_append, List.mem_cons,
      List.mem_map] at hc
    rcases hc with ⟨c, -, rfl⟩ | rfl | ⟨c, -, rfl⟩
    · exact Or.inl rfl
    · exact Or.inr rfl
    · exact Or.inl rfl
  · simp only [List.append_nil, List.cons_append,
      List.append_assoc] at hfirst hsecond hthird ⊢
    exact hfirst.trans (hsecond.trans hthird)

/-- A run in which the child between `before` and `after` is the last one. -/
theorem exec_last {content : List UInt8} (hpid : 0 < lastPid 0 args)
    (hfiles : ∀ a ∈ args, a.forks = true → a.file ≠ none)
    (hsplit : forkedReaders args = before ++ forkedReader argv :: after)
    (hfile : (forkedReader argv).file = some content) :
    ∃ s, (readerSystem bufsiz args).Exec
        ((before.map FileReader.content).flatten ++
          (after.map FileReader.content).flatten ++ flushed bufsiz content) s ∧
      (readerSystem bufsiz args).Final s := by
  have hne : forkedReaders args ≠ [] := by
    rw [hsplit]
    simp
  have hchild := forkedReaders_file_ne_none hfiles
  simp only [hsplit, List.forall_mem_append, List.forall_mem_cons] at hchild
  have hleave : readerStep bufsiz
      ⟨1, [] ++ parentReader .parentLeaving false true args ::
        forkedReaders args⟩
      (parentReader .parentLeaving false true args) 0 =
        some ⟨parentReader .waiting false false args, 1, [], none⟩ := rfl
  have hparent := (exec_parent hpid hne).step (reader_moves hleave)
  rw [List.nil_append, List.nil_append, hsplit] at hparent
  obtain ⟨cs, hended, hrun⟩ :=
    run_children (parentReader .waiting false false args) rfl hchild.1
      hchild.2.2 hfile
  have hwait : readerStep bufsiz
      ⟨0, [] ++ parentReader .waiting false false args :: cs⟩
      (parentReader .waiting false false args) 0 =
        some ⟨parentReader .returning false false args, 0, [], none⟩ :=
    if_pos hended
  have hreturn : readerStep bufsiz
      ⟨0, [] ++ parentReader .returning false false args :: cs⟩
      (parentReader .returning false false args) 0 =
        some ⟨parentReader .exited false false args, 0, [], none⟩ := rfl
  have hexec := ((hparent.run hrun).step (reader_moves hwait)).step
    (reader_moves hreturn)
  simp only [List.append_nil, List.nil_append] at hexec
  refine ⟨_, hexec, ?_⟩
  rintro es s' ⟨before, p, after, bytesRead, r, hps, hstep, -⟩
  have hp : p ∈ parentReader .exited false false args :: cs := by
    simp only at hps
    simp [hps]
  have hover : p.Ended := by
    rcases List.mem_cons.mp hp with rfl | hp
    · exact Or.inl rfl
    · exact hended p hp
  rcases hover with hpc | hpc
  all_goals simp [readerStep, hpc] at hstep

/-- A file that has a byte loses the last one when its child is the last
child. -/
theorem empty_of_printsWhole (h : PrintsWhole bufsiz files) :
    ∀ content ∈ files, content = [] := by
  intro content hmem
  have hfiles : files ≠ [] := List.ne_nil_of_mem hmem
  have hmap : (forkedReaders (openFiles files)).map FileReader.file =
      files.map some := by
    rw [forkedReaders_map_file, filter_openFiles, openFiles_map_file]
  have hchild : some content ∈
      (forkedReaders (openFiles files)).map FileReader.file := by
    rw [hmap]
    exact List.mem_map_of_mem hmem
  obtain ⟨c, hc, hfile⟩ := List.mem_map.mp hchild
  obtain ⟨argv, rfl⟩ := mem_forkedReaders hc
  obtain ⟨before, after, hsplit⟩ := List.append_of_mem hc
  have hpid : 0 < lastPid 0 (openFiles files) :=
    (lastPid_pos_iff (openFiles_ne_nil hfiles)).mpr (openFiles_last hfiles)
  obtain ⟨s, hexec, hfinal⟩ :=
    exec_last hpid (fun a ha _ => openFiles_file a ha) hsplit hfile
  obtain ⟨order, hperm, htr⟩ := h _ s hexec hfinal
  have hcontents : before.map FileReader.content ++
      content :: after.map FileReader.content = files := by
    have hget := congrArg (List.map (Option.getD · [])) hmap
    rw [hsplit] at hget
    have hall : before.map (fun c => c.file.getD []) ++
        content :: after.map (fun c => c.file.getD []) = files := by
      simpa [Function.comp_def, hfile] using hget
    exact hall
  -- nothing but the end of this file can be missing
  have hlength := congrArg List.length htr
  rw [hperm.flatten.length_eq, ← hcontents] at hlength
  simp only [List.flatten_append, List.flatten_cons, List.length_append,
    flushed_length] at hlength
  rcases Nat.eq_zero_or_pos content.length with hzero | hpos
  · exact List.eq_nil_of_length_eq_zero hzero
  · have hlost : written bufsiz content.length < content.length :=
      written_lt hpos
    omega

end Last

/-! ## All lists of files -/

/-- The message about the arguments does not fill the buffer. -/
theorem flushed_usage {bufsiz : ℕ} (hbufsiz : 512 < bufsiz) :
    flushed bufsiz usage = [] := by
  have hlength : usage.length < bufsiz := by
    refine lt_trans ?_ hbufsiz
    decide
  rw [flushed, written, Nat.div_eq_of_lt (by omega), zero_mul, List.take_zero]

/-- Without arguments nothing reaches the output. -/
theorem printsWhole_nil {bufsiz : ℕ} (hbufsiz : 512 < bufsiz) :
    PrintsWhole bufsiz [] := by
  intro tr s hexec hfinal
  have hnothing : tr = [] ∧ (s = ⟨0, [firstReader []]⟩ ∨
      ∃ pc, (pc = .forking ∨ pc = .taking) ∧ s = ⟨0, [loneReader bufsiz pc]⟩) := by
    refine hexec.invariant (I := fun tr s => tr = [] ∧
      (s = ⟨0, [firstReader []]⟩ ∨ ∃ pc, (pc = .forking ∨ pc = .taking) ∧
        s = ⟨0, [loneReader bufsiz pc]⟩)) ?_ ?_
    · rintro s rfl
      exact ⟨rfl, Or.inl rfl⟩
    · rintro tr s es s' ⟨rfl, hs⟩
        ⟨before, p, after, bytesRead, r, hsplit, hstep, rfl, rfl⟩
      have hone : ∀ q, s = ⟨0, [q]⟩ → before = [] ∧ p = q ∧ after = [] := by
        rintro q rfl
        simpa [List.append_eq_cons_iff, eq_comm] using hsplit
      rcases hs with rfl | ⟨pc, rfl | rfl, rfl⟩
      · obtain ⟨rfl, rfl, rfl⟩ := hone _ rfl
        have hstart : some ⟨loneReader bufsiz .forking, 0,
            flushed bufsiz usage, none⟩ = some r := hstep
        obtain rfl := Option.some.inj hstart
        exact ⟨flushed_usage hbufsiz, Or.inr ⟨_, Or.inl rfl, rfl⟩⟩
      · obtain ⟨rfl, rfl, rfl⟩ := hone _ rfl
        have hbranch : some ⟨loneReader bufsiz .taking, 0, [], none⟩ =
            some r := hstep
        obtain rfl := Option.some.inj hbranch
        exact ⟨rfl, Or.inr ⟨_, Or.inr rfl, rfl⟩⟩
      · obtain ⟨rfl, rfl, rfl⟩ := hone _ rfl
        simp [readerStep, loneReader] at hstep
  exact ⟨[], .refl _, hnothing.1⟩

/-- For every list of files, every order of the steps and a buffer that a single
`printf` does not fill: the output is made of whole files if and only if no file
has a byte. -/
theorem files_whole_iff {bufsiz : ℕ} (hbufsiz : 512 < bufsiz)
    (files : List (List UInt8)) :
    PrintsWhole bufsiz files ↔ ∀ content ∈ files, content = [] := by
  refine ⟨empty_of_printsWhole, fun hempty => ?_⟩
  by_cases hfiles : files = []
  · subst hfiles
    exact printsWhole_nil hbufsiz
  · exact printsWhole_of_empty hfiles hempty

/-- Two files without a byte; a file that fills one buffer is lost. -/
theorem files_whole_iff_two_empty :
    PrintsWhole 4096 [[], []] ∧ ¬ PrintsWhole 4096 [List.replicate 4096 65] := by
  refine ⟨(files_whole_iff (by decide) _).mpr (by decide), fun h => ?_⟩
  have hempty := (files_whole_iff (by decide) _).mp h _ List.mem_cons_self
  simp at hempty

/-- A file of one byte: nothing is printed. -/
theorem one_byte_lost : ¬ PrintsWhole 4096 [[65]] := by
  intro h
  have hempty := empty_of_printsWhole h [65] List.mem_cons_self
  exact absurd hempty (by decide)

end Pvos.PipeThreads
