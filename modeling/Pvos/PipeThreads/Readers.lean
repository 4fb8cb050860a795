import Mathlib.Algebra.BigOperators.Group.List.Basic
import Pvos.Support.System
import Pvos.Support.Text

/-!
# Files printed in turns

`main` of `pipe-threads-cv2/process_file_read.cpp` forks one child for each
argument and writes one byte into a pipe.  A child waits for the byte, prints
its file and writes the byte back.

The children inherit both ends of the pipe.  What they print goes through the
buffer of stdio, which is larger than what one `printf` brings.  A full buffer
reaches the output when another byte has to go in; what is left in it does so
when the process returns from `main`.
-/

namespace Pvos.PipeThreads

open Pvos.Support

/-! ## Buffered output -/

/-- The number of bytes that have left a buffer of `bufsiz` bytes when `n` have
been printed: a full buffer is written when one more byte comes. -/
def written (bufsiz n : ℕ) : ℕ :=
  (n - 1) / bufsiz * bufsiz

/-- The bytes that have left a buffer of `bufsiz` bytes when `bytes` have been
printed. -/
def flushed (bufsiz : ℕ) (bytes : List UInt8) : List UInt8 :=
  bytes.take (written bufsiz bytes.length)

/-- The bytes that are still in the buffer. -/
def kept (bufsiz : ℕ) (bytes : List UInt8) : List UInt8 :=
  bytes.drop (written bufsiz bytes.length)

theorem written_le (bufsiz n : ℕ) : written bufsiz n ≤ n :=
  (Nat.div_mul_le_self _ _).trans (Nat.sub_le _ _)

/-- The byte that was printed last is in the buffer. -/
theorem written_lt {bufsiz n : ℕ} (hn : 0 < n) : written bufsiz n < n :=
  (Nat.div_mul_le_self _ _).trans_lt (Nat.sub_one_lt_of_lt hn)

/-- The bytes that have left a buffer, when some have left it before. -/
theorem written_add (bufsiz n m : ℕ) :
    written bufsiz (n + m) =
      written bufsiz n + written bufsiz (n - written bufsiz n + m) := by
  rcases Nat.eq_zero_or_pos n with rfl | hn
  · simp [written]
  rcases Nat.eq_zero_or_pos bufsiz with rfl | hpos
  · simp [written]
  have hdiv := Nat.div_add_mod (n - 1) bufsiz
  rw [mul_comm] at hdiv
  have hrest : n - written bufsiz n + m - 1 = (n - 1) % bufsiz + m := by
    rw [written]
    omega
  have hall : n + m - 1 =
      (n - 1) % bufsiz + m + (n - 1) / bufsiz * bufsiz := by
    omega
  rw [written, hall, Nat.add_mul_div_right _ _ hpos, add_mul, add_comm,
    written.eq_def _ (n - written bufsiz n + m), hrest, written]

theorem flushed_append_kept (bufsiz : ℕ) (bytes : List UInt8) :
    flushed bufsiz bytes ++ kept bufsiz bytes = bytes :=
  List.take_append_drop _ _

theorem append_eq_flushed_append (bufsiz : ℕ) (bytes more : List UInt8) :
    bytes ++ more = flushed bufsiz bytes ++ (kept bufsiz bytes ++ more) := by
  rw [← List.append_assoc, flushed_append_kept]

theorem flushed_length (bufsiz : ℕ) (bytes : List UInt8) :
    (flushed bufsiz bytes).length = written bufsiz bytes.length := by
  rw [flushed, List.length_take]
  exact min_eq_left (written_le _ _)

theorem kept_length (bufsiz : ℕ) (bytes : List UInt8) :
    (kept bufsiz bytes).length =
      bytes.length - written bufsiz bytes.length := by
  rw [kept, List.length_drop]

theorem flushed_append_flushed (bufsiz : ℕ) (bytes more : List UInt8) :
    flushed bufsiz bytes ++ flushed bufsiz (kept bufsiz bytes ++ more) =
      flushed bufsiz (bytes ++ more) := by
  rw [flushed.eq_def _ (bytes ++ more), List.length_append, written_add,
    append_eq_flushed_append bufsiz bytes more, ← flushed_length bufsiz bytes,
    List.take_length_add_append, flushed.eq_def _ (kept bufsiz bytes ++ more),
    List.length_append, kept_length, flushed_length]

theorem kept_kept (bufsiz : ℕ) (bytes more : List UInt8) :
    kept bufsiz (kept bufsiz bytes ++ more) = kept bufsiz (bytes ++ more) := by
  have hwhole := flushed_append_kept bufsiz (bytes ++ more)
  rw [← flushed_append_flushed, List.append_assoc,
    append_eq_flushed_append bufsiz bytes more] at hwhole
  have hrest := List.append_cancel_left hwhole
  conv_rhs at hrest =>
    rw [← flushed_append_kept bufsiz (kept bufsiz bytes ++ more)]
  rw [append_eq_flushed_append bufsiz bytes more]
  exact (List.append_cancel_left hrest).symm

/-! ## Processes -/

/-- An argument of the program: whether `fork` makes a child for it, and the
content of the file with this name, if it opens. -/
structure Argument where
  forks : Bool
  file : Option (List UInt8)

/-- Where a process is in `main`: at the message and `pipe`, in the `for` loop,
in the block of the parent, in the block of a child, at `return`, or over. -/
inductive ReaderPc
  | starting
  | forking
  | parentClosing
  | parentWriting
  | parentLeaving
  | waiting
  | taking
  | closing
  | opening
  | copying
  | passing
  | leaving
  | returning
  | exited
  | killed
  deriving DecidableEq

/-- The variables of a process: the arguments from `argv[i]` on, `pid`, which of
`pipes[0]` and `pipes[1]` it has open, what it has not read from its file, and
the buffer of `stdout`. -/
structure FileReader where
  pc : ReaderPc
  argv : List Argument
  pid : ℤ
  readEnd : Bool
  writeEnd : Bool
  unread : List UInt8
  stdout : List UInt8

/-- The bytes in the pipe, and the processes, the first one in front. -/
structure FileReaders where
  pipe : ℕ
  processes : List FileReader

/-- What a step leaves: the process, the bytes in the pipe, what went to the
output, and the child that was forked. -/
structure ReaderStep where
  process : FileReader
  pipe : ℕ
  output : List UInt8
  child : Option FileReader

def usage : Text := ascii "Program must have at least 1 argument!\n"

namespace FileReader

/-- `argv[i]`, as far as `open` can see. -/
def file (p : FileReader) : Option (List UInt8) :=
  p.argv.head?.bind Argument.file

/-- The kernel closes both ends of a process that is over. -/
def finish (p : FileReader) (pc : ReaderPc) : FileReader :=
  { p with pc, readEnd := false, writeEnd := false }

def Ended (p : FileReader) : Prop :=
  p.pc = .exited ∨ p.pc = .killed

instance (p : FileReader) : Decidable p.Ended := by
  unfold Ended
  infer_instance

end FileReader

/-! ## Steps -/

section Steps

variable (bufsiz : ℕ) (s : FileReaders) (p : FileReader)

/-- `write(pipes[1], byte, 1)`: `SIGPIPE` kills a writer when nobody has the
read end open. -/
def writeByte (pc : ReaderPc) : ReaderStep :=
  if s.processes.any (·.readEnd) then ⟨{ p with pc }, s.pipe + 1, [], none⟩
  else ⟨p.finish .killed, s.pipe, [], none⟩

/-- The `for` loop: one `fork`, or the branches on `pid` behind the loop. -/
def forkNext : ReaderStep :=
  match p.argv with
  | [] =>
      let pc :=
        if 0 < p.pid then ReaderPc.parentClosing
        else if p.pid = 0 then .taking else .waiting
      ⟨{ p with pc }, s.pipe, [], none⟩
  | a :: argv =>
      if a.forks then
        ⟨{ p with argv, pid := 1 }, s.pipe, [],
          some { p with pc := .taking, pid := 0 }⟩
      else ⟨{ p with argv, pid := -1 }, s.pipe, [], none⟩

/-- One step of a process.  A `read` of the file that does not reach its end
returns between 1 and 512 bytes; the `printf` behind it carries them. -/
def readerStep (bytesRead : ℕ) : Option ReaderStep :=
  match p.pc with
  | .starting =>
      let printed := if p.argv.isEmpty then usage else []
      some ⟨{ p with pc := .forking, stdout := kept bufsiz printed }, s.pipe,
        flushed bufsiz printed, none⟩
  | .forking => some (forkNext s p)
  | .parentClosing =>
      some ⟨{ p with pc := .parentWriting, readEnd := false }, s.pipe, [], none⟩
  | .parentWriting => some (writeByte s p .parentLeaving)
  | .parentLeaving =>
      some ⟨{ p with pc := .waiting, writeEnd := false }, s.pipe, [], none⟩
  | .waiting =>
      -- `wait` fails when no child is left
      if ∀ q ∈ s.processes.tail, q.Ended then
        some ⟨{ p with pc := .returning }, s.pipe, [], none⟩
      else none
  | .taking =>
      if 0 < s.pipe then
        some ⟨{ p with pc := .closing }, s.pipe - 1, [], none⟩
      else if s.processes.any (·.writeEnd) then none
      else some ⟨{ p with pc := .closing }, s.pipe, [], none⟩
  | .closing =>
      some ⟨{ p with pc := .opening, readEnd := false }, s.pipe, [], none⟩
  | .opening =>
      match p.file with
      | none => some ⟨{ p with pc := .returning }, s.pipe, [], none⟩
      | some content =>
          some ⟨{ p with pc := .copying, unread := content }, s.pipe, [], none⟩
  | .copying =>
      if p.unread = [] then
        some ⟨{ p with pc := .passing }, s.pipe, [], none⟩
      else if 1 ≤ bytesRead ∧ bytesRead ≤ 512 then
        let printed := p.stdout ++ p.unread.take bytesRead
        some ⟨{ p with
            unread := p.unread.drop bytesRead
            stdout := kept bufsiz printed }, s.pipe, flushed bufsiz printed, none⟩
      else none
  | .passing => some (writeByte s p .leaving)
  | .leaving =>
      some ⟨{ p with pc := .returning, writeEnd := false }, s.pipe, [], none⟩
  | .returning =>
      some ⟨{ p.finish .exited with stdout := [] }, s.pipe, p.stdout, none⟩
  | .exited | .killed => none

end Steps

/-- The first process, with both ends of the pipe. -/
def firstReader (args : List Argument) : FileReader where
  pc := .starting
  argv := args
  pid := 0
  readEnd := true
  writeEnd := true
  unread := []
  stdout := []

/-- The program on the arguments `args`, with a stdio buffer of `bufsiz` bytes.
The events are the bytes of the output. -/
def readerSystem (bufsiz : ℕ) (args : List Argument) :
    System FileReaders UInt8 where
  init s := s = ⟨0, [firstReader args]⟩
  step s es s' := ∃ before p after bytesRead r,
    s.processes = before ++ p :: after ∧
      readerStep bufsiz s p bytesRead = some r ∧ es = r.output ∧
      s' = ⟨r.pipe, before ++ r.process :: (after ++ r.child.toList)⟩

/-- `pid` behind the `for` loop. -/
def lastPid (pid : ℤ) : List Argument → ℤ
  | [] => pid
  | a :: argv => lastPid (if a.forks then 1 else -1) argv

/-! ## What a step can do -/

/-- The steps of a process, with what they need and what they leave. -/
inductive ReaderMove (bufsiz : ℕ) (s : FileReaders) (p : FileReader) :
    ReaderStep → Prop
  | starts (printed : List UInt8) (hpc : p.pc = .starting)
      (hprinted : printed = if p.argv.isEmpty then usage else []) :
      ReaderMove bufsiz s p
        ⟨{ p with pc := .forking, stdout := kept bufsiz printed }, s.pipe,
          flushed bufsiz printed, none⟩
  | forks (a : Argument) (argv : List Argument) (hpc : p.pc = .forking)
      (hargv : p.argv = a :: argv) (ha : a.forks = true) :
      ReaderMove bufsiz s p
        ⟨{ p with argv, pid := 1 }, s.pipe, [],
          some { p with pc := .taking, pid := 0 }⟩
  | forkFails (a : Argument) (argv : List Argument) (hpc : p.pc = .forking)
      (hargv : p.argv = a :: argv) (ha : a.forks = false) :
      ReaderMove bufsiz s p ⟨{ p with argv, pid := -1 }, s.pipe, [], none⟩
  | isParent (hpc : p.pc = .forking) (hargv : p.argv = []) (hpid : 0 < p.pid) :
      ReaderMove bufsiz s p
        ⟨{ p with pc := .parentClosing }, s.pipe, [], none⟩
  | isChild (hpc : p.pc = .forking) (hargv : p.argv = []) (hpid : p.pid = 0) :
      ReaderMove bufsiz s p ⟨{ p with pc := .taking }, s.pipe, [], none⟩
  | isNeither (hpc : p.pc = .forking) (hargv : p.argv = []) (hpid : p.pid < 0) :
      ReaderMove bufsiz s p ⟨{ p with pc := .waiting }, s.pipe, [], none⟩
  | parentCloses (hpc : p.pc = .parentClosing) :
      ReaderMove bufsiz s p
        ⟨{ p with pc := .parentWriting, readEnd := false }, s.pipe, [], none⟩
  | parentWrites (hpc : p.pc = .parentWriting) :
      ReaderMove bufsiz s p
        ⟨{ p with pc := .parentLeaving }, s.pipe + 1, [], none⟩
  | parentLeaves (hpc : p.pc = .parentLeaving) :
      ReaderMove bufsiz s p
        ⟨{ p with pc := .waiting, writeEnd := false }, s.pipe, [], none⟩
  | waited (hpc : p.pc = .waiting) (hended : ∀ q ∈ s.processes.tail, q.Ended) :
      ReaderMove bufsiz s p ⟨{ p with pc := .returning }, s.pipe, [], none⟩
  | takes (hpc : p.pc = .taking) (hpipe : 0 < s.pipe) :
      ReaderMove bufsiz s p ⟨{ p with pc := .closing }, s.pipe - 1, [], none⟩
  | endOfFile (hpc : p.pc = .taking)
      (hends : ∀ q ∈ s.processes, q.writeEnd = false) :
      ReaderMove bufsiz s p ⟨{ p with pc := .closing }, s.pipe, [], none⟩
  | closes (hpc : p.pc = .closing) :
      ReaderMove bufsiz s p
        ⟨{ p with pc := .opening, readEnd := false }, s.pipe, [], none⟩
  | openFails (hpc : p.pc = .opening) (hfile : p.file = none) :
      ReaderMove bufsiz s p ⟨{ p with pc := .returning }, s.pipe, [], none⟩
  | opens (content : List UInt8) (hpc : p.pc = .opening)
      (hfile : p.file = some content) :
      ReaderMove bufsiz s p
        ⟨{ p with pc := .copying, unread := content }, s.pipe, [], none⟩
  | copied (hpc : p.pc = .copying) (hunread : p.unread = []) :
      ReaderMove bufsiz s p ⟨{ p with pc := .passing }, s.pipe, [], none⟩
  | copies (bytesRead : ℕ) (hpc : p.pc = .copying) (hunread : p.unread ≠ [])
      (hpos : 1 ≤ bytesRead) (hle : bytesRead ≤ 512) :
      ReaderMove bufsiz s p
        ⟨{ p with
            unread := p.unread.drop bytesRead
            stdout := kept bufsiz (p.stdout ++ p.unread.take bytesRead) },
          s.pipe, flushed bufsiz (p.stdout ++ p.unread.take bytesRead), none⟩
  | passes (hpc : p.pc = .passing) :
      ReaderMove bufsiz s p ⟨{ p with pc := .leaving }, s.pipe + 1, [], none⟩
  | brokenPipe (hpc : p.pc = .parentWriting ∨ p.pc = .passing)
      (hends : ∀ q ∈ s.processes, q.readEnd = false) :
      ReaderMove bufsiz s p ⟨p.finish .killed, s.pipe, [], none⟩
  | leaves (hpc : p.pc = .leaving) :
      ReaderMove bufsiz s p
        ⟨{ p with pc := .returning, writeEnd := false }, s.pipe, [], none⟩
  | returns (hpc : p.pc = .returning) :
      ReaderMove bufsiz s p
        ⟨{ p.finish .exited with stdout := [] }, s.pipe, p.stdout, none⟩

section Moves

variable {bufsiz : ℕ} {s : FileReaders} {p : FileReader} {r : ReaderStep}

theorem forkNext_move (hpc : p.pc = .forking) :
    ReaderMove bufsiz s p (forkNext s p) := by
  unfold forkNext
  split
  next hargv =>
    by_cases hpos : 0 < p.pid
    · rw [if_pos hpos]
      exact .isParent hpc hargv hpos
    rw [if_neg hpos]
    by_cases hzero : p.pid = 0
    · rw [if_pos hzero]
      exact .isChild hpc hargv hzero
    · rw [if_neg hzero]
      exact .isNeither hpc hargv (by omega)
  next a argv hargv =>
    split
    next ha => exact .forks a argv hpc hargv ha
    next ha => exact .forkFails a argv hpc hargv (by simpa using ha)

theorem readerStep_move {bytesRead : ℕ}
    (h : readerStep bufsiz s p bytesRead = some r) :
    ReaderMove bufsiz s p r := by
  unfold readerStep at h
  split at h <;> rename_i hpc
  · obtain rfl := Option.some.inj h
    exact .starts _ hpc rfl
  · obtain rfl := Option.some.inj h
    exact forkNext_move hpc
  · obtain rfl := Option.some.inj h
    exact .parentCloses hpc
  · obtain rfl := Option.some.inj h
    unfold writeByte
    split
    next => exact .parentWrites hpc
    next hends => exact .brokenPipe (Or.inl hpc) (by simpa using hends)
  · obtain rfl := Option.some.inj h
    exact .parentLeaves hpc
  · split at h
    next hended =>
      obtain rfl := Option.some.inj h
      exact .waited hpc hended
    next => simp at h
  · split at h
    next hpipe =>
      obtain rfl := Option.some.inj h
      exact .takes hpc hpipe
    next =>
      split at h
      next => simp at h
      next hends =>
        obtain rfl := Option.some.inj h
        exact .endOfFile hpc (by simpa using hends)
  · obtain rfl := Option.some.inj h
    exact .closes hpc
  · split at h
    next hfile =>
      obtain rfl := Option.some.inj h
      exact .openFails hpc hfile
    next content hfile =>
      obtain rfl := Option.some.inj h
      exact .opens content hpc hfile
  · split at h
    next hunread =>
      obtain rfl := Option.some.inj h
      exact .copied hpc hunread
    next hunread =>
      split at h
      next hk =>
        obtain rfl := Option.some.inj h
        exact .copies bytesRead hpc hunread hk.1 hk.2
      next => simp at h
  · obtain rfl := Option.some.inj h
    unfold writeByte
    split
    next => exact .passes hpc
    next hends => exact .brokenPipe (Or.inr hpc) (by simpa using hends)
  · obtain rfl := Option.some.inj h
    exact .leaves hpc
  · obtain rfl := Option.some.inj h
    exact .returns hpc
  · simp at h
  · simp at h

end Moves

/-! ## Runs end -/

/-- More than the number of steps that the loop with these arguments left, and
the children that it forks, can make. -/
def loopRank : List Argument → ℕ
  | [] => 8
  | a :: argv => 9 + (a.file.getD []).length + loopRank argv

namespace FileReader

/-- A bound on the steps that a process and the children it will fork can
make. -/
def rank (p : FileReader) : ℕ :=
  match p.pc with
  | .starting => loopRank p.argv + 1
  | .forking => loopRank p.argv
  | .parentClosing => 5
  | .parentWriting => 4
  | .parentLeaving => 3
  | .waiting => 2
  | .taking => 7 + (p.file.getD []).length
  | .closing => 6 + (p.file.getD []).length
  | .opening => 5 + (p.file.getD []).length
  | .copying => 4 + p.unread.length
  | .passing => 3
  | .leaving => 2
  | .returning => 1
  | .exited | .killed => 0

end FileReader

theorem ReaderMove.rank_lt {bufsiz : ℕ} {s : FileReaders} {p : FileReader}
    {r : ReaderStep} (h : ReaderMove bufsiz s p r) :
    r.process.rank + (r.child.toList.map FileReader.rank).sum < p.rank := by
  cases h with
  | forks a argv hpc hargv ha =>
      simp only [FileReader.rank, FileReader.file, hpc, hargv, loopRank,
        Option.toList_some, List.map_cons, List.map_nil, List.sum_cons,
        List.sum_nil, List.head?_cons, Option.bind_some]
      omega
  | openFails hpc hfile =>
      simp only [FileReader.rank, hpc, Option.toList_none, List.map_nil,
        List.sum_nil]
      omega
  | copies bytesRead hpc hunread hpos hle =>
      have hlen := List.length_pos_of_ne_nil hunread
      simp only [FileReader.rank, hpc, Option.toList_none, List.map_nil,
        List.sum_nil, List.length_drop]
      omega
  | brokenPipe hpc hends =>
      rcases hpc with hpc | hpc
      all_goals simp [FileReader.rank, FileReader.finish, hpc]
  | _ => simp_all [FileReader.rank, FileReader.file, FileReader.finish, loopRank]

/-- Every step of the program lowers the rank of its processes, so no run goes
on for ever. -/
theorem readerSystem_rank_lt (bufsiz : ℕ) (args : List Argument)
    (s : FileReaders) (es : List UInt8) (s' : FileReaders)
    (h : (readerSystem bufsiz args).step s es s') :
    (s'.processes.map FileReader.rank).sum <
      (s.processes.map FileReader.rank).sum := by
  obtain ⟨before, p, after, bytesRead, r, hsplit, hstep, -, rfl⟩ := h
  have hlt := (readerStep_move hstep).rank_lt
  simp only [hsplit, List.map_append, List.map_cons, List.sum_append,
    List.sum_cons]
  omega

/-! ## The loop -/

section Loop

variable {bufsiz : ℕ} {args : List Argument}

/-- A step of the process between `before` and `after`. -/
theorem reader_step {pipe : ℕ} {before after : List FileReader}
    {p : FileReader} {bytesRead : ℕ} {r : ReaderStep}
    (h : readerStep bufsiz ⟨pipe, before ++ p :: after⟩ p bytesRead = some r) :
    (readerSystem bufsiz args).step ⟨pipe, before ++ p :: after⟩ r.output
      ⟨r.pipe, before ++ r.process :: (after ++ r.child.toList)⟩ :=
  ⟨before, p, after, bytesRead, r, rfl, h, rfl, rfl⟩

/-- The same for a step that is not a `fork`. -/
theorem reader_moves {pipe pipe' : ℕ} {before after : List FileReader}
    {p p' : FileReader} {bytesRead : ℕ} {output : List UInt8}
    (h : readerStep bufsiz ⟨pipe, before ++ p :: after⟩ p bytesRead =
      some ⟨p', pipe', output, none⟩) :
    (readerSystem bufsiz args).step ⟨pipe, before ++ p :: after⟩ output
      ⟨pipe', before ++ p' :: after⟩ := by
  have hstep : (readerSystem bufsiz args).step _ _ _ := reader_step h
  simpa using hstep

/-- A child in front of the pipe, whose arguments begin with its own. -/
def forkedReader (argv : List Argument) : FileReader where
  pc := .taking
  argv := argv
  pid := 0
  readEnd := true
  writeEnd := true
  unread := []
  stdout := []

/-- The children that the loop forks. -/
def forkedReaders : List Argument → List FileReader
  | [] => []
  | a :: argv =>
      if a.forks then forkedReader (a :: argv) :: forkedReaders argv
      else forkedReaders argv

/-- The first process in the loop. -/
def loopReader (pid : ℤ) (argv : List Argument) : FileReader where
  pc := .forking
  argv := argv
  pid := pid
  readEnd := true
  writeEnd := true
  unread := []
  stdout := []

theorem run_loop (pid : ℤ) (argv : List Argument) (cs : List FileReader) :
    (readerSystem bufsiz args).Run ⟨0, loopReader pid argv :: cs⟩ []
      ⟨0, loopReader (lastPid pid argv) [] :: (cs ++ forkedReaders argv)⟩ := by
  induction argv generalizing pid cs with
  | nil =>
      rw [forkedReaders, List.append_nil]
      exact .refl
  | cons a argv ih =>
      by_cases ha : a.forks = true
      · have hfork : readerStep bufsiz ⟨0, [] ++ loopReader pid (a :: argv) :: cs⟩
            (loopReader pid (a :: argv)) 0 =
              some ⟨loopReader 1 argv, 0, [], some (forkedReader (a :: argv))⟩ := by
          simp [readerStep, forkNext, loopReader, forkedReader, ha]
        have hrest := ih 1 (cs ++ [forkedReader (a :: argv)])
        rw [lastPid, if_pos ha, forkedReaders, if_pos ha]
        rw [List.append_assoc, List.singleton_append] at hrest
        exact System.Run.head (reader_step hfork) hrest
      · have hfork : readerStep bufsiz ⟨0, [] ++ loopReader pid (a :: argv) :: cs⟩
            (loopReader pid (a :: argv)) 0 =
              some ⟨loopReader (-1) argv, 0, [], none⟩ := by
          simp [readerStep, forkNext, loopReader, ha]
        have hrest := ih (-1) cs
        rw [lastPid, if_neg ha, forkedReaders, if_neg ha]
        exact System.Run.head (reader_moves hfork) hrest

/-- The first process behind the message, without arguments. -/
def loneReader (bufsiz : ℕ) (pc : ReaderPc) : FileReader where
  pc := pc
  argv := []
  pid := 0
  readEnd := true
  writeEnd := true
  unread := []
  stdout := kept bufsiz usage

/-- Without arguments the first process ends up in front of the pipe. -/
theorem exec_lone :
    (readerSystem bufsiz []).Exec (flushed bufsiz usage)
      ⟨0, [loneReader bufsiz .taking]⟩ := by
  have hstart : readerStep bufsiz ⟨0, [] ++ firstReader [] :: []⟩
      (firstReader []) 0 =
        some ⟨loneReader bufsiz .forking, 0, flushed bufsiz usage, none⟩ := rfl
  have hbranch : readerStep bufsiz
      ⟨0, [] ++ loneReader bufsiz .forking :: []⟩
      (loneReader bufsiz .forking) 0 =
        some ⟨loneReader bufsiz .taking, 0, [], none⟩ := rfl
  have hexec := ((System.Exec.init rfl).step (reader_moves hstart)).step
    (reader_moves hbranch)
  simpa using hexec

theorem final_lone :
    (readerSystem bufsiz []).Final ⟨0, [loneReader bufsiz .taking]⟩ := by
  rintro es s' ⟨before, p, after, bytesRead, r, hsplit, hstep, -⟩
  simp only at hsplit
  have hp : p ∈ [loneReader bufsiz .taking] := by
    simp [hsplit]
  rw [List.mem_singleton.mp hp] at hstep
  simp [readerStep, loneReader] at hstep

/-- The first process comes to the end of the loop. -/
theorem exec_loop (hargs : args ≠ []) :
    (readerSystem bufsiz args).Exec []
      ⟨0, loopReader (lastPid 0 args) [] :: forkedReaders args⟩ := by
  have hstart : readerStep bufsiz ⟨0, [] ++ firstReader args :: []⟩
      (firstReader args) 0 = some ⟨loopReader 0 args, 0, [], none⟩ := by
    obtain ⟨a, args, rfl⟩ := List.exists_cons_of_ne_nil hargs
    simp [readerStep, firstReader, loopReader, flushed, kept]
  exact ((System.Exec.init rfl).step (reader_moves hstart)).run
    (run_loop 0 args [])

theorem mem_forkedReaders {c : FileReader} (hc : c ∈ forkedReaders args) :
    ∃ argv, c = forkedReader argv := by
  induction args with
  | nil => simp [forkedReaders] at hc
  | cons a args ih =>
      rw [forkedReaders] at hc
      split at hc
      next =>
        rcases List.mem_cons.mp hc with rfl | hc
        · exact ⟨_, rfl⟩
        · exact ih hc
      next => exact ih hc

/-- There is a child for each argument with a `fork` that makes one. -/
theorem forkedReaders_map_file (args : List Argument) :
    (forkedReaders args).map FileReader.file =
      (args.filter Argument.forks).map Argument.file := by
  induction args with
  | nil => rfl
  | cons a args ih =>
      by_cases ha : a.forks = true
      · rw [forkedReaders, if_pos ha, List.filter_cons_of_pos ha, List.map_cons,
          List.map_cons, ih]
        rfl
      · rw [forkedReaders, if_neg ha, List.filter_cons_of_neg ha, ih]

/-- The first process behind the loop, at `pc`. -/
def parentReader (pc : ReaderPc) (readEnd writeEnd : Bool) (args : List Argument) :
    FileReader where
  pc := pc
  argv := []
  pid := lastPid 0 args
  readEnd := readEnd
  writeEnd := writeEnd
  unread := []
  stdout := []

/-- The parent writes the turn before any child runs. -/
theorem exec_parent (hpid : 0 < lastPid 0 args)
    (hsome : forkedReaders args ≠ []) :
    (readerSystem bufsiz args).Exec []
      ⟨1, parentReader .parentLeaving false true args :: forkedReaders args⟩ := by
  have hargs : args ≠ [] := by
    rintro rfl
    exact hsome rfl
  have hbranch : readerStep bufsiz
      ⟨0, [] ++ loopReader (lastPid 0 args) [] :: forkedReaders args⟩
      (loopReader (lastPid 0 args) []) 0 =
        some ⟨parentReader .parentClosing true true args, 0, [], none⟩ := by
    simp [readerStep, forkNext, loopReader, parentReader, hpid]
  have hclose : readerStep bufsiz
      ⟨0, [] ++ parentReader .parentClosing true true args :: forkedReaders args⟩
      (parentReader .parentClosing true true args) 0 =
        some ⟨parentReader .parentWriting false true args, 0, [], none⟩ := rfl
  have hwrite : readerStep bufsiz
      ⟨0, [] ++ parentReader .parentWriting false true args :: forkedReaders args⟩
      (parentReader .parentWriting false true args) 0 =
        some ⟨parentReader .parentLeaving false true args, 1, [], none⟩ := by
    obtain ⟨c, hc⟩ := List.exists_mem_of_ne_nil _ hsome
    obtain ⟨argv, rfl⟩ := mem_forkedReaders hc
    have hread : (forkedReaders args).any (·.readEnd) = true :=
      List.any_eq_true.mpr ⟨_, hc, rfl⟩
    simp [readerStep, writeByte, parentReader, hread]
  exact (((exec_loop hargs).step (reader_moves hbranch)).step
    (reader_moves hclose)).step (reader_moves hwrite)

/-- A child that has closed its read end. -/
def turnReader (pc : ReaderPc) (argv : List Argument)
    (unread stdout : List UInt8) : FileReader where
  pc := pc
  argv := argv
  pid := 0
  readEnd := false
  writeEnd := true
  unread := unread
  stdout := stdout

theorem writeByte_of_reader {s : FileReaders}
    (h : ∃ q ∈ s.processes, q.readEnd = true) (p : FileReader) (pc : ReaderPc) :
    writeByte s p pc = ⟨{ p with pc }, s.pipe + 1, [], none⟩ :=
  if_pos (List.any_eq_true.mpr h)

theorem writeByte_of_nobody {s : FileReaders}
    (h : ∀ q ∈ s.processes, q.readEnd = false) (p : FileReader) (pc : ReaderPc) :
    writeByte s p pc = ⟨p.finish .killed, s.pipe, [], none⟩ := by
  refine if_neg ?_
  rw [List.any_eq_true]
  rintro ⟨q, hq, hread⟩
  rw [h q hq] at hread
  contradiction

/-- A child takes the turn. -/
theorem run_take {before after : List FileReader} {argv : List Argument} :
    (readerSystem bufsiz args).Run
      ⟨1, before ++ forkedReader argv :: after⟩ []
      ⟨0, before ++ turnReader .opening argv [] [] :: after⟩ := by
  have htake : readerStep bufsiz ⟨1, before ++ forkedReader argv :: after⟩
      (forkedReader argv) 0 =
        some ⟨{ forkedReader argv with pc := .closing }, 0, [], none⟩ := rfl
  have hclose : readerStep bufsiz
      ⟨0, before ++ { forkedReader argv with pc := .closing } :: after⟩
      { forkedReader argv with pc := .closing } 0 =
        some ⟨turnReader .opening argv [] [], 0, [], none⟩ := rfl
  exact (System.Run.single (reader_moves htake)).tail (reader_moves hclose)

end Loop

end Pvos.PipeThreads
