import Pvos.Support.Steps
import Pvos.Support.Text
import Mathlib.Logic.Function.Basic

/-!
# `ls | tr a-z A-Z`

`main` of `pipe-redirect-pr2/main.cpp` does what a shell does for a pipeline.
It creates a pipe and forks two children; each of them closes the end of the
pipe that it does not use, puts the other one in the place of its stdout or its
stdin, and executes a program.  The parent closes both ends and waits for its
children.

Every process has a table of descriptors, which a child copies from its parent.
The end of the file and `SIGPIPE` depend on which ends are open in some table.
A history here is what the terminal shows.

The shell has started `main` with descriptors 0, 1 and 2 on the terminal and no
other one, so that the pipe gets 3 and 4.  `ls` and `tr` leave the descriptors
they inherit alone and write nothing to `stderr`.
-/

namespace Pvos.PipeRedirect

open Pvos.Support

/-! ## Descriptors -/

/-- What a descriptor stands for. -/
inductive Target
  | closed
  | terminal
  | readEnd
  | writeEnd
  deriving DecidableEq

abbrev Fds := ℕ → Target

/-- The table behind `pipe`, which takes the first two free descriptors. -/
def pipeFds : Fds
  | 0 | 1 | 2 => .terminal
  | 3 => .readEnd
  | 4 => .writeEnd
  | _ => .closed

def close (fds : Fds) (fd : ℕ) : Fds :=
  Function.update fds fd .closed

def dup2 (fds : Fds) (fd fd' : ℕ) : Fds :=
  Function.update fds fd' (fds fd)

/-- The end is open in the table. -/
def holds (fds : Fds) (end' : Target) : Bool :=
  (List.range 5).any fun fd => fds fd = end'

/-! ## Processes -/

/-- The next call of the parent. -/
inductive ParentPc
  | forkLs
  | forkTr
  | closeRead
  | closeWrite
  | waitFirst
  | waitSecond
  | closeAgain
  | exited
  deriving DecidableEq

/-- The next call of a child: it prepares its descriptors and executes its
program.  A program reads and writes, or it only has to write the rest of its
output. -/
inductive ChildPc
  | closeUnused
  | dup
  | closeUsed
  | exec
  | filters
  | writes
  | exited
  deriving DecidableEq

/-- A child, with the output that its program holds. -/
structure Child where
  pc : ChildPc
  fds : Fds
  todo : List UInt8

/-- The processes and the content of the pipe; `collected` counts the children
that `wait` has returned. -/
structure Shell where
  parent : ParentPc
  fds : Fds
  ls : Option Child
  tr : Option Child
  collected : ℕ
  pipe : List UInt8

/-- Which of the `fork`s and of the `execlp`s succeed, and what the two programs
do: the bytes that `ls` lists, and what `tr` writes for a byte that it reads. -/
structure Outcomes where
  forkLs : Bool
  forkTr : Bool
  execLs : Bool
  execTr : Bool
  listing : List UInt8
  translate : UInt8 → UInt8

/-- What the first child writes: behind an `execlp` that failed its own
message. -/
def Outcomes.source (o : Outcomes) : List UInt8 :=
  if o.execLs then o.listing else ascii "If here, something got wrong!...\n"

/-- The message of the second child. -/
def trFailed : Text := ascii "If here, something is wrong...\n"

namespace Child

/-- The descriptors of a process that has ended are closed. -/
def exit (c : Child) : Child :=
  { c with pc := .exited, fds := fun _ => .closed }

/-- The calls between `fork` and `execlp`; `onto` is the standard descriptor
that the end of the pipe is duplicated onto. -/
def setUp (unused used onto : ℕ) (c : Child) : Option Child :=
  match c.pc with
  | .closeUnused => some { c with pc := .dup, fds := close c.fds unused }
  | .dup => some { c with pc := .closeUsed, fds := dup2 c.fds used onto }
  | .closeUsed => some { c with pc := .exec, fds := close c.fds used }
  | _ => none

end Child

namespace Shell

def fdTables (s : Shell) : List Fds :=
  s.fds :: (s.ls.toList ++ s.tr.toList).map Child.fds

def hasReader (s : Shell) : Bool :=
  s.fdTables.any fun fds => holds fds .readEnd

def hasWriter (s : Shell) : Bool :=
  s.fdTables.any fun fds => holds fds .writeEnd

/-- The children that were forked, and the ones that have ended. -/
def children (s : Shell) : ℕ :=
  s.ls.toList.length + s.tr.toList.length

def ended (s : Shell) : ℕ :=
  ((s.ls.toList ++ s.tr.toList).filter fun c => c.pc = .exited).length

/-- `fork` copies the table. -/
def child (s : Shell) (succeeds : Bool) : Option Child :=
  if succeeds then some ⟨.closeUnused, s.fds, []⟩ else none

/-- `wait` returns when a child has ended that was not collected, and with an
error when none is left. -/
def wait (s : Shell) : Option Shell :=
  if s.collected < s.ended then some { s with collected := s.collected + 1 }
  else if s.collected = s.children then some s
  else none

/-- A step of the parent. -/
def parentStep (o : Outcomes) (s : Shell) : Option Shell :=
  match s.parent with
  | .forkLs => some { s with parent := .forkTr, ls := s.child o.forkLs }
  | .forkTr => some { s with parent := .closeRead, tr := s.child o.forkTr }
  | .closeRead => some { s with parent := .closeWrite, fds := close s.fds 3 }
  | .closeWrite => some { s with parent := .waitFirst, fds := close s.fds 4 }
  | .waitFirst => s.wait.map fun s => { s with parent := .waitSecond }
  | .waitSecond => s.wait.map fun s => { s with parent := .closeAgain }
  | .closeAgain => some { s with parent := .exited, fds := close s.fds 3 }
  | .exited => none

/-- `write` of at most `n` bytes of the output that a program holds, and its
exit behind the last one.  Without a reader `SIGPIPE` ends the process; with one
it writes what there is room for. -/
def writeStep (cap n : ℕ) (s : Shell) (c : Child) :
    Option (List UInt8 × Child × List UInt8) :=
  if c.todo = [] then some (s.pipe, c.exit, [])
  else
    match c.fds 1 with
    | .terminal =>
        if n = 0 then none
        else some (s.pipe, { c with todo := c.todo.drop n }, c.todo.take n)
    | .writeEnd =>
        if !s.hasReader then some (s.pipe, c.exit, [])
        else if n = 0 ∨ cap < s.pipe.length + n then none
        else some (s.pipe ++ c.todo.take n,
          { c with todo := c.todo.drop n }, [])
    | _ => none

/-- A step of the first child. -/
def lsStep (o : Outcomes) (cap n : ℕ) (s : Shell) (c : Child) :
    Option (List UInt8 × Child × List UInt8) :=
  match c.pc with
  | .exec => some (s.pipe, { c with pc := .writes, todo := o.source }, [])
  | .writes => s.writeStep cap n c
  | _ => (c.setUp 3 4 1).map fun c => (s.pipe, c, [])

/-- A step of the second child. -/
def trStep (o : Outcomes) (cap n : ℕ) (s : Shell) (c : Child) :
    Option (List UInt8 × Child × List UInt8) :=
  match c.pc with
  | .exec =>
      some (s.pipe, if o.execTr then { c with pc := .filters }
        else { c with pc := .writes, todo := trFailed }, [])
  | .filters => if c.todo = [] then none else s.writeStep cap n c
  | .writes => s.writeStep cap n c
  | _ => (c.setUp 4 3 0).map fun c => (s.pipe, c, [])

/-- `tr` reads at most `n` bytes from its stdin; at the end of the file it only
writes what it holds. -/
def readStep (o : Outcomes) (n : ℕ) (s : Shell) (c : Child) :
    Option (List UInt8 × Child) :=
  if c.pc = .filters ∧ c.fds 0 = .readEnd then
    if s.pipe = [] then
      if s.hasWriter then none else some (s.pipe, { c with pc := .writes })
    else if n = 0 then none
    else some (s.pipe.drop n,
      { c with todo := c.todo ++ (s.pipe.take n).map o.translate })
  else none

end Shell

/-! ## The system -/

/-- Who makes a step, and how many bytes a `read` or a `write` may move. -/
inductive Turn
  | parent
  | ls (n : ℕ)
  | tr (n : ℕ)
  | trReads (n : ℕ)

/-- What the terminal shows in a step. -/
def shellStep (o : Outcomes) (cap : ℕ) (s : Shell) :
    Turn → Option (Shell × List UInt8)
  | .parent => (s.parentStep o).map fun s => (s, [])
  | .ls n =>
      s.ls.bind fun c => (s.lsStep o cap n c).map fun (pipe, c, out) =>
        ({ s with ls := some c, pipe := pipe }, out)
  | .tr n =>
      s.tr.bind fun c => (s.trStep o cap n c).map fun (pipe, c, out) =>
        ({ s with tr := some c, pipe := pipe }, out)
  | .trReads n =>
      s.tr.bind fun c => (s.readStep o n c).map fun (pipe, c) =>
        ({ s with tr := some c, pipe := pipe }, [])

/-- Behind `pipe`. -/
def Shell.start : Shell where
  parent := .forkLs
  fds := pipeFds
  ls := none
  tr := none
  collected := 0
  pipe := []

/-- The pipe has room for `cap` bytes. -/
def shellSystem (o : Outcomes) (cap : ℕ) : System Shell UInt8 where
  init s := s = .start
  step s es s' := ∃ turn, shellStep o cap s turn = some (s', es)

end Pvos.PipeRedirect
