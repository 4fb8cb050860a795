import Pvos.PipeThreads.Readers
import Pvos.PipeThreads.Returned
import Pvos.Support.System

/-!
# Threads that read files, and their join

`main` of `pipe-threads-cv2/threads_file_read.cpp` creates a thread for each of
its arguments, in which `read_file` runs at its own pace, and joins the threads
in the order of the arguments.  It does not look at what `pthread_create`
returns.  Where that fails `join_handle` holds nothing that can be joined.

An event is the text of a `printf`.  The content of a file that does not open
is a null pointer.
-/

namespace Pvos.PipeThreads

open Pvos.Support

/-! ## The processes -/

/-- An argument: its file, and whether `pthread_create` and `open` succeed. -/
structure ThreadArgument extends FileThread where
  creates : Bool
  opens : Bool

/-- What `printf("%s", file_content)` prints. -/
def printedContent : Option FileReading → Text
  | none => ascii "(null)"
  | some s => s.printed

namespace ThreadArgument

/-- What `read_file` returns. -/
def content (a : ThreadArgument) : Option FileReading :=
  if a.opens then some a.result else none

def prints (a : ThreadArgument) : Text :=
  printedContent a.content

end ThreadArgument

/-- A thread that was not created, or is somewhere in `read_file`, or has
returned, or was joined. -/
inductive FileThreadPc
  | uncreated
  | opening
  | reading (s : FileReading) (reads : List FileRead)
  | returned (content : Option FileReading)
  | joined

/-- `main` prints the usage, is in one of its loops, or has returned; or it
joins a handle behind which there is no thread. -/
inductive JoinPc
  | starting
  | creating (i : ℕ)
  | joining (i : ℕ)
  | returned
  | misjoins (i : ℕ)
  deriving DecidableEq

/-- `handles`, and the thread of each argument. -/
structure FileMain where
  pc : JoinPc
  handles : List (Option ℕ)
  threads : ℕ → FileThreadPc

/-- A step of `read_file`; the loop reads and copies in one. -/
def ThreadArgument.threadStep (a : ThreadArgument) :
    FileThreadPc → Option FileThreadPc
  | .opening =>
      some (if a.opens then .reading (.start a.heap a.buf) (wholeReads a.pieces)
        else .returned none)
  | .reading s (r :: reads) =>
      some (if 0 < r.bytesRead then .reading (s.iteration a.heap r) reads
        else .returned (some (s.iteration a.heap r).terminated))
  | _ => none

namespace FileMain

/-- A pass of the first loop. -/
def createStep (args : List ThreadArgument) (s : FileMain) (i : ℕ) : FileMain :=
  match args[i]? with
  | none => { s with pc := .joining 0 }
  | some a =>
      if a.creates then
        { pc := .creating (i + 1)
          handles := s.handles ++ [some i]
          threads := Function.update s.threads i .opening }
      else
        { s with pc := .creating (i + 1), handles := s.handles ++ [none] }

/-- A pass of the second loop; `pthread_join` waits for its thread. -/
def joinStep (args : List ThreadArgument) (s : FileMain) (i : ℕ) :
    Option (FileMain × List Text) :=
  if i < args.length then
    match s.handles[i]? with
    | some (some t) =>
        match s.threads t with
        | .returned content =>
            some
              ({ s with
                  pc := .joining (i + 1)
                  threads := Function.update s.threads t .joined },
                [printedContent content])
        | .joined | .uncreated => some ({ s with pc := .misjoins i }, [])
        | _ => none
    | _ => some ({ s with pc := .misjoins i }, [])
  else some ({ s with pc := .returned }, [])

/-- A step of `main`. -/
def mainStep (args : List ThreadArgument) (s : FileMain) :
    Option (FileMain × List Text) :=
  match s.pc with
  | .starting =>
      some ({ s with pc := .creating 0 }, if args = [] then [usage] else [])
  | .creating i => some (s.createStep args i, [])
  | .joining i => s.joinStep args i
  | .returned | .misjoins _ => none

/-- A step of the thread of an argument. -/
def readerThreadStep (args : List ThreadArgument) (s : FileMain) (j : ℕ) :
    Option (FileMain × List Text) :=
  args[j]?.bind fun a => (a.threadStep (s.threads j)).map fun pc =>
    ({ s with threads := Function.update s.threads j pc }, [])

end FileMain

/-- `main` makes a step, or the thread of an argument. -/
def forkJoinStep (args : List ThreadArgument) (s : FileMain) :
    Option ℕ → Option (FileMain × List Text)
  | none => s.mainStep args
  | some j => s.readerThreadStep args j

def FileMain.start : FileMain where
  pc := .starting
  handles := []
  threads := fun _ => .uncreated

def forkJoinSystem (args : List ThreadArgument) : System FileMain Text where
  init s := s = .start
  step s es s' := ∃ who, forkJoinStep args s who = some (s', es)

/-! ## What is printed -/

/-- The arguments in front of the first one whose thread cannot be created. -/
def joinable (args : List ThreadArgument) : List ThreadArgument :=
  args.takeWhile ThreadArgument.creates

/-- What `main` prints when it has joined these threads. -/
def joinedPrints (args joined : List ThreadArgument) : List Text :=
  (if args = [] then [usage] else []) ++ joined.map ThreadArgument.prints

/-- Files that open are printed as by `filePrints`. -/
theorem flatten_prints {args : List ThreadArgument}
    (hopens : ∀ a ∈ args, a.opens = true) :
    (args.map ThreadArgument.prints).flatten =
      filePrints (args.map ThreadArgument.toFileThread) := by
  unfold filePrints
  rw [List.flatMap_map, List.flatMap]
  congr 1
  refine List.map_congr_left fun a ha => ?_
  unfold ThreadArgument.prints ThreadArgument.content
  rw [if_pos (hopens a ha)]
  rfl

/-- Arguments whose threads were created, from the first one on. -/
theorem take_joinable {args : List ThreadArgument} {n : ℕ}
    (hcreates : ∀ a ∈ args.take n, a.creates = true) :
    args.take n <+: joinable args := by
  refine ⟨(args.drop n).takeWhile ThreadArgument.creates, ?_⟩
  rw [joinable, ← List.takeWhile_append_of_pos hcreates,
    List.take_append_drop]

/-! ## A thread -/

/-- What a thread is going to return is what `read_file` returns. -/
def ThreadArgument.OnTheWay (a : ThreadArgument) : FileThreadPc → Prop
  | .reading s reads => a.opens = true ∧
      s.readLoop a.heap reads =
        (FileReading.start a.heap a.buf).readLoop a.heap (wholeReads a.pieces) ∧
      ∃ pieces, reads = wholeReads pieces
  | .returned content => content = a.content
  | _ => True

/-- The steps that a thread still makes, at most. -/
def ThreadArgument.threadRank (a : ThreadArgument) : FileThreadPc → ℕ
  | .uncreated | .opening => a.pieces.length + 2
  | .reading _ reads => reads.length
  | .returned _ | .joined => 0

/-- A thread neither appears nor disappears by its own steps. -/
def FileThreadPc.Runs : FileThreadPc → Prop
  | .uncreated | .joined => False
  | _ => True

section Thread

variable {a : ThreadArgument} {pc pc' : FileThreadPc}

theorem threadStep_spec (hway : a.OnTheWay pc)
    (h : a.threadStep pc = some pc') :
    a.OnTheWay pc' ∧ a.threadRank pc' < a.threadRank pc ∧ pc.Runs ∧
      pc'.Runs := by
  cases pc with
  | opening =>
      obtain rfl := Option.some.inj h
      cases hopens : a.opens with
      | true =>
          refine ⟨⟨hopens, rfl, a.pieces, rfl⟩, ?_, trivial, trivial⟩
          simp [ThreadArgument.threadRank, wholeReads]
      | false =>
          refine ⟨?_, ?_, trivial, trivial⟩
          · simp [ThreadArgument.OnTheWay, ThreadArgument.content, hopens]
          · simp [ThreadArgument.threadRank]
  | reading s reads =>
      obtain ⟨hopens, hloop, pieces, hpieces⟩ := hway
      cases reads with
      | nil => simp [ThreadArgument.threadStep] at h
      | cons r reads =>
          obtain rfl := Option.some.inj h
          rw [FileReading.readLoop] at hloop
          split
          next hmore =>
            rw [if_pos hmore] at hloop
            refine ⟨⟨hopens, hloop, ?_⟩, Nat.lt_succ_self _, trivial, trivial⟩
            cases pieces with
            | nil =>
                -- The `read` behind the last piece brings nothing.
                obtain ⟨rfl, -⟩ := List.cons.inj hpieces
                simp [FileRead.bytesRead] at hmore
            | cons piece pieces => exact ⟨pieces, (List.cons.inj hpieces).2⟩
          next hmore =>
            rw [if_neg hmore] at hloop
            refine ⟨?_, Nat.succ_pos _, trivial, trivial⟩
            show some (s.iteration a.heap r).terminated = a.content
            rw [hloop, ThreadArgument.content, if_pos hopens]
            rfl
  | uncreated | returned content | joined =>
      simp [ThreadArgument.threadStep] at h

/-- A thread that has been created and not returned makes a step. -/
theorem exists_threadStep (hway : a.OnTheWay pc) (hruns : pc.Runs)
    (hnot : ∀ content, pc ≠ .returned content) :
    ∃ pc', a.threadStep pc = some pc' := by
  cases pc with
  | opening => exact ⟨_, rfl⟩
  | reading s reads =>
      obtain ⟨-, -, pieces, rfl⟩ := hway
      cases pieces with
      | nil => exact ⟨_, rfl⟩
      | cons piece pieces => exact ⟨_, rfl⟩
  | returned content => exact absurd rfl (hnot content)
  | uncreated | joined => exact hruns.elim

end Thread

end Pvos.PipeThreads
