import Pvos.PipeRedirect.Shell

/-!
# The moves of the pipeline

A table of descriptors is determined by the next call of its process, and so
are the ends of the pipe that the process holds open.  With its table a child
has a few kinds of step, in which it moves bytes from what `ls` holds to the
pipe, from there to what `tr` holds, and to the terminal.
-/

namespace Pvos.PipeRedirect

open Pvos.Support

/-! ## Tables -/

def parentFds : ParentPc → Fds
  | .forkLs | .forkTr | .closeRead => pipeFds
  | .closeWrite => close pipeFds 3
  | .waitFirst | .waitSecond | .closeAgain => close (close pipeFds 3) 4
  | .exited => close (close (close pipeFds 3) 4) 3

def childFds (unused used onto : ℕ) : ChildPc → Fds
  | .closeUnused => pipeFds
  | .dup => close pipeFds unused
  | .closeUsed => dup2 (close pipeFds unused) used onto
  | .exec | .filters | .writes =>
      close (dup2 (close pipeFds unused) used onto) used
  | .exited => fun _ => .closed

def lsFds : ChildPc → Fds := childFds 3 4 1

def trFds : ChildPc → Fds := childFds 4 3 0

theorem parentFds_readEnd (pc : ParentPc) :
    holds (parentFds pc) .readEnd =
      (pc = .forkLs ∨ pc = .forkTr ∨ pc = .closeRead : Bool) := by
  cases pc <;> decide

theorem parentFds_writeEnd (pc : ParentPc) :
    holds (parentFds pc) .writeEnd =
      (pc = .forkLs ∨ pc = .forkTr ∨ pc = .closeRead ∨ pc = .closeWrite :
        Bool) := by
  cases pc <;> decide

theorem lsFds_writeEnd (pc : ChildPc) :
    holds (lsFds pc) .writeEnd = (pc ≠ .exited : Bool) := by
  cases pc <;> decide

theorem lsFds_readEnd (pc : ChildPc) :
    holds (lsFds pc) .readEnd = (pc = .closeUnused : Bool) := by
  cases pc <;> decide

theorem trFds_readEnd (pc : ChildPc) :
    holds (trFds pc) .readEnd = (pc ≠ .exited : Bool) := by
  cases pc <;> decide

theorem trFds_writeEnd (pc : ChildPc) :
    holds (trFds pc) .writeEnd = (pc = .closeUnused : Bool) := by
  cases pc <;> decide

/-- The calls that prepare a child. -/
theorem setUp_eq_some {unused used onto : ℕ} {c c' : Child}
    (hfds : c.fds = childFds unused used onto c.pc)
    (h : c.setUp unused used onto = some c') :
    c'.fds = childFds unused used onto c'.pc ∧ c'.todo = c.todo ∧
      ((c.pc = .closeUnused ∧ c'.pc = .dup) ∨
        (c.pc = .dup ∧ c'.pc = .closeUsed) ∨
        (c.pc = .closeUsed ∧ c'.pc = .exec)) := by
  unfold Child.setUp at h
  split at h
  next hpc =>
    obtain rfl := Option.some.inj h
    exact ⟨by rw [hfds, hpc]; rfl, rfl, Or.inl ⟨hpc, rfl⟩⟩
  next hpc =>
    obtain rfl := Option.some.inj h
    exact ⟨by rw [hfds, hpc]; rfl, rfl, Or.inr (Or.inl ⟨hpc, rfl⟩)⟩
  next hpc =>
    obtain rfl := Option.some.inj h
    exact ⟨by rw [hfds, hpc]; rfl, rfl, Or.inr (Or.inr ⟨hpc, rfl⟩)⟩
  next => simp at h

/-! ## What a child does -/

section Children

variable {o : Outcomes} {cap n : ℕ} {s : Shell} {c c' : Child}
  {pipe out : List UInt8}

/-- The steps of the first child: the program writes into the pipe. -/
inductive LsMove (o : Outcomes) (cap : ℕ) (s : Shell) (c : Child) :
    List UInt8 → Child → Prop
  | setUp {c' : Child} (htodo : c'.todo = c.todo)
      (hpc : (c.pc = .closeUnused ∧ c'.pc = .dup) ∨
        (c.pc = .dup ∧ c'.pc = .closeUsed) ∨
        (c.pc = .closeUsed ∧ c'.pc = .exec)) : LsMove o cap s c s.pipe c'
  | exec {c' : Child} (hpc : c.pc = .exec) (hpc' : c'.pc = .writes)
      (htodo : c'.todo = o.source) : LsMove o cap s c s.pipe c'
  | exits {c' : Child} (hpc : c.pc = .writes) (hpc' : c'.pc = .exited)
      (htodo : c'.todo = c.todo)
      (hend : c.todo = [] ∨ s.hasReader = false) : LsMove o cap s c s.pipe c'
  | writes {c' : Child} {n : ℕ} (hpc : c.pc = .writes) (hpc' : c'.pc = .writes)
      (htodo : c'.todo = c.todo.drop n) (hne : c.todo ≠ []) (hn : n ≠ 0) :
      LsMove o cap s c (s.pipe ++ c.todo.take n) c'

theorem lsStep_move (hfds : c.fds = lsFds c.pc)
    (h : s.lsStep o cap n c = some (pipe, c', out)) :
    c'.fds = lsFds c'.pc ∧ out = [] ∧ LsMove o cap s c pipe c' := by
  unfold Shell.lsStep at h
  split at h
  next hpc =>
    obtain ⟨rfl, rfl, rfl⟩ : s.pipe = pipe ∧ _ = c' ∧ [] = out := by
      simpa using h
    exact ⟨by rw [hfds, hpc]; rfl, rfl, .exec hpc rfl rfl⟩
  next hpc =>
    have hstdout : c.fds 1 = .writeEnd := by
      rw [hfds, hpc]
      decide
    unfold Shell.writeStep at h
    rw [hstdout] at h
    split at h
    next hnil =>
      obtain ⟨rfl, rfl, rfl⟩ : s.pipe = pipe ∧ c.exit = c' ∧ [] = out := by
        simpa using h
      exact ⟨rfl, rfl, .exits hpc rfl rfl (Or.inl hnil)⟩
    next hne =>
      dsimp only at h
      split at h
      next hreader =>
        obtain ⟨rfl, rfl, rfl⟩ : s.pipe = pipe ∧ c.exit = c' ∧ [] = out := by
          simpa using h
        exact ⟨rfl, rfl, .exits hpc rfl rfl (Or.inr (by simpa using hreader))⟩
      next =>
        split at h
        next => simp at h
        next hroom =>
          obtain ⟨rfl, rfl, rfl⟩ := by simpa using h
          exact ⟨hfds, rfl,
            .writes hpc hpc rfl hne (fun hn => hroom (Or.inl hn))⟩
  next hexec hwrites =>
    obtain ⟨c₁, hc₁, hrest⟩ := Option.map_eq_some_iff.mp h
    obtain ⟨rfl, rfl, rfl⟩ : s.pipe = pipe ∧ c₁ = c' ∧ [] = out := by
      simpa using hrest
    obtain ⟨hfds', htodo, hpc⟩ := setUp_eq_some hfds hc₁
    exact ⟨hfds', rfl, .setUp htodo hpc⟩

theorem LsMove.alive (h : LsMove o cap s c pipe c') : c.pc ≠ .exited := by
  cases h <;> grind

theorem LsMove.not_filters (h : LsMove o cap s c pipe c') :
    c'.pc ≠ .filters := by
  cases h <;> grind

/-- The steps of the second child: the program writes to the terminal. -/
inductive TrMove (o : Outcomes) (s : Shell) (c : Child) :
    List UInt8 → Child → List UInt8 → Prop
  | setUp {c' : Child} (htodo : c'.todo = c.todo)
      (hpc : (c.pc = .closeUnused ∧ c'.pc = .dup) ∨
        (c.pc = .dup ∧ c'.pc = .closeUsed) ∨
        (c.pc = .closeUsed ∧ c'.pc = .exec)) : TrMove o s c s.pipe c' []
  | exec {c' : Child} (ho : o.execTr = true) (hpc : c.pc = .exec)
      (hpc' : c'.pc = .filters) (htodo : c'.todo = c.todo) :
      TrMove o s c s.pipe c' []
  | fails {c' : Child} (ho : o.execTr = false) (hpc : c.pc = .exec)
      (hpc' : c'.pc = .writes) (htodo : c'.todo = trFailed) :
      TrMove o s c s.pipe c' []
  | exits {c' : Child} (hpc : c.pc = .writes) (hpc' : c'.pc = .exited)
      (htodo : c'.todo = c.todo) (hend : c.todo = []) :
      TrMove o s c s.pipe c' []
  | writes {c' : Child} {n : ℕ} (hpc : c.pc = .filters ∨ c.pc = .writes)
      (hpc' : c'.pc = c.pc) (htodo : c'.todo = c.todo.drop n)
      (hne : c.todo ≠ []) (hn : n ≠ 0) :
      TrMove o s c s.pipe c' (c.todo.take n)
  | reads {c' : Child} {n : ℕ} (hpc : c.pc = .filters)
      (hpc' : c'.pc = .filters) (hne : s.pipe ≠ []) (hn : n ≠ 0)
      (htodo : c'.todo = c.todo ++ (s.pipe.take n).map o.translate) :
      TrMove o s c (s.pipe.drop n) c' []
  | ends {c' : Child} (hpc : c.pc = .filters) (hpc' : c'.pc = .writes)
      (htodo : c'.todo = c.todo) (hnil : s.pipe = [])
      (hwriter : s.hasWriter = false) : TrMove o s c s.pipe c' []

theorem TrMove.alive (h : TrMove o s c pipe c' out) : c.pc ≠ .exited := by
  cases h <;> grind

theorem writeStep_terminal
    (hpc : c.pc = .filters ∨ c.pc = .writes) (hfds : c.fds = trFds c.pc)
    (hend : c.todo = [] → c.pc = .writes)
    (h : s.writeStep cap n c = some (pipe, c', out)) :
    c'.fds = trFds c'.pc ∧ TrMove o s c pipe c' out := by
  have hstdout : c.fds 1 = .terminal := by
    rcases hpc with hpc | hpc <;> rw [hfds, hpc] <;> decide
  unfold Shell.writeStep at h
  rw [hstdout] at h
  split at h
  next hnil =>
    obtain ⟨rfl, rfl, rfl⟩ : s.pipe = pipe ∧ c.exit = c' ∧ [] = out := by
      simpa using h
    exact ⟨rfl, .exits (hend hnil) rfl rfl hnil⟩
  next hne =>
    dsimp only at h
    split at h
    next => simp at h
    next hn =>
      obtain ⟨rfl, rfl, rfl⟩ := by simpa using h
      exact ⟨hfds, .writes hpc rfl rfl hne hn⟩

theorem trStep_move (hfds : c.fds = trFds c.pc)
    (h : s.trStep o cap n c = some (pipe, c', out)) :
    c'.fds = trFds c'.pc ∧ TrMove o s c pipe c' out := by
  unfold Shell.trStep at h
  split at h
  next hpc =>
    cases ho : o.execTr with
    | true =>
        obtain ⟨rfl, rfl, rfl⟩ : s.pipe = pipe ∧ _ = c' ∧ [] = out := by
          simpa [ho] using h
        exact ⟨by rw [hfds, hpc]; rfl, .exec ho hpc rfl rfl⟩
    | false =>
        obtain ⟨rfl, rfl, rfl⟩ : s.pipe = pipe ∧ _ = c' ∧ [] = out := by
          simpa [ho] using h
        exact ⟨by rw [hfds, hpc]; rfl, .fails ho hpc rfl rfl⟩
  next hpc =>
    split at h
    next => simp at h
    next hne =>
      exact writeStep_terminal (Or.inl hpc) hfds (fun hnil => absurd hnil hne) h
  next hpc =>
    exact writeStep_terminal (Or.inr hpc) hfds (fun _ => hpc) h
  next =>
    obtain ⟨c₁, hc₁, hrest⟩ := Option.map_eq_some_iff.mp h
    obtain ⟨rfl, rfl, rfl⟩ : s.pipe = pipe ∧ c₁ = c' ∧ [] = out := by
      simpa using hrest
    obtain ⟨hfds', htodo, hpc⟩ := setUp_eq_some hfds hc₁
    exact ⟨hfds', .setUp htodo hpc⟩

theorem readStep_move (hfds : c.fds = trFds c.pc)
    (h : s.readStep o n c = some (pipe, c')) :
    c'.fds = trFds c'.pc ∧ TrMove o s c pipe c' [] := by
  unfold Shell.readStep at h
  split at h
  next hready =>
    obtain ⟨hpc, -⟩ := hready
    split at h
    next hnil =>
      split at h
      next => simp at h
      next hwriter =>
        obtain ⟨rfl, rfl⟩ := by simpa using h
        exact ⟨by rw [hfds, hpc]; rfl,
          .ends hpc rfl rfl hnil (by simpa using hwriter)⟩
    next hne =>
      split at h
      next => simp at h
      next hn =>
        obtain ⟨rfl, rfl⟩ := Prod.mk.inj (Option.some.inj h)
        exact ⟨hfds, .reads hpc hpc hne hn rfl⟩
  next => simp at h

/-! ## What a process does -/

inductive ShellMove (o : Outcomes) (cap : ℕ) (s : Shell) :
    Shell → List UInt8 → Prop
  | parent {s' : Shell} (h : s.parentStep o = some s') :
      ShellMove o cap s s' []
  | ls {c c' : Child} {pipe : List UInt8} (hls : s.ls = some c)
      (hfds : c'.fds = lsFds c'.pc) (h : LsMove o cap s c pipe c') :
      ShellMove o cap s { s with ls := some c', pipe := pipe } []
  | tr {c c' : Child} {pipe es : List UInt8} (htr : s.tr = some c)
      (hfds : c'.fds = trFds c'.pc) (h : TrMove o s c pipe c' es) :
      ShellMove o cap s { s with tr := some c', pipe := pipe } es

theorem shellStep_move {s' : Shell} {es : List UInt8}
    (hls : ∀ c, s.ls = some c → c.fds = lsFds c.pc)
    (htr : ∀ c, s.tr = some c → c.fds = trFds c.pc)
    (h : (shellSystem o cap).step s es s') : ShellMove o cap s s' es := by
  obtain ⟨turn, h⟩ := h
  cases turn with
  | parent =>
      obtain ⟨s₁, hparent, hrest⟩ := Option.map_eq_some_iff.mp h
      obtain ⟨rfl, rfl⟩ := Prod.mk.inj hrest
      exact .parent hparent
  | ls n =>
      obtain ⟨c, hc, hturn⟩ := Option.bind_eq_some_iff.mp h
      obtain ⟨⟨pipe, c', out⟩, hstep, hrest⟩ := Option.map_eq_some_iff.mp hturn
      obtain ⟨rfl, rfl⟩ := Prod.mk.inj hrest
      obtain ⟨hfds, rfl, hmove⟩ := lsStep_move (hls c hc) hstep
      exact .ls hc hfds hmove
  | tr n =>
      obtain ⟨c, hc, hturn⟩ := Option.bind_eq_some_iff.mp h
      obtain ⟨⟨pipe, c', out⟩, hstep, hrest⟩ := Option.map_eq_some_iff.mp hturn
      obtain ⟨rfl, rfl⟩ := Prod.mk.inj hrest
      obtain ⟨hfds, hmove⟩ := trStep_move (htr c hc) hstep
      exact .tr hc hfds hmove
  | trReads n =>
      obtain ⟨c, hc, hturn⟩ := Option.bind_eq_some_iff.mp h
      obtain ⟨⟨pipe, c'⟩, hstep, hrest⟩ := Option.map_eq_some_iff.mp hturn
      obtain ⟨rfl, rfl⟩ := Prod.mk.inj hrest
      obtain ⟨hfds, hmove⟩ := readStep_move (htr c hc) hstep
      exact .tr hc hfds hmove

end Children

end Pvos.PipeRedirect
