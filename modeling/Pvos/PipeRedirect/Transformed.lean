import Pvos.PipeRedirect.Moves

/-!
# The pipeline shows the transformed listing

As long as the second child can read, the first one meets no `SIGPIPE`; and the
second child meets the end of the file only when the first one has written
everything, because nobody else keeps the write end open.

The invariant compares what the terminal shows with what it is going to show:
the output that `tr` holds, the content of the pipe, and what `ls` has not
written.
-/

namespace Pvos.PipeRedirect

open Pvos.Support

/-- What the terminal shows in the end. -/
def Outcomes.shown (o : Outcomes) : List UInt8 :=
  if o.forkTr then
    if o.execTr then (if o.forkLs then o.source else []).map o.translate
    else trFailed
  else []

/-! ## What is still going to be shown -/

/-- A child behind `fork`, before the parent has closed a descriptor. -/
def newborn : Child where
  pc := .closeUnused
  fds := pipeFds
  todo := []

/-- What a child has not written that writes `text`. -/
def Child.rest (text : List UInt8) (c : Child) : List UInt8 :=
  if c.pc = .writes ∨ c.pc = .exited then c.todo else text

namespace Shell

/-- The first child, also before its `fork`. -/
def lsChild (s : Shell) : Child :=
  s.ls.getD newborn

def trChild (s : Shell) : Child :=
  s.tr.getD newborn

def unwritten (o : Outcomes) (s : Shell) : List UInt8 :=
  if o.forkLs then s.lsChild.rest o.source else []

def toCome (o : Outcomes) (s : Shell) : List UInt8 :=
  if o.forkTr then
    if o.execTr then s.trChild.todo ++ (s.pipe ++ s.unwritten o).map o.translate
    else s.trChild.rest trFailed
  else []

end Shell

theorem toCome_start (o : Outcomes) : Shell.start.toCome o = o.shown := rfl

/-- The call behind a call of the parent. -/
def ParentPc.next : ParentPc → ParentPc
  | .forkLs => .forkTr
  | .forkTr => .closeRead
  | .closeRead => .closeWrite
  | .closeWrite => .waitFirst
  | .waitFirst => .waitSecond
  | .waitSecond => .closeAgain
  | .closeAgain | .exited => .exited

/-- The parent has forked the second child. -/
def ParentPc.pastForks : ParentPc → Bool
  | .forkLs | .forkTr => false
  | _ => true

structure ShellInv (o : Outcomes) (out : List UInt8) (s : Shell) : Prop where
  parentFds : s.fds = parentFds s.parent
  lsFds : s.lsChild.fds = lsFds s.lsChild.pc
  trFds : s.trChild.fds = trFds s.trChild.pc
  lsForked : s.ls.isSome = (o.forkLs && s.parent ≠ .forkLs : Bool)
  trForked : s.tr.isSome = (o.forkTr && s.parent.pastForks)
  lsWrites : s.lsChild.pc ≠ .filters
  trFilters : s.trChild.pc = .filters → o.execTr = true
  /-- `tr` has met the end of the file. -/
  endOfFile : o.execTr = true →
    s.trChild.pc = .writes ∨ s.trChild.pc = .exited →
      s.pipe = [] ∧ (o.forkLs = true → s.lsChild.pc = .exited)
  lsDone : o.forkTr = true → o.execTr = true → s.lsChild.pc = .exited →
    s.lsChild.todo = []
  trDone : s.trChild.pc = .exited → s.trChild.todo = []
  shown : out ++ s.toCome o = o.shown

theorem shellInv_start (o : Outcomes) : ShellInv o [] Shell.start where
  parentFds := rfl
  lsFds := rfl
  trFds := rfl
  lsForked := by simp [Shell.start]
  trForked := by simp [Shell.start, ParentPc.pastForks]
  lsWrites := by decide
  trFilters h := by simp [Shell.start, Shell.trChild, newborn] at h
  endOfFile _ h := by simp [Shell.start, Shell.trChild, newborn] at h
  lsDone _ _ h := by simp [Shell.start, Shell.lsChild, newborn] at h
  trDone h := by simp [Shell.start, Shell.trChild, newborn] at h
  shown := toCome_start o

section Steps

variable {o : Outcomes} {cap n : ℕ} {out : List UInt8} {s s' : Shell}
  {c c' : Child}

/-! ## A step of the parent -/

/-- `wait` collects a child that has ended, or fails because none is left. -/
theorem wait_eq_some (h : s.wait = some s') :
    ∃ k, s' = { s with collected := k } ∧
      ((s.collected < s.ended ∧ k = s.collected + 1) ∨
        (k = s.collected ∧ s.collected = s.children)) := by
  unfold Shell.wait at h
  split at h
  next hlt => exact ⟨_, (Option.some.inj h).symm, Or.inl ⟨hlt, rfl⟩⟩
  next =>
    split at h
    next hall =>
      obtain rfl := Option.some.inj h
      exact ⟨s.collected, rfl, Or.inr ⟨rfl, hall⟩⟩
    next => simp at h

/-- A `fork` that makes a child makes a newborn one. -/
theorem getD_child (succeeds : Bool) (hfds : s.fds = pipeFds) :
    (s.child succeeds).getD newborn = newborn := by
  unfold Shell.child
  split
  next => rw [hfds]; rfl
  next => rfl

theorem isSome_child (succeeds : Bool) :
    (s.child succeeds).isSome = succeeds := by
  cases succeeds <;> rfl

/-- What the parent leaves as it was, and what it has forked. -/
structure ParentMove (o : Outcomes) (s s' : Shell) : Prop where
  next : s.parent ≠ .exited ∧ s'.parent = s.parent.next
  fds : s'.fds = parentFds s'.parent
  pipe : s'.pipe = s.pipe
  lsChild : s'.lsChild = s.lsChild
  trChild : s'.trChild = s.trChild
  lsForked : s'.ls.isSome = (o.forkLs && s'.parent ≠ .forkLs : Bool)
  trForked : s'.tr.isSome = (o.forkTr && s'.parent.pastForks)

theorem parentStep_move (hinv : ShellInv o out s)
    (h : s.parentStep o = some s') : ParentMove o s s' := by
  have hfds := hinv.parentFds
  have hls := hinv.lsForked
  have htr := hinv.trForked
  unfold Shell.parentStep at h
  cases hpc : s.parent with
  | forkLs =>
      rw [hpc] at h hfds hls htr
      obtain rfl := Option.some.inj h
      have hnone : s.ls = none := by simpa using hls
      refine ⟨by simp [hpc, ParentPc.next], hfds, rfl, ?_, rfl, ?_, htr⟩
      · unfold Shell.lsChild
        rw [hnone]
        exact getD_child o.forkLs hfds
      · rw [isSome_child]
        simp
  | forkTr =>
      rw [hpc] at h hfds hls htr
      obtain rfl := Option.some.inj h
      have hnone : s.tr = none := by simpa [ParentPc.pastForks] using htr
      refine ⟨by simp [hpc, ParentPc.next], hfds, rfl, rfl, ?_,
        by simpa using hls, ?_⟩
      · unfold Shell.trChild
        rw [hnone]
        exact getD_child o.forkTr hfds
      · rw [isSome_child]
        simp [ParentPc.pastForks]
  | closeRead | closeWrite | closeAgain =>
      rw [hpc] at h hfds hls htr
      obtain rfl := Option.some.inj h
      exact ⟨by simp [hpc, ParentPc.next], by rw [hfds]; rfl, rfl, rfl, rfl,
        by simpa using hls, htr⟩
  | waitFirst | waitSecond =>
      rw [hpc] at h hfds hls htr
      obtain ⟨s₁, hwait, rfl⟩ := Option.map_eq_some_iff.mp h
      obtain ⟨k, rfl, -⟩ := wait_eq_some hwait
      exact ⟨by simp [hpc, ParentPc.next], by rw [hfds]; rfl, rfl, rfl, rfl,
        by simpa using hls, htr⟩
  | exited =>
      rw [hpc] at h
      simp at h

theorem shellInv_parent (hinv : ShellInv o out s) (h : ParentMove o s s') :
    ShellInv o out s' := by
  have htoCome : s'.toCome o = s.toCome o := by
    unfold Shell.toCome Shell.unwritten
    rw [h.lsChild, h.trChild, h.pipe]
  exact
    { parentFds := h.fds
      lsFds := by rw [h.lsChild]; exact hinv.lsFds
      trFds := by rw [h.trChild]; exact hinv.trFds
      lsForked := h.lsForked
      trForked := h.trForked
      lsWrites := by rw [h.lsChild]; exact hinv.lsWrites
      trFilters := by rw [h.trChild]; exact hinv.trFilters
      endOfFile := by
        rw [h.trChild, h.pipe, h.lsChild]
        exact hinv.endOfFile
      lsDone := by rw [h.lsChild]; exact hinv.lsDone
      trDone := by rw [h.trChild]; exact hinv.trDone
      shown := by rw [htoCome]; exact hinv.shown }

/-! ## Steps of the children -/

/-- Only the second child can have the read end open when the first one
writes. -/
theorem trChild_exited (hinv : ShellInv o out s) (hforkTr : o.forkTr = true)
    (hreader : s.hasReader = false) : s.trChild.pc = .exited := by
  have hnone : ∀ fds ∈ s.fdTables, holds fds .readEnd = false := by
    simpa [Shell.hasReader] using hreader
  have hparent := hnone s.fds List.mem_cons_self
  rw [hinv.parentFds, parentFds_readEnd] at hparent
  have hforked : s.tr.isSome = true := by
    rw [hinv.trForked, hforkTr]
    cases hpc : s.parent <;> simp_all [ParentPc.pastForks]
  obtain ⟨c, hc⟩ := Option.isSome_iff_exists.mp hforked
  have hchild : s.trChild = c := by simp [Shell.trChild, hc]
  have hfds := hnone c.fds (by simp [Shell.fdTables, hc])
  rw [← hchild, hinv.trFds, trFds_readEnd] at hfds
  simpa using hfds

theorem lsChild_exited (hinv : ShellInv o out s) (hforkLs : o.forkLs = true)
    (hwriter : s.hasWriter = false) : s.lsChild.pc = .exited := by
  have hnone : ∀ fds ∈ s.fdTables, holds fds .writeEnd = false := by
    simpa [Shell.hasWriter] using hwriter
  have hparent := hnone s.fds List.mem_cons_self
  rw [hinv.parentFds, parentFds_writeEnd] at hparent
  have hforked : s.ls.isSome = true := by
    rw [hinv.lsForked, hforkLs]
    simp_all
  obtain ⟨c, hc⟩ := Option.isSome_iff_exists.mp hforked
  have hchild : s.lsChild = c := by simp [Shell.lsChild, hc]
  have hfds := hnone c.fds (by simp [Shell.fdTables, hc])
  rw [← hchild, hinv.lsFds, lsFds_writeEnd] at hfds
  simpa using hfds

/-- What the first child has not written and the pipe, behind one of its
steps. -/
theorem pipe_rest_of_lsMove {pipe : List UInt8} (h : LsMove o cap s c pipe c') :
    pipe ++ c'.rest o.source = s.pipe ++ c.rest o.source := by
  cases h with
  | setUp htodo hpc =>
      rcases hpc with ⟨hpc, hpc'⟩ | ⟨hpc, hpc'⟩ | ⟨hpc, hpc'⟩ <;>
        simp [Child.rest, hpc, hpc']
  | exec hpc hpc' htodo => simp [Child.rest, hpc, hpc', htodo]
  | exits hpc hpc' htodo hend => simp [Child.rest, hpc, hpc', htodo]
  | writes hpc hpc' htodo hne hn => simp [Child.rest, hpc, hpc', htodo]

theorem shellInv_ls (hinv : ShellInv o out s) (hls : s.ls = some c)
    {pipe : List UInt8} (hfds : c'.fds = lsFds c'.pc)
    (h : LsMove o cap s c pipe c') :
    ShellInv o out { s with ls := some c', pipe := pipe } := by
  have hchild : s.lsChild = c := by simp [Shell.lsChild, hls]
  have hforkLs : o.forkLs = true := by
    have := hinv.lsForked
    rw [hls] at this
    simp_all
  -- `tr` has not met the end of the file while the first child runs.
  have hnotEnd (hexec : o.execTr = true) :
      ¬ (s.trChild.pc = .writes ∨ s.trChild.pc = .exited) := fun htr =>
    h.alive (hchild ▸ (hinv.endOfFile hexec htr).2 hforkLs)
  exact
    { parentFds := hinv.parentFds
      lsFds := hfds
      trFds := hinv.trFds
      lsForked := by rw [← hinv.lsForked, hls]; rfl
      trForked := hinv.trForked
      lsWrites := h.not_filters
      trFilters := hinv.trFilters
      endOfFile := fun hexec htr => absurd htr (hnotEnd hexec)
      lsDone := by
        intro hforkTr hexec (hexited : c'.pc = .exited)
        show c'.todo = []
        cases h with
        | exits hpc hpc' htodo hend =>
            rcases hend with hnil | hreader
            · rw [htodo, hnil]
            · exact absurd (Or.inr (trChild_exited hinv hforkTr hreader))
                (hnotEnd hexec)
        | _ => simp_all
      trDone := hinv.trDone
      shown := by
        rw [← hinv.shown]
        unfold Shell.toCome Shell.unwritten
        rw [hforkLs, hchild]
        show out ++ (if o.forkTr then if o.execTr then
          s.trChild.todo ++ (pipe ++ c'.rest o.source).map o.translate else _ else []) = _
        rw [pipe_rest_of_lsMove h]
        rfl }

/-- What `tr` shows in a step, what it holds then and what it has not read make
up what they made up before. -/
theorem filtered_of_trMove {pipe es : List UInt8} (hexec : o.execTr = true)
    (h : TrMove o s c pipe c' es) (text : List UInt8) :
    es ++ (c'.todo ++ (pipe ++ text).map o.translate) =
      c.todo ++ (s.pipe ++ text).map o.translate := by
  cases h with
  | setUp htodo hpc => rw [htodo]; rfl
  | exec ho hpc hpc' htodo => rw [htodo]; rfl
  | fails ho hpc hpc' htodo => rw [hexec] at ho; cases ho
  | exits hpc hpc' htodo hend => rw [htodo]; rfl
  | writes hpc hpc' htodo hne hn =>
      rw [htodo, ← List.append_assoc, List.take_append_drop]
  | @reads c' n hpc hpc' hne hn htodo =>
      rw [htodo, List.nil_append, List.append_assoc, ← List.map_append,
        ← List.append_assoc, List.take_append_drop]
  | ends hpc hpc' htodo hnil hwriter => rw [htodo]; rfl

/-- Without `tr` the second child shows its message. -/
theorem rest_of_trMove {pipe es : List UInt8} (hexec : o.execTr = false)
    (hpc : c.pc ≠ .filters) (h : TrMove o s c pipe c' es) :
    es ++ c'.rest trFailed = c.rest trFailed := by
  unfold Child.rest
  cases h with
  | writes hwrites hpc' htodo hne hn =>
      have hc : c.pc = .writes := hwrites.resolve_left hpc
      simp [hpc', hc, htodo]
  | _ => grind

theorem toCome_of_trMove (hinv : ShellInv o out s) (htr : s.tr = some c)
    {pipe es : List UInt8} (h : TrMove o s c pipe c' es) :
    es ++ Shell.toCome o { s with tr := some c', pipe := pipe } =
      s.toCome o := by
  have hchild : s.trChild = c := by simp [Shell.trChild, htr]
  have hforkTr : o.forkTr = true := by
    have := hinv.trForked
    rw [htr] at this
    simp_all
  unfold Shell.toCome
  rw [hforkTr, hchild]
  cases hexec : o.execTr with
  | true => exact filtered_of_trMove hexec h (s.unwritten o)
  | false =>
      refine rest_of_trMove hexec (fun hpc => ?_) h
      have := hinv.trFilters (hchild ▸ hpc)
      rw [hexec] at this
      cases this

theorem shellInv_tr (hinv : ShellInv o out s) (htr : s.tr = some c)
    {pipe es : List UInt8} (hfds : c'.fds = trFds c'.pc)
    (h : TrMove o s c pipe c' es) :
    ShellInv o (out ++ es) { s with tr := some c', pipe := pipe } := by
  have hchild : s.trChild = c := by simp [Shell.trChild, htr]
  exact
    { parentFds := hinv.parentFds
      lsFds := hinv.lsFds
      trFds := hfds
      lsForked := hinv.lsForked
      trForked := by rw [← hinv.trForked, htr]; rfl
      lsWrites := hinv.lsWrites
      trFilters := by
        intro (hpc : c'.pc = .filters)
        have := hinv.trFilters
        rw [hchild] at this
        cases h <;> grind
      endOfFile := by
        intro hexec (hend : c'.pc = .writes ∨ c'.pc = .exited)
        show pipe = [] ∧ (o.forkLs = true → s.lsChild.pc = .exited)
        have hbefore := hinv.endOfFile hexec
        rw [hchild] at hbefore
        cases h with
        | ends hpc hpc' htodo hnil hwriter =>
            exact ⟨hnil, fun hforkLs => lsChild_exited hinv hforkLs hwriter⟩
        | _ => grind
      lsDone := hinv.lsDone
      trDone := by
        intro (hexited : c'.pc = .exited)
        show c'.todo = []
        cases h <;> grind
      shown := by
        rw [List.append_assoc, toCome_of_trMove hinv htr h]
        exact hinv.shown }

theorem ShellInv.lsChild_fds (hinv : ShellInv o out s) (hls : s.ls = some c) :
    c.fds = PipeRedirect.lsFds c.pc := by
  have hchild : s.lsChild = c := by simp [Shell.lsChild, hls]
  rw [← hchild]
  exact hinv.lsFds

theorem ShellInv.trChild_fds (hinv : ShellInv o out s) (htr : s.tr = some c) :
    c.fds = PipeRedirect.trFds c.pc := by
  have hchild : s.trChild = c := by simp [Shell.trChild, htr]
  rw [← hchild]
  exact hinv.trFds

theorem ShellInv.move {es : List UInt8} (hinv : ShellInv o out s)
    (h : (shellSystem o cap).step s es s') : ShellMove o cap s s' es :=
  shellStep_move (fun _ => hinv.lsChild_fds) (fun _ => hinv.trChild_fds) h

theorem shellInv_move {es : List UInt8} (hinv : ShellInv o out s)
    (h : ShellMove o cap s s' es) : ShellInv o (out ++ es) s' := by
  cases h with
  | parent h =>
      rw [List.append_nil]
      exact shellInv_parent hinv (parentStep_move hinv h)
  | ls hls hfds h =>
      rw [List.append_nil]
      exact shellInv_ls hinv hls hfds h
  | tr htr hfds h => exact shellInv_tr hinv htr hfds h

/-! ## Children that `wait` returns -/

/-- The children that have ended, of at most one. -/
def endedOf (child : Option Child) : ℕ :=
  (child.toList.filter fun c => c.pc = .exited).length

theorem ended_eq (s : Shell) : s.ended = endedOf s.ls + endedOf s.tr := by
  unfold Shell.ended endedOf
  rw [List.filter_append, List.length_append]

theorem endedOf_alive (halive : c.pc ≠ .exited) : endedOf (some c) = 0 := by
  simp [endedOf, halive]

theorem endedOf_child (succeeds : Bool) : endedOf (s.child succeeds) = 0 := by
  cases succeeds <;> rfl

theorem ended_le_children (s : Shell) : s.ended ≤ s.children := by
  unfold Shell.children
  rw [← List.length_append]
  exact List.length_filter_le _ _

theorem children_le_two (s : Shell) : s.children ≤ 2 := by
  have hls := Option.length_toList_le (o := s.ls)
  have htr := Option.length_toList_le (o := s.tr)
  unfold Shell.children
  omega

/-- How many children the parent has collected behind each `wait`. -/
structure Collects (s : Shell) : Prop where
  le : s.collected ≤ s.ended
  first : s.parent = .waitSecond → 1 ≤ s.children → 1 ≤ s.collected
  second : s.parent = .closeAgain ∨ s.parent = .exited →
    s.collected = s.children

theorem collects_parent (hinv : ShellInv o out s) (hs : Collects s)
    (h : s.parentStep o = some s') : Collects s' := by
  have hls := hinv.lsForked
  have htr := hinv.trForked
  have hended := hs.le
  rw [ended_eq] at hended
  unfold Shell.parentStep at h
  cases hpc : s.parent with
  | forkLs =>
      rw [hpc] at h hls
      obtain rfl := Option.some.inj h
      have hnone : s.ls = none := by simpa using hls
      refine ⟨?_, by simp, by simp⟩
      rw [hnone] at hended
      rw [ended_eq, endedOf_child]
      exact hended
  | forkTr =>
      rw [hpc] at h htr
      obtain rfl := Option.some.inj h
      have hnone : s.tr = none := by simpa [ParentPc.pastForks] using htr
      refine ⟨?_, by simp, by simp⟩
      rw [hnone] at hended
      rw [ended_eq, endedOf_child]
      exact hended
  | closeRead | closeWrite =>
      rw [hpc] at h
      obtain rfl := Option.some.inj h
      exact ⟨hs.le, by simp, by simp⟩
  | waitFirst =>
      rw [hpc] at h
      obtain ⟨s₁, hwait, rfl⟩ := Option.map_eq_some_iff.mp h
      obtain ⟨k, rfl, hk⟩ := wait_eq_some hwait
      have hle := hs.le
      refine ⟨?_, fun _ (hone : 1 ≤ s.children) => ?_, by simp⟩
      · show k ≤ s.ended
        omega
      · show 1 ≤ k
        omega
  | waitSecond =>
      rw [hpc] at h
      obtain ⟨s₁, hwait, rfl⟩ := Option.map_eq_some_iff.mp h
      obtain ⟨k, rfl, hk⟩ := wait_eq_some hwait
      have hle := hs.le
      have hfirst := hs.first hpc
      have hchildren := ended_le_children s
      have htwo := children_le_two s
      refine ⟨?_, by simp, fun _ => ?_⟩
      · show k ≤ s.ended
        omega
      · show k = s.children
        omega
  | closeAgain =>
      rw [hpc] at h
      obtain rfl := Option.some.inj h
      exact ⟨hs.le, by simp, fun _ => hs.second (Or.inl hpc)⟩
  | exited =>
      rw [hpc] at h
      simp at h

theorem collects_move {es : List UInt8} (hinv : ShellInv o out s)
    (hs : Collects s) (h : ShellMove o cap s s' es) : Collects s' := by
  have hended := hs.le
  rw [ended_eq] at hended
  cases h with
  | parent h => exact collects_parent hinv hs h
  | @ls c c' pipe hls hfds h =>
      have hchildren :
          Shell.children { s with ls := some c', pipe := pipe } =
            s.children := by
        simp [Shell.children, hls]
      rw [hls, endedOf_alive h.alive] at hended
      refine ⟨?_, fun hpc => ?_, fun hpc => ?_⟩
      · rw [ended_eq]
        show s.collected ≤ endedOf (some c') + endedOf s.tr
        omega
      · rw [hchildren]
        exact hs.first hpc
      · rw [hchildren]
        exact hs.second hpc
  | @tr c c' pipe es htr hfds h =>
      have hchildren :
          Shell.children { s with tr := some c', pipe := pipe } =
            s.children := by
        simp [Shell.children, htr]
      rw [htr, endedOf_alive h.alive] at hended
      refine ⟨?_, fun hpc => ?_, fun hpc => ?_⟩
      · rw [ended_eq]
        show s.collected ≤ endedOf s.ls + endedOf (some c')
        omega
      · rw [hchildren]
        exact hs.first hpc
      · rw [hchildren]
        exact hs.second hpc

theorem exec_inv {tr : List UInt8} (h : (shellSystem o cap).Exec tr s) :
    ShellInv o tr s ∧ Collects s := by
  refine h.invariant (I := fun tr s => ShellInv o tr s ∧ Collects s) ?_ ?_
  · intro s hs
    rw [show s = Shell.start from hs]
    exact ⟨shellInv_start o, ⟨Nat.le_refl _, by simp [Shell.start],
      by simp [Shell.start]⟩⟩
  · rintro tr s es s' ⟨hinv, hs⟩ hstep
    have hmove := hinv.move hstep
    exact ⟨shellInv_move hinv hmove, collects_move hinv hs hmove⟩

/-! ## The end -/

/-- A parent that has exited has collected every child. -/
theorem children_exited (hs : Collects s) (hexit : s.parent = .exited) :
    ∀ c ∈ s.ls.toList ++ s.tr.toList, c.pc = .exited := by
  have hall := hs.second (Or.inr hexit)
  have hle := hs.le
  have hchildren := ended_le_children s
  have hfull : s.ended = s.children := by omega
  unfold Shell.ended Shell.children at hfull
  rw [← List.length_append, List.length_filter_eq_length_iff] at hfull
  simpa using hfull

theorem toCome_exited (hinv : ShellInv o out s)
    (hforks : s.parent.pastForks = true)
    (hended : ∀ c ∈ s.ls.toList ++ s.tr.toList, c.pc = .exited) :
    s.toCome o = [] := by
  unfold Shell.toCome
  cases hforkTr : o.forkTr with
  | false => rfl
  | true =>
      have hsome := hinv.trForked
      rw [hforkTr, hforks] at hsome
      obtain ⟨c, hc⟩ := Option.isSome_iff_exists.mp hsome
      have hchild : s.trChild = c := by simp [Shell.trChild, hc]
      have hpc : s.trChild.pc = .exited := by
        rw [hchild]
        exact hended c (by simp [hc])
      have htodo := hinv.trDone hpc
      cases hexec : o.execTr with
      | false => simp [Child.rest, hpc, htodo]
      | true =>
          obtain ⟨hpipe, hlsExited⟩ := hinv.endOfFile hexec (Or.inr hpc)
          have hunwritten : s.unwritten o = [] := by
            unfold Shell.unwritten
            split
            next hforkLs =>
              have hls := hlsExited hforkLs
              simp [Child.rest, hls, hinv.lsDone hforkTr hexec hls]
            next => rfl
          simp [htodo, hpipe, hunwritten]

end Steps

/-- In every run, whatever the processes interleave and however few bytes a
`read` or a `write` moves, the terminal shows a beginning of the transformed
listing, and all of it when the parent exits: no byte is lost or shown twice,
and `wait` has returned every child. -/
theorem terminal_shows (o : Outcomes) (cap : ℕ) {tr : List UInt8} {s : Shell}
    (h : (shellSystem o cap).Exec tr s) :
    tr <+: o.shown ∧ (s.parent = .exited → tr = o.shown ∧
      s.collected = s.children ∧
      ∀ c ∈ s.ls.toList ++ s.tr.toList, c.pc = .exited) := by
  obtain ⟨hinv, hs⟩ := exec_inv h
  refine ⟨⟨s.toCome o, hinv.shown⟩, fun hexit => ?_⟩
  have hended := children_exited hs hexit
  refine ⟨?_, hs.second (Or.inr hexit), hended⟩
  have hnil := toCome_exited hinv (by rw [hexit]; rfl) hended
  rw [← hinv.shown, hnil, List.append_nil]

/-- `a-z` to `A-Z`, for a byte. -/
def upper (b : UInt8) : UInt8 :=
  if 97 ≤ b ∧ b ≤ 122 then b - 32 else b

/-- `ls` lists a file `a`. -/
def fileA : Outcomes where
  forkLs := true
  forkTr := true
  execLs := true
  execTr := true
  listing := [97, 10]
  translate := upper

/-- The children prepare themselves, and the listing moves byte by byte. -/
def fileATurns : List Turn :=
  [.parent, .parent, .parent, .parent,
    .ls 1, .ls 1, .ls 1, .ls 1, .tr 1, .tr 1, .tr 1, .tr 1,
    .ls 1, .trReads 1, .ls 1, .tr 1, .trReads 1, .ls 1, .trReads 1, .tr 1,
    .tr 1, .parent, .parent, .parent]

/-- These turns are a run to the end of the parent. -/
theorem fileA_run :
    ∃ s : Shell, (shellSystem fileA 1).Run .start [65, 10] s ∧
      s.parent = .exited ∧ s.children = 2 := by
  have hrun : ∃ s, System.runChoices (shellStep fileA 1) .start fileATurns =
      some (s, [65, 10]) ∧ s.parent = .exited ∧ s.children = 2 :=
    ⟨_, rfl, rfl, rfl⟩
  obtain ⟨s, hrun, hexit, hchildren⟩ := hrun
  have hstep (s : Shell) (turn : Turn) (s' : Shell) (es : List UInt8)
      (h : shellStep fileA 1 s turn = some (s', es)) :
      (shellSystem fileA 1).step s es s' := ⟨turn, h⟩
  exact ⟨s, System.run_of_choices _ hstep fileATurns hrun, hexit, hchildren⟩

theorem terminal_shows_fileA :
    ∃ s : Shell, (shellSystem fileA 1).Exec [65, 10] s ∧ s.parent = .exited ∧
      s.collected = 2 ∧ [65, 10] = fileA.shown := by
  obtain ⟨s, hrun, hexit, hchildren⟩ := fileA_run
  have hexec : (shellSystem fileA 1).Exec [65, 10] s := ⟨.start, rfl, hrun⟩
  obtain ⟨hshown, hcollected, -⟩ := (terminal_shows fileA 1 hexec).2 hexit
  exact ⟨s, hexec, hexit, hcollected.trans hchildren, hshown⟩

end Pvos.PipeRedirect
