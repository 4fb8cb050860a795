import Pvos.PipeRedirect.Transformed

/-!
# The pipeline comes to its end

Every step lowers a rank: a byte counts three times with `ls`, twice in the
pipe and once with `tr`.  And as long as the parent has not exited somebody can
make a step.  Here the pipe must have room for a byte, and the second child may
not keep the write end of its own pipe open.
-/

namespace Pvos.PipeRedirect

open Pvos.Support

/-! ## A rank -/

def parentRank : ParentPc → ℕ
  | .forkLs => 7
  | .forkTr => 6
  | .closeRead => 5
  | .closeWrite => 4
  | .waitFirst => 3
  | .waitSecond => 2
  | .closeAgain => 1
  | .exited => 0

def lsRank (o : Outcomes) (c : Child) : ℕ :=
  match c.pc with
  | .closeUnused => 5 + 3 * o.source.length
  | .dup => 4 + 3 * o.source.length
  | .closeUsed => 3 + 3 * o.source.length
  | .exec => 2 + 3 * o.source.length
  | .filters | .writes => 1 + 3 * c.todo.length
  | .exited => 0

def trRank (c : Child) : ℕ :=
  match c.pc with
  | .closeUnused => 6 + trFailed.length + c.todo.length
  | .dup => 5 + trFailed.length + c.todo.length
  | .closeUsed => 4 + trFailed.length + c.todo.length
  | .exec => 3 + trFailed.length + c.todo.length
  | .filters => 2 + c.todo.length
  | .writes => 1 + c.todo.length
  | .exited => 0

def shellRank (o : Outcomes) (s : Shell) : ℕ :=
  parentRank s.parent + lsRank o s.lsChild + 2 * s.pipe.length +
    trRank s.trChild

section Steps

variable {o : Outcomes} {cap : ℕ} {out es : List UInt8} {s s' : Shell}
  {c c' : Child} {pipe : List UInt8}

theorem parentRank_next {pc : ParentPc} (hpc : pc ≠ .exited) :
    parentRank pc.next + 1 = parentRank pc := by
  cases pc with
  | exited => exact absurd rfl hpc
  | _ => rfl

theorem parentMove_rank (h : ParentMove o s s') :
    shellRank o s' < shellRank o s := by
  obtain ⟨halive, hnext⟩ := h.next
  have hless := parentRank_next halive
  unfold shellRank
  rw [h.lsChild, h.trChild, h.pipe, hnext]
  omega

theorem lsMove_rank (h : LsMove o cap s c pipe c') :
    lsRank o c' + 2 * pipe.length < lsRank o c + 2 * s.pipe.length := by
  unfold lsRank
  cases h with
  | setUp htodo hpc =>
      rcases hpc with ⟨hpc, hpc'⟩ | ⟨hpc, hpc'⟩ | ⟨hpc, hpc'⟩ <;>
        rw [hpc, hpc'] <;> dsimp only <;> omega
  | exec hpc hpc' htodo =>
      rw [hpc, hpc', htodo]
      dsimp only
      omega
  | exits hpc hpc' htodo hend =>
      rw [hpc, hpc']
      dsimp only
      omega
  | writes hpc hpc' htodo hne hn =>
      have hpos := List.length_pos_iff.mpr hne
      rw [hpc, hpc', htodo]
      simp only [List.length_append, List.length_take, List.length_drop]
      omega

theorem trMove_rank (h : TrMove o s c pipe c' es) :
    trRank c' + 2 * pipe.length < trRank c + 2 * s.pipe.length := by
  unfold trRank
  cases h with
  | setUp htodo hpc =>
      rcases hpc with ⟨hpc, hpc'⟩ | ⟨hpc, hpc'⟩ | ⟨hpc, hpc'⟩ <;>
        rw [hpc, hpc', htodo] <;> dsimp only <;> omega
  | exec ho hpc hpc' htodo =>
      rw [hpc, hpc', htodo]
      dsimp only
      omega
  | fails ho hpc hpc' htodo =>
      rw [hpc, hpc', htodo]
      dsimp only
      omega
  | exits hpc hpc' htodo hend =>
      rw [hpc, hpc']
      dsimp only
      omega
  | writes hpc hpc' htodo hne hn =>
      have hpos := List.length_pos_iff.mpr hne
      rcases hpc with hpc | hpc <;> rw [hpc', hpc, htodo] <;>
        simp only [List.length_drop] <;> omega
  | reads hpc hpc' hne hn htodo =>
      have hpos := List.length_pos_iff.mpr hne
      rw [hpc, hpc', htodo]
      simp only [List.length_append, List.length_map, List.length_take,
        List.length_drop]
      omega
  | ends hpc hpc' htodo hnil hwriter =>
      rw [hpc, hpc', htodo]
      dsimp only
      omega

theorem shellMove_rank (hinv : ShellInv o out s)
    (h : ShellMove o cap s s' es) : shellRank o s' < shellRank o s := by
  cases h with
  | parent h => exact parentMove_rank (parentStep_move hinv h)
  | @ls c c' pipe hls hfds h =>
      have hchild : s.lsChild = c := by simp [Shell.lsChild, hls]
      have hless := lsMove_rank h
      unfold shellRank
      rw [hchild]
      show parentRank s.parent + lsRank o c' + 2 * pipe.length +
        trRank s.trChild < _
      omega
  | @tr c c' pipe es htr hfds h =>
      have hchild : s.trChild = c := by simp [Shell.trChild, htr]
      have hless := trMove_rank h
      unfold shellRank
      rw [hchild]
      show parentRank s.parent + lsRank o s.lsChild + 2 * pipe.length +
        trRank c' < _
      omega

/-! ## Somebody can make a step -/

/-- The first child waits only for room in the pipe. -/
theorem exists_lsStep (hcap : 1 ≤ cap) (hinv : ShellInv o out s)
    (hls : s.ls = some c) (halive : c.pc ≠ .exited)
    (hroom : c.pc = .writes → s.pipe = [] ∨ s.hasReader = false) :
    ∃ n next, s.lsStep o cap n c = some next := by
  have hfds := hinv.lsChild_fds hls
  refine ⟨1, Option.isSome_iff_exists.mp ?_⟩
  unfold Shell.lsStep
  cases hpc : c.pc with
  | closeUnused | dup | closeUsed => simp [Child.setUp, hpc]
  | exec => rfl
  | filters =>
      have hchild : s.lsChild = c := by simp [Shell.lsChild, hls]
      exact absurd hpc (hchild ▸ hinv.lsWrites)
  | writes =>
      have hstdout : c.fds 1 = .writeEnd := by
        rw [hfds, hpc]
        decide
      dsimp only
      unfold Shell.writeStep
      rw [hstdout]
      by_cases hnil : c.todo = []
      · simp [hnil]
      rcases hroom hpc with hpipe | hreader
      · by_cases hreader : s.hasReader = true <;>
          simp [hnil, hpipe, hreader, Nat.not_lt.mpr hcap]
      · simp [hnil, hreader]
  | exited => exact absurd hpc halive

/-- The second child waits only for input. -/
theorem exists_trStep (hinv : ShellInv o out s) (htr : s.tr = some c)
    (halive : c.pc ≠ .exited)
    (hinput : c.pc = .filters → s.pipe ≠ [] ∨ s.hasWriter = false) :
    (∃ n next, s.trStep o cap n c = some next) ∨
      ∃ n next, s.readStep o n c = some next := by
  have hfds := hinv.trChild_fds htr
  cases hpc : c.pc with
  | closeUnused | dup | closeUsed =>
      refine Or.inl ⟨1, Option.isSome_iff_exists.mp ?_⟩
      simp [Shell.trStep, Child.setUp, hpc]
  | exec =>
      refine Or.inl ⟨1, Option.isSome_iff_exists.mp ?_⟩
      simp [Shell.trStep, hpc]
  | filters =>
      have hstdin : c.fds 0 = .readEnd := by
        rw [hfds, hpc]
        decide
      refine Or.inr ⟨1, Option.isSome_iff_exists.mp ?_⟩
      unfold Shell.readStep
      rw [if_pos ⟨hpc, hstdin⟩]
      by_cases hpipe : s.pipe = []
      · simp [hpipe, (hinput hpc).resolve_left (not_not.mpr hpipe)]
      · simp [hpipe]
  | writes =>
      have hstdout : c.fds 1 = .terminal := by
        rw [hfds, hpc]
        decide
      refine Or.inl ⟨1, Option.isSome_iff_exists.mp ?_⟩
      unfold Shell.trStep
      rw [hpc]
      dsimp only
      unfold Shell.writeStep
      rw [hstdout]
      by_cases hnil : c.todo = [] <;> simp [hnil]
  | exited => exact absurd hpc halive

theorem any_fdTables_eq_false {end' : Target}
    (hparent : holds s.fds end' = false)
    (hls : ∀ c, s.ls = some c → holds c.fds end' = false)
    (htr : ∀ c, s.tr = some c → holds c.fds end' = false) :
    (s.fdTables.any fun fds => holds fds end') = false := by
  simp only [List.any_eq_false, Shell.fdTables, List.mem_cons, List.mem_map,
    List.mem_append, Option.mem_toList]
  rintro fds (rfl | ⟨c, hls' | htr', rfl⟩)
  · simp [hparent]
  · simp [hls c hls']
  · simp [htr c htr']

/-- A parent that waits in vain has a child that runs. -/
theorem exists_running (hs : Collects s) (hwait : s.wait = none) :
    (∃ c, s.ls = some c ∧ c.pc ≠ .exited) ∨
      ∃ c, s.tr = some c ∧ c.pc ≠ .exited := by
  by_contra hnone
  push Not at hnone
  have hall : s.ended = s.children := by
    unfold Shell.ended Shell.children
    rw [← List.length_append, List.length_filter_eq_length_iff]
    simp only [List.mem_append, Option.mem_toList, decide_eq_true_eq]
    rintro c (hc | hc)
    · exact hnone.1 c hc
    · exact hnone.2 c hc
  have hle := hs.le
  unfold Shell.wait at hwait
  split at hwait
  next => simp at hwait
  next hlt =>
    have hcollected : s.collected = s.children := by omega
    rw [if_pos hcollected] at hwait
    cases hwait

theorem exists_lsTurn (hls : s.ls = some c)
    (h : ∃ n next, s.lsStep o cap n c = some next) :
    ∃ turn next, shellStep o cap s turn = some next := by
  obtain ⟨n, next, h⟩ := h
  exact ⟨.ls n, _, by simp only [shellStep, hls, Option.bind_some, h]; rfl⟩

theorem exists_trTurn (htr : s.tr = some c)
    (h : (∃ n next, s.trStep o cap n c = some next) ∨
      ∃ n next, s.readStep o n c = some next) :
    ∃ turn next, shellStep o cap s turn = some next := by
  rcases h with ⟨n, next, h⟩ | ⟨n, next, h⟩
  · exact ⟨.tr n, _, by simp only [shellStep, htr, Option.bind_some, h]; rfl⟩
  · exact ⟨.trReads n, _,
      by simp only [shellStep, htr, Option.bind_some, h]; rfl⟩

/-- The parent waits for a child that can make a step. -/
theorem exists_childStep (hcap : 1 ≤ cap) (hinv : ShellInv o out s)
    (hs : Collects s) (hpc : s.parent = .waitFirst ∨ s.parent = .waitSecond)
    (hwait : s.wait = none) :
    ∃ turn next, shellStep o cap s turn = some next := by
  have hreadEnd : holds s.fds .readEnd = false := by
    rcases hpc with hpc | hpc <;>
      rw [hinv.parentFds, parentFds_readEnd, hpc] <;> rfl
  have hwriteEnd : holds s.fds .writeEnd = false := by
    rcases hpc with hpc | hpc <;>
      rw [hinv.parentFds, parentFds_writeEnd, hpc] <;> rfl
  by_cases htr : ∃ c, s.tr = some c ∧ c.pc ≠ .exited
  · obtain ⟨c, hc, halive⟩ := htr
    by_cases hls : s.pipe = [] ∧ ∃ c', s.ls = some c' ∧ c'.pc ≠ .exited
    · obtain ⟨hpipe, c', hc', halive'⟩ := hls
      exact exists_lsTurn hc'
        (exists_lsStep hcap hinv hc' halive' (fun _ => Or.inl hpipe))
    · refine exists_trTurn hc (exists_trStep hinv hc halive fun hfilters => ?_)
      by_cases hpipe : s.pipe = []
      · -- The end of the file: the first child has left.
        refine Or.inr (any_fdTables_eq_false hwriteEnd ?_ ?_)
        · intro c' hc'
          have hexited : c'.pc = .exited := by
            by_contra halive'
            exact hls ⟨hpipe, c', hc', halive'⟩
          rw [hinv.lsChild_fds hc', lsFds_writeEnd, hexited]
          rfl
        · intro c' hc'
          obtain rfl := Option.some.inj (hc.symm.trans hc')
          rw [hinv.trChild_fds hc, trFds_writeEnd, hfilters]
          rfl
      · exact Or.inl hpipe
  · obtain ⟨c, hc, halive⟩ := (exists_running hs hwait).resolve_right htr
    refine exists_lsTurn hc
      (exists_lsStep hcap hinv hc halive fun hwrites => Or.inr ?_)
    -- Nobody is left that could read.
    refine any_fdTables_eq_false hreadEnd ?_ ?_
    · intro c' hc'
      obtain rfl := Option.some.inj (hc.symm.trans hc')
      rw [hinv.lsChild_fds hc, lsFds_readEnd, hwrites]
      rfl
    · intro c' hc'
      have hexited : c'.pc = .exited := by
        by_contra halive'
        exact htr ⟨c', hc', halive'⟩
      rw [hinv.trChild_fds hc', trFds_readEnd, hexited]
      rfl

theorem exists_shellStep (hcap : 1 ≤ cap) (hinv : ShellInv o out s)
    (hs : Collects s) (hrunning : s.parent ≠ .exited) :
    ∃ es s', (shellSystem o cap).step s es s' := by
  have hturn : ∃ turn next, shellStep o cap s turn = some next := by
    cases hpc : s.parent with
    | forkLs | forkTr | closeRead | closeWrite | closeAgain =>
        exact ⟨.parent, _, by simp only [shellStep, Shell.parentStep, hpc]; rfl⟩
    | waitFirst =>
        cases hwait : s.wait with
        | none => exact exists_childStep hcap hinv hs (Or.inl hpc) hwait
        | some s₁ =>
            exact ⟨.parent, _, by
              simp only [shellStep, Shell.parentStep, hpc, hwait]; rfl⟩
    | waitSecond =>
        cases hwait : s.wait with
        | none => exact exists_childStep hcap hinv hs (Or.inr hpc) hwait
        | some s₁ =>
            exact ⟨.parent, _, by
              simp only [shellStep, Shell.parentStep, hpc, hwait]; rfl⟩
    | exited => exact absurd hpc hrunning
  obtain ⟨turn, next, hstep⟩ := hturn
  exact ⟨next.2, next.1, turn, hstep⟩

end Steps

/-- The pipeline comes to its end, whatever its processes do first: a run has
boundedly many steps, and one that cannot go on has seen the parent exit. -/
theorem pipeline_ends (o : Outcomes) {cap n : ℕ} (hcap : 1 ≤ cap)
    {tr : List UInt8} {s : Shell}
    (h : (shellSystem o cap).Steps .start n tr s) :
    n ≤ 18 + 3 * o.source.length + trFailed.length ∧
      (s.parent ≠ .exited → ∃ es s', (shellSystem o cap).step s es s') := by
  obtain ⟨hinv, hs⟩ := exec_inv ⟨Shell.start, rfl, h.run⟩
  refine ⟨?_, exists_shellStep hcap hinv hs⟩
  have hbound := h.rank_le (fun s => ∃ out, ShellInv o out s) (shellRank o)
    (fun _ => 0) (fun _ _ => Nat.le_refl 0)
    (by
      rintro s es s' ⟨out, hinv⟩ hstep
      have hmove := hinv.move hstep
      exact ⟨⟨_, shellInv_move hinv hmove⟩, shellMove_rank hinv hmove⟩)
    ⟨[], shellInv_start o⟩
  have hstart : shellRank o .start =
      18 + 3 * o.source.length + trFailed.length := by
    show 7 + (5 + 3 * o.source.length) + 2 * 0 + (6 + trFailed.length + 0) = _
    omega
  omega

theorem pipeline_ends_fileA :
    (∃ n s, (shellSystem fileA 1).Steps .start n [65, 10] s ∧
        s.parent = .exited ∧ n ≤ 18 + 3 * 2 + trFailed.length) ∧
      ∃ s : Shell, s.parent = .forkTr ∧
        ∃ es s', (shellSystem fileA 1).step s es s' := by
  constructor
  · obtain ⟨s, hrun, hexit, -⟩ := fileA_run
    obtain ⟨n, hsteps⟩ := hrun.steps
    exact ⟨n, s, hsteps, hexit, (pipeline_ends fileA (Nat.le_refl 1) hsteps).1⟩
  · have hfork : (shellSystem fileA 1).step .start []
        { Shell.start with parent := .forkTr, ls := some newborn } :=
      ⟨.parent, rfl⟩
    exact ⟨_, rfl, (pipeline_ends fileA (Nat.le_refl 1) (.tail .refl hfork)).2
      (by decide)⟩

end Pvos.PipeRedirect
