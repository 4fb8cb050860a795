import Pvos.Checksum.Passes
import Pvos.Support.System

/-!
# The loop over the numbers ends

The loop is run here with any `sscanf` of which it is only known that with a
number it counts the bytes consumed: at least one, and none behind the end of
the text.  `bytes_read` and `current_num` hold anything at the start.  The loop
is the one of all servers and of the FIFO consumer, which differ in what they
do behind the guard: `read_data_from_client` returns -1, the others leave the
loop.
-/

namespace Pvos.Checksum

open Pvos.Support

/-! ## The loop with any `sscanf` -/

/-- `sscanf` with `%d%n`: nothing when it does not return 1, and else the
number, and what `%n` stores if it stores anything. -/
abbrev Sscanf := Text → Option (ℤ × Option ℤ)

/-- With a number, `bytes_read` is the positive number of bytes consumed, and at
most the length of the text. -/
def CountsConsumed (sscanf : Sscanf) : Prop :=
  ∀ text num stored, sscanf text = some (num, stored) →
    ∃ n : ℕ, stored = some (n : ℤ) ∧ 0 < n ∧ n ≤ text.length

/-- `strlen(buffer)` is `n`. -/
structure IsStrlen (buffer : Memory) (n : ℕ) : Prop where
  zero : buffer n = 0
  before : ∀ i < n, buffer i ≠ 0

/-- The variables of the loop. -/
structure ScanVars where
  sum : ℤ
  currentNum : ℤ
  offset : ℤ
  bytesRead : ℤ

/-- The assignments of one pass; a `%n` that is not stored leaves the old
`bytes_read`. -/
def ScanVars.next (v : ScanVars) (num : ℤ) (stored : Option ℤ) : ScanVars where
  sum := toInt32 (v.sum + num)
  currentNum := num
  offset := v.offset + stored.getD v.bytesRead
  bytesRead := stored.getD v.bytesRead

/-- At the condition of the loop, in the branch of `bytes_read <= 0`, or behind
the loop. -/
inductive ScanPlace
  | loop (v : ScanVars)
  | guarded (v : ScanVars)
  | ended (v : ScanVars)

/-- The condition of the loop, and the pass behind it. -/
def scanStep (sscanf : Sscanf) (buffer : Memory) (size : ℕ) :
    ScanPlace → Option (ScanPlace × List ScanVars)
  | .loop v =>
      match sscanf (buffer.cstring size v.offset.toNat) with
      | none => some (.ended v, [])
      | some (num, stored) =>
          let next := v.next num stored
          if next.bytesRead ≤ 0 then some (.guarded next, [next])
          else some (.loop next, [next])
  | .guarded _ => none
  | .ended _ => none

/-- The loop over a buffer; each pass shows its variables. -/
def scanSystem (sscanf : Sscanf) (buffer : Memory) (size : ℕ) :
    System ScanPlace ScanVars where
  init p := ∃ currentNum bytesRead, p = .loop ⟨0, currentNum, 0, bytesRead⟩
  step p vs p' := scanStep sscanf buffer size p = some (p', vs)

/-- The loop over a string of `n` bytes makes at most `n` passes, with `offset`
inside the string, never comes to the branch of its guard, and ends from
wherever it is. -/
structure ScanEnds (sscanf : Sscanf) (buffer : Memory) (size n : ℕ) : Prop where
  passes : ∀ tr p, (scanSystem sscanf buffer size).Exec tr p → tr.length ≤ n
  offsets : ∀ tr p, (scanSystem sscanf buffer size).Exec tr p →
    ∀ v ∈ tr, 0 ≤ v.offset ∧ v.offset ≤ n
  unguarded : ∀ v, ¬ (scanSystem sscanf buffer size).Reachable (.guarded v)
  ends : ∀ p, (scanSystem sscanf buffer size).Reachable p →
    ∃ tr v, (scanSystem sscanf buffer size).Run p tr (.ended v)

/-! ## What one pass does -/

/-- What is left of a string. -/
theorem IsStrlen.length_cstring {buffer : Memory} {n size start : ℕ}
    (h : IsStrlen buffer n) (hsize : n < size) (hstart : start ≤ n) :
    (buffer.cstring size start).length = n - start := by
  have hstring : buffer.cstring size start = buffer.bytes start (n - start) := by
    refine Memory.cstring_of_bytes (n := n - start + 1) ?_ (by omega) ?_
    · intro b hb
      obtain ⟨i, hi, rfl⟩ := List.mem_map.mp hb
      rw [List.mem_range] at hi
      exact h.before (start + i) (by omega)
    · rw [Memory.bytes_add, Nat.add_sub_cancel' hstart]
      simp [Memory.bytes, h.zero]
  rw [hstring, Memory.length_bytes]

section Steps

variable {sscanf : Sscanf} {buffer : Memory} {size n : ℕ} {p p' : ScanPlace}
  {vs : List ScanVars}

/-- The loop ends, or a pass moves `offset` on inside the string. -/
theorem scanStep_cases (hsscanf : CountsConsumed sscanf)
    (hstrlen : IsStrlen buffer n) (hsize : n < size) {v : ScanVars}
    (hlow : 0 ≤ v.offset) (hhigh : v.offset ≤ n)
    (h : scanStep sscanf buffer size (.loop v) = some (p', vs)) :
    (p' = .ended v ∧ vs = []) ∨
      ∃ v', p' = .loop v' ∧ vs = [v'] ∧ v.offset < v'.offset ∧
        v'.offset ≤ n := by
  have hlength : (buffer.cstring size v.offset.toNat).length =
      n - v.offset.toNat := hstrlen.length_cstring hsize (by omega)
  rw [scanStep] at h
  split at h
  next =>
    obtain ⟨rfl, rfl⟩ := Prod.ext_iff.mp (Option.some.inj h)
    exact .inl ⟨rfl, rfl⟩
  next num stored hscan =>
    obtain ⟨bytesRead, rfl, hpos, hle⟩ := hsscanf _ _ _ hscan
    have hgoes : ¬ (v.next num (some (bytesRead : ℤ))).bytesRead ≤ 0 := by
      dsimp only [ScanVars.next, Option.getD_some]
      omega
    rw [if_neg hgoes] at h
    obtain ⟨rfl, rfl⟩ := Prod.ext_iff.mp (Option.some.inj h)
    refine .inr ⟨_, rfl, rfl, ?_, ?_⟩
    · dsimp only [ScanVars.next, Option.getD_some]
      omega
    · dsimp only [ScanVars.next, Option.getD_some]
      omega

end Steps

/-! ## The passes of a run -/

/-- The passes so far and the place of the loop: each pass has moved `offset` by
one at least. -/
inductive ScanInv (n : ℕ) (tr : List ScanVars) : ScanPlace → Prop
  | loop (v : ScanVars) (hpasses : (tr.length : ℤ) ≤ v.offset)
      (hhigh : v.offset ≤ n) (hoffsets : ∀ w ∈ tr, 0 ≤ w.offset ∧ w.offset ≤ n) :
      ScanInv n tr (.loop v)
  | ended (v : ScanVars) (hpasses : (tr.length : ℤ) ≤ v.offset)
      (hhigh : v.offset ≤ n) (hoffsets : ∀ w ∈ tr, 0 ≤ w.offset ∧ w.offset ≤ n) :
      ScanInv n tr (.ended v)

/-- The bytes that the loop has not yet consumed, and its end. -/
def scanRank (n : ℕ) : ScanPlace → ℕ
  | .loop v => (n - v.offset).toNat + 1
  | _ => 0

section Runs

variable {sscanf : Sscanf} {buffer : Memory} {size n : ℕ} {tr vs : List ScanVars}
  {p p' : ScanPlace}

theorem scanInv_init (h : (scanSystem sscanf buffer size).init p) :
    ScanInv n [] p := by
  obtain ⟨currentNum, bytesRead, rfl⟩ := h
  exact .loop _ le_rfl (Int.natCast_nonneg n) (by simp)

theorem ScanInv.step (hsscanf : CountsConsumed sscanf)
    (hstrlen : IsStrlen buffer n) (hsize : n < size) (h : ScanInv n tr p)
    (hstep : (scanSystem sscanf buffer size).step p vs p') :
    ScanInv n (tr ++ vs) p' ∧ scanRank n p' < scanRank n p := by
  cases h with
  | ended v => simp [scanSystem, scanStep] at hstep
  | loop v hpasses hhigh hoffsets =>
      have hlow : 0 ≤ v.offset := by omega
      rcases scanStep_cases hsscanf hstrlen hsize hlow hhigh hstep with
        ⟨rfl, rfl⟩ | ⟨v', rfl, rfl, hmoved, hhigh'⟩
      · rw [List.append_nil]
        exact ⟨.ended v hpasses hhigh hoffsets, Nat.succ_pos _⟩
      · refine ⟨.loop v' ?_ hhigh' ?_, ?_⟩
        · rw [List.length_append, List.length_singleton]
          omega
        · intro w hw
          rcases List.mem_append.mp hw with hold | hnew
          · exact hoffsets w hold
          · rw [List.mem_singleton.mp hnew]
            omega
        · dsimp only [scanRank]
          omega

theorem scanInv_exec (hsscanf : CountsConsumed sscanf)
    (hstrlen : IsStrlen buffer n) (hsize : n < size)
    (h : (scanSystem sscanf buffer size).Exec tr p) : ScanInv n tr p :=
  h.invariant (I := ScanInv n) (fun _ hinit => scanInv_init hinit)
    fun _ _ _ _ hinv hstep => (hinv.step hsscanf hstrlen hsize hstep).1

/-- The loop always goes on from its condition. -/
theorem not_final_loop (v : ScanVars) :
    ¬ (scanSystem sscanf buffer size).Final (.loop v) := by
  have hgoes : ∃ next, scanStep sscanf buffer size (.loop v) = some next := by
    rw [scanStep]
    split
    next => exact ⟨_, rfl⟩
    next =>
      dsimp only
      split <;> exact ⟨_, rfl⟩
  obtain ⟨⟨p, vs⟩, hstep⟩ := hgoes
  exact fun hfinal => hfinal vs p hstep

theorem scanEnds (hsscanf : CountsConsumed sscanf)
    (hstrlen : IsStrlen buffer n) (hsize : n < size) :
    ScanEnds sscanf buffer size n := by
  refine ⟨?_, ?_, ?_, ?_⟩
  · intro tr p hexec
    cases scanInv_exec hsscanf hstrlen hsize hexec with
    | loop v hpasses hhigh => omega
    | ended v hpasses hhigh => omega
  · intro tr p hexec
    cases scanInv_exec hsscanf hstrlen hsize hexec with
    | loop v _ _ hoffsets => exact hoffsets
    | ended v _ _ hoffsets => exact hoffsets
  · rintro v ⟨tr, hexec⟩
    cases scanInv_exec hsscanf hstrlen hsize hexec
  · rintro p ⟨tr, hexec⟩
    have hinv := scanInv_exec hsscanf hstrlen hsize hexec
    have hrun := System.exists_run_final_of_invariant
      (S := scanSystem sscanf buffer size)
      (I := fun p => ∃ tr, ScanInv n tr p) (scanRank n)
      (fun _ _ _ ⟨_, h⟩ hstep => ⟨_, (h.step hsscanf hstrlen hsize hstep).1⟩)
      (fun _ _ _ ⟨_, h⟩ hstep => (h.step hsscanf hstrlen hsize hstep).2)
      ⟨tr, hinv⟩
    obtain ⟨tr', p', hrun, hfinal, tr'', hinv'⟩ := hrun
    cases hinv' with
    | loop v => exact absurd hfinal (not_final_loop v)
    | ended v => exact ⟨tr', v, hrun⟩

end Runs

/-! ## The loop of the programs -/

/-- `sscanf` as it converts a number. -/
def sscanfD : Sscanf := fun text =>
  (sscanfInt text).map fun found => (found.1, some (found.2 : ℤ))

theorem countsConsumed_sscanfD : CountsConsumed sscanfD := by
  intro text num stored h
  obtain ⟨⟨num', n⟩, hscan, hfound⟩ := Option.map_eq_some_iff.mp h
  obtain ⟨-, rfl⟩ := Prod.ext_iff.mp hfound
  exact ⟨n, rfl, sscanfInt_pos hscan, sscanfInt_le hscan⟩

/-- The variables without `bytes_read`. -/
def ScanVars.state (v : ScanVars) : ScanState where
  sum := v.sum
  currentNum := v.currentNum
  offset := v.offset.toNat

section Programs

variable {buffer : Memory} {size : ℕ}

theorem state_next {v : ScanVars} (num : ℤ) (n : ℕ) (hlow : 0 ≤ v.offset) :
    (v.next num (some (n : ℤ))).state = v.state.next num n := by
  have hoffset : (v.offset + (n : ℤ)).toNat = v.offset.toNat + n := by omega
  simp [ScanVars.next, ScanVars.state, ScanState.next, hoffset]

/-- A run shows the passes of the loop, and ends with its variables. -/
theorem scanLoop_run {todo : ℕ} {v : ScanVars} (hlow : 0 ≤ v.offset)
    (htodo : (buffer.cstring size v.offset.toNat).length < todo) :
    ∃ tr v', (scanSystem sscanfD buffer size).Run (.loop v) tr (.ended v') ∧
      tr.map ScanVars.state = passesFrom buffer size todo v.state ∧
      scanLoop buffer size todo v.state = .done v'.state := by
  induction todo generalizing v with
  | zero => omega
  | succ todo ih =>
      cases hscan : sscanfInt (buffer.cstring size v.offset.toNat) with
      | none =>
          have hstep : (scanSystem sscanfD buffer size).step (.loop v) []
              (.ended v) := by
            simp [scanSystem, scanStep, sscanfD, hscan]
          refine ⟨[], v, .single hstep, ?_, ?_⟩
          · rw [passesFrom_none (s := v.state) hscan, List.map_nil]
          · simp only [scanLoop, ScanVars.state, hscan]
      | some found =>
          obtain ⟨num, n⟩ := found
          have hpos := sscanfInt_pos hscan
          have hshort := length_cstring_next (s := v.state) hscan
          have hstate := state_next num n hlow
          rw [← hstate] at hshort
          have hstep : (scanSystem sscanfD buffer size).step (.loop v)
              [v.next num (some (n : ℤ))] (.loop (v.next num (some (n : ℤ)))) := by
            simp [scanSystem, scanStep, sscanfD, hscan, ScanVars.next, hpos.ne']
          have hlow' : 0 ≤ (v.next num (some (n : ℤ))).offset :=
            Int.add_nonneg hlow (Int.natCast_nonneg n)
          obtain ⟨tr, v', hrun, hpasses, hloop⟩ :=
            ih hlow' (Nat.lt_of_lt_of_le hshort (Nat.le_of_lt_succ htodo))
          refine ⟨_, v', .head hstep hrun, ?_, ?_⟩
          · rw [passesFrom_some (s := v.state) hscan, ← hstate, ← hpasses]
            rfl
          · rw [← hloop, hstate]
            have hguard : ¬ n ≤ 0 := Nat.not_le.mpr hpos
            simp only [scanLoop, ScanVars.state, hscan, if_neg hguard]

/-- The loop over a buffer, with anything in the uninitialised variables. -/
theorem scan_run (buffer : Memory) (size : ℕ) (currentNum bytesRead : ℤ) :
    ∃ tr v, (scanSystem sscanfD buffer size).Exec tr (.ended v) ∧
      tr.map ScanVars.state = passes buffer size currentNum ∧
      scan buffer size currentNum = .done v.state := by
  obtain ⟨tr, v, hrun, hpasses, hscan⟩ :=
    scanLoop_run (v := ⟨0, currentNum, 0, bytesRead⟩) le_rfl
      (length_cstring_start buffer size currentNum)
  exact ⟨tr, v, ⟨_, ⟨currentNum, bytesRead, rfl⟩, hrun⟩, hpasses, hscan⟩

end Programs

end Pvos.Checksum
