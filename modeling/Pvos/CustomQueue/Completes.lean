import Pvos.CustomQueue.Stored
import Pvos.Support.Steps

/-!
# The operations on a ring queue complete

When no further operation is called, those in flight come to an end after a
bounded number of statements, whatever the scheduler does.  What is left over
is a queue that is full, where only calls of `send` wait, or one that is empty,
where only calls of `recv` wait: the mutex is never the reason to wait.
-/

namespace Pvos.CustomQueue

open Pvos.Support

/-- The statements of a process up to the return of its operation. -/
def OpPc.unfinished : OpPc → ℕ
  | .idle => 0
  | pc => pc.remaining

theorem OpPc.unfinished_le (pc : OpPc) : pc.unfinished ≤ 6 := by
  cases pc <;> simp [unfinished, remaining]

theorem OpStep.unfinished_lt {q : MQueue} {g g' : Ring} {pc : OpPc}
    {buf : Memory} {op : OpLocal} {es : List RingEvent}
    (h : OpStep q g buf pc g' op es) (hidle : pc ≠ .idle) :
    op.pc.unfinished + 1 ≤ pc.unfinished := by
  cases h with
  | callSend msg => exact absurd rfl hidle
  | callRecv => exact absurd rfl hidle
  | _ => simp [OpPc.unfinished, OpPc.remaining]

/-- All interleavings in which every process finishes its operation and calls
no other. -/
def finishingSystem (P : Type*) [DecidableEq P] (q : MQueue) :
    System (Config P Ring OpLocal) RingEvent :=
  (ringProgram P q).systemWhen (RingInit q)
    fun s p _ => (s.loc p).pc.inSend = true ∨ (s.loc p).pc.inRecv = true

section Finishing

variable {P : Type*} [DecidableEq P] {q : MQueue} {tr es : List RingEvent}
  {s s' : Config P Ring OpLocal} {n : ℕ}

theorem finishingSystem_step (h : (finishingSystem P q).step s es s') :
    ∃ p g' op, OpStep q s.shared (s.loc p).msgbuf (s.loc p).pc g' op es ∧
      (s.loc p).pc ≠ .idle ∧ s' = Program.move s p g' op := by
  obtain ⟨p, call, hinside, hexec⟩ := h
  obtain ⟨g', op, hproc, rfl⟩ := Program.exec_eq_some hexec
  refine ⟨p, g', op, opStep_cases hproc, ?_, rfl⟩
  intro hidle
  simp [hidle, OpPc.inSend, OpPc.inRecv] at hinside

/-- Finishing the operations is one way to go on. -/
theorem finishingSystem_run (h : (finishingSystem P q).Steps s n es s') :
    (ringSystem P q).Run s es s' := by
  induction h with
  | refl => exact .refl
  | tail _ hstep ih =>
      obtain ⟨p, call, _, hexec⟩ := hstep
      exact ih.tail (Program.system_step_iff.mpr ⟨p, call, hexec⟩)

/-- When the operations have come to their end, a process that could take its
next statement is outside both functions. -/
theorem idle_of_final (hfinal : (finishingSystem P q).Final s) {p : P}
    (hnext : ∃ g' op es,
      opStep q .recv s.shared (s.loc p) = some (g', op, es)) :
    (s.loc p).pc.inSend = false ∧ (s.loc p).pc.inRecv = false := by
  obtain ⟨g', op, es, hproc⟩ := hnext
  constructor
  · by_contra hsend
    exact hfinal es _ ⟨p, .recv, Or.inl (eq_true_of_ne_false hsend),
      Program.exec_of_proc hproc⟩
  · by_contra hrecv
    exact hfinal es _ ⟨p, .recv, Or.inr (eq_true_of_ne_false hrecv),
      Program.exec_of_proc hproc⟩

theorem not_inFlight_of_final (hfinal : (finishingSystem P q).Final s) {p : P}
    (hnext : ∃ g' op es,
      opStep q .recv s.shared (s.loc p) = some (g', op, es)) :
    (s.loc p).pc.inFlight = 0 := by
  obtain ⟨hsend, hrecv⟩ := idle_of_final hfinal hnext
  by_contra hflight
  rcases (s.loc p).pc.inSend_or_inRecv hflight with hin | hin
  · simp [hsend] at hin
  · simp [hrecv] at hin

/-- A process that holds nothing waits for the permit it begins with, unless it
is outside both functions. -/
theorem waits_of_final (hfinal : (finishingSystem P q).Final s) {p : P}
    (hflight : (s.loc p).pc.inFlight = 0) :
    (s.loc p).pc = .idle ∨
      (∃ msg, (s.loc p).pc = .sendWaitFull msg) ∧ s.shared.semFull = 0 ∨
      (s.loc p).pc = .recvWaitEmpty ∧ s.shared.semEmpty = 0 := by
  have hidle := idle_of_final hfinal (p := p)
  rcases hloc : s.loc p with ⟨pc, buf⟩
  rw [hloc] at hflight hidle
  cases pc with
  | idle => exact Or.inl rfl
  | sendWaitFull msg =>
      refine Or.inr (Or.inl ⟨⟨msg, rfl⟩, ?_⟩)
      by_contra hpermit
      have hpos : 0 < s.shared.semFull := Nat.pos_of_ne_zero hpermit
      simp [opStep, semWait, hpos, OpPc.inSend] at hidle
  | recvWaitEmpty =>
      refine Or.inr (Or.inr ⟨rfl, ?_⟩)
      by_contra hpermit
      have hpos : 0 < s.shared.semEmpty := Nat.pos_of_ne_zero hpermit
      simp [opStep, semWait, hpos, OpPc.inRecv] at hidle
  | _ => simp [OpPc.inFlight] at hflight

variable [Fintype P]

/-- Every statement brings the operations nearer to their end. -/
theorem finishing_steps_le (h : (finishingSystem P q).Steps s n es s') :
    n ≤ 6 * Fintype.card P := by
  have hrank := h.rank_le (fun _ => True)
    (fun c => total (fun l : OpLocal => l.pc.unfinished) c.loc) (fun _ => 0)
    (fun _ _ => Nat.le_refl 0) ?_ trivial
  · have hstart : total (fun l : OpLocal => l.pc.unfinished) s.loc ≤
        6 * Fintype.card P :=
      total_le_mul_card fun p => (s.loc p).pc.unfinished_le
    omega
  · intro c es c' _ hstep
    obtain ⟨p, g', op, hop, hidle, rfl⟩ := finishingSystem_step hstep
    have hless := hop.unfinished_lt hidle
    have htotal := total_update (fun l : OpLocal => l.pc.unfinished) c.loc p op
    simp only [Program.move_loc]
    exact ⟨trivial, by omega⟩

section Finals

variable {queued : List (List UInt8)}

/-- Inside the mutex no statement waits, so the mutex is free in the end. -/
theorem RingInv.mutex_of_final (h : RingInv q tr queued s)
    (hfinal : (finishingSystem P q).Final s) : s.shared.semMutex = 1 := by
  have houtside : ∀ p, (s.loc p).pc.holdsMutex = 0 := by
    intro p
    by_contra hinside
    have hflight := not_inFlight_of_final hfinal (p := p)
      (exists_opStep q .recv
        (fun msg hpc => absurd (by rw [hpc]; rfl) hinside)
        (fun hpc => absurd (by rw [hpc]; rfl) hinside)
        (fun hzero => absurd hzero hinside))
    exact hinside ((s.loc p).pc.holds_nothing hflight).1
  have hmutex := h.mutex
  rwa [total_eq_zero (w := fun l : OpLocal => l.pc.holdsMutex) houtside]
    at hmutex

theorem RingInv.nothing_inFlight (h : RingInv q tr queued s)
    (hfinal : (finishingSystem P q).Final s) (p : P) :
    (s.loc p).pc.inFlight = 0 := by
  have hmutex := h.mutex_of_final hfinal
  by_contra hflight
  exact hflight (not_inFlight_of_final hfinal
    (exists_opStep q .recv
      (fun msg hpc => absurd (by rw [hpc]; rfl) hflight)
      (fun hpc => absurd (by rw [hpc]; rfl) hflight)
      (fun _ => by omega)))

/-- The permits left over are those for the free places and for the stored
messages. -/
theorem RingInv.permits_of_final (h : RingInv q tr queued s)
    (hfinal : (finishingSystem P q).Final s) :
    s.shared.semFull + queued.length = q.cap ∧
      s.shared.semEmpty = queued.length := by
  have hnothing := fun p =>
    (s.loc p).pc.holds_nothing (h.nothing_inFlight hfinal p)
  have hspace := h.space
  have hitems := h.items
  rw [total_eq_zero (w := fun l : OpLocal => l.pc.holdsSpace)
    fun p => (hnothing p).2.1] at hspace
  rw [total_eq_zero (w := fun l : OpLocal => l.pc.holdsItem)
    fun p => (hnothing p).2.2] at hitems
  exact ⟨hspace, hitems⟩

end Finals

end Finishing

/-! ## Nothing but a full or an empty queue makes a call wait -/

/-- From every reachable state, when no further operation is called, at most
six statements for each process are left.  In the end every process has
returned, or the queue is full and the others wait in `send`, or it is empty and
the others wait in `recv`. -/
theorem operations_complete {P : Type*} [Fintype P] [DecidableEq P] (q : MQueue)
    (hcap : 0 < q.cap) (hlt : q.cap < uintModulus) {tr es : List RingEvent}
    {s s' : Config P Ring OpLocal} {n : ℕ} (h : (ringSystem P q).Exec tr s)
    (hsteps : (finishingSystem P q).Steps s n es s') :
    n ≤ 6 * Fintype.card P ∧
      ((finishingSystem P q).Final s' →
        (∀ p, (s'.loc p).pc = .idle) ∨
          (sentMessages (tr ++ es)).length =
              (receivedMessages (tr ++ es)).length + q.cap ∧
            (∀ p, (s'.loc p).pc = .idle ∨
              ∃ msg, (s'.loc p).pc = .sendWaitFull msg) ∨
          sentMessages (tr ++ es) = receivedMessages (tr ++ es) ∧
            ∀ p, (s'.loc p).pc = .idle ∨ (s'.loc p).pc = .recvWaitEmpty) := by
  refine ⟨finishing_steps_le hsteps, ?_⟩
  intro hfinal
  obtain ⟨queued, hinv⟩ :=
    ringInv_run hcap hlt (h.run (finishingSystem_run hsteps))
  obtain ⟨hspace, hitems⟩ := hinv.permits_of_final hfinal
  have hwaits := fun p => waits_of_final hfinal (hinv.nothing_inFlight hfinal p)
  have hhistory := hinv.history
  by_cases hfull : s'.shared.semFull = 0
  · refine Or.inr (Or.inl ⟨?_, fun p => ?_⟩)
    · rw [hhistory, List.length_append]
      omega
    · rcases hwaits p with hidle | ⟨hsend, _⟩ | ⟨_, hempty⟩
      · exact Or.inl hidle
      · exact Or.inr hsend
      · omega
  by_cases hempty : s'.shared.semEmpty = 0
  · refine Or.inr (Or.inr ⟨?_, fun p => ?_⟩)
    · rw [hhistory, List.length_eq_zero_iff.mp (hitems.symm.trans hempty),
        List.append_nil]
    · rcases hwaits p with hidle | ⟨_, hpermit⟩ | ⟨hrecv, _⟩
      · exact Or.inl hidle
      · exact absurd hpermit hfull
      · exact Or.inr hrecv
  · refine Or.inl fun p => ?_
    rcases hwaits p with hidle | ⟨_, hpermit⟩ | ⟨_, hpermit⟩
    · exact hidle
    · exact absurd hpermit hfull
    · exact absurd hpermit hempty

/-- On a fresh queue one process has called `send` and another one `recv`. -/
def bothCalled : Config Bool Ring OpLocal :=
  Program.move
    (Program.move freshQueue true freshQueue.shared
      ⟨.sendWaitFull fun _ => 65, fun _ => 0⟩)
    false freshQueue.shared ⟨.recvWaitEmpty, fun _ => 0⟩

/-- The message goes across. -/
theorem operations_complete_both_called :
    ∃ n es s', (finishingSystem Bool ⟨5, 30⟩).Steps bothCalled n es s' ∧
      (receivedMessages es).length = 1 ∧ n ≤ 6 * Fintype.card Bool ∧
      ((finishingSystem Bool ⟨5, 30⟩).Final s' →
        (∀ p, (s'.loc p).pc = .idle) ∨
          (sentMessages es).length = (receivedMessages es).length + 5 ∧
            (∀ p, (s'.loc p).pc = .idle ∨
              ∃ msg, (s'.loc p).pc = .sendWaitFull msg) ∨
          sentMessages es = receivedMessages es ∧
            ∀ p, (s'.loc p).pc = .idle ∨ (s'.loc p).pc = .recvWaitEmpty) := by
  have hexec : (ringSystem Bool ⟨5, 30⟩).Exec [] bothCalled :=
    ⟨freshQueue, ⟨rfl, rfl, rfl, rfl, rfl, fun _ => rfl⟩,
      Program.run_of_runSchedule
        [(true, Call.send fun _ => 65), (false, Call.recv)] rfl⟩
  have hrun : (finishingSystem Bool ⟨5, 30⟩).Run bothCalled _ _ :=
    Program.run_of_runScheduleWhen
      (List.replicate 6 (true, Call.recv) ++
        List.replicate 6 (false, Call.recv)) rfl
  obtain ⟨n, hsteps⟩ := hrun.steps
  exact ⟨n, _, _, hsteps, rfl,
    operations_complete ⟨5, 30⟩ (by decide) (by decide) hexec hsteps⟩

end Pvos.CustomQueue
