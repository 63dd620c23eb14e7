import Chiptune.Proofs.Replay.Calls
import Chiptune.Proofs.Replay.Halting

/-!
# Runs can be split

A run within a budget is a run within a part of it, and then another one within the
rest (`Source.run_splits`).  A first part that halts or faults is all there is.  If it
times out, it has used up its own part and the source has not halted, so the second
run goes on from there as if nothing had come between.

The loop looks whether the source has halted before it looks at the budget.  A run
that takes its last step to halt has halted, therefore, and what it reports of its end
can be read off the state that it leaves behind (`Source.Reports`).
-/

namespace Chiptune

/-- The result of a run, when it goes on with what another one results in. -/
def Run.followedBy {σ : Type} (first : Run) : Except Fault Run × σ → Except Fault Run × σ
  | (.ok rest, last) =>
    (.ok ⟨first.writes ++ rest.writes, first.steps + rest.steps, rest.outcome⟩, last)
  | (.error fault, last) => (.error fault, last)

namespace Source

variable {σ : Type} {source : Source σ} {s last : σ} {writes : List Write} {steps : ℕ}

/-! ## Steps that are made without a fault -/

theorem goesOn_of_halts (h : source.Halts s writes steps last) :
    source.GoesOn s writes steps last ∧ source.halted last = true := by
  induction h with
  | done hhalted => exact ⟨.here, hhalted⟩
  | step hrunning hstep _ ih => exact ⟨.step hrunning hstep ih.1, ih.2⟩

/-- What a source has done in some steps is what it answers to as many calls. -/
theorem answerAll_of_goesOn (h : source.GoesOn s writes steps last) :
    ∃ reports, source.answerAll (List.replicate steps .step) s = (.ok reports, last) ∧
      writes = reports.flatten := by
  induction h with
  | here => exact ⟨[], rfl, rfl⟩
  | @step s next last writes rest steps _ hstep _ ih =>
      obtain ⟨reports, hreports, hrest⟩ := ih
      have hanswer : source.answer .step s = (.ok writes, next) := hstep
      refine ⟨writes :: reports, answerAll_cons_of_ok hanswer hreports, ?_⟩
      rw [List.flatten_cons, hrest]

/-- A run goes through the first steps, and then it is the run from where they lead to. -/
theorem run_add_of_goesOn (h : source.GoesOn s writes steps last) (outcome : Outcome)
    (more : ℕ) :
    source.run (steps + more) s =
      Run.followedBy ⟨writes, steps, outcome⟩ (source.run more last) := by
  induction h with
  | @here s =>
      rw [Nat.zero_add]
      rcases source.run more s with ⟨fault | run, last⟩
      · rfl
      · simp [Run.followedBy]
  | @step s next last writes rest steps hrunning hstep _ ih =>
      rw [Nat.add_right_comm, source.run_succ_of_step_ok hrunning hstep, ih]
      rcases source.run more last with ⟨fault | run, final⟩
      · rfl
      · have hcount : 1 + (steps + run.steps) = steps + 1 + run.steps := by omega
        simp only [Run.followedBy, List.append_assoc, hcount]

/-! ## What a run reports -/

/-- What a run within a budget reports is what happened between two states: its writes are
those of as many steps as it counts, and it has halted if the source has. -/
structure Reports (source : Source σ) (budget : ℕ) (s : σ) (run : Run) (last : σ) : Prop where
  steps_le : run.steps ≤ budget
  outcome_iff : run.outcome = .halted ↔ source.halted last = true
  writes : ∃ reports, source.answerAll (List.replicate run.steps .step) s = (.ok reports, last) ∧
    run.writes = reports.flatten

theorem reports_of_run {budget : ℕ} {run : Run} (h : source.run budget s = (.ok run, last)) :
    source.Reports budget s run last := by
  cases houtcome : run.outcome with
  | halted =>
      obtain ⟨hhalts, hsteps⟩ := halts_of_run h houtcome
      obtain ⟨hgoes, hhalted⟩ := goesOn_of_halts hhalts
      exact ⟨hsteps, iff_of_true houtcome hhalted, answerAll_of_goesOn hgoes⟩
  | timedOut =>
      obtain ⟨hgoes, hsteps, hrunning⟩ := goesOn_of_run h houtcome
      refine ⟨Nat.le_of_eq hsteps, ?_, answerAll_of_goesOn (hsteps ▸ hgoes)⟩
      rw [houtcome, hrunning]
      exact iff_of_false nofun nofun

/-- However a budget is split, a run within it is a run within the first part and, if that
one times out, another one within the second part from where the first has ended. -/
theorem run_splits (source : Source σ) (budget : ℕ) (s : σ) :
    (∀ fault last, source.run budget s = (.error fault, last) →
      ∀ more, source.run (budget + more) s = (.error fault, last)) ∧
    ∀ run last, source.run budget s = (.ok run, last) →
      source.Reports budget s run last ∧
      (run.outcome = .halted → ∀ more, source.run (budget + more) s = (.ok run, last)) ∧
      (run.outcome = .timedOut → run.steps = budget ∧ source.halted last = false ∧
        ∀ more, source.run (budget + more) s = run.followedBy (source.run more last)) := by
  refine ⟨fun fault last h more => run_error_of_le (Nat.le_add_right budget more) h,
    fun run last h => ⟨reports_of_run h, fun houtcome more => ?_, fun houtcome => ?_⟩⟩
  · exact run_of_le (Nat.le_add_right budget more) h houtcome
  · obtain ⟨hgoes, hsteps, hrunning⟩ := goesOn_of_run h houtcome
    refine ⟨hsteps, hrunning, fun more => ?_⟩
    rw [run_add_of_goesOn hgoes run.outcome, ← hsteps]

/-- A source that counts down, writing the number that it has come to, until it is over at
zero.  It does not know how to go on from five. -/
def countdown : Source ℕ where
  name := "countdown"
  enter _ n := n
  step n := if n = 5 then (.error (.illegalOpcode 5 0), n) else (.ok [⟨0, n.toUInt8, 0⟩], n - 1)
  halted n := n == 0

/-- From three, the first two steps time out, and the third one is the last. -/
theorem run_splits_countdown :
    (countdown.run 1 6 = (.ok ⟨[⟨0, 6, 0⟩], 1, .timedOut⟩, 5) ∧
      countdown.run (1 + 9) 6 = (.error (.illegalOpcode 5 0), 5)) ∧
    countdown.run 2 3 = (.ok ⟨[⟨0, 3, 0⟩, ⟨0, 2, 0⟩], 2, .timedOut⟩, 1) ∧
      countdown.run (2 + 1) 3 =
        (.ok ⟨[⟨0, 3, 0⟩, ⟨0, 2, 0⟩, ⟨0, 1, 0⟩], 3, .halted⟩, 0) := by
  have hfault : countdown.run 2 6 = (.error (.illegalOpcode 5 0), 5) := rfl
  have hlate : countdown.run 1 6 = (.ok ⟨[⟨0, 6, 0⟩], 1, .timedOut⟩, 5) := rfl
  have hfirst : countdown.run 2 3 = (.ok ⟨[⟨0, 3, 0⟩, ⟨0, 2, 0⟩], 2, .timedOut⟩, 1) := rfl
  obtain ⟨-, -, hmore⟩ := ((run_splits countdown 2 3).2 _ _ hfirst).2.2 rfl
  exact ⟨⟨hlate, (run_splits countdown 2 6).1 _ _ hfault 8⟩, hfirst, hmore 1⟩

end Source

end Chiptune
