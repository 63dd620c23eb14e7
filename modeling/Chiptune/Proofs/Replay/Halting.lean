import Chiptune.Replay.Source
import Mathlib.Data.List.Basic

/-!
# Runs that halt

`Source.run` is a loop with accumulators and a budget.  `Source.Halts` describes
the runs that halt without either: the source goes from one state to another in
some number of steps, which made some writes.  `run_eq_of_halts` and
`halts_of_run` say that this is what `run` finds when its budget allows the
steps, whatever the budget is.  A run that ends in a fault does not depend on its
budget either (`run_error_of_le`).  `Source.GoesOn` does the same for runs that time out.

`Source.afterFrames` is the state in which a number of frames leave a source,
each of them run within the same budget.
-/

namespace Chiptune

/-- What a write sets, whenever it does. -/
def Write.setting (w : Write) : Setting :=
  ⟨w.register, w.value⟩

theorem map_setting_write (tick : UInt32) (settings : List Setting) :
    (settings.map (Setting.write tick)).map Write.setting = settings := by
  rw [List.map_map]
  exact List.map_id settings

namespace Source

variable {σ : Type} (source : Source σ)

/-- The accumulators of a run only collect what it does. -/
theorem continueRun_eq (budget : ℕ) (writes : Array Write) (steps : ℕ) (s : σ) :
    source.continueRun budget writes steps s =
      match source.run budget s with
      | (.ok run, s') =>
        (.ok ⟨writes.toList ++ run.writes, steps + run.steps, run.outcome⟩, s')
      | (.error fault, s') => (.error fault, s') := by
  unfold run
  -- A run starts with empty accumulators, but its second step does not, so they have to be
  -- general in the induction.
  induction budget generalizing writes steps s with
  | zero => simp [continueRun]
  | succ budget ih =>
      unfold continueRun
      split
      · simp
      · cases hstep : source.step s with
        | mk result next =>
            cases result with
            | error fault => rfl
            | ok more =>
                simp only
                rw [ih (writes ++ more), ih (#[] ++ more)]
                cases hrest : source.continueRun budget #[] 0 next with
                | mk result last =>
                    cases result with
                    | error fault => rfl
                    | ok run => simp [Nat.add_assoc]

theorem run_of_halted {s : σ} (h : source.halted s = true) (budget : ℕ) :
    source.run budget s = (.ok ⟨[], 0, .halted⟩, s) := by
  unfold run
  cases budget <;> simp [continueRun, h]

theorem run_zero {s : σ} (h : source.halted s = false) :
    source.run 0 s = (.ok ⟨[], 0, .timedOut⟩, s) := by
  simp [run, continueRun, h]

theorem run_succ_of_step_ok {s next : σ} {writes : List Write} (h : source.halted s = false)
    (hstep : source.step s = (.ok writes, next)) (budget : ℕ) :
    source.run (budget + 1) s =
      match source.run budget next with
      | (.ok run, s') => (.ok ⟨writes ++ run.writes, 1 + run.steps, run.outcome⟩, s')
      | (.error fault, s') => (.error fault, s') := by
  conv_lhs => unfold run continueRun
  rw [if_neg (by simp [h]), hstep]
  simp only
  rw [continueRun_eq]
  simp

theorem run_succ_of_step_error {s next : σ} {fault : Fault} (h : source.halted s = false)
    (hstep : source.step s = (.error fault, next)) (budget : ℕ) :
    source.run (budget + 1) s = (.error fault, next) := by
  simp [run, continueRun, h, hstep]

/-! ## Halting runs -/

/-- From `s` the source halts in a last state, after `steps` steps that made
`writes`. -/
inductive Halts : (s : σ) → (writes : List Write) → (steps : ℕ) → (last : σ) → Prop where
  | done {s} : source.halted s = true → Halts s [] 0 s
  | step {s next last writes rest steps} : source.halted s = false →
      source.step s = (.ok writes, next) → Halts next rest steps last →
      Halts s (writes ++ rest) (steps + 1) last

variable {source}

theorem run_eq_of_halts {s last : σ} {writes : List Write} {steps : ℕ}
    (h : source.Halts s writes steps last) {budget : ℕ} (hbudget : steps ≤ budget) :
    source.run budget s = (.ok ⟨writes, steps, .halted⟩, last) := by
  induction h generalizing budget with
  | done hhalted => exact source.run_of_halted hhalted budget
  | step hrunning hstep _ ih =>
      obtain ⟨rest, rfl⟩ : ∃ rest, budget = rest + 1 := ⟨budget - 1, by omega⟩
      rw [source.run_succ_of_step_ok hrunning hstep, ih (by omega)]
      simp [Nat.add_comm]

theorem halts_of_run {budget : ℕ} {s last : σ} {run : Run}
    (h : source.run budget s = (.ok run, last)) (hhalted : run.outcome = .halted) :
    source.Halts s run.writes run.steps last ∧ run.steps ≤ budget := by
  induction budget generalizing s run with
  | zero =>
      cases hs : source.halted s with
      | true =>
          rw [source.run_of_halted hs] at h
          cases h
          exact ⟨.done hs, Nat.le_refl _⟩
      | false =>
          rw [source.run_zero hs] at h
          cases h
          cases hhalted
  | succ budget ih =>
      cases hs : source.halted s with
      | true =>
          rw [source.run_of_halted hs] at h
          cases h
          exact ⟨.done hs, Nat.zero_le _⟩
      | false =>
          rcases hstep : source.step s with ⟨fault | writes, next⟩
          · rw [source.run_succ_of_step_error hs hstep] at h
            cases h
          · rw [source.run_succ_of_step_ok hs hstep] at h
            rcases hrest : source.run budget next with ⟨fault | rest, s'⟩
            · rw [hrest] at h
              cases h
            · rw [hrest] at h
              cases h
              obtain ⟨hhalts, hsteps⟩ := ih hrest hhalted
              rw [Nat.add_comm 1]
              exact ⟨.step hs hstep hhalts, Nat.succ_le_succ hsteps⟩

/-! ## Runs that time out -/

variable (source)

/-- From `s` the source comes to a last state in `steps` steps that made `writes`, and has
not halted before. -/
inductive GoesOn : (s : σ) → (writes : List Write) → (steps : ℕ) → (last : σ) → Prop where
  | here {s} : GoesOn s [] 0 s
  | step {s next last writes rest steps} : source.halted s = false →
      source.step s = (.ok writes, next) → GoesOn next rest steps last →
      GoesOn s (writes ++ rest) (steps + 1) last

/-- A run within the budget uses it up before the routine is over. -/
def TimesOut (budget : ℕ) (s : σ) : Prop :=
  ∃ run last, source.run budget s = (.ok run, last) ∧ run.outcome = .timedOut

variable {source}

theorem run_eq_of_goesOn {s last : σ} {writes : List Write} {steps : ℕ}
    (h : source.GoesOn s writes steps last) (hrunning : source.halted last = false) :
    source.run steps s = (.ok ⟨writes, steps, .timedOut⟩, last) := by
  induction h with
  | here => exact source.run_zero hrunning
  | step hs hstep _ ih =>
      rw [source.run_succ_of_step_ok hs hstep, ih hrunning]
      simp [Nat.add_comm]

theorem goesOn_of_run {budget : ℕ} {s last : σ} {run : Run}
    (h : source.run budget s = (.ok run, last)) (htimedOut : run.outcome = .timedOut) :
    source.GoesOn s run.writes budget last ∧ run.steps = budget ∧ source.halted last = false := by
  induction budget generalizing s run with
  | zero =>
      cases hs : source.halted s with
      | true =>
          rw [source.run_of_halted hs] at h
          cases h
          cases htimedOut
      | false =>
          rw [source.run_zero hs] at h
          cases h
          exact ⟨.here, rfl, hs⟩
  | succ budget ih =>
      cases hs : source.halted s with
      | true =>
          rw [source.run_of_halted hs] at h
          cases h
          cases htimedOut
      | false =>
          rcases hstep : source.step s with ⟨fault | writes, next⟩
          · rw [source.run_succ_of_step_error hs hstep] at h
            cases h
          · rw [source.run_succ_of_step_ok hs hstep] at h
            rcases hrest : source.run budget next with ⟨fault | rest, s'⟩
            · rw [hrest] at h
              cases h
            · rw [hrest] at h
              cases h
              obtain ⟨hgoes, hsteps, hrunning⟩ := ih hrest htimedOut
              exact ⟨.step hs hstep hgoes, by rw [← hsteps, Nat.add_comm], hrunning⟩

/-- A run faults, halts, or times out. -/
theorem run_cases (source : Source σ) (budget : ℕ) (s : σ) :
    (∃ fault last, source.run budget s = (.error fault, last)) ∨
      (∃ run last, source.run budget s = (.ok run, last) ∧ run.outcome = .halted) ∨
      source.TimesOut budget s := by
  rcases hrun : source.run budget s with ⟨fault | run, last⟩
  · exact .inl ⟨fault, last, rfl⟩
  · cases houtcome : run.outcome with
    | halted => exact .inr (.inl ⟨run, last, rfl, houtcome⟩)
    | timedOut => exact .inr (.inr ⟨run, last, hrun, houtcome⟩)

/-! ## Larger budgets -/

variable {budget larger : ℕ} {s last : σ}

/-- A run that halts is the same within a larger budget. -/
theorem run_of_le (hle : budget ≤ larger) {run : Run}
    (h : source.run budget s = (.ok run, last)) (hhalted : run.outcome = .halted) :
    source.run larger s = (.ok run, last) := by
  obtain ⟨hhalts, hsteps⟩ := halts_of_run h hhalted
  rw [run_eq_of_halts hhalts (Nat.le_trans hsteps hle), ← hhalted]

/-- A run that faults is the same within a larger budget. -/
theorem run_error_of_le (hle : budget ≤ larger) {fault : Fault}
    (h : source.run budget s = (.error fault, last)) :
    source.run larger s = (.error fault, last) := by
  induction budget generalizing s larger with
  | zero =>
      cases hs : source.halted s with
      | true =>
          rw [source.run_of_halted hs] at h
          cases h
      | false =>
          rw [source.run_zero hs] at h
          cases h
  | succ budget ih =>
      obtain ⟨rest, rfl⟩ : ∃ rest, larger = rest + 1 := ⟨larger - 1, by omega⟩
      cases hs : source.halted s with
      | true =>
          rw [source.run_of_halted hs] at h
          cases h
      | false =>
          rcases hstep : source.step s with ⟨fault' | writes, next⟩
          · rw [source.run_succ_of_step_error hs hstep] at h
            rw [source.run_succ_of_step_error hs hstep, h]
          · rw [source.run_succ_of_step_ok hs hstep] at h
            rcases hrest : source.run budget next with ⟨fault' | run, last'⟩
            · rw [hrest] at h
              cases h
              rw [source.run_succ_of_step_ok hs hstep, ih (Nat.le_of_succ_le_succ hle) hrest]
            · rw [hrest] at h
              cases h

variable (source)

/-- The state after `count` frames, each of them run within the budget. -/
def afterFrames (budget : ℕ) (s : σ) : (count : ℕ) → σ
  | 0 => s
  | count + 1 => (source.run budget (source.enter .frame (afterFrames budget s count))).2

end Source

end Chiptune
