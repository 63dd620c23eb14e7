import Chiptune.Proofs.Extraction.Frames
import Chiptune.Proofs.Replay.Histories

/-!
# A sampling is a history

Sampling a song asks a source for one thing after the other: to set the song up, and then
for its frames (`Config.requests`).  The snapshot of a frame is the chip after all writes
that have been reported so far, and up to there nothing has faulted
(`Source.exists_collect_of_snapshot`).  So what holds of all histories that do not fault
holds of every frame that is sampled, whether the frames before it halted or ran out of
steps.
-/

namespace Chiptune

/-- What sampling asks of a source in order to set a song up and play some frames. -/
def Config.requests (config : Config) (frames : ℕ) : List Request :=
  .enter .init :: .run config.initBudget.toNat ::
    (List.replicate frames [.enter .frame, .run config.frameBudget.toNat]).flatten

/-- The snapshot of a frame is taken after the runs up to this frame. -/
theorem Frames.getElem?_foldl_add {runs : List Run} {k : ℕ} (hk : k < runs.length)
    (frames : Frames) :
    (runs.foldl Frames.add frames).snapshots.toList[frames.snapshots.size + k]? =
      some ((frames.latch.applyAll ((runs.take (k + 1)).flatMap (·.writes))).snapshot
        (frames.snapshots.size + k)) := by
  induction runs generalizing k frames with
  | nil => cases hk
  | cons run rest ih =>
      have hsize : (frames.add run).snapshots.size = frames.snapshots.size + 1 :=
        Array.size_push _
      cases k with
      | zero =>
          have hfirst : (frames.add run).snapshots.toList[frames.snapshots.size]? =
              some ((frames.latch.applyAll run.writes).snapshot frames.snapshots.size) := by
            unfold Frames.add
            simp
          -- Frames that come later add their snapshots behind this one.
          have hlater := Frames.prefix_foldl_add rest (frames.add run)
          obtain ⟨hlt, hvalue⟩ := List.getElem?_eq_some_iff.mp hfirst
          rw [List.foldl_cons, Nat.add_zero, List.prefix_iff_getElem?.mp hlater _ hlt, hvalue]
          simp
      | succ k =>
          have hrest := ih (Nat.lt_of_succ_lt_succ hk) (frames.add run)
          rw [hsize, Nat.add_assoc, Nat.add_comm 1 k] at hrest
          rw [List.foldl_cons, hrest, List.take_succ_cons, List.flatMap_cons,
            Latch.applyAll_append]
          rfl

namespace Source

variable {σ : Type} {source : Source σ}

/-- Entering a routine and running it reports what the run reports. -/
theorem collect_enter_run {routine : Routine} {budget : ℕ} {s next : σ} {run : Run}
    (hrun : source.run budget (source.enter routine s) = (.ok run, next))
    {rest : List Request} {others : List Write} (hrest : source.collect rest next = .ok others) :
    source.collect (.enter routine :: .run budget :: rest) s = .ok (run.writes ++ others) := by
  have henter : source.grant (.enter routine) s = (.ok [], source.enter routine s) := rfl
  have hgrant : source.grant (.run budget) (source.enter routine s) = (.ok run.writes, next) := by
    rw [grant, hrun]
  have hentered := collect_cons_of_ok henter (collect_cons_of_ok hgrant hrest)
  rwa [List.nil_append] at hentered

/-- The frames that are played report what their runs report. -/
theorem collect_play {budget count k : ℕ} {s : σ} (hk : k < (source.play budget count s).1.length) :
    source.collect (List.replicate (k + 1) [.enter .frame, .run budget]).flatten s =
      .ok (((source.play budget count s).1.take (k + 1)).flatMap (·.writes)) := by
  induction count generalizing k s with
  | zero => cases hk
  | succ count ih =>
      unfold play at hk ⊢
      rcases hrun : source.run budget (source.enter .frame s) with ⟨fault | run, next⟩
      · rw [hrun] at hk
        cases hk
      · rw [hrun] at hk
        rw [List.replicate_succ, List.flatten_cons]
        cases k with
        | zero => exact collect_enter_run hrun rfl
        | succ k => exact collect_enter_run hrun (ih (Nat.lt_of_succ_lt_succ hk))

/-- The snapshot of a frame is the chip after all that was reported up to this frame. -/
theorem exists_collect_of_snapshot {config : Config} {chip : Chip} {s : σ} {k : ℕ}
    {snapshot : Snapshot} (h : (source.sample config chip s).snapshots[k]? = some snapshot) :
    ∃ writes, source.collect (config.requests (k + 1)) s = .ok writes ∧
      snapshot = ((Latch.powerOn chip).applyAll writes).snapshot k := by
  rcases hinit : source.run config.initBudget.toNat (source.enter .init s) with
    ⟨fault | ⟨writes, steps, outcome⟩, ready⟩
  · rw [sample_of_fault hinit] at h
    cases h
  · cases outcome with
    | timedOut =>
        rw [sample_of_timedOut hinit] at h
        cases h
    | halted =>
        rw [sample_of_halted hinit] at h
        have hk := (List.getElem?_eq_some_iff.mp h).1
        rw [Sampling.length_snapshots_ofRuns] at hk
        have hframe := Frames.getElem?_foldl_add hk (.ready chip writes)
        have hsize : (Frames.ready chip writes).snapshots.size = 0 := rfl
        rw [hsize, Nat.zero_add] at hframe
        refine ⟨_, collect_enter_run hinit (collect_play hk), ?_⟩
        rw [Latch.applyAll_append]
        exact Option.some.inj (h.symm.trans hframe)

end Source

end Chiptune
