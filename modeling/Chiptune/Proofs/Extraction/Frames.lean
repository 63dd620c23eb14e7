import Chiptune.Extraction.Sampling
import Mathlib.Data.List.Basic

/-!
# Frames are played, then latched

`Source.sampleFrames` interleaves two things: it plays the frame routine, and it
latches what each play wrote.  Here they are taken apart.  `Source.play` only
plays, and `sampleFrames_eq` says that sampling is a fold of `Frames.add` over
the runs that were played.  A statement about snapshots then needs one lemma
about `Frames.add`, and a statement about two samplings one about two plays.

A sampling takes one of three courses, by how setting the song up ends
(`sample_of_fault`, `sample_of_timedOut`, `sample_of_halted`).  Only in the last
of them there are frames, and `Sampling.ofRuns` is what their runs add up to.

A report finds nothing wrong exactly if the song was set up and all its frames
halted (`Source.degraded_sample_iff`).  Such a song is its writes and its runs
(`Source.Sound`).

Snapshot `k` has frame number `k`, and every snapshot is of the chip that was
sampled (`Source.numbered_sample`).
-/

namespace Chiptune

namespace Source

variable {σ : Type} (source : Source σ)

/-- Plays `count` frames, or as many as there are before a fault, and gives
their runs. -/
def play (budget : ℕ) : (count : ℕ) → σ → List Run × Option Fault
  | 0, _ => ([], none)
  | count + 1, s =>
    match source.run budget (source.enter .frame s) with
    | (.ok run, s) => (run :: (play budget count s).1, (play budget count s).2)
    | (.error fault, _) => ([], some fault)

theorem length_play_le (budget count : ℕ) (s : σ) :
    (source.play budget count s).1.length ≤ count := by
  induction count generalizing s with
  | zero => exact Nat.le_refl 0
  | succ count ih =>
      unfold play
      rcases source.run budget (source.enter .frame s) with ⟨fault | run, next⟩
      · exact Nat.zero_le _
      · exact Nat.succ_le_succ (ih next)

/-- Frames are missing exactly if one of them faulted. -/
theorem length_play_eq_iff (budget count : ℕ) (s : σ) :
    (source.play budget count s).1.length = count ↔ (source.play budget count s).2 = none := by
  induction count generalizing s with
  | zero => exact iff_of_true rfl rfl
  | succ count ih =>
      unfold play
      rcases source.run budget (source.enter .frame s) with ⟨fault | run, next⟩
      · exact iff_of_false (Nat.succ_ne_zero count).symm nofun
      · exact Nat.succ_inj.trans (ih next)

theorem sampleFrames_eq (budget count : ℕ) (frames : Frames) (s : σ) :
    source.sampleFrames budget count frames s =
      ((source.play budget count s).1.foldl Frames.add frames, (source.play budget count s).2) := by
  induction count generalizing frames s with
  | zero => rfl
  | succ count ih =>
      unfold sampleFrames play
      rcases source.run budget (source.enter .frame s) with ⟨run | fault, next⟩
      · rfl
      · exact ih _ _

end Source

/-! ## The three courses of a sampling -/

/-- A song that `writes` have set up, before its first frame. -/
def Frames.ready (chip : Chip) (writes : List Write) : Frames :=
  ⟨(Latch.powerOn chip).applyAll writes, #[], 0, writes.length⟩

/-- The sampling of a song that `writes` have set up and that was played in `runs`,
up to a fault if there is one. -/
def Sampling.ofRuns (chip : Chip) (writes : List Write) (runs : List Run) (fault : Option Fault) :
    Sampling :=
  let frames := runs.foldl Frames.add (.ready chip writes)
  { baseline := (Latch.powerOn chip).snapshot 0
    snapshots := frames.snapshots.toList
    initOutcome := some .halted
    timeouts := frames.timeouts
    fault := fault.map fun fault => ⟨some frames.snapshots.size, fault⟩
    writes := frames.writes }

namespace Source

variable {σ : Type} {source : Source σ} {config : Config} {s next : σ}

theorem sample_of_fault {fault : Fault}
    (h : source.run config.initBudget.toNat (source.enter .init s) = (.error fault, next))
    (chip : Chip) :
    source.sample config chip s =
      ⟨(Latch.powerOn chip).snapshot 0, [], none, 0, some ⟨none, fault⟩, 0⟩ := by
  unfold sample
  rw [h]

theorem sample_of_timedOut {writes : List Write} {steps : ℕ}
    (h : source.run config.initBudget.toNat (source.enter .init s) =
      (.ok ⟨writes, steps, .timedOut⟩, next))
    (chip : Chip) :
    source.sample config chip s =
      ⟨(Latch.powerOn chip).snapshot 0, [], some .timedOut, 0, none, 0⟩ := by
  unfold sample
  rw [h]

theorem sample_of_halted {writes : List Write} {steps : ℕ}
    (h : source.run config.initBudget.toNat (source.enter .init s) =
      (.ok ⟨writes, steps, .halted⟩, next))
    (chip : Chip) :
    source.sample config chip s =
      .ofRuns chip writes (source.play config.frameBudget.toNat config.frameCount.toNat next).1
        (source.play config.frameBudget.toNat config.frameCount.toNat next).2 := by
  unfold sample
  rw [h]
  simp only [sampleFrames_eq]
  rfl

/-- A song faults while it is set up, takes too long to be set up, or is played. -/
theorem sample_cases (source : Source σ) (config : Config) (chip : Chip) (s : σ) :
    (∃ fault, source.sample config chip s =
      ⟨(Latch.powerOn chip).snapshot 0, [], none, 0, some ⟨none, fault⟩, 0⟩) ∨
    source.sample config chip s =
      ⟨(Latch.powerOn chip).snapshot 0, [], some .timedOut, 0, none, 0⟩ ∨
    ∃ writes ready, source.sample config chip s =
      .ofRuns chip writes (source.play config.frameBudget.toNat config.frameCount.toNat ready).1
        (source.play config.frameBudget.toNat config.frameCount.toNat ready).2 := by
  rcases hinit : source.run config.initBudget.toNat (source.enter .init s) with
    ⟨fault | ⟨writes, steps, outcome⟩, ready⟩
  · exact .inl ⟨fault, sample_of_fault hinit chip⟩
  · cases outcome with
    | timedOut => exact .inr (.inl (sample_of_timedOut hinit chip))
    | halted => exact .inr (.inr ⟨writes, ready, sample_of_halted hinit chip⟩)

end Source

theorem Frames.size_foldl_add (runs : List Run) (frames : Frames) :
    (runs.foldl Frames.add frames).snapshots.size = frames.snapshots.size + runs.length := by
  induction runs generalizing frames with
  | nil => rfl
  | cons run rest ih =>
      rw [List.foldl_cons, ih, List.length_cons]
      simp only [Frames.add, Array.size_push]
      omega

/-- Adding up runs only adds snapshots. -/
theorem Frames.prefix_foldl_add (runs : List Run) (frames : Frames) :
    frames.snapshots.toList <+: (runs.foldl Frames.add frames).snapshots.toList := by
  induction runs generalizing frames with
  | nil => exact List.prefix_rfl
  | cons run rest ih =>
      have hadd : frames.snapshots.toList <+: (frames.add run).snapshots.toList := by
        unfold Frames.add
        rw [Array.toList_push]
        exact List.prefix_append _ _
      exact hadd.trans (ih (frames.add run))

theorem Frames.timeouts_foldl_add (runs : List Run) (frames : Frames) :
    (runs.foldl Frames.add frames).timeouts =
      frames.timeouts + runs.countP fun run => run.outcome = .timedOut := by
  induction runs generalizing frames with
  | nil => rfl
  | cons run rest ih =>
      rw [List.foldl_cons, ih, List.countP_cons]
      unfold Frames.add
      simp only [decide_eq_true_eq]
      omega

namespace Sampling

variable (chip : Chip) (writes : List Write) (runs : List Run) (fault : Option Fault)

/-- There is a snapshot of every run. -/
@[simp] theorem length_snapshots_ofRuns :
    (ofRuns chip writes runs fault).snapshots.length = runs.length :=
  (Frames.size_foldl_add runs (.ready chip writes)).trans (Nat.zero_add _)

@[simp] theorem timeouts_ofRuns :
    (ofRuns chip writes runs fault).timeouts =
      runs.countP fun run => run.outcome = .timedOut :=
  (Frames.timeouts_foldl_add runs (.ready chip writes)).trans (Nat.zero_add _)

/-- The frame that faulted comes after all the runs. -/
@[simp] theorem fault_ofRuns :
    (ofRuns chip writes runs fault).fault = fault.map fun fault => ⟨some runs.length, fault⟩ := by
  simp only [ofRuns, Frames.size_foldl_add, Frames.ready, List.size_toArray, List.length_nil,
    Nat.zero_add]

theorem timeouts_ofRuns_eq_zero_iff :
    (ofRuns chip writes runs fault).timeouts = 0 ↔ ∀ run ∈ runs, run.outcome = .halted := by
  rw [timeouts_ofRuns, List.countP_eq_zero]
  refine forall₂_congr fun run _ => ?_
  cases run.outcome <;> decide

end Sampling

/-! ## Songs that go well -/

namespace Source

variable {σ : Type} (source : Source σ)

/-- The song is set up by `writes`, and all its frames halt in `runs`. -/
structure Sound (config : Config) (s : σ) (writes : List Write) (runs : List Run) : Prop where
  played : ∃ steps ready,
    source.run config.initBudget.toNat (source.enter .init s) =
        (.ok ⟨writes, steps, .halted⟩, ready) ∧
      source.play config.frameBudget.toNat config.frameCount.toNat ready = (runs, none)
  halted : ∀ run ∈ runs, run.outcome = .halted

variable {source} {config : Config} {s : σ}

theorem Sound.sample_eq {writes : List Write} {runs : List Run}
    (h : source.Sound config s writes runs) (chip : Chip) :
    source.sample config chip s = .ofRuns chip writes runs none := by
  obtain ⟨steps, ready, hinit, hplay⟩ := h.played
  rw [sample_of_halted hinit, hplay]

/-- Nothing went wrong with a song exactly if it was set up and all its frames halted. -/
theorem degraded_sample_iff {chip : Chip} {index events : ℕ} :
    ((source.sample config chip s).diagnostics index events).degraded = false ↔
      ∃ writes runs, source.Sound config s writes runs := by
  constructor
  · intro h
    rcases hinit : source.run config.initBudget.toNat (source.enter .init s) with
      ⟨fault | ⟨writes, steps, outcome⟩, ready⟩
    · rw [sample_of_fault hinit] at h
      cases h
    · cases outcome with
      | timedOut =>
          rw [sample_of_timedOut hinit] at h
          cases h
      | halted =>
          rcases hplay : source.play config.frameBudget.toNat config.frameCount.toNat ready with
            ⟨runs, fault?⟩
          simp only [sample_of_halted hinit, hplay, Sampling.diagnostics, Diagnostics.degraded,
            Bool.or_eq_false_iff, decide_eq_false_iff_not, Sampling.fault_ofRuns,
            Option.isSome_map] at h
          obtain ⟨⟨-, htimeouts⟩, hfault⟩ := h
          obtain rfl : fault? = none :=
            Option.isNone_iff_eq_none.mp (Option.isSome_eq_false_iff.mp hfault)
          exact ⟨writes, runs, ⟨steps, ready, hinit, hplay⟩,
            (Sampling.timeouts_ofRuns_eq_zero_iff ..).mp (Nat.eq_zero_of_not_pos htimeouts)⟩
  · rintro ⟨writes, runs, h⟩
    have hnone := (Sampling.timeouts_ofRuns_eq_zero_iff chip writes runs none).mpr h.halted
    rw [h.sample_eq chip]
    simp only [Sampling.diagnostics, Diagnostics.degraded, hnone]
    rfl

end Source

/-! ## Numbered snapshots -/

/-- The frames so far are numbered from zero, and all belong to one chip. -/
structure Frames.Numbered (chip : Chip) (frames : Frames) : Prop where
  latch_chip : frames.latch.chip = chip
  chip_eq : ∀ s ∈ frames.snapshots.toList, s.chip = chip
  frame_eq : frames.snapshots.toList.map (·.frame) = List.range frames.snapshots.size

theorem Frames.Numbered.add {chip : Chip} {frames : Frames} (h : frames.Numbered chip)
    (run : Run) : (frames.add run).Numbered chip := by
  have hlatch : (frames.latch.applyAll run.writes).chip = chip := by
    rw [Latch.chip_applyAll, h.latch_chip]
  refine ⟨hlatch, fun s hs => ?_, ?_⟩
  · rcases List.mem_append.mp (Array.toList_push ▸ hs) with hs | hs
    · exact h.chip_eq s hs
    · rw [List.mem_singleton.mp hs]
      exact hlatch
  · simp only [Frames.add, Array.toList_push, Array.size_push, List.map_append, h.frame_eq,
      List.range_succ]
    rfl

theorem Frames.Numbered.foldl_add {chip : Chip} {frames : Frames} (h : frames.Numbered chip)
    (runs : List Run) : (runs.foldl Frames.add frames).Numbered chip := by
  induction runs generalizing frames with
  | nil => exact h
  | cons run rest ih => exact ih (h.add run)

/-- The snapshots are numbered from zero, and all belong to one chip. -/
structure Sampling.Numbered (chip : Chip) (s : Sampling) : Prop where
  baseline_chip : s.baseline.chip = chip
  chip_eq : ∀ snapshot ∈ s.snapshots, snapshot.chip = chip
  frame_eq : s.snapshots.map (·.frame) = List.range s.snapshots.length

theorem Sampling.numbered_ofRuns (chip : Chip) (writes : List Write) (runs : List Run)
    (fault : Option Fault) : (ofRuns chip writes runs fault).Numbered chip := by
  have hready : (Frames.ready chip writes).Numbered chip :=
    ⟨Latch.chip_applyAll _ _, by simp [Frames.ready], rfl⟩
  have hframes := hready.foldl_add runs
  refine ⟨rfl, hframes.chip_eq, ?_⟩
  unfold ofRuns
  rw [Array.length_toList]
  exact hframes.frame_eq

theorem Source.numbered_sample {σ : Type} (source : Source σ) (config : Config) (chip : Chip)
    (s : σ) : (source.sample config chip s).Numbered chip := by
  obtain ⟨fault, h⟩ | h | ⟨writes, ready, h⟩ := source.sample_cases config chip s
  · rw [h]
    exact ⟨rfl, by simp, rfl⟩
  · rw [h]
    exact ⟨rfl, by simp, rfl⟩
  · rw [h]
    exact Sampling.numbered_ofRuns chip writes _ _

theorem Sampling.Numbered.chip_of_mem {chip : Chip} {s : Sampling} (h : s.Numbered chip)
    {snapshot : Snapshot} (hmem : snapshot ∈ s.baseline :: s.snapshots) : snapshot.chip = chip := by
  rcases List.mem_cons.mp hmem with rfl | hmem
  · exact h.baseline_chip
  · exact h.chip_eq snapshot hmem

theorem Sampling.Numbered.pairwise_frames {chip : Chip} {s : Sampling} (h : s.Numbered chip) :
    s.snapshots.Pairwise fun a b => a.frame < b.frame := by
  have hrange : (s.snapshots.map (·.frame)).Pairwise (· < ·) := by
    rw [h.frame_eq]
    exact List.pairwise_lt_range
  exact List.pairwise_map.mp hrange

theorem Sampling.Numbered.frame_getElem? {chip : Chip} {s : Sampling} (h : s.Numbered chip)
    {k : ℕ} {snapshot : Snapshot} (hk : s.snapshots[k]? = some snapshot) :
    snapshot.frame = k := by
  have hframe := congrArg (·[k]?) h.frame_eq
  obtain ⟨hlt, rfl⟩ := List.getElem?_eq_some_iff.mp hk
  simpa [hlt] using hframe

end Chiptune
