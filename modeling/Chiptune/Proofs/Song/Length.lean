import Chiptune.Proofs.Song.Expansion

/-!
# The length of a song

How many frames are sampled decides where a song ends, and nothing else.  Sampled
for fewer frames it is the same song, cut off (`extractSubsong_cut`): the rows are
the first ones, and a fault is reported if it comes before the cut.  So no frame
leaves a trace in the rows before it.  It does not matter either how the rows are
cut into patterns.

To play fewer frames is to stop earlier (`Source.play_of_le`).  A sampling is then
cut in all of its parts (`Sampling.Cut`), and as a row only depends on its own
snapshot and the one before, the rows are cut at the same place
(`Extractor.rows_of_cut`).
-/

namespace Chiptune

/-! ## Samplings -/

/-- The second sampling is the first one, cut off after a count of frames. -/
structure Sampling.Cut (count : ℕ) (long short : Sampling) : Prop where
  baseline : short.baseline = long.baseline
  snapshots : short.snapshots = long.snapshots.take count
  initOutcome : short.initOutcome = long.initOutcome
  /-- Only a frame that was cut off takes its fault with it. -/
  fault : short.fault = long.fault.filter fun record => record.frame.all (· < count)

theorem Sampling.cut_ofRuns (chip : Chip) (writes : List Write) (runs : List Run)
    (fault : Option Fault) (count : ℕ) :
    (ofRuns chip writes runs fault).Cut count
      (ofRuns chip writes (runs.take count) (fault.filter fun _ => runs.length < count)) := by
  have hprefix : (ofRuns chip writes (runs.take count) none).snapshots <+:
      (ofRuns chip writes runs fault).snapshots := by
    have h := Frames.prefix_foldl_add (runs.drop count)
      ((runs.take count).foldl Frames.add (.ready chip writes))
    rwa [← List.foldl_append, List.take_append_drop] at h
  refine ⟨rfl, ?_, rfl, ?_⟩
  · show (ofRuns chip writes (runs.take count) none).snapshots = _
    rw [List.prefix_iff_eq_take.mp hprefix, length_snapshots_ofRuns, List.length_take,
      ← length_snapshots_ofRuns chip writes runs fault, ← List.take_eq_take_min]
  · rw [fault_ofRuns, fault_ofRuns]
    cases fault with
    | none => rfl
    | some fault =>
        by_cases hcut : runs.length < count
        · simp [Option.filter_some, hcut, Nat.min_eq_right hcut.le]
        · simp [Option.filter_some, hcut]

namespace Source

variable {σ : Type} {source : Source σ}

/-- To play fewer frames is to stop earlier. -/
theorem play_of_le {short long : ℕ} (hle : short ≤ long) (budget : ℕ) (s : σ) :
    source.play budget short s =
      ((source.play budget long s).1.take short,
        (source.play budget long s).2.filter fun _ =>
          (source.play budget long s).1.length < short) := by
  induction short generalizing long s with
  | zero => simp [play]
  | succ short ih =>
      obtain ⟨rest, rfl⟩ : ∃ rest, long = rest + 1 := ⟨long - 1, by omega⟩
      unfold play
      rcases source.run budget (source.enter .frame s) with ⟨fault | run, next⟩
      · rfl
      · simp [ih (Nat.le_of_succ_le_succ hle) next]

variable {config longer : Config} {chip : Chip} {s : σ}

/-- Sampled for fewer frames a song is cut off. -/
theorem sample_cut (hinit : longer.initBudget = config.initBudget)
    (hframe : longer.frameBudget = config.frameBudget)
    (hcount : config.frameCount ≤ longer.frameCount) :
    (source.sample longer chip s).Cut config.frameCount.toNat (source.sample config chip s) := by
  rcases hrun : source.run config.initBudget.toNat (source.enter .init s) with
    ⟨fault | ⟨writes, steps, outcome⟩, next⟩
  · rw [sample_of_fault hrun, sample_of_fault (hinit ▸ hrun)]
    exact ⟨rfl, List.take_nil.symm, rfl, rfl⟩
  · cases outcome with
    | timedOut =>
        rw [sample_of_timedOut hrun, sample_of_timedOut (hinit ▸ hrun)]
        exact ⟨rfl, List.take_nil.symm, rfl, rfl⟩
    | halted =>
        rw [sample_of_halted hrun, sample_of_halted (hinit ▸ hrun), hframe,
          play_of_le (UInt64.le_iff_toNat_le.mp hcount)]
        exact Sampling.cut_ofRuns chip writes _ _ _

/-- A frame that faults comes after all those that have a snapshot. -/
theorem length_snapshots_of_fault {k : ℕ} {fault : Fault}
    (h : (source.sample config chip s).fault = some ⟨some k, fault⟩) :
    (source.sample config chip s).snapshots.length = k := by
  obtain ⟨fault', hcase⟩ | hcase | ⟨writes, ready, hcase⟩ := source.sample_cases config chip s
  · rw [hcase] at h
    cases h
  · rw [hcase] at h
    cases h
  · rw [hcase, Sampling.fault_ofRuns] at h
    obtain ⟨raised, -, heq⟩ := Option.map_eq_some_iff.mp h
    cases heq
    rw [hcase]
    exact Sampling.length_snapshots_ofRuns ..

end Source

/-! ## Songs -/

namespace Extractor

/-- Rows are cut where the snapshots are. -/
theorem rows_of_cut (x y : Extractor) (hjob : y.job = x.job)
    (htuning : y.config.tuning = x.config.tuning) {entry : Entry} {count : ℕ}
    (h : (y.sample entry).Cut count (x.sample entry)) (index : ℕ) :
    (x.extractSubsong index entry).1.rows = (y.extractSubsong index entry).1.rows.take count := by
  have hlength := congrArg List.length h.snapshots
  rw [List.length_take] at hlength
  have hextract : ∀ rows : Array Row, rows.toList.take count = (rows.extract 0 count).toList := by
    intro rows
    rw [Array.toList_extract, List.extract_eq_take_drop, List.drop_zero, Nat.sub_zero]
  rw [rows_extractSubsong, rows_extractSubsong, hextract]
  congr 1
  refine rows_ext ?_ fun k i hk => ?_
  · rw [Array.size_extract, size_rowsOf, size_rowsOf, hlength, Nat.sub_zero]
  · rw [size_rowsOf, hlength] at hk
    have hcount : k < count := by omega
    rw [cellAt_extract hcount]
    rcases Nat.lt_or_ge i x.job.chip.family.channelCount with hi | hi
    · -- Neither the snapshot of the row nor the one before it is cut off.
      obtain ⟨before, now, hbefore, hnow⟩ :=
        (y.sample entry).exists_before_now (k := k) (by omega)
      have hbefore' :
          ((x.sample entry).baseline :: (x.sample entry).snapshots)[k]? = some before := by
        rw [h.baseline, h.snapshots, ← List.take_succ_cons,
          List.getElem?_take_of_lt (Nat.lt_succ_of_lt hcount), hbefore]
      have hnow' : (x.sample entry).snapshots[k]? = some now := by
        rw [h.snapshots, List.getElem?_take_of_lt hcount, hnow]
      rw [x.cellAt_rows hbefore' hnow' hi, y.cellAt_rows hbefore hnow (hjob ▸ hi), htuning]
    · rw [cellAt_rowsOf, cellAt_rowsOf, if_neg (by omega), if_neg (by rw [hjob]; omega)]

/-- A song sampled for fewer frames is the song cut off, whatever the length of its
patterns: its rows are the first rows, setting it up ends the same way, and it has the
same fault unless this was in a frame that is cut off.  So a song that faults in a frame
has the same rows as one that ends before this frame. -/
theorem extractSubsong_cut (x : Extractor) {longer : Config}
    (hinit : longer.initBudget = x.config.initBudget)
    (hframe : longer.frameBudget = x.config.frameBudget)
    (htuning : longer.tuning = x.config.tuning)
    (hcount : x.config.frameCount ≤ longer.frameCount) (index : ℕ) (entry : Entry) :
    let count := x.config.frameCount.toNat
    let short := x.extractSubsong index entry
    let long := extractSubsong { x with config := longer } index entry
    short.1.rows = long.1.rows.take count ∧
      short.2.initOutcome = long.2.initOutcome ∧
      short.2.fault = long.2.fault.filter (fun record => record.frame.all (· < count)) ∧
      ∀ fault, long.2.fault = some ⟨some count, fault⟩ → short.1.rows = long.1.rows := by
  intro count short long
  have hcut : (sample { x with config := longer } entry).Cut count (x.sample entry) :=
    Source.sample_cut hinit hframe hcount
  have hrows := rows_of_cut x { x with config := longer } rfl htuning hcut index
  refine ⟨hrows, hcut.initOutcome, hcut.fault, fun fault hfault => ?_⟩
  have hlength : long.1.rows.length = count := by
    rw [length_rows_extractSubsong]
    exact Source.length_snapshots_of_fault hfault
  exact hrows.trans (List.take_of_length_le hlength.le)

/-- A table and a script of a voice that fades in three frames and then finds no
instruction. -/
def fadingImage : List UInt8 :=
  [8, 0, 0xFF, 0xFF, 0xFF, 0xFF, 0xFF, 0xFF, 1, 1, 2, 1, 0xAC, 4, 64, 0, 3, 9]

/-- A job of this song, of which three frames are sampled. -/
def fading : Extractor where
  job := ⟨18, [.whole 0 fadingImage], .script, .standard .paula, [⟨0, 0, 0⟩], 50.0⟩
  config := { frameCount := 3, blockLength := 2, initBudget := 1, frameBudget := 3 }
  memory := ⟨⟨fadingImage.toArray⟩⟩

theorem extractSubsong_cut_fading :
    let longer := { fading.config with frameCount := 5, blockLength := 4, parallel := false }
    let long := extractSubsong { fading with config := longer } 0 ⟨0, 0, 0⟩
    long.2.fault = some ⟨some 3, .unknownInstruction 0 9 17⟩ ∧
      (fading.extractSubsong 0 ⟨0, 0, 0⟩).2.fault = none ∧
      (fading.extractSubsong 0 ⟨0, 0, 0⟩).1.rows = long.1.rows ∧
      long.1.rows[1]? = some #[some (.volumeChange 32), none, none, none] := by
  intro longer long
  have hfault : long.2.fault = some ⟨some 3, .unknownInstruction 0 9 17⟩ := by decide +kernel
  have hrow : long.1.rows[1]? = some #[some (.volumeChange 32), none, none, none] := by
    rw [rows_extractSubsong]
    decide +kernel
  obtain ⟨-, -, hnone, hrows⟩ :=
    @extractSubsong_cut fading longer rfl rfl rfl (by decide) 0 ⟨0, 0, 0⟩
  refine ⟨hfault, ?_, hrows _ hfault, hrow⟩
  rw [hnone, hfault]
  rfl

end Extractor

end Chiptune
