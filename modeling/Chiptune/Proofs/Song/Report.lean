import Chiptune.Proofs.Song.Expansion

/-!
# Reports agree with songs

The counts of a report and the faults it tells of are kept apart from the song, and
in several places.  Here they are brought together.  A report does not contradict
itself (`Diagnostics.Consistent`): whether frames are missing, and why, can be seen
from each of its parts.  And it does not contradict the song (`Subsong.ReportedBy`),
so that a song that is shorter than it was to be never passes for a good one
(`extract_reported`).

What a report says only depends on the course that the sampling has taken, and
there are three of these (`Source.consistent_sample`).
-/

namespace Chiptune

/-! ## Reports by themselves -/

/-- A report on a song of up to `frameCount` frames that does not contradict itself. -/
structure Diagnostics.Consistent (frameCount : ℕ) (d : Diagnostics) : Prop where
  framesSampled_le : d.framesSampled ≤ frameCount
  frameTimeouts_le : d.frameTimeouts ≤ d.framesSampled
  /-- A frame that faulted is the first of those that are missing. -/
  frame_fault : ∀ k fault, d.fault = some ⟨some k, fault⟩ →
    d.initOutcome = some .halted ∧ k = d.framesSampled ∧ k < frameCount
  init_fault : ∀ fault, d.fault = some ⟨none, fault⟩ → d.initOutcome = none
  /-- Of a song that could not be set up there is nothing. -/
  not_set_up : d.initOutcome = none ∨ d.initOutcome = some .timedOut →
    d.framesSampled = 0 ∧ d.events = 0 ∧ d.writes = 0 ∧ d.frameTimeouts = 0
  complete_iff : d.framesSampled = frameCount ↔ d.initOutcome = some .halted ∧ d.fault = none

/-- Whatever went wrong has cost frames, unless it was a frame that took too long. -/
theorem Diagnostics.Consistent.degraded_iff {frameCount : ℕ} {d : Diagnostics}
    (h : d.Consistent frameCount) :
    d.degraded = true ↔ d.framesSampled < frameCount ∨ 0 < d.frameTimeouts := by
  have hle := h.framesSampled_le
  have hmissing : d.framesSampled < frameCount ↔
      ¬ (d.initOutcome = some .halted ∧ d.fault = none) := by
    rw [← h.complete_iff]
    omega
  rw [hmissing]
  unfold degraded initCompleted
  cases d.fault <;> simp [or_comm]

/-- The report on a song of which all frames were played, or those before a fault. -/
theorem Sampling.consistent_ofRuns {frameCount : ℕ} {runs : List Run} {fault : Option Fault}
    (hle : runs.length ≤ frameCount) (hall : runs.length = frameCount ↔ fault = none)
    (chip : Chip) (writes : List Write) (index events : ℕ) :
    ((ofRuns chip writes runs fault).diagnostics index events).Consistent frameCount := by
  unfold diagnostics
  rw [length_snapshots_ofRuns, timeouts_ofRuns, fault_ofRuns]
  constructor
  case framesSampled_le => exact hle
  case frameTimeouts_le => exact List.countP_le_length
  case frame_fault =>
    intro k raised hraised
    obtain ⟨fault, hfault, heq⟩ := Option.map_eq_some_iff.mp hraised
    cases heq
    have hmissing : runs.length ≠ frameCount := by
      intro heq
      rw [hall.mp heq] at hfault
      cases hfault
    exact ⟨rfl, rfl, Nat.lt_of_le_of_ne hle hmissing⟩
  case init_fault =>
    intro raised hraised
    obtain ⟨fault, -, heq⟩ := Option.map_eq_some_iff.mp hraised
    cases heq
  case not_set_up => nofun
  case complete_iff =>
    rw [Option.map_eq_none_iff]
    exact hall.trans (and_iff_right rfl).symm

theorem Source.consistent_sample {σ : Type} {source : Source σ} {config : Config} {chip : Chip}
    {s : σ} (hcount : 0 < config.frameCount.toNat) (index : ℕ) {events : ℕ}
    (hevents : (source.sample config chip s).snapshots = [] → events = 0) :
    ((source.sample config chip s).diagnostics index events).Consistent
      config.frameCount.toNat := by
  obtain ⟨fault, h⟩ | h | ⟨writes, ready, h⟩ := source.sample_cases config chip s
  · rw [h] at hevents ⊢
    constructor
    case framesSampled_le => exact Nat.zero_le _
    case frameTimeouts_le => exact Nat.le_refl 0
    case frame_fault => nofun
    case init_fault => exact fun _ _ => rfl
    case not_set_up => exact fun _ => ⟨rfl, hevents rfl, rfl, rfl⟩
    case complete_iff => exact iff_of_false hcount.ne nofun
  · rw [h] at hevents ⊢
    constructor
    case framesSampled_le => exact Nat.zero_le _
    case frameTimeouts_le => exact Nat.le_refl 0
    case frame_fault => nofun
    case init_fault => nofun
    case not_set_up => exact fun _ => ⟨rfl, hevents rfl, rfl, rfl⟩
    case complete_iff => exact iff_of_false hcount.ne nofun
  · rw [h]
    exact Sampling.consistent_ofRuns (source.length_play_le _ _ ready)
      (source.length_play_eq_iff _ _ ready) chip writes index events

/-! ## Reports and songs -/

/-- What a report says about the song at some place of a job is what the song shows. -/
structure Subsong.ReportedBy (config : Config) (place : ℕ) (song : Subsong)
    (report : Diagnostics) : Prop where
  consistent : report.Consistent config.frameCount.toNat
  index_eq : song.index = place ∧ report.index = place
  rowCount_eq : song.rowCount = report.framesSampled
  size_order : song.order.size = report.framesSampled ⌈/⌉ config.blockLength.toNat
  lt_of_mem_order : ∀ i ∈ song.order, i < song.patterns.size
  isEmpty_iff : song.isEmpty = true ↔ report.framesSampled = 0
  degraded_iff : report.degraded = true ↔
    song.rowCount < config.frameCount.toNat ∨ 0 < report.frameTimeouts

theorem Config.positive_of_validate {config : Config} (h : config.validate = .ok ()) :
    0 < config.frameCount.toNat ∧ 0 < config.blockLength.toNat := by
  unfold validate at h
  have hpositive : ∀ n : UInt64, n ≠ 0 → 0 < n.toNat := fun n hn =>
    Nat.pos_of_ne_zero fun hzero => hn (UInt64.toNat_inj.mp hzero)
  split at h
  · cases h
  · split at h
    · cases h
    · exact ⟨hpositive _ ‹_›, hpositive _ ‹_›⟩

namespace Extractor

/-- A job can be extracted if its settings can be used and its memory image be built. -/
theorem prepare_eq_ok_iff {job : Job} {config : Config} {x : Extractor} :
    prepare job config = .ok x ↔
      config.validate = .ok () ∧ job.load = .ok x.memory ∧ x.job = job ∧ x.config = config := by
  constructor
  · intro h
    unfold prepare at h
    cases hconfig : config.validate with
    | error e =>
        rw [hconfig] at h
        cases h
    | ok =>
        cases hload : job.load with
        | error e =>
            rw [hconfig, hload] at h
            cases h
        | ok memory =>
            rw [hconfig, hload] at h
            cases h
            exact ⟨rfl, rfl, rfl, rfl⟩
  · rintro ⟨hconfig, hload, rfl, rfl⟩
    unfold prepare
    rw [hconfig, hload]

variable (x : Extractor)

theorem reportedBy_extractSubsong (hconfig : x.config.validate = .ok ()) (index : ℕ)
    (entry : Entry) :
    (x.extractSubsong index entry).1.ReportedBy x.config index
      (x.extractSubsong index entry).2 := by
  obtain ⟨hframes, hblock⟩ := Config.positive_of_validate hconfig
  have hconsistent : (x.extractSubsong index entry).2.Consistent x.config.frameCount.toNat := by
    apply Source.consistent_sample hframes index
    -- Events are found between snapshots, so without any there are none.
    intro hnone
    show (x.timeline entry).length = 0
    unfold timeline
    rw [show (x.sample entry).snapshots = [] from hnone]
    rfl
  have hrows : (x.extractSubsong index entry).1.rowCount =
      (x.extractSubsong index entry).2.framesSampled := by
    rw [← Subsong.length_rows, length_rows_extractSubsong]
  have horder : (x.extractSubsong index entry).1.order.size =
      (x.extractSubsong index entry).2.framesSampled ⌈/⌉ x.config.blockLength.toNat := by
    refine (size_arrange ..).trans ?_
    rw [size_rowsOf, Nat.max_eq_left hblock]
    rfl
  constructor
  case consistent => exact hconsistent
  case index_eq => exact ⟨rfl, rfl⟩
  case rowCount_eq => exact hrows
  case size_order => exact horder
  case lt_of_mem_order => exact fun i => lt_of_mem_arrange
  case isEmpty_iff =>
    show Array.isEmpty _ = true ↔ _
    rw [Array.isEmpty_iff_size_eq_zero, horder, ← Nat.le_zero, ceilDiv_le_iff_le_mul hblock,
      Nat.mul_zero, Nat.le_zero]
  case degraded_iff =>
    rw [hrows]
    exact hconsistent.degraded_iff

/-- Every song of a job that can be extracted comes with the report on it. -/
theorem extract_reported {job : Job} {config : Config} {x : Extractor}
    (hx : prepare job config = .ok x) {i : ℕ} (hi : i < job.subsongs.length) :
    ∃ song report, x.extract.song.subsongs[i]? = some song ∧
      x.extract.diagnostics[i]? = some report ∧ song.ReportedBy config i report := by
  obtain ⟨hconfig, -, rfl, rfl⟩ := prepare_eq_ok_iff.mp hx
  have hentry : x.job.subsongs[i]? = some x.job.subsongs[i] := List.getElem?_eq_getElem hi
  refine ⟨_, _, ?_, ?_, x.reportedBy_extractSubsong hconfig i x.job.subsongs[i]⟩
  · simp [extract, hi]
  · simp [extract, hi]

/-- Scripts of two songs.  By the table at `0` a voice never comes to the end of a frame;
by the table at `8` one plays for two frames and then finds no instruction. -/
def brokenImage : List UInt8 :=
  [16, 0, 0xFF, 0xFF, 0xFF, 0xFF, 0xFF, 0xFF,
    21, 0, 0xFF, 0xFF, 0xFF, 0xFF, 0xFF, 0xFF,
    6, 0, 7, 0, 16,
    1, 1, 2, 1, 0xAC, 3, 64, 6, 2, 9]

/-- A job of these two songs and a third one, whose table lies outside of memory. -/
def broken : Extractor where
  job := ⟨31, [.whole 0 brokenImage], .script, .standard .paula,
    [⟨0, 0, 0⟩, ⟨8, 0, 0⟩, ⟨31, 0, 0⟩], 50.0⟩
  config := { frameCount := 3, blockLength := 2, initBudget := 1, frameBudget := 4 }
  memory := ⟨⟨brokenImage.toArray⟩⟩

theorem extract_reported_broken :
    prepare broken.job broken.config = .ok broken ∧
      broken.extract.diagnostics.map (·.framesSampled) = [3, 2, 0] ∧
      broken.extract.diagnostics.map (·.frameTimeouts) = [3, 0, 0] ∧
      ∀ i < 3, ∃ song report, broken.extract.song.subsongs[i]? = some song ∧
        broken.extract.diagnostics[i]? = some report ∧ song.ReportedBy broken.config i report := by
  have hprepare : prepare broken.job broken.config = .ok broken := by
    have hconfig : broken.config.validate = .ok () := by decide +kernel
    have hload : broken.job.load = .ok broken.memory := by decide +kernel
    exact prepare_eq_ok_iff.mpr ⟨hconfig, hload, rfl, rfl⟩
  refine ⟨hprepare, by decide +kernel, by decide +kernel, fun i hi => ?_⟩
  exact extract_reported hprepare hi

end Extractor

end Chiptune
