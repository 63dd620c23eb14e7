import Chiptune.Extraction
import Chiptune.Proofs.Event.Timeline
import Chiptune.Proofs.Extraction.Frames
import Chiptune.Proofs.Pattern.Blocks

/-!
# What a song expands to

Playing a song through its order list gives one row for every frame that was
sampled, and each cell of a row holds the event between the frame and the one
before it (`extractSubsong_expands`).

The stages are put together from the back.  The order list gives the rows that
were cut into blocks (`rows_extractSubsong`).  Those rows hold the timeline, and
as snapshot `k` has frame number `k` (`Sampling.Numbered`), all events of the
timeline lie inside the rows and in row order.  So no event meets another one in
its cell, and none is left out.
-/

namespace Chiptune

/-- Every frame has a snapshot, and there is one before it. -/
theorem Sampling.exists_before_now (s : Sampling) {k : ℕ} (hk : k < s.snapshots.length) :
    ∃ before now, (s.baseline :: s.snapshots)[k]? = some before ∧ s.snapshots[k]? = some now :=
  ⟨_, _, List.getElem?_eq_getElem (Nat.lt_succ_of_lt hk), List.getElem?_eq_getElem hk⟩

namespace Extractor

variable (x : Extractor)

/-- The events of a song. -/
def timeline (entry : Entry) : List Placement :=
  Chiptune.timeline x.config.tuning (x.sample entry).baseline (x.sample entry).snapshots

theorem numbered_sample (entry : Entry) : (x.sample entry).Numbered x.job.chip :=
  Source.numbered_sample _ _ _ _

/-- The order list plays the rows that the events were entered in. -/
theorem rows_extractSubsong (index : ℕ) (entry : Entry) :
    (x.extractSubsong index entry).1.rows =
      (rowsOf (x.timeline entry) (x.sample entry).snapshots.length
        x.job.chip.family.channelCount).toList := by
  unfold Subsong.rows Subsong.played
  exact (congrArg _ (filterMap_arrange _ _)).trans (flatMap_rows_blocksOf _ _)

theorem length_rows_extractSubsong (index : ℕ) (entry : Entry) :
    (x.extractSubsong index entry).1.rows.length =
      (x.extractSubsong index entry).2.framesSampled := by
  rw [rows_extractSubsong, Array.length_toList, size_rowsOf]
  rfl

theorem mem_timeline (entry : Entry) {k c : ℕ} {event : Event} :
    ⟨k, c, event⟩ ∈ x.timeline entry ↔
      ∃ before now, ((x.sample entry).baseline :: (x.sample entry).snapshots)[k]? = some before ∧
        (x.sample entry).snapshots[k]? = some now ∧ c < x.job.chip.family.channelCount ∧
          Event.between x.config.tuning (before.decode c) (now.decode c) = some event := by
  have hnumbered := x.numbered_sample entry
  unfold timeline
  rw [Chiptune.mem_timeline hnumbered.baseline_chip hnumbered.chip_eq]
  constructor
  · rintro ⟨i, before, now, hbefore, hnow, hframe, h⟩
    have hi : k = i := hframe.trans (hnumbered.frame_getElem? hnow)
    subst hi
    exact ⟨before, now, hbefore, hnow, h⟩
  · rintro ⟨before, now, hbefore, hnow, h⟩
    exact ⟨k, before, now, hbefore, hnow, (hnumbered.frame_getElem? hnow).symm, h⟩

theorem pairwise_timeline (entry : Entry) : (x.timeline entry).Pairwise Placement.Before :=
  Chiptune.pairwise_timeline (x.numbered_sample entry).pairwise_frames

/-- Every event has a cell of its own in the rows. -/
theorem inside_of_mem_timeline {entry : Entry} {p : Placement} (hp : p ∈ x.timeline entry) :
    p.frame < (x.sample entry).snapshots.length ∧
      p.channel < x.job.chip.family.channelCount := by
  obtain ⟨before, now, -, hnow, hchannel, -⟩ := (x.mem_timeline entry).mp hp
  exact ⟨(List.getElem?_eq_some_iff.mp hnow).choose, hchannel⟩

/-- A cell holds the event between two consecutive snapshots. -/
theorem cellAt_rows {entry : Entry} {k c : ℕ} {before now : Snapshot}
    (hbefore : ((x.sample entry).baseline :: (x.sample entry).snapshots)[k]? = some before)
    (hnow : (x.sample entry).snapshots[k]? = some now)
    (hc : c < x.job.chip.family.channelCount) :
    cellAt (rowsOf (x.timeline entry) (x.sample entry).snapshots.length
        x.job.chip.family.channelCount) k c =
      some (Event.between x.config.tuning (before.decode c) (now.decode c)) := by
  have hk : k < (x.sample entry).snapshots.length := (List.getElem?_eq_some_iff.mp hnow).choose
  rw [cellAt_rowsOf, if_pos ⟨hk, hc⟩]
  -- The timeline is in row order, so that the last event of a place is its only one.
  congr 1
  ext event
  rw [lastAt_eq_some_iff (x.pairwise_timeline entry), x.mem_timeline]
  constructor
  · rintro ⟨before', now', hbefore', hnow', -, hevent⟩
    rw [hbefore] at hbefore'
    rw [hnow] at hnow'
    obtain rfl := Option.some.inj hbefore'
    obtain rfl := Option.some.inj hnow'
    exact hevent
  · exact fun hevent => ⟨before, now, hbefore, hnow, hc, hevent⟩

/-- The rows of a song hold the changes from each frame to the next, and nothing
else.  There are as many rows as snapshots and as many cells in each as channels;
every cell holds the event between the snapshot of its row and the one before it,
the baseline before the first; reading the cells in row order gives the timeline
back, and the report counts the cells that are filled. -/
theorem extractSubsong_expands (index : ℕ) (entry : Entry) :
    let sampling := x.sample entry
    let song := (x.extractSubsong index entry).1
    let channels := song.channels
    let rows := song.rows.toArray
    channels = x.job.chip.family.channelCount ∧
      (∀ i ∈ song.order, i < song.patterns.size) ∧
      rows.size = sampling.snapshots.length ∧
      (∀ row ∈ rows, row.size = channels) ∧
      (∀ (k c : ℕ) (before now : Snapshot),
        (sampling.baseline :: sampling.snapshots)[k]? = some before →
        sampling.snapshots[k]? = some now → c < channels →
        ∃ was is, before.channel c = .ok was ∧ now.channel c = .ok is ∧
          cellAt rows k c = some (Event.between x.config.tuning was is)) ∧
      Pattern.events ⟨rows⟩ =
        Chiptune.timeline x.config.tuning sampling.baseline sampling.snapshots ∧
      (x.extractSubsong index entry).2.events =
        (rows.toList.flatMap Array.toList).countP Option.isSome := by
  intro sampling song channels rows
  have hnumbered := x.numbered_sample entry
  have hrows : rows = rowsOf (x.timeline entry) sampling.snapshots.length channels := by
    simp only [rows, song, rows_extractSubsong]
    exact Array.toArray_toList
  have hevents : Pattern.events ⟨rows⟩ = x.timeline entry := by
    rw [hrows]
    exact events_rowsOf (x.pairwise_timeline entry) fun _ => x.inside_of_mem_timeline
  refine ⟨rfl, fun i hi => lt_of_mem_arrange hi, ?_, fun row hrow => ?_,
    fun k c before now hbefore hnow hc => ?_, hevents, ?_⟩
  · rw [hrows, size_rowsOf]
  · obtain ⟨k, hk⟩ := Array.getElem?_of_mem hrow
    rw [hrows] at hk
    exact size_row_rowsOf hk
  · have hbeforechip := hnumbered.chip_of_mem (List.mem_of_getElem? hbefore)
    have hnowchip := hnumbered.chip_eq now (List.mem_of_getElem? hnow)
    refine ⟨before.decode c, now.decode c, Snapshot.channel_eq_ok (hbeforechip ▸ hc),
      Snapshot.channel_eq_ok (hnowchip ▸ hc), ?_⟩
    rw [hrows]
    exact x.cellAt_rows hbefore hnow hc
  · rw [← Pattern.length_events ⟨rows⟩, hevents]
    rfl

end Extractor

end Chiptune
