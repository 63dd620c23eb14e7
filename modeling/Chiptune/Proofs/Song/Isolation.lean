import Chiptune.Proofs.Script.Isolation
import Chiptune.Proofs.Song.Expansion

/-!
# A channel of a script song on its own

A song for Paula may use all four channels, or only one of them with the script
that it has in another song.  If nothing goes wrong with the first song, nothing
goes wrong with the second, and its rows are those of the first with all other
columns emptied (`extractSubsong_only`).

The proof goes through the stages of an extraction.  At every one of them what the
second song leads to is what the first one leads to, narrowed down to the channel:
players (`Player.part_of_run`), the runs of their frames (`Player.Part.play`),
snapshots (`Frames.Narrows.foldl_add`) and, last, rows.
-/

namespace Chiptune

/-! ## Rows -/

/-- A row of which only one cell is left. -/
def onlyChannel (channel : ℕ) (row : Row) : Row :=
  row.mapIdx fun i cell => if i = channel then cell else none

theorem cellAt_map_onlyChannel (channel : ℕ) (rows : Array Row) (k i : ℕ) :
    cellAt (rows.map (onlyChannel channel)) k i =
      (cellAt rows k i).map fun cell => if i = channel then cell else none := by
  unfold cellAt onlyChannel
  rw [Array.getElem?_map]
  cases rows[k]? with
  | none => rfl
  | some row => simp

theorem Event.between_of_silent {tuning : Tuning} {before now : Channel}
    (hbefore : before.audible = false) (hnow : now.audible = false) :
    Event.between tuning before now = none := by
  unfold Event.between
  rw [hbefore, hnow]
  rfl

theorem forall₂_getElem? {α β : Type*} {R : α → β → Prop} {l : List α} {l' : List β}
    (h : List.Forall₂ R l l') {k : ℕ} {a : α} (ha : l[k]? = some a) :
    ∃ b, l'[k]? = some b ∧ R a b := by
  induction h generalizing k with
  | nil => cases ha
  | cons hfirst _ ih =>
      cases k with
      | zero =>
          cases ha
          exact ⟨_, rfl, hfirst⟩
      | succ k => exact ih ha

/-! ## Samplings -/

/-- The snapshots of one sampling narrow down to those of the other. -/
structure Sampling.Narrows (channel : ℕ) (whole mine : Sampling) : Prop where
  baseline : whole.baseline.Narrows channel mine.baseline
  snapshots : List.Forall₂ (Snapshot.Narrows channel) whole.snapshots mine.snapshots

open Script in
/-- If all goes well with a song, all goes well with a channel of it, and leads to
the same on this channel. -/
theorem Script.Player.narrows_sample {config : Config} {memory : Memory} {channels channel : ℕ}
    {table other : UInt16} {writes : List Write} {runs : List Run}
    (hroom : channels ≤ 64) (hchannel : channel < channels)
    (hother : ∀ i < channels, memory.readWord (other.toNat + 2 * i) =
      if i = channel then memory.readWord (table.toNat + 2 * i) else .ok unusedEntry)
    (hsound : source.Sound config (powerOn memory channels table) writes runs) (chip : Chip) :
    ∃ own, source.Sound config (powerOn memory channels other) [] own ∧
      (source.sample config chip (powerOn memory channels table)).Narrows channel
        (source.sample config chip (powerOn memory channels other)) := by
  obtain ⟨steps, p, hinit, hplay⟩ := hsound.played
  obtain ⟨hnone, q, hqinit, hpart⟩ := part_of_run hroom hchannel hinit rfl hother
  obtain rfl : writes = [] := hnone
  obtain ⟨own, hqplay, hruns⟩ := hpart.play hplay hsound.halted
  have hqsound : source.Sound config (powerOn memory channels other) [] own :=
    ⟨⟨1, q, hqinit, hqplay⟩, Run.Narrows.halted hruns⟩
  refine ⟨own, hqsound, ?_⟩
  have hlatch := Latch.narrows_powerOn channel chip
  have hframes : (runs.foldl Frames.add (.ready chip [])).Narrows channel
      (own.foldl Frames.add (.ready chip [])) :=
    Frames.Narrows.foldl_add ⟨hlatch, .nil⟩ hruns
  rw [hsound.sample_eq, hqsound.sample_eq]
  exact ⟨⟨rfl, hlatch.bank⟩, hframes.snapshots⟩

namespace Extractor

variable {x : Extractor}

theorem sample_of_script (hengine : x.job.engine = .script) (entry : Entry) :
    x.sample entry = Script.Player.source.sample x.config x.job.chip
      (.powerOn x.memory x.job.chip.family.channelCount entry.init) := by
  unfold sample Job.start
  rw [hengine]
  rfl

/-- Rows that come from snapshots narrowed down to a channel have only its column. -/
theorem rows_of_narrows (hfamily : x.job.chip.family = .paula) {channel : ℕ}
    (hchannel : channel < 4) {entry other : Entry}
    (h : (x.sample entry).Narrows channel (x.sample other)) (index index' : ℕ) :
    (x.extractSubsong index' other).1.rows =
      (x.extractSubsong index entry).1.rows.map (onlyChannel channel) := by
  have hlength := h.snapshots.length_eq
  have hcount : x.job.chip.family.channelCount = 4 := by rw [hfamily]; rfl
  rw [rows_extractSubsong, rows_extractSubsong, ← Array.toList_map]
  congr 1
  refine rows_ext (by rw [Array.size_map, size_rowsOf, size_rowsOf, hlength]) fun k i hk => ?_
  rw [cellAt_map_onlyChannel]
  rw [size_rowsOf, ← hlength] at hk
  rcases Nat.lt_or_ge i 4 with hi | hi
  · have hwhole := x.numbered_sample entry
    obtain ⟨before, now, hbefore, hnow⟩ := (x.sample entry).exists_before_now hk
    obtain ⟨before', hbefore', hnarrow⟩ := forall₂_getElem? (.cons h.baseline h.snapshots) hbefore
    obtain ⟨now', hnow', hnarrow'⟩ := forall₂_getElem? h.snapshots hnow
    have hpaula : before.chip.family = .paula := by
      rw [hwhole.chip_of_mem (List.mem_of_getElem? hbefore), hfamily]
    have hpaula' : now.chip.family = .paula := by
      rw [hwhole.chip_eq now (List.mem_of_getElem? hnow), hfamily]
    rw [x.cellAt_rows hbefore hnow (by omega), x.cellAt_rows hbefore' hnow' (by omega),
      Option.map_some]
    by_cases hsame : i = channel
    · subst hsame
      rw [if_pos rfl, hnarrow.decode_own hpaula (by omega), hnarrow'.decode_own hpaula' (by omega)]
    · rw [if_neg hsame, Event.between_of_silent (hnarrow.decode_other hpaula (by omega) hsame)
        (hnarrow'.decode_other hpaula' (by omega) hsame)]
  · -- There is no such channel in either song.
    rw [cellAt_rowsOf, cellAt_rowsOf, if_neg (by omega), if_neg (by omega)]
    rfl

/-- A song and another one that has the same script on a channel and no script on
the others.  If nothing goes wrong with the first, nothing goes wrong with the
second: it has as many rows, and in each of them there is the cell that the first
song has on the channel, and nothing else. -/
theorem extractSubsong_only (hengine : x.job.engine = .script)
    (hfamily : x.job.chip.family = .paula) {channel : ℕ} (hchannel : channel < 4)
    {entry other : Entry}
    (hother : ∀ i < 4, x.memory.readWord (other.init.toNat + 2 * i) =
      if i = channel then x.memory.readWord (entry.init.toNat + 2 * i)
      else .ok Script.unusedEntry)
    (index index' : ℕ) (hwhole : (x.extractSubsong index entry).2.degraded = false) :
    (x.extractSubsong index' other).2.degraded = false ∧
      (x.extractSubsong index' other).1.rows =
        (x.extractSubsong index entry).1.rows.map (onlyChannel channel) := by
  have hcount : x.job.chip.family.channelCount = 4 := by rw [hfamily]; rfl
  have hdegraded :
      ((x.sample entry).diagnostics index (x.timeline entry).length).degraded = false := hwhole
  rw [sample_of_script hengine, hcount] at hdegraded
  obtain ⟨writes, runs, hsound⟩ := Source.degraded_sample_iff.mp hdegraded
  obtain ⟨own, hown, hnarrows⟩ :=
    Script.Player.narrows_sample (by decide) hchannel hother hsound x.job.chip
  rw [← hcount, ← sample_of_script hengine, ← sample_of_script hengine] at hnarrows
  refine ⟨?_, rows_of_narrows hfamily hchannel hnarrows index index'⟩
  show ((x.sample other).diagnostics index' (x.timeline other).length).degraded = false
  rw [sample_of_script hengine, hcount]
  exact Source.degraded_sample_iff.mpr ⟨[], own, hown⟩

/-- Two tables and two scripts.  By the table at `0` a note is held on channel 0 while
channel 1 sounds in every other frame; by the table at `8` there is channel 1 only. -/
def duetImage : List UInt8 :=
  [16, 0, 26, 0, 0xFF, 0xFF, 0xFF, 0xFF,
    0xFF, 0xFF, 26, 0, 0xFF, 0xFF, 0xFF, 0xFF,
    2, 1, 0, 3, 64, 1, 1, 6, 2, 0,
    2, 2, 0, 3, 32, 1, 1, 6, 1, 1, 0, 6, 1, 7, 0, 26]

/-- A job of these two songs. -/
def duet : Extractor where
  job := ⟨42, [.whole 0 duetImage], .script, .standard .paula, [⟨0, 0, 0⟩, ⟨8, 0, 0⟩], 50.0⟩
  config := { frameCount := 4, blockLength := 2, initBudget := 1, frameBudget := 8 }
  memory := ⟨⟨duetImage.toArray⟩⟩

theorem extractSubsong_only_duet :
    prepare duet.job duet.config = .ok duet ∧
      (duet.extractSubsong 0 ⟨0, 0, 0⟩).2.degraded = false ∧
      (duet.extractSubsong 0 ⟨0, 0, 0⟩).1.rows[0]? =
        some #[some (.noteOn 69), some (.noteOn 57), none, none] ∧
      (duet.extractSubsong 1 ⟨8, 0, 0⟩).2.degraded = false ∧
      (duet.extractSubsong 1 ⟨8, 0, 0⟩).1.rows[0]? =
        some #[none, some (.noteOn 57), none, none] := by
  have hprepare : prepare duet.job duet.config = .ok duet := by
    have hconfig : duet.config.validate = .ok () := by decide +kernel
    have hload : duet.job.load = .ok duet.memory := by decide +kernel
    unfold prepare
    rw [hconfig, hload]
  have hwhole : (duet.extractSubsong 0 ⟨0, 0, 0⟩).2.degraded = false := by decide +kernel
  have hfirst : (duet.extractSubsong 0 ⟨0, 0, 0⟩).1.rows[0]? =
      some #[some (.noteOn 69), some (.noteOn 57), none, none] := by
    rw [rows_extractSubsong]
    decide +kernel
  have htable : ∀ i < 4, duet.memory.readWord ((⟨8, 0, 0⟩ : Entry).init.toNat + 2 * i) =
      if i = 1 then duet.memory.readWord ((⟨0, 0, 0⟩ : Entry).init.toNat + 2 * i)
      else .ok Script.unusedEntry := by decide
  obtain ⟨hpart, hrows⟩ := extractSubsong_only rfl rfl (by decide) htable 0 1 hwhole
  refine ⟨hprepare, hwhole, hfirst, hpart, ?_⟩
  rw [hrows, List.getElem?_map, hfirst]
  rfl

end Extractor

end Chiptune
