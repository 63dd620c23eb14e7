import Chiptune.Config
import Chiptune.Event
import Chiptune.Proofs.Pitch.Semitones
import Mathlib.Tactic.SplitIfs

/-!
# Changes of pitch

A channel that goes on sounding at another frequency begins a note or changes its pitch, depending
on whether the nearest note changes.  Since a note is a semitone wide, a change of pitch should be a
move of a hundred cents at most, and any larger move a note.

This is so between frequencies whose nearest notes are in the range of the tuning
(`pitchChange_within_semitone`).  It has to be asked of both.  Notes are compared after they were
brought into the range, cents are taken of the frequencies themselves, and so two frequencies beyond
the same end of the range can be octaves apart and differ in no note
(`pitchChange_of_octave_below_range`).
-/

namespace Chiptune

open Tuning

theorem Config.tuning_of_validate {config : Config} (h : config.validate = .ok ()) :
    config.tuning.lowest ≤ config.tuning.highest ∧
      audibleHz config.tuning.referenceHz = true := by
  unfold validate at h
  dsimp only at h
  split_ifs at h with _ _ _ _ hinverted hreference
  exact ⟨UInt8.not_lt.mp hinverted, hreference⟩

/-- A channel that is heard at a frequency. -/
structure Channel.Sounds (c : Channel) (hz : Float) : Prop where
  audible : c.audible = true
  hz_eq : c.hz = some hz
  audibleHz : audibleHz hz = true

/-- A channel that plays a square wave at full volume. -/
def Channel.tone (hz : Float) : Channel :=
  ⟨0, some hz, 15, true, .square⟩

theorem Channel.sounds_tone {hz : Float} (h : Tuning.audibleHz hz = true) :
    (Channel.tone hz).Sounds hz :=
  ⟨rfl, rfl, h⟩

namespace Event

variable {tuning : Tuning} {before now : Channel} {beforeHz hz : Float}

theorem between_of_sounds (hbefore : before.Sounds beforeHz) (hnow : now.Sounds hz) :
    between tuning before now = sounding tuning before now beforeHz hz := by
  unfold between
  rw [hbefore.audible, hbefore.hz_eq, hnow.audible, hnow.hz_eq]

/-- A change of pitch leaves the note and says how far the frequency moved. -/
theorem sounding_eq_pitchChange {cents : Int16}
    (h : sounding tuning before now beforeHz hz = some (.pitchChange cents)) :
    tuning.note beforeHz = tuning.note hz ∧ centsBetween beforeHz hz = cents := by
  have hvolume : (if before.volume = now.volume then none else
      some (volumeChange now.volume)) ≠ some (pitchChange cents) := by
    split <;> exact nofun
  unfold sounding at h
  dsimp only at h
  split at h
  case isTrue => exact absurd h hvolume
  case isFalse =>
    split at h
    case isTrue => cases h
    case isFalse hnote =>
      split at h
      case isTrue => exact absurd h hvolume
      case isFalse => exact ⟨not_not.mp hnote, pitchChange.inj (Option.some.inj h)⟩

theorem sounding_of_note_ne (h : tuning.note beforeHz ≠ tuning.note hz) :
    sounding tuning before now beforeHz hz = some (.noteOn (tuning.note hz)) := by
  -- Frequencies that compare equal are handled first, but their notes do not differ.
  have hmoved : ¬ (beforeHz == hz) = true := fun heq => h (tuning.note_eq_of_beq heq)
  unfold sounding
  rw [if_neg hmoved, if_pos h]

/-- Between frequencies whose nearest notes are in the range of the tuning, a change of pitch is one
of a semitone at most and stays at the same note.  A larger move begins a note. -/
theorem pitchChange_within_semitone {config : Config} (hconfig : config.validate = .ok ())
    (hbefore : before.Sounds beforeHz) (hnow : now.Sounds hz)
    (hbeforein : config.tuning.reaches beforeHz = true) (hnowin : config.tuning.reaches hz = true) :
    (∀ cents, between config.tuning before now = some (.pitchChange cents) →
      config.tuning.note beforeHz = config.tuning.note hz ∧ |cents.toInt| ≤ 100) ∧
    (100 < |(centsBetween beforeHz hz).toInt| →
      between config.tuning before now = some (.noteOn (config.tuning.note hz))) := by
  obtain ⟨hrange, hreference⟩ := Config.tuning_of_validate hconfig
  have hsame : config.tuning.note beforeHz = config.tuning.note hz →
      |(centsBetween beforeHz hz).toInt| ≤ 100 :=
    abs_centsBetween_le_of_note_eq hbefore.audibleHz hnow.audibleHz hrange hreference hbeforein
      hnowin
  rw [between_of_sounds hbefore hnow]
  refine ⟨fun cents hevent => ?_, fun hfar => ?_⟩
  · obtain ⟨hnote, rfl⟩ := sounding_eq_pitchChange hevent
    exact ⟨hnote, hsame hnote⟩
  · exact sounding_of_note_ne fun hnote => absurd (hsame hnote) (not_le.mpr hfar)

/-- A standard pitch goes up by sixteen cents, and then by an octave. -/
theorem pitchChange_within_semitone_detuned :
    ({} : Config).validate = .ok () ∧
      between {} (.tone 440.0) (.tone 444.0) = some (.pitchChange 16) ∧ |(16 : Int16).toInt| ≤ 100 ∧
      between {} (.tone 440.0) (.tone 880.0) = some (.noteOn (note {} 880.0)) := by
  have hconfig : ({} : Config).validate = .ok () := by decide +kernel
  have hevent : between {} (.tone 440.0) (.tone 444.0) = some (.pitchChange 16) := by
    decide +kernel
  have hbefore : (Channel.tone 440.0).Sounds 440.0 := Channel.sounds_tone (by decide +kernel)
  have hdetuned : (Channel.tone 444.0).Sounds 444.0 := Channel.sounds_tone (by decide +kernel)
  have hoctave : (Channel.tone 880.0).Sounds 880.0 := Channel.sounds_tone (by decide +kernel)
  have hbeforein : reaches {} 440.0 = true := by decide +kernel
  obtain ⟨hchange, -⟩ := pitchChange_within_semitone hconfig hbefore hdetuned hbeforein
    (by decide +kernel)
  obtain ⟨-, hnote⟩ := pitchChange_within_semitone hconfig hbefore hoctave hbeforein
    (by decide +kernel)
  exact ⟨hconfig, hevent, (hchange 16 hevent).2, hnote (by decide +kernel)⟩

/-- Two frequencies an octave apart, both below all notes.  They are brought to the same note, and
so the move counts as a change of pitch. -/
theorem pitchChange_of_octave_below_range :
    ({} : Config).validate = .ok () ∧
      (Channel.tone 1.0).Sounds 1.0 ∧ (Channel.tone 2.0).Sounds 2.0 ∧
      between {} (.tone 1.0) (.tone 2.0) = some (.pitchChange 1200) ∧
      100 < |(1200 : Int16).toInt| :=
  ⟨by decide +kernel, Channel.sounds_tone (by decide +kernel),
    Channel.sounds_tone (by decide +kernel), by decide +kernel, by decide⟩

end Event

end Chiptune
