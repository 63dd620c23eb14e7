import Chiptune.Binary64

/-!
# From frequencies to notes

Notes are numbered in semitones.  A tuning says which frequency one note has and which notes the
output can hold; a frequency goes to the nearest note, and small moves are measured in cents,
hundredths of a semitone.
-/

namespace Chiptune

open Binary64

/-- A reference pitch and the range of notes that can be written. -/
structure Tuning where
  referenceHz : Float := 440.0
  referenceNote : UInt8 := 69
  lowest : UInt8 := 0
  highest : UInt8 := 127
  deriving DecidableEq

namespace Tuning

/-- A frequency that a note can have. -/
def audibleHz (hz : Float) : Bool :=
  hz.isFinite && 0.0 < hz

/-- The note of a frequency before rounding: twelve semitones for every doubling. -/
def exactNote (tuning : Tuning) (hz : Float) : Float :=
  12.0 * log2 (hz / tuning.referenceHz) + tuning.referenceNote.toFloat

/-- The note nearest to a frequency, brought into the range of the tuning.  The bounds of the range
may be given in either order, and what is no audible frequency goes to the lower one. -/
def note (tuning : Tuning) (hz : Float) : UInt8 :=
  let low := min tuning.lowest tuning.highest
  let high := max tuning.lowest tuning.highest
  if audibleHz hz then
    (roundWithin low.toNat high.toNat (tuning.exactNote hz)).toNat.toUInt8
  else low

end Tuning

/-- How far one frequency lies above another, in cents, as far as 16 bits with sign reach. -/
def centsBetween (start stop : Float) : Int16 :=
  if start ≤ 0.0 ∨ stop ≤ 0.0 then 0
  else Int16.ofInt (roundWithin (-32768) 32767 (1200.0 * log2 (stop / start)))

def octaveNames : List String :=
  ["C-", "C#", "D-", "D#", "E-", "F-", "F#", "G-", "G#", "A-", "A#", "B-"]

/-- The name of a note and the number of its octave; note 60 begins octave 4. -/
def noteName (note : UInt8) : String :=
  octaveNames.getD (note.toNat % 12) "" ++ toString ((note.toNat / 12 : Nat) - 1 : Int)

end Chiptune
