import Chiptune.Chip.Latch
import Chiptune.Pitch

/-!
# Tracker events

Comparing what a channel does before and after a frame gives at most one event.  A note that starts
wins over everything else, and a change of pitch wins over a change of volume.
-/

namespace Chiptune

/-- A change on one channel. -/
inductive Event where
  | noteOn (note : UInt8)
  | noteOff
  | volumeChange (volume : UInt8)
  /-- A move by some cents that stays at the same note. -/
  | pitchChange (cents : Int16)
  deriving DecidableEq, Hashable

def Event.text : Event → String
  | .noteOn note => noteName note
  | .noteOff => "OFF"
  | .volumeChange volume =>
    "V" ++ (if volume.toNat < 10 then "0" else "") ++ toString volume.toNat
  | .pitchChange cents =>
    "P" ++ (if 0 ≤ cents.toInt then "+" else "") ++ toString cents.toInt

/-- The event for a channel that sounds at `hz` after sounding at `beforeHz`. -/
def Event.sounding (tuning : Tuning) (before now : Channel) (beforeHz hz : Float) : Option Event :=
  let volumeEvent := if before.volume = now.volume then none else some (volumeChange now.volume)
  if beforeHz == hz then volumeEvent
  else if tuning.note beforeHz ≠ tuning.note hz then some (noteOn (tuning.note hz))
  else if centsBetween beforeHz hz = 0 then volumeEvent
  else some (pitchChange (centsBetween beforeHz hz))

/-- The event between two states of a channel, if there is one. -/
def Event.between (tuning : Tuning) (before now : Channel) : Option Event :=
  match now.audible, now.hz with
  | true, some hz =>
    match before.audible, before.hz with
    | true, some beforeHz => sounding tuning before now beforeHz hz
    | _, _ => some (noteOn (tuning.note hz))
  | _, _ => if before.audible then some noteOff else none

/-- An event at a frame and channel. -/
structure Placement where
  frame : Nat
  channel : Nat
  event : Event
  deriving DecidableEq

/-- The events between two snapshots, channel by channel, placed at the frame of the second. -/
def Snapshot.events (tuning : Tuning) (before now : Snapshot) : List Placement :=
  (List.range now.chip.family.channelCount).filterMap fun channel =>
    match before.channel channel, now.channel channel with
    | .ok previous, .ok current =>
      (Event.between tuning previous current).map fun event => ⟨now.frame, channel, event⟩
    | _, _ => none

/-- The events of a run of snapshots, the first of them compared with `baseline`. -/
def timeline (tuning : Tuning) (baseline : Snapshot) (snapshots : List Snapshot) :
    List Placement :=
  ((baseline :: snapshots).zip snapshots).flatMap fun (before, now) => before.events tuning now

end Chiptune
