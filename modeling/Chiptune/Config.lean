import Chiptune.Numerals
import Chiptune.Pitch
import Chiptune.Replay.Source

/-!
# Settings of an extraction

How many frames to take, how long code may run, how notes are named and how rows are grouped.
-/

namespace Chiptune

/-- The settings of an extraction. -/
structure Config where
  /-- How many frames are sampled. -/
  frameCount : UInt64 := 300
  /-- The rows of a pattern. -/
  blockLength : UInt64 := 16
  /-- The steps a song may take to be set up. -/
  initBudget : UInt64 := 1000000
  /-- The steps a frame may take before it is sampled as it stands. -/
  frameBudget : UInt64 := 250000
  tuning : Tuning := {}
  /-- Whether songs may be worked on side by side.  They share nothing, so the result is the same
  either way. -/
  parallel : Bool := true
  deriving DecidableEq

/-- Why settings cannot be used. -/
inductive ConfigError where
  | zeroFrameCount
  | zeroBlockLength
  | zeroBudget (routine : Routine)
  | invertedNotes (lowest highest : UInt8)
  | invalidReference (hz : Float)
  deriving DecidableEq

def Routine.name : Routine → String
  | .init => "init"
  | .frame => "frame"

def ConfigError.message : ConfigError → String
  | .zeroFrameCount => "frame_count must be at least 1"
  | .zeroBlockLength => "frames_per_block must be at least 1"
  | .zeroBudget routine => routine.name ++ " step budget must be at least 1"
  | .invertedNotes lowest highest =>
    "note range " ++ toString lowest.toNat ++ "..=" ++ toString highest.toNat ++ " is inverted"
  | .invalidReference hz =>
    "reference pitch " ++ String.ofList (Layout.plain.render hz) ++
      " Hz is not a positive frequency"

/-- Whether settings can be used; the first thing that is wrong with them otherwise. -/
def Config.validate (config : Config) : Except ConfigError Unit :=
  let tuning := config.tuning
  if config.frameCount = 0 then .error .zeroFrameCount
  else if config.blockLength = 0 then .error .zeroBlockLength
  else if config.initBudget = 0 then .error (.zeroBudget .init)
  else if config.frameBudget = 0 then .error (.zeroBudget .frame)
  else if tuning.highest < tuning.lowest then
    .error (.invertedNotes tuning.lowest tuning.highest)
  else if Tuning.audibleHz tuning.referenceHz then .ok ()
  else .error (.invalidReference tuning.referenceHz)

end Chiptune
