import Chiptune.Config
import Chiptune.Json.Decode
import Chiptune.Json.Printer
import Chiptune.Json.Reader

/-!
# The JSON form of settings

Any field may be left out and has its default then.  Settings read from a text have passed
validation.
-/

namespace Chiptune

namespace Tuning

def toJson (t : Tuning) : Json :=
  .object [("reference_hz", .double t.referenceHz), ("reference_note", .nat t.referenceNote.toNat),
    ("min_note", .nat t.lowest.toNat), ("max_note", .nat t.highest.toNat)]

def ofJson? (j : Json) : Option Tuning :=
  let standard : Tuning := {}
  match j.fields? ["reference_hz", "reference_note", "min_note", "max_note"] with
  | some [hz, note, lowest, highest] => do
    let hz ← Json.optional? Json.toFloat? standard.referenceHz hz
    let note ← Json.optional? Json.toUInt8? standard.referenceNote note
    let lowest ← Json.optional? Json.toUInt8? standard.lowest lowest
    let highest ← Json.optional? Json.toUInt8? standard.highest highest
    pure ⟨hz, note, lowest, highest⟩
  | _ => none

end Tuning

namespace Config

def fieldNames : List String :=
  ["frame_count", "frames_per_block", "init_step_budget", "frame_step_budget", "pitch",
    "parallel"]

def toJson (c : Config) : Json :=
  .object [("frame_count", .nat c.frameCount.toNat), ("frames_per_block", .nat c.blockLength.toNat),
    ("init_step_budget", .nat c.initBudget.toNat), ("frame_step_budget", .nat c.frameBudget.toNat),
    ("pitch", c.tuning.toJson), ("parallel", .bool c.parallel)]

def ofJson? (j : Json) : Option Config :=
  let standard : Config := {}
  match j.fields? fieldNames with
  | some [frameCount, blockLength, initBudget, frameBudget, tuning, parallel] => do
    let frameCount ← Json.optional? Json.toUInt64? standard.frameCount frameCount
    let blockLength ← Json.optional? Json.toUInt64? standard.blockLength blockLength
    let initBudget ← Json.optional? Json.toUInt64? standard.initBudget initBudget
    let frameBudget ← Json.optional? Json.toUInt64? standard.frameBudget frameBudget
    let tuning ← Json.optional? Tuning.ofJson? standard.tuning tuning
    let parallel ← Json.optional? Json.toBool? standard.parallel parallel
    pure ⟨frameCount, blockLength, initBudget, frameBudget, tuning, parallel⟩
  | _ => none

/-- Why a text holds no settings that can be used. -/
inductive TextError where
  /-- It does not hold settings at all. -/
  | malformed
  | invalid (e : ConfigError)
  deriving DecidableEq

/-- The settings of a text. -/
def ofText (text : String) : Except TextError Config :=
  match (Json.parse? text).bind ofJson? with
  | none => .error .malformed
  | some config =>
    match config.validate with
    | .error e => .error (.invalid e)
    | .ok () => .ok config

/-- The text of settings, a line for every field. -/
def text (c : Config) : String :=
  c.toJson.pretty

end Config

end Chiptune
