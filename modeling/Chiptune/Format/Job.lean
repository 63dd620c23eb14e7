import Chiptune.Format.Replay
import Chiptune.Extraction
import Chiptune.Json.Reader

/-!
# The JSON form of jobs

The selector of a song may be left out, and so may the frame rate of a job.
-/

namespace Chiptune

namespace Block

def toJson (b : Block) : Json :=
  .object [("address", .nat b.address.toNat), ("length", .nat b.length.toNat),
    ("data", .array (b.data.map fun byte => .nat byte.toNat))]

def ofJson? (j : Json) : Option Block :=
  match j.fields? ["address", "length", "data"] with
  | some [address, length, data] => do
    let address ← Json.required? Json.toUInt32? address
    let length ← Json.required? Json.toUInt64? length
    let data ← Json.required? (Json.toList? Json.toUInt8?) data
    pure ⟨address, length, data⟩
  | _ => none

end Block

namespace Entry

def toJson (e : Entry) : Json :=
  .object [("init", .nat e.init.toNat), ("frame", .nat e.frame.toNat),
    ("selector", .nat e.selector.toNat)]

def ofJson? (j : Json) : Option Entry :=
  match j.fields? ["init", "frame", "selector"] with
  | some [init, frame, selector] => do
    let init ← Json.required? Json.toUInt16? init
    let frame ← Json.required? Json.toUInt16? frame
    let selector ← Json.optional? Json.toUInt8? 0 selector
    pure ⟨init, frame, selector⟩
  | _ => none

end Entry

namespace Job

/-- The frame rate of a job that names none. -/
def defaultFrameRate : Float := 50.0

def fieldNames : List String :=
  ["memory_size", "blocks", "engine", "chip", "subsongs", "frame_rate_hz"]

def toJson (job : Job) : Json :=
  .object [("memory_size", .nat job.memorySize.toNat),
    ("blocks", .array (job.blocks.map Block.toJson)), ("engine", job.engine.toJson),
    ("chip", job.chip.toJson), ("subsongs", .array (job.subsongs.map Entry.toJson)),
    ("frame_rate_hz", .double job.frameRate)]

def ofJson? (j : Json) : Option Job :=
  match j.fields? fieldNames with
  | some [memorySize, blocks, engine, chip, subsongs, frameRate] => do
    let memorySize ← Json.required? Json.toUInt64? memorySize
    let blocks ← Json.required? (Json.toList? Block.ofJson?) blocks
    let engine ← Json.required? Engine.ofJson? engine
    let chip ← Json.required? Chip.ofJson? chip
    let subsongs ← Json.required? (Json.toList? Entry.ofJson?) subsongs
    let frameRate ← Json.optional? Json.toFloat? defaultFrameRate frameRate
    pure ⟨memorySize, blocks, engine, chip, subsongs, frameRate⟩
  | _ => none

def ofText? (text : String) : Option Job :=
  (Json.parse? text).bind ofJson?

end Job

end Chiptune
