import Chiptune.Json.Decode
import Chiptune.Json.Reader
import Chiptune.Song

/-!
# The JSON form of songs

An event is its name and the number that goes with it; an empty cell is null.
-/

namespace Chiptune

namespace Event

def toJson : Event → Json
  | .noteOn note => .object [("note-on", .nat note.toNat)]
  | .noteOff => .string "note-off"
  | .volumeChange volume => .object [("volume-change", .nat volume.toNat)]
  | .pitchChange cents => .object [("pitch-change", .integer cents.toInt)]

def ofName? : String → Option Event
  | "note-off" => some .noteOff
  | _ => none

def ofJson? (j : Json) : Option Event :=
  match j.variant? with
  | some ("note-on", some note) => note.toUInt8?.map noteOn
  | some ("volume-change", some volume) => volume.toUInt8?.map volumeChange
  | some ("pitch-change", some cents) => cents.toInt16?.map pitchChange
  | _ => j.named? ofName?

end Event

namespace Placement

def ofJson? (j : Json) : Option Placement :=
  match j.fields? ["frame", "channel", "kind"] with
  | some [frame, channel, event] => do
    let frame ← Json.required? Json.toNat? frame
    let channel ← Json.required? Json.toNat? channel
    let event ← Json.required? Event.ofJson? event
    pure ⟨frame, channel, event⟩
  | _ => none

end Placement

namespace Row

def toJson (row : Row) : Json :=
  .array (row.toList.map (Json.option Event.toJson))

def ofJson? (j : Json) : Option Row :=
  (j.toList? (Json.toOption? Event.ofJson?)).map List.toArray

end Row

namespace Pattern

def toJson (p : Pattern) : Json :=
  .object [("rows", .array (p.rows.toList.map Row.toJson))]

def ofJson? (j : Json) : Option Pattern :=
  match j.fields? ["rows"] with
  | some [rows] => do
    let rows ← Json.required? (Json.toList? Row.ofJson?) rows
    pure ⟨rows.toArray⟩
  | _ => none

end Pattern

namespace Subsong

def toJson (s : Subsong) : Json :=
  .object [("index", .nat s.index), ("channels", .nat s.channels),
    ("patterns", .array (s.patterns.toList.map Pattern.toJson)),
    ("order", .array (s.order.toList.map Json.nat))]

def ofJson? (j : Json) : Option Subsong :=
  match j.fields? ["index", "channels", "patterns", "order"] with
  | some [index, channels, patterns, order] => do
    let index ← Json.required? Json.toNat? index
    let channels ← Json.required? Json.toNat? channels
    let patterns ← Json.required? (Json.toList? Pattern.ofJson?) patterns
    let order ← Json.required? (Json.toList? Json.toNat?) order
    pure ⟨index, channels, patterns.toArray, order.toArray⟩
  | _ => none

end Subsong

namespace Song

def toJson (s : Song) : Json :=
  .object [("subsongs", .array (s.subsongs.map Subsong.toJson))]

def ofJson? (j : Json) : Option Song :=
  match j.fields? ["subsongs"] with
  | some [subsongs] => do
    let subsongs ← Json.required? (Json.toList? Subsong.ofJson?) subsongs
    pure ⟨subsongs⟩
  | _ => none

def ofText? (text : String) : Option Song :=
  (Json.parse? text).bind ofJson?

end Song

end Chiptune
