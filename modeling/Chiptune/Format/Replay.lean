import Chiptune.Chip.Family
import Chiptune.Json.Decode
import Chiptune.Replay.Engine
import Chiptune.Replay.Source

/-!
# The JSON form of chips, engines and outcomes

A chip is the name of its family and its clock; a waveform is its name, and the bits or the number
that go with it.  How a run ended is a name with which nothing goes.
-/

namespace Chiptune

/-! ## Chips -/

namespace Family

def name : Family → String
  | .psg => "ay8910"
  | .sid => "sid"
  | .paula => "paula"

def ofName? : String → Option Family
  | "ay8910" => some .psg
  | "sid" => some .sid
  | "paula" => some .paula
  | _ => none

def toJson (family : Family) : Json :=
  .string family.name

def ofJson? : Json → Option Family :=
  Json.named? ofName?

end Family

namespace Chip

def toJson (chip : Chip) : Json :=
  .object [("family", chip.family.toJson), ("clock_hz", .double chip.clock)]

def ofJson? (j : Json) : Option Chip :=
  match j.fields? ["family", "clock_hz"] with
  | some [family, clock] => do
    let family ← Json.required? Family.ofJson? family
    let clock ← Json.required? Json.toFloat? clock
    pure ⟨family, clock⟩
  | _ => none

end Chip

namespace Waveform

def ofName? : String → Option Waveform
  | "Off" => some .off
  | "Square" => some .square
  | "Noise" => some .noise
  | "SquareNoise" => some .squareNoise
  | "Triangle" => some .triangle
  | "Sawtooth" => some .sawtooth
  | "Pulse" => some .pulse
  | _ => none

def toJson : Waveform → Json
  | .off => .string "Off"
  | .square => .string "Square"
  | .noise => .string "Noise"
  | .squareNoise => .string "SquareNoise"
  | .envelope shape => .object [("Envelope", .nat shape.toNat)]
  | .triangle => .string "Triangle"
  | .sawtooth => .string "Sawtooth"
  | .pulse => .string "Pulse"
  | .combined bits => .object [("Combined", .nat bits.toNat)]
  | .sample slot => .object [("Sample", .nat slot.toNat)]

def ofJson? (j : Json) : Option Waveform :=
  match j.variant? with
  | some ("Envelope", some shape) => shape.toUInt8?.map envelope
  | some ("Combined", some bits) => bits.toUInt8?.map combined
  | some ("Sample", some slot) => slot.toUInt8?.map sample
  | _ => j.named? ofName?

end Waveform

/-! ## Engines

The kind of an engine stands among its fields, at any place, so the whole engine is looked through
before its kind is known.  For that every literal in it has to name something, fields that will be
left aside included, and it must not be nested too deeply. -/

namespace PortMap

def name : PortMap → String
  | .zx128 => "zx128"
  | .cpc => "cpc"
  | .msx => "msx"

def ofName? : String → Option PortMap
  | "zx128" => some .zx128
  | "cpc" => some .cpc
  | "msx" => some .msx
  | _ => none

def toJson (map : PortMap) : Json :=
  .string map.name

/-- An empty object may stand for the nothing that goes with a name. -/
def ofJson? : Json → Option PortMap
  | .object [(name, .object [])] => ofName? name
  | j => j.named? ofName?

end PortMap

namespace Window

def toJson (w : Window) : Json :=
  .object [("base", .nat w.base.toNat), ("len", .nat w.length.toNat)]

def ofJson? (j : Json) : Option Window :=
  match j.fields? ["base", "len"] with
  | some [base, length] => do
    let base ← Json.required? Json.toUInt16? base
    let length ← Json.required? Json.toUInt16? length
    pure ⟨base, length⟩
  | _ => none

end Window

namespace Engine

/-- How many arrays and objects can be open inside a job. -/
def maxDepth : Nat := 126

def toJson : Engine → Json
  | .z80 ports stack window =>
    .object [("kind", .string "z80"), ("ports", ports.toJson), ("stack", .nat stack.toNat),
      ("chip_window", Json.option Window.toJson window)]
  | .mos6502 window => .object [("kind", .string "mos6502"), ("chip_window", window.toJson)]
  | .script => .object [("kind", .string "macro")]

/-- An engine of a known kind, from all of its fields. -/
def ofFields? (kind : String) (j : Json) : Option Engine :=
  match kind with
  | "z80" =>
    match j.fields? ["ports", "stack", "chip_window"] with
    | some [ports, stack, window] => do
      let ports ← Json.required? PortMap.ofJson? ports
      let stack ← Json.required? Json.toUInt16? stack
      let window ← Json.optional? (Json.toOption? Window.ofJson?) none window
      pure (.z80 ports stack window)
    | _ => none
  | "mos6502" =>
    match j.fields? ["chip_window"] with
    | some [window] => (Json.optional? Window.ofJson? .sid window).map .mos6502
    | _ => none
  | "macro" => (j.fields? []).map fun _ => .script
  | _ => none

/-- An engine; as an array, its kind comes first. -/
def ofJson? (j : Json) : Option Engine :=
  if j.representable && j.depth ≤ maxDepth then
    match j with
    | .object members =>
      match Json.member? members "kind" with
      | some (some (.string kind)) => ofFields? kind (.object members)
      | _ => none
    | .array (.string kind :: rest) => ofFields? kind (.array rest)
    | _ => none
  else none

end Engine

/-! ## Outcomes -/

namespace Outcome

def name : Outcome → String
  | .halted => "halted"
  | .timedOut => "timed-out"

def ofName? : String → Option Outcome
  | "halted" => some .halted
  | "timed-out" => some .timedOut
  | _ => none

def toJson (outcome : Outcome) : Json :=
  .string outcome.name

def ofJson? : Json → Option Outcome :=
  Json.named? ofName?

end Outcome

end Chiptune
