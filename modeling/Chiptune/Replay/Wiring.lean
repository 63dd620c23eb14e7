import Chiptune.Chip.Basic
import Chiptune.Replay.Source

/-!
# How accesses reach the chip

To a processor the registers of a sound chip are addresses of its memory, or they are behind input
and output ports.
-/

namespace Chiptune

/-! ## The chip window

Chip registers can lie in the address space of a processor, one address each from a base on.  No
more registers show than the largest chip has, and a window that reaches past the last address does
not go on at the first. -/

/-- A run of addresses that stand for chip registers. -/
structure Window where
  base : UInt16
  length : UInt16
  deriving DecidableEq

namespace Window

/-- Where the sound interface device lies by default. -/
def sid : Window :=
  ⟨0xD400, 25⟩

/-- The register at an address, if the address lies in the window. -/
def register? (w : Window) (address : UInt16) : Option UInt8 :=
  let offset := address.toNat - w.base.toNat
  if w.base ≤ address ∧ offset < w.length.toNat ∧ offset < maxRegisters then some offset.toUInt8
  else none

end Window

/-! ## Port maps

A sound generator behind input and output ports takes two steps to write: a register is selected,
and then a value is written to the register last selected.  Home computers differ in how their
ports say which of the two is meant.

| map | selects | writes |
|---|---|---|
| `zx128` | ports with bits 15 and 14 set, bit 1 clear | bit 15 set, bits 14 and 1 clear |
| `msx` | ports whose low byte is `A0` | low byte `A1` |
| `cpc` | latch on `F4xx`, then bits 7 and 6 set on `F6xx` | bit 7 set, bit 6 clear on `F6xx` | -/

/-- How ports reach the sound generator. -/
inductive PortMap where
  | zx128
  | cpc
  | msx
  deriving DecidableEq

/-- The state behind the ports. -/
structure Ports where
  map : PortMap
  /-- The register that the next value goes to. -/
  selected : UInt8
  /-- The byte last put on the data lines of the `cpc` map. -/
  latch : UInt8
  deriving DecidableEq

namespace Ports

/-- The ports of a machine that has just been switched on. -/
def powerOn (map : PortMap) : Ports :=
  ⟨map, 0, 0⟩

/-- Selects a register; only four bits of its number count. -/
def select (ports : Ports) (register : UInt8) : Ports :=
  { ports with selected := register &&& 0x0F }

/-- The setting of the selected register to a value. -/
def setting (ports : Ports) (value : UInt8) : Setting :=
  ⟨ports.selected, value⟩

/-- Sends a byte to a port, which may set a register of the chip. -/
def output (ports : Ports) (port : UInt16) (value : UInt8) : Ports × Option Setting :=
  match ports.map with
  | .zx128 =>
    let decoded := port &&& 0xC002
    if decoded = 0xC000 then (ports.select value, none)
    else if decoded = 0x8000 then (ports, some (ports.setting value))
    else (ports, none)
  | .cpc =>
    let decoded := port &&& 0xFF00
    if decoded = 0xF400 then ({ ports with latch := value }, none)
    else if decoded = 0xF600 then
      if value &&& 0xC0 = 0xC0 then (ports.select ports.latch, none)
      else if value &&& 0xC0 = 0x80 then (ports, some (ports.setting ports.latch))
      else (ports, none)
    else (ports, none)
  | .msx =>
    let decoded := port &&& 0x00FF
    if decoded = 0x00A0 then (ports.select value, none)
    else if decoded = 0x00A1 then (ports, some (ports.setting value))
    else (ports, none)

end Ports

end Chiptune
