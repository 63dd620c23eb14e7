import Chiptune.Memory

/-!
# Registers of the Z80

Byte registers are the halves of register pairs, the accumulator and the flags being one pair.  Of
the interrupt logic only the flip-flop that programs can read is kept.
-/

namespace Chiptune.Z80

inductive Reg8 where
  | a | b | c | d | e | h | l
  | ixHigh | ixLow | iyHigh | iyLow
  deriving DecidableEq

inductive Reg16 where
  | af | bc | de | hl | ix | iy | sp
  deriving DecidableEq

/-- The state of the processor. -/
structure Registers where
  af : UInt16
  bc : UInt16
  de : UInt16
  hl : UInt16
  ix : UInt16
  iy : UInt16
  sp : UInt16
  pc : UInt16
  /-- The pairs that exchange instructions swap in. -/
  otherAf : UInt16
  otherBc : UInt16
  otherDe : UInt16
  otherHl : UInt16
  interruptPage : UInt8
  refreshCount : UInt8
  interruptsOn : Bool
  /-- A stop instruction has been executed, and nothing will be again. -/
  frozen : Bool
  deriving DecidableEq

def highByte (w : UInt16) : UInt8 :=
  (w >>> 8).toUInt8

def lowByte (w : UInt16) : UInt8 :=
  w.toUInt8

namespace Registers

/-- The processor just switched on. -/
def powerOn : Registers where
  af := 0xFFFF
  bc := 0
  de := 0
  hl := 0
  ix := 0
  iy := 0
  sp := 0xFFFF
  pc := 0
  otherAf := 0
  otherBc := 0
  otherDe := 0
  otherHl := 0
  interruptPage := 0
  refreshCount := 0
  interruptsOn := false
  frozen := false

def pair (r : Registers) : Reg16 → UInt16
  | .af => r.af
  | .bc => r.bc
  | .de => r.de
  | .hl => r.hl
  | .ix => r.ix
  | .iy => r.iy
  | .sp => r.sp

def setPair (r : Registers) : Reg16 → UInt16 → Registers
  | .af, w => { r with af := w }
  | .bc, w => { r with bc := w }
  | .de, w => { r with de := w }
  | .hl, w => { r with hl := w }
  | .ix, w => { r with ix := w }
  | .iy, w => { r with iy := w }
  | .sp, w => { r with sp := w }

def byte (r : Registers) : Reg8 → UInt8
  | .a => highByte r.af
  | .b => highByte r.bc
  | .c => lowByte r.bc
  | .d => highByte r.de
  | .e => lowByte r.de
  | .h => highByte r.hl
  | .l => lowByte r.hl
  | .ixHigh => highByte r.ix
  | .ixLow => lowByte r.ix
  | .iyHigh => highByte r.iy
  | .iyLow => lowByte r.iy

def setByte (r : Registers) (reg : Reg8) (v : UInt8) : Registers :=
  let high (w : UInt16) := Memory.wordOf v (lowByte w)
  let low (w : UInt16) := Memory.wordOf (highByte w) v
  match reg with
  | .a => { r with af := high r.af }
  | .b => { r with bc := high r.bc }
  | .c => { r with bc := low r.bc }
  | .d => { r with de := high r.de }
  | .e => { r with de := low r.de }
  | .h => { r with hl := high r.hl }
  | .l => { r with hl := low r.hl }
  | .ixHigh => { r with ix := high r.ix }
  | .ixLow => { r with ix := low r.ix }
  | .iyHigh => { r with iy := high r.iy }
  | .iyLow => { r with iy := low r.iy }

end Registers

/-! ## Flags -/

inductive Flag where
  | carry | subtract | parity | half | zero | sign
  deriving DecidableEq

def Flag.bit : Flag → UInt8
  | .carry => 0x01
  | .subtract => 0x02
  | .parity => 0x04
  | .half => 0x10
  | .zero => 0x40
  | .sign => 0x80

/-- Flags with the state they go to. -/
abbrev FlagChanges := List (Flag × Bool)

namespace Registers

def flag (r : Registers) (f : Flag) : Bool :=
  lowByte r.af &&& f.bit != 0

def setFlag (r : Registers) (f : Flag) (on : Bool) : Registers :=
  let flags := lowByte r.af
  let flags := if on then flags ||| f.bit else flags &&& ~~~f.bit
  { r with af := Memory.wordOf (highByte r.af) flags }

def setFlags (r : Registers) (changes : FlagChanges) : Registers :=
  changes.foldl (fun r (f, on) => r.setFlag f on) r

end Registers

end Chiptune.Z80
