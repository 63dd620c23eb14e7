import Chiptune.Numerals

/-!
# Registers and channels

However a replay routine reaches the sound chip, what it does there is a sequence of writes to
numbered registers.  A bank keeps the last value written to each register it exposes.  What the
registers hold is decoded, channel by channel, into pitch, loudness and sound source.
-/

namespace Chiptune

/-! ## Registers -/

/-- A write to a chip register, with the count of steps the routine had taken before it. -/
structure Write where
  register : UInt8
  value : UInt8
  tick : UInt32
  deriving DecidableEq

/-- The most registers any chip needs. -/
def maxRegisters : Nat := 32

/-- The values of a run of registers from register zero on. -/
abbrev Registers := Array UInt8

/-- The value of register `i`; a register that is missing counts as zero. -/
def Registers.at (regs : Registers) (i : Nat) : UInt8 :=
  regs.getD i 0

/-- Room for the largest chip, of which the first `visible` registers can be written and read. -/
structure Bank where
  slots : Vector UInt8 maxRegisters
  visible : Nat
  visible_le : visible ≤ maxRegisters
  deriving DecidableEq

namespace Bank

/-- A bank of zeros exposing `count` registers, or as many as there is room for. -/
def ofCount (count : Nat) : Bank :=
  ⟨Vector.replicate maxRegisters 0, min count maxRegisters, Nat.min_le_right _ _⟩

/-- The value of a register; zero past the exposed ones. -/
def read (bank : Bank) (register : UInt8) : UInt8 :=
  if register.toNat < bank.visible then bank.slots.toArray.getD register.toNat 0 else 0

/-- Keeps a value in a register; nothing is kept past the exposed ones. -/
def write (bank : Bank) (register value : UInt8) : Bank :=
  if register.toNat < bank.visible then
    { bank with slots := bank.slots.setIfInBounds register.toNat value }
  else bank

def registers (bank : Bank) : Registers :=
  bank.slots.toArray.extract 0 bank.visible

theorem read_ofCount (count : Nat) (register : UInt8) : (ofCount count).read register = 0 := by
  unfold read ofCount
  by_cases hroom : register.toNat < maxRegisters <;> simp [hroom]

@[simp] theorem visible_write (bank : Bank) (register value : UInt8) :
    (bank.write register value).visible = bank.visible := by
  unfold write
  split <;> rfl

/-- A read gives what the last write to that register left, if the register is exposed. -/
theorem read_write (bank : Bank) (register value query : UInt8) :
    (bank.write register value).read query =
      if query = register ∧ query.toNat < bank.visible then value else bank.read query := by
  have room := bank.visible_le
  by_cases h : register.toNat < bank.visible
  · by_cases hq : query = register
    · subst hq
      simp [read, write, h, show query.toNat < maxRegisters by omega]
    · have hne : ¬ register.toNat = query.toNat := fun e => hq (UInt8.toNat_inj.mp e.symm)
      simp [read, write, h, hq, hne]
  · by_cases hq : query = register
    · subst hq
      simp [write, h]
    · simp [write, h, hq]

end Bank

/-! ## Channels -/

inductive Waveform where
  /-- Nothing reaches the output. -/
  | off
  | square
  | noise
  | squareNoise
  /-- The square source under the hardware envelope of the given shape. -/
  | envelope (shape : UInt8)
  | triangle
  | sawtooth
  | pulse
  /-- Several sources selected at once, by their control bits. -/
  | combined (bits : UInt8)
  /-- A sample from the given slot. -/
  | sample (slot : UInt8)
  deriving DecidableEq

/-- A drawing of an envelope shape; the upper four bits do not matter. -/
def envelopeDrawing (shape : UInt8) : String :=
  match (shape &&& 0x0F).toNat with
  | 0 | 1 | 2 | 3 | 9 => "\\___"
  | 4 | 5 | 6 | 7 | 15 => "/___"
  | 8 => "\\\\\\\\"
  | 10 => "\\/\\/"
  | 11 => "\\¯¯¯"
  | 12 => "////"
  | 13 => "/¯¯¯"
  | _ => "/\\/\\"

def Waveform.text : Waveform → String
  | .off => "off"
  | .square => "square"
  | .noise => "noise"
  | .squareNoise => "square+noise"
  | .envelope shape => "env " ++ Hex.upper 1 shape.toNat ++ " " ++ envelopeDrawing shape
  | .triangle => "triangle"
  | .sawtooth => "sawtooth"
  | .pulse => "pulse"
  | .combined bits => "combined " ++ Hex.upper 2 bits.toNat
  | .sample slot => "sample " ++ toString slot.toNat

/-- The musical view of one channel. -/
structure Channel where
  /-- The period or frequency register as the chip sees it. -/
  period : UInt32
  /-- The frequency in hertz, where the period gives one. -/
  hz : Option Float
  /-- The volume, in the units of the chip. -/
  volume : UInt8
  /-- Whether the channel reaches the output at all. -/
  enabled : Bool
  waveform : Waveform
  deriving DecidableEq

namespace Channel

/-- A channel that is switched off. -/
def silent : Channel :=
  ⟨0, none, 0, false, .off⟩

/-- A channel is heard when it reaches the output with a pitch and some volume. -/
def audible (c : Channel) : Bool :=
  c.enabled && 0 < c.volume && c.hz.isSome

theorem audible_iff {c : Channel} :
    c.audible = true ↔ c.enabled = true ∧ 0 < c.volume ∧ c.hz.isSome = true := by
  simp [audible, and_assoc]

end Channel

end Chiptune
