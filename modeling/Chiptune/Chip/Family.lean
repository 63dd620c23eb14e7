import Chiptune.Chip.Basic

/-!
# Families of sound chips

A chip is a family, which fixes the layout of the registers, and a clock.  Every family decodes its
registers in its own way.
-/

namespace Chiptune

/-! ## The programmable sound generator

Sixteen registers drive three channels of square tone and noise.

| register | holds |
|---|---|
| 0-5 | tone period of each channel, low byte then four high bits |
| 6 | noise period |
| 7 | mixer: a set bit switches tone (bits 0-2) or noise (bits 3-5) off |
| 8-10 | volume of each channel, or bit 4 for the envelope |
| 11-13 | envelope period and shape |
| 14-15 | input and output ports | -/

namespace Psg

def registerCount : Nat := 16

def channelCount : Nat := 3

/-- The volume at which an envelope runs. -/
def envelopeVolume : UInt8 := 15

namespace Mixer

/-- The mixer bits that exist. -/
def bits : UInt8 := 0x3F

/-- Whether no bit of `mask` is missing from the mixer, bits that do not exist left aside. -/
def switchesOff (mixer mask : UInt8) : Bool :=
  let mask := mask &&& bits
  mixer &&& mask == mask

/-- Whether the tone of a channel is heard. -/
def toneOn (mixer : UInt8) (channel : Nat) : Bool :=
  !switchesOff mixer (1 <<< channel.toUInt8)

/-- Whether the noise is heard on a channel. -/
def noiseOn (mixer : UInt8) (channel : Nat) : Bool :=
  !switchesOff mixer (8 <<< channel.toUInt8)

end Mixer

/-- The tone period of a channel, of twelve bits. -/
def tonePeriod (regs : Registers) (channel : Nat) : UInt16 :=
  let fine := (regs.at (channel * 2)).toUInt16
  let coarse := (regs.at (channel * 2 + 1) &&& 0x0F).toUInt16
  fine ||| coarse <<< 8

/-- The tone frequency.  The counter takes a period of zero for one, so every channel has a
pitch. -/
def frequency (period : UInt16) (clock : Float) : Float :=
  clock / (16.0 * (max period 1).toFloat)

/-- What a channel does under the given registers. -/
def channel (regs : Registers) (channel : Nat) (clock : Float) : Channel :=
  let period := tonePeriod regs channel
  let mixer := regs.at 7
  let tone := Mixer.toneOn mixer channel
  let noise := Mixer.noiseOn mixer channel
  let amplitude := regs.at (8 + channel)
  let source : Waveform :=
    match tone, noise with
    | true, true => .squareNoise
    | true, false => .square
    | false, true => .noise
    | false, false => .off
  let enveloped := amplitude &&& 0x10 != 0
  { period := period.toUInt32
    hz := some (frequency period clock)
    volume := if enveloped then envelopeVolume else amplitude &&& 0x0F
    enabled := tone || noise
    waveform := if enveloped then .envelope (regs.at 13 &&& 0x0F) else source }

end Psg

/-! ## The sound interface device

Three voices of seven registers each are followed by the filter and, last, by the register of mode
bits and master volume.

| register of a voice | holds |
|---|---|
| 0-1 | frequency, low byte first |
| 2-3 | pulse width |
| 4 | control: gate, sync, ring, test, then triangle, sawtooth, pulse, noise |
| 5-6 | envelope | -/

namespace Sid

def registerCount : Nat := 25

def channelCount : Nat := 3

/-- Registers from one voice to the next. -/
def stride : Nat := 7

/-- The register of mode bits and master volume. -/
def modeVolume : Nat := 24

def gate : UInt8 := 0x01

/-- The control bit that holds the oscillator still. -/
def test : UInt8 := 0x08

/-- The mode bit that takes the last voice off the output. -/
def lastVoiceOff : UInt8 := 0x80

/-- The sound source that a control register selects. -/
def waveform (control : UInt8) : Waveform :=
  match (control >>> 4).toNat with
  | 0 => .off
  | 1 => .triangle
  | 2 => .sawtooth
  | 4 => .pulse
  | 8 => .noise
  | _ => .combined (control >>> 4)

def frequencyRegister (regs : Registers) (voice : Nat) : UInt16 :=
  (regs.at (voice * stride)).toUInt16 ||| (regs.at (voice * stride + 1)).toUInt16 <<< 8

/-- The frequency of an oscillator of 24 bits; a register of zero stands still and has none. -/
def frequency (register : UInt16) (clock : Float) : Option Float :=
  if register = 0 then none else some (register.toFloat * clock / 16777216.0)

/-- What a voice does under the given registers.  The envelope level cannot be seen from them, so
the gate counts as the switch and the master volume as the loudness. -/
def channel (regs : Registers) (voice : Nat) (clock : Float) : Channel :=
  let register := frequencyRegister regs voice
  let control := regs.at (voice * stride + 4)
  let mode := regs.at modeVolume
  let source := waveform control
  let muted := control &&& test != 0 || (voice == 2 && mode &&& lastVoiceOff != 0) || source == .off
  { period := register.toUInt32
    hz := frequency register clock
    volume := mode &&& 0x0F
    enabled := control &&& gate != 0 && !muted
    waveform := source }

end Sid

/-! ## Paula, as voice scripts drive it

Four channels have four registers each: the period, high byte first, the volume, and the slot of
the sample that is played.  Slot zero plays nothing. -/

namespace Paula

def registerCount : Nat := 16

def channelCount : Nat := 4

/-- Registers from one channel to the next. -/
def stride : Nat := 4

/-- The registers of a channel, counted from its first. -/
inductive Field where
  | periodHigh
  | periodLow
  | volume
  | slot
  deriving DecidableEq

/-- Where a register stands within its channel. -/
def Field.offset : Field → Nat
  | .periodHigh => 0
  | .periodLow => 1
  | .volume => 2
  | .slot => 3

def maxVolume : UInt8 := 64

/-- The register number at an offset from the first register of a channel, in one byte. -/
def registerAt (channel offset : Nat) : UInt8 :=
  (channel * stride + offset).toUInt8

/-- The register number of a field of a channel. -/
def register (channel : Nat) (field : Field) : UInt8 :=
  registerAt channel field.offset

/-- The frequency of a wave of 32 samples; a period of zero has none. -/
def frequency (period : UInt16) (clock : Float) : Option Float :=
  if period = 0 then none else some (clock / (period.toFloat * 32.0))

/-- What a channel does under the given registers. -/
def channel (regs : Registers) (channel : Nat) (clock : Float) : Channel :=
  let field (f : Field) := regs.at (channel * stride + f.offset)
  let period := (field .periodHigh).toUInt16 <<< 8 ||| (field .periodLow).toUInt16
  let slot := field .slot
  { period := period.toUInt32
    hz := frequency period clock
    volume := min (field .volume) maxVolume
    enabled := slot != 0 && period != 0
    waveform := if slot = 0 then .off else .sample slot }

end Paula

/-! ## Families -/

/-- A layout of registers. -/
inductive Family where
  | psg
  | sid
  | paula
  deriving DecidableEq

namespace Family

/-- The count of registers. -/
def registerCount : Family → Nat
  | .psg => Psg.registerCount
  | .sid => Sid.registerCount
  | .paula => Paula.registerCount

theorem registerCount_le (family : Family) : family.registerCount ≤ maxRegisters := by
  cases family <;> decide

/-- The count of channels. -/
def channelCount : Family → Nat
  | .psg => Psg.channelCount
  | .sid => Sid.channelCount
  | .paula => Paula.channelCount

/-- The clock, in hertz, that a chip runs at unless told otherwise. -/
def defaultClock : Family → Float
  | .psg => 1773400.0
  | .sid => 985248.0
  | .paula => 3546895.0

/-- What a channel does under the given registers. -/
def channel : Family → Registers → Nat → Float → Channel
  | .psg => Psg.channel
  | .sid => Sid.channel
  | .paula => Paula.channel

end Family

/-- A sound chip: its family and its clock in hertz. -/
structure Chip where
  family : Family
  clock : Float
  deriving DecidableEq

/-- A chip at the clock of its family. -/
def Chip.standard (family : Family) : Chip :=
  ⟨family, family.defaultClock⟩

end Chiptune
