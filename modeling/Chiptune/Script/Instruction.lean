import Chiptune.Memory

/-!
# Instructions of voice scripts

The music of a voice can be a script of one-byte opcodes with operands behind them, words with
their high byte first.

| opcode | instruction | operands |
|---|---|---|
| 00 | stop for good | |
| 01 | play a wave slot | slot |
| 02 | set the period | word |
| 03 | set the volume | byte |
| 04 | ramp the volume | first, last, frames |
| 05 | ramp the period | first word, last word, frames |
| 06 | wait | frames |
| 07 | go on elsewhere | address |

Reading moves on with every operand, and where it fails it stays behind what could be read.
-/

namespace Chiptune.Script

/-- What a script can tell its voice. -/
inductive Instruction where
  | stop
  | wave (slot : UInt8)
  | period (value : UInt16)
  | volume (value : UInt8)
  | volumeRamp (first last frames : UInt8)
  | periodRamp (first last : UInt16) (frames : UInt8)
  | wait (frames : UInt8)
  | jump (target : UInt16)
  deriving DecidableEq

/-- Why an instruction cannot be read. -/
inductive Unreadable where
  /-- A byte that begins no instruction. -/
  | unknown (opcode : UInt8) (address : Nat)
  | outside (fault : AddressFault)
  deriving DecidableEq

/-- Reading from an address on; the address reached is known also after a failure. -/
abbrev Reading := ExceptT Unreadable (StateM Nat)

/-- Reads what `access` finds, which takes `count` bytes. -/
def Reading.take {α : Type} (count : Nat) (access : Nat → Except AddressFault α) : Reading α := do
  let address ← get
  match access address with
  | .ok value => do
    set (address + count)
    pure value
  | .error fault => throw (.outside fault)

def Reading.byte (memory : Memory) : Reading UInt8 :=
  take 1 memory.readByte

def Reading.word (memory : Memory) : Reading UInt16 :=
  take 2 memory.readWordHighFirst

def Instruction.read (memory : Memory) : Reading Instruction := do
  let byte := Reading.byte memory
  let word := Reading.word memory
  let address ← get
  let opcode ← byte
  match opcode.toNat with
  | 0 => pure .stop
  | 1 => do
    let slot ← byte
    pure (.wave slot)
  | 2 => do
    let value ← word
    pure (.period value)
  | 3 => do
    let value ← byte
    pure (.volume value)
  | 4 => do
    let first ← byte
    let last ← byte
    let frames ← byte
    pure (.volumeRamp first last frames)
  | 5 => do
    let first ← word
    let last ← word
    let frames ← byte
    pure (.periodRamp first last frames)
  | 6 => do
    let frames ← byte
    pure (.wait frames)
  | 7 => do
    let target ← word
    pure (.jump target)
  | _ => throw (.unknown opcode address)

end Chiptune.Script
