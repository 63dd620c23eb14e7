import Chiptune.Z80.Registers

/-!
# Instructions of the Z80

An instruction is what is left of its bytes once they have been read: the operation and its
operands, displacements and immediate values included.
-/

namespace Chiptune.Z80

/-- A place in memory. -/
inductive Pointer where
  /-- The address in a register pair. -/
  | pair (r : Reg16)
  /-- The address in an index register, moved by a signed displacement. -/
  | indexed (r : Reg16) (displacement : UInt8)
  | direct (address : UInt16)
  deriving DecidableEq

/-- A byte to work on. -/
inductive Operand where
  | register (r : Reg8)
  | memory (p : Pointer)
  | immediate (v : UInt8)
  deriving DecidableEq

/-- Operations on the accumulator and a byte. -/
inductive Arithmetic where
  | add | adc | sub | sbc | and | xor | or | cp
  deriving DecidableEq

/-- Ways to move the bits of a byte by one place. -/
inductive Rotation where
  | rlc | rrc | rl | rr | sla | sra | sll | srl
  deriving DecidableEq

/-- A flag and the state it has to be in. -/
structure Condition where
  flag : Flag
  on : Bool
  deriving DecidableEq

/-- What a block instruction does with each byte. -/
inductive BlockAction where
  | load | compare | input | output
  deriving DecidableEq

/-- An instruction with its operands. -/
inductive Instruction where
  | nop
  | halt
  | load (target source : Operand)
  | loadPair (target : Reg16) (value : UInt16)
  | fetchPair (target : Reg16) (address : UInt16)
  | storePair (address : UInt16) (source : Reg16)
  | copyToStackPointer (source : Reg16)
  | push (source : Reg16)
  | pop (target : Reg16)
  | exchangeDeHl
  | exchangeAf
  | exchangeAll
  | exchangeStack (pair : Reg16)
  | arithmetic (op : Arithmetic) (source : Operand)
  | increment (target : Operand)
  | decrement (target : Operand)
  | addPair (target source : Reg16)
  | addPairCarry (source : Reg16)
  | subPairCarry (source : Reg16)
  | incrementPair (target : Reg16)
  | decrementPair (target : Reg16)
  | rotateAccumulator (rotation : Rotation)
  | rotate (rotation : Rotation) (target : Operand)
  | testBit (n : UInt8) (source : Operand)
  | resetBit (n : UInt8) (target : Operand)
  | setBit (n : UInt8) (target : Operand)
  | adjustDecimal
  | complement
  | negate
  | setCarry
  | complementCarry
  | rotateDigitLeft
  | rotateDigitRight
  | interrupts (on : Bool)
  | jump (condition : Option Condition) (address : UInt16)
  | jumpPair (source : Reg16)
  | jumpRelative (condition : Option Condition) (displacement : UInt8)
  | decrementJump (displacement : UInt8)
  | call (condition : Option Condition) (address : UInt16)
  | ret (condition : Option Condition)
  | restart (address : UInt16)
  /-- Input from the port in BC; without a target only the flags change. -/
  | input (target : Option Reg8)
  | inputAccumulator (port : UInt8)
  /-- Output to the port in BC; without a source the byte is zero. -/
  | output (source : Option Reg8)
  | outputAccumulator (port : UInt8)
  | setInterruptPage
  | setRefreshCount
  | readInterruptPage
  | readRefreshCount
  /-- A block instruction, going up or down in memory, once or until done. -/
  | block (action : BlockAction) (up repeats : Bool)
  deriving DecidableEq

end Chiptune.Z80
