import Chiptune.Replay.Bus
import Chiptune.Z80.Instruction

/-!
# Decoding Z80 instructions

The eight bits of an opcode fall into fields `xxyyyzzz`, and `yyy` into `ppq`; most of the
instruction set is regular in them.  A prefix `DD` or `FD` puts an index register in the place of
HL: as the address it becomes indexed with a displacement, and otherwise H and L become the halves
of the index register, but not beside an indexed address.  Prefixes `CB` and `ED` open further
tables.
-/

namespace Chiptune.Z80

/-- Work of the processor: it changes the registers and reaches memory and ports over the bus. -/
abbrev Work := StateT Registers BusProgram

/-- The byte at the program counter, which moves on. -/
def fetch : Work UInt8 := do
  let r ← get
  let byte ← BusProgram.load r.pc
  modify fun r => { r with pc := r.pc + 1 }
  pure byte

/-- The word at the program counter, low byte first. -/
def fetchWord : Work UInt16 := do
  let low ← fetch
  let high ← fetch
  pure (Memory.wordOf high low)

namespace Opcode

def x (op : UInt8) : Nat := (op >>> 6).toNat

def y (op : UInt8) : UInt8 := op >>> 3 &&& 7

def z (op : UInt8) : UInt8 := op &&& 7

def p (op : UInt8) : UInt8 := op >>> 4 &&& 3

def q (op : UInt8) : Bool := op &&& 8 != 0

end Opcode

/-- Which pair stands where the plain tables have HL: HL, IX or IY. -/
abbrev Index := Reg16

def Index.high : Index → Reg8
  | .ix => .ixHigh
  | .iy => .iyHigh
  | _ => .h

def Index.low : Index → Reg8
  | .ix => .ixLow
  | .iy => .iyLow
  | _ => .l

/-- The memory operand; an index register is followed by a displacement. -/
def memoryOperand (index : Index) : Work Operand := do
  if index = .hl then pure (.memory (.pair .hl))
  else pure (.memory (.indexed index (← fetch)))

/-- The byte register of a field other than 6. -/
def registerField (index : Index) (field : UInt8) : Reg8 :=
  match field.toNat with
  | 0 => .b
  | 1 => .c
  | 2 => .d
  | 3 => .e
  | 4 => Index.high index
  | 5 => Index.low index
  | _ => .a

/-- The byte operand of a field. -/
def operandField (index : Index) (field : UInt8) : Work Operand :=
  if field = 6 then memoryOperand index else pure (.register (registerField index field))

/-- The register pair of a field, the last one being the stack pointer. -/
def pairField (index : Index) (field : UInt8) : Reg16 :=
  match field.toNat with
  | 0 => .bc
  | 1 => .de
  | 2 => index
  | _ => .sp

/-- The register pair of a stack instruction, the last one being the accumulator and flags. -/
def stackField (index : Index) (field : UInt8) : Reg16 :=
  match field.toNat with
  | 0 => .bc
  | 1 => .de
  | 2 => index
  | _ => .af

def conditionField (field : UInt8) : Condition :=
  let flag : Flag := match (field >>> 1).toNat with
    | 0 => .zero
    | 1 => .carry
    | 2 => .parity
    | _ => .sign
  ⟨flag, field &&& 1 != 0⟩

def arithmeticField (field : UInt8) : Arithmetic :=
  match field.toNat with
  | 0 => .add
  | 1 => .adc
  | 2 => .sub
  | 3 => .sbc
  | 4 => .and
  | 5 => .xor
  | 6 => .or
  | _ => .cp

def rotationField (field : UInt8) : Rotation :=
  match field.toNat with
  | 0 => .rlc
  | 1 => .rrc
  | 2 => .rl
  | 3 => .rr
  | 4 => .sla
  | 5 => .sra
  | 6 => .sll
  | _ => .srl

def accumulator : Operand := .register .a

/-- Opcodes from `00` to `3F`. -/
def decodeLow (index : Index) (op : UInt8) : Work Instruction := do
  let y := Opcode.y op
  let pair := pairField index (Opcode.p op)
  let q := Opcode.q op
  match (Opcode.z op).toNat with
  | 0 =>
    match y.toNat with
    | 0 => pure .nop
    | 1 => pure .exchangeAf
    | 2 => pure (.decrementJump (← fetch))
    | 3 => pure (.jumpRelative none (← fetch))
    | _ => pure (.jumpRelative (some (conditionField (y &&& 3))) (← fetch))
  | 1 => if q then pure (.addPair index pair) else pure (.loadPair pair (← fetchWord))
  | 2 =>
    match y.toNat with
    | 0 => pure (.load (.memory (.pair .bc)) accumulator)
    | 1 => pure (.load accumulator (.memory (.pair .bc)))
    | 2 => pure (.load (.memory (.pair .de)) accumulator)
    | 3 => pure (.load accumulator (.memory (.pair .de)))
    | 4 => pure (.storePair (← fetchWord) index)
    | 5 => pure (.fetchPair index (← fetchWord))
    | 6 => pure (.load (.memory (.direct (← fetchWord))) accumulator)
    | _ => pure (.load accumulator (.memory (.direct (← fetchWord))))
  | 3 => pure (if q then .decrementPair pair else .incrementPair pair)
  | 4 => pure (.increment (← operandField index y))
  | 5 => pure (.decrement (← operandField index y))
  | 6 => do
    let target ← operandField index y
    pure (.load target (.immediate (← fetch)))
  | _ =>
    match y.toNat with
    | 0 => pure (.rotateAccumulator .rlc)
    | 1 => pure (.rotateAccumulator .rrc)
    | 2 => pure (.rotateAccumulator .rl)
    | 3 => pure (.rotateAccumulator .rr)
    | 4 => pure .adjustDecimal
    | 5 => pure .complement
    | 6 => pure .setCarry
    | _ => pure .complementCarry

/-- Opcodes from `40` to `7F`: loads between bytes, and the stop instruction in the place of a load
from memory to memory. -/
def decodeLoad (index : Index) (op : UInt8) : Work Instruction := do
  let y := Opcode.y op
  let z := Opcode.z op
  if y = 6 ∧ z = 6 then pure .halt
  else if y = 6 then pure (.load (← memoryOperand index) (.register (registerField .hl z)))
  else if z = 6 then pure (.load (.register (registerField .hl y)) (← memoryOperand index))
  else pure (.load (.register (registerField index y)) (.register (registerField index z)))

/-- Opcodes from `C0` to `FF`, prefixes left aside. -/
def decodeHigh (index : Index) (op : UInt8) : Work Instruction := do
  let y := Opcode.y op
  let condition := some (conditionField y)
  match (Opcode.z op).toNat with
  | 0 => pure (.ret condition)
  | 1 =>
    if Opcode.q op then
      match (Opcode.p op).toNat with
      | 0 => pure (.ret none)
      | 1 => pure .exchangeAll
      | 2 => pure (.jumpPair index)
      | _ => pure (.copyToStackPointer index)
    else pure (.pop (stackField index (Opcode.p op)))
  | 2 => pure (.jump condition (← fetchWord))
  | 3 =>
    match y.toNat with
    | 0 => pure (.jump none (← fetchWord))
    | 2 => pure (.outputAccumulator (← fetch))
    | 3 => pure (.inputAccumulator (← fetch))
    | 4 => pure (.exchangeStack index)
    | 5 => pure .exchangeDeHl
    | 6 => pure (.interrupts false)
    | _ => pure (.interrupts true)
  | 4 => pure (.call condition (← fetchWord))
  | 5 =>
    if Opcode.q op then pure (.call none (← fetchWord))
    else pure (.push (stackField index (Opcode.p op)))
  | 6 => pure (.arithmetic (arithmeticField y) (.immediate (← fetch)))
  | _ => pure (.restart (y.toUInt16 * 8))

/-- The table behind `CB`: rotations and single bits.  An index register has its displacement in
front of the opcode and always stands for memory. -/
def decodeBits (index : Index) : Work Instruction := do
  let indexed ← if index = .hl then pure none else some <$> memoryOperand index
  let op ← fetch
  let target ← match indexed with
    | some operand => pure operand
    | none => operandField .hl (Opcode.z op)
  let y := Opcode.y op
  match Opcode.x op with
  | 0 => pure (.rotate (rotationField y) target)
  | 1 => pure (.testBit y target)
  | 2 => pure (.resetBit y target)
  | _ => pure (.setBit y target)

/-- The table behind `ED`, where index prefixes have no effect and most places do nothing. -/
def decodeExtended : Work Instruction := do
  let op ← fetch
  let y := Opcode.y op
  let pair := pairField .hl (Opcode.p op)
  let q := Opcode.q op
  let port := if y = 6 then none else some (registerField .hl y)
  match Opcode.x op with
  | 1 =>
    match (Opcode.z op).toNat with
    | 0 => pure (.input port)
    | 1 => pure (.output port)
    | 2 => pure (if q then .addPairCarry pair else .subPairCarry pair)
    | 3 => if q then pure (.fetchPair pair (← fetchWord)) else pure (.storePair (← fetchWord) pair)
    | 4 => pure .negate
    | 5 => pure (.ret none)
    | 6 => pure .nop
    | _ =>
      match y.toNat with
      | 0 => pure .setInterruptPage
      | 1 => pure .setRefreshCount
      | 2 => pure .readInterruptPage
      | 3 => pure .readRefreshCount
      | 4 => pure .rotateDigitRight
      | 5 => pure .rotateDigitLeft
      | _ => pure .nop
  | 2 =>
    let up := y &&& 1 == 0
    let repeats := y &&& 2 != 0
    if y < 4 then pure .nop
    else
      match (Opcode.z op).toNat with
      | 0 => pure (.block .load up repeats)
      | 1 => pure (.block .compare up repeats)
      | 2 => pure (.block .input up repeats)
      | 3 => pure (.block .output up repeats)
      | _ => pure .nop
  | _ => pure .nop

/-- How many prefixes are read before the decoder gives up: once every address has been passed, the
whole memory is prefixes and no instruction will ever come. -/
def prefixLimit : Nat := 65536

/-- An instruction with its operands.  Of several index prefixes the last one counts. -/
def decodeFrom (index : Index) : (fuel : Nat) → Work Instruction
  | 0 => pure .nop
  | fuel + 1 => do
    let op ← fetch
    match op.toNat with
    | 0xCB => decodeBits index
    | 0xDD => decodeFrom .ix fuel
    | 0xED => decodeExtended
    | 0xFD => decodeFrom .iy fuel
    | _ =>
      match Opcode.x op with
      | 0 => decodeLow index op
      | 1 => decodeLoad index op
      | 2 => pure (.arithmetic (arithmeticField (Opcode.y op)) (← operandField index (Opcode.z op)))
      | _ => decodeHigh index op

/-- The instruction at the program counter. -/
def decode : Work Instruction :=
  decodeFrom .hl prefixLimit

end Chiptune.Z80
