import Chiptune.Mos6502.Instruction
import Chiptune.Replay.Machine

/-!
# Executing 6502 instructions

All bytes of an instruction, and the bytes of a pointer it names, are loaded before anything is
done; an instruction that changes memory loads and stores it once.

A pointer in the zero page is followed by its high byte at the next address, even past the page,
while the pointer of an indirect jump stays within its page.
-/

namespace Chiptune.Mos6502

/-- The state of the processor. -/
structure Registers where
  a : UInt8
  x : UInt8
  y : UInt8
  stack : UInt8
  status : UInt8
  pc : UInt16
  deriving DecidableEq

inductive Flag where
  | carry | zero | interrupt | decimal | overflow | negative
  deriving DecidableEq

def Flag.bit : Flag → UInt8
  | .carry => 0x01
  | .zero => 0x02
  | .interrupt => 0x04
  | .decimal => 0x08
  | .overflow => 0x40
  | .negative => 0x80

namespace Registers

/-- The processor just switched on. -/
def powerOn : Registers :=
  ⟨0, 0, 0, 0, 0x24, 0⟩

def flag (r : Registers) (f : Flag) : Bool :=
  r.status &&& f.bit != 0

def setFlag (r : Registers) (f : Flag) (on : Bool) : Registers :=
  { r with status := if on then r.status ||| f.bit else r.status &&& ~~~f.bit }

/-- Zero and sign of a result. -/
def setResult (r : Registers) (v : UInt8) : Registers :=
  (r.setFlag .zero (v == 0)).setFlag .negative (v &&& 0x80 != 0)

def setA (r : Registers) (v : UInt8) : Registers :=
  { r with a := v }.setResult v

def setX (r : Registers) (v : UInt8) : Registers :=
  { r with x := v }.setResult v

def setY (r : Registers) (v : UInt8) : Registers :=
  { r with y := v }.setResult v

/-- The address of the top of the stack. -/
def stackAddress (r : Registers) : UInt16 :=
  0x0100 ||| r.stack.toUInt16

end Registers

/-- Work of the processor: it changes the registers and reaches memory over the bus. -/
abbrev Work := StateT Registers BusProgram

/-! ## Operands -/

/-- What an addressing mode leads to. -/
inductive Operand where
  | none
  | accumulator
  | immediate (v : UInt8)
  | address (a : UInt16)
  deriving DecidableEq

/-- The byte at the program counter, which moves on. -/
def fetch : Work UInt8 := do
  let r ← get
  let byte ← BusProgram.load r.pc
  modify fun r => { r with pc := r.pc + 1 }
  pure byte

/-- The word at the program counter, low byte first. -/
def fetchWord : Work UInt16 := do
  let low ← fetch
  let high ← fetch
  pure (Memory.wordOf high low)

/-- The address of a pointer whose high byte is in the same page. -/
def loadInPage (pointer : UInt16) : Work UInt16 := do
  let low ← BusProgram.load pointer
  let high ← BusProgram.load ((pointer &&& 0xFF00) ||| ((pointer + 1) &&& 0x00FF))
  pure (Memory.wordOf high low)

/-- Reads the rest of an instruction and finds its operand. -/
def operand (mode : Mode) : Work Operand := do
  let r ← get
  match mode with
  | .implied => pure .none
  | .accumulator => pure .accumulator
  | .immediate => pure (.immediate (← fetch))
  | .zeroPage => pure (.address (← fetch).toUInt16)
  | .zeroPageX => pure (.address ((← fetch) + r.x).toUInt16)
  | .zeroPageY => pure (.address ((← fetch) + r.y).toUInt16)
  | .absolute => pure (.address (← fetchWord))
  | .absoluteX => pure (.address ((← fetchWord) + r.x.toUInt16))
  | .absoluteY => pure (.address ((← fetchWord) + r.y.toUInt16))
  | .indirect => do
    let pointer ← fetchWord
    pure (.address (← loadInPage pointer))
  | .indirectX => do
    let pointer := (← fetch) + r.x
    pure (.address (← BusProgram.loadWord pointer.toUInt16))
  | .indirectY => do
    let pointer ← fetch
    pure (.address ((← BusProgram.loadWord pointer.toUInt16) + r.y.toUInt16))
  | .relative => do
    let offset ← fetch
    let base := (← get).pc
    let distance := offset.toUInt16
    pure (.address (base + if offset < 0x80 then distance else distance - 0x100))

def read : Operand → Work UInt8
  | .none => pure 0
  | .accumulator => do pure (← get).a
  | .immediate v => pure v
  | .address a => BusProgram.load a

def write : Operand → UInt8 → Work Unit
  | .accumulator, v => modify fun r => { r with a := v }
  | .address a, v => BusProgram.store a v
  | _, _ => pure ()

def push (v : UInt8) : Work Unit := do
  let r ← get
  BusProgram.store r.stackAddress v
  set { r with stack := r.stack - 1 }

def pop : Work UInt8 := do
  modify fun r => { r with stack := r.stack + 1 }
  BusProgram.load (← get).stackAddress

/-- Pushes a word, high byte first. -/
def pushWord (w : UInt16) : Work Unit := do
  push (w >>> 8).toUInt8
  push w.toUInt8

/-- Pops a word, low byte first. -/
def popWord : Work UInt16 := do
  let low ← pop
  let high ← pop
  pure (Memory.wordOf high low)

/-! ## Arithmetic -/

/-- A sum of decimal digits, with its carry. -/
def addDecimal (a v : UInt8) (carry : Bool) : UInt8 × Bool :=
  let low := (a &&& 15) + (v &&& 15) + carry.toNat.toUInt8
  let (low, c) := if 9 < low then (low - 10, (1 : UInt8)) else (low, 0)
  let high := (a >>> 4) + (v >>> 4) + c
  let (high, carry) := if 9 < high then (high - 10, true) else (high, false)
  (high <<< 4 ||| low &&& 15, carry)

/-- A difference of decimal digits, with its carry, which is clear when a digit had to be
borrowed. -/
def subDecimal (a v : UInt8) (carry : Bool) : UInt8 × Bool :=
  let borrow : UInt8 := if carry then 0 else 1
  let low := (a &&& 15) - (v &&& 15) - borrow
  let (low, borrow) := if low &&& 16 != 0 then ((low + 10) &&& 15, (1 : UInt8)) else (low, 0)
  let high := (a >>> 4) - (v >>> 4) - borrow
  let (high, carry) := if high &&& 16 != 0 then ((high + 10) &&& 15, false) else (high, true)
  (high <<< 4 ||| low, carry)

/-- Adds to the accumulator.  In decimal mode the overflow flag still tells of the binary sum. -/
def addToA (r : Registers) (v : UInt8) : Registers :=
  let carry := r.flag .carry
  let total := r.a.toNat + v.toNat + carry.toNat
  let sum := total.toUInt8
  let overflow := (r.a ^^^ sum) &&& (v ^^^ sum) &&& 0x80 != 0
  let (result, carryOut) :=
    if r.flag .decimal then addDecimal r.a v carry else (sum, decide (256 ≤ total))
  ((r.setFlag .overflow overflow).setFlag .carry carryOut).setA result

/-- Subtracts from the accumulator.  In decimal mode the overflow flag still tells of the binary
difference. -/
def subFromA (r : Registers) (v : UInt8) : Registers :=
  let carry := r.flag .carry
  let borrow := (!carry).toNat
  let difference := r.a - v - borrow.toUInt8
  let overflow := (r.a ^^^ v) &&& (r.a ^^^ difference) &&& 0x80 != 0
  let (result, carryOut) :=
    if r.flag .decimal then subDecimal r.a v carry
    else (difference, decide (v.toNat + borrow ≤ r.a.toNat))
  ((r.setFlag .overflow overflow).setFlag .carry carryOut).setA result

def compareWith (r : Registers) (register v : UInt8) : Registers :=
  (r.setFlag .carry (v ≤ register)).setResult (register - v)

/-- Tests the bits of the accumulator in a byte, and shows the upper two of the byte as flags. -/
def testBits (r : Registers) (v : UInt8) : Registers :=
  let r := r.setFlag .zero (r.a &&& v == 0)
  let r := r.setFlag .negative (v &&& 0x80 != 0)
  r.setFlag .overflow (v &&& 0x40 != 0)

/-- A byte moved left, with a bit moved in. -/
def shiftLeft (carryIn : Bool) (r : Registers) (v : UInt8) : UInt8 × Registers :=
  let result := v <<< 1 ||| carryIn.toNat.toUInt8
  (result, (r.setFlag .carry (v &&& 0x80 != 0)).setResult result)

/-- A byte moved right, with a bit moved in. -/
def shiftRight (carryIn : Bool) (r : Registers) (v : UInt8) : UInt8 × Registers :=
  let result := v >>> 1 ||| if carryIn then 0x80 else 0
  (result, (r.setFlag .carry (v &&& 1 != 0)).setResult result)

/-! ## Instructions -/

def load (o : Operand) (f : Registers → UInt8 → Registers) : Work Unit := do
  let v ← read o
  modify fun r => f r v

/-- Loads an operand, replaces it and sets the flags. -/
def change (o : Operand) (f : Registers → UInt8 → UInt8 × Registers) : Work Unit := do
  let v ← read o
  let (v, r) := f (← get) v
  set r
  write o v

/-- Goes to the operand if a flag has the given state. -/
def branch (o : Operand) (f : Flag) (on : Bool) : Work Unit :=
  modify fun r =>
    match o with
    | .address a => if r.flag f == on then { r with pc := a } else r
    | _ => r

/-- Executes an operation on its operand. -/
def execute (operation : Operation) (o : Operand) : Work Unit := do
  let r ← get
  match operation with
  | .adc => load o addToA
  | .sbc => load o subFromA
  | .and => load o fun r v => r.setA (r.a &&& v)
  | .ora => load o fun r v => r.setA (r.a ||| v)
  | .eor => load o fun r v => r.setA (r.a ^^^ v)
  | .asl => change o (shiftLeft false)
  | .rol => change o (shiftLeft (r.flag .carry))
  | .lsr => change o (shiftRight false)
  | .ror => change o (shiftRight (r.flag .carry))
  | .inc => change o fun r v => (v + 1, r.setResult (v + 1))
  | .dec => change o fun r v => (v - 1, r.setResult (v - 1))
  | .bit => load o testBits
  | .cmp => load o fun r v => compareWith r r.a v
  | .cpx => load o fun r v => compareWith r r.x v
  | .cpy => load o fun r v => compareWith r r.y v
  | .lda => load o Registers.setA
  | .ldx => load o Registers.setX
  | .ldy => load o Registers.setY
  | .sta => write o r.a
  | .stx => write o r.x
  | .sty => write o r.y
  | .tax => set (r.setX r.a)
  | .tay => set (r.setY r.a)
  | .tsx => set (r.setX r.stack)
  | .txa => set (r.setA r.x)
  | .txs => set { r with stack := r.x }
  | .tya => set (r.setA r.y)
  | .inx => set (r.setX (r.x + 1))
  | .iny => set (r.setY (r.y + 1))
  | .dex => set (r.setX (r.x - 1))
  | .dey => set (r.setY (r.y - 1))
  | .bcc => branch o .carry false
  | .bcs => branch o .carry true
  | .bne => branch o .zero false
  | .beq => branch o .zero true
  | .bpl => branch o .negative false
  | .bmi => branch o .negative true
  | .bvc => branch o .overflow false
  | .bvs => branch o .overflow true
  | .clc => set (r.setFlag .carry false)
  | .cld => set (r.setFlag .decimal false)
  | .cli => set (r.setFlag .interrupt false)
  | .clv => set (r.setFlag .overflow false)
  | .sec => set (r.setFlag .carry true)
  | .sed => set (r.setFlag .decimal true)
  | .sei => set (r.setFlag .interrupt true)
  | .nop => pure ()
  | .pha => push r.a
  | .php => push (r.status ||| 0x30)
  | .pla => do
    let v ← pop
    modify fun r => r.setA v
  | .plp => do
    let v ← pop
    modify fun r => { r with status := v }
  | .jmp =>
    match o with
    | .address a => set { r with pc := a }
    | _ => pure ()
  | .jsr =>
    match o with
    | .address a => do
      pushWord (r.pc - 1)
      modify fun r => { r with pc := a }
    | _ => pure ()
  | .rts => do
    let w ← popWord
    modify fun r => { r with pc := w + 1 }
  | .rti => do
    let v ← pop
    let w ← popWord
    modify fun r => { r with status := v, pc := w }
  | .brk => do
    pushWord (r.pc - 1)
    push r.status
    let w ← BusProgram.loadWord 0xFFFE
    modify fun r => { r with pc := w }.setFlag .interrupt true

/-- One instruction.  An opcode without meaning changes nothing and is given back. -/
def instruction (r : Registers) : BusProgram (Except UInt8 Registers) := do
  let opcode ← BusProgram.load r.pc
  match decode opcode with
  | none => pure (.error opcode)
  | some (operation, mode) =>
    let work : Work Unit := do
      execute operation (← operand mode)
    let (_, r) ← work.run { r with pc := r.pc + 1 }
    pure (.ok r)

/-- The processor as part of a machine.  The return address, one below zero, lies on top of the
stack page. -/
def processor : Processor Registers where
  name := "6502"
  powerOn := Registers.powerOn
  pc r := r.pc
  stopOpcode := 0x00
  setAccumulator v r := { r with a := v }
  callStores := [(0x01FF, 0xFF), (0x01FE, 0xFF)]
  call address r := { r with stack := 0xFD, pc := address }
  instruction := instruction

end Chiptune.Mos6502
