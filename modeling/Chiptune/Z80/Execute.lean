import Chiptune.Replay.Machine
import Chiptune.Z80.Decode

/-!
# Executing Z80 instructions

Words are stored low byte first, but pushed high byte first.  Every repetition of a block
instruction is an instruction of its own: the program counter goes back to the prefix.
-/

namespace Chiptune.Z80

/-! ## Access to operands -/

/-- The address that a pointer stands for. -/
def Pointer.address (r : Registers) : Pointer → UInt16
  | .pair p => r.pair p
  | .indexed p displacement =>
    let offset := displacement.toUInt16
    r.pair p + if displacement < 0x80 then offset else offset - 0x100
  | .direct address => address

def read (o : Operand) : Work UInt8 := do
  let r ← get
  match o with
  | .register reg => pure (r.byte reg)
  | .memory p => BusProgram.load (p.address r)
  | .immediate v => pure v

def write (o : Operand) (v : UInt8) : Work Unit := do
  let r ← get
  match o with
  | .register reg => set (r.setByte reg v)
  | .memory p => BusProgram.store (p.address r) v
  | .immediate _ => pure ()

def push (w : UInt16) : Work Unit := do
  let r ← get
  let sp := r.sp - 2
  BusProgram.store (sp + 1) (highByte w)
  BusProgram.store sp (lowByte w)
  set { r with sp }

def pop : Work UInt16 := do
  let r ← get
  let w ← BusProgram.loadWord r.sp
  set { r with sp := r.sp + 2 }
  pure w

/-- Whether a condition holds; no condition always does. -/
def holds (r : Registers) : Option Condition → Bool
  | none => true
  | some c => r.flag c.flag == c.on

/-! ## Arithmetic -/

/-- Whether a byte has an even count of set bits. -/
def evenParity (v : UInt8) : Bool :=
  let v := v ^^^ v >>> 4
  let v := v ^^^ v >>> 2
  let v := v ^^^ v >>> 1
  v &&& 1 == 0

/-- Whether a byte is negative as a signed number. -/
def negative (v : UInt8) : Bool :=
  v &&& 0x80 != 0

/-- Sign and zero of a result, and further flags. -/
def signZero (v : UInt8) (others : FlagChanges) : FlagChanges :=
  (.sign, negative v) :: (.zero, v == 0) :: others

/-- The sum of two bytes and a carry, with all flags. -/
def addBytes (a v : UInt8) (carry : Bool) : UInt8 × FlagChanges :=
  let c := carry.toNat
  let total := a.toNat + v.toNat + c
  let result := total.toUInt8
  (result, signZero result
    [(.half, 16 ≤ (a &&& 15).toNat + (v &&& 15).toNat + c),
      (.parity, negative ((a ^^^ result) &&& (v ^^^ result))),
      (.subtract, false), (.carry, 256 ≤ total)])

/-- The difference of two bytes and a borrow, with all flags. -/
def subBytes (a v : UInt8) (borrow : Bool) : UInt8 × FlagChanges :=
  let c := borrow.toNat
  let result := a - v - c.toUInt8
  (result, signZero result
    [(.half, (a &&& 15).toNat < (v &&& 15).toNat + c),
      (.parity, negative ((a ^^^ v) &&& (a ^^^ result))),
      (.subtract, true), (.carry, a.toNat < v.toNat + c)])

/-- The flags of a bitwise result. -/
def logicFlags (v : UInt8) (half : Bool) : FlagChanges :=
  signZero v [(.half, half), (.parity, evenParity v), (.subtract, false), (.carry, false)]

/-- The accumulator after an operation on it, and the flags. -/
def Arithmetic.apply (op : Arithmetic) (a v : UInt8) (carry : Bool) :
    UInt8 × FlagChanges :=
  match op with
  | .add => addBytes a v false
  | .adc => addBytes a v carry
  | .sub => subBytes a v false
  | .sbc => subBytes a v carry
  | .and => (a &&& v, logicFlags (a &&& v) true)
  | .xor => (a ^^^ v, logicFlags (a ^^^ v) false)
  | .or => (a ||| v, logicFlags (a ||| v) false)
  | .cp => (a, (subBytes a v false).2)

/-- A byte moved by one place, and the bit that fell out. -/
def Rotation.apply (rotation : Rotation) (v : UInt8) (carry : Bool) : UInt8 × Bool :=
  let high := negative v
  let low := v &&& 1 != 0
  let bit (on : Bool) (mask : UInt8) : UInt8 := if on then mask else 0
  match rotation with
  | .rlc => (v <<< 1 ||| bit high 1, high)
  | .rrc => (v >>> 1 ||| bit low 0x80, low)
  | .rl => (v <<< 1 ||| bit carry 1, high)
  | .rr => (v >>> 1 ||| bit carry 0x80, low)
  | .sla => (v <<< 1, high)
  | .sra => (v >>> 1 ||| bit high 0x80, low)
  | .sll => (v <<< 1 ||| 1, high)
  | .srl => (v >>> 1, low)

/-- The sum of two words, with the flags that addition of pairs changes. -/
def addWords (a v : UInt16) (carry : Bool) : UInt16 × FlagChanges :=
  let c := carry.toNat
  let total := a.toNat + v.toNat + c
  (total.toUInt16,
    [(.half, 0x1000 ≤ (a &&& 0xFFF).toNat + (v &&& 0xFFF).toNat + c), (.subtract, false),
      (.carry, 0x10000 ≤ total)])

/-- The difference of two words and a borrow, with the flags that addition of pairs changes. -/
def subWords (a v : UInt16) (borrow : Bool) : UInt16 × FlagChanges :=
  let c := borrow.toNat
  (a - v - c.toUInt16,
    [(.half, (a &&& 0xFFF).toNat < (v &&& 0xFFF).toNat + c), (.subtract, true),
      (.carry, a.toNat < v.toNat + c)])

/-- Sign, zero and overflow of a word. -/
def wordFlags (result overflow : UInt16) : FlagChanges :=
  [(.sign, result &&& 0x8000 != 0), (.zero, result == 0), (.parity, overflow &&& 0x8000 != 0)]

/-- Corrects the accumulator after arithmetic on decimal digits. -/
def adjustDecimal (r : Registers) : Registers :=
  let a := r.byte .a
  let low := a &&& 15
  let fixLow := r.flag .half || 9 < low
  let fixHigh := r.flag .carry || 0x99 < a
  let amount : UInt8 := (if fixLow then 0x06 else 0) + (if fixHigh then 0x60 else 0)
  let minus := r.flag .subtract
  let result := if minus then a - amount else a + amount
  let half := if minus then r.flag .half && low < 6 else 9 < low
  (r.setByte .a result).setFlags
    (signZero result [(.half, half), (.parity, evenParity result), (.carry, fixHigh)])

/-! ## Block instructions -/

/-- The pair moved up or down by one. -/
def stepPair (r : Registers) (reg : Reg16) (up : Bool) : Registers :=
  r.setPair reg (if up then r.pair reg + 1 else r.pair reg - 1)

/-- The flags of block input and output: `k` is the sum of the byte and another register. -/
def portFlags (r : Registers) (value : UInt8) (k : Nat) : FlagChanges :=
  let b := r.byte .b
  signZero b
    [(.half, 255 < k), (.carry, 255 < k), (.parity, evenParity ((k.toUInt8 &&& 7) ^^^ b)),
      (.subtract, negative value)]

/-- One repetition of a block instruction; says whether another may follow. -/
def blockOnce (action : BlockAction) (up : Bool) : Work Bool := do
  let r ← get
  match action with
  | .load =>
    let v ← BusProgram.load r.hl
    BusProgram.store r.de v
    let r := stepPair (stepPair { r with bc := r.bc - 1 } .hl up) .de up
    let more := r.bc != 0
    set (r.setFlags [(.half, false), (.subtract, false), (.parity, more)])
    pure more
  | .compare =>
    let v ← BusProgram.load r.hl
    let a := r.byte .a
    let r := stepPair { r with bc := r.bc - 1 } .hl up
    let more := r.bc != 0
    set (r.setFlags (signZero (a - v)
      [(.half, a &&& 15 < v &&& 15), (.subtract, true), (.parity, more)]))
    pure (more && a != v)
  | .input =>
    let r := r.setByte .b (r.byte .b - 1)
    let v ← BusProgram.input r.bc
    BusProgram.store r.hl v
    let r := stepPair r .hl up
    let c := if up then r.byte .c + 1 else r.byte .c - 1
    set (r.setFlags (portFlags r v (v.toNat + c.toNat)))
    pure (r.byte .b != 0)
  | .output =>
    let v ← BusProgram.load r.hl
    BusProgram.output r.bc v
    let r := stepPair (r.setByte .b (r.byte .b - 1)) .hl up
    set (r.setFlags (portFlags r v (v.toNat + (r.byte .l).toNat)))
    pure (r.byte .b != 0)

/-! ## Instructions -/

/-- Goes to a relative address. -/
def jumpBy (r : Registers) (displacement : UInt8) : Registers :=
  let offset := displacement.toUInt16
  { r with pc := r.pc + if displacement < 0x80 then offset else offset - 0x100 }

/-- The accumulator and a byte of memory after their three lower four-bit digits have gone round to
the left or to the right. -/
def turnDigits (left : Bool) (a v : UInt8) : UInt8 × UInt8 :=
  let kept := a &&& 0xF0
  let digit := a &&& 0x0F
  if left then (kept ||| v >>> 4, digit ||| v <<< 4)
  else (kept ||| v &&& 0x0F, v >>> 4 ||| digit <<< 4)

/-- Turns the digits of the accumulator and the byte in memory. -/
def rotateDigits (left : Bool) : Work Unit := do
  let r ← get
  let (a, v) := turnDigits left (r.byte .a) (← BusProgram.load r.hl)
  BusProgram.store r.hl v
  set ((r.setByte .a a).setFlags
    (signZero a [(.half, false), (.parity, evenParity a), (.subtract, false)]))

def execute (i : Instruction) : Work Unit := do
  let r ← get
  match i with
  | .nop => pure ()
  | .halt => set { r with frozen := true }
  | .load target source => do write target (← read source)
  | .loadPair target value => set (r.setPair target value)
  | .fetchPair target address => do
    set (r.setPair target (← BusProgram.loadWord address))
  | .storePair address source => do
    BusProgram.store address (lowByte (r.pair source))
    BusProgram.store (address + 1) (highByte (r.pair source))
  | .copyToStackPointer source => set { r with sp := r.pair source }
  | .push source => push (r.pair source)
  | .pop target => do
    let w ← pop
    modify (·.setPair target w)
  | .exchangeDeHl => set { r with de := r.hl, hl := r.de }
  | .exchangeAf => set { r with af := r.otherAf, otherAf := r.af }
  | .exchangeAll =>
    set { r with
      bc := r.otherBc, de := r.otherDe, hl := r.otherHl
      otherBc := r.bc, otherDe := r.de, otherHl := r.hl }
  | .exchangeStack pair => do
    let w ← BusProgram.loadWord r.sp
    BusProgram.store r.sp (lowByte (r.pair pair))
    BusProgram.store (r.sp + 1) (highByte (r.pair pair))
    set (r.setPair pair w)
  | .arithmetic op source => do
    let v ← read source
    let (a, flags) := op.apply (r.byte .a) v (r.flag .carry)
    set ((r.setByte .a a).setFlags flags)
  | .increment target => do
    let v ← read target
    write target (v + 1)
    modify (·.setFlags (signZero (v + 1)
      [(.half, v &&& 15 == 15), (.parity, v == 0x7F), (.subtract, false)]))
  | .decrement target => do
    let v ← read target
    write target (v - 1)
    modify (·.setFlags (signZero (v - 1)
      [(.half, v &&& 15 == 0), (.parity, v == 0x80), (.subtract, true)]))
  | .addPair target source =>
    let (w, flags) := addWords (r.pair target) (r.pair source) false
    set ((r.setPair target w).setFlags flags)
  | .addPairCarry source =>
    let v := r.pair source
    let (w, flags) := addWords r.hl v (r.flag .carry)
    let overflow := (r.hl ^^^ w) &&& (v ^^^ w)
    set ({ r with hl := w }.setFlags (flags ++ wordFlags w overflow))
  | .subPairCarry source =>
    let v := r.pair source
    let (w, flags) := subWords r.hl v (r.flag .carry)
    let overflow := (r.hl ^^^ v) &&& (r.hl ^^^ w)
    set ({ r with hl := w }.setFlags (flags ++ wordFlags w overflow))
  | .incrementPair target => set (stepPair r target true)
  | .decrementPair target => set (stepPair r target false)
  | .rotateAccumulator rotation =>
    let (a, carry) := rotation.apply (r.byte .a) (r.flag .carry)
    set ((r.setByte .a a).setFlags [(.half, false), (.subtract, false), (.carry, carry)])
  | .rotate rotation target => do
    let v ← read target
    let (v, carry) := rotation.apply v (r.flag .carry)
    write target v
    modify (·.setFlags (signZero v
      [(.half, false), (.parity, evenParity v), (.subtract, false), (.carry, carry)]))
  | .testBit n source => do
    let v ← read source
    let clear := v &&& 1 <<< n == 0
    set (r.setFlags [(.sign, n == 7 && !clear), (.zero, clear), (.half, true), (.parity, clear),
      (.subtract, false)])
  | .resetBit n target => do write target ((← read target) &&& ~~~(1 <<< n))
  | .setBit n target => do write target ((← read target) ||| 1 <<< n)
  | .adjustDecimal => set (adjustDecimal r)
  | .complement => set ((r.setByte .a (~~~r.byte .a)).setFlags [(.half, true), (.subtract, true)])
  | .negate =>
    let (a, flags) := subBytes 0 (r.byte .a) false
    set ((r.setByte .a a).setFlags flags)
  | .setCarry => set (r.setFlags [(.half, false), (.subtract, false), (.carry, true)])
  | .complementCarry =>
    let carry := r.flag .carry
    set (r.setFlags [(.half, carry), (.subtract, false), (.carry, !carry)])
  | .rotateDigitLeft => rotateDigits true
  | .rotateDigitRight => rotateDigits false
  | .interrupts on => set { r with interruptsOn := on }
  | .jump condition address => if holds r condition then set { r with pc := address } else pure ()
  | .jumpPair source => set { r with pc := r.pair source }
  | .jumpRelative condition displacement =>
    if holds r condition then set (jumpBy r displacement) else pure ()
  | .decrementJump displacement =>
    let r := r.setByte .b (r.byte .b - 1)
    set (if r.byte .b = 0 then r else jumpBy r displacement)
  | .call condition address => do
    if holds r condition then
      push r.pc
      modify ({ · with pc := address })
    else pure ()
  | .ret condition => do
    if holds r condition then
      let w ← pop
      modify ({ · with pc := w })
    else pure ()
  | .restart address => do
    push r.pc
    modify ({ · with pc := address })
  | .input target => do
    let v ← BusProgram.input r.bc
    let r := match target with
      | some reg => r.setByte reg v
      | none => r
    set (r.setFlags (signZero v
      [(.half, false), (.parity, evenParity v), (.subtract, false)]))
  | .inputAccumulator port => do
    let v ← BusProgram.input (Memory.wordOf (r.byte .a) port)
    set (r.setByte .a v)
  | .output source =>
    BusProgram.output r.bc (match source with
      | some reg => r.byte reg
      | none => 0)
  | .outputAccumulator port => BusProgram.output (Memory.wordOf (r.byte .a) port) (r.byte .a)
  | .setInterruptPage => set { r with interruptPage := r.byte .a }
  | .setRefreshCount => set { r with refreshCount := r.byte .a }
  | .readInterruptPage =>
    set ((r.setByte .a r.interruptPage).setFlag .parity r.interruptsOn)
  | .readRefreshCount =>
    set ((r.setByte .a r.refreshCount).setFlag .parity r.interruptsOn)
  | .block action up repeats => do
    let more ← blockOnce action up
    if more && repeats then modify fun r => { r with pc := r.pc - 2 } else pure ()

/-- One instruction, unless the processor is frozen. -/
def instruction : Work Unit := do
  if (← get).frozen then pure ()
  else execute (← decode)

/-- The processor as part of a machine whose stack lies below `stack`. -/
def processor (stack : UInt16) : Processor Registers where
  name := "z80"
  powerOn := Registers.powerOn
  pc r := r.pc
  stopOpcode := 0x76
  setAccumulator v r := r.setByte .a v
  callStores := [(stack - 1, 0), (stack - 2, 0)]
  call address r := { r with sp := stack - 2, pc := address }
  instruction r := do
    let (_, r) ← instruction.run r
    pure (.ok r)

end Chiptune.Z80
