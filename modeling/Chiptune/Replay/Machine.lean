import Chiptune.Replay.Bus
import Chiptune.Replay.Source

/-!
# Machines that run native replay code

A machine is a processor on a bus.  A routine is called like a subroutine whose return address is
zero: it is over when the processor comes back there, or when it is about to execute the
instruction that stops it.  That instruction is looked for in memory, beneath the chip window.

Whatever an instruction does to memory and registers stays done when it faults; only its settings
of chip registers are lost.
-/

namespace Chiptune

/-- Entry points of a song. -/
structure Entry where
  init : UInt16
  frame : UInt16
  /-- The value in the accumulator when the song is set up. -/
  selector : UInt8
  deriving DecidableEq

/-- Songs that share their entry points and are told apart by consecutive selectors. -/
def Entry.range (init frame : UInt16) (count : Nat) (first : UInt8) : List Entry :=
  (List.range count).map fun i => ⟨init, frame, first + i.toUInt8⟩

/-- What a processor with registers `ρ` does, as far as a machine has to know. -/
structure Processor (ρ : Type) where
  name : String
  powerOn : ρ
  /-- The address of the next instruction. -/
  pc : ρ → UInt16
  /-- The instruction that ends a routine. -/
  stopOpcode : UInt8
  setAccumulator : UInt8 → ρ → ρ
  /-- The stores that put the return address on the stack, in order. -/
  callStores : List (UInt16 × UInt8)
  /-- The registers after these stores and a jump to the given address. -/
  call : UInt16 → ρ → ρ
  /-- One instruction; an opcode that stands for none is given back. -/
  instruction : ρ → BusProgram (Except UInt8 ρ)

/-- A processor on its bus. -/
structure Machine (ρ : Type) where
  registers : ρ
  bus : Bus
  entry : Entry
  tick : UInt32
  halted : Bool

namespace Machine

variable {ρ : Type} (processor : Processor ρ)

/-- A machine that has just been switched on and is in no routine. -/
def powerOn (bus : Bus) (entry : Entry) : Machine ρ :=
  ⟨processor.powerOn, bus, entry, 0, true⟩

/-- Whether the routine is over when the processor stands at `pc`. -/
def atEnd (memory : Memory) (pc : UInt16) : Bool :=
  pc == 0 || memory.get? pc.toNat == some processor.stopOpcode

/-- Looks again whether the routine is over. -/
def refresh (m : Machine ρ) : Machine ρ :=
  let halted := atEnd processor m.bus.memory (processor.pc m.registers)
  { m with halted }

/-- Calls a routine.  What is left over from the one before is dropped first. -/
def enter (routine : Routine) (m : Machine ρ) : Machine ρ :=
  let bus := { m.bus with pending := #[], fault := none }
  let (registers, address) := match routine with
    | .init => (processor.setAccumulator m.entry.selector m.registers, m.entry.init)
    | .frame => (m.registers, m.entry.frame)
  refresh processor
    { m with
      registers := processor.call address registers
      bus := processor.callStores.foldl (fun bus (a, v) => bus.store a v) bus
      tick := 0 }

/-- Executes one instruction. -/
def step (m : Machine ρ) : Except Fault (List Write) × Machine ρ :=
  if m.halted then (.ok [], m)
  else
    match m with
    | ⟨registers, bus, entry, tick, _⟩ =>
      match bus.run (processor.instruction registers) with
      | (.error opcode, bus) =>
        let fault := match bus.fault with
          | some fault => .processorAddress fault
          | none => .illegalOpcode opcode (processor.pc registers)
        (.error fault, ⟨registers, { bus with fault := none }, entry, tick, true⟩)
      | (.ok registers, bus) =>
        match bus.fault with
        | some fault =>
          (.error (.processorAddress fault),
            ⟨registers, { bus with fault := none }, entry, tick, true⟩)
        | none =>
          let writes := bus.pending.toList.map (Setting.write tick)
          let bus := { bus with pending := #[] }
          (.ok writes, refresh processor ⟨registers, bus, entry, nextTick tick, false⟩)

def source : Source (Machine ρ) where
  name := processor.name
  enter := enter processor
  step := step processor
  halted m := m.halted

end Machine

end Chiptune
