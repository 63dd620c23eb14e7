import Chiptune.Memory
import Chiptune.Replay.Wiring

/-!
# The bus between a processor and its memory

A processor sees memory and ports only through single accesses.  What it does in an instruction is
a `BusProgram`: an access, and what to do next for every byte that may come back.  The bus answers
accesses one by one; it lays the chip window over the memory, decodes the ports, remembers the
settings of chip registers until they are collected, and keeps the first access that fell outside
the memory image.
-/

namespace Chiptune

/-- One access of a processor. -/
inductive Access where
  | load (address : UInt16)
  | store (address : UInt16) (value : UInt8)
  | input (port : UInt16)
  | output (port : UInt16) (value : UInt8)
  deriving DecidableEq

/-- A sequence of accesses, each of which may depend on the bytes that earlier ones gave, with a
result.  A store or an output gives a byte too, which means nothing. -/
inductive BusProgram (α : Type) where
  | done (result : α)
  | access (request : Access) (next : UInt8 → BusProgram α)

namespace BusProgram

variable {α β : Type}

/-- Goes on with `f` where the program ends. -/
def bind (f : α → BusProgram β) : BusProgram α → BusProgram β
  | .done result => f result
  | .access request next => .access request fun byte => (next byte).bind f

instance : Monad BusProgram where
  pure := .done
  bind program f := program.bind f

def load (address : UInt16) : BusProgram UInt8 :=
  .access (.load address) .done

def store (address : UInt16) (value : UInt8) : BusProgram Unit :=
  .access (.store address value) fun _ => .done ()

def input (port : UInt16) : BusProgram UInt8 :=
  .access (.input port) .done

def output (port : UInt16) (value : UInt8) : BusProgram Unit :=
  .access (.output port value) fun _ => .done ()

/-- The word at an address, its low byte being loaded first. -/
def loadWord (address : UInt16) : BusProgram UInt16 := do
  let low ← load address
  let high ← load (address + 1)
  pure (Memory.wordOf high low)

end BusProgram

/-- What a load from the chip window gives. -/
inductive WindowLoads where
  /-- The value last stored there. -/
  | registers
  /-- The memory beneath. -/
  | memory
  deriving DecidableEq

/-- Memory, chip window and ports of a machine. -/
structure Bus where
  memory : Memory
  window : Option Window
  windowLoads : WindowLoads
  /-- The values last stored in the window. -/
  stored : Vector UInt8 maxRegisters
  ports : Option Ports
  /-- Settings of chip registers that have not been collected. -/
  pending : Array Setting
  /-- The first access outside the memory image that has not been reported. -/
  fault : Option AddressFault

namespace Bus

/-- A bus on which nothing has happened. -/
def powerOn (memory : Memory) (window : Option Window) (loads : WindowLoads)
    (ports : Option PortMap) : Bus :=
  ⟨memory, window, loads, Vector.replicate maxRegisters 0, ports.map Ports.powerOn, #[], none⟩

/-- The register of the chip window at an address. -/
def register? (bus : Bus) (address : UInt16) : Option UInt8 :=
  bus.window.bind (·.register? address)

/-- Keeps an access outside the image unless an earlier one is kept. -/
def recordFault (bus : Bus) (address : UInt16) : Bus :=
  { bus with fault := bus.fault.or (some ⟨address.toNat⟩) }

/-- What lines that nothing drives read as. -/
def openLines : UInt8 := 0xFF

/-- The byte of memory at an address. -/
def loadMemory (bus : Bus) (address : UInt16) : UInt8 × Bus :=
  match bus.memory.get? address.toNat with
  | some value => (value, bus)
  | none => (openLines, bus.recordFault address)

def load (bus : Bus) (address : UInt16) : UInt8 × Bus :=
  match bus.windowLoads, bus.register? address with
  | .registers, some register => (bus.stored.toArray.getD register.toNat 0, bus)
  | _, _ => bus.loadMemory address

/-- Stores a byte: in the chip window it sets a register, elsewhere it goes to memory. -/
def store (bus : Bus) (address : UInt16) (value : UInt8) : Bus :=
  match bus.register? address with
  | some register =>
    { bus with
      stored := bus.stored.setIfInBounds register.toNat value
      pending := bus.pending.push ⟨register, value⟩ }
  | none =>
    if address.toNat < bus.memory.size then
      { bus with memory := bus.memory.put address.toNat value }
    else bus.recordFault address

def output (bus : Bus) (port : UInt16) (value : UInt8) : Bus :=
  match bus.ports with
  | none => bus
  | some ports =>
    match ports.output port value with
    | (ports, some setting) => { bus with ports := some ports, pending := bus.pending.push setting }
    | (ports, none) => { bus with ports := some ports }

/-- Answers one access. -/
def respond (bus : Bus) : Access → UInt8 × Bus
  | .load address => bus.load address
  | .store address value => (openLines, bus.store address value)
  | .input _ => (openLines, bus)
  | .output port value => (openLines, bus.output port value)

/-- Answers the accesses of a program one after the other. -/
def run {α : Type} : Bus → BusProgram α → α × Bus
  | bus, .done result => (result, bus)
  | bus, .access request next =>
    match bus.respond request with
    | (byte, bus) => run bus (next byte)

end Bus

end Chiptune
