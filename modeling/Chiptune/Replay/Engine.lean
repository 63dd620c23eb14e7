import Chiptune.Mos6502.Execute
import Chiptune.Script.Player
import Chiptune.Z80.Execute

/-!
# Engines

An engine is a kind of replay code together with the way in which it reaches the sound chip.  Put
over a memory image and the entry points of a song, it becomes a replay that can be run.
-/

namespace Chiptune

/-- A kind of replay code. -/
inductive Engine where
  /-- Native code with the chip behind ports, and in a window of the memory if there is one.  The
  stack lies below the given address. -/
  | z80 (ports : PortMap) (stack : UInt16) (window : Option Window)
  /-- Native code with the chip in a window of the memory. -/
  | mos6502 (window : Window)
  /-- Scripts for the voices of the chip. -/
  | script
  deriving DecidableEq

/-- A replay source and its state. -/
structure Replay where
  State : Type
  source : Source State
  state : State

namespace Replay

def name (r : Replay) : String :=
  r.source.name

def halted (r : Replay) : Bool :=
  r.source.halted r.state

def enter (r : Replay) (routine : Routine) : Replay :=
  { r with state := r.source.enter routine r.state }

def step (r : Replay) : Except Fault (List Write) × Replay :=
  let (result, state) := r.source.step r.state
  (result, { r with state })

def run (r : Replay) (budget : Nat) : Except Fault Run × Replay :=
  let (result, state) := r.source.run budget r.state
  (result, { r with state })

end Replay

namespace Engine

/-- The home computer with the `zx128` ports. -/
def spectrum (stack : UInt16) : Engine :=
  .z80 .zx128 stack none

/-- The home computer with a sound interface device at its usual place. -/
def c64 : Engine :=
  .mos6502 .sid

/-- A replay of one song from memory.  For scripts, the first entry point is the address of the
table, and there is a voice for each of the `channels`. -/
def start (engine : Engine) (memory : Memory) (channels : Nat) (entry : Entry) : Replay :=
  match engine with
  | .z80 ports stack window =>
    let processor := Z80.processor stack
    let bus := Bus.powerOn memory window .memory (some ports)
    ⟨_, Machine.source processor, Machine.powerOn processor bus entry⟩
  | .mos6502 window =>
    let processor := Mos6502.processor
    let bus := Bus.powerOn memory (some window) .registers none
    ⟨_, Machine.source processor, Machine.powerOn processor bus entry⟩
  | .script => ⟨_, Script.Player.source, Script.Player.powerOn memory channels entry.init⟩

end Engine

end Chiptune
