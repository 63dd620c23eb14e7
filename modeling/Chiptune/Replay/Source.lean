import Chiptune.Chip.Basic
import Chiptune.Memory

/-!
# Replay sources

A source is anything that advances replay code one step at a time and says which chip registers
each step wrote.  It is entered at a routine, stepped until it halts, and entered again.  How a
source works inside is of no concern to its callers; they see a state and four operations on it.
-/

namespace Chiptune

/-! ## Faults

A fault ends the routine that raises it.  Processors and voice scripts have faults of their own;
either may also reach for memory that is not there. -/

/-- Why a routine cannot go on. -/
inductive Fault where
  /-- The processor does not know the instruction. -/
  | illegalOpcode (opcode : UInt8) (pc : UInt16)
  /-- The processor touched memory outside the image. -/
  | processorAddress (fault : AddressFault)
  /-- The program of a voice holds a byte that begins no instruction. -/
  | unknownInstruction (voice : Nat) (opcode : UInt8) (address : Nat)
  /-- The program or the table entry of a voice lies outside the image. -/
  | voiceAddress (voice : Nat) (fault : AddressFault)
  deriving DecidableEq

def Fault.message : Fault → String
  | .illegalOpcode opcode pc =>
    "cpu fault: illegal opcode " ++ Hex.marked 4 opcode.toNat ++ " at " ++ Hex.marked 6 pc.toNat
  | .processorAddress fault => "cpu fault: " ++ fault.message
  | .unknownInstruction voice opcode address =>
    "macro fault: voice " ++ toString voice ++ ": unknown macro opcode " ++
      Hex.marked 4 opcode.toNat ++ " at " ++ Hex.marked 6 address
  | .voiceAddress voice fault => "macro fault: voice " ++ toString voice ++ ": " ++ fault.message

/-! ## Settings and ticks

Within a step a register is set without regard to time; the step as a whole has a tick, which
counts steps since the routine was entered and stays at its largest value once it is there. -/

/-- A register and the value it is set to. -/
structure Setting where
  register : UInt8
  value : UInt8
  deriving DecidableEq

/-- The setting as a write made at a tick. -/
def Setting.write (tick : UInt32) (s : Setting) : Write :=
  ⟨s.register, s.value, tick⟩

def nextTick (tick : UInt32) : UInt32 :=
  if tick = 0xFFFFFFFF then tick else tick + 1

/-! ## Sources -/

/-- The routines of a song: one to set it up, and one for every frame. -/
inductive Routine where
  | init
  | frame
  deriving DecidableEq

/-- How a run within a budget of steps ended. -/
inductive Outcome where
  | halted
  | timedOut
  deriving DecidableEq

/-- What a run within a budget did. -/
structure Run where
  /-- All writes, in order. -/
  writes : List Write
  steps : Nat
  outcome : Outcome
  deriving DecidableEq

/-- The operations of a kind of replay code whose states are `σ`. -/
structure Source (σ : Type) where
  name : String
  /-- Goes to the start of a routine. -/
  enter : Routine → σ → σ
  /-- Takes one step and gives the writes it made. -/
  step : σ → Except Fault (List Write) × σ
  /-- Whether the routine is over. -/
  halted : σ → Bool

namespace Source

variable {σ : Type} (source : Source σ)

/-- Continues a run that has made some writes in some steps, for up to `budget` more steps. -/
def continueRun : (budget : Nat) → (writes : Array Write) → (steps : Nat) → σ → Except Fault Run × σ
  | 0, writes, steps, s =>
    (.ok ⟨writes.toList, steps, if source.halted s then .halted else .timedOut⟩, s)
  | budget + 1, writes, steps, s =>
    if source.halted s then (.ok ⟨writes.toList, steps, .halted⟩, s)
    else
      match source.step s with
      | (.ok more, s) => continueRun budget (writes ++ more) (steps + 1) s
      | (.error fault, s) => (.error fault, s)

/-- Steps until the routine halts, but no more than `budget` times. -/
def run (budget : Nat) (s : σ) : Except Fault Run × σ :=
  source.continueRun budget #[] 0 s

end Source

end Chiptune
