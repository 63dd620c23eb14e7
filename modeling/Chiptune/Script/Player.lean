import Chiptune.Chip.Family
import Chiptune.Replay.Source
import Chiptune.Script.Instruction

/-!
# Playing scripts

Every voice follows a script of its own, and a player gives the voices their turn.
-/

namespace Chiptune

/-! ## Voices

Once a frame a voice becomes due.  It is then advanced, by one instruction or one stage of a ramp or
a wait at a time, until something takes up the frame: a wait, a stage of a ramp, or the end of the
script.

A ramp over `n` frames has the values `first + (last - first) * i / (n - 1)`, rounded towards
`first`, for `i` from zero to `n - 1`.  Over one frame it only has its last value, and over none it
sets that value without taking up the frame. -/

namespace Script

/-- What a ramp changes. -/
inductive RampTarget where
  | volume
  | period
  deriving DecidableEq

/-- The settings that bring a target to a value; a value beyond its range is brought into it. -/
def RampTarget.settings (target : RampTarget) (channel : Nat) (value : Int) : List Setting :=
  match target with
  | .volume => [⟨Paula.register channel .volume, (min value.toNat 0xFF).toUInt8⟩]
  | .period =>
    let value := min value.toNat 0xFFFF
    [⟨Paula.register channel .periodHigh, (value / 256).toUInt8⟩,
      ⟨Paula.register channel .periodLow, (value % 256).toUInt8⟩]

/-- A ramp and how many of its frames are behind it. -/
structure Ramp where
  target : RampTarget
  first : Nat
  last : Nat
  frames : Nat
  position : Nat
  deriving DecidableEq

/-- The value of the frame that comes next. -/
def Ramp.value (ramp : Ramp) : Int :=
  if ramp.frames ≤ 1 then ramp.last
  else
    let span : Int := ramp.frames - 1
    ramp.first + (((ramp.last : Int) - ramp.first) * ramp.position).tdiv span

/-- What a voice does when it is due. -/
inductive Activity where
  | stopped
  /-- Reads its next instruction. -/
  | ready
  /-- Waits for some more frames. -/
  | waiting (remaining : Nat)
  | ramping (ramp : Ramp)
  deriving DecidableEq

/-- A voice, which reads its script at `pc`. -/
structure Voice where
  pc : Nat
  activity : Activity
  /-- Nothing has taken up the frame so far. -/
  due : Bool
  deriving DecidableEq

namespace Voice

/-- A voice without a script. -/
def idle : Voice :=
  ⟨0, .stopped, false⟩

/-- A voice at the start of its script. -/
def atStart (pc : UInt16) : Voice :=
  ⟨pc.toNat, .ready, false⟩

/-- Whether there is more to come. -/
def running (v : Voice) : Bool :=
  v.activity != .stopped

/-- A new frame begins. -/
def beginFrame (v : Voice) : Voice :=
  { v with due := v.running }

/-- The frame is taken up, and another activity is next. -/
def takeFrame (v : Voice) (activity : Activity) : Voice :=
  { v with activity, due := false }

/-- The next stage of a ramp. -/
def continueRamp (channel : Nat) (ramp : Ramp) (v : Voice) : List Setting × Voice :=
  let position := ramp.position + 1
  let activity := if ramp.frames ≤ position then .ready else .ramping { ramp with position }
  (ramp.target.settings channel ramp.value, v.takeFrame activity)

/-- The start of a ramp. -/
def startRamp (channel : Nat) (ramp : Ramp) (v : Voice) : List Setting × Voice :=
  if ramp.frames = 0 then (ramp.target.settings channel ramp.last, v)
  else v.continueRamp channel ramp

/-- Executes an instruction that has been read. -/
def execute (channel : Nat) (instruction : Instruction) (v : Voice) : List Setting × Voice :=
  match instruction with
  | .stop => ([], v.takeFrame .stopped)
  | .wave slot => ([⟨Paula.register channel .slot, slot⟩], v)
  | .period value => (RampTarget.period.settings channel value.toNat, v)
  | .volume value => ([⟨Paula.register channel .volume, value⟩], v)
  | .volumeRamp first last frames =>
    v.startRamp channel ⟨.volume, first.toNat, last.toNat, frames.toNat, 0⟩
  | .periodRamp first last frames =>
    v.startRamp channel ⟨.period, first.toNat, last.toNat, frames.toNat, 0⟩
  | .wait frames =>
    match frames.toNat with
    | 0 => ([], v)
    | 1 => ([], v.takeFrame .ready)
    | frames => ([], v.takeFrame (.waiting (frames - 1)))
  | .jump target => ([], { v with pc := target.toNat })

/-- The fault of a voice that cannot read its script. -/
def faultOf (channel : Nat) : Unreadable → Fault
  | .unknown opcode address => .unknownInstruction channel opcode address
  | .outside fault => .voiceAddress channel fault

/-- Reads an instruction and executes it. -/
def readOn (memory : Memory) (channel : Nat) (v : Voice) : Except Fault (List Setting) × Voice :=
  match (Instruction.read memory).run.run v.pc with
  | (.error e, pc) => (.error (faultOf channel e), { v with pc })
  | (.ok instruction, pc) =>
    let (settings, v) := execute channel instruction { v with pc }
    (.ok settings, v)

/-- Advances a voice, if it is due. -/
def advance (memory : Memory) (channel : Nat) (v : Voice) : Except Fault (List Setting) × Voice :=
  if v.due then
    match v.activity with
    | .stopped => (.ok [], { v with due := false })
    | .waiting remaining =>
      (.ok [], v.takeFrame (if 1 < remaining then .waiting (remaining - 1) else .ready))
    | .ramping ramp =>
      let (settings, v) := v.continueRamp channel ramp
      (.ok settings, v)
    | .ready => v.readOn memory channel
  else (.ok [], v)

end Voice

/-! ## Players

A table in memory has a word for every channel, low byte first: the address of its script, or
`FFFF` for a channel that is not used.  To set up a song is to read the table; to play a frame is to
advance all voices that are due, by one instruction each in a step, until none is.

Within a step the voices have their turn in the order of their channels.  A fault ends the step:
voices before it have had their turn, voices after it have not, and no write of the step is seen. -/

/-- The table entry of a channel that is not used. -/
def unusedEntry : UInt16 := 0xFFFF

/-- All voices, with the memory that holds their scripts. -/
structure Player where
  memory : Memory
  table : UInt16
  voices : List Voice
  /-- The table is about to be read. -/
  loading : Bool
  tick : UInt32

/-- What a voice does in its turn. -/
abbrev Turn := (channel : Nat) → Voice → Except Fault (List Setting) × Voice

/-- Gives voices their turn, one after the other, from a channel on. -/
def inTurn (turn : Turn) (channel : Nat) : List Voice → Except Fault (List Setting) × List Voice
  | [] => (.ok [], [])
  | v :: rest =>
    match turn channel v with
    | (.error fault, v) => (.error fault, v :: rest)
    | (.ok settings, v) =>
      match inTurn turn (channel + 1) rest with
      | (.error fault, rest) => (.error fault, v :: rest)
      | (.ok more, rest) => (.ok (settings ++ more), v :: rest)

/-- Reads the table entry of a voice. -/
def Voice.load (memory : Memory) (table : UInt16) : Turn := fun channel v =>
  match memory.readWord (table.toNat + 2 * channel) with
  | .error fault => (.error (.voiceAddress channel fault), v)
  | .ok entry => (.ok [], if entry = unusedEntry then idle else atStart entry)

namespace Player

/-- A player of `channels` voices, none of which has a script yet. -/
def powerOn (memory : Memory) (channels : Nat) (table : UInt16) : Player :=
  ⟨memory, table, List.replicate channels .idle, false, 0⟩

/-- How many voices have not stopped. -/
def runningVoices (p : Player) : Nat :=
  p.voices.countP Voice.running

def enter (routine : Routine) (p : Player) : Player :=
  match routine with
  | .init => { p with loading := true, tick := 0 }
  | .frame => { p with loading := false, tick := 0, voices := p.voices.map Voice.beginFrame }

/-- Gives every voice its turn. -/
def step (p : Player) : Except Fault (List Write) × Player :=
  let turn := if p.loading then Voice.load p.memory p.table else Voice.advance p.memory
  let (result, voices) := inTurn turn 0 p.voices
  (result.map (·.map (Setting.write p.tick)),
    { p with voices, loading := false, tick := nextTick p.tick })

def halted (p : Player) : Bool :=
  !p.loading && p.voices.all fun v => !v.due

def source : Source Player where
  name := "macro"
  enter := enter
  step := step
  halted := halted

end Player

end Script

end Chiptune
