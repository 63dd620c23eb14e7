import Chiptune.Chip.Latch
import Chiptune.Config
import Chiptune.Replay.Source

/-!
# Sampling a song

A song is set up once and then played frame by frame.  All writes of a routine reach the chip when
the routine is over, and a snapshot is taken after every frame.

A song that cannot be set up has no frames.  A frame that exhausts its budget is sampled as it
stands, while a frame that faults is dropped and is the end.
-/

namespace Chiptune

/-! ## Reports

Faults and exhausted budgets end or spoil a single song, never the whole extraction, and are
reported for each song. -/

/-- A fault and the frame that raised it, if the song had been set up. -/
structure FaultRecord where
  frame : Option Nat
  fault : Fault
  deriving DecidableEq

/-- How the extraction of one song went. -/
structure Diagnostics where
  /-- The place of the song in its file. -/
  index : Nat
  /-- How many frames the song has. -/
  framesSampled : Nat
  /-- How setting the song up ended, unless it ended in a fault. -/
  initOutcome : Option Outcome
  /-- How many of the frames had exhausted their budget. -/
  frameTimeouts : Nat
  fault : Option FaultRecord
  /-- How many events the song has. -/
  events : Nat
  /-- How many register writes led to it. -/
  writes : Nat
  deriving DecidableEq

namespace Diagnostics

/-- Whether the song was set up in full. -/
def initCompleted (d : Diagnostics) : Bool :=
  d.initOutcome == some .halted

/-- Whether anything went wrong. -/
def degraded (d : Diagnostics) : Bool :=
  !d.initCompleted || 0 < d.frameTimeouts || d.fault.isSome

end Diagnostics

/-! ## Frames -/

/-- What the frames of a song have led to so far. -/
structure Frames where
  latch : Latch
  /-- A snapshot of every frame. -/
  snapshots : Array Snapshot
  /-- How many frames had exhausted their budget. -/
  timeouts : Nat
  /-- How many writes have been made, those that set the song up included. -/
  writes : Nat

/-- Adds the frame that comes next. -/
def Frames.add (frames : Frames) (run : Run) : Frames :=
  let latch := frames.latch.applyAll run.writes
  { latch
    snapshots := frames.snapshots.push (latch.snapshot frames.snapshots.size)
    timeouts := frames.timeouts + if run.outcome = .timedOut then 1 else 0
    writes := frames.writes + run.writes.length }

/-- The snapshots of a song, and how they came about. -/
structure Sampling where
  /-- The chip before the song was set up. -/
  baseline : Snapshot
  snapshots : List Snapshot
  initOutcome : Option Outcome
  timeouts : Nat
  fault : Option FaultRecord
  writes : Nat

/-- The report on a song with some number of events. -/
def Sampling.diagnostics (s : Sampling) (index events : Nat) : Diagnostics where
  index := index
  framesSampled := s.snapshots.length
  initOutcome := s.initOutcome
  frameTimeouts := s.timeouts
  fault := s.fault
  events := events
  writes := s.writes

namespace Source

variable {σ : Type} (source : Source σ)

/-- Plays `count` more frames, or as many as there are before a fault. -/
def sampleFrames (budget : Nat) : (count : Nat) → Frames → σ → Frames × Option Fault
  | 0, frames, _ => (frames, none)
  | count + 1, frames, s =>
    match source.run budget (source.enter .frame s) with
    | (.ok run, s) => sampleFrames budget count (frames.add run) s
    | (.error fault, _) => (frames, some fault)

/-- Sets a song up and plays its frames. -/
def sample (config : Config) (chip : Chip) (s : σ) : Sampling :=
  let latch := Latch.powerOn chip
  let baseline := latch.snapshot 0
  match source.run config.initBudget.toNat (source.enter .init s) with
  | (.error fault, _) => ⟨baseline, [], none, 0, some ⟨none, fault⟩, 0⟩
  | (.ok ⟨_, _, .timedOut⟩, _) => ⟨baseline, [], some .timedOut, 0, none, 0⟩
  | (.ok ⟨writes, _, .halted⟩, s) =>
    let ready : Frames := ⟨latch.applyAll writes, #[], 0, writes.length⟩
    match source.sampleFrames config.frameBudget.toNat config.frameCount.toNat ready s with
    | (frames, fault) =>
      { baseline
        snapshots := frames.snapshots.toList
        initOutcome := some .halted
        timeouts := frames.timeouts
        fault := fault.map fun fault => ⟨some frames.snapshots.size, fault⟩
        writes := frames.writes }

end Source

end Chiptune
