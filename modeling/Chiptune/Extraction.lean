import Chiptune.Chip.Family
import Chiptune.Extraction.Sampling
import Chiptune.Memory
import Chiptune.Replay.Engine
import Chiptune.Song

/-!
# Extracting songs

Every song of a job is sampled, turned into events, laid out as rows and cut into patterns.  Only
settings that cannot be used, or a memory image that cannot be built, keep a job from being
extracted; the settings are looked at first.
-/

namespace Chiptune

/-! ## Jobs

A job is all that is known of a music file once its format has been read: what lies where in
memory, which kind of code it is, which chip it plays on, and where its songs begin. -/

/-- A music file, ready to be extracted. -/
structure Job where
  memorySize : UInt64
  /-- What is placed in memory, in order. -/
  blocks : List Block
  engine : Engine
  chip : Chip
  subsongs : List Entry
  /-- How often in a second a frame is played. -/
  frameRate : Float := 50.0
  deriving DecidableEq

namespace Job

def load (job : Job) : Except LoadError Memory :=
  Memory.load job.memorySize.toNat job.blocks

/-- A replay of one song of a job. -/
def start (job : Job) (memory : Memory) (entry : Entry) : Replay :=
  job.engine.start memory job.chip.family.channelCount entry

end Job

/-! ## Extraction -/

/-- Why a job cannot be extracted. -/
inductive ExtractionError where
  | load (e : LoadError)
  | config (e : ConfigError)
  deriving DecidableEq

def ExtractionError.message : ExtractionError → String
  | .load e => "load failed: " ++ e.message
  | .config e => "invalid config: " ++ e.message

/-- The songs of a job and a report on each of them. -/
structure Extraction where
  song : Song
  diagnostics : List Diagnostics

/-- The reports on songs with which something went wrong. -/
def Extraction.degraded (x : Extraction) : List Diagnostics :=
  x.diagnostics.filter Diagnostics.degraded

/-- A job that can be extracted. -/
structure Extractor where
  job : Job
  config : Config
  memory : Memory

namespace Extractor

/-- Looks at the settings and builds the memory image. -/
def prepare (job : Job) (config : Config) : Except ExtractionError Extractor :=
  match config.validate with
  | .error e => .error (.config e)
  | .ok () =>
    match job.load with
    | .error e => .error (.load e)
    | .ok memory => .ok ⟨job, config, memory⟩

def sample (x : Extractor) (entry : Entry) : Sampling :=
  let replay := x.job.start x.memory entry
  replay.source.sample x.config x.job.chip replay.state

/-- Extracts one song, which gets the given place. -/
def extractSubsong (x : Extractor) (index : Nat) (entry : Entry) : Subsong × Diagnostics :=
  let channels := x.job.chip.family.channelCount
  let sampling := x.sample entry
  let events := timeline x.config.tuning sampling.baseline sampling.snapshots
  let rows := rowsOf events sampling.snapshots.length channels
  let (patterns, order) := arrange rows x.config.blockLength.toNat
  (⟨index, channels, patterns, order⟩, sampling.diagnostics index events.length)

def extract (x : Extractor) : Extraction :=
  let results := x.job.subsongs.zipIdx.map fun (entry, index) => x.extractSubsong index entry
  ⟨⟨results.map (·.1)⟩, results.map (·.2)⟩

end Extractor

end Chiptune
