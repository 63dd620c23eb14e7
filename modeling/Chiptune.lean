import Chiptune.Extraction
import Chiptune.Format.Config
import Chiptune.Format.Job
import Chiptune.Format.Song
import Chiptune.Proofs.Chip.Footprints
import Chiptune.Proofs.Chip.LastWrites
import Chiptune.Proofs.Event.PitchChanges
import Chiptune.Proofs.Event.Voicing
import Chiptune.Proofs.Format.Config
import Chiptune.Proofs.Format.Job
import Chiptune.Proofs.Memory.Loading
import Chiptune.Proofs.Memory.Operations
import Chiptune.Proofs.Pattern.Distinct
import Chiptune.Proofs.Pattern.Interning
import Chiptune.Proofs.Pattern.Matrix
import Chiptune.Proofs.Replay.Faults
import Chiptune.Proofs.Replay.Overlay
import Chiptune.Proofs.Replay.PortMaps
import Chiptune.Proofs.Replay.Reach
import Chiptune.Proofs.Replay.Reports
import Chiptune.Proofs.Replay.Splitting
import Chiptune.Proofs.Replay.Ticks
import Chiptune.Proofs.Script.Bounds
import Chiptune.Proofs.Script.Endless
import Chiptune.Proofs.Script.Faults
import Chiptune.Proofs.Script.Meaning
import Chiptune.Proofs.Script.Product
import Chiptune.Proofs.Script.Ramps
import Chiptune.Proofs.Script.Schedules
import Chiptune.Proofs.Song.Budgets
import Chiptune.Proofs.Song.Isolation
import Chiptune.Proofs.Song.Length
import Chiptune.Proofs.Song.Registers
import Chiptune.Proofs.Song.Report
