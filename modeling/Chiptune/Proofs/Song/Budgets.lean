import Chiptune.Extraction
import Chiptune.Proofs.Extraction.Frames
import Chiptune.Proofs.Replay.Halting

/-!
# Budgets that were not exhausted

A budget is there to get out of a routine that does not come to its end.  As long
as none has to, it does not matter how large the budgets are: a song whose setting
up and whose frames have all halted or faulted in time is extracted to the same
song, with the same report, under any larger budgets (`extractSubsong_of_budgets`).

Nothing is left of a budget when a run is over, so that the frames after it start
from the same state.  The statement climbs from runs (`Source.run_of_le`,
`Source.run_error_of_le`) to the play of all frames (`Source.play_eq_of_le`) and to
samplings (`Source.sample_eq_of_le`), beyond which budgets are not looked at any
more.
-/

namespace Chiptune

namespace Source

variable {σ : Type} {source : Source σ}

/-- Frames that halt or fault within a budget are the same within a larger one. -/
theorem play_eq_of_le {budget larger : ℕ} (hle : budget ≤ larger) {count : ℕ} {s : σ}
    (hdone : ∀ run ∈ (source.play budget count s).1, run.outcome = .halted) :
    source.play larger count s = source.play budget count s := by
  induction count generalizing s with
  | zero => rfl
  | succ count ih =>
      unfold play at hdone ⊢
      rcases hrun : source.run budget (source.enter .frame s) with ⟨fault | run, next⟩
      · rw [run_error_of_le hle hrun]
      · rw [hrun] at hdone
        obtain ⟨hfirst, hothers⟩ := List.forall_mem_cons.mp hdone
        rw [run_of_le hle hrun hfirst]
        simp only [ih hothers]

/-- A sampling in which no budget has been exhausted is the same within larger ones. -/
theorem sample_eq_of_le {config larger : Config} {chip : Chip} {s : σ}
    (hinit : config.initBudget ≤ larger.initBudget)
    (hframe : config.frameBudget ≤ larger.frameBudget)
    (hcount : larger.frameCount = config.frameCount)
    (houtcome : (source.sample config chip s).initOutcome ≠ some .timedOut)
    (htimeouts : (source.sample config chip s).timeouts = 0) :
    source.sample larger chip s = source.sample config chip s := by
  have hinit' : config.initBudget.toNat ≤ larger.initBudget.toNat := UInt64.le_iff_toNat_le.mp hinit
  have hframe' : config.frameBudget.toNat ≤ larger.frameBudget.toNat :=
    UInt64.le_iff_toNat_le.mp hframe
  rcases hrun : source.run config.initBudget.toNat (source.enter .init s) with
    ⟨fault | ⟨writes, steps, outcome⟩, next⟩
  · rw [sample_of_fault hrun, sample_of_fault (run_error_of_le hinit' hrun)]
  · cases outcome with
    | timedOut =>
        rw [sample_of_timedOut hrun] at houtcome
        exact absurd rfl houtcome
    | halted =>
        rw [sample_of_halted hrun, Sampling.timeouts_ofRuns_eq_zero_iff] at htimeouts
        rw [sample_of_halted hrun, sample_of_halted (run_of_le hinit' hrun rfl), hcount,
          play_eq_of_le hframe' htimeouts]

end Source

namespace Extractor

/-- Budgets that have sufficed for a song may as well be larger: if setting it up has
not exhausted its budget, nor has any of its frames, the song and the report on it
are the same.  Faults may have occurred. -/
theorem extractSubsong_of_budgets (x : Extractor) {init frame : UInt64}
    (hinit : x.config.initBudget ≤ init) (hframe : x.config.frameBudget ≤ frame)
    (index : ℕ) (entry : Entry)
    (houtcome : (x.extractSubsong index entry).2.initOutcome ≠ some .timedOut)
    (htimeouts : (x.extractSubsong index entry).2.frameTimeouts = 0) :
    let config := { x.config with initBudget := init, frameBudget := frame }
    extractSubsong { x with config } index entry = x.extractSubsong index entry := by
  intro config
  have hsample : sample { x with config } entry = x.sample entry :=
    Source.sample_eq_of_le hinit hframe rfl houtcome htimeouts
  unfold extractSubsong
  rw [hsample]

/-- The frame routine at `3` sends a byte to a volume register and moves on to the next
one, in ten instructions.  The bytes at `28` are the last of the image. -/
def volumesImage : List UInt8 :=
  [28, 0, 0xC9,
    0x2A, 0, 0, 0x7E, 0x01, 0xFD, 0xFF, 0x1E, 8, 0xED, 0x59, 0x06, 0xBF, 0xED, 0x79,
    0x23, 0x22, 0, 0, 0xC9, 0, 0, 0, 0, 0, 15, 5]

/-- A job of this song, with no step to spare. -/
def volumes : Extractor where
  job := ⟨30, [.whole 0 volumesImage], .spectrum 26, .standard .psg, [⟨2, 3, 0⟩], 50.0⟩
  config := { frameCount := 4, blockLength := 2, initBudget := 1, frameBudget := 10 }
  memory := ⟨⟨volumesImage.toArray⟩⟩

/-- Two frames take up their budget to the last step, and the third one faults. -/
theorem extractSubsong_of_budgets_volumes :
    let report := (volumes.extractSubsong 0 ⟨2, 3, 0⟩).2
    let config := { volumes.config with initBudget := 1000000, frameBudget := 250000 }
    volumes.job.load = .ok volumes.memory ∧
      report.initOutcome = some .halted ∧ report.framesSampled = 2 ∧ report.frameTimeouts = 0 ∧
      report.fault = some ⟨some 2, .processorAddress ⟨30⟩⟩ ∧
      extractSubsong { volumes with config } 0 ⟨2, 3, 0⟩ =
        volumes.extractSubsong 0 ⟨2, 3, 0⟩ := by
  intro report config
  have hload : volumes.job.load = .ok volumes.memory := by decide +kernel
  have hreport : report.initOutcome = some .halted ∧ report.framesSampled = 2 ∧
      report.frameTimeouts = 0 ∧ report.fault = some ⟨some 2, .processorAddress ⟨30⟩⟩ := by
    decide +kernel
  obtain ⟨houtcome, hframes, htimeouts, hfault⟩ := hreport
  have houtcome' : report.initOutcome ≠ some .timedOut := by
    rw [houtcome]
    decide
  exact ⟨hload, houtcome, hframes, htimeouts, hfault,
    extractSubsong_of_budgets volumes (by decide) (by decide) 0 ⟨2, 3, 0⟩ houtcome' htimeouts⟩

end Extractor

end Chiptune
