import Chiptune.Extraction
import Chiptune.Proofs.Extraction.Requests
import Chiptune.Proofs.Memory.Loading
import Chiptune.Proofs.Replay.Collected
import Chiptune.Proofs.Replay.Transcripts

/-!
# The registers of sampled frames

When the chip lies in a window of the memory, code can load its registers back, and what it
loads does not come from the chip: the bus answers with a copy of its own.  Still the code
and the song see the same.  Every snapshot has in each register of the chip what the bus
has there at the end of the frame, which is what was last stored at the address of the
register, or zero if nothing was (`Extractor.registers_of_snapshot`).

The window must not cover the two bytes of the stack that a call stores.  There a call sets
registers, and if the routine is over at once there is no step to report it.

What the processor does in between does not matter.  The agreement holds of a machine with
any processor whose calls store outside the window (`Machine.read_snapshot`), and the songs
of jobs are a case of it.
-/

namespace Chiptune

namespace Machine

variable {ρ : Type} {processor : Processor ρ}

/-- Nothing has been set when machine and chip are switched on. -/
theorem inStep_powerOn (chip : Chip) (memory : Memory) {window : Window}
    (hcalls : ∀ store ∈ processor.callStores, ¬ window.Covers store.1.toNat) :
    InStep processor (.powerOn chip) (.powerOn memory (some window) .registers none) where
  mirrors register _ := by
    rw [Bus.held_powerOn]
    exact Bank.read_ofCount _ register
  pending := rfl
  ports := rfl
  calls access haccess := by
    obtain ⟨⟨address, value⟩, hstore, rfl⟩ := List.mem_map.mp haccess
    have hnone : (Bus.powerOn memory (some window) .registers none).register? address = none := by
      refine Bus.register?_eq_none fun w hw => ?_
      obtain rfl : window = w := Option.some.inj hw
      exact hcalls _ hstore
    unfold Bus.setting?
    dsimp only
    rw [hnone, Option.map_none]

/-- A frame is sampled when the machine has nothing left that the chip has not got. -/
theorem exists_inStep_of_snapshot {m : Machine ρ} {config : Config} {chip : Chip} {k : ℕ}
    {snapshot : Snapshot} (hstart : InStep processor (.powerOn chip) m.bus)
    (h : ((source processor).sample config chip m).snapshots[k]? = some snapshot) :
    ∃ writes, snapshot = ((Latch.powerOn chip).applyAll writes).snapshot k ∧
      InStep processor ((Latch.powerOn chip).applyAll writes)
        ((source processor).after (config.requests (k + 1)) m).bus := by
  obtain ⟨writes, hcollect, hsnapshot⟩ := Source.exists_collect_of_snapshot h
  exact ⟨writes, hsnapshot, hstart.collect hcollect⟩

/-- Whatever processor runs the code, and whether the frames before halted or not, a
snapshot has the registers that the bus has by then.  A load from the address of such a
register gives the value that is sampled, and it is the one that was stored there last.  A
register to which nothing was stored is zero. -/
theorem read_snapshot {m : Machine ρ} {memory : Memory} {window : Window}
    (hbus : m.bus = .powerOn memory (some window) .registers none)
    (hcalls : ∀ store ∈ processor.callStores, ¬ window.Covers store.1.toNat)
    {config : Config} {chip : Chip} {k : ℕ} {snapshot : Snapshot}
    (h : ((source processor).sample config chip m).snapshots[k]? = some snapshot)
    {register : UInt8} (hregister : register.toNat < chip.family.registerCount) :
    let last := (source processor).after (config.requests (k + 1)) m
    let made := transcript processor (config.requests (k + 1)) m
    snapshot.bank.read register = last.bus.held register ∧
    (∀ address : UInt16, address.toNat = window.base.toNat + register.toNat →
      register.toNat < window.length.toNat →
      (last.bus.load address).1 = snapshot.bank.read register ∧
        snapshot.bank.read register = (lastStored address.toNat made).getD 0) ∧
    ((∀ address value, .store address value ∈ made →
        window.register? address ≠ some register) →
      snapshot.bank.read register = 0) := by
  intro last made
  obtain ⟨writes, hsnapshot, hinstep⟩ :=
    exists_inStep_of_snapshot (hbus ▸ inStep_powerOn chip memory hcalls) h
  have hroom : register.toNat < maxRegisters :=
    Nat.lt_of_lt_of_le hregister (Family.registerCount_le _)
  have hread : snapshot.bank.read register = last.bus.held register := by
    rw [hsnapshot]
    refine hinstep.mirrors register ?_
    rw [Latch.visible_applyAll]
    exact Nat.lt_min.mpr ⟨hregister, hroom⟩
  have hrecalls : m.bus.Recalls made last.bus := recalls_transcript ..
  rw [hbus] at hrecalls
  have hstart := Bus.held_powerOn memory (some window) .registers none register
  refine ⟨hread, fun address haddress hlength => ?_, fun hnone => ?_⟩
  · have hat : (Bus.powerOn memory (some window) .registers none).register? address =
        some register := Window.register?_of_toNat_eq haddress hlength hroom
    have hat' : last.bus.register? address = some register := by
      rw [hrecalls.layout.register?_eq, hat]
    refine ⟨?_, ?_⟩
    · rw [Bus.load_window hrecalls.layout.windowLoads hat', hread]
    · rw [hread, hrecalls.held_eq hat, hstart]
  · rw [hread, hrecalls.held_of_forall_store hnone, hstart]

end Machine

namespace Extractor

/-- The machine that plays a song of a job whose chip is in a window of the memory. -/
def machine (x : Extractor) (window : Window) (entry : Entry) : Machine Mos6502.Registers :=
  .powerOn Mos6502.processor (.powerOn x.memory (some window) .registers none) entry

/-- The machine at the end of a frame. -/
def machineAfter (x : Extractor) (window : Window) (entry : Entry) (frame : ℕ) :
    Machine Mos6502.Registers :=
  (Machine.source Mos6502.processor).after (x.config.requests (frame + 1)) (x.machine window entry)

/-- All accesses that the machine has made by the end of a frame. -/
def accessesUpTo (x : Extractor) (window : Window) (entry : Entry) (frame : ℕ) : List Access :=
  Machine.transcript Mos6502.processor (x.config.requests (frame + 1)) (x.machine window entry)

variable {x : Extractor}

theorem sample_of_mos6502 {window : Window} (hengine : x.job.engine = .mos6502 window)
    (entry : Entry) :
    x.sample entry = (Machine.source Mos6502.processor).sample x.config x.job.chip
      (x.machine window entry) := by
  unfold sample Job.start
  rw [hengine]
  rfl

/-- Whatever the code does, and whether the frames before halted or not, a snapshot has the
registers that the bus has by then.  Code that loads such a register back gets the value
that is sampled, and it is the one that was stored there last.  A register to which
nothing was stored is zero. -/
theorem registers_of_snapshot {window : Window} (hengine : x.job.engine = .mos6502 window)
    (hhigh : ¬ window.Covers 0x01FF) (hlow : ¬ window.Covers 0x01FE) {entry : Entry} {k : ℕ}
    {snapshot : Snapshot} (h : (x.sample entry).snapshots[k]? = some snapshot)
    {register : UInt8} (hregister : register.toNat < x.job.chip.family.registerCount) :
    snapshot.bank.read register = (x.machineAfter window entry k).bus.held register ∧
    (∀ address : UInt16, address.toNat = window.base.toNat + register.toNat →
      register.toNat < window.length.toNat →
      ((x.machineAfter window entry k).bus.load address).1 = snapshot.bank.read register ∧
        snapshot.bank.read register =
          (lastStored address.toNat (x.accessesUpTo window entry k)).getD 0) ∧
    ((∀ address value, .store address value ∈ x.accessesUpTo window entry k →
        window.register? address ≠ some register) →
      snapshot.bank.read register = 0) := by
  have hcalls : ∀ store ∈ Mos6502.processor.callStores, ¬ window.Covers store.1.toNat := by
    intro store hstore
    rcases List.mem_pair.mp hstore with rfl | rfl
    · exact hhigh
    · exact hlow
  rw [sample_of_mos6502 hengine] at h
  exact Machine.read_snapshot rfl hcalls h hregister

/-- Code that sets the volume, and in every frame counts in the first register of the chip.
It loads the count back, and as long as this is odd it waits. -/
def counterCode : List UInt8 :=
  [0xA9, 0x0F, 0x8D, 0x18, 0xD4, 0x60,
    0xEE, 0x00, 0xD4, 0xAD, 0x00, 0xD4, 0x29, 0x01, 0xD0, 0xFE, 0x60]

/-- A job of this code. -/
def counter : Extractor where
  job := ⟨512, [.whole 16 counterCode], .c64, .standard .sid, [⟨16, 22, 0⟩], 50.0⟩
  config := { frameCount := 2, blockLength := 2, initBudget := 3, frameBudget := 5 }
  memory := Memory.putAll ⟨⟨Array.replicate 512 0⟩⟩ 16 counterCode

/-- The first frame waits until its steps are over, and the second one does not wait. -/
theorem registers_of_snapshot_counter :
    prepare counter.job counter.config = .ok counter ∧
      (counter.sample ⟨16, 22, 0⟩).timeouts = 1 ∧
      ∃ snapshot, (counter.sample ⟨16, 22, 0⟩).snapshots[1]? = some snapshot ∧
        snapshot.bank.read 0 = 2 ∧
        ((counter.machineAfter .sid ⟨16, 22, 0⟩ 1).bus.load 0xD400).1 = 2 ∧
        lastStored 0xD400 (counter.accessesUpTo .sid ⟨16, 22, 0⟩ 1) = some 2 := by
  have hprepare : prepare counter.job counter.config = .ok counter := by
    have hconfig : counter.config.validate = .ok () := by decide +kernel
    have hload : counter.job.load = .ok counter.memory := by
      dsimp only [Job.load, counter]
      exact Memory.load_singleton (by decide) (by decide) (by decide) (by decide)
    unfold prepare
    rw [hconfig, hload]
  have hsample : (counter.sample ⟨16, 22, 0⟩).snapshots[1]?.map (fun s => s.bank.read 0) =
      some 2 := by decide +kernel
  obtain ⟨snapshot, hsnapshot, hread⟩ := Option.map_eq_some_iff.mp hsample
  have hregister : (0 : UInt8).toNat < counter.job.chip.family.registerCount := by decide
  obtain ⟨-, hwindow, -⟩ :=
    registers_of_snapshot rfl (by decide) (by decide) hsnapshot hregister
  obtain ⟨hload, -⟩ := hwindow 0xD400 (by decide) (by decide)
  refine ⟨hprepare, by decide +kernel, snapshot, hsnapshot, hread, hload.trans hread, ?_⟩
  decide +kernel

end Extractor

end Chiptune
