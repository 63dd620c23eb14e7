import Chiptune.Proofs.Event.Timeline
import Chiptune.Proofs.Extraction.Frames
import Chiptune.Proofs.Replay.Halting
import Mathlib.Data.List.Forall2

/-!
# Narrowing down to a channel

The registers of Paula belong to a channel each.  Here are two of everything, of
which the second is the first narrowed down to a channel: what is for the channel
is the same, and there is nothing else.  A pair of latches stays so when the second
one gets only those settings of the first that are for the channel
(`Latch.Narrows.applyAll`), so that all snapshots stay so, too
(`Frames.Narrows.foldl_add`).  In such snapshots the channel does the same, and the
other channels are silent in the second (`Snapshot.Narrows.decode_own`,
`Snapshot.Narrows.decode_other`).
-/

namespace Chiptune

/-! ## Registers -/

theorem Paula.Field.offset_lt (field : Paula.Field) : field.offset < Paula.stride := by
  cases field <;> decide

theorem Paula.channel_of_offset (channel : ℕ) (field : Paula.Field) :
    (channel * Paula.stride + field.offset) / Paula.stride = channel := by
  have hoffset := field.offset_lt
  unfold Paula.stride at *
  omega

theorem Paula.offset_lt_of_room {channel : ℕ} (h : channel < 64) (field : Paula.Field) :
    channel * Paula.stride + field.offset < 256 := by
  have hoffset := field.offset_lt
  unfold Paula.stride at *
  omega

/-- The register numbers of 64 channels fit into a byte. -/
theorem Paula.toNat_register {channel : ℕ} (h : channel < 64) (field : Paula.Field) :
    (Paula.register channel field).toNat = channel * Paula.stride + field.offset :=
  UInt8.toNat_ofNat_of_lt' (Paula.offset_lt_of_room h field)

/-! ## Settings -/

/-- The channel that a setting is for. -/
def Setting.channel (s : Setting) : ℕ :=
  s.register.toNat / Paula.stride

/-- The settings that are for a channel. -/
def ofChannel (channel : ℕ) (settings : List Setting) : List Setting :=
  settings.filter fun s => s.channel = channel

theorem ofChannel_append (channel : ℕ) (settings more : List Setting) :
    ofChannel channel (settings ++ more) = ofChannel channel settings ++ ofChannel channel more :=
  List.filter_append settings more

/-! ## Banks -/

/-- The registers of a channel are the same, and all others of `mine` are zero. -/
structure Bank.Narrows (channel : ℕ) (whole mine : Bank) : Prop where
  visible : mine.visible = whole.visible
  read : ∀ register, mine.read register =
    if register.toNat / Paula.stride = channel then whole.read register else 0

theorem Bank.at_registers (bank : Bank) {i : ℕ} (hi : i < 256) :
    bank.registers.at i = bank.read i.toUInt8 := by
  have hnat : i.toUInt8.toNat = i := UInt8.toNat_ofNat_of_lt' hi
  have hroom := bank.visible_le
  unfold Registers.at Bank.registers Bank.read
  rw [hnat, Array.getD_eq_getD_getElem?, Array.getD_eq_getD_getElem?, Array.getElem?_extract]
  have hmin : min bank.visible bank.slots.toArray.size = bank.visible := by
    rw [Vector.size_toArray]
    exact Nat.min_eq_left hroom
  rw [hmin, Nat.sub_zero, Nat.zero_add]
  by_cases h : i < bank.visible
  · rw [if_pos h, if_pos h]
  · rw [if_neg h, if_neg h]
    rfl

namespace Bank.Narrows

variable {channel : ℕ} {whole mine : Bank}

/-- A register of the channel is written in both banks. -/
theorem write_own (h : whole.Narrows channel mine) {register : UInt8}
    (hown : register.toNat / Paula.stride = channel) (value : UInt8) :
    (whole.write register value).Narrows channel (mine.write register value) := by
  refine ⟨by rw [visible_write, visible_write, h.visible], fun query => ?_⟩
  rw [read_write, read_write, h.visible, h.read]
  by_cases hquery : query = register ∧ query.toNat < whole.visible
  · rw [if_pos hquery, if_pos hquery, hquery.1, if_pos hown]
  · rw [if_neg hquery, if_neg hquery]

/-- A register of another channel is written in the whole bank only. -/
theorem write_other (h : whole.Narrows channel mine) {register : UInt8}
    (hother : register.toNat / Paula.stride ≠ channel) (value : UInt8) :
    (whole.write register value).Narrows channel mine := by
  refine ⟨by rw [visible_write, h.visible], fun query => ?_⟩
  rw [read_write, h.read]
  by_cases hquery : query.toNat / Paula.stride = channel
  · have hne : query ≠ register := fun heq => hother (heq ▸ hquery)
    rw [if_pos hquery, if_pos hquery, if_neg fun hsame => hne hsame.1]
  · rw [if_neg hquery, if_neg hquery]

end Bank.Narrows

/-! ## Latches -/

/-- The latches are of the same chip, and their registers narrow down to a channel. -/
structure Latch.Narrows (channel : ℕ) (whole mine : Latch) : Prop where
  chip : mine.chip = whole.chip
  bank : whole.bank.Narrows channel mine.bank

theorem Latch.narrows_powerOn (channel : ℕ) (chip : Chip) :
    (powerOn chip).Narrows channel (powerOn chip) := by
  refine ⟨rfl, rfl, fun register => ?_⟩
  have hzero : (powerOn chip).bank.read register = 0 := Bank.read_ofCount _ register
  rw [hzero, ite_self]

/-- The second latch gets only the settings that are for the channel. -/
theorem Latch.Narrows.applyAll {channel : ℕ} {whole mine : Latch} {writes own : List Write}
    (h : whole.Narrows channel mine)
    (hown : own.map Write.setting = ofChannel channel (writes.map Write.setting)) :
    (whole.applyAll writes).Narrows channel (mine.applyAll own) := by
  unfold Latch.applyAll
  induction writes generalizing whole mine own with
  | nil =>
      rw [List.map_eq_nil_iff.mp hown]
      exact h
  | cons write rest ih =>
      rw [List.map_cons, ofChannel, List.filter_cons] at hown
      by_cases hchannel : write.setting.channel = channel
      · -- The write is for the channel, so it is the first of the second latch, too.
        rw [if_pos (decide_eq_true hchannel)] at hown
        obtain ⟨first, others, rfl, hfirst, hothers⟩ := List.map_eq_cons_iff.mp hown
        rw [List.foldl_cons, List.foldl_cons]
        refine ih ⟨h.chip, ?_⟩ hothers
        have hregister : first.register = write.register := congrArg Setting.register hfirst
        have hvalue : first.value = write.value := congrArg Setting.value hfirst
        unfold Latch.apply
        simp only [hregister, hvalue]
        exact h.bank.write_own hchannel write.value
      · rw [if_neg (by simpa using hchannel)] at hown
        rw [List.foldl_cons]
        exact ih ⟨h.chip, h.bank.write_other hchannel write.value⟩ hown

/-! ## Snapshots -/

/-- The snapshots are of the same chip, and their registers narrow down to a channel. -/
structure Snapshot.Narrows (channel : ℕ) (whole mine : Snapshot) : Prop where
  chip : mine.chip = whole.chip
  bank : whole.bank.Narrows channel mine.bank

namespace Snapshot.Narrows

variable {channel : ℕ} {whole mine : Snapshot}

theorem at_registers (h : whole.Narrows channel mine) {i : ℕ} (hi : i < 256) :
    mine.bank.registers.at i =
      if i / Paula.stride = channel then whole.bank.registers.at i else 0 := by
  have hnat : i.toUInt8.toNat = i := UInt8.toNat_ofNat_of_lt' hi
  rw [Bank.at_registers _ hi, Bank.at_registers _ hi, h.bank.read, hnat]

/-- The channel does the same. -/
theorem decode_own (h : whole.Narrows channel mine) (hfamily : whole.chip.family = .paula)
    (hchannel : channel < 64) : mine.decode channel = whole.decode channel := by
  have hfield : ∀ field : Paula.Field,
      mine.bank.registers.at (channel * Paula.stride + field.offset) =
        whole.bank.registers.at (channel * Paula.stride + field.offset) := by
    intro field
    rw [h.at_registers (Paula.offset_lt_of_room hchannel field),
      if_pos (Paula.channel_of_offset channel field)]
  unfold Snapshot.decode
  rw [h.chip, hfamily]
  show Paula.channel _ _ _ = Paula.channel _ _ _
  unfold Paula.channel
  simp only [hfield]

/-- All other channels are silent. -/
theorem decode_other (h : whole.Narrows channel mine) (hfamily : whole.chip.family = .paula)
    {other : ℕ} (hother : other < 64) (hne : other ≠ channel) :
    (mine.decode other).audible = false := by
  have hslot : mine.bank.registers.at (other * Paula.stride + Paula.Field.slot.offset) = 0 := by
    rw [h.at_registers (Paula.offset_lt_of_room hother .slot), Paula.channel_of_offset, if_neg hne]
  unfold Snapshot.decode
  rw [h.chip, hfamily]
  show (Paula.channel _ _ _).audible = false
  unfold Paula.channel Channel.audible
  simp only [hslot]
  rfl

end Snapshot.Narrows

/-! ## Frames -/

/-- A run that halts with only those settings that are for a channel. -/
structure Run.Narrows (channel : ℕ) (whole mine : Run) : Prop where
  outcome : mine.outcome = .halted
  settings : mine.writes.map Write.setting = ofChannel channel (whole.writes.map Write.setting)

theorem Run.Narrows.halted {channel : ℕ} {runs own : List Run}
    (h : List.Forall₂ (Run.Narrows channel) runs own) : ∀ run ∈ own, run.outcome = .halted := by
  induction h with
  | nil => exact fun _ hrun => absurd hrun List.not_mem_nil
  | cons hfirst _ ih => exact List.forall_mem_cons.mpr ⟨hfirst.outcome, ih⟩

/-- So far, the snapshots of one narrow down to those of the other. -/
structure Frames.Narrows (channel : ℕ) (whole mine : Frames) : Prop where
  latch : whole.latch.Narrows channel mine.latch
  snapshots : List.Forall₂ (Snapshot.Narrows channel) whole.snapshots.toList mine.snapshots.toList

theorem Frames.Narrows.add {channel : ℕ} {whole mine : Frames} {run own : Run}
    (h : whole.Narrows channel mine) (hrun : run.Narrows channel own) :
    (whole.add run).Narrows channel (mine.add own) := by
  have hlatch := h.latch.applyAll hrun.settings
  refine ⟨hlatch, ?_⟩
  simp only [Frames.add, Array.toList_push]
  exact List.rel_append h.snapshots (.cons ⟨hlatch.chip, hlatch.bank⟩ .nil)

theorem Frames.Narrows.foldl_add {channel : ℕ} {whole mine : Frames} {runs own : List Run}
    (h : whole.Narrows channel mine) (hruns : List.Forall₂ (Run.Narrows channel) runs own) :
    (runs.foldl Frames.add whole).Narrows channel (own.foldl Frames.add mine) := by
  induction hruns generalizing whole mine with
  | nil => exact h
  | cons hrun _ ih => exact ih (h.add hrun)

end Chiptune
