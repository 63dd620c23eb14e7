import Chiptune.Chip.Latch
import Chiptune.Proofs.Pitch.Equality
import Mathlib.Data.List.Induction

/-!
# The last write wins

Every register of a chip holds what was written to it last, and writes to registers that the
chip does not have are lost (`Chip.lastWriteWins`).  So two snapshots of a chip are the same
just when the last writes leave the same values in all of its registers.

Snapshots compare more than these registers, namely all the room that there is for the largest
chip.  It makes no difference, because one equation says what every place of a bank holds after
any writes, and past the registers of the chip that is zero (`Latch.getElem_applyAll`).
-/

namespace Chiptune

/-! ## Last values -/

/-- The value that was written to a register last. -/
def lastWritten (register : UInt8) (writes : List Write) : Option UInt8 :=
  ((writes.filter fun write => write.register = register).map Write.value).getLast?

/-- What writes leave in a register that was zero before. -/
def finalValue (register : UInt8) (writes : List Write) : UInt8 :=
  (lastWritten register writes).getD 0

theorem finalValue_concat (register : UInt8) (writes : List Write) (write : Write) :
    finalValue register (writes ++ [write]) =
      if write.register = register then write.value else finalValue register writes := by
  unfold finalValue lastWritten
  rw [List.filter_append, List.map_append]
  by_cases hregister : write.register = register
  · simp [hregister]
  · simp [hregister]

/-- Every register of the chip has in the end what it has after the other writes. -/
def Chip.SameInTheEnd (chip : Chip) (writes others : List Write) : Prop :=
  ∀ register : UInt8, register.toNat < chip.family.registerCount →
    finalValue register writes = finalValue register others

/-! ## Banks -/

/-- The places of a bank are numbered by bytes. -/
theorem toNat_toUInt8_of_lt {i : ℕ} (h : i < maxRegisters) : i.toUInt8.toNat = i :=
  UInt8.toNat_ofNat_of_lt' (Nat.lt_trans h (by decide))

namespace Bank

/-- Banks are the same when they show as many registers and have the same in every place. -/
theorem ext_getElem {bank other : Bank} (hvisible : bank.visible = other.visible)
    (hslots : ∀ i (hi : i < maxRegisters), bank.slots[i] = other.slots[i]) : bank = other := by
  have hsame : bank.slots = other.slots := Vector.ext hslots
  cases bank
  cases other
  simp_all

theorem getElem_write (bank : Bank) (register value : UInt8) {i : ℕ} (hi : i < maxRegisters) :
    (bank.write register value).slots[i] =
      if register.toNat = i ∧ i < bank.visible then value else bank.slots[i] := by
  unfold write
  by_cases hregister : register.toNat = i
  · subst hregister
    split <;> simp_all
  · split <;> simp [hregister]

/-- Writes to different registers do not mind their order. -/
theorem write_comm (bank : Bank) {register other : UInt8} (h : register ≠ other)
    (value otherValue : UInt8) :
    (bank.write register value).write other otherValue =
      (bank.write other otherValue).write register value := by
  have hne : register.toNat ≠ other.toNat := fun heq => h (UInt8.toNat_inj.mp heq)
  refine ext_getElem (by simp only [visible_write]) fun i hi => ?_
  simp only [getElem_write, visible_write]
  split <;> split <;> first | rfl | omega

theorem read_of_lt {bank : Bank} {register : UInt8} (h : register.toNat < bank.visible)
    (hroom : register.toNat < maxRegisters) : bank.read register = bank.slots[register.toNat] := by
  unfold read
  simp [h, hroom]

theorem read_of_le {bank : Bank} {register : UInt8} (h : bank.visible ≤ register.toNat) :
    bank.read register = 0 :=
  if_neg (Nat.not_lt.mpr h)

end Bank

/-! ## Latches -/

namespace Latch

/-- Every place of a bank after writes to a chip that has been switched on. -/
theorem getElem_applyAll (chip : Chip) (writes : List Write) {i : ℕ} (hi : i < maxRegisters) :
    ((powerOn chip).applyAll writes).bank.slots[i] =
      if i < chip.family.registerCount then finalValue i.toUInt8 writes else 0 := by
  induction writes using List.reverseRecOn with
  | nil =>
      show (Vector.replicate maxRegisters 0)[i] = _
      rw [Vector.getElem_replicate]
      split <;> rfl
  | append_singleton writes write ih =>
      have hregister : write.register.toNat = i ↔ write.register = i.toUInt8 := by
        rw [← UInt8.toNat_inj, toNat_toUInt8_of_lt hi]
      rw [applyAll_append]
      show (((powerOn chip).applyAll writes).bank.write _ _).slots[i] = _
      rw [Bank.getElem_write, visible_applyAll, visible_powerOn, ih, finalValue_concat]
      simp only [hregister]
      by_cases hshown : i < chip.family.registerCount
      · simp [hshown]
      · simp [hshown]

/-- What is to be said of a latch that was switched on and has got some writes since. -/
structure HoldsLast (chip : Chip) (writes : List Write) (latch : Latch) : Prop where
  chip_eq : latch.chip = chip
  /-- All registers of the chip show, and no others. -/
  registers : latch.bank.registers.toList =
    (List.range chip.family.registerCount).map fun i => finalValue i.toUInt8 writes
  read : ∀ register, latch.bank.read register =
    if register.toNat < chip.family.registerCount then finalValue register writes else 0
  /-- The room that the chip does not use stays zero. -/
  hidden : ∀ i (hi : i < maxRegisters), chip.family.registerCount ≤ i → latch.bank.slots[i] = 0
  applied : latch.applied = writes.length

theorem holdsLast_applyAll (chip : Chip) (writes : List Write) :
    ((powerOn chip).applyAll writes).HoldsLast chip writes where
  chip_eq := chip_applyAll _ _
  registers := by
    refine List.ext_getElem ?_ fun i hi hcount => ?_
    · simp [Bank.registers, chip.family.registerCount_le]
    · have hshown : i < chip.family.registerCount := by simpa using hcount
      simp [Bank.registers, getElem_applyAll, hshown]
  read register := by
    have hvisible : ((powerOn chip).applyAll writes).bank.visible = chip.family.registerCount := by
      rw [visible_applyAll, visible_powerOn]
    by_cases hshown : register.toNat < chip.family.registerCount
    · have hroom := Nat.lt_of_lt_of_le hshown chip.family.registerCount_le
      rw [Bank.read_of_lt (hvisible ▸ hshown) hroom, getElem_applyAll, if_pos hshown,
        if_pos hshown]
      simp
    · rw [Bank.read_of_le (hvisible ▸ Nat.not_lt.mp hshown), if_neg hshown]
  hidden i hi hcount := by
    rw [getElem_applyAll, if_neg (Nat.not_lt.mpr hcount)]
  applied := by simp [powerOn]

/-- Writes leave the same bank when they leave the same in the registers of the chip. -/
theorem bank_applyAll_eq_iff (chip : Chip) (writes others : List Write) :
    ((powerOn chip).applyAll writes).bank = ((powerOn chip).applyAll others).bank ↔
      chip.SameInTheEnd writes others := by
  constructor
  · intro hbank register hshown
    have hread := (holdsLast_applyAll chip writes).read register
    rw [hbank, (holdsLast_applyAll chip others).read, if_pos hshown, if_pos hshown] at hread
    exact hread.symm
  · intro hsame
    refine Bank.ext_getElem (by simp only [visible_applyAll]) fun i hi => ?_
    rw [getElem_applyAll, getElem_applyAll]
    by_cases hshown : i < chip.family.registerCount
    · rw [if_pos hshown, if_pos hshown, hsame _ ((toNat_toUInt8_of_lt hi).symm ▸ hshown)]
    · rw [if_neg hshown, if_neg hshown]

/-- A write past the registers of the chip is only counted. -/
theorem apply_of_le {latch : Latch} {write : Write}
    (h : latch.bank.visible ≤ write.register.toNat) :
    latch.apply write = { latch with applied := latch.applied + 1 } := by
  unfold apply Bank.write
  rw [if_neg (Nat.not_lt.mpr h)]

theorem apply_comm (latch : Latch) {write other : Write} (h : write.register ≠ other.register) :
    (latch.apply write).apply other = (latch.apply other).apply write := by
  unfold apply
  simp only [latch.bank.write_comm h]

end Latch

/-- Snapshots of one chip at one frame can differ in their banks only, if the clock is a
number. -/
theorem Snapshot.same_iff {s t : Snapshot} (hframe : s.frame = t.frame) (hchip : s.chip = t.chip)
    (hclock : s.chip.clock.isNaN = false) : s.same t = true ↔ s.bank = t.bank := by
  unfold same
  simp [hframe, ← hchip, float_beq_self hclock]

/-! ## Chips -/

namespace Chip

/-- What the last writes say of a chip. -/
structure LastWriteWins (chip : Chip) : Prop where
  holds : ∀ writes, ((Latch.powerOn chip).applyAll writes).HoldsLast chip writes
  /-- A write to a missing register is only counted. -/
  missing : ∀ writes write, chip.family.registerCount ≤ write.register.toNat →
    (Latch.powerOn chip).applyAll (writes ++ [write]) =
      { (Latch.powerOn chip).applyAll writes with applied := writes.length + 1 }
  /-- Writes to different registers can change places. -/
  swap : ∀ before write other after, write.register ≠ other.register →
    (Latch.powerOn chip).applyAll (before ++ write :: other :: after) =
      (Latch.powerOn chip).applyAll (before ++ other :: write :: after)
  same_iff : chip.clock.isNaN = false → ∀ frame writes others,
    (((Latch.powerOn chip).applyAll writes).snapshot frame).same
      (((Latch.powerOn chip).applyAll others).snapshot frame) = true ↔
        chip.SameInTheEnd writes others
  /-- A channel does the same, whatever the frame and the clock. -/
  channel_eq : ∀ writes others, chip.SameInTheEnd writes others → ∀ frame later channel,
    (((Latch.powerOn chip).applyAll writes).snapshot frame).channel channel =
      (((Latch.powerOn chip).applyAll others).snapshot later).channel channel

theorem lastWriteWins (chip : Chip) : chip.LastWriteWins where
  holds := Latch.holdsLast_applyAll chip
  missing writes write hmissing := by
    have hvisible : ((Latch.powerOn chip).applyAll writes).bank.visible ≤
        write.register.toNat := by
      rwa [Latch.visible_applyAll, Latch.visible_powerOn]
    rw [Latch.applyAll_append, ← (Latch.holdsLast_applyAll chip writes).applied]
    exact Latch.apply_of_le hvisible
  swap before write other after hne := by
    let reached := (Latch.powerOn chip).applyAll before
    calc (Latch.powerOn chip).applyAll (before ++ write :: other :: after)
        = ((reached.apply write).apply other).applyAll after := Latch.applyAll_append ..
      _ = ((reached.apply other).apply write).applyAll after := by
          rw [reached.apply_comm hne]
      _ = (Latch.powerOn chip).applyAll (before ++ other :: write :: after) :=
          (Latch.applyAll_append _ before (other :: write :: after)).symm
  same_iff hclock frame writes others := by
    rw [← Latch.bank_applyAll_eq_iff]
    refine Snapshot.same_iff rfl ?_ ?_
    · show (Latch.applyAll _ _).chip = (Latch.applyAll _ _).chip
      rw [Latch.chip_applyAll, Latch.chip_applyAll]
    · show (Latch.applyAll _ _).chip.clock.isNaN = false
      rwa [Latch.chip_applyAll]
  channel_eq writes others hsame frame later channel := by
    have hbank := (Latch.bank_applyAll_eq_iff chip writes others).mpr hsame
    show (Latch.applyAll _ _).chip.channel (Latch.applyAll _ _).bank channel =
      (Latch.applyAll _ _).chip.channel (Latch.applyAll _ _).bank channel
    rw [hbank, Latch.chip_applyAll, Latch.chip_applyAll]

/-- A first volume that is overwritten and a write to a missing register do not show. -/
theorem lastWriteWins_overwritten :
    let chip : Chip := .standard .psg
    let writes : List Write := [⟨8, 3, 0⟩, ⟨20, 255, 0⟩, ⟨8, 15, 1⟩]
    chip.clock.isNaN = false ∧
      (((Latch.powerOn chip).applyAll writes).snapshot 4).same
        (((Latch.powerOn chip).applyAll [⟨8, 15, 0⟩]).snapshot 4) = true ∧
      chip.SameInTheEnd writes [⟨8, 15, 0⟩] := by
  intro chip writes
  have hclock : chip.clock.isNaN = false := by decide +kernel
  have hsame : (((Latch.powerOn chip).applyAll writes).snapshot 4).same
      (((Latch.powerOn chip).applyAll [⟨8, 15, 0⟩]).snapshot 4) = true := by
    decide +kernel
  exact ⟨hclock, hsame, ((lastWriteWins chip).same_iff hclock 4 writes _).mp hsame⟩

end Chip

end Chiptune
