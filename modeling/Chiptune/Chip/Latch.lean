import Chiptune.Chip.Family

/-!
# The latch of a chip and its snapshots

The latch applies register writes one after the other; a snapshot is a copy of it at the end of a
frame.  Two snapshots are the same when frame, chip and registers are; as for any floating number,
a clock that is no number is not the same as itself.
-/

namespace Chiptune

/-- A request for a channel that the chip does not have. -/
structure NoSuchChannel where
  channel : Nat
  available : Nat
  deriving DecidableEq

def NoSuchChannel.message (e : NoSuchChannel) : String :=
  "channel " ++ toString e.channel ++ " out of range (" ++ toString e.available ++ " available)"

/-- What a channel of a chip does under the given registers. -/
def Chip.channel (chip : Chip) (bank : Bank) (channel : Nat) : Except NoSuchChannel Channel :=
  if channel < chip.family.channelCount then
    .ok (chip.family.channel bank.registers channel chip.clock)
  else .error ⟨channel, chip.family.channelCount⟩

/-- The chip at the end of a frame. -/
structure Snapshot where
  frame : Nat
  chip : Chip
  bank : Bank

namespace Snapshot

/-- What a channel was doing. -/
def channel (s : Snapshot) (channel : Nat) : Except NoSuchChannel Channel :=
  s.chip.channel s.bank channel

/-- Whether frame, chip and registers are the same. -/
def same (s t : Snapshot) : Bool :=
  s.frame == t.frame && s.chip.family == t.chip.family && s.chip.clock == t.chip.clock &&
    s.bank == t.bank

end Snapshot

/-- The live registers of a chip. -/
structure Latch where
  chip : Chip
  bank : Bank
  /-- How many writes have been applied, those to missing registers included. -/
  applied : Nat

namespace Latch

/-- A chip whose registers are all zero. -/
def powerOn (chip : Chip) : Latch :=
  ⟨chip, Bank.ofCount chip.family.registerCount, 0⟩

/-- Applies one write.  A register past those of the family keeps nothing. -/
def apply (latch : Latch) (write : Write) : Latch :=
  { latch with bank := latch.bank.write write.register write.value, applied := latch.applied + 1 }

def applyAll (latch : Latch) (writes : List Write) : Latch :=
  writes.foldl apply latch

theorem applyAll_append (latch : Latch) (writes more : List Write) :
    latch.applyAll (writes ++ more) = (latch.applyAll writes).applyAll more :=
  List.foldl_append

@[simp] theorem visible_powerOn (chip : Chip) :
    (powerOn chip).bank.visible = chip.family.registerCount :=
  Nat.min_eq_left chip.family.registerCount_le

@[simp] theorem chip_applyAll (latch : Latch) (writes : List Write) :
    (latch.applyAll writes).chip = latch.chip := by
  unfold applyAll
  induction writes generalizing latch with
  | nil => rfl
  | cons write rest ih => rw [List.foldl_cons, ih]; rfl

@[simp] theorem visible_applyAll (latch : Latch) (writes : List Write) :
    (latch.applyAll writes).bank.visible = latch.bank.visible := by
  unfold applyAll
  induction writes generalizing latch with
  | nil => rfl
  | cons write rest ih => rw [List.foldl_cons, ih, apply, Bank.visible_write]

@[simp] theorem applied_applyAll (latch : Latch) (writes : List Write) :
    (latch.applyAll writes).applied = latch.applied + writes.length := by
  unfold applyAll
  induction writes generalizing latch with
  | nil => rfl
  | cons write rest ih =>
      rw [List.foldl_cons, ih, List.length_cons]
      exact Nat.succ_add_eq_add_succ latch.applied rest.length

/-- A copy of the registers at the end of a frame. -/
def snapshot (latch : Latch) (frame : Nat) : Snapshot :=
  ⟨frame, latch.chip, latch.bank⟩

end Latch

end Chiptune
