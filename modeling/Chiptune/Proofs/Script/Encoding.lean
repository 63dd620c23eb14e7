import Chiptune.Script.Instruction
import Mathlib.Data.Nat.Notation

/-!
# Instructions as bytes

`Instruction.bytes` lays an instruction out as a script holds it, its opcode first
and then the operands, words with their high byte first.  Where these bytes lie in
memory, reading gives the instruction back and moves on behind them
(`Instruction.read_of_holds`).
-/

namespace Chiptune

namespace Memory

/-- The bytes lie in memory, from an address on. -/
def Holds (m : Memory) (address : ℕ) (bytes : List UInt8) : Prop :=
  ∀ i < bytes.length, m.get? (address + i) = bytes[i]?

instance (m : Memory) (address : ℕ) (bytes : List UInt8) : Decidable (m.Holds address bytes) :=
  inferInstanceAs (Decidable (∀ i < bytes.length, m.get? (address + i) = bytes[i]?))

variable {m : Memory} {address : ℕ}

theorem Holds.left {xs ys : List UInt8} (h : m.Holds address (xs ++ ys)) : m.Holds address xs := by
  intro i hi
  have hget := h i (by rw [List.length_append]; omega)
  rwa [List.getElem?_append_left hi] at hget

theorem Holds.right {xs ys : List UInt8} (h : m.Holds address (xs ++ ys)) :
    m.Holds (address + xs.length) ys := by
  intro i hi
  have hget := h (xs.length + i) (by rw [List.length_append]; omega)
  rw [List.getElem?_append_right (by omega), Nat.add_sub_cancel_left] at hget
  rwa [Nat.add_assoc]

theorem Holds.readByte {byte : UInt8} {rest : List UInt8} (h : m.Holds address (byte :: rest)) :
    m.readByte address = .ok byte := by
  have hget : m.get? address = some byte := h 0 (Nat.zero_lt_succ _)
  unfold Memory.readByte
  rw [hget]

theorem Holds.tail {byte : UInt8} {rest : List UInt8} (h : m.Holds address (byte :: rest)) :
    m.Holds (address + 1) rest := by
  have hsplit : m.Holds address ([byte] ++ rest) := h
  exact hsplit.right

/-- The bytes of a word, the high one first. -/
def wordBytes (word : UInt16) : List UInt8 :=
  [(word.toNat / 256).toUInt8, (word.toNat % 256).toUInt8]

@[simp] theorem length_wordBytes (word : UInt16) : (wordBytes word).length = 2 := rfl

theorem wordOf_wordBytes (word : UInt16) :
    wordOf (word.toNat / 256).toUInt8 (word.toNat % 256).toUInt8 = word := by
  have hword : word.toNat < 65536 := word.toNat_lt
  have hhigh : ((word.toNat / 256).toUInt8).toNat = word.toNat / 256 :=
    UInt8.toNat_ofNat_of_lt' (show word.toNat / 256 < 256 by omega)
  have hlow : ((word.toNat % 256).toUInt8).toNat = word.toNat % 256 :=
    UInt8.toNat_ofNat_of_lt' (show word.toNat % 256 < 256 by omega)
  apply UInt16.toNat_inj.mp
  rw [toNat_wordOf, hhigh, hlow, Nat.div_add_mod]

theorem Holds.readWordHighFirst {word : UInt16} {rest : List UInt8}
    (h : m.Holds address (wordBytes word ++ rest)) :
    m.readWordHighFirst address = .ok word := by
  have hlength : (wordBytes word ++ rest).length = 2 + rest.length := by simp
  have hhigh : m.get? address = some (word.toNat / 256).toUInt8 := h 0 (by omega)
  have hlow : m.get? (address + 1) = some (word.toNat % 256).toUInt8 := h 1 (by omega)
  unfold Memory.readWordHighFirst readPair
  rw [hhigh, hlow]
  exact congrArg Except.ok (wordOf_wordBytes word)

end Memory

namespace Script

/-! ## Reading -/

/-- The reading finds a value at `start` and ends up at `after`. -/
def Reading.Gives {α : Type} (reading : Reading α) (start : ℕ) (value : α) (after : ℕ) : Prop :=
  reading.run.run start = (.ok value, after)

namespace Reading.Gives

variable {α β : Type} {value : α} {start after : ℕ} {memory : Memory}

theorem pure : Gives (Pure.pure value) start value start := rfl

theorem get : Gives MonadState.get start start start := rfl

theorem bind {reading : Reading α} {next : α → Reading β} {result : β} {last : ℕ}
    (h : Gives reading start value after) (hnext : Gives (next value) after result last) :
    Gives (reading >>= next) start result last := by
  unfold Gives at *
  rw [ExceptT.run_bind]
  simp only [StateT.run_bind, h]
  exact hnext

theorem take {count : ℕ} {access : ℕ → Except AddressFault α} (h : access start = .ok value) :
    Gives (take count access) start value (start + count) := by
  refine get.bind ?_
  rw [h]
  rfl

theorem byte {byte : UInt8} {rest : List UInt8} (h : memory.Holds start (byte :: rest)) :
    Gives (Reading.byte memory) start byte (start + 1) :=
  take h.readByte

theorem word {word : UInt16} {rest : List UInt8}
    (h : memory.Holds start (Memory.wordBytes word ++ rest)) :
    Gives (Reading.word memory) start word (start + 2) :=
  take h.readWordHighFirst

end Reading.Gives

/-- The reading fails on its way from `start`, and ends up at `after`. -/
def Reading.Fails {α : Type} (reading : Reading α) (start : ℕ) (e : Unreadable) (after : ℕ) :
    Prop :=
  reading.run.run start = (.error e, after)

namespace Reading.Fails

variable {α β : Type} {start after last : ℕ} {e : Unreadable} {reading : Reading α}

theorem bind (h : Fails reading start e after) (next : α → Reading β) :
    Fails (reading >>= next) start e after := by
  unfold Fails at *
  rw [ExceptT.run_bind]
  simp only [StateT.run_bind, h]
  rfl

theorem of_gives {value : α} {next : α → Reading β} (h : Gives reading start value after)
    (hnext : Fails (next value) after e last) : Fails (reading >>= next) start e last := by
  unfold Fails Gives at *
  rw [ExceptT.run_bind]
  simp only [StateT.run_bind, h]
  exact hnext

theorem take {count : ℕ} {access : ℕ → Except AddressFault α} {fault : AddressFault}
    (h : access start = .error fault) : Fails (take count access) start (.outside fault) start := by
  refine of_gives .get ?_
  rw [h]
  rfl

end Reading.Fails

/-! ## Instructions -/

namespace Instruction

/-- The byte that an instruction begins with. -/
def opcode : Instruction → UInt8
  | .stop => 0
  | .wave _ => 1
  | .period _ => 2
  | .volume _ => 3
  | .volumeRamp .. => 4
  | .periodRamp .. => 5
  | .wait _ => 6
  | .jump _ => 7

/-- The bytes behind the opcode. -/
def operands : Instruction → List UInt8
  | .stop => []
  | .wave slot => [slot]
  | .period value => Memory.wordBytes value
  | .volume value => [value]
  | .volumeRamp first last frames => [first, last, frames]
  | .periodRamp first last frames => Memory.wordBytes first ++ (Memory.wordBytes last ++ [frames])
  | .wait frames => [frames]
  | .jump target => Memory.wordBytes target

/-- An instruction as a script holds it. -/
def bytes (instruction : Instruction) : List UInt8 :=
  instruction.opcode :: instruction.operands

theorem length_bytes_pos (instruction : Instruction) : 0 < instruction.bytes.length :=
  Nat.zero_lt_succ _

/-- An instruction is read where its bytes lie. -/
theorem read_of_holds {memory : Memory} {address : ℕ} {instruction : Instruction}
    (h : memory.Holds address instruction.bytes) :
    (Instruction.read memory).Gives address instruction (address + instruction.bytes.length) := by
  have hoperands : memory.Holds (address + 1) instruction.operands := h.tail
  refine Reading.Gives.get.bind ((Reading.Gives.byte h).bind ?_)
  cases instruction with
  | stop => exact .pure
  | wave slot => exact (Reading.Gives.byte hoperands).bind .pure
  | period value =>
      have hvalue : memory.Holds (address + 1) (Memory.wordBytes value ++ []) := hoperands
      exact (Reading.Gives.word hvalue).bind .pure
  | volume value => exact (Reading.Gives.byte hoperands).bind .pure
  | volumeRamp first last frames =>
      have hlast := hoperands.tail
      have hframes := hlast.tail
      exact (Reading.Gives.byte hoperands).bind
        ((Reading.Gives.byte hlast).bind ((Reading.Gives.byte hframes).bind .pure))
  | periodRamp first last frames =>
      have hlast := hoperands.right
      have hframes := hlast.right
      exact (Reading.Gives.word hoperands).bind
        ((Reading.Gives.word hlast).bind ((Reading.Gives.byte hframes).bind .pure))
  | wait frames => exact (Reading.Gives.byte hoperands).bind .pure
  | jump target =>
      have htarget : memory.Holds (address + 1) (Memory.wordBytes target ++ []) := hoperands
      exact (Reading.Gives.word htarget).bind .pure

/-- Outside the memory there is no instruction to read. -/
theorem read_outside {memory : Memory} {address : ℕ} (h : memory.size ≤ address) :
    (Instruction.read memory).Fails address (.outside ⟨address⟩) address := by
  have hbyte : memory.readByte address = .error ⟨address⟩ := by
    unfold Memory.readByte
    rw [Memory.get?_eq_none_iff.mpr h]
  exact .of_gives .get ((Reading.Fails.take hbyte).bind _)

end Instruction

end Script

end Chiptune
