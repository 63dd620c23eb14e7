import Chiptune.Proofs.Memory.Operations
import Chiptune.Proofs.Script.Encoding

/-!
# Where no instruction can be read

An instruction is read in pieces, its opcode first and then its operands as bytes and as
words.  Whatever the pieces are, it is as if all of its bytes were read at once: reading
takes them all if they are inside the memory, and otherwise it fails at the first one that
is not (`Reading.Takes`, `Instruction.takes_read`).

So there are three reasons why reading fails (`BreaksAt`).  They exclude each other, and
one of them applies wherever no instruction lies in memory (`exists_breaksAt_iff`); reading
fails for just this reason (`Instruction.fails_of_breaksAt`).
-/

namespace Chiptune

namespace Memory

variable {m : Memory} {address : ℕ}

theorem holds_nil (m : Memory) (address : ℕ) : m.Holds address [] :=
  fun _ hi => absurd hi (Nat.not_lt_zero _)

theorem Holds.cons {byte : UInt8} {rest : List UInt8} (hbyte : m.get? address = some byte)
    (hrest : m.Holds (address + 1) rest) : m.Holds address (byte :: rest) := by
  intro i hi
  cases i with
  | zero => exact hbyte
  | succ i =>
      rw [← Nat.add_assoc, Nat.add_right_comm, List.getElem?_cons_succ]
      exact hrest i (Nat.lt_of_succ_lt_succ hi)

/-- The bytes of the memory from an address on. -/
def bytesAt (m : Memory) (address count : ℕ) : List UInt8 :=
  (List.range' address count).map m.byteAt

theorem holds_bytesAt {count : ℕ} (h : address + count ≤ m.size) :
    m.Holds address (m.bytesAt address count) := by
  induction count generalizing address with
  | zero => exact holds_nil m address
  | succ count ih => exact .cons (get?_of_lt (by omega)) (ih (by omega))

theorem wordBytes_wordOf (high low : UInt8) : wordBytes (wordOf high low) = [high, low] := by
  have hlow : low.toNat < 256 := low.toNat_lt
  unfold wordBytes
  rw [toNat_wordOf, Nat.mul_add_div (by decide), Nat.div_eq_of_lt hlow, Nat.mul_add_mod,
    Nat.mod_eq_of_lt hlow, Nat.add_zero]
  exact congrArg₂ (fun x y => [x, y]) UInt8.ofNat_toNat UInt8.ofNat_toNat

end Memory

namespace Script

/-! ## Reading that takes a number of bytes -/

/-- From an address inside the memory, or right behind it, the reading takes `count` bytes
if so many are there, and otherwise it fails at the first one that is not. -/
structure Reading.Takes {α : Type} (memory : Memory) (start count : ℕ) (reading : Reading α) :
    Prop where
  gives : start + count ≤ memory.size → ∃ value, reading.Gives start value (start + count)
  fails : start ≤ memory.size → memory.size < start + count →
    ∃ after, reading.Fails start (.outside ⟨memory.size⟩) after

namespace Reading.Takes

variable {α β : Type} {memory : Memory} {start first rest : ℕ} {reading : Reading α}
  {next : α → Reading β}

theorem pure (memory : Memory) (start : ℕ) (value : α) :
    Takes memory start 0 (Pure.pure value) where
  gives _ := ⟨value, .pure⟩
  fails hstart hsize := absurd hstart (Nat.not_le.mpr hsize)

theorem of_gives {value : α} (h : Gives reading start value (start + first))
    (hinside : start + first ≤ memory.size)
    (hnext : Takes memory (start + first) rest (next value)) :
    Takes memory start (first + rest) (reading >>= next) where
  gives hsize := by
    obtain ⟨result, hresult⟩ := hnext.gives (by omega)
    exact ⟨result, by rw [← Nat.add_assoc]; exact h.bind hresult⟩
  fails _ hsize := by
    obtain ⟨after, hfails⟩ := hnext.fails hinside (by omega)
    exact ⟨after, .of_gives h hfails⟩

theorem bind (h : Takes memory start first reading)
    (hnext : ∀ value, Takes memory (start + first) rest (next value)) :
    Takes memory start (first + rest) (reading >>= next) := by
  rcases Nat.lt_or_ge memory.size (start + first) with hlt | hle
  · constructor
    · intro hsize
      omega
    · intro hstart _
      obtain ⟨after, hfails⟩ := h.fails hstart hlt
      exact ⟨after, hfails.bind next⟩
  · obtain ⟨value, hvalue⟩ := h.gives hle
    exact of_gives hvalue hle (hnext value)

theorem byte (memory : Memory) (start : ℕ) : Takes memory start 1 (Reading.byte memory) where
  gives hsize := ⟨memory.byteAt start, .take (Memory.readByte_of_lt hsize)⟩
  fails hstart hsize := by
    have hfault : memory.readByte start = .error ⟨memory.size⟩ := by
      rw [Memory.readByte_of_le (Nat.le_of_lt_succ hsize), Memory.faultAt, Nat.max_eq_right hstart]
    exact ⟨start, .take hfault⟩

theorem word (memory : Memory) (start : ℕ) : Takes memory start 2 (Reading.word memory) where
  gives hsize := by
    have hword : memory.readWordHighFirst start =
        .ok (Memory.wordOf (memory.byteAt start) (memory.byteAt (start + 1))) := by
      rw [Memory.readWordHighFirst, Memory.readPair_of_lt hsize]
      rfl
    exact ⟨_, .take hword⟩
  fails hstart hsize := by
    have hfault : memory.readWordHighFirst start = .error ⟨memory.size⟩ := by
      rw [Memory.readWordHighFirst, Memory.readPair_of_le (Nat.le_of_lt_succ hsize),
        Memory.faultAt, Nat.max_eq_right hstart]
      rfl
    exact ⟨start, .take hfault⟩

end Reading.Takes

/-! ## Instructions that are not there -/

/-- Why no instruction can be read at an address. -/
inductive BreaksAt (memory : Memory) (pc : ℕ) : Unreadable → Prop where
  /-- A byte that begins no instruction. -/
  | unknown {opcode} : memory.get? pc = some opcode → 7 < opcode.toNat →
      BreaksAt memory pc (.unknown opcode pc)
  /-- There is not even an opcode. -/
  | opcode : memory.size ≤ pc → BreaksAt memory pc (.outside ⟨pc⟩)
  /-- An operand is not all there; how far an instruction reaches is up to its opcode. -/
  | operand (instruction : Instruction) {address} : memory.get? pc = some instruction.opcode →
      IsLeast {x | pc ≤ x ∧ x < pc + instruction.bytes.length ∧ memory.size ≤ x} address →
      BreaksAt memory pc (.outside ⟨address⟩)

variable {memory : Memory} {pc : ℕ}

namespace Instruction

theorem exists_opcode_eq {opcode : UInt8} (h : opcode.toNat ≤ 7) :
    ∃ instruction : Instruction, instruction.opcode = opcode := by
  have hopcode : opcode = opcode.toNat.toUInt8 := UInt8.ofNat_toNat.symm
  rw [hopcode]
  generalize opcode.toNat = n at h
  match n, h with
  | 0, _ => exact ⟨.stop, rfl⟩
  | 1, _ => exact ⟨.wave 0, rfl⟩
  | 2, _ => exact ⟨.period 0, rfl⟩
  | 3, _ => exact ⟨.volume 0, rfl⟩
  | 4, _ => exact ⟨.volumeRamp 0 0 0, rfl⟩
  | 5, _ => exact ⟨.periodRamp 0 0 0, rfl⟩
  | 6, _ => exact ⟨.wait 0, rfl⟩
  | 7, _ => exact ⟨.jump 0, rfl⟩

/-- Reading an instruction takes as many bytes as its opcode asks for. -/
theorem takes_read {instruction : Instruction} (h : memory.get? pc = some instruction.opcode) :
    Reading.Takes memory pc instruction.bytes.length (Instruction.read memory) := by
  have hopcode : memory.readByte pc = .ok instruction.opcode := by
    rw [Memory.readByte, h]
  have hinside : pc + 1 ≤ memory.size := by
    rw [Nat.succ_le_iff, ← Memory.get?_isSome_iff, h]
    rfl
  have hget : Reading.Gives MonadState.get pc pc (pc + 0) := .get
  have hbyte : (Reading.byte memory).Gives pc instruction.opcode (pc + 1) := .take hopcode
  have hlength : instruction.bytes.length = 0 + (1 + instruction.operands.length) := by
    rw [Nat.zero_add, Nat.add_comm]
    rfl
  rw [hlength]
  refine .of_gives hget (Nat.le_of_succ_le hinside) (.of_gives hbyte hinside ?_)
  cases instruction with
  | stop => exact .pure memory (pc + 1) _
  | wave slot => exact (Reading.Takes.byte memory _).bind fun _ => .pure memory _ _
  | period value => exact (Reading.Takes.word memory _).bind fun _ => .pure memory _ _
  | volume value => exact (Reading.Takes.byte memory _).bind fun _ => .pure memory _ _
  | volumeRamp first last frames =>
      exact (Reading.Takes.byte memory _).bind fun _ => (Reading.Takes.byte memory _).bind fun _ =>
        (Reading.Takes.byte memory _).bind fun _ => .pure memory _ _
  | periodRamp first last frames =>
      exact (Reading.Takes.word memory _).bind fun _ => (Reading.Takes.word memory _).bind fun _ =>
        (Reading.Takes.byte memory _).bind fun _ => .pure memory _ _
  | wait frames => exact (Reading.Takes.byte memory _).bind fun _ => .pure memory _ _
  | jump target => exact (Reading.Takes.word memory _).bind fun _ => .pure memory _ _

/-- Where all bytes that an opcode asks for are inside the memory, they are an instruction. -/
theorem exists_holds {instruction : Instruction} (h : memory.get? pc = some instruction.opcode)
    (hsize : pc + instruction.bytes.length ≤ memory.size) :
    ∃ other : Instruction, memory.Holds pc other.bytes := by
  have hoperands : pc + 1 + instruction.operands.length ≤ memory.size := by
    have hlength : instruction.bytes.length = instruction.operands.length + 1 := rfl
    omega
  -- The operands are what the memory holds behind the opcode.
  suffices hother : ∃ other : Instruction, other.opcode = instruction.opcode ∧
      other.operands = memory.bytesAt (pc + 1) instruction.operands.length by
    obtain ⟨other, hopcode, hequal⟩ := hother
    refine ⟨other, .cons (hopcode ▸ h) ?_⟩
    rw [hequal]
    exact Memory.holds_bytesAt hoperands
  let byteAt := fun i => memory.byteAt (pc + i)
  let wordAt := fun i => Memory.wordOf (byteAt i) (byteAt (i + 1))
  have hword : ∀ i, Memory.wordBytes (wordAt i) = memory.bytesAt (pc + i) 2 := fun _ =>
    Memory.wordBytes_wordOf _ _
  cases instruction with
  | stop => exact ⟨.stop, rfl, rfl⟩
  | wave slot => exact ⟨.wave (byteAt 1), rfl, rfl⟩
  | period value => exact ⟨.period (wordAt 1), rfl, hword 1⟩
  | volume value => exact ⟨.volume (byteAt 1), rfl, rfl⟩
  | volumeRamp first last frames =>
      exact ⟨.volumeRamp (byteAt 1) (byteAt 2) (byteAt 3), rfl, rfl⟩
  | periodRamp first last frames =>
      refine ⟨.periodRamp (wordAt 1) (wordAt 3) (byteAt 5), rfl, ?_⟩
      exact congrArg₂ (fun xs ys => xs ++ (ys ++ [byteAt 5])) (hword 1) (hword 3)
  | wait frames => exact ⟨.wait (byteAt 1), rfl, rfl⟩
  | jump target => exact ⟨.jump (wordAt 1), rfl, hword 1⟩

/-- Reading fails for the reason that there is. -/
theorem fails_of_breaksAt {e : Unreadable} (h : BreaksAt memory pc e) :
    ∃ after, (Instruction.read memory).Fails pc e after := by
  cases h with
  | @unknown opcode hget hopcode =>
      have hbyte : (Reading.byte memory).Gives pc opcode (pc + 1) :=
        .take (by rw [Memory.readByte, hget])
      refine ⟨pc + 1, .of_gives .get (.of_gives hbyte ?_)⟩
      generalize opcode.toNat = n at hopcode
      obtain ⟨rest, rfl⟩ : ∃ rest, n = rest + 8 := ⟨n - 8, by omega⟩
      rfl
  | opcode hsize => exact ⟨pc, read_outside hsize⟩
  | @operand instruction address hget hleast =>
      obtain ⟨⟨hpc, hlt, hsize⟩, hfirst⟩ := hleast
      have hinside : pc < memory.size := by
        rw [← Memory.get?_isSome_iff, hget]
        rfl
      have haddress : address = memory.size :=
        Nat.le_antisymm (hfirst ⟨Nat.le_of_lt hinside, by omega, Nat.le_refl _⟩) hsize
      rw [haddress]
      exact (takes_read hget).fails (Nat.le_of_lt hinside) (by omega)

end Instruction

theorem holds_or_breaksAt (memory : Memory) (pc : ℕ) :
    (∃ instruction : Instruction, memory.Holds pc instruction.bytes) ∨
      ∃ e, BreaksAt memory pc e := by
  cases hget : memory.get? pc with
  | none => exact .inr ⟨_, .opcode (Memory.get?_eq_none_iff.mp hget)⟩
  | some opcode =>
      rcases Nat.lt_or_ge 7 opcode.toNat with hunknown | hknown
      · exact .inr ⟨_, .unknown hget hunknown⟩
      · obtain ⟨instruction, rfl⟩ := Instruction.exists_opcode_eq hknown
        by_cases hsize : pc + instruction.bytes.length ≤ memory.size
        · exact .inl (Instruction.exists_holds hget hsize)
        · exact .inr ⟨_, .operand instruction hget
            (Memory.isLeast_faultAt instruction.length_bytes_pos hsize)⟩

/-- Reading fails for one reason, and it does not where an instruction lies. -/
theorem fails_iff_breaksAt {e : Unreadable} :
    (∃ after, (Instruction.read memory).Fails pc e after) ↔ BreaksAt memory pc e := by
  refine ⟨fun ⟨after, hfails⟩ => ?_, Instruction.fails_of_breaksAt⟩
  rcases holds_or_breaksAt memory pc with ⟨instruction, hbytes⟩ | ⟨reason, hbreaks⟩
  · cases hfails.symm.trans (Instruction.read_of_holds hbytes)
  · obtain ⟨other, hother⟩ := Instruction.fails_of_breaksAt hbreaks
    cases hfails.symm.trans hother
    exact hbreaks

/-- There is a reason not to read an instruction exactly where none lies in memory. -/
theorem exists_breaksAt_iff :
    (∃ e, BreaksAt memory pc e) ↔
      ∀ instruction : Instruction, ¬ memory.Holds pc instruction.bytes := by
  constructor
  · rintro ⟨e, hbreaks⟩ instruction hbytes
    obtain ⟨after, hfails⟩ := Instruction.fails_of_breaksAt hbreaks
    cases hfails.symm.trans (Instruction.read_of_holds hbytes)
  · intro hnone
    rcases holds_or_breaksAt memory pc with ⟨instruction, hbytes⟩ | hbreaks
    · exact absurd hbytes (hnone instruction)
    · exact hbreaks

end Script

end Chiptune
