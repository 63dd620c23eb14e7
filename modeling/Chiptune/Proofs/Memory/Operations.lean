import Chiptune.Proofs.Memory.Loading
import Mathlib.Order.Bounds.Defs

/-!
# The image is an array of bytes

Reads, writes and blocks may come in any order, and some of them fail.  After any of them
the image is an array of as many bytes as before, each of them what was stored there last
(`Memory.get?_after`), and the next operation is answered as on such an array
(`Memory.Answers`).  Both together are `Memory.behaves_as_bytes`.

Whether an operation is allowed depends on the size alone: an access has to end inside the
image, and a block has to fit.  The accesses are implemented apart from each other, single
bytes by a look-up and words by a range, yet all of them do one of two things.  What is
allowed gives the value of its bytes and puts what it stores in one piece
(`perform_of_allowed`), and an access that is not allowed fails with `faultAt` and changes
nothing (`perform_of_outside`).
-/

namespace Chiptune

namespace Memory

/-- What can be asked of an image. -/
inductive Operation where
  | read (address : UInt32) (width : Width)
  | readByte (address : UInt32)
  | readWordHighFirst (address : UInt32)
  | write (address : UInt32) (width : Width) (value : UInt32)
  | writeByte (address : UInt32) (value : UInt8)
  | loadBlock (block : Block)

/-- What comes of an operation. -/
inductive Answer where
  | value (value : ℕ)
  | done
  | fault (fault : AddressFault)
  | refused (error : LoadError)

def Answer.succeeded : Answer → Bool
  | .value _ | .done => true
  | .fault _ | .refused _ => false

/-- The answer to a read, which leaves the image as it is. -/
def answerRead (m : Memory) : Except AddressFault ℕ → Answer × Memory
  | .ok value => (.value value, m)
  | .error fault => (.fault fault, m)

/-- The answer to a write, which leaves the image as it is if it fails. -/
def answerWrite (m : Memory) : Except AddressFault Memory → Answer × Memory
  | .ok next => (.done, next)
  | .error fault => (.fault fault, m)

/-- Carries out an operation. -/
def perform (m : Memory) : Operation → Answer × Memory
  | .read address width => m.answerRead (m.read address.toNat width)
  | .readByte address => m.answerRead ((m.readByte address.toNat).map UInt8.toNat)
  | .readWordHighFirst address =>
    m.answerRead ((m.readWordHighFirst address.toNat).map UInt16.toNat)
  | .write address width value => m.answerWrite (m.write address.toNat width value)
  | .writeByte address value => m.answerWrite (m.writeByte address.toNat value)
  | .loadBlock block =>
    match m.loadBlock block with
    | .ok next => (.done, next)
    | .error e => (.refused e, m)

/-- The image after operations, those that fail among them. -/
def after (m : Memory) (history : List Operation) : Memory :=
  history.foldl (fun m op => (m.perform op).2) m

/-- The byte at an address; outside the image it is zero. -/
def byteAt (m : Memory) (address : ℕ) : UInt8 :=
  (m.get? address).getD 0

/-- The low bytes of a value, the lowest first. -/
def lowBytes (value : UInt32) (width : Width) : List UInt8 :=
  (List.range width.bytes).map fun k => (value.toNat / Nat.pow 256 k).toUInt8

namespace Operation

/-- The first address of an access and how many bytes it covers. -/
def access? : Operation → Option (ℕ × ℕ)
  | read address width => some (address.toNat, width.bytes)
  | readByte address => some (address.toNat, 1)
  | readWordHighFirst address => some (address.toNat, 2)
  | write address width _ => some (address.toNat, width.bytes)
  | writeByte address _ => some (address.toNat, 1)
  | loadBlock _ => none

/-- An access ends inside an image of this size, and a block fits. -/
def Allowed (size : ℕ) : Operation → Prop
  | read address width => address.toNat + width.bytes ≤ size
  | readByte address => address.toNat + 1 ≤ size
  | readWordHighFirst address => address.toNat + 2 ≤ size
  | write address width _ => address.toNat + width.bytes ≤ size
  | writeByte address _ => address.toNat + 1 ≤ size
  | loadBlock block => block.Fits size

instance (size : ℕ) : DecidablePred (Allowed size)
  | read _ _ => inferInstanceAs (Decidable (_ ≤ _))
  | readByte _ => inferInstanceAs (Decidable (_ ≤ _))
  | readWordHighFirst _ => inferInstanceAs (Decidable (_ ≤ _))
  | write _ _ _ => inferInstanceAs (Decidable (_ ≤ _))
  | writeByte _ _ => inferInstanceAs (Decidable (_ ≤ _))
  | loadBlock block => inferInstanceAs (Decidable (block.Fits size))

/-- The value that a read has, if these are the bytes of the image. -/
def value? (byte : ℕ → UInt8) : Operation → Option ℕ
  | read address .byte => some (byte address.toNat).toNat
  | read address .word =>
    some ((byte address.toNat).toNat + 256 * (byte (address.toNat + 1)).toNat)
  | readByte address => some (byte address.toNat).toNat
  | readWordHighFirst address =>
    some (256 * (byte address.toNat).toNat + (byte (address.toNat + 1)).toNat)
  | write _ _ _ | writeByte _ _ | loadBlock _ => none

/-- The bytes that an operation stores, and the address of the first one. -/
def stores : Operation → ℕ × List UInt8
  | write address width value => (address.toNat, lowBytes value width)
  | writeByte address value => (address.toNat, [value])
  | loadBlock block => (block.address.toNat, block.data.take block.length.toNat)
  | read _ _ | readByte _ | readWordHighFirst _ => (0, [])

/-- What an operation stores at an address of an image of this size. -/
def stored? (size address : ℕ) (op : Operation) : Option UInt8 :=
  if op.Allowed size ∧ op.stores.1 ≤ address then op.stores.2[address - op.stores.1]? else none

theorem allowed_iff {op : Operation} {size address bytes : ℕ}
    (h : op.access? = some (address, bytes)) : op.Allowed size ↔ address + bytes ≤ size := by
  cases op <;> cases h <;> exact Iff.rfl

end Operation

/-- What was stored last at an address of an image of this size. -/
def lastStored (size address : ℕ) (history : List Operation) : Option UInt8 :=
  (history.filterMap (Operation.stored? size address)).getLast?

/-- An operation is answered as on an array of bytes. -/
structure Answers (m : Memory) (op : Operation) (answer : Answer) (next : Memory) : Prop where
  size : next.size = m.size
  succeeded_iff : answer.succeeded = true ↔ op.Allowed m.size
  /-- A read has the value of the bytes that it covers. -/
  value : op.Allowed m.size → answer = (op.value? m.byteAt).elim .done .value
  /-- What is stored is in its place, and no other byte changes. -/
  stored : op.Allowed m.size → ∀ address,
    next.get? address =
      (m.get? address).map fun byte => (op.stored? m.size address).getD byte
  unchanged : ¬ op.Allowed m.size → next = m
  /-- An access that fails reports the first address it covers that is not in the image. -/
  fault : ∀ address bytes, op.access? = some (address, bytes) → ¬ op.Allowed m.size →
    ∃ fault, answer = .fault fault ∧
      IsLeast {x | address ≤ x ∧ x < address + bytes ∧ m.size ≤ x} fault.address
  refused : ∀ block, op = .loadBlock block → ¬ op.Allowed m.size →
    ∃ e, answer = .refused e ∧ block.Refused m.size e

variable {m : Memory} {op : Operation} {address bytes : ℕ}

/-! ## Single accesses -/

theorem get?_of_lt (h : address < m.size) : m.get? address = some (m.byteAt address) := by
  obtain ⟨byte, hbyte⟩ := Option.isSome_iff_exists.mp (get?_isSome_iff.mpr h)
  unfold byteAt
  rw [hbyte, Option.getD_some]

theorem faultAt_of_le (h : m.size ≤ address) : m.faultAt address = ⟨address⟩ := by
  unfold faultAt
  rw [Nat.max_eq_left h]

theorem readByte_of_lt (h : address < m.size) : m.readByte address = .ok (m.byteAt address) := by
  unfold readByte
  rw [get?_of_lt h]

theorem readByte_of_le (h : m.size ≤ address) :
    m.readByte address = .error (m.faultAt address) := by
  unfold readByte
  rw [get?_eq_none_iff.mpr h, faultAt_of_le h]

theorem readPair_of_lt (h : address + 1 < m.size) :
    m.readPair address = .ok (m.byteAt address, m.byteAt (address + 1)) := by
  unfold readPair
  rw [get?_of_lt (Nat.lt_of_succ_lt h), get?_of_lt h]

theorem readPair_of_le (h : m.size ≤ address + 1) :
    m.readPair address = .error (m.faultAt address) := by
  unfold readPair
  rw [get?_eq_none_iff.mpr h]
  cases m.get? address <;> rfl

theorem readWordHighFirst_of_lt (h : address + 1 < m.size) :
    (m.readWordHighFirst address).map UInt16.toNat =
      .ok (256 * (m.byteAt address).toNat + (m.byteAt (address + 1)).toNat) := by
  unfold readWordHighFirst
  rw [readPair_of_lt h, ← toNat_wordOf]
  rfl

theorem readWord_of_lt (h : address + 1 < m.size) :
    (m.readWord address).map UInt16.toNat =
      .ok ((m.byteAt address).toNat + 256 * (m.byteAt (address + 1)).toNat) := by
  unfold readWord
  rw [readPair_of_lt h, Nat.add_comm (m.byteAt address).toNat, ← toNat_wordOf]
  rfl

theorem read_of_not_le {width : Width} (h : ¬ address + width.bytes ≤ m.size) :
    m.read address width = .error (m.faultAt address) := by
  have hle : m.size < address + width.bytes := Nat.not_le.mp h
  cases width with
  | byte =>
      unfold read
      rw [readByte_of_le (Nat.le_of_lt_succ hle)]
      rfl
  | word =>
      unfold read readWord
      rw [readPair_of_le (Nat.le_of_lt_succ hle)]
      rfl

theorem lowBytes_byte (value : UInt32) : lowBytes value .byte = [value.toUInt8] := by
  show [(value.toNat / 1).toUInt8] = _
  rw [Nat.div_one]
  rfl

theorem lowBytes_word (value : UInt32) :
    lowBytes value .word = [value.toUInt8, (value >>> 8).toUInt8] := by
  have hshift : (value >>> 8).toNat = value.toNat / 256 := by
    rw [UInt32.toNat_shiftRight]
    exact Nat.shiftRight_eq_div_pow _ 8
  show [(value.toNat / 1).toUInt8, (value.toNat / 256).toUInt8] = _
  rw [Nat.div_one, ← hshift]
  rfl

theorem write_of_le {width : Width} {value : UInt32} (h : address + width.bytes ≤ m.size) :
    m.write address width value = .ok (m.putAll address (lowBytes value width)) := by
  unfold write covers
  rw [if_pos (decide_eq_true h)]
  cases width with
  | byte =>
      rw [lowBytes_byte]
      rfl
  | word =>
      rw [lowBytes_word]
      rfl

theorem write_of_not_le {width : Width} {value : UInt32} (h : ¬ address + width.bytes ≤ m.size) :
    m.write address width value = .error (m.faultAt address) := by
  unfold write covers
  rw [if_neg (by simpa using h)]

theorem writeByte_of_lt {value : UInt8} (h : address < m.size) :
    m.writeByte address value = .ok (m.putAll address [value]) := by
  unfold writeByte
  rw [if_pos h]
  rfl

theorem writeByte_of_le {value : UInt8} (h : m.size ≤ address) :
    m.writeByte address value = .error (m.faultAt address) := by
  unfold writeByte
  rw [if_neg (Nat.not_lt.mpr h), faultAt_of_le h]

/-! ## One operation -/

/-- What is allowed succeeds and stores its bytes in one piece. -/
theorem perform_of_allowed (h : op.Allowed m.size) :
    m.perform op = ((op.value? m.byteAt).elim .done .value, m.putAll op.stores.1 op.stores.2) := by
  cases op with
  | read address width =>
      cases width with
      | byte =>
          show m.answerRead ((m.readByte address.toNat).map UInt8.toNat) = _
          rw [readByte_of_lt h]
          rfl
      | word =>
          show m.answerRead ((m.readWord address.toNat).map UInt16.toNat) = _
          rw [readWord_of_lt h]
          rfl
  | readByte address =>
      show m.answerRead ((m.readByte address.toNat).map UInt8.toNat) = _
      rw [readByte_of_lt h]
      rfl
  | readWordHighFirst address =>
      show m.answerRead ((m.readWordHighFirst address.toNat).map UInt16.toNat) = _
      rw [readWordHighFirst_of_lt h]
      rfl
  | write address width value =>
      show m.answerWrite (m.write address.toNat width value) = _
      rw [write_of_le h]
      rfl
  | writeByte address value =>
      show m.answerWrite (m.writeByte address.toNat value) = _
      rw [writeByte_of_lt h]
      rfl
  | loadBlock block =>
      unfold perform
      simp only [loadBlock_of_fits h]
      rfl

/-- An access that is not allowed fails and leaves the image as it is. -/
theorem perform_of_outside (hop : op.access? = some (address, bytes))
    (h : ¬ op.Allowed m.size) : m.perform op = (.fault (m.faultAt address), m) := by
  cases op with
  | read address width =>
      cases hop
      show m.answerRead (m.read address.toNat width) = _
      rw [read_of_not_le h]
      rfl
  | readByte address =>
      cases hop
      show m.answerRead ((m.readByte address.toNat).map UInt8.toNat) = _
      rw [readByte_of_le (Nat.le_of_lt_succ (Nat.not_le.mp h))]
      rfl
  | readWordHighFirst address =>
      cases hop
      show m.answerRead ((m.readWordHighFirst address.toNat).map UInt16.toNat) = _
      unfold readWordHighFirst
      rw [readPair_of_le (Nat.le_of_lt_succ (Nat.not_le.mp h))]
      rfl
  | write address width value =>
      cases hop
      show m.answerWrite (m.write address.toNat width value) = _
      rw [write_of_not_le h]
      rfl
  | writeByte address value =>
      cases hop
      show m.answerWrite (m.writeByte address.toNat value) = _
      rw [writeByte_of_le (Nat.le_of_lt_succ (Nat.not_le.mp h))]
      rfl
  | loadBlock block => cases hop

theorem perform_of_refused {block : Block} {e : LoadError} (h : block.Refused m.size e) :
    m.perform (.loadBlock block) = (.refused e, m) := by
  unfold perform
  simp only [loadBlock_of_refused h]

/-- There are two ways for an operation not to be allowed. -/
theorem failed_cases (h : ¬ op.Allowed m.size) :
    (∃ address bytes, op.access? = some (address, bytes)) ∨
      ∃ block e, op = .loadBlock block ∧ block.Refused m.size e := by
  cases op with
  | loadBlock block =>
      obtain hfits | ⟨e, hrefused⟩ := fits_or_refused block m.size
      · exact absurd hfits h
      · exact .inr ⟨block, e, rfl, hrefused⟩
  | _ => exact .inl ⟨_, _, rfl⟩

theorem perform_of_not_allowed (h : ¬ op.Allowed m.size) :
    (m.perform op).1.succeeded = false ∧ (m.perform op).2 = m := by
  rcases failed_cases h with ⟨address, bytes, hop⟩ | ⟨block, e, rfl, hrefused⟩
  · rw [perform_of_outside hop h]
    exact ⟨rfl, rfl⟩
  · rw [perform_of_refused hrefused]
    exact ⟨rfl, rfl⟩

@[simp] theorem size_perform (m : Memory) (op : Operation) : (m.perform op).2.size = m.size := by
  by_cases h : op.Allowed m.size
  · rw [perform_of_allowed h, size_putAll]
  · rw [(perform_of_not_allowed h).2]

/-- Allowed or not, an operation leaves its own bytes and those that it does not store. -/
theorem get?_perform (m : Memory) (op : Operation) (address : ℕ) :
    (m.perform op).2.get? address =
      (m.get? address).map fun byte => (op.stored? m.size address).getD byte := by
  unfold Operation.stored?
  by_cases h : op.Allowed m.size
  · rw [perform_of_allowed h, get?_putAll]
    cases hget : m.get? address with
    | none =>
        have hle := get?_eq_none_iff.mp hget
        rw [if_neg (by omega)]
        rfl
    | some byte =>
        have hlt := get?_isSome_iff.mp (Option.isSome_of_eq_some hget)
        by_cases hcovers : op.stores.1 ≤ address ∧ address < op.stores.1 + op.stores.2.length
        · obtain ⟨hle, hend⟩ := hcovers
          have hindex : address - op.stores.1 < op.stores.2.length := by omega
          rw [if_pos ⟨hle, hend, hlt⟩, if_pos ⟨h, hle⟩, List.getElem?_eq_getElem hindex]
          rfl
        · rw [if_neg (fun hall => hcovers ⟨hall.1, hall.2.1⟩)]
          -- below its first byte and behind its last one an operation stores nothing
          split
          · rw [List.getElem?_eq_none (by omega)]
            rfl
          · rfl
  · rw [(perform_of_not_allowed h).2, if_neg (fun hall => h hall.1)]
    cases m.get? address <;> rfl

/-- The first address of a failing access that is outside is its own, or the first one
there is outside. -/
theorem isLeast_faultAt (hpos : 0 < bytes) (h : ¬ address + bytes ≤ m.size) :
    IsLeast {x | address ≤ x ∧ x < address + bytes ∧ m.size ≤ x} (m.faultAt address).address := by
  have hlt : m.faultAt address = ⟨max address m.size⟩ := rfl
  rw [hlt]
  refine ⟨⟨Nat.le_max_left _ _, ?_, Nat.le_max_right _ _⟩, ?_⟩
  · exact Nat.max_lt.mpr ⟨by omega, Nat.not_le.mp h⟩
  · rintro x ⟨haddress, -, hsize⟩
    exact Nat.max_le.mpr ⟨haddress, hsize⟩

theorem pos_of_access? (h : op.access? = some (address, bytes)) : 0 < bytes := by
  cases op with
  | read _ width => cases h; cases width <;> decide
  | write _ width _ => cases h; cases width <;> decide
  | loadBlock _ => cases h
  | _ => cases h; decide

theorem answers_perform (m : Memory) (op : Operation) :
    m.Answers op (m.perform op).1 (m.perform op).2 where
  size := size_perform m op
  succeeded_iff := by
    by_cases h : op.Allowed m.size
    · rw [perform_of_allowed h]
      cases op.value? m.byteAt <;> exact iff_of_true rfl h
    · rw [(perform_of_not_allowed h).1]
      exact iff_of_false Bool.false_ne_true h
  value h := by rw [perform_of_allowed h]
  stored _ := get?_perform m op
  unchanged h := (perform_of_not_allowed h).2
  fault address bytes hop h := by
    rw [perform_of_outside hop h]
    refine ⟨m.faultAt address, rfl, isLeast_faultAt (pos_of_access? hop) ?_⟩
    rwa [← Operation.allowed_iff hop]
  refused block hop h := by
    subst hop
    obtain hfits | ⟨e, hrefused⟩ := fits_or_refused block m.size
    · exact absurd hfits h
    · rw [perform_of_refused hrefused]
      exact ⟨e, rfl, hrefused⟩

/-! ## Histories -/

theorem after_append_singleton (m : Memory) (history : List Operation) (op : Operation) :
    m.after (history ++ [op]) = ((m.after history).perform op).2 := by
  unfold after
  rw [List.foldl_append]
  rfl

@[simp] theorem size_after (m : Memory) (history : List Operation) :
    (m.after history).size = m.size := by
  induction history using List.reverseRecOn with
  | nil => rfl
  | append_singleton history op ih => rw [after_append_singleton, size_perform, ih]

theorem lastStored_append_singleton (size address : ℕ) (history : List Operation)
    (op : Operation) :
    lastStored size address (history ++ [op]) =
      (op.stored? size address).or (lastStored size address history) := by
  unfold lastStored
  rw [List.filterMap_append, List.getLast?_append]
  cases hstored : op.stored? size address <;> simp [hstored]

/-- Every byte is what was stored there last. -/
theorem get?_after (m : Memory) (history : List Operation) (address : ℕ) :
    (m.after history).get? address =
      (m.get? address).map fun byte => (lastStored m.size address history).getD byte := by
  induction history using List.reverseRecOn with
  | nil => exact Option.map_id'.symm
  | append_singleton history op ih =>
      rw [after_append_singleton, get?_perform, ih, Option.map_map, size_after,
        lastStored_append_singleton]
      congr 1
      funext byte
      cases op.stored? m.size address <;> rfl

/-- Whatever has been asked of an image, successfully or not, it has its old size, every
byte is what was stored there last, and the next operation is answered from these bytes. -/
theorem behaves_as_bytes (m : Memory) (history : List Operation) :
    (m.after history).size = m.size ∧
      (∀ address, (m.after history).get? address =
        (m.get? address).map fun byte => (lastStored m.size address history).getD byte) ∧
      ∀ op, (m.after history).Answers op ((m.after history).perform op).1
        ((m.after history).perform op).2 :=
  ⟨size_after m history, get?_after m history, fun op => answers_perform (m.after history) op⟩

/-- A byte over the upper half of a word, and then a word of which only the lower half has
room. -/
theorem behaves_as_bytes_overlapping :
    let history : List Operation := [.write 1 .word 0xABCD, .writeByte 2 0x11, .write 3 .word 7]
    let now := (zeros 4).after history
    (now.perform (.read 1 .word)).1 = .value 0x11CD ∧
      (now.perform (.read 3 .word)).1 = .fault ⟨4⟩ := by
  intro history now
  obtain ⟨hsize, hget, hanswers⟩ := behaves_as_bytes (zeros 4) history
  have hlow : now.byteAt 1 = 0xCD := by
    unfold byteAt
    rw [hget 1]
    decide
  have hhigh : now.byteAt 2 = 0x11 := by
    unfold byteAt
    rw [hget 2]
    decide
  constructor
  · have hallowed : (Operation.read 1 .word).Allowed now.size := by
      rw [hsize]
      decide
    rw [(hanswers _).value hallowed]
    show Answer.value ((now.byteAt 1).toNat + 256 * (now.byteAt 2).toNat) = _
    rw [hlow, hhigh]
    rfl
  · have hfailed : ¬ (Operation.read 3 .word).Allowed now.size := by
      rw [hsize]
      decide
    obtain ⟨⟨address⟩, hfault, ⟨-, -, hge⟩, hleast⟩ := (hanswers _).fault 3 2 rfl hfailed
    have hsize' : now.size = 4 := hsize
    have hmem : 3 ≤ 4 ∧ 4 < 3 + 2 ∧ now.size ≤ 4 :=
      ⟨by decide, by decide, Nat.le_of_eq hsize'⟩
    have haddress : address = 4 := Nat.le_antisymm (hleast hmem) (hsize' ▸ hge)
    rw [hfault, haddress]

end Memory

end Chiptune
