import Chiptune.Numerals

/-!
# The memory image

Replay code and song data live in one flat array of bytes of a fixed size.  Addresses are natural
numbers, so an access that runs past the end is seen before anything could wrap.  The image is read
through `get?`, and `put` changes the one byte it names.
-/

namespace Chiptune

/-- An access to an address that the memory image does not have. -/
structure AddressFault where
  address : Nat
  deriving DecidableEq

def AddressFault.message (fault : AddressFault) : String :=
  "address " ++ Hex.marked 6 fault.address ++ " outside memory image"

/-- How many bytes an access covers. -/
inductive Width where
  | byte
  | word
  deriving DecidableEq

def Width.bytes : Width → Nat
  | .byte => 1
  | .word => 2

/-- A flat array of bytes. -/
structure Memory where
  bytes : ByteArray

instance : DecidableEq Memory := fun ⟨x⟩ ⟨y⟩ =>
  if h : x.data = y.data then isTrue (congrArg Memory.mk (ByteArray.ext h))
  else isFalse fun e => h (congrArg (·.bytes.data) e)

namespace Memory

def size (m : Memory) : Nat :=
  m.bytes.size

/-- The byte at an address inside the image. -/
def get? (m : Memory) (address : Nat) : Option UInt8 :=
  if h : address < m.bytes.size then some m.bytes[address] else none

/-- Replaces the byte at `address`; an address outside the image changes nothing. -/
def put (m : Memory) (address : Nat) (value : UInt8) : Memory :=
  match m with
  | ⟨bytes⟩ => if h : address < bytes.size then ⟨bytes.set address value h⟩ else ⟨bytes⟩

def putAll (m : Memory) (address : Nat) : List UInt8 → Memory
  | [] => m
  | value :: rest => (m.put address value).putAll (address + 1) rest

/-! ## Views of the operations -/

theorem get?_eq_none_iff {m : Memory} {address : Nat} :
    m.get? address = none ↔ m.size ≤ address := by
  unfold get? size
  split <;> simp_all

theorem get?_isSome_iff {m : Memory} {address : Nat} :
    (m.get? address).isSome ↔ address < m.size := by
  unfold get? size
  split <;> simp_all

@[simp] theorem size_put (m : Memory) (address : Nat) (value : UInt8) :
    (m.put address value).size = m.size := by
  obtain ⟨bytes⟩ := m
  unfold put
  dsimp only
  split
  · simp [size, ← ByteArray.size_data]
  · rfl

theorem get?_put (m : Memory) (address query : Nat) (value : UInt8) :
    (m.put address value).get? query =
      if query = address ∧ query < m.size then some value else m.get? query := by
  obtain ⟨bytes⟩ := m
  unfold put
  dsimp only
  split
  · rename_i h
    simp only [get?, size, ← ByteArray.size_data, ByteArray.data_set, Array.size_set,
      ByteArray.getElem_eq_getElem_data, Array.getElem_set]
    by_cases hq : query = address
    · subst hq
      simp [ByteArray.size_data, h]
    · have : ¬ address = query := fun e => hq e.symm
      simp [hq, this]
  · rename_i h
    simp only [get?, size]
    by_cases hq : query = address
    · subst hq
      simp [h]
    · simp [hq]

@[simp] theorem size_putAll (m : Memory) (address : Nat) (values : List UInt8) :
    (m.putAll address values).size = m.size := by
  induction values generalizing m address with
  | nil => rfl
  | cons value rest ih => rw [putAll, ih, size_put]

/-- Inside the image, the bytes from `address` on become the new ones. -/
theorem get?_putAll (m : Memory) (address query : Nat) (values : List UInt8) :
    (m.putAll address values).get? query =
      if address ≤ query ∧ query < address + values.length ∧ query < m.size then
        values[query - address]?
      else m.get? query := by
  induction values generalizing m address with
  | nil =>
    rw [if_neg (by simp only [List.length_nil]; omega)]
    rfl
  | cons value rest ih =>
    rw [putAll, ih, get?_put, size_put, List.length_cons]
    rcases Nat.lt_trichotomy query address with hlt | rfl | hgt
    · rw [if_neg (by omega), if_neg (by omega), if_neg (by omega)]
    · rw [if_neg (by omega), Nat.sub_self]
      by_cases hinside : query < m.size
      · rw [if_pos ⟨rfl, hinside⟩, if_pos (by omega)]
        rfl
      · rw [if_neg (by omega), if_neg (by omega)]
    · obtain ⟨k, rfl⟩ : ∃ k, query = address + 1 + k := ⟨query - (address + 1), by omega⟩
      have hoffset : address + 1 + k - address = k + 1 := by omega
      rw [if_neg (show ¬(address + 1 + k = address ∧ address + 1 + k < m.size) by omega),
        hoffset, Nat.add_sub_cancel_left, List.getElem?_cons_succ]
      by_cases hinside : k < rest.length ∧ address + 1 + k < m.size
      · rw [if_pos (by omega), if_pos (by omega)]
      · rw [if_neg (by omega), if_neg (by omega)]

/-! ## Accesses that may fail

A failed access reports the first address it covers that is not in the image.
-/

/-- Whether an access lies inside the image. -/
def covers (m : Memory) (address : Nat) (width : Width) : Bool :=
  address + width.bytes ≤ m.size

/-- The fault of an access that does not lie inside the image. -/
def faultAt (m : Memory) (address : Nat) : AddressFault :=
  ⟨max address m.size⟩

def readByte (m : Memory) (address : Nat) : Except AddressFault UInt8 :=
  match m.get? address with
  | some value => .ok value
  | none => .error ⟨address⟩

/-- The two bytes from `address` on, the lower one first. -/
def readPair (m : Memory) (address : Nat) : Except AddressFault (UInt8 × UInt8) :=
  match m.get? address, m.get? (address + 1) with
  | some first, some second => .ok (first, second)
  | _, _ => .error (m.faultAt address)

def wordOf (high low : UInt8) : UInt16 :=
  high.toUInt16 <<< 8 ||| low.toUInt16

theorem toNat_wordOf (high low : UInt8) :
    (wordOf high low).toNat = 256 * high.toNat + low.toNat := by
  have hhigh := high.toNat_lt
  have hlow := low.toNat_lt
  have hshift : high.toNat <<< 8 = high.toNat * 256 := Nat.shiftLeft_eq _ 8
  calc (wordOf high low).toNat
      = high.toNat <<< 8 % 65536 ||| low.toNat := by
        simp only [wordOf, UInt16.toNat_or, UInt16.toNat_shiftLeft, UInt8.toNat_toUInt16]
        rfl
    _ = high.toNat <<< 8 ||| low.toNat := by rw [hshift, Nat.mod_eq_of_lt (by omega)]
    _ = high.toNat <<< 8 + low.toNat := (Nat.shiftLeft_add_eq_or_of_lt hlow _).symm
    _ = 256 * high.toNat + low.toNat := by omega

/-- The word at `address` whose low byte comes first. -/
def readWord (m : Memory) (address : Nat) : Except AddressFault UInt16 :=
  (m.readPair address).map fun (low, high) => wordOf high low

/-- The word at `address` whose high byte comes first. -/
def readWordHighFirst (m : Memory) (address : Nat) : Except AddressFault UInt16 :=
  (m.readPair address).map fun (high, low) => wordOf high low

/-- A byte, or a word whose low byte comes first. -/
def read (m : Memory) (address : Nat) : Width → Except AddressFault Nat
  | .byte => (m.readByte address).map UInt8.toNat
  | .word => (m.readWord address).map UInt16.toNat

def writeByte (m : Memory) (address : Nat) (value : UInt8) : Except AddressFault Memory :=
  if address < m.size then .ok (m.put address value) else .error ⟨address⟩

/-- Stores the low bytes of `value`, the lowest first. -/
def write (m : Memory) (address : Nat) (width : Width) (value : UInt32) :
    Except AddressFault Memory :=
  if m.covers address width then
    .ok <| match width with
      | .byte => m.put address value.toUInt8
      | .word => (m.put address value.toUInt8).put (address + 1) (value >>> 8).toUInt8
  else .error (m.faultAt address)

end Memory

/-! ## Loading blocks

A memory image is built from blocks of bytes placed in order, later ones over earlier ones.  A
block declares how many of its bytes are meant; it has to carry that many and to fit. -/

/-- A run of bytes for a fixed address. -/
structure Block where
  address : UInt32
  /-- How many bytes are placed; what the block carries beyond them is left out. -/
  length : UInt64
  data : List UInt8
  deriving DecidableEq

/-- A block that declares all it carries. -/
def Block.whole (address : UInt32) (data : List UInt8) : Block :=
  ⟨address, data.length.toUInt64, data⟩

/-- Why a memory image cannot be built. -/
inductive LoadError where
  | invalidSize (size : Nat)
  | outOfBounds (address : UInt32) (length : UInt64) (size : Nat)
  | truncated (address : UInt32) (declared : UInt64) (carried : Nat)
  deriving DecidableEq

namespace Memory

/-- The largest image: two mebibytes. -/
def maxSize : Nat := 0x200000

def zeroed (size : Nat) : Except LoadError Memory :=
  if size = 0 ∨ maxSize < size then .error (.invalidSize size)
  else .ok ⟨⟨Array.replicate size 0⟩⟩

def loadBlock (m : Memory) (block : Block) : Except LoadError Memory :=
  if m.size < block.address.toNat + block.length.toNat then
    .error (.outOfBounds block.address block.length m.size)
  else if block.data.length < block.length.toNat then
    .error (.truncated block.address block.length block.data.length)
  else
    .ok (m.putAll block.address.toNat (block.data.take block.length.toNat))

/-- An image of `size` bytes with the blocks placed in order. -/
def load (size : Nat) (blocks : List Block) : Except LoadError Memory := do
  blocks.foldlM loadBlock (← zeroed size)

end Memory

def LoadError.message : LoadError → String
  | .invalidSize size =>
    "memory size " ++ Hex.marked 0 size ++ " must be between 1 and " ++
      Hex.marked 0 Memory.maxSize ++ " bytes"
  | .outOfBounds address length size =>
    "block at " ++ Hex.marked 6 address.toNat ++ " (+" ++ Hex.marked 0 length.toNat ++
      ") exceeds memory size " ++ Hex.marked 0 size
  | .truncated address declared carried =>
    "block at " ++ Hex.marked 6 address.toNat ++ " declares " ++ toString declared.toNat ++
      " bytes but carries " ++ toString carried

end Chiptune
