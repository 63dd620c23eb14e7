import Chiptune.Memory
import Mathlib.Data.List.Induction
import Mathlib.Data.Nat.Notation

/-!
# What an image holds after loading

`Memory.load` places blocks one after the other and gives up at the first one that does not
fit.  This file says when it succeeds, what stands in the image then, and what the error is
otherwise (`Memory.load_exact`).

A block is either placed or refused (`loadBlock_of_fits`, `loadBlock_of_refused`), and which
of the two it is depends on the size of the image alone, which no block changes.  So the loop
has two outcomes: all blocks fit and are placed in turn (`foldlM_eq_ok_iff`), or a first one
does not (`foldlM_eq_error_iff`).  Of the bytes placed at an address the last one stays
(`get?_foldl_withBlock`).

Addresses and lengths are added as natural numbers, so that a block whose end would not be
a machine word is out of bounds like any other.
-/

namespace Chiptune

namespace Block

/-- An image of this size has room for the declared bytes, and the block carries them. -/
def Fits (b : Block) (size : ℕ) : Prop :=
  b.address.toNat + b.length.toNat ≤ size ∧ b.length.toNat ≤ b.data.length

/-- One of the declared bytes is for this address. -/
def Covers (b : Block) (address : ℕ) : Prop :=
  b.address.toNat ≤ address ∧ address < b.address.toNat + b.length.toNat

instance (b : Block) (size : ℕ) : Decidable (b.Fits size) :=
  inferInstanceAs (Decidable (_ ∧ _))

instance (b : Block) (address : ℕ) : Decidable (b.Covers address) :=
  inferInstanceAs (Decidable (_ ∧ _))

/-- The byte that a block has for an address which it covers. -/
def byteFor (b : Block) (address : ℕ) : Option UInt8 :=
  b.data[address - b.address.toNat]?

/-- Why an image of this size does not take a block.  That there is no room for it comes
before what it carries. -/
inductive Refused (size : ℕ) (b : Block) : LoadError → Prop where
  | outOfBounds : size < b.address.toNat + b.length.toNat →
      Refused size b (.outOfBounds b.address b.length size)
  | truncated : b.address.toNat + b.length.toNat ≤ size → b.data.length < b.length.toNat →
      Refused size b (.truncated b.address b.length b.data.length)

variable {b : Block} {size : ℕ}

theorem Refused.not_fits {e : LoadError} (h : b.Refused size e) : ¬ b.Fits size := by
  rintro ⟨hroom, hcarried⟩
  cases h with
  | outOfBounds hlt => omega
  | truncated _ hlt => omega

end Block

/-- The last block that covers an address. -/
def lastCovering (blocks : List Block) (address : ℕ) : Option Block :=
  blocks.reverse.find? fun b => b.Covers address

theorem lastCovering_append_singleton (blocks : List Block) (b : Block) (address : ℕ) :
    lastCovering (blocks ++ [b]) address =
      if b.Covers address then some b else lastCovering blocks address := by
  unfold lastCovering
  rw [List.reverse_append, List.reverse_singleton, List.singleton_append, List.find?_cons]
  by_cases hcovers : b.Covers address <;> simp [hcovers]

namespace Memory

/-- The image with the declared bytes of a block in their place. -/
def withBlock (m : Memory) (b : Block) : Memory :=
  m.putAll b.address.toNat (b.data.take b.length.toNat)

variable {m last : Memory} {b : Block} {blocks : List Block} {e : LoadError}

/-! ## One block -/

@[simp] theorem size_withBlock (m : Memory) (b : Block) : (m.withBlock b).size = m.size :=
  size_putAll m _ _

theorem get?_withBlock (h : b.Fits m.size) (address : ℕ) :
    (m.withBlock b).get? address =
      if b.Covers address then b.byteFor address else m.get? address := by
  obtain ⟨hroom, hcarried⟩ := h
  unfold withBlock
  rw [get?_putAll, List.length_take, Nat.min_eq_left hcarried]
  by_cases hcovers : b.Covers address
  · obtain ⟨hle, hlt⟩ := hcovers
    rw [if_pos ⟨hle, hlt, by omega⟩, if_pos ⟨hle, hlt⟩, Block.byteFor,
      List.getElem?_take_of_lt (by omega)]
  · rw [if_neg hcovers, if_neg]
    exact fun h => hcovers ⟨h.1, h.2.1⟩

theorem loadBlock_of_fits (h : b.Fits m.size) : m.loadBlock b = .ok (m.withBlock b) := by
  unfold loadBlock
  rw [if_neg (Nat.not_lt.mpr h.1), if_neg (Nat.not_lt.mpr h.2)]
  rfl

theorem loadBlock_of_refused (h : b.Refused m.size e) : m.loadBlock b = .error e := by
  unfold loadBlock
  cases h with
  | outOfBounds hlt => rw [if_pos hlt]
  | truncated hle hlt => rw [if_neg (Nat.not_lt.mpr hle), if_pos hlt]

theorem fits_or_refused (b : Block) (size : ℕ) : b.Fits size ∨ ∃ e, b.Refused size e := by
  rcases Nat.lt_or_ge size (b.address.toNat + b.length.toNat) with hlt | hroom
  · exact .inr ⟨_, .outOfBounds hlt⟩
  · rcases Nat.lt_or_ge b.data.length b.length.toNat with hlt | hcarried
    · exact .inr ⟨_, .truncated hroom hlt⟩
    · exact .inl ⟨hroom, hcarried⟩

/-! ## Blocks one after the other -/

theorem foldlM_cons_of_fits (h : b.Fits m.size) (rest : List Block) :
    (b :: rest).foldlM loadBlock m = rest.foldlM loadBlock (m.withBlock b) := by
  rw [List.foldlM_cons, loadBlock_of_fits h]
  rfl

theorem foldlM_cons_of_refused (h : b.Refused m.size e) (rest : List Block) :
    (b :: rest).foldlM loadBlock m = .error e := by
  rw [List.foldlM_cons, loadBlock_of_refused h]
  rfl

@[simp] theorem size_foldl_withBlock (blocks : List Block) (m : Memory) :
    (blocks.foldl withBlock m).size = m.size := by
  induction blocks generalizing m with
  | nil => rfl
  | cons b rest ih => rw [List.foldl_cons, ih, size_withBlock]

theorem foldlM_eq_ok_iff :
    blocks.foldlM loadBlock m = .ok last ↔
      (∀ b ∈ blocks, b.Fits m.size) ∧ last = blocks.foldl withBlock m := by
  induction blocks generalizing m with
  | nil =>
      rw [List.foldlM_nil, List.foldl_nil]
      constructor
      · intro h
        cases h
        exact ⟨fun b hb => absurd hb List.not_mem_nil, rfl⟩
      · rintro ⟨-, rfl⟩
        rfl
  | cons b rest ih =>
      rw [List.forall_mem_cons, List.foldl_cons]
      rcases fits_or_refused b m.size with hfits | ⟨e, hrefused⟩
      · rw [foldlM_cons_of_fits hfits, ih, size_withBlock]
        simp only [hfits, true_and]
      · rw [foldlM_cons_of_refused hrefused]
        constructor
        · intro h
          cases h
        · intro h
          exact absurd h.1.1 hrefused.not_fits

theorem foldlM_eq_error_iff :
    blocks.foldlM loadBlock m = .error e ↔
      ∃ before b after, blocks = before ++ b :: after ∧ (∀ x ∈ before, x.Fits m.size) ∧
        b.Refused m.size e := by
  induction blocks generalizing m with
  | nil =>
      constructor
      · intro h
        cases h
      · rintro ⟨before, b, after, hsplit, -⟩
        simp at hsplit
  | cons b rest ih =>
      rcases fits_or_refused b m.size with hfits | ⟨e', hrefused⟩
      · rw [foldlM_cons_of_fits hfits, ih, size_withBlock]
        constructor
        · rintro ⟨before, x, after, rfl, hbefore, hx⟩
          exact ⟨b :: before, x, after, rfl, List.forall_mem_cons.mpr ⟨hfits, hbefore⟩, hx⟩
        · rintro ⟨before, x, after, hsplit, hbefore, hx⟩
          cases before with
          | nil =>
              cases hsplit
              exact absurd hfits hx.not_fits
          | cons y before =>
              cases hsplit
              exact ⟨before, x, after, rfl, (List.forall_mem_cons.mp hbefore).2, hx⟩
      · rw [foldlM_cons_of_refused hrefused]
        constructor
        · intro h
          cases h
          exact ⟨[], b, rest, rfl, fun x hx => absurd hx List.not_mem_nil, hrefused⟩
        · rintro ⟨before, x, after, hsplit, hbefore, hx⟩
          cases before with
          | nil =>
              -- the block has one error only, since it is what loading it answers
              cases hsplit
              rw [← loadBlock_of_refused hrefused, loadBlock_of_refused hx]
          | cons y before =>
              cases hsplit
              exact absurd (List.forall_mem_cons.mp hbefore).1 hrefused.not_fits

/-- Where blocks overlap, the last of them has placed its byte. -/
theorem get?_foldl_withBlock (h : ∀ b ∈ blocks, b.Fits m.size) (address : ℕ) :
    (blocks.foldl withBlock m).get? address =
      (lastCovering blocks address).elim (m.get? address) (·.byteFor address) := by
  -- from the back, since the last block decides
  induction blocks using List.reverseRecOn with
  | nil => rfl
  | append_singleton blocks b ih =>
      obtain ⟨hblocks, hb⟩ := List.forall_mem_append.mp h
      have hfits : b.Fits (blocks.foldl withBlock m).size := by
        rw [size_foldl_withBlock]
        exact hb b List.mem_cons_self
      rw [List.foldl_append, List.foldl_cons, List.foldl_nil, get?_withBlock hfits, ih hblocks,
        lastCovering_append_singleton]
      by_cases hcovers : b.Covers address
      · rw [if_pos hcovers, if_pos hcovers]
        rfl
      · rw [if_neg hcovers, if_neg hcovers]

/-! ## Loading -/

/-- The image of this size that has only zeros. -/
def zeros (size : ℕ) : Memory :=
  ⟨⟨Array.replicate size 0⟩⟩

@[simp] theorem size_zeros (size : ℕ) : (zeros size).size = size :=
  Array.size_replicate

theorem get?_zeros {size address : ℕ} (h : address < size) :
    (zeros size).get? address = some 0 := by
  have hsize : address < (zeros size).bytes.size := lt_of_lt_of_eq h (size_zeros size).symm
  unfold get?
  rw [dif_pos hsize]
  exact congrArg some (Array.getElem_replicate _)

theorem load_of_size {size : ℕ} (h : 1 ≤ size ∧ size ≤ maxSize) (blocks : List Block) :
    load size blocks = blocks.foldlM loadBlock (zeros size) := by
  unfold load zeroed
  rw [if_neg (by omega)]
  rfl

theorem load_of_not_size {size : ℕ} (h : ¬ (1 ≤ size ∧ size ≤ maxSize)) (blocks : List Block) :
    load size blocks = .error (.invalidSize size) := by
  unfold load zeroed
  rw [if_pos (by omega)]
  rfl

/-- A block that fits is placed among zeros. -/
theorem load_singleton {size : ℕ} {block : Block} (hpos : 0 < size) (hmax : size ≤ maxSize)
    (hfits : block.address.toNat + block.length.toNat ≤ size)
    (hcarried : block.length.toNat ≤ block.data.length) :
    load size [block] = .ok (putAll ⟨⟨Array.replicate size 0⟩⟩ block.address.toNat
      (block.data.take block.length.toNat)) := by
  have hblock : block.Fits (zeros size).size := ⟨(size_zeros size).symm ▸ hfits, hcarried⟩
  rw [load_of_size ⟨hpos, hmax⟩, foldlM_cons_of_fits hblock]
  rfl

/-- Loading succeeds exactly if the size is allowed and all blocks fit.  Then every byte is
that of the last block that covers its address, and zero if there is none.  Otherwise the
error is that of the size, or else that of the first block that does not fit. -/
theorem load_exact (size : ℕ) (blocks : List Block) :
    ((∃ m, load size blocks = .ok m) ↔
      (1 ≤ size ∧ size ≤ maxSize) ∧ ∀ b ∈ blocks, b.Fits size) ∧
    (∀ m, load size blocks = .ok m →
      m.size = size ∧
        ∀ address < size,
          m.get? address = (lastCovering blocks address).elim (some 0) (·.byteFor address)) ∧
    (∀ e, load size blocks = .error e ↔
      ¬ (1 ≤ size ∧ size ≤ maxSize) ∧ e = .invalidSize size ∨
      (1 ≤ size ∧ size ≤ maxSize) ∧
        ∃ before b after, blocks = before ++ b :: after ∧ (∀ x ∈ before, x.Fits size) ∧
          b.Refused size e) := by
  by_cases hsize : 1 ≤ size ∧ size ≤ maxSize
  · have hok : ∀ m, load size blocks = .ok m ↔
        (∀ b ∈ blocks, b.Fits size) ∧ m = blocks.foldl withBlock (zeros size) := by
      intro m
      rw [load_of_size hsize, foldlM_eq_ok_iff, size_zeros]
    refine ⟨?_, fun m hm => ?_, fun e => ?_⟩
    · simp only [hok, exists_and_left, exists_eq, and_true, hsize, true_and]
    · obtain ⟨hfits, rfl⟩ := (hok m).mp hm
      rw [← size_zeros size] at hfits
      refine ⟨by rw [size_foldl_withBlock, size_zeros], fun address haddress => ?_⟩
      rw [get?_foldl_withBlock hfits, get?_zeros haddress]
    · rw [load_of_size hsize, foldlM_eq_error_iff, size_zeros]
      simp only [hsize, not_true_eq_false, false_and, false_or, true_and]
  · rw [load_of_not_size hsize]
    refine ⟨?_, fun m hm => (by cases hm), fun e => ?_⟩
    · simp only [hsize, false_and, reduceCtorEq, exists_false]
    · simp only [hsize, not_false_eq_true, true_and, false_and, or_false, Except.error.injEq,
        eq_comm]

/-- Two blocks overlap, and the first of them carries a byte that it does not declare. -/
theorem load_exact_overlapping :
    let blocks : List Block := [⟨0, 3, [1, 2, 3, 4]⟩, ⟨2, 1, [9]⟩]
    ∃ m, load 5 blocks = .ok m ∧ m.size = 5 ∧
      [m.get? 0, m.get? 1, m.get? 2, m.get? 3, m.get? 4] =
        [some 1, some 2, some 9, some 0, some 0] := by
  intro blocks
  obtain ⟨hiff, hbytes, -⟩ := load_exact 5 blocks
  obtain ⟨m, hm⟩ := hiff.mpr (by decide)
  obtain ⟨hsize, hget⟩ := hbytes m hm
  refine ⟨m, hm, hsize, ?_⟩
  rw [hget 0 (by decide), hget 1 (by decide), hget 2 (by decide), hget 3 (by decide),
    hget 4 (by decide)]
  decide

end Memory

end Chiptune
