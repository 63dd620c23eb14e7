import Chiptune.Binary64
import Mathlib

/-!
# The words of doubles

Floating operations unpack the words of their operands, work on signs, whole significands and
exponents, and pack the result into a word again.  Nothing is lost on this way if there is a word
for the result (`unpack_pack`), as there is for all that comes out of a word (`fits_unpack`).  A
result whose exponent is too large comes back as an infinity (`unpack_pack_of_lt`).

What is read directly from the bits of a double is the same that unpacking finds (`view_eq`).
-/

namespace Chiptune.Binary64

open Float.Model Float.Model.UnpackedFloat

/-- The 64 bits of a double. -/
abbrev Word := BitVec Format.binary64.numBits

/-- The exponent of the last binary place of the largest numbers. -/
def greatestExponent : ℤ := 971

/-- A significand and an exponent as they come out of a word.  The significand has 53 binary
digits, or fewer if the exponent is the least one. -/
structure Canonical (m : ℕ) (e : ℤ) : Prop where
  lt : m < 2 * hiddenBit
  least_le : leastExponent ≤ e
  full : hiddenBit ≤ m ∨ e = leastExponent

/-- There is a word for it. -/
def Fits : UnpackedFloat → Prop
  | .finite _ m e _ => Canonical m e ∧ e ≤ greatestExponent
  | _ => True

/-- What the fields of a word hold. -/
structure Fields (b : Word) (sign : Sign) (field fraction : ℕ) : Prop where
  sign : Sign.ofBitVec (unpackSign b) = sign
  field : (unpackExponent b).toNat = field
  fraction : (unpackMantissa b).toNat = fraction

/-! ## Unpacking -/

section
variable {b : Word} {sign : Sign} {field fraction : ℕ}

theorem toNat_implicit (m : BitVec 52) : (1#1 ++ m).toNat = hiddenBit + m.toNat := by
  rw [BitVec.toNat_append, ← Nat.shiftLeft_add_eq_or_of_lt m.isLt]
  rfl

theorem unpack_eq (h : Fields b sign field fraction) :
    unpack Format.binary64 b =
      if field = 2047 then
        if fraction = 0 then .infinity sign else .notANumber
      else if field = 0 then
        if hf : fraction = 0 then .zero sign
        else .finite sign fraction leastExponent (Nat.pos_of_ne_zero hf)
      else .finite sign (hiddenBit + fraction) (field - 1075) (Nat.add_pos_left (by decide) _) := by
  obtain ⟨rfl, rfl, rfl⟩ := h
  have hmax : unpackExponent b = -1#11 ↔ (unpackExponent b).toNat = 2047 := BitVec.toNat_inj.symm
  have hzero : unpackExponent b = 0#11 ↔ (unpackExponent b).toNat = 0 := BitVec.toNat_inj.symm
  have hfraction : unpackMantissa b = 0#52 ↔ (unpackMantissa b).toNat = 0 := BitVec.toNat_inj.symm
  unfold UnpackedFloat.unpack
  simp only [hmax, hzero, hfraction, toNat_implicit]
  split
  · rfl
  split
  case isTrue hfield =>
    simp only [hfield]
    rfl
  case isFalse => rfl

theorem fits_unpack (b : Word) : Fits (unpack Format.binary64 b) := by
  have hfield : (unpackExponent b).toNat < 2048 := (unpackExponent b).isLt
  have hfraction : (unpackMantissa b).toNat < hiddenBit := (unpackMantissa b).isLt
  rw [unpack_eq (b := b) ⟨rfl, rfl, rfl⟩]
  generalize (unpackExponent b).toNat = field at hfield
  generalize (unpackMantissa b).toNat = fraction at hfraction
  split_ifs with hmax hnan hsubnormal hzero
  · trivial
  · trivial
  · trivial
  · exact ⟨⟨by omega, Int.le_refl _, Or.inr rfl⟩, by decide⟩
  · exact ⟨⟨by omega, by unfold leastExponent; omega, Or.inl (Nat.le_add_right _ _)⟩,
      by unfold greatestExponent; omega⟩

/-- How an unpacked double is viewed.  A zero has the least exponent. -/
def viewOf : UnpackedFloat → View
  | .notANumber => .nan
  | .infinity s => .infinite (s == .negative)
  | .zero s => .finite ⟨s == .negative, 0, leastExponent⟩
  | .finite s m e _ => .finite ⟨s == .negative, m, e⟩

theorem viewOf_unpack (h : Fields b sign field fraction) :
    viewOf (unpack Format.binary64 b) =
      if field = 2047 then if fraction = 0 then .infinite (sign == .negative) else .nan
      else if field = 0 then .finite ⟨sign == .negative, fraction, leastExponent⟩
      else .finite ⟨sign == .negative, hiddenBit + fraction, field - 1075⟩ := by
  rw [unpack_eq h]
  split_ifs with _ _ _ hzero
  · rfl
  · rfl
  · rw [hzero]
    rfl
  · rfl
  · rfl

/-- The fields of a word, taken from it as a number. -/
theorem fields_of_toNat (b : Word) :
    Fields b (if b.toNat >>> 63 == 1 then .negative else .positive) (b.toNat / hiddenBit % 2048)
      (b.toNat % hiddenBit) where
  sign := by
    have hword : b.toNat < 2 ^ 64 := b.isLt
    have hsign : (unpackSign b).toNat = b.toNat >>> 63 := by
      rw [unpackSign, BitVec.toNat_cast, BitVec.extractLsb_toNat, Nat.shiftRight_eq_div_pow,
        Nat.shiftRight_eq_div_pow]
      exact Nat.mod_eq_of_lt (Nat.div_lt_of_lt_mul hword)
    rw [← hsign]
    rcases BitVec.eq_zero_or_eq_one (unpackSign b) with hbit | hbit <;> rw [hbit] <;> rfl
  field := by
    rw [unpackExponent, BitVec.toNat_cast, BitVec.extractLsb_toNat, Nat.shiftRight_eq_div_pow]
    rfl
  fraction := by
    rw [unpackMantissa, BitVec.toNat_cast, BitVec.extractLsb_toNat]
    rfl

theorem view_eq (x : Float) : view x = viewOf x.toModel.unpack := by
  have hsign (c : Bool) : ((if c then Sign.negative else Sign.positive) == .negative) = c := by
    cases c <;> rfl
  unfold view
  simp only [beq_iff_eq]
  refine Eq.trans ?_ (viewOf_unpack (fields_of_toNat _)).symm
  rw [hsign]
  rfl

end

/-! ## Packing -/

theorem fields_of_packComponents (sign : Sign) (e : BitVec 11) (m : BitVec 52) :
    Fields (packComponents Format.binary64 sign e m) sign e.toNat m.toNat where
  sign := by rw [unpackSign_packComponents, Sign.ofBitVec_toBitVec]
  field := by rw [unpackExponent_packComponents]
  fraction := by rw [unpackMantissa_packComponents]

theorem finite_congr {s : Sign} {m n : ℕ} {e f : ℤ} {hm : 0 < m} {hn : 0 < n} (hmn : m = n)
    (hef : e = f) : UnpackedFloat.finite s m e hm = .finite s n f hn := by
  subst hmn hef
  rfl

theorem toNat_biased (e : ℤ) :
    (e + (Format.binary64.exponentBias : ℤ) + (52 : ℕ)).toNat = (e + 1075).toNat := by
  rw [Int.add_assoc]
  rfl

theorem unpack_pack_of_canonical {s : Sign} {m : ℕ} {e : ℤ} (hm : 0 < m) (h : Canonical m e)
    (hgreatest : e ≤ greatestExponent) :
    unpack Format.binary64 (pack Format.binary64 (.finite s m e hm)) = .finite s m e hm := by
  obtain ⟨hlt, hleast, hfull⟩ := h
  unfold hiddenBit leastExponent greatestExponent at *
  have hdigits : m.log2 < 53 := (Nat.log2_lt (Nat.ne_of_gt hm)).mpr hlt
  have hnormal : 52 ≤ m.log2 ↔ 0x10000000000000 ≤ m := Nat.le_log2 (Nat.ne_of_gt hm)
  unfold UnpackedFloat.pack
  simp only [toNat_biased]
  rw [if_neg (show ¬ 2048 ≤ (e + 1075).toNat + 1 by omega)]
  split
  case isTrue heq =>
    have htop : m.log2 + 1 = 53 := heq
    have hfield : (BitVec.ofNat 11 (e + 1075).toNat).toNat = (e + 1075).toNat :=
      Nat.mod_eq_of_lt (by omega)
    have hfraction : (BitVec.ofNat 52 m).toNat = m - 0x10000000000000 :=
      show m % 0x10000000000000 = m - 0x10000000000000 by omega
    rw [unpack_eq (fields_of_packComponents _ _ _), hfield, hfraction, if_neg (by omega),
      if_neg (by omega)]
    exact finite_congr (by unfold hiddenBit; omega) (by omega)
  case isFalse hne =>
    have htop : m.log2 + 1 ≠ 53 := hne
    have hfraction : (BitVec.ofNat 52 m).toNat = m := show m % 0x10000000000000 = m by omega
    rw [unpack_eq (fields_of_packComponents _ _ _), hfraction, if_neg (by decide),
      if_pos (by decide), dif_neg (Nat.ne_of_gt hm)]
    exact finite_congr rfl (by unfold leastExponent; omega)

theorem unpack_pack {u : UnpackedFloat} (h : Fits u) :
    unpack Format.binary64 (pack Format.binary64 u) = u := by
  cases u with
  | notANumber => exact unpack_eq (fields_of_packComponents _ _ _)
  | infinity s => exact unpack_eq (fields_of_packComponents _ _ _)
  | zero s => exact unpack_eq (fields_of_packComponents _ _ _)
  | finite s m e hm => exact unpack_pack_of_canonical hm h.1 h.2

theorem unpack_pack_of_lt {s : Sign} {m : ℕ} {e : ℤ} (hm : 0 < m) (h : greatestExponent < e) :
    unpack Format.binary64 (pack Format.binary64 (.finite s m e hm)) = .infinity s := by
  unfold greatestExponent at h
  unfold UnpackedFloat.pack
  simp only [toNat_biased]
  rw [if_pos (show 2048 ≤ (e + 1075).toNat + 1 by omega)]
  exact unpack_eq (fields_of_packComponents _ _ _)

end Chiptune.Binary64
