import Chiptune.Binary64
import Chiptune.Proofs.Binary64.Rounding
import Mathlib.Data.Nat.Cast.Order.Field
import Mathlib.Tactic.FieldSimp

/-!
# Arithmetic on doubles

What the operations on doubles do to the numbers that these stand for.  Sums, products and
quotients of finite doubles are the exact results, rounded once (`float_add`, `float_mul`,
`float_div`); a whole number is rounded twice at most (`float_ofInt`).  The other way round, a sum
or a product is finite only if its operands are.

Last come the doubles that are turned into whole numbers.  What a double is viewed as stands for
the same number (`real_of_view`), and the whole number nearest to it is no farther away than one
half (`round_near`).
-/

namespace Chiptune.Binary64

open Float.Model Float.Model.UnpackedFloat

/-! ## Signs -/

theorem factor_mul (s t : Sign) : factor (s * t) = factor s * factor t := by
  cases s <;> cases t
  · show (1 : ℝ) = -1 * -1
    norm_num
  · exact (mul_one (-1 : ℝ)).symm
  · exact (one_mul (-1 : ℝ)).symm
  · exact (one_mul (1 : ℝ)).symm

theorem factor_div (s t : Sign) : factor (s / t) = factor s / factor t := by
  cases s <;> cases t
  · show (1 : ℝ) = -1 / -1
    norm_num
  · exact (div_one (-1 : ℝ)).symm
  · show (-1 : ℝ) = 1 / -1
    norm_num
  · exact (div_one (1 : ℝ)).symm

theorem cast_apply (s : Sign) (n : ℤ) : ((s.apply n : ℤ) : ℝ) = factor s * n := by
  cases s with
  | positive => exact (one_mul (n : ℝ)).symm
  | negative =>
      show ((-n : ℤ) : ℝ) = -1 * n
      push_cast
      ring

/-! ## Operations on what is unpacked -/

theorem rounds_zero (s : Sign) : Rounds 0 (packed (.zero s)) := by
  refine rounds_packed (u := .zero s) trivial ?_
  rw [value_zero, sub_zero, abs_zero, tolerance]
  positivity

/-- A significand can be made longer, at the cost of the exponent. -/
theorem cast_shiftLeft (m : ℕ) (e f : ℤ) (h : f ≤ e) :
    ((m <<< (e - f).toNat : ℕ) : ℝ) * 2 ^ f = m * 2 ^ e := by
  rw [Nat.shiftLeft_eq, Nat.cast_mul, Nat.cast_pow, Nat.cast_ofNat, mul_assoc, ← zpow_natCast,
    ← zpow_add₀ two_ne_zero]
  congr 2
  omega

theorem rounds_round (s : Sign) {m : ℕ} (hm : 0 < m) (e : ℤ) :
    Rounds (factor s * (m * 2 ^ e)) (packed (UnpackedFloat.round Format.binary64 s m e)) := by
  have hample : Ample (m <<< (e - target m e).toNat) (e - (e - target m e).toNat) := by
    rcases le_or_gt (e - (e - target m e).toNat) leastExponent with hleast | hleast
    · exact Or.inr hleast
    · have hdigits : 52 ≤ m.log2 + (e - target m e).toNat := by unfold target at *; omega
      refine Or.inl ?_
      rw [Nat.shiftLeft_eq]
      calc hiddenBit = 2 ^ 52 := rfl
        _ ≤ 2 ^ (m.log2 + (e - target m e).toNat) := Nat.pow_le_pow_right (by decide) hdigits
        _ = 2 ^ m.log2 * 2 ^ (e - target m e).toNat := Nat.pow_add 2 _ _
        _ ≤ m * 2 ^ (e - target m e).toNat :=
          Nat.mul_le_mul_right _ (Nat.log2_self_le hm.ne')
  have hvalue := cast_shiftLeft m e (e - (e - target m e).toNat) (by omega)
  rw [sub_sub_cancel, Int.toNat_natCast] at hvalue
  unfold UnpackedFloat.round decreaseExponent
  dsimp only
  rw [targetExponent_eq, ← hvalue]
  exact rounds_exact s hample

theorem rounds_normalize (m e : ℤ) (zero : Sign) :
    Rounds (m * 2 ^ e) (packed (UnpackedFloat.normalize Format.binary64 m e zero)) := by
  unfold UnpackedFloat.normalize
  rcases lt_trichotomy m 0 with hneg | rfl | hpos
  · rw [Int.compare_eq_lt.mpr hneg]
    have habs : (((-m).toNat : ℕ) : ℝ) = -m := by exact_mod_cast Int.toNat_of_nonneg (by omega)
    have hround := rounds_round .negative (show 0 < (-m).toNat by omega) e
    rwa [habs, factor, neg_one_mul, neg_mul, neg_neg] at hround
  · rw [Int.cast_zero, zero_mul]
    exact rounds_zero zero
  · rw [Int.compare_eq_gt.mpr hpos]
    have habs : ((m.toNat : ℕ) : ℝ) = m := by exact_mod_cast Int.toNat_of_nonneg hpos.le
    have hround := rounds_round .positive (show 0 < m.toNat by omega) e
    rwa [habs, factor, one_mul] at hround

section
variable {a b : UnpackedFloat}

theorem rounds_self (ha : Fits a) (hafinite : a.isFinite = true) : Rounds (value a) (packed a) := by
  rw [packed, unpack_pack ha]
  refine Or.inl ⟨hafinite, ?_⟩
  rw [sub_self, abs_zero, tolerance]
  positivity

theorem cast_decreaseExponent (s : Sign) (m : ℕ) {e f : ℤ} (h : f ≤ e) :
    ((s.apply ((decreaseExponent m e f).1 : ℤ) : ℤ) : ℝ) * 2 ^ f = factor s * (m * 2 ^ e) := by
  rw [cast_apply, mul_assoc, ← cast_shiftLeft m e f h]
  rfl

/-- A quotient is worked out to as many digits as there is room for. -/
theorem ample_divCore {m n : ℕ} (hm : 0 < m) (hn : 0 < n) (e f : ℤ) :
    Ample (divCore Format.binary64 m e n f).1 (divCore Format.binary64 m e n f).2.1 := by
  have htarget : (divCore Format.binary64 m e n f).2.1 =
      min (e - f) (max (((m.log2 : ℤ) + 1 + e) - (n.log2 + 1 + f) - 53) leastExponent) := rfl
  rcases le_or_gt (divCore Format.binary64 m e n f).2.1 leastExponent with hleast | hleast
  · exact Or.inr hleast
  · have hquotient : (divCore Format.binary64 m e n f).1 =
        m <<< (e - f - (divCore Format.binary64 m e n f).2.1).toNat / n := rfl
    generalize (divCore Format.binary64 m e n f).2.1 = place at *
    have hdigits : n.log2 + 53 ≤ m.log2 + (e - f - place).toNat := by omega
    rw [hquotient, Nat.shiftLeft_eq]
    refine Or.inl ((Nat.le_div_iff_mul_le hn).mpr ?_)
    calc hiddenBit * n ≤ hiddenBit * 2 ^ (n.log2 + 1) :=
          Nat.mul_le_mul_left _ Nat.lt_log2_self.le
      _ = 2 ^ (n.log2 + 53) := by
        rw [Nat.pow_add, Nat.pow_add, show (2 : ℕ) ^ 53 = hiddenBit * 2 ^ 1 from rfl]
        ring
      _ ≤ 2 ^ (m.log2 + (e - f - place).toNat) := Nat.pow_le_pow_right (by decide) hdigits
      _ = 2 ^ m.log2 * 2 ^ (e - f - place).toNat := Nat.pow_add 2 _ _
      _ ≤ m * 2 ^ (e - f - place).toNat := Nat.mul_le_mul_right _ (Nat.log2_self_le hm.ne')

/-- The digits of a quotient are those of the exact one, but for what is behind the last. -/
theorem divCore_bounds {m n : ℕ} (hn : 0 < n) (e f : ℤ) :
    let quotient := divCore Format.binary64 m e n f
    quotient.1 * (2 : ℝ) ^ quotient.2.1 ≤ m * 2 ^ e / (n * 2 ^ f) ∧
      m * 2 ^ e / (n * 2 ^ f) ≤ (quotient.1 + 1) * (2 : ℝ) ^ quotient.2.1 := by
  intro quotient
  have hplace : quotient.2.1 ≤ e - f := min_le_left _ _
  have hn' : (0 : ℝ) < n := by exact_mod_cast hn
  have hquotient : quotient.1 = m * 2 ^ (e - f - quotient.2.1).toNat / n := by
    rw [← Nat.shiftLeft_eq]
    rfl
  have hvalue : (m : ℝ) * 2 ^ e / (n * 2 ^ f) =
      ((m * 2 ^ (e - f - quotient.2.1).toNat : ℕ) : ℝ) / n * 2 ^ quotient.2.1 := by
    have hexponent : (2 : ℝ) ^ e = 2 ^ (e - f - quotient.2.1).toNat * 2 ^ quotient.2.1 * 2 ^ f := by
      rw [← zpow_natCast, ← zpow_add₀ two_ne_zero, ← zpow_add₀ two_ne_zero]
      congr 1
      omega
    rw [hexponent]
    push_cast
    field_simp
  rw [hvalue, hquotient]
  generalize m * 2 ^ (e - f - quotient.2.1).toNat = k
  constructor
  · gcongr
    exact Nat.cast_div_le
  · gcongr
    rw [div_le_iff₀ hn']
    exact_mod_cast (Nat.lt_mul_of_div_lt (Nat.lt_succ_self (k / n)) hn).le

variable (ha : Fits a) (hb : Fits b) (hafinite : a.isFinite = true) (hbfinite : b.isFinite = true)
include ha hb hafinite hbfinite

theorem rounds_add :
    Rounds (value a + value b) (packed (UnpackedFloat.add Format.binary64 a b)) := by
  cases a with
  | notANumber => cases hafinite
  | infinity s => cases hafinite
  | zero s =>
      rw [value_zero, zero_add]
      cases b with
      | notANumber => cases hbfinite
      | infinity t => cases hbfinite
      | zero t =>
          rw [value_zero, UnpackedFloat.add]
          split <;> exact rounds_zero _
      | finite t n f hn => exact rounds_self hb hbfinite
  | finite s m e hm =>
      cases b with
      | notANumber => cases hbfinite
      | infinity t => cases hbfinite
      | zero t =>
          rw [value_zero, add_zero]
          exact rounds_self ha hafinite
      | finite t n f hn =>
          have hvalue : value (.finite s m e hm) + value (.finite t n f hn) =
              ((s.apply ((decreaseExponent m e (min e f)).1 : ℤ) +
                t.apply ((decreaseExponent n f (min e f)).1 : ℤ) : ℤ) : ℝ) * 2 ^ min e f := by
            rw [Int.cast_add, add_mul, cast_decreaseExponent s m (min_le_left e f),
              cast_decreaseExponent t n (min_le_right e f)]
            rfl
          rw [hvalue]
          exact rounds_normalize _ _ .positive

theorem rounds_mul :
    Rounds (value a * value b) (packed (UnpackedFloat.mul Format.binary64 a b)) := by
  cases a with
  | notANumber => cases hafinite
  | infinity s => cases hafinite
  | zero s =>
      rw [value_zero, zero_mul]
      cases b with
      | notANumber => cases hbfinite
      | infinity t => cases hbfinite
      | zero t => exact rounds_zero _
      | finite t n f hn => exact rounds_zero _
  | finite s m e hm =>
      cases b with
      | notANumber => cases hbfinite
      | infinity t => cases hbfinite
      | zero t =>
          rw [value_zero, mul_zero]
          exact rounds_zero _
      | finite t n f hn =>
          have hample : Ample (m * n) (e + f) := by
            rcases ha.1.full with hfull | rfl
            · exact Or.inl (hfull.trans (Nat.le_mul_of_pos_right m hn))
            · rcases hb.1.full with hfull | rfl
              · exact Or.inl (hfull.trans (Nat.le_mul_of_pos_left n hm))
              · exact Or.inr (by decide)
          have hvalue : value (.finite s m e hm) * value (.finite t n f hn) =
              factor (s * t) * ((m * n : ℕ) * 2 ^ (e + f)) := by
            rw [value, value, factor_mul, zpow_add₀ two_ne_zero]
            push_cast
            ring
          rw [hvalue]
          exact rounds_exact (s * t) hample

omit ha hb in
theorem rounds_div (hb0 : value b ≠ 0) :
    Rounds (value a / value b) (packed (UnpackedFloat.div Format.binary64 a b)) := by
  cases b with
  | notANumber => cases hbfinite
  | infinity t => cases hbfinite
  | zero t => exact absurd rfl hb0
  | finite t n f hn =>
      cases a with
      | notANumber => cases hafinite
      | infinity s => cases hafinite
      | zero s =>
          rw [value_zero, zero_div]
          exact rounds_zero _
      | finite s m e hm =>
          have hvalue : value (.finite s m e hm) / value (.finite t n f hn) =
              factor (s / t) * (m * 2 ^ e / (n * 2 ^ f)) := by
            rw [value, value, factor_div, mul_div_mul_comm]
          obtain ⟨hlow, hhigh⟩ := divCore_bounds (m := m) hn e f
          rw [hvalue]
          exact rounds_roundWithAccuracy (s / t) _ (ample_divCore hm hn e f) hlow hhigh

end

/-! ## Operations on doubles -/

/-- The number that a double stands for, and zero if it is not finite. -/
noncomputable def real (x : Float) : ℝ :=
  value x.toModel.unpack

theorem unpack_of_isFinite {x : Float} (h : x.isFinite = true) :
    (∃ s, x.toModel.unpack = .zero s) ∨ ∃ s m e hm, x.toModel.unpack = .finite s m e hm := by
  change x.toModel.unpack.isFinite = true at h
  cases hunpack : x.toModel.unpack with
  | notANumber =>
      rw [hunpack] at h
      cases h
  | infinity s =>
      rw [hunpack] at h
      cases h
  | zero s => exact Or.inl ⟨s, rfl⟩
  | finite s m e hm => exact Or.inr ⟨s, m, e, hm, rfl⟩

section
variable {x y : Float} (hx : x.isFinite = true) (hy : y.isFinite = true)
include hx hy

theorem float_add : Rounds (real x + real y) (x + y).toModel.unpack :=
  rounds_add (fits_unpack _) (fits_unpack _) hx hy

theorem float_mul : Rounds (real x * real y) (x * y).toModel.unpack :=
  rounds_mul (fits_unpack _) (fits_unpack _) hx hy

theorem float_div (h : real y ≠ 0) : Rounds (real x / real y) (x / y).toModel.unpack :=
  rounds_div hx hy h

end

theorem fits_neg {u : UnpackedFloat} (h : Fits u) : Fits u.neg := by
  cases u <;> exact h

theorem value_neg (u : UnpackedFloat) : value u.neg = -value u := by
  have hfactor (s : Sign) : factor (-s) = -factor s := by
    cases s
    · exact (neg_neg 1).symm
    · rfl
  cases u with
  | finite s m e hm =>
      show factor (-s) * _ = -(factor s * _)
      rw [hfactor, neg_mul]
  | notANumber | infinity s | zero s => exact neg_zero.symm

theorem unpack_float_neg (x : Float) : (-x).toModel.unpack = x.toModel.unpack.neg :=
  unpack_pack (fits_neg (fits_unpack _))

theorem real_neg (x : Float) : real (-x) = -real x := by
  rw [real, unpack_float_neg, value_neg]
  rfl

theorem isFinite_neg (x : Float) : (-x).isFinite = x.isFinite := by
  show (-x).toModel.unpack.isFinite = x.toModel.unpack.isFinite
  rw [unpack_float_neg]
  cases x.toModel.unpack <;> rfl

/-! ## Whole numbers -/

theorem rounds_ofNat (n : ℕ) : Rounds n (packed (UnpackedFloat.ofNat Format.binary64 n)) := by
  have hround := rounds_normalize n 0 .positive
  rwa [zpow_zero, mul_one, Int.cast_natCast] at hround

theorem real_one : real (Float.ofBits 0x3FF0000000000000) = 1 := by
  have hunpack : (Float.ofBits 0x3FF0000000000000).toModel.unpack =
      .finite .positive 0x10000000000000 (-52) (by decide) := rfl
  rw [real, hunpack, value, factor]
  norm_num

/-- Numbers of up to 53 digits go through a word of 64 bits, and are multiplied by one. -/
theorem ofNat_of_lt {n : ℕ} (h : n < 2 ^ 53) :
    Float.ofNat n = n.toUInt64.toFloat * Float.ofBits 0x3FF0000000000000 :=
  dif_pos ⟨h, by decide⟩

/-- Longer numbers are made into decimals without an exponent. -/
theorem ofNat_of_le {n : ℕ} (h : 2 ^ 53 ≤ n) : Float.ofNat n = .ofModel (.ofScientific n 0) := by
  have hlarge : ¬ (n < 2 ^ 53 ∧ 0 ≤ 22) := by omega
  exact dif_neg hlarge

theorem ofScientific_eq {n : ℕ} (h : 2 ^ 53 ≤ n) (hpos : 0 < n <<< 53) :
    UnpackedFloat.ofScientific Format.binary64 n 0 =
      UnpackedFloat.mul Format.binary64 (.finite .positive (n <<< 53) (-53) hpos)
        (.finite .positive 1 0 (by decide)) := by
  have hn : n ≠ 0 := by omega
  have hlow : ¬ ((0 : ℤ) < -((2 ^ 11 : ℤ) + n.log2)) := by omega
  unfold UnpackedFloat.ofScientific
  rw [dif_neg hn, if_neg (by decide), if_neg hlow, if_pos (by decide)]
  rfl

theorem rounds_ofNat_of_le {n : ℕ} (h : 2 ^ 53 ≤ n) :
    Rounds n (Float.ofNat n).toModel.unpack := by
  have hample : Ample (n <<< 53 * 1) (-53 + 0) := by
    refine Or.inl ?_
    rw [Nat.shiftLeft_eq]
    unfold hiddenBit
    omega
  have hvalue : (n : ℝ) =
      factor (.positive * .positive) * ((n <<< 53 * 1 : ℕ) * 2 ^ (-53 + 0 : ℤ)) := by
    rw [factor_mul, Nat.shiftLeft_eq, factor]
    push_cast
    norm_num
    ring
  rw [ofNat_of_le h]
  show Rounds n (packed (UnpackedFloat.ofScientific Format.binary64 n 0))
  rw [ofScientific_eq h (by rw [Nat.shiftLeft_eq]; omega), hvalue]
  exact rounds_exact _ hample

theorem float_ofNat {n : ℕ} {k : ℤ} (hk : 0 ≤ k) (hk' : k ≤ 900) (hn : (n : ℝ) ≤ 2 ^ k) :
    (Float.ofNat n).isFinite = true ∧ |real (Float.ofNat n) - n| ≤ 2 ^ (k - 49) := by
  have habs : |(n : ℝ)| ≤ 2 ^ k := by rwa [Nat.abs_cast]
  have hunit : (0 : ℝ) < 2 ^ (k - 51) := by positivity
  have hfour : (2 : ℝ) ^ (k - 49) = 4 * 2 ^ (k - 51) := by
    rw [show k - 49 = 2 + (k - 51) by ring, zpow_add₀ two_ne_zero]
    norm_num
  rcases Nat.lt_or_ge n (2 ^ 53) with hshort | hlong
  · have hword : n.toUInt64.toNat = n := Nat.mod_eq_of_lt (by omega)
    have hfirst : Rounds n n.toUInt64.toFloat.toModel.unpack := by
      show Rounds n (packed (UnpackedFloat.ofNat Format.binary64 n.toUInt64.toNat))
      rw [hword]
      exact rounds_ofNat n
    obtain ⟨hfinite, hnear⟩ := hfirst.near (by omega) (by omega) habs
    change |real n.toUInt64.toFloat - n| ≤ _ at hnear
    have hsize : |real n.toUInt64.toFloat| ≤ 2 ^ (k + 1) := by
      have hplace : (2 : ℝ) ^ (k - 51) ≤ 2 ^ k := zpow_le_zpow_right₀ one_le_two (by omega)
      rw [zpow_add_one₀ two_ne_zero]
      linarith [abs_sub_abs_le_abs_sub (real n.toUInt64.toFloat) n]
    have hsecond := float_mul hfinite (y := Float.ofBits 0x3FF0000000000000) rfl
    rw [real_one, mul_one, ← ofNat_of_lt hshort] at hsecond
    obtain ⟨hfinite', hnear'⟩ := hsecond.near (by omega) (by omega) hsize
    have htwo : (2 : ℝ) ^ (k + 1 - 51) = 2 * 2 ^ (k - 51) := by
      rw [show k + 1 - 51 = 1 + (k - 51) by ring, zpow_one_add₀ two_ne_zero]
    refine ⟨hfinite', ?_⟩
    calc |real (Float.ofNat n) - n|
        ≤ |real (Float.ofNat n) - real n.toUInt64.toFloat| + |real n.toUInt64.toFloat - n| :=
          abs_sub_le _ _ _
      _ ≤ 2 * 2 ^ (k - 51) + 2 ^ (k - 51) := add_le_add (hnear'.trans_eq htwo) hnear
      _ ≤ 2 ^ (k - 49) := by linarith
  · obtain ⟨hfinite, hnear⟩ := (rounds_ofNat_of_le hlong).near (by omega) (by omega) habs
    refine ⟨hfinite, hnear.trans ?_⟩
    linarith

theorem float_ofInt {n : ℤ} {k : ℤ} (hk : 0 ≤ k) (hk' : k ≤ 900) (hn : |(n : ℝ)| ≤ 2 ^ k) :
    (Float.ofInt n).isFinite = true ∧ |real (Float.ofInt n) - n| ≤ 2 ^ (k - 49) := by
  cases n with
  | ofNat n =>
      have hn' : (n : ℝ) ≤ 2 ^ k := le_trans (le_abs_self _) hn
      exact float_ofNat hk hk' hn'
  | negSucc n =>
      have hcast : ((Int.negSucc n : ℤ) : ℝ) = -((n + 1 : ℕ) : ℝ) := by push_cast; ring
      rw [hcast, abs_neg, Nat.abs_cast] at hn
      obtain ⟨hfinite, hnear⟩ := float_ofNat hk hk' hn
      refine ⟨(isFinite_neg _).trans hfinite, ?_⟩
      show |real (-Float.ofNat (n + 1)) - _| ≤ _
      rw [hcast, real_neg, neg_sub_neg, abs_sub_comm]
      exact hnear

theorem toFloat_near (n : UInt8) :
    n.toFloat.isFinite = true ∧ |real n.toFloat - n.toNat| ≤ 2 ^ (-43 : ℤ) := by
  have hn : |(n.toNat : ℝ)| ≤ 2 ^ (8 : ℤ) := by
    rw [Nat.abs_cast]
    exact_mod_cast n.toNat_lt.le
  exact (rounds_ofNat n.toNat).near (by decide) (by decide) hn

/-! ## Finite results -/

theorem isFinite_of_packed {u : UnpackedFloat} (h : (packed u).isFinite = true) :
    u.isFinite = true := by
  cases u with
  | finite s m e hm => rfl
  | zero s => rfl
  | notANumber =>
      rw [packed, unpack_pack (u := .notANumber) trivial] at h
      exact h
  | infinity s =>
      rw [packed, unpack_pack (u := .infinity s) trivial] at h
      exact h

/-- A sum is finite only if both summands are. -/
theorem isFinite_of_add {x y : Float} (h : (x + y).isFinite = true) :
    x.isFinite = true ∧ y.isFinite = true := by
  have hsum :
      (UnpackedFloat.add Format.binary64 x.toModel.unpack y.toModel.unpack).isFinite = true :=
    isFinite_of_packed h
  show x.toModel.unpack.isFinite = true ∧ y.toModel.unpack.isFinite = true
  generalize x.toModel.unpack = a at *
  generalize y.toModel.unpack = b at *
  cases a with
  | notANumber => cases hsum
  | infinity s =>
      cases b with
      | infinity t => cases s <;> cases t <;> cases hsum
      | notANumber | zero t | finite t n f hn => cases hsum
  | zero s | finite s m e hm =>
      cases b with
      | notANumber | infinity t => cases hsum
      | zero t | finite t n f hn => exact ⟨rfl, rfl⟩

/-- A product is finite only if both factors are. -/
theorem isFinite_of_mul {x y : Float} (h : (x * y).isFinite = true) :
    x.isFinite = true ∧ y.isFinite = true := by
  have hproduct :
      (UnpackedFloat.mul Format.binary64 x.toModel.unpack y.toModel.unpack).isFinite = true :=
    isFinite_of_packed h
  show x.toModel.unpack.isFinite = true ∧ y.toModel.unpack.isFinite = true
  generalize x.toModel.unpack = a at *
  generalize y.toModel.unpack = b at *
  cases a with
  | notANumber => cases hproduct
  | infinity s => cases b <;> cases hproduct
  | zero s | finite s m e hm =>
      cases b with
      | notANumber | infinity t => cases hproduct
      | zero t | finite t n f hn => exact ⟨rfl, rfl⟩

/-! ## Nearest whole numbers -/

theorem real_of_view {x : Float} {p : Parts} (h : view x = .finite p) :
    x.isFinite = true ∧
      real x = (if p.negative then -1 else 1) * (p.significand * 2 ^ p.exponent) := by
  rw [view_eq] at h
  unfold real
  show x.toModel.unpack.isFinite = true ∧ _
  generalize x.toModel.unpack = u at *
  cases u with
  | notANumber => cases h
  | infinity s => cases h
  | zero s =>
      cases h
      refine ⟨rfl, ?_⟩
      simp
  | finite s m e hm =>
      cases h
      refine ⟨rfl, ?_⟩
      cases s <;> rfl

theorem view_of_isFinite {x : Float} (h : x.isFinite = true) : ∃ p, view x = .finite p := by
  rw [view_eq]
  rcases unpack_of_isFinite h with ⟨s, hzero⟩ | ⟨s, m, e, hm, hunpack⟩
  · rw [hzero]
    exact ⟨_, rfl⟩
  · rw [hunpack]
    exact ⟨_, rfl⟩

/-- Rounding a quotient moves it by half a unit at most. -/
theorem roundQuotient_near (tie : Tie) (n : ℕ) {d : ℕ} (hd : 0 < d) :
    |(roundQuotient tie n d : ℝ) - n / d| ≤ 1 / 2 := by
  have hd' : (0 : ℝ) < d := by exact_mod_cast hd
  have hn : (n : ℝ) = d * (n / d : ℕ) + (n % d : ℕ) := by exact_mod_cast (Nat.div_add_mod n d).symm
  have hrest : (n % d : ℕ) / (d : ℝ) = n / d - (n / d : ℕ) := by
    field_simp
    linarith
  have hbelow : 2 * (n % d) ≤ d → |((n / d : ℕ) : ℝ) - n / d| ≤ 1 / 2 := fun h => by
    have hhalf : (n % d : ℕ) / (d : ℝ) ≤ 1 / 2 := by
      rw [div_le_iff₀ hd']
      have : (2 : ℝ) * (n % d : ℕ) ≤ d := by exact_mod_cast h
      linarith
    have hpos : 0 ≤ (n % d : ℕ) / (d : ℝ) := by positivity
    rw [abs_le]
    constructor <;> linarith
  have habove : d ≤ 2 * (n % d) → |((n / d + 1 : ℕ) : ℝ) - n / d| ≤ 1 / 2 := fun h => by
    have hhalf : 1 / 2 ≤ (n % d : ℕ) / (d : ℝ) := by
      rw [le_div_iff₀ hd']
      have : (d : ℝ) ≤ 2 * (n % d : ℕ) := by exact_mod_cast h
      linarith
    have hone : (n % d : ℕ) / (d : ℝ) ≤ 1 := by
      rw [div_le_one hd']
      exact_mod_cast (Nat.mod_lt n hd).le
    rw [abs_le]
    push_cast
    constructor <;> linarith
  unfold roundQuotient
  cases hcompare : compare (2 * (n % d)) d with
  | lt => exact hbelow (Nat.compare_eq_lt.mp hcompare).le
  | gt => exact habove (Nat.compare_eq_gt.mp hcompare).le
  | eq =>
      have heq := Nat.compare_eq_eq.mp hcompare
      cases tie with
      | awayFromZero => exact habove heq.ge
      | toEven =>
          dsimp only
          split
          · exact hbelow heq.le
          · exact habove heq.ge

theorem ratio_eq (p : Parts) :
    ((p.ratio.1 : ℕ) : ℝ) / (p.ratio.2 : ℕ) = p.significand * 2 ^ p.exponent := by
  have hpow : (2 : ℝ) ^ p.exponent = 2 ^ p.exponent.toNat / 2 ^ (-p.exponent).toNat := by
    rw [← zpow_natCast, ← zpow_natCast, ← zpow_sub₀ two_ne_zero]
    congr 1
    omega
  unfold Parts.ratio
  rw [hpow, Nat.cast_mul]
  simp only [Nat.pow_eq, Nat.cast_pow, Nat.cast_ofNat]
  ring

/-- The whole number nearest to a double. -/
theorem round_near {x : Float} {p : Parts} (h : view x = .finite p) :
    |(p.round : ℝ) - real x| ≤ 1 / 2 := by
  have hnear := roundQuotient_near .awayFromZero p.ratio.1 (Nat.two_pow_pos (-p.exponent).toNat)
  have hratio := ratio_eq p
  rw [(real_of_view h).2, ← hratio]
  unfold Parts.round
  dsimp only
  split
  · push_cast
    rw [neg_one_mul, neg_sub_neg, abs_sub_comm]
    exact hnear
  · rw [one_mul]
    exact hnear

theorem roundWithin_eq {x : Float} {p : Parts} (h : view x = .finite p) {lo hi : ℤ}
    (hlo : lo ≤ p.round) (hhi : p.round ≤ hi) : roundWithin lo hi x = p.round := by
  unfold roundWithin
  rw [h]
  dsimp only
  rw [min_eq_right hhi, max_eq_right hlo]

end Chiptune.Binary64
