import Chiptune.Proofs.Binary64.Packing
import Mathlib.Algebra.Order.Field.Power
import Mathlib.Data.Real.Basic
import Mathlib.Tactic.Linarith
import Mathlib.Tactic.NormNum
import Mathlib.Tactic.Positivity
import Mathlib.Tactic.Ring

/-!
# What rounding does to a number

A floating operation first works out a whole significand and an exponent, and notes how much of the
exact result is behind that significand.  Then it rounds: digits are dropped until the rest fits,
one is added in the last place or not, and if that makes a digit too many the significand is
shifted once more.

Which of its two neighbours a number goes to is of no interest here.  In either case it moves by
one unit of the last place at most, and this is all that `Rounds` says of a double and the number
it was made from.  `rounds_roundWithAccuracy` proves it of the rounding of any result whose
significand was worked out to as many digits as there is room for.
-/

namespace Chiptune.Binary64

open Float.Model Float.Model.UnpackedFloat

/-! ## Values -/

/-- The factor of a sign. -/
def factor : Sign → ℝ
  | .positive => 1
  | .negative => -1

@[simp] theorem abs_factor (s : Sign) : |factor s| = 1 := by
  cases s <;> simp [factor]

/-- The number that an unpacked double stands for, and zero if it is not finite. -/
noncomputable def value : UnpackedFloat → ℝ
  | .finite s m e _ => factor s * (m * 2 ^ e)
  | _ => 0

@[simp] theorem value_zero (s : Sign) : value (.zero s) = 0 := rfl

/-- What becomes of a result on its way through a word. -/
def packed (u : UnpackedFloat) : UnpackedFloat :=
  unpack Format.binary64 (pack Format.binary64 u)

/-- The largest unit of the last place that a number of this size can have. -/
noncomputable def tolerance (v : ℝ) : ℝ :=
  2 ^ (-52 : ℤ) * |v| + 2 ^ leastExponent

/-- A number was rounded to a double, which is near, or an infinity if the number is large. -/
def Rounds (v : ℝ) (u : UnpackedFloat) : Prop :=
  (u.isFinite = true ∧ |value u - v| ≤ tolerance v) ∨ (u.isInf = true ∧ 2 ^ (1023 : ℤ) ≤ |v|)

theorem Rounds.error {v : ℝ} {u : UnpackedFloat} (h : Rounds v u) (hu : u.isFinite = true) :
    |value u - v| ≤ tolerance v := by
  rcases h with ⟨-, herror⟩ | ⟨hinfinite, -⟩
  · exact herror
  · cases u with
    | infinity s => cases hu
    | notANumber | zero s | finite s m e hm => cases hinfinite

/-- A number of moderate size is rounded to a finite double, with an error that goes with the
size. -/
theorem Rounds.near {v : ℝ} {u : UnpackedFloat} (h : Rounds v u) {k : ℤ} (hk : -1000 ≤ k)
    (hk' : k ≤ 1000) (hv : |v| ≤ 2 ^ k) :
    u.isFinite = true ∧ |value u - v| ≤ 2 ^ (k - 51) := by
  rcases h with ⟨hfinite, herror⟩ | ⟨-, hlarge⟩
  · refine ⟨hfinite, herror.trans ?_⟩
    have habsolute : (2 : ℝ) ^ leastExponent ≤ 2 ^ (k - 52) :=
      zpow_le_zpow_right₀ one_le_two (by unfold leastExponent; omega)
    calc tolerance v ≤ 2 ^ (-52 : ℤ) * 2 ^ k + 2 ^ (k - 52) := by unfold tolerance; gcongr
      _ = 2 ^ (1 + (k - 52)) := by
        rw [← zpow_add₀ two_ne_zero, show -52 + k = k - 52 by ring, ← two_mul,
          zpow_one_add₀ two_ne_zero]
      _ = 2 ^ (k - 51) := by congr 1; ring
  · have hsmall : (2 : ℝ) ^ k < 2 ^ (1023 : ℤ) := zpow_lt_zpow_right₀ one_lt_two (by omega)
    exact absurd (hlarge.trans hv) (not_le.mpr hsmall)

/-! ## Dropping digits -/

/-- A significand of as many digits as there is room for, so that rounding drops digits but never
has to make any up. -/
def Ample (m : ℕ) (e : ℤ) : Prop :=
  hiddenBit ≤ m ∨ e ≤ leastExponent

/-- The exponent that a significand is shifted to. -/
def target (m : ℕ) (e : ℤ) : ℤ :=
  max (m.log2 + e - 52) leastExponent

theorem targetExponent_eq (m : ℕ) (e : ℤ) :
    Format.binary64.targetExponent (totalExponent m e) = target m e := by
  show max ((m.log2 : ℤ) + 1 + e - 53) (-1074) = max ((m.log2 : ℤ) + e - 52) (-1074)
  omega

theorem mantissa_shiftRight (em : ExtendedMantissa) (k : ℕ) :
    (em >>> k).mantissa = em.mantissa / 2 ^ k := by
  induction k with
  | zero => exact (Nat.div_one _).symm
  | succ k ih =>
      show (em >>> k).mantissa / 2 = _
      rw [ih, Nat.div_div_eq_div_mul, pow_succ]

theorem mantissa_ofMantissaAndAccuracy (m : ℕ) (accuracy : Accuracy) :
    (ExtendedMantissa.ofMantissaAndAccuracy m accuracy).mantissa = m := by
  cases accuracy with
  | exact => rfl
  | inexact order => cases order <;> rfl

theorem shiftToTargetExponent_eq (m : ℕ) (e : ℤ) (accuracy : Accuracy) :
    (shiftToTargetExponent Format.binary64 m e accuracy).1.mantissa =
        m / 2 ^ (target m e - e).toNat ∧
      (shiftToTargetExponent Format.binary64 m e accuracy).2 = e + (target m e - e).toNat := by
  unfold shiftToTargetExponent shiftToExponent
  rw [targetExponent_eq]
  exact ⟨(mantissa_shiftRight _ _).trans (by rw [mantissa_ofMantissaAndAccuracy]), rfl⟩

theorem roundedMantissa_bounds (em : ExtendedMantissa) :
    em.mantissa ≤ em.roundedMantissa ∧ em.roundedMantissa ≤ em.mantissa + 1 := by
  obtain ⟨m, round, sticky⟩ := em
  cases round <;> cases sticky <;>
    simp only [ExtendedMantissa.roundedMantissa, ExtendedMantissa.accuracy,
      Accuracy.roundToNearestEven] <;> omega

section
variable {m r : ℕ} {e : ℤ}

theorem target_of_lt (hr : r < 2 * hiddenBit) (he : leastExponent ≤ e) : target r e ≤ e := by
  have hdigits : r.log2 < 53 := by
    rcases Nat.eq_zero_or_pos r with rfl | hpos
    · decide
    · exact (Nat.log2_lt (Nat.ne_of_gt hpos)).mpr hr
  unfold target
  omega

theorem target_two_mul_hiddenBit (he : leastExponent ≤ e) :
    target (2 * hiddenBit) e = e + 1 := by
  have hdigits : (2 * hiddenBit).log2 = 53 := by decide +kernel
  unfold target
  omega

namespace Ample

theorem le_target (h : Ample m e) : e ≤ target m e := by
  unfold target
  rcases h with hm | he
  · have hdigits : 52 ≤ m.log2 := (Nat.le_log2 (by unfold hiddenBit at hm; omega)).mpr hm
    omega
  · omega

theorem target_cases (h : Ample m e) :
    target m e = leastExponent ∨ m ≠ 0 ∧ target m e = m.log2 + e - 52 := by
  rcases le_total ((m.log2 : ℤ) + e - 52) leastExponent with hleast | hdigits
  · exact Or.inl (max_eq_right hleast)
  · rcases eq_or_ne m 0 with rfl | hm
    · have hle : e ≤ leastExponent := h.resolve_left (by decide)
      have hnone : (0 : ℕ).log2 = 0 := rfl
      exact Or.inl (max_eq_right (by omega))
    · exact Or.inr ⟨hm, max_eq_left hdigits⟩

/-- The first shift leaves just the digits that there is room for. -/
theorem shifted_bounds (h : Ample m e) :
    m / 2 ^ (target m e - e).toNat < 2 * hiddenBit ∧
      (hiddenBit ≤ m / 2 ^ (target m e - e).toNat ∨ target m e = leastExponent) := by
  have hle := h.le_target
  constructor
  · have hshift : m.log2 ≤ 52 + (target m e - e).toNat := by unfold target; omega
    rw [Nat.div_lt_iff_lt_mul (Nat.two_pow_pos _)]
    calc m < 2 ^ (m.log2 + 1) := Nat.lt_log2_self
      _ ≤ 2 ^ (53 + (target m e - e).toNat) := Nat.pow_le_pow_right (by decide) (by omega)
      _ = 2 * hiddenBit * 2 ^ (target m e - e).toNat := Nat.pow_add 2 53 _
  · rcases h.target_cases with hleast | ⟨hm, htarget⟩
    · exact Or.inr hleast
    · have hdigits : 52 + (target m e - e).toNat = m.log2 := by omega
      refine Or.inl ((Nat.le_div_iff_mul_le (Nat.two_pow_pos _)).mpr ?_)
      calc hiddenBit * 2 ^ (target m e - e).toNat
          = 2 ^ (52 + (target m e - e).toNat) := (Nat.pow_add 2 52 _).symm
        _ = 2 ^ m.log2 := by rw [hdigits]
        _ ≤ m := Nat.log2_self_le hm

/-- One unit of the last place is no more than a number of this size tolerates. -/
theorem two_zpow_target_le (h : Ample m e) {v : ℝ} (hv : m * 2 ^ e ≤ v) :
    (2 : ℝ) ^ target m e ≤ tolerance v := by
  have hv0 : 0 ≤ v := le_trans (by positivity) hv
  rw [tolerance, abs_of_nonneg hv0]
  rcases h.target_cases with hleast | ⟨hm, htarget⟩
  · rw [hleast]
    exact le_add_of_nonneg_left (by positivity)
  · have hm' : (2 : ℝ) ^ (m.log2 : ℤ) ≤ m := by exact_mod_cast Nat.log2_self_le hm
    calc (2 : ℝ) ^ target m e = 2 ^ (-52 : ℤ) * (2 ^ (m.log2 : ℤ) * 2 ^ e) := by
          rw [htarget, ← zpow_add₀ two_ne_zero, ← zpow_add₀ two_ne_zero]
          congr 1
          omega
      _ ≤ 2 ^ (-52 : ℤ) * (m * 2 ^ e) := by gcongr
      _ ≤ 2 ^ (-52 : ℤ) * v := by gcongr
      _ ≤ 2 ^ (-52 : ℤ) * v + 2 ^ leastExponent := le_add_of_nonneg_right (by positivity)

/-- The digits that are dropped, and a one in the last place, make up no more than that place. -/
theorem abs_sub_le (h : Ample m e) {v : ℝ} (hlow : m * 2 ^ e ≤ v) (hhigh : v ≤ (m + 1) * 2 ^ e)
    (hr : m / 2 ^ (target m e - e).toNat ≤ r) (hr' : r ≤ m / 2 ^ (target m e - e).toNat + 1) :
    |(r : ℝ) * 2 ^ target m e - v| ≤ 2 ^ target m e := by
  have hle := h.le_target
  have hplace : (2 : ℝ) ^ target m e = 2 ^ (target m e - e).toNat * 2 ^ e := by
    rw [← zpow_natCast, ← zpow_add₀ two_ne_zero]
    congr 1
    omega
  generalize (target m e - e).toNat = k at *
  have hfloor : r * 2 ^ k ≤ m + 2 ^ k := by
    calc r * 2 ^ k ≤ (m / 2 ^ k + 1) * 2 ^ k := Nat.mul_le_mul_right _ hr'
      _ = m / 2 ^ k * 2 ^ k + 2 ^ k := Nat.succ_mul _ _
      _ ≤ m + 2 ^ k := Nat.add_le_add_right (Nat.div_mul_le_self m _) _
  have hceil : m + 1 ≤ (r + 1) * 2 ^ k := by
    calc m + 1 ≤ (m / 2 ^ k + 1) * 2 ^ k :=
          Nat.lt_mul_of_div_lt (Nat.lt_succ_self _) (Nat.two_pow_pos k)
      _ ≤ (r + 1) * 2 ^ k := Nat.mul_le_mul_right _ (Nat.succ_le_succ hr)
  have hfloor' : (r : ℝ) * 2 ^ k ≤ m + 2 ^ k := by exact_mod_cast hfloor
  have hceil' : (m : ℝ) + 1 ≤ (r + 1) * 2 ^ k := by exact_mod_cast hceil
  have hunit : (0 : ℝ) ≤ 2 ^ e := by positivity
  rw [hplace, abs_le]
  constructor
  · nlinarith [mul_le_mul_of_nonneg_right hceil' hunit]
  · nlinarith [mul_le_mul_of_nonneg_right hfloor' hunit]

end Ample

/-! ## Rounding -/

/-- A result that has been rounded: zero, or with a significand of the right size.  The exponent
may be too large for a word. -/
def Settled : UnpackedFloat → Prop
  | .zero _ => True
  | .finite _ m e _ => Canonical m e
  | _ => False

/-- The result with this significand, which may be zero. -/
def settle (s : Sign) (m : ℕ) (e : ℤ) : UnpackedFloat :=
  if h : m = 0 then .zero s else .finite s m e (Nat.pos_of_ne_zero h)

theorem value_settle (s : Sign) (m : ℕ) (e : ℤ) :
    value (settle s m e) = factor s * (m * 2 ^ e) := by
  unfold settle
  split
  case isTrue hzero => rw [hzero, Nat.cast_zero, zero_mul, mul_zero, value_zero]
  case isFalse => rfl

theorem settled_settle (s : Sign) (h : Canonical m e) : Settled (settle s m e) := by
  unfold settle
  split
  · trivial
  · exact h

/-- After rounding there is one more shift, which does something only if there was a carry. -/
theorem settle_shiftToTargetExponent (s : Sign) (hr : r ≤ 2 * hiddenBit) (he : leastExponent ≤ e)
    (hfull : hiddenBit ≤ r ∨ e = leastExponent) :
    let second := shiftToTargetExponent Format.binary64 r e .exact
    value (settle s second.1.mantissa second.2) = factor s * (r * 2 ^ e) ∧
      Settled (settle s second.1.mantissa second.2) := by
  intro second
  obtain ⟨hmantissa, hexponent⟩ := shiftToTargetExponent_eq r e .exact
  rw [value_settle, hmantissa, hexponent]
  rcases hr.lt_or_eq with hlt | rfl
  · have hshift : (target r e - e).toNat = 0 := Int.toNat_of_nonpos (by
      have := target_of_lt hlt he
      omega)
    rw [hshift, Nat.pow_zero, Nat.div_one, Int.natCast_zero, Int.add_zero]
    exact ⟨rfl, settled_settle s ⟨hlt, he, hfull⟩⟩
  · have hshift : (target (2 * hiddenBit) e - e).toNat = 1 := by
      rw [target_two_mul_hiddenBit he]
      omega
    rw [hshift, Nat.pow_one, Nat.mul_div_cancel_left _ (by decide)]
    refine ⟨?_, settled_settle s ⟨by decide, by omega, Or.inl (Nat.le_refl _)⟩⟩
    rw [zpow_add₀ two_ne_zero]
    push_cast
    ring

theorem roundWithAccuracy_spec (s : Sign) (accuracy : Accuracy) (h : Ample m e) :
    ∃ r, m / 2 ^ (target m e - e).toNat ≤ r ∧ r ≤ m / 2 ^ (target m e - e).toNat + 1 ∧
      value (roundWithAccuracy Format.binary64 s m e accuracy) =
        factor s * (r * 2 ^ target m e) ∧
      Settled (roundWithAccuracy Format.binary64 s m e accuracy) := by
  have hle := h.le_target
  have hleast : leastExponent ≤ target m e := le_max_right _ _
  obtain ⟨hroom, hfull⟩ := h.shifted_bounds
  obtain ⟨hmantissa, hexponent⟩ := shiftToTargetExponent_eq m e accuracy
  rw [Int.toNat_of_nonneg (by omega), add_sub_cancel] at hexponent
  obtain ⟨hlow, hhigh⟩ :=
    roundedMantissa_bounds (shiftToTargetExponent Format.binary64 m e accuracy).1
  rw [hmantissa] at hlow hhigh
  refine ⟨_, hlow, hhigh, ?_⟩
  have hsettle := settle_shiftToTargetExponent s (hhigh.trans hroom) hleast
    (hfull.imp_left (le_trans · hlow))
  rw [← hexponent] at hsettle ⊢
  exact hsettle

/-- The exponent is too large only for large numbers. -/
theorem le_abs_of_greatestExponent_lt {s : Sign} {hm : 0 < m} (hu : Canonical m e)
    (hgreatest : greatestExponent < e) {v : ℝ}
    (h : |value (.finite s m e hm) - v| ≤ tolerance v) : 2 ^ (1023 : ℤ) ≤ |v| := by
  have hfull : (2 : ℝ) ^ (52 : ℤ) ≤ m := by
    have hm : 2 ^ 52 ≤ m := hu.full.resolve_right fun heq => by
      rw [heq] at hgreatest
      exact absurd hgreatest (by decide)
    exact_mod_cast hm
  have hplace : (2 : ℝ) ^ (972 : ℤ) ≤ 2 ^ e :=
    zpow_le_zpow_right₀ one_le_two (Int.add_one_le_iff.mpr hgreatest)
  have hlarge : 2 * (2 : ℝ) ^ (1023 : ℤ) ≤ |value (.finite s m e hm)| := by
    calc 2 * (2 : ℝ) ^ (1023 : ℤ) = 2 ^ (52 : ℤ) * 2 ^ (972 : ℤ) := by
          rw [← zpow_one_add₀ two_ne_zero, ← zpow_add₀ two_ne_zero]
          rfl
      _ ≤ m * 2 ^ e := by gcongr
      _ = |value (.finite s m e hm)| := by
          rw [value, abs_mul, abs_factor, one_mul, abs_of_nonneg (by positivity)]
  have hnear : |value (.finite s m e hm)| - |v| ≤ tolerance v :=
    (abs_sub_abs_le_abs_sub _ _).trans h
  have htolerance : tolerance v ≤ |v| / 2 + 1 := by
    have hrelative : (2 : ℝ) ^ (-52 : ℤ) ≤ 1 / 2 := by norm_num
    have habsolute : (2 : ℝ) ^ leastExponent ≤ 1 := zpow_le_one_of_nonpos₀ one_le_two (by decide)
    unfold tolerance
    linarith [mul_le_mul_of_nonneg_right hrelative (abs_nonneg v)]
  have hlimit : (2 : ℝ) ^ (1 : ℤ) ≤ 2 ^ (1023 : ℤ) := zpow_le_zpow_right₀ one_le_two (by decide)
  rw [zpow_one] at hlimit
  -- Arithmetic would work the power out.
  generalize (2 : ℝ) ^ (1023 : ℤ) = limit at *
  by_contra hsmall
  linarith

/-- If there is no word for the double that is near, an infinity takes its place. -/
theorem rounds_packed {u : UnpackedFloat} (hu : Settled u) {v : ℝ}
    (h : |value u - v| ≤ tolerance v) : Rounds v (packed u) := by
  unfold packed
  cases u with
  | notANumber => cases hu
  | infinity s => cases hu
  | zero s =>
      rw [unpack_pack (u := .zero s) trivial]
      exact Or.inl ⟨rfl, h⟩
  | finite s m e hm =>
      rcases lt_or_ge greatestExponent e with hgreatest | hgreatest
      · rw [unpack_pack_of_lt hm hgreatest]
        exact Or.inr ⟨rfl, le_abs_of_greatestExponent_lt hu hgreatest h⟩
      · rw [unpack_pack_of_canonical hm hu hgreatest]
        exact Or.inl ⟨rfl, h⟩

/-- A result is rounded whose significand is that of a number, but for what is behind its last
digit. -/
theorem rounds_roundWithAccuracy (s : Sign) (accuracy : Accuracy) (h : Ample m e) {v : ℝ}
    (hlow : m * 2 ^ e ≤ v) (hhigh : v ≤ (m + 1) * 2 ^ e) :
    Rounds (factor s * v) (packed (roundWithAccuracy Format.binary64 s m e accuracy)) := by
  obtain ⟨r, hr, hr', hvalue, hsettled⟩ := roundWithAccuracy_spec s accuracy h
  have htolerance : tolerance (factor s * v) = tolerance v := by
    rw [tolerance, tolerance, abs_mul, abs_factor, one_mul]
  refine rounds_packed hsettled ?_
  rw [hvalue, ← mul_sub, abs_mul, abs_factor, one_mul, htolerance]
  exact (h.abs_sub_le hlow hhigh hr hr').trans (h.two_zpow_target_le hlow)

/-- A result that is exact, but may be too long. -/
theorem rounds_exact (s : Sign) (h : Ample m e) :
    Rounds (factor s * (m * 2 ^ e))
      (packed (roundWithAccuracy Format.binary64 s m e .exact)) :=
  rounds_roundWithAccuracy s .exact h le_rfl (by gcongr; linarith)

end

end Chiptune.Binary64
