import Chiptune.Binary64
import Chiptune.Proofs.Binary64.Operations
import Mathlib.Analysis.Complex.ExponentialBounds
import Mathlib.Analysis.SpecialFunctions.Log.Base

/-!
# How good the logarithm is

The logarithm of a double is worked out digit by digit, by squaring.  Every square is cut off
behind so many places, and this is an error that doubles with every digit that follows.  There are
twice as many places as digits, so that it never comes near the last digit (`logDigits_bounds`).
What is left is the error of the double that the digits are rounded to.

Thus the logarithm of a positive double is finite and very near to the real one (`log2_near`).  It
is finite for no other double (`pos_of_isFinite_log2`).  For a quotient there is the error of the
division as well, which is small if the quotient is not (`logb_div_near`).
-/

namespace Chiptune.Binary64

open Float.Model Float.Model.UnpackedFloat

/-! ## Real logarithms -/

theorem logb_two_pow (k : ℕ) : Real.logb 2 (2 ^ k : ℕ) = k := by
  push_cast
  rw [Real.logb_pow, Real.logb_self_eq_one one_lt_two, mul_one]

theorem logb_two_zpow (e : ℤ) : Real.logb 2 ((2 : ℝ) ^ e) = e := by
  rw [← Real.rpow_intCast, Real.logb_rpow two_pos one_lt_two.ne']

theorem two_zpow_le_of_le_logb {v : ℝ} (hv : 0 < v) {e : ℤ} (h : e ≤ Real.logb 2 v) :
    (2 : ℝ) ^ e ≤ v := by
  by_contra hlt
  have hlog := Real.logb_lt_logb one_lt_two hv (not_le.mp hlt)
  rw [logb_two_zpow] at hlog
  exact absurd h (not_le.mpr hlog)

theorem le_two_zpow_of_logb_le {v : ℝ} {e : ℤ} (h : Real.logb 2 v ≤ e) : v ≤ (2 : ℝ) ^ e := by
  by_contra hlt
  have hlog := Real.logb_lt_logb one_lt_two (by positivity) (not_le.mp hlt)
  rw [logb_two_zpow] at hlog
  exact absurd h (not_le.mpr hlog)

/-! ## Digits -/

/-- How much smaller the logarithm of a large number can get when what is behind its point is
cut off. -/
noncomputable def loss : ℝ := ((2 ^ (precision - 1) : ℕ) : ℝ)⁻¹

theorem loss_eq : loss = 2 * 2 ^ (-256 : ℤ) := by
  unfold loss precision
  norm_num

theorem logb_add_one_le {n : ℕ} (hn : 2 ^ precision ≤ n) :
    Real.logb 2 (n + 1) ≤ Real.logb 2 n + loss := by
  have hn' : (2 : ℝ) ^ (256 : ℤ) ≤ n := by exact_mod_cast hn
  have hpos : (0 : ℝ) < n := lt_of_lt_of_le (by positivity) hn'
  have hsplit : (n : ℝ) + 1 = n * (1 + 1 / n) := by field_simp
  have hsmall : Real.log (1 + 1 / n) ≤ 2 ^ (-256 : ℤ) := by
    calc Real.log (1 + 1 / n) ≤ 1 / n := by
          linarith [Real.log_le_sub_one_of_pos (show (0 : ℝ) < 1 + 1 / n by positivity)]
      _ ≤ 1 / 2 ^ (256 : ℤ) := by gcongr
      _ = 2 ^ (-256 : ℤ) := by rw [zpow_neg, one_div]
  rw [hsplit, Real.logb_mul hpos.ne' (by positivity)]
  gcongr
  rw [Real.logb, div_le_iff₀ (Real.log_pos one_lt_two), loss_eq]
  calc Real.log (1 + 1 / n) ≤ 2 ^ (-256 : ℤ) := hsmall
    _ = 2 * 2 ^ (-256 : ℤ) * (1 / 2) := by ring
    _ ≤ 2 * 2 ^ (-256 : ℤ) * Real.log 2 := by
      gcongr
      linarith [Real.log_two_gt_d9]

/-- The logarithm of a quotient without the remainder. -/
theorem logb_quotient {a b : ℕ} (hb : 0 < b) (h : 2 ^ precision ≤ a / b) :
    Real.logb 2 (a / b : ℕ) ≤ Real.logb 2 a - Real.logb 2 b ∧
      Real.logb 2 a - Real.logb 2 b ≤ Real.logb 2 (a / b : ℕ) + loss := by
  have hb' : (0 : ℝ) < b := by exact_mod_cast hb
  have hpos : (0 : ℝ) < (a / b : ℕ) := by exact_mod_cast (Nat.two_pow_pos precision).trans_le h
  have hlow : ((a / b : ℕ) : ℝ) ≤ a / b := Nat.cast_div_le
  have hhigh : (a : ℝ) / b ≤ (a / b : ℕ) + 1 := by
    rw [div_le_iff₀ hb']
    exact_mod_cast (Nat.lt_mul_of_div_lt (Nat.lt_succ_self (a / b)) hb).le
  have ha : (a : ℝ) ≠ 0 := fun ha => by
    rw [ha, zero_div] at hlow
    exact absurd hlow (not_le.mpr hpos)
  rw [← Real.logb_div ha hb'.ne']
  exact ⟨Real.logb_le_logb_of_le one_lt_two hpos hlow,
    (Real.logb_le_logb_of_le one_lt_two (hpos.trans_le hlow) hhigh).trans (logb_add_one_le h)⟩

/-- One digit.  The square of a number is brought below two again, and its logarithm is twice that
of the number, less the digit. -/
theorem exists_digit {m : ℕ} (hm : 2 ^ precision ≤ m) (hm' : m < 2 * 2 ^ precision) :
    ∃ next digit : ℕ, 2 ^ precision ≤ next ∧ next < 2 * 2 ^ precision ∧
      (∀ count digits,
        logDigits (count + 1) m digits = logDigits count next (2 * digits + digit)) ∧
      digit + (Real.logb 2 next - precision) ≤ 2 * (Real.logb 2 m - precision) ∧
      2 * (Real.logb 2 m - precision) ≤ digit + (Real.logb 2 next - precision) + loss := by
  have hpos : (m : ℝ) ≠ 0 := by
    exact_mod_cast ((Nat.two_pow_pos precision).trans_le hm).ne'
  have hsquare : (m * m) >>> precision = m * m / 2 ^ precision := Nat.shiftRight_eq_div_pow _ _
  have hlow : 2 ^ precision ≤ m * m / 2 ^ precision :=
    (Nat.le_div_iff_mul_le (Nat.two_pow_pos _)).mpr (Nat.mul_le_mul hm hm)
  have hhigh : m * m / 2 ^ precision < 4 * 2 ^ precision := by
    rw [Nat.div_lt_iff_lt_mul (Nat.two_pow_pos _)]
    calc m * m < 2 * 2 ^ precision * (2 * 2 ^ precision) := Nat.mul_lt_mul'' hm' hm'
      _ = 4 * 2 ^ precision * 2 ^ precision := by ring
  have hlog : Real.logb 2 (m * m : ℕ) = 2 * Real.logb 2 m := by
    rw [Nat.cast_mul, Real.logb_mul hpos hpos, two_mul]
  -- A square of two or more is halved, and the half that is cut off may be another place.
  rcases Nat.lt_or_ge (m * m / 2 ^ precision / 2 ^ precision) 2 with hdigit | hdigit
  · have hbelow := (Nat.div_lt_iff_lt_mul (Nat.two_pow_pos _)).mp hdigit
    refine ⟨m * m / 2 ^ precision, 0, hlow, hbelow, fun count digits => ?_, ?_⟩
    · rw [logDigits, hsquare, Nat.shiftRight_eq_div_pow, if_pos hdigit]
      rfl
    · obtain ⟨hle, hge⟩ := logb_quotient (Nat.two_pow_pos precision) hlow
      rw [hlog, logb_two_pow] at hle hge
      constructor <;> push_cast <;> linarith
  · have habove := (Nat.le_div_iff_mul_le (Nat.two_pow_pos _)).mp hdigit
    have hhalf : m * m / 2 ^ precision / 2 = m * m / 2 ^ (precision + 1) := by
      rw [Nat.div_div_eq_div_mul, Nat.pow_succ]
    refine ⟨m * m / 2 ^ precision / 2, 1, by omega, by omega, fun count digits => ?_, ?_⟩
    · rw [logDigits, hsquare, Nat.shiftRight_eq_div_pow, if_neg (Nat.not_lt.mpr hdigit)]
      rfl
    · rw [hhalf]
      obtain ⟨hle, hge⟩ := logb_quotient (Nat.two_pow_pos (precision + 1)) (a := m * m)
        (by rw [← hhalf]; omega)
      rw [hlog, logb_two_pow] at hle hge
      push_cast at hle hge ⊢
      constructor <;> linarith

/-- The digits make up the logarithm but for the places that are not worked out, and for what is
lost with the digits of squares. -/
theorem logDigits_bounds (count : ℕ) {m : ℕ} (hm : 2 ^ precision ≤ m) (hm' : m < 2 * 2 ^ precision)
    (digits : ℕ) :
    let exact := 2 ^ count * (digits + (Real.logb 2 m - precision))
    logDigits count m digits ≤ exact ∧
      exact ≤ logDigits count m digits + 1 + (2 ^ count - 1) * loss := by
  induction count generalizing m digits with
  | zero =>
      have hpos : (0 : ℝ) < m := by exact_mod_cast (Nat.two_pow_pos precision).trans_le hm
      have hlow := Real.logb_le_logb_of_le one_lt_two (by positivity)
        (show ((2 ^ precision : ℕ) : ℝ) ≤ m by exact_mod_cast hm)
      have hhigh := Real.logb_le_logb_of_le one_lt_two hpos
        (show (m : ℝ) ≤ (2 ^ (precision + 1) : ℕ) by exact_mod_cast (by omega))
      rw [logb_two_pow] at hlow hhigh
      rw [logDigits]
      push_cast at hhigh
      constructor <;> linarith
  | succ count ih =>
      intro exact
      -- The loss of this square is doubled by each of the digits that follow, and so is the loss
      -- of every later square, but once less often.
      obtain ⟨next, digit, hnext, hnext', hdigits, hlow, hhigh⟩ := exists_digit hm hm'
      obtain ⟨ihlow, ihhigh⟩ := ih hnext hnext' (2 * digits + digit)
      have hexact : exact = 2 ^ count * (2 * digits + 2 * (Real.logb 2 m - precision)) := by
        show 2 ^ (count + 1) * _ = _
        ring
      have hpow : (0 : ℝ) < 2 ^ count := by positivity
      rw [hdigits, hexact, pow_succ]
      push_cast at ihlow ihhigh
      constructor <;> nlinarith

/-- The exponent and the digits make up the logarithm but for three units of the last place. -/
theorem scaledLog2_bounds {p : Parts} (hp : 0 < p.significand) :
    let exact := 2 ^ places * Real.logb 2 (p.significand * 2 ^ p.exponent)
    p.scaledLog2 ≤ exact ∧ exact ≤ p.scaledLog2 + 3 := by
  intro exact
  have hp' : (0 : ℝ) < p.significand := by exact_mod_cast hp
  have htop := Nat.log2_self_le hp.ne'
  have htop' : p.significand < 2 ^ (p.significand.log2 + 1) := Nat.lt_log2_self
  have hexact : exact = 2 ^ places * (p.exponent + p.significand.log2 +
      (Real.logb 2 (p.significand * 2 ^ precision : ℕ) -
        Real.logb 2 (2 ^ p.significand.log2 : ℕ) - precision)) := by
    show 2 ^ places * _ = _
    rw [Real.logb_mul hp'.ne' (by positivity), logb_two_zpow,
      Nat.cast_mul, Real.logb_mul hp'.ne' (by positivity), logb_two_pow, logb_two_pow]
    ring
  have hm : (p.significand <<< precision) >>> p.significand.log2 =
      p.significand * 2 ^ precision / 2 ^ p.significand.log2 := by
    rw [Nat.shiftLeft_eq, Nat.shiftRight_eq_div_pow]
  have hlow : 2 ^ precision ≤ p.significand * 2 ^ precision / 2 ^ p.significand.log2 := by
    rw [Nat.le_div_iff_mul_le (Nat.two_pow_pos _), mul_comm]
    exact Nat.mul_le_mul_right _ htop
  have hhigh : p.significand * 2 ^ precision / 2 ^ p.significand.log2 < 2 * 2 ^ precision := by
    rw [Nat.div_lt_iff_lt_mul (Nat.two_pow_pos _)]
    calc p.significand * 2 ^ precision < 2 ^ (p.significand.log2 + 1) * 2 ^ precision :=
          Nat.mul_lt_mul_of_pos_right htop' (Nat.two_pow_pos _)
      _ = 2 * 2 ^ precision * 2 ^ p.significand.log2 := by ring
  obtain ⟨hle, hge⟩ := logb_quotient (Nat.two_pow_pos _) hlow
  obtain ⟨hdigits, hdigits'⟩ := logDigits_bounds places hlow hhigh 0
  have hscaled : (p.scaledLog2 : ℝ) = (p.exponent + p.significand.log2) * 2 ^ places +
      logDigits places (p.significand * 2 ^ precision / 2 ^ p.significand.log2) 0 := by
    unfold Parts.scaledLog2
    dsimp only
    rw [hm, Int.cast_add, Int.cast_mul, Int.cast_add, Int.cast_natCast, Int.cast_natCast,
      Int.cast_natCast]
    congr 2
    exact Nat.cast_pow 2 places
  have hloss : 2 ^ places * loss ≤ 1 := by
    have hscale : (2 : ℝ) ^ places = 2 ^ (128 : ℤ) := rfl
    rw [hscale, loss_eq]
    norm_num
  have hloss' : 0 ≤ loss := by unfold loss; positivity
  have hplaces : (0 : ℝ) < 2 ^ places := by positivity
  rw [hexact, hscaled]
  rw [Nat.cast_zero, zero_add] at hdigits hdigits'
  constructor
  · nlinarith [mul_le_mul_of_nonneg_left hle hplaces.le]
  · nlinarith [mul_le_mul_of_nonneg_left hge hplaces.le]

/-! ## Doubles -/

section
variable {x : Float} (hx : x.isFinite = true) (hpos : 0 < real x)
include hx hpos

theorem unpack_of_pos : ∃ (m : ℕ) (e : ℤ) (hm : 0 < m),
    x.toModel.unpack = .finite .positive m e hm ∧ Canonical m e ∧ e ≤ greatestExponent ∧
      real x = m * 2 ^ e := by
  rcases unpack_of_isFinite hx with ⟨s, hzero⟩ | ⟨s, m, e, hm, hunpack⟩
  · rw [real, hzero] at hpos
    exact absurd rfl hpos.ne
  · have hfits : Fits x.toModel.unpack := fits_unpack _
    rw [hunpack] at hfits
    rw [real, hunpack] at hpos
    cases s with
    | positive =>
        refine ⟨m, e, hm, hunpack, hfits.1, hfits.2, ?_⟩
        rw [real, hunpack]
        exact one_mul _
    | negative =>
        have hneg : value (.finite .negative m e hm) ≤ 0 := by
          rw [value, factor, neg_one_mul, neg_nonpos]
          positivity
        exact absurd hpos (not_lt.mpr hneg)

theorem abs_logb_real_le : |Real.logb 2 (real x)| ≤ 1074 := by
  obtain ⟨m, e, hm, -, hcanonical, hgreatest, hreal⟩ := unpack_of_pos hx hpos
  have hm' : (1 : ℝ) ≤ m := by exact_mod_cast hm
  have hm'' : (m : ℝ) ≤ 2 ^ (53 : ℤ) := by exact_mod_cast hcanonical.lt.le
  have hlow : (2 : ℝ) ^ (-1074 : ℤ) ≤ real x := by
    rw [hreal, ← one_mul ((2 : ℝ) ^ (-1074 : ℤ))]
    exact mul_le_mul hm' (zpow_le_zpow_right₀ one_le_two hcanonical.least_le) (by positivity)
      (by positivity)
  have hhigh : real x ≤ (2 : ℝ) ^ (1024 : ℤ) := by
    rw [hreal, show (1024 : ℤ) = 53 + 971 by rfl, zpow_add₀ two_ne_zero]
    exact mul_le_mul hm'' (zpow_le_zpow_right₀ one_le_two hgreatest) (by positivity)
      (by positivity)
  have hlow' := Real.logb_le_logb_of_le one_lt_two (by positivity) hlow
  have hhigh' := Real.logb_le_logb_of_le one_lt_two hpos hhigh
  rw [logb_two_zpow] at hlow' hhigh'
  push_cast at hlow' hhigh'
  exact abs_le.mpr ⟨hlow', by linarith⟩

theorem log2_eq :
    ∃ p : Parts, 0 < p.significand ∧ real x = p.significand * 2 ^ p.exponent ∧
      log2 x = Float.ofInt p.scaledLog2 * unit := by
  obtain ⟨m, e, hm, hunpack, -, -, hreal⟩ := unpack_of_pos hx hpos
  refine ⟨⟨false, m, e⟩, hm, hreal, ?_⟩
  have hview : view x = .finite ⟨false, m, e⟩ := by
    rw [view_eq, hunpack]
    rfl
  have hzero : (m == 0) = false := beq_eq_false_iff_ne.mpr hm.ne'
  unfold log2
  rw [hview]
  dsimp only
  rw [hzero]
  rfl

omit hx hpos in
theorem real_unit : real unit = 2 ^ (-128 : ℤ) := by
  have hunpack : unit.toModel.unpack =
      .finite .positive 0x10000000000000 (-180) (by decide) := rfl
  rw [real, hunpack, value, factor]
  norm_num

/-- The logarithm of a double is a double near the logarithm of the number it stands for. -/
theorem log2_near :
    (log2 x).isFinite = true ∧ |real (log2 x) - Real.logb 2 (real x)| ≤ 2 ^ (-37 : ℤ) := by
  obtain ⟨p, hp, hreal, hlog⟩ := log2_eq hx hpos
  obtain ⟨hlow, hhigh⟩ := scaledLog2_bounds hp
  obtain ⟨hleast, hgreatest⟩ := abs_le.mp (abs_logb_real_le hx hpos)
  rw [← hreal] at hlow hhigh
  have hplaces : (2 : ℝ) ^ places = 2 ^ (128 : ℤ) := rfl
  rw [hplaces] at hlow hhigh
  have hscaled : |(p.scaledLog2 : ℝ)| ≤ 2 ^ (139 : ℤ) := by
    rw [abs_le]
    constructor <;> norm_num at hlow hhigh ⊢ <;> linarith
  obtain ⟨hfinite, hnear⟩ := float_ofInt (by decide) (by decide) hscaled
  have hproduct := float_mul hfinite (y := unit) rfl
  rw [real_unit] at hproduct
  have hsize : |real (Float.ofInt p.scaledLog2) * 2 ^ (-128 : ℤ)| ≤ 2 ^ (12 : ℤ) := by
    rw [abs_le] at *
    constructor <;> norm_num at hscaled hnear ⊢ <;> linarith
  obtain ⟨hfinite', hnear'⟩ := hproduct.near (by decide) (by decide) hsize
  rw [hlog]
  refine ⟨hfinite', ?_⟩
  show |value _ - _| ≤ _
  rw [abs_le] at hnear hnear' ⊢
  constructor <;> norm_num at hnear hnear' hlow hhigh ⊢ <;> linarith

end

/-- A logarithm is finite only if it is that of a positive number. -/
theorem pos_of_isFinite_log2 {x : Float} (h : (log2 x).isFinite = true) :
    x.isFinite = true ∧ 0 < real x := by
  have hview : ∃ p, view x = .finite p := by
    unfold log2 at h
    cases hview : view x with
    | finite p => exact ⟨p, rfl⟩
    | nan =>
        rw [hview] at h
        exact (view_of_isFinite h).imp fun p hp => hview.symm.trans hp
    | infinite negative =>
        rw [hview] at h
        dsimp only at h
        split at h
        case isTrue => exact (Bool.false_ne_true h).elim
        case isFalse => exact (view_of_isFinite h).imp fun p hp => hview.symm.trans hp
  obtain ⟨p, hview⟩ := hview
  obtain ⟨hx, hreal⟩ := real_of_view hview
  refine ⟨hx, ?_⟩
  unfold log2 at h
  rw [hview] at h
  dsimp only at h
  split at h
  case isTrue => exact (Bool.false_ne_true h).elim
  case isFalse hzero =>
    split at h
    case isTrue => exact (Bool.false_ne_true h).elim
    case isFalse hpositive =>
      have hp : p.significand ≠ 0 := fun hp => hzero (beq_iff_eq.mpr hp)
      rw [hreal, if_neg hpositive, one_mul]
      positivity

/-! ## Quotients and multiples -/

/-- Rounding keeps the logarithm of a number that is not tiny. -/
theorem logb_near {v w : ℝ} (hv : 0 < v) (hw : 2 ^ (-30 : ℤ) ≤ w) (h : |w - v| ≤ tolerance v) :
    |Real.logb 2 w - Real.logb 2 v| ≤ 2 ^ (-40 : ℤ) := by
  have hw0 : 0 < w := lt_of_lt_of_le (by positivity) hw
  have hleast : (2 : ℝ) ^ leastExponent ≤ 2 ^ (-90 : ℤ) :=
    zpow_le_zpow_right₀ one_le_two (by decide)
  rw [tolerance, abs_of_pos hv] at h
  obtain ⟨hlow, hhigh⟩ := abs_le.mp h
  norm_num at hw hleast hlow hhigh
  have habove : (w - v) / v ≤ 2 ^ (-50 : ℤ) := by
    rw [div_le_iff₀ hv]
    norm_num
    linarith
  have hbelow : (v - w) / w ≤ 2 ^ (-50 : ℤ) := by
    rw [div_le_iff₀ hw0]
    norm_num
    linarith
  have hlog : |Real.log (w / v)| ≤ 2 ^ (-50 : ℤ) := by
    have hover := Real.log_le_sub_one_of_pos (div_pos hw0 hv)
    have hunder := Real.log_le_sub_one_of_pos (div_pos hv hw0)
    rw [Real.log_div hv.ne' hw0.ne'] at hunder
    rw [div_sub_one hv.ne', Real.log_div hw0.ne' hv.ne'] at hover
    rw [div_sub_one hw0.ne'] at hunder
    rw [Real.log_div hw0.ne' hv.ne', abs_le]
    exact ⟨neg_le.mp ((neg_sub _ _).trans_le (hunder.trans hbelow)), hover.trans habove⟩
  rw [← Real.logb_div hw0.ne' hv.ne', Real.logb, abs_div, abs_of_pos (Real.log_pos one_lt_two),
    div_le_iff₀ (Real.log_pos one_lt_two)]
  have := Real.log_two_gt_d9
  norm_num at hlog ⊢
  linarith

/-- The logarithm of a quotient that is not tiny. -/
theorem logb_div_near {x y : Float} (hx : x.isFinite = true) (hxpos : 0 < real x)
    (hy : y.isFinite = true) (hypos : 0 < real y) (hquotient : (x / y).isFinite = true)
    (hlarge : 2 ^ (-30 : ℤ) ≤ real (x / y)) :
    |Real.logb 2 (real (x / y)) - Real.logb 2 (real x / real y)| ≤ 2 ^ (-40 : ℤ) :=
  logb_near (div_pos hxpos hypos) hlarge ((float_div hx hy hypos.ne').error hquotient)

/-- A multiple of a logarithm. -/
theorem mul_log2_near {c x : Float} (hc : c.isFinite = true) (hsize : |real c| ≤ 2 ^ (11 : ℤ))
    (hx : x.isFinite = true) (hpos : 0 < real x) :
    (c * log2 x).isFinite = true ∧
      |real (c * log2 x) - real c * Real.logb 2 (real x)| ≤ 2 ^ (-25 : ℤ) := by
  obtain ⟨hlog, hnear⟩ := log2_near hx hpos
  have hlogb := abs_logb_real_le hx hpos
  have hbound : |real (log2 x)| ≤ 2 ^ (11 : ℤ) := by
    have := abs_sub_abs_le_abs_sub (real (log2 x)) (Real.logb 2 (real x))
    norm_num at hnear ⊢
    linarith
  have hproduct : |real c * real (log2 x)| ≤ 2 ^ (22 : ℤ) := by
    rw [abs_mul, show (22 : ℤ) = 11 + 11 by rfl, zpow_add₀ two_ne_zero]
    exact mul_le_mul hsize hbound (abs_nonneg _) (by positivity)
  obtain ⟨hfinite, hrounded⟩ := (float_mul hc hlog).near (by decide) (by decide) hproduct
  refine ⟨hfinite, ?_⟩
  have hscaled : |real c * real (log2 x) - real c * Real.logb 2 (real x)| ≤ 2 ^ (-26 : ℤ) := by
    rw [← mul_sub, abs_mul, show (-26 : ℤ) = 11 + -37 by rfl, zpow_add₀ two_ne_zero]
    exact mul_le_mul hsize hnear (abs_nonneg _) (by positivity)
  calc |real (c * log2 x) - real c * Real.logb 2 (real x)|
      ≤ |real (c * log2 x) - real c * real (log2 x)| +
        |real c * real (log2 x) - real c * Real.logb 2 (real x)| := abs_sub_le _ _ _
    _ ≤ 2 ^ (22 - 51 : ℤ) + 2 ^ (-26 : ℤ) := add_le_add hrounded hscaled
    _ ≤ 2 ^ (-25 : ℤ) := by norm_num

end Chiptune.Binary64
