import Chiptune.Proofs.Binary64.Logarithm
import Chiptune.Proofs.Pitch.Equality

/-!
# Notes and cents on one scale

Notes and cents are two measures of a frequency.  A note is the nearest one above the reference of
the tuning, a move in cents compares two frequencies directly.  Both are rounded from logarithms of
doubles, and not from the same ones.

Here both are compared with the real number of semitones, which needs no rounding (`semitones`).

```text
note     half a semitone and the error of the doubles     abs_note_sub_le
cents    half a cent and the error of the doubles         centsBetween_near
```

It follows that two frequencies with the same note are a semitone apart at most, and so not more
than a hundred cents (`abs_centsBetween_le_of_note_eq`).  The errors of the doubles do no harm,
since 101 cents would need one of a half.

All of this asks that the nearest notes are in the range of the tuning (`reaches`).  A frequency
beyond the range has the note at the end of it, however far away it is.
-/

namespace Chiptune

open Binary64

namespace Tuning

theorem real_pos_of_audible {hz : Float} (h : audibleHz hz = true) :
    hz.isFinite = true ∧ 0 < real hz := by
  obtain ⟨hfinite, hlt⟩ := Bool.and_eq_true_iff.mp h
  refine ⟨hfinite, ?_⟩
  have hzero : (0.0 : Float).toModel.unpack = .zero .positive := rfl
  have hcompare := float_lt_iff.mp (of_decide_eq_true hlt)
  rw [hzero] at hcompare
  rcases unpack_of_isFinite hfinite with ⟨s, hunpack⟩ | ⟨s, m, e, hm, hunpack⟩
  · rw [hunpack] at hcompare
    cases hcompare
  · rw [hunpack] at hcompare
    rw [real, hunpack]
    cases s with
    | negative => cases hcompare
    | positive =>
        rw [value, factor]
        positivity

/-- The note nearest to a frequency is in the range of the tuning, so that it need not be brought
into it. -/
def reaches (tuning : Tuning) (hz : Float) : Bool :=
  match view (tuning.exactNote hz) with
  | .finite p => (tuning.lowest.toNat : ℤ) ≤ p.round && p.round ≤ tuning.highest.toNat
  | _ => false

/-- How many semitones a frequency is above note zero. -/
noncomputable def semitones (tuning : Tuning) (hz : Float) : ℝ :=
  (12 : ℕ) * Real.logb (2 : ℕ) (real hz / real tuning.referenceHz) + tuning.referenceNote.toNat

theorem semitones_eq (tuning : Tuning) (hz : Float) :
    tuning.semitones hz =
      12 * Real.logb 2 (real hz / real tuning.referenceHz) + tuning.referenceNote.toNat := by
  rw [semitones, Nat.cast_ofNat, Nat.cast_ofNat]

theorem real_twelve : real 12.0 = 12 := by
  have hunpack : (12.0 : Float).toModel.unpack =
      .finite .positive 0x18000000000000 (-49) (by decide) := rfl
  rw [real, hunpack, value, factor]
  norm_num

theorem real_twelve_hundred : real 1200.0 = 1200 := by
  have hunpack : (1200.0 : Float).toModel.unpack =
      .finite .positive 0x12C00000000000 (-42) (by decide) := rfl
  rw [real, hunpack, value, factor]
  norm_num

/-! ## Notes -/

section
variable {tuning : Tuning} {hz : Float} (hhz : audibleHz hz = true)
  (hreference : audibleHz tuning.referenceHz = true)
include hhz hreference

/-- The note before rounding.  It is finite only if the quotient of the two frequencies has a
logarithm.  If it is not below all notes, this logarithm is not far below zero.  Then the quotient
is not tiny, and the error of the division is small. -/
theorem exactNote_near (hfinite : (tuning.exactNote hz).isFinite = true)
    (hlow : -1 ≤ real (tuning.exactNote hz)) :
    |real (tuning.exactNote hz) - tuning.semitones hz| ≤ 2 ^ (-24 : ℤ) := by
  obtain ⟨hhz', hhzpos⟩ := real_pos_of_audible hhz
  obtain ⟨hreference', hreferencepos⟩ := real_pos_of_audible hreference
  obtain ⟨hnote, hnotenear⟩ := toFloat_near tuning.referenceNote
  have hnotelt : (tuning.referenceNote.toNat : ℝ) ≤ 255 := by
    exact_mod_cast Nat.le_of_lt_succ tuning.referenceNote.toNat_lt
  have hproduct := (isFinite_of_add hfinite).1
  obtain ⟨hquotient, hquotientpos⟩ := pos_of_isFinite_log2 (isFinite_of_mul hproduct).2
  have hlogsize := abs_logb_real_le hquotient hquotientpos
  obtain ⟨-, hmul⟩ := mul_log2_near (c := 12.0) rfl (by rw [real_twelve]; norm_num) hquotient
    hquotientpos
  rw [real_twelve] at hmul
  have hsize : |real (12.0 * log2 (hz / tuning.referenceHz)) + real tuning.referenceNote.toFloat| ≤
      2 ^ (14 : ℤ) := by
    rw [abs_le] at *
    norm_num at hmul hnotenear ⊢
    constructor <;> linarith
  have hrounded := ((float_add hproduct hnote).near (by decide) (by decide) hsize).2
  change |real (tuning.exactNote hz) - _| ≤ _ at hrounded
  have hlarge : (-30 : ℤ) ≤ Real.logb 2 (real (hz / tuning.referenceHz)) := by
    rw [abs_le] at *
    norm_num at hmul hnotenear hrounded ⊢
    linarith
  have hdiv := logb_div_near hhz' hhzpos hreference' hreferencepos hquotient
    (two_zpow_le_of_le_logb hquotientpos hlarge)
  rw [semitones_eq]
  rw [abs_le] at *
  norm_num at hmul hnotenear hrounded hdiv ⊢
  constructor <;> linarith

omit hreference in
theorem toNat_note_of_reaches (hrange : tuning.lowest ≤ tuning.highest)
    (h : tuning.reaches hz = true) :
    ∃ p, view (tuning.exactNote hz) = .finite p ∧ ((tuning.note hz).toNat : ℤ) = p.round := by
  unfold reaches at h
  cases hview : view (tuning.exactNote hz) with
  | nan =>
      rw [hview] at h
      cases h
  | infinite negative =>
      rw [hview] at h
      cases h
  | finite p =>
      rw [hview] at h
      obtain ⟨hlow, hhigh⟩ := Bool.and_eq_true_iff.mp h
      have hlow := of_decide_eq_true hlow
      have hhigh := of_decide_eq_true hhigh
      have hmin : min tuning.lowest tuning.highest = tuning.lowest := if_pos hrange
      have hmax : max tuning.lowest tuning.highest = tuning.highest := if_pos hrange
      have hbyte := tuning.highest.toNat_lt
      have hcast : p.round.toNat.toUInt8.toNat = p.round.toNat := Nat.mod_eq_of_lt (by omega)
      refine ⟨p, rfl, ?_⟩
      unfold note
      dsimp only
      rw [if_pos hhz, hmin, hmax, roundWithin_eq hview hlow hhigh, hcast]
      omega

/-- A note in the range of the tuning is half a semitone away at most. -/
theorem abs_note_sub_le (hrange : tuning.lowest ≤ tuning.highest) (h : tuning.reaches hz = true) :
    |((tuning.note hz).toNat : ℝ) - tuning.semitones hz| ≤ 1 / 2 + 2 ^ (-24 : ℤ) := by
  obtain ⟨p, hview, hnote⟩ := toNat_note_of_reaches hhz hrange h
  have hnote' : ((tuning.note hz).toNat : ℝ) = p.round := by exact_mod_cast hnote
  have hround := round_near hview
  rw [← hnote'] at hround
  have hlow : -1 ≤ real (tuning.exactNote hz) := by
    have hnonneg : (0 : ℝ) ≤ (tuning.note hz).toNat := Nat.cast_nonneg _
    rw [abs_le] at hround
    linarith
  have hnear := exactNote_near hhz hreference (real_of_view hview).1 hlow
  calc |((tuning.note hz).toNat : ℝ) - tuning.semitones hz|
      ≤ |((tuning.note hz).toNat : ℝ) - real (tuning.exactNote hz)| +
        |real (tuning.exactNote hz) - tuning.semitones hz| := abs_sub_le _ _ _
    _ ≤ 1 / 2 + 2 ^ (-24 : ℤ) := add_le_add hround hnear

end

/-- How far two frequencies are apart does not depend on the reference. -/
theorem semitones_sub {tuning : Tuning} {start stop : Float} (hstart : audibleHz start = true)
    (hstop : audibleHz stop = true) (hreference : audibleHz tuning.referenceHz = true) :
    tuning.semitones stop - tuning.semitones start =
      12 * Real.logb 2 (real stop / real start) := by
  have hstart' := (real_pos_of_audible hstart).2.ne'
  have hstop' := (real_pos_of_audible hstop).2.ne'
  have hreference' := (real_pos_of_audible hreference).2.ne'
  rw [semitones_eq, semitones_eq, Real.logb_div hstop' hreference',
    Real.logb_div hstart' hreference', Real.logb_div hstop' hstart']
  ring

end Tuning

/-! ## Cents -/

section
open Tuning
variable {start stop : Float} (hstart : audibleHz start = true) (hstop : audibleHz stop = true)
include hstart hstop

/-- Within an octave no quotient is tiny or too large. -/
theorem centsBetween_near (h : |Real.logb 2 (real stop / real start)| ≤ 1) :
    (1200.0 * log2 (stop / start)).isFinite = true ∧
      |real (1200.0 * log2 (stop / start)) - 1200 * Real.logb 2 (real stop / real start)| ≤
        2 ^ (-24 : ℤ) := by
  obtain ⟨hstart', hstartpos⟩ := real_pos_of_audible hstart
  obtain ⟨hstop', hstoppos⟩ := real_pos_of_audible hstop
  have hpos := div_pos hstoppos hstartpos
  obtain ⟨hlow, hhigh⟩ := abs_le.mp h
  have hlow' : (2 : ℝ) ^ (-1 : ℤ) ≤ real stop / real start :=
    two_zpow_le_of_le_logb hpos (by exact_mod_cast hlow)
  have hhigh' : real stop / real start ≤ 2 ^ (1 : ℤ) :=
    le_two_zpow_of_logb_le (by exact_mod_cast hhigh)
  obtain ⟨hfinite, hquotient⟩ := (float_div hstop' hstart' hstartpos.ne').near (by decide)
    (by decide) ((abs_of_pos hpos).trans_le hhigh')
  change |real (stop / start) - _| ≤ _ at hquotient
  have hlarge : 2 ^ (-30 : ℤ) ≤ real (stop / start) := by
    rw [abs_le] at hquotient
    norm_num at hquotient hlow' ⊢
    linarith
  have hdiv := logb_div_near hstop' hstoppos hstart' hstartpos hfinite hlarge
  obtain ⟨hfinite', hmul⟩ := mul_log2_near (c := 1200.0) rfl
    (by rw [real_twelve_hundred]; norm_num) hfinite (lt_of_lt_of_le (by positivity) hlarge)
  rw [real_twelve_hundred] at hmul
  refine ⟨hfinite', ?_⟩
  rw [abs_le] at *
  norm_num at hmul hdiv ⊢
  constructor <;> linarith

/-- A move by a semitone and very little more is still one of a hundred cents. -/
theorem abs_centsBetween_le
    (h : |12 * Real.logb 2 (real stop / real start)| ≤ 1 + 2 ^ (-20 : ℤ)) :
    |(centsBetween start stop).toInt| ≤ 100 := by
  have hoctave : |Real.logb 2 (real stop / real start)| ≤ 1 := by
    rw [abs_le] at *
    norm_num at h
    constructor <;> linarith
  obtain ⟨hfinite, hnear⟩ := centsBetween_near hstart hstop hoctave
  obtain ⟨p, hview⟩ := view_of_isFinite hfinite
  have hround := round_near hview
  have hcents : |p.round| < 101 := by
    have hreal : |(p.round : ℝ)| < 101 := by
      rw [abs_lt]
      rw [abs_le] at h hnear hround
      norm_num at h hnear
      constructor <;> linarith
    exact_mod_cast hreal
  obtain ⟨hlow, hhigh⟩ := abs_lt.mp hcents
  unfold centsBetween
  split
  case isTrue => decide
  case isFalse =>
    rw [roundWithin_eq hview (by omega) (by omega), Int16.toInt_ofInt_of_le (by omega) (by omega)]
    omega

/-- Two frequencies with the same note in the range of the tuning are a semitone apart at most. -/
theorem abs_centsBetween_le_of_note_eq {tuning : Tuning} (hrange : tuning.lowest ≤ tuning.highest)
    (hreference : audibleHz tuning.referenceHz = true) (hstartin : tuning.reaches start = true)
    (hstopin : tuning.reaches stop = true) (hnote : tuning.note start = tuning.note stop) :
    |(centsBetween start stop).toInt| ≤ 100 := by
  have hstartnear := abs_note_sub_le hstart hreference hrange hstartin
  have hstopnear := abs_note_sub_le hstop hreference hrange hstopin
  rw [hnote, abs_sub_comm] at hstartnear
  refine abs_centsBetween_le hstart hstop ?_
  rw [← semitones_sub hstart hstop hreference, abs_sub_comm]
  calc |tuning.semitones start - tuning.semitones stop|
      ≤ |tuning.semitones start - (tuning.note stop).toNat| +
        |((tuning.note stop).toNat : ℝ) - tuning.semitones stop| := abs_sub_le _ _ _
    _ ≤ (1 / 2 + 2 ^ (-24 : ℤ)) + (1 / 2 + 2 ^ (-24 : ℤ)) := add_le_add hstartnear hstopnear
    _ ≤ 1 + 2 ^ (-20 : ℤ) := by norm_num

end

end Chiptune
