import Chiptune.Pitch

/-!
# Frequencies that compare equal

Equality of floating numbers is not identity: the two zeros are equal, and what
is no number is not even equal to itself (all numbers are, `float_beq_self`).
Nothing audible is lost by it, since equal frequencies have the same note
(`Tuning.note_eq_of_beq`).  Either they
have the same unpacked form, which is all that division and the comparisons look
at, or both are zeros, which have no pitch and share the lowest note.
-/

namespace Chiptune

open Float.Model

theorem eq_or_zero_of_compare {x y : UnpackedFloat} (h : x.compare y = some .eq) :
    x = y ∨ ∃ s t, x = .zero s ∧ y = .zero t := by
  cases x with
  | notANumber => cases h
  | infinity s =>
      cases y with
      | infinity t =>
          have hsign : s = t := by cases s <;> cases t <;> first | rfl | cases h
          exact Or.inl (by rw [hsign])
      | notANumber | zero | finite => cases s <;> cases h
  | zero s =>
      cases y with
      | zero t => exact Or.inr ⟨s, t, rfl, rfl⟩
      | notANumber => cases h
      | infinity t | finite t => cases t <;> cases h
  | finite s m e hm =>
      cases y with
      | finite t m' e' hm' =>
          have hsign : s = t := by cases s <;> cases t <;> first | rfl | cases h
          have hparts : (compare e e').then (compare m m') = .eq := by
            subst hsign
            cases s with
            | positive => exact Option.some.inj h
            | negative => exact Ordering.swap_eq_eq.mp (Option.some.inj h)
          obtain ⟨hexponent, hmantissa⟩ := Ordering.then_eq_eq.mp hparts
          obtain rfl := Int.compare_eq_eq.mp hexponent
          obtain rfl := Nat.compare_eq_eq.mp hmantissa
          exact Or.inl (by rw [hsign])
      | notANumber => cases s <;> cases h
      | infinity t | zero t => cases s <;> cases t <;> cases h

theorem compare_self {x : UnpackedFloat} (h : x.isNaN = false) : x.compare x = some .eq := by
  cases x with
  | notANumber => cases h
  | infinity s => cases s <;> rfl
  | zero s => cases s <;> rfl
  | finite s m e hm =>
      have hparts : (compare e e).then (compare m m) = .eq :=
        Ordering.then_eq_eq.mpr ⟨Int.compare_eq_eq.mpr rfl, Nat.compare_eq_eq.mpr rfl⟩
      cases s with
      | positive => exact congrArg some hparts
      | negative => exact congrArg some (Ordering.swap_eq_eq.mpr hparts)

/-- A number is equal to itself. -/
theorem float_beq_self {a : Float} (h : a.isNaN = false) : (a == a) = true := by
  show (a.toModel.unpack.compare a.toModel.unpack == some .eq) = true
  exact beq_iff_eq.mpr (compare_self h)

theorem float_lt_iff {a b : Float} :
    a < b ↔ UnpackedFloat.lt a.toModel.unpack b.toModel.unpack = true :=
  decide_eq_true_iff

/-- Whether a frequency can be heard, and how it divides, shows only its unpacked form. -/
theorem Tuning.note_congr (tuning : Tuning) {a b : Float}
    (h : a.toModel.unpack = b.toModel.unpack) : tuning.note a = tuning.note b := by
  have hfinite : a.isFinite = b.isFinite := congrArg UnpackedFloat.isFinite h
  have haudible : audibleHz a = audibleHz b := by
    unfold audibleHz
    simp only [hfinite, float_lt_iff, h]
  have hquotient : a / tuning.referenceHz = b / tuning.referenceHz :=
    congrArg (fun x => Float.ofModel (pack (UnpackedFloat.div Format.binary64 x
      tuning.referenceHz.toModel.unpack))) h
  unfold note exactNote
  rw [haudible, hquotient]

theorem Tuning.audibleHz_eq_false_of_zero {a : Float} {s : UnpackedFloat.Sign}
    (h : a.toModel.unpack = .zero s) : audibleHz a = false := by
  have hzero : (0.0 : Float).toModel.unpack = .zero .positive := rfl
  have hnotpos : ¬ (0.0 : Float) < a := by
    rw [float_lt_iff, h, hzero]
    exact Bool.false_ne_true
  unfold audibleHz
  rw [decide_eq_false hnotpos, Bool.and_false]

/-- Frequencies that compare equal have the same note. -/
theorem Tuning.note_eq_of_beq (tuning : Tuning) {a b : Float} (h : (a == b) = true) :
    tuning.note a = tuning.note b := by
  have hcompare : a.toModel.unpack.compare b.toModel.unpack = some .eq := eq_of_beq h
  rcases eq_or_zero_of_compare hcompare with hsame | ⟨s, t, ha, hb⟩
  · exact tuning.note_congr hsame
  · unfold note
    simp only [audibleHz_eq_false_of_zero ha, audibleHz_eq_false_of_zero hb, Bool.false_eq_true,
      if_false]

end Chiptune
