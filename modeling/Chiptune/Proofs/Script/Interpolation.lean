import Chiptune.Proofs.Script.Execution
import Mathlib.Data.Rat.Floor

/-!
# The values of a ramp

A ramp goes from its first value to its last in equal parts, and takes whole numbers on its
way.  `exactly` is where it would be without rounding, and `Interpolates` says what the whole
numbers have to do with it: they are rounded towards the first value, so they never leave the
way between the two values, and never turn back (`interpolates_interpolated`).

The way from the first value is `covered`, upwards or downwards, which grows from zero to all
of the distance.  All that is to be known of it is about natural numbers.

To compute a value takes a product of a distance and a position, and a quotient.  Within the
operands that an instruction can have, 32 bits with a sign are enough for each of these steps,
and the divisor is not zero (`Ramp.checkedValue?_eq`).
-/

namespace Chiptune.Script

variable {first last frames i j : ℕ}

/-! ## The way that is behind a ramp -/

/-- How much of a distance is covered in the frame `i` of so many, rounded down. -/
def covered (distance frames i : ℕ) : ℕ :=
  distance * i / (frames - 1)

theorem covered_zero (distance frames : ℕ) : covered distance frames 0 = 0 := by
  unfold covered
  rw [Nat.mul_zero, Nat.zero_div]

theorem covered_last (distance : ℕ) (hframes : 2 ≤ frames) :
    covered distance frames (frames - 1) = distance :=
  Nat.mul_div_cancel distance (by omega)

theorem covered_mono (distance frames : ℕ) (hij : i ≤ j) :
    covered distance frames i ≤ covered distance frames j :=
  Nat.div_le_div_right (Nat.mul_le_mul_left distance hij)

theorem covered_le (distance : ℕ) (hframes : 2 ≤ frames) (hi : i < frames) :
    covered distance frames i ≤ distance := by
  calc covered distance frames i
      ≤ covered distance frames (frames - 1) := covered_mono distance frames (by omega)
    _ = distance := covered_last distance hframes

theorem interpolated_of_le (hframes : 2 ≤ frames) (h : first ≤ last) (i : ℕ) :
    interpolated first last frames i = first + covered (last - first) frames i := by
  unfold interpolated covered
  rw [if_neg (by omega), if_pos h]

theorem interpolated_of_ge (hframes : 2 ≤ frames) (h : last ≤ first) (i : ℕ) :
    interpolated first last frames i = first - covered (first - last) frames i := by
  unfold interpolated covered
  rw [if_neg (by omega)]
  split
  case isTrue hle =>
    obtain rfl : first = last := Nat.le_antisymm hle h
    simp
  case isFalse => rfl

/-! ## Rounding -/

/-- Where a ramp would be in its frame `i`, without rounding. -/
def exactly (first last frames i : ℕ) : ℚ :=
  first + ((last : ℚ) - first) * i / (frames - 1)

theorem floor_covered (distance : ℕ) (hframes : 2 ≤ frames) (i : ℕ) :
    ⌊(distance : ℚ) * i / (frames - 1)⌋ = (covered distance frames i : ℤ) := by
  have hspan : (frames : ℚ) - 1 = ((frames - 1 : ℕ) : ℚ) := by
    rw [Nat.cast_sub (by omega), Nat.cast_one]
  rw [hspan, ← Nat.cast_mul, Rat.floor_natCast_div_natCast]
  rfl

theorem floor_exactly (hframes : 2 ≤ frames) (h : first ≤ last) (i : ℕ) :
    ⌊exactly first last frames i⌋ = (interpolated first last frames i : ℤ) := by
  unfold exactly
  rw [← Nat.cast_sub h, Int.floor_natCast_add, floor_covered _ hframes,
    interpolated_of_le hframes h, Nat.cast_add]

theorem ceil_exactly (hframes : 2 ≤ frames) (h : last ≤ first) (hi : i < frames) :
    ⌈exactly first last frames i⌉ = (interpolated first last frames i : ℤ) := by
  have hback : exactly first last frames i =
      first + -(((first - last : ℕ) : ℚ) * i / (frames - 1)) := by
    unfold exactly
    rw [Nat.cast_sub h]
    ring
  have hcovered := covered_le (first - last) hframes hi
  rw [hback, Int.ceil_natCast_add, Int.ceil_neg, floor_covered _ hframes,
    interpolated_of_ge hframes h]
  omega

/-- The values lead from the first to the last in so many frames: in equal parts, rounded
towards the first. -/
structure Interpolates (first last frames : ℕ) (value : ℕ → ℕ) : Prop where
  ends : value (frames - 1) = last
  begins : 2 ≤ frames → value 0 = first
  rises : first ≤ last → ∀ i j, i ≤ j → j < frames → value i ≤ value j
  falls : last ≤ first → ∀ i j, i ≤ j → j < frames → value j ≤ value i
  between : ∀ i < frames, min first last ≤ value i ∧ value i ≤ max first last
  floor : 2 ≤ frames → first ≤ last → ∀ i < frames, (value i : ℤ) = ⌊exactly first last frames i⌋
  ceil : 2 ≤ frames → last ≤ first → ∀ i < frames, (value i : ℤ) = ⌈exactly first last frames i⌉
  near : 2 ≤ frames → ∀ i < frames, |(value i : ℚ) - exactly first last frames i| < 1

theorem abs_interpolated_sub_lt (hframes : 2 ≤ frames) (hi : i < frames) :
    |(interpolated first last frames i : ℚ) - exactly first last frames i| < 1 := by
  rcases Nat.le_total first last with hle | hge
  · have hfloor : (interpolated first last frames i : ℚ) = ⌊exactly first last frames i⌋ := by
      rw [floor_exactly hframes hle, Int.cast_natCast]
    have hbelow := Int.floor_le (exactly first last frames i)
    have habove := Int.lt_floor_add_one (exactly first last frames i)
    rw [hfloor, abs_lt]
    constructor <;> linarith
  · have hceil : (interpolated first last frames i : ℚ) = ⌈exactly first last frames i⌉ := by
      rw [ceil_exactly hframes hge hi, Int.cast_natCast]
    have habove := Int.le_ceil (exactly first last frames i)
    have hbelow := Int.ceil_lt_add_one (exactly first last frames i)
    rw [hceil, abs_lt]
    constructor <;> linarith

/-- A ramp over one frame has its last value only. -/
theorem interpolated_one (first last i : ℕ) : interpolated first last 1 i = last :=
  if_pos (Nat.le_refl 1)

theorem interpolates_interpolated (hframes : 0 < frames) :
    Interpolates first last frames (interpolated first last frames) := by
  rcases Nat.lt_or_ge frames 2 with hone | htwo
  · obtain rfl : frames = 1 := by omega
    constructor <;> simp only [interpolated_one] <;> intros <;> omega
  constructor
  case ends =>
    rcases Nat.le_total first last with hle | hge
    · rw [interpolated_of_le htwo hle, covered_last _ htwo]
      omega
    · rw [interpolated_of_ge htwo hge, covered_last _ htwo]
      omega
  case begins =>
    intro _
    rcases Nat.le_total first last with hle | hge
    · rw [interpolated_of_le htwo hle, covered_zero, Nat.add_zero]
    · rw [interpolated_of_ge htwo hge, covered_zero, Nat.sub_zero]
  case rises =>
    intro hle i j hij _
    rw [interpolated_of_le htwo hle, interpolated_of_le htwo hle]
    exact Nat.add_le_add_left (covered_mono _ _ hij) first
  case falls =>
    intro hge i j hij _
    rw [interpolated_of_ge htwo hge, interpolated_of_ge htwo hge]
    exact Nat.sub_le_sub_left (covered_mono _ _ hij) first
  case between =>
    intro i hi
    refine ⟨?_, interpolated_le hi⟩
    rcases Nat.le_total first last with hle | hge
    · rw [interpolated_of_le htwo hle, Nat.min_eq_left hle]
      exact Nat.le_add_right _ _
    · have hcovered := covered_le (first - last) htwo hi
      rw [interpolated_of_ge htwo hge, Nat.min_eq_right hge]
      omega
  case floor => exact fun _ hle i _ => (floor_exactly htwo hle i).symm
  case ceil => exact fun _ hge i hi => (ceil_exactly htwo hge hi).symm
  case near => exact fun _ i hi => abs_interpolated_sub_lt htwo hi

/-! ## Computing with 32 bits -/

/-- The number, if 32 bits with a sign can hold it. -/
def int32? (x : ℤ) : Option ℤ :=
  if -0x80000000 ≤ x ∧ x ≤ 0x7FFFFFFF then some x else none

/-- The quotient of two numbers, if there is one and 32 bits can hold it. -/
def quotient32? (x y : ℤ) : Option ℤ :=
  if y = 0 then none else int32? (x.tdiv y)

/-- The value of a ramp, if every step on the way to it has a result of 32 bits. -/
def Ramp.checkedValue? (ramp : Ramp) : Option ℤ :=
  if ramp.frames ≤ 1 then int32? ramp.last
  else do
    let span ← int32? (ramp.frames - 1)
    let rise ← int32? (ramp.last - ramp.first)
    let product ← int32? (rise * ramp.position)
    let quotient ← quotient32? product span
    int32? (ramp.first + quotient)

theorem int32?_eq_some {x : ℤ} (hlow : -0x80000000 ≤ x) (hhigh : x ≤ 0x7FFFFFFF) :
    int32? x = some x :=
  if_pos ⟨hlow, hhigh⟩

theorem RampTarget.limit_le (target : RampTarget) : target.limit ≤ 0xFFFF := by
  cases target <;> decide

/-- No step on the way to the value of a ramp overflows or divides by zero. -/
theorem Ramp.checkedValue?_eq {ramp : Ramp} (h : ramp.Valid) (hframes : ramp.frames ≤ 0xFF) :
    ramp.checkedValue? =
      some ((interpolated ramp.first ramp.last ramp.frames ramp.position : ℕ) : ℤ) := by
  have hfirst : ramp.first ≤ 0xFFFF := h.first.trans ramp.target.limit_le
  have hlast : ramp.last ≤ 0xFFFF := h.last.trans ramp.target.limit_le
  have hposition := h.position
  have hle : interpolated ramp.first ramp.last ramp.frames ramp.position ≤ 0xFFFF :=
    (interpolated_le h.position).trans (Nat.max_le.mpr ⟨hfirst, hlast⟩)
  have hvalue := Ramp.value_eq h.position
  unfold Ramp.value at hvalue
  unfold checkedValue?
  split
  case isTrue hone =>
    rw [if_pos hone] at hvalue
    rw [int32?_eq_some (by omega) (by omega), hvalue]
  case isFalse hmore =>
    rw [if_neg hmore] at hvalue
    dsimp only at hvalue
    have hspan : int32? ((ramp.frames : ℤ) - 1) = some ((ramp.frames : ℤ) - 1) :=
      int32?_eq_some (by omega) (by omega)
    have hrise : int32? ((ramp.last : ℤ) - ramp.first) = some ((ramp.last : ℤ) - ramp.first) :=
      int32?_eq_some (by omega) (by omega)
    have hsize : |((ramp.last : ℤ) - ramp.first) * ramp.position| ≤ 0xFFFF * 0xFF := by
      rw [abs_mul]
      exact mul_le_mul (abs_le.mpr ⟨by omega, by omega⟩) (abs_le.mpr ⟨by omega, by omega⟩)
        (abs_nonneg _) (by decide)
    obtain ⟨hlow, hhigh⟩ := abs_le.mp hsize
    have hproduct : int32? (((ramp.last : ℤ) - ramp.first) * ramp.position) =
        some (((ramp.last : ℤ) - ramp.first) * ramp.position) :=
      int32?_eq_some (by omega) (by omega)
    have hquotient : quotient32? (((ramp.last : ℤ) - ramp.first) * ramp.position)
        ((ramp.frames : ℤ) - 1) =
          some ((((ramp.last : ℤ) - ramp.first) * ramp.position).tdiv ((ramp.frames : ℤ) - 1)) := by
      unfold quotient32?
      rw [if_neg (by omega)]
      -- The quotient is what the value is away from the first, so it is no larger than the values.
      exact int32?_eq_some (by omega) (by omega)
    simp only [hspan, hrise, hproduct, hquotient, Option.bind_eq_bind, Option.bind_some]
    rw [hvalue]
    exact int32?_eq_some (by omega) (by omega)

end Chiptune.Script
