import Chiptune.Binary64

/-!
# Numbers as text

Addresses, opcodes and sizes are shown in base sixteen.  Doubles go both ways: they are read from
decimal numerals, and they are written with the fewest decimal digits that read back.
-/

namespace Chiptune

/-! ## Hexadecimal numerals

Bare, or behind `0x` and filled with zeros up to a width. -/

namespace Hex

/-- The lower-case digits of `n`, with zeros in front up to `width` characters. -/
def lower (width n : Nat) : String :=
  let digits := Nat.toDigits 16 n
  String.ofList (List.replicate (width - digits.length) '0' ++ digits)

/-- The upper-case digits of `n`, with zeros in front up to `width` characters. -/
def upper (width n : Nat) : String :=
  (lower width n).map Char.toUpper

/-- A numeral marked as hexadecimal: `0x`, then digits so that the whole takes at least `width`
characters. -/
def marked (width n : Nat) : String :=
  "0x" ++ lower (width - 2) n

end Hex

/-! ## Reading decimals

A numeral is read through a significand of 64 bits.  Digits are taken into it as long as it has
room; whole digits beyond that count as powers of ten and later places are dropped.  The value is
the significand times or divided by a power of ten, one floating operation in all but the smallest
cases. -/

/-- A numeral as written: sign, digits before and after the point, and exponent. -/
structure Numeral where
  negative : Bool
  whole : List Nat
  fraction : Option (List Nat)
  exponent : Option Int

namespace Numeral

/-- Takes digits into a significand while it stays below `2 ^ 64`; gives also the digits for which
there was no room. -/
def takeDigits : Nat → List Nat → Nat × List Nat
  | significand, [] => (significand, [])
  | significand, d :: rest =>
    if significand * 10 + d < UInt64.size then takeDigits (significand * 10 + d) rest
    else (significand, d :: rest)

def powerOfTen (k : Nat) : Float :=
  Float.ofScientific 1 false k

/-- The largest power of ten among the doubles. -/
def largestPower : Nat := 308

/-- `significand * 10 ^ exponent` by one multiplication or division where a power of ten allows it;
nothing when the value is beyond every number. -/
def scaled? (significand : Nat) (exponent : Int) : Option Float :=
  let f := significand.toUInt64.toFloat
  let k := exponent.natAbs
  if significand == 0 then some f
  else if 0 ≤ exponent then
    if k ≤ largestPower then
      let product := f * powerOfTen k
      if product.isFinite then some product else none
    else none
  else if k ≤ largestPower then some (f / powerOfTen k)
  else if k ≤ 2 * largestPower then
    some (f / powerOfTen largestPower / powerOfTen (k - largestPower))
  else some 0

/-- The value as a double; nothing when it is beyond every number. -/
def toFloat? (x : Numeral) : Option Float :=
  let fraction := x.fraction.getD []
  let (significand, wholeLeft) := takeDigits 0 x.whole
  let (significand, fractionLeft) := takeDigits significand fraction
  let shift := (wholeLeft.length : Int) - (fraction.length - fractionLeft.length : Nat)
  let exponent := x.exponent.getD 0 + shift
  (scaled? significand exponent).map fun f => if x.negative then -f else f

/-- The value as an integer of 64 bits, signed or not, for a numeral without point or exponent.  A
zero with a sign is no integer. -/
def toInt? (x : Numeral) : Option Int :=
  match x.fraction, x.exponent with
  | none, none =>
    let n : Nat := x.whole.foldl (fun n d => 10 * n + d) 0
    if x.negative then
      if 0 < n ∧ n ≤ Int64.minValue.toInt.natAbs then some (-n) else none
    else if n < UInt64.size then some n else none
  | _, _ => none

end Numeral

/-! ## The fewest digits that read back

A double stands for all reals that round to it.  Its decimal form is a decimal among those reals
with as few digits as possible and, among these, the one nearest to the double itself. -/

open Binary64

/-- The decimal `digits * 10 ^ exponent`. -/
structure Decimal where
  digits : Nat
  exponent : Int
  deriving DecidableEq

namespace Decimal

def compareQuotient (x : Decimal) (n d : Nat) : Ordering :=
  compare (x.digits * Nat.pow 10 x.exponent.toNat * d) (n * Nat.pow 10 (-x.exponent).toNat)

/-- Whether the decimal is among the reals that round to the magnitude of `p`: those up to halfway
to the neighbours, the ends included exactly when the significand is even. -/
def readsBack (x : Decimal) (p : Parts) : Bool :=
  let below := 4 * p.significand - if p.narrowBelow then 1 else 2
  let above := 4 * p.significand + 2
  let (low, d) := Parts.ratio ⟨false, below, p.exponent - 2⟩
  let (high, _) := Parts.ratio ⟨false, above, p.exponent - 2⟩
  let ends := p.significand % 2 == 0
  let toLow := x.compareQuotient low d
  let toHigh := x.compareQuotient high d
  (toLow == .gt || ends && toLow == .eq) && (toHigh == .lt || ends && toHigh == .eq)

/-- The exponent of the leading decimal digit of `n / d`, a quotient above zero. -/
def leadingExponent (n d : Nat) : Int :=
  if d ≤ n then
    ((Nat.toDigits 10 (n / d)).length : Int) - 1
  else
    -- the least power of ten that brings the quotient up to one
    -((Nat.toDigits 10 ((n + d - 1) / n - 1)).length : Int)

/-- The multiple of `10 ^ exponent` nearest to the magnitude of `p`, or else its other neighbour
on that grid, if it reads back. -/
def onGrid? (tie : Tie) (p : Parts) (exponent : Int) : Option Decimal :=
  let (n, d) := p.ratio
  let n := n * Nat.pow 10 (-exponent).toNat
  let d := d * Nat.pow 10 exponent.toNat
  let below := n / d
  let nearest := roundQuotient tie n d
  let other := if nearest == below then below + 1 else below
  if readsBack ⟨nearest, exponent⟩ p then some ⟨nearest, exponent⟩
  else if readsBack ⟨other, exponent⟩ p then some ⟨other, exponent⟩
  else none

/-- Takes up to `count` zeros off the end of the digits. -/
def strip : (count : Nat) → Decimal → Decimal
  | 0, x => x
  | count + 1, x =>
    if x.digits ≠ 0 ∧ x.digits % 10 = 0 then strip count ⟨x.digits / 10, x.exponent + 1⟩ else x

/-- The exact value of the magnitude of `p`. -/
def exact (p : Parts) : Decimal :=
  let places := (-p.exponent).toNat
  ⟨p.significand * Nat.pow 2 p.exponent.toNat * Nat.pow 5 places, -places⟩

/-- The shortest decimal for the magnitude of `p`.  Grids are tried from one digit on; should
seventeen digits not do, the exact value is given. -/
def shortest (tie : Tie) (p : Parts) : Decimal :=
  if p.significand == 0 then ⟨0, 0⟩
  else
    let (n, d) := p.ratio
    let top := leadingExponent n d
    match (List.range 17).findSome? fun (k : Nat) => onGrid? tie p (top - k) with
    | some x => x.strip 17
    | none => exact p

end Decimal

/-! ## Laying decimals out

A `Layout` holds what a format decides about its numbers: where an exponent starts to be written,
whether a whole number keeps a point, and the words for values that are no number. -/

/-- The decisions of a number format. -/
structure Layout where
  /-- Where a value goes that is halfway between two decimals of the same length. -/
  tie : Tie
  /-- The exponents of the leading digit that are written without an exponent part. -/
  positional : Int → Bool
  /-- What follows a whole number written without an exponent part. -/
  wholeEnding : String
  nan : String
  infinity : String
  negativeInfinity : String

namespace Layout

/-- Digits with a point after the first `whole` of them, zeros filling up either side. -/
def placePoint (ending : String) (digits : List Char) (whole : Int) : List Char :=
  if whole ≤ 0 then
    '0' :: '.' :: (List.replicate (-whole).toNat '0' ++ digits)
  else
    let whole := whole.toNat
    if digits.length ≤ whole then
      digits ++ List.replicate (whole - digits.length) '0' ++ ending.toList
    else
      digits.take whole ++ '.' :: digits.drop whole

/-- Digits with a point after the first, and the exponent behind an `e`, signed both ways. -/
def withExponent (digits : List Char) (exponent : Int) : List Char :=
  let mantissa := match digits with
    | [] => []
    | [d] => [d]
    | d :: rest => d :: '.' :: rest
  let sign := if exponent < 0 then '-' else '+'
  mantissa ++ 'e' :: sign :: Nat.toDigits 10 exponent.natAbs

/-- The text of a decimal that is not negative. -/
def decimal (layout : Layout) (x : Decimal) : List Char :=
  let digits := Nat.toDigits 10 x.digits
  let whole := x.exponent + digits.length
  if x.digits == 0 then '0' :: layout.wholeEnding.toList
  else if layout.positional (whole - 1) then placePoint layout.wholeEnding digits whole
  else withExponent digits (whole - 1)

def render (layout : Layout) (x : Float) : List Char :=
  match view x with
  | .nan => layout.nan.toList
  | .infinite negative => (if negative then layout.negativeInfinity else layout.infinity).toList
  | .finite p =>
    let magnitude := layout.decimal (Decimal.shortest layout.tie p)
    if p.negative then '-' :: magnitude else magnitude

/-- Numbers in running text: never an exponent, and no point behind a whole number. -/
def plain : Layout where
  tie := .awayFromZero
  positional _ := true
  wholeEnding := ""
  nan := "NaN"
  infinity := "inf"
  negativeInfinity := "-inf"

end Layout

end Chiptune
