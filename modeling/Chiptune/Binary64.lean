/-!
# Doubles as exact numbers

A finite double is a whole number times a power of two.  Everything that has to be exact (rounding,
logarithms, decimal text) starts from these two integers rather than from floating arithmetic.
-/

namespace Chiptune.Binary64

/-! ## Parts -/

/-- The value `significand * 2 ^ exponent`, negated when `negative`. -/
structure Parts where
  negative : Bool
  significand : Nat
  exponent : Int
  deriving DecidableEq

/-- What a bit pattern stands for. -/
inductive View where
  | nan
  | infinite (negative : Bool)
  | finite (parts : Parts)

/-- The significand of a normal number whose fraction bits are all zero. -/
def hiddenBit : Nat := 0x10000000000000

/-- The exponent of the last binary place of the smallest numbers. -/
def leastExponent : Int := -1074

/-- Splits the 64 bits into sign, exponent and fraction.  A zero exponent field has no hidden bit,
and the largest one marks the values that are not finite. -/
def view (x : Float) : View :=
  let bits := x.toBits.toNat
  let negative := bits >>> 63 == 1
  let field : Nat := bits / hiddenBit % 2048
  let fraction : Nat := bits % hiddenBit
  if field == 2047 then
    if fraction == 0 then .infinite negative else .nan
  else if field == 0 then
    .finite ⟨negative, fraction, leastExponent⟩
  else
    .finite ⟨negative, hiddenBit + fraction, Int.ofNat field - 1075⟩

namespace Parts

/-- The whole numbers `n` and `d` with the magnitude `n / d`; `d` is a power of two. -/
def ratio (p : Parts) : Nat × Nat :=
  (p.significand * Nat.pow 2 p.exponent.toNat, Nat.pow 2 (-p.exponent).toNat)

/-- The number gives way to a closer neighbour below than above: its significand is the least one
of its exponent, and numbers half as far apart follow below. -/
def narrowBelow (p : Parts) : Bool :=
  p.significand == hiddenBit && leastExponent < p.exponent

end Parts

/-! ## Rounding to whole numbers

A quotient of naturals is rounded by its exact remainder, so nothing depends on the last bit of a
floating operation. -/

/-- Which way a quotient goes that lies halfway between two whole numbers. -/
inductive Tie where
  | toEven
  | awayFromZero
  deriving DecidableEq

/-- The whole number nearest to `n / d`. -/
def roundQuotient (tie : Tie) (n d : Nat) : Nat :=
  let q := n / d
  match compare (2 * (n % d)) d with
  | .lt => q
  | .gt => q + 1
  | .eq =>
    match tie with
    | .awayFromZero => q + 1
    | .toEven => if q % 2 == 0 then q else q + 1

/-- The whole number nearest to a finite value, halves going away from zero. -/
def Parts.round (p : Parts) : Int :=
  let (n, d) := p.ratio
  let magnitude : Int := roundQuotient .awayFromZero n d
  if p.negative then -magnitude else magnitude

/-- The whole number nearest to `x`, brought between `lo` and `hi`.  Values beyond every number end
at the nearer bound, and what is no number counts as zero. -/
def roundWithin (lo hi : Int) (x : Float) : Int :=
  match view x with
  | .nan => 0
  | .infinite negative => if negative then lo else hi
  | .finite p => max lo (min hi p.round)

/-! ## The logarithm to base two

The binary digits of `log₂ m`, for `m` between one and two, come from squaring: the square of `m`
reaches two exactly when the first digit is one, and the rest of the digits are those of the square
brought back below two.  The logarithm of a double is its exponent followed by `places` such
digits, rounded once to the nearest double. -/

/-- How many binary places of the logarithm are worked out. -/
def places : Nat := 128

/-- How many binary places are kept of each square. -/
def precision : Nat := 256

/-- `count` more digits of the logarithm of `m / 2 ^ precision`, behind those in `digits`. -/
def logDigits : (count m digits : Nat) → Nat
  | 0, _, digits => digits
  | count + 1, m, digits =>
    let square := (m * m) >>> precision
    if square >>> precision < 2 then logDigits count square (2 * digits)
    else logDigits count (square >>> 1) (2 * digits + 1)

/-- The logarithm of a positive value, in units of `2 ^ -places`. -/
def Parts.scaledLog2 (p : Parts) : Int :=
  let top := p.significand.log2
  let m := (p.significand <<< precision) >>> top
  (p.exponent + top) * Nat.pow 2 places + logDigits places m 0

/-- The double `2 ^ -128`, one unit of the scaled logarithm. -/
def unit : Float := Float.ofBits 0x37F0000000000000

/-- The logarithm to base two.  Zero goes to the negative infinity, and values below zero to no
number. -/
def log2 (x : Float) : Float :=
  match view x with
  | .nan => x
  | .infinite negative => if negative then Float.ofBits 0x7FF8000000000000 else x
  | .finite p =>
    if p.significand == 0 then Float.ofBits 0xFFF0000000000000
    else if p.negative then Float.ofBits 0x7FF8000000000000
    else Float.ofInt p.scaledLog2 * unit

end Chiptune.Binary64
