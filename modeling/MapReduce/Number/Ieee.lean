/-
# Binary floating point, by bit pattern

A floating-point number is its bit pattern: a sign, a biased exponent and a
fraction, in one of two widths. Everything is computed on natural numbers:
a finite number is the exact value `significand * 2 ^ exponent`, and the one
rounding rule is `Ieee.ofRatio`, the nearest representable number with a half
going to the even significand. Sums, products, quotients and conversions are
the exact result followed by that rounding.

`Ieee.rank` maps a number to an integer that orders as the numbers do: the
magnitude bits with the sign, so the two zeros share a rank, and every NaN one
rank above all numbers.

Key definitions: `Format`, `Ieee`, `Ieee.rank`, `Ieee.compare`,
`Ieee.ofRatio`, `Ieee.add`, `Ieee.mul`, `Ieee.div`, `Ieee.convert`.
-/
namespace MapReduce

/-- The shape of a floating-point number: the widths of its exponent and of
its fraction. -/
structure Format where
  exponentBits : Nat
  fractionBits : Nat
deriving DecidableEq

namespace Format

/-- The 32-bit format. -/
def single : Format := ⟨8, 23⟩

/-- The 64-bit format. -/
def double : Format := ⟨11, 52⟩

/-- The number of bits below the sign. -/
def magnitudeBits (f : Format) : Nat := f.exponentBits + f.fractionBits

/-- The number of bits. -/
def width (f : Format) : Nat := f.magnitudeBits + 1

/-- The magnitude bits of infinity; those of a NaN are larger. -/
def infinite (f : Format) : Nat := (Nat.pow 2 f.exponentBits - 1) * Nat.pow 2 f.fractionBits

/-- The exponent of the last place of the smallest numbers. -/
def minExponent (f : Format) : Int :=
  2 - ((Nat.pow 2 (f.exponentBits - 1) + f.fractionBits : Nat) : Int)

end Format

/-- A floating-point number of format `f`, as its bits. -/
structure Ieee (f : Format) where
  bits : BitVec f.width
deriving DecidableEq

/-- A 32-bit floating-point number. -/
abbrev Float32Bits := Ieee Format.single

/-- A 64-bit floating-point number. -/
abbrev Float64Bits := Ieee Format.double

/-- The quotient rounded to the nearest natural number, a half going to the
even one. -/
def roundHalfEven (num den : Nat) : Nat :=
  let q := num / den
  let r := 2 * (num % den)
  if r < den then q else if den < r then q + 1 else q + q % 2

/-- The greatest `e` with `2 ^ e ≤ num / den`, for positive `num` and `den`. -/
def floorLog2 (num den : Nat) : Int :=
  let e : Int := (Nat.log2 num : Int) - (Nat.log2 den : Int)
  if den * Nat.pow 2 e.toNat ≤ num * Nat.pow 2 (-e).toNat then e else e - 1

namespace Ieee

variable {f : Format}

/-- The number with a given sign and magnitude bits. -/
def ofMagnitude (negative : Bool) (magnitude : Nat) : Ieee f :=
  ⟨BitVec.ofNat _ (magnitude + if negative then Nat.pow 2 f.magnitudeBits else 0)⟩

/-- The bits below the sign. -/
def magnitude (x : Ieee f) : Nat := x.bits.toNat % Nat.pow 2 f.magnitudeBits

/-- Whether the sign bit is set. -/
def negative (x : Ieee f) : Bool := decide (Nat.pow 2 f.magnitudeBits ≤ x.bits.toNat)

/-- Whether `x` is not a number. -/
def isNaN (x : Ieee f) : Bool := decide (f.infinite < x.magnitude)

/-- Whether `x` is an infinity. -/
def isInfinite (x : Ieee f) : Bool := x.magnitude == f.infinite

/-- Whether `x` is one of the two zeros. -/
def isZero (x : Ieee f) : Bool := x.magnitude == 0

/-- Zero of either sign. -/
def zero (negative : Bool) : Ieee f := ofMagnitude negative 0

/-- Infinity of either sign. -/
def infinity (negative : Bool) : Ieee f := ofMagnitude negative f.infinite

/-- The quiet NaN without a payload. -/
def nan : Ieee f := ofMagnitude false (f.infinite + Nat.pow 2 (f.fractionBits - 1))

/-- The same number with the other sign. -/
def neg (x : Ieee f) : Ieee f := ofMagnitude (!x.negative) x.magnitude

/-- The place of `x` among all numbers: numbers by value, both zeros alike,
every NaN above them. -/
def rank (x : Ieee f) : Int :=
  if x.isNaN then ((Nat.pow 2 f.magnitudeBits : Nat) : Int)
  else if x.negative then -(x.magnitude : Int)
  else (x.magnitude : Int)

/-- The total order in which all NaNs are equal and greatest, and the two
zeros are equal. -/
def compare : Ieee f → Ieee f → Ordering := compareOn rank

/-- Equality of numbers: no NaN equals anything, the zeros are equal. -/
def sameNumber (x y : Ieee f) : Bool := !x.isNaN && !y.isNaN && x.rank == y.rank

/-- Whether `x` is a number below the number `y`. -/
def below (x y : Ieee f) : Bool := !x.isNaN && !y.isNaN && decide (x.rank < y.rank)

/-- The significand of a finite number, hidden bit included. -/
def significand (x : Ieee f) : Nat :=
  let fraction := x.magnitude % Nat.pow 2 f.fractionBits
  if x.magnitude / Nat.pow 2 f.fractionBits = 0 then fraction else Nat.pow 2 f.fractionBits + fraction

/-- The exponent of a finite number's last place. -/
def exponent (x : Ieee f) : Int :=
  f.minExponent + ((x.magnitude / Nat.pow 2 f.fractionBits - 1 : Nat) : Int)

/-- The nearest number to `± num / den`, a half going to the even significand;
infinity beyond the largest. -/
def ofRatio (negative : Bool) (num den : Nat) : Ieee f :=
  if num = 0 then zero negative
  else
    let e := max (floorLog2 num den - f.fractionBits) f.minExponent
    let m := roundHalfEven (num * Nat.pow 2 (-e).toNat) (den * Nat.pow 2 e.toNat)
    ofMagnitude negative (min ((e - f.minExponent).toNat * Nat.pow 2 f.fractionBits + m) f.infinite)

/-- The nearest number to `± num * 2 ^ e / den`. -/
def ofScaled (negative : Bool) (num : Nat) (e : Int) (den : Nat) : Ieee f :=
  ofRatio negative (num * Nat.pow 2 e.toNat) (den * Nat.pow 2 (-e).toNat)

/-- The nearest number to a natural number. -/
def ofNat (n : Nat) : Ieee f := ofRatio false n 1

/-- The exact value of a finite number in units of `2 ^ e`, for `e` at most its
exponent. -/
def scaledTo (x : Ieee f) (e : Int) : Int :=
  let m : Int := (x.significand * Nat.pow 2 (x.exponent - e).toNat : Nat)
  if x.negative then -m else m

/-- The sum, rounded once. A zero sum is negative only if both terms are. -/
def add (x y : Ieee f) : Ieee f :=
  if x.isNaN || y.isNaN then nan
  else if x.isInfinite then
    if y.isInfinite && x.negative != y.negative then nan else x
  else if y.isInfinite then y
  else
    let e := min x.exponent y.exponent
    let sum := x.scaledTo e + y.scaledTo e
    if sum = 0 then zero (x.negative && y.negative)
    else ofScaled (decide (sum < 0)) sum.natAbs e 1

/-- The product, rounded once. -/
def mul (x y : Ieee f) : Ieee f :=
  let negative := x.negative != y.negative
  if x.isNaN || y.isNaN then nan
  else if x.isInfinite || y.isInfinite then
    if x.isZero || y.isZero then nan else infinity negative
  else ofScaled negative (x.significand * y.significand) (x.exponent + y.exponent) 1

/-- The quotient, rounded once. -/
def div (x y : Ieee f) : Ieee f :=
  let negative := x.negative != y.negative
  if x.isNaN || y.isNaN then nan
  else if x.isInfinite then
    if y.isInfinite then nan else infinity negative
  else if y.isInfinite then zero negative
  else if y.isZero then
    if x.isZero then nan else infinity negative
  else ofScaled negative x.significand (x.exponent - y.exponent) y.significand

/-- The nearest number of another format. -/
def convert (g : Format) (x : Ieee f) : Ieee g :=
  if x.isNaN then nan
  else if x.isInfinite then infinity x.negative
  else ofScaled x.negative x.significand x.exponent 1

/-- The whole part as a natural number, at most `limit`; zero for NaN and for
negative numbers. -/
def toNat (limit : Nat) (x : Ieee f) : Nat :=
  if x.isNaN || x.negative then 0
  else if x.isInfinite then limit
  else min (x.significand * Nat.pow 2 x.exponent.toNat / Nat.pow 2 (-x.exponent).toNat) limit

end Ieee

end MapReduce
