/-
# The fewest digits that read back

The numbers that round to a finite floating-point number `m * 2 ^ q` form an
interval: from half way to the number below to half way to the number above,
the ends included exactly when `m` is even. `Ieee.shortest` is the decimal with
the fewest significant digits in that interval, and of those the nearest to the
number. All comparisons are between natural numbers: the ends are whole
numbers of quarter units `2 ^ (q - 2)`.

A `Layout` says how such a decimal is written: for which leading exponents
positionally, whether a whole number keeps a `.0`, and where an exact tie
between two decimals goes.

Key definitions: `Ieee.onGrid`, `Ieee.shortest`, `Layout`, `Ieee.numeral`,
`Ieee.render`.
-/
import MapReduce.Number.Numeral

namespace MapReduce

/-- The decimal `d₀.d₁d₂… * 10 ^ exponent` with the digits `d₀, d₁, …`. -/
structure Significant where
  digits : List Nat
  exponent : Int
deriving DecidableEq

/-- Where an exact tie between two decimals of equal length goes. -/
inductive Tie where
  | up
  | even
deriving DecidableEq

/-- How a decimal is written. -/
structure Layout where
  /-- Whether a decimal with this leading exponent is written without one. -/
  positional : Int → Bool
  /-- Whether a positional whole number ends in `.0`. -/
  pointZero : Bool
  /-- Whether a positive exponent carries a plus sign. -/
  plus : Bool
  tie : Tie

namespace Significant

/-- The decimal `d * 10 ^ g`, without the zeros at its end. -/
def ofGrid (d : Nat) (g : Int) : Significant :=
  let ds := decimalDigits d
  ⟨(ds.reverse.dropWhile (· == 0)).reverse, g + ds.length - 1⟩

/-- The decimal written without an exponent. -/
def positional (negative : Bool) (s : Significant) : Numeral :=
  if s.exponent < 0 then
    ⟨negative, [0], List.replicate (-s.exponent - 1).toNat 0 ++ s.digits, 0⟩
  else
    let n := s.exponent.toNat + 1
    ⟨negative, s.digits.take n ++ List.replicate (n - s.digits.length) 0, s.digits.drop n, 0⟩

/-- The decimal written with its leading exponent. -/
def scientific (negative : Bool) (s : Significant) : Numeral :=
  ⟨negative, s.digits.take 1, s.digits.drop 1, s.exponent⟩

end Significant

/-- The least `k` with `num / den < 10 ^ k`, for positive `num` and `den`. -/
def decimalScale (num den : Nat) : Int :=
  if den ≤ num then (decimalDigits (num / den)).length
  else
    let c : Nat := (decimalDigits (den / num)).length
    if num * Nat.pow 10 (c - 1) < den then 1 - (c : Int) else 2 - (c : Int)

namespace Ieee

variable {f : Format}

/-- Whether the gap below `x` is half the gap above it. -/
def narrowBelow (x : Ieee f) : Bool :=
  x.magnitude % Nat.pow 2 f.fractionBits == 0 && decide (1 < x.magnitude / Nat.pow 2 f.fractionBits)

/-- The multiple of `10 ^ g` that reads back as the positive finite number `x`
and is nearest to it, if one of the two multiples around `x` reads back. -/
def onGrid (tie : Tie) (x : Ieee f) (g : Int) : Option Nat :=
  let m := x.significand
  let q := x.exponent - 2
  -- `d * unit` against `n * quarter` compares `d * 10 ^ g` with `n * 2 ^ q`.
  let quarter := Nat.pow 2 q.toNat * Nat.pow 10 (-g).toNat
  let unit := Nat.pow 2 (-q).toNat * Nat.pow 10 g.toNat
  let low := if x.narrowBelow then 4 * m - 1 else 4 * m - 2
  let high := 4 * m + 2
  let readsBack (d : Nat) : Bool :=
    if m % 2 = 0 then decide (low * quarter ≤ d * unit) && decide (d * unit ≤ high * quarter)
    else decide (low * quarter < d * unit) && decide (d * unit < high * quarter)
  let d := 4 * m * quarter / unit
  match readsBack d, readsBack (d + 1) with
  | true, false => some d
  | false, true => some (d + 1)
  | false, false => none
  | true, true =>
    let middle := (2 * d + 1) * unit
    let value := 8 * m * quarter
    if value < middle then some d
    else if middle < value then some (d + 1)
    else match tie with
      | .up => some (d + 1)
      | .even => some (d + d % 2)

/-- The shortest decimal that reads back as the finite number `x`, of several
the nearest. Seventeen digits are always enough for 64 bits; if a format needs
more, the exact value is the answer. -/
def shortest (tie : Tie) (x : Ieee f) : Significant :=
  if x.isZero then ⟨[0], 0⟩
  else
    let num := x.significand * Nat.pow 2 x.exponent.toNat
    let den := Nat.pow 2 (-x.exponent).toNat
    let k := decimalScale num den
    match (List.range 17).findSome? (fun n : Nat =>
      let g := k - 1 - (n : Int)
      (x.onGrid tie g).map (fun d => (d, g))) with
    | some (d, g) => Significant.ofGrid d g
    | none => Significant.ofGrid (num * Nat.pow 5 (-x.exponent).toNat) (min x.exponent 0)

/-- The finite number `x` as it is written under `layout`. -/
def numeral (layout : Layout) (x : Ieee f) : Numeral :=
  let s := x.shortest layout.tie
  if layout.positional s.exponent then
    let n := s.positional x.negative
    if layout.pointZero && n.fraction.isEmpty then ⟨n.negative, n.whole, [0], n.exponent⟩ else n
  else s.scientific x.negative

/-- The text of `x` under `layout`. -/
def render (layout : Layout) (x : Ieee f) : String :=
  if x.isNaN then "NaN"
  else if x.isInfinite then if x.negative then "-inf" else "inf"
  else (x.numeral layout).render layout.plus

end Ieee

namespace Layout

/-- Numbers inside a shown value: positional from `1e-4` up to `1e16`, always
with a fractional digit. -/
def shown : Layout := ⟨fun e => decide (-4 ≤ e) && decide (e < 16), true, false, .up⟩

/-- Numbers inside a sentence: always positional, whole numbers without a
point. -/
def plain : Layout := ⟨fun _ => true, false, false, .up⟩

end Layout

end MapReduce
