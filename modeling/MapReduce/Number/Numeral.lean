/-
# Decimal literals

A `Numeral` is a decimal number digit by digit, as it stands in a text: sign,
digits before the point, digits after it, exponent. `Numeral.nearest` is the
floating-point number closest to its exact value, and `Numeral.render` writes
it down.

Key definitions: `Numeral`, `Numeral.nearest`, `Numeral.render`.
-/
import MapReduce.Number.Ieee

namespace MapReduce

/-- A decimal literal `± whole . fraction e exponent`, by its digits. -/
structure Numeral where
  negative : Bool
  whole : List Nat
  fraction : List Nat
  exponent : Int
deriving DecidableEq

/-- The natural number with the decimal digits `ds`, leading digit first. -/
def digitsValue (ds : List Nat) : Nat := ds.foldl (fun n d => 10 * n + d) 0

/-- The same, but no further digit counts once the number has reached `limit`. -/
def cappedValue (limit : Nat) (ds : List Nat) : Nat :=
  ds.foldl (fun n d => if n < limit then 10 * n + d else n) 0

/-- Appends digits to `acc` as long as the number fits 64 bits; the digits left
over. -/
def absorbDigits : Nat → List Nat → Nat × List Nat
  | acc, [] => (acc, [])
  | acc, d :: ds =>
    if 10 * acc + d < Nat.pow 2 64 then absorbDigits (10 * acc + d) ds else (acc, d :: ds)

/-- The decimal digits of a natural number, leading digit first. -/
def decimalDigits (n : Nat) : List Nat :=
  (Nat.toDigits 10 n).map (fun c => c.toNat - '0'.toNat)

/-- The text of a list of decimal digits. -/
def digitsText (ds : List Nat) : String := String.ofList (ds.map Nat.digitChar)

namespace Numeral

/-- The number of format `f` nearest to the literal's exact value. Beyond ten
to the power of `2 ^ f.exponentBits` either way the result is infinity or zero
whatever the digits are, so those powers are never computed. -/
def nearest (f : Format) (n : Numeral) : Ieee f :=
  let digits := n.whole ++ n.fraction
  let value := digitsValue digits
  let scale := n.exponent - n.fraction.length
  let range : Int := (Nat.pow 2 f.exponentBits : Nat)
  if value = 0 then Ieee.zero n.negative
  else if range < scale then Ieee.infinity n.negative
  else if scale + digits.length < -range then Ieee.zero n.negative
  else Ieee.ofRatio n.negative (value * Nat.pow 10 scale.toNat) (Nat.pow 10 (-scale).toNat)

/-- The literal as text. The point stands only before a fraction, the exponent
only if it is not zero; `plus` marks a positive exponent. -/
def render (plus : Bool) (n : Numeral) : String :=
  let sign := if n.negative then "-" else ""
  let fraction := if n.fraction.isEmpty then "" else "." ++ digitsText n.fraction
  let exponent :=
    if n.exponent = 0 then ""
    else if n.exponent < 0 then "e-" ++ Nat.repr n.exponent.natAbs
    else if plus then "e+" ++ Nat.repr n.exponent.natAbs
    else "e" ++ Nat.repr n.exponent.natAbs
  sign ++ digitsText n.whole ++ fraction ++ exponent

end Numeral

end MapReduce
