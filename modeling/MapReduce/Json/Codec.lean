/-
# Values in JSON documents

How the library's values stand in a document. A record is an object of its
fields, and is also read from a list of all fields in order; unknown fields are
skipped, a known field may not stand twice, and a missing one is read as absent.
An alternative without payload is its name, and is also read from an object that
maps the name to null; one with a payload is an object of the one name.

Whole numbers are read from whole literals in range only. A real number is
written with the fewest digits that read back, NaN and the infinities as null.
It is read digit by digit: the leading digits that fit 64 bits make a number
that is rounded once, and is then multiplied or divided by the nearest number
to the power of ten. The result can differ from the nearest number to the
literal in its last place; a literal beyond the largest number is refused.

Key definitions: `Json.fields?`, `Json.variant?`, `Json.ofReal`,
`Numeral.scaled?`, `Json.asDouble?`.
-/
import MapReduce.Json.Reader
import MapReduce.Number.Shortest

namespace MapReduce

/-- `x` times the power of ten `e`, a rounded multiplication or division at a
time. A product beyond the largest number is refused. -/
def scaleByTen (x : Float64Bits) (e : Int) : Option Float64Bits :=
  if 0 ≤ e then
    if x.isZero then some x
    else if e ≤ 308 then
      let y := x.mul (Ieee.ofNat (Nat.pow 10 e.toNat))
      if y.isInfinite then none else some y
    else none
  else if -308 ≤ e then some (x.div (Ieee.ofNat (Nat.pow 10 (-e).toNat)))
  else if x.isZero then some x
  else scaleByTen (x.div (Ieee.ofNat (Nat.pow 10 308))) (e + 308)
termination_by (-e).toNat
decreasing_by omega

/-- The number a literal is read as. -/
def Numeral.scaled? (n : Numeral) : Option Float64Bits :=
  let (whole, rest) := absorbDigits 0 n.whole
  let (all, dropped) := absorbDigits whole n.fraction
  let e := n.exponent + rest.length + dropped.length - n.fraction.length
  (scaleByTen (Ieee.ofNat all) e).map (fun x => if n.negative then x.neg else x)

namespace Json

/-- Real numbers in a document: positional from `1e-5` up to `1e16`, in 32 bits
from `1e-6` up to `1e13`; always with a fractional digit. -/
def realLayout (f : Format) : Layout :=
  if f = Format.single then ⟨fun e => decide (-6 ≤ e) && decide (e < 13), true, true, .even⟩
  else ⟨fun e => decide (-5 ≤ e) && decide (e < 16), true, true, .even⟩

/-- A real number as it is written. -/
def ofReal {f : Format} (x : Ieee f) : Json :=
  if x.isNaN || x.isInfinite then .null else .real (x.numeral (realLayout f))

/-- An optional value; absence is null. -/
def ofOption {α : Type} (f : α → Json) : Option α → Json
  | none => .null
  | some a => f a

/-- A list of values. -/
def ofList {α : Type} (f : α → Json) (l : List α) : Json := .arr (l.map f)

/-- Reads a text. -/
def asText? : Json → Option String
  | .str bs => text? bs
  | _ => none

/-- Reads a truth value. -/
def asBool? : Json → Option Bool
  | .bool b => some b
  | _ => none

/-- Reads a whole number from `low` up to, not including, `high`. -/
def asInt? (low high : Int) : Json → Option Int
  | .int n => if low ≤ n ∧ n < high then some n else none
  | _ => none

/-- Reads a natural number below `bound`. -/
def asNat? (bound : Nat) : Json → Option Nat
  | .int (.ofNat n) => if n < bound then some n else none
  | _ => none

/-- Reads a natural number of `n` bits. -/
def asWord? (n : Nat) : Json → Option Nat := asNat? (Nat.pow 2 n)

/-- Reads a word of 8 bits. -/
def asUInt8? (j : Json) : Option UInt8 := (asWord? 8 j).map UInt8.ofNat

/-- Reads a word of 32 bits. -/
def asUInt32? (j : Json) : Option UInt32 := (asWord? 32 j).map UInt32.ofNat

/-- Reads a word of 64 bits. -/
def asUInt64? (j : Json) : Option UInt64 := (asWord? 64 j).map UInt64.ofNat

/-- The nearest number to a whole one. -/
def nearestInt (f : Format) (n : Int) : Ieee f := Ieee.ofRatio (decide (n < 0)) n.natAbs 1

/-- Reads a real number of 64 bits. -/
def asDouble? : Json → Option Float64Bits
  | .int n => some (nearestInt Format.double n)
  | .real x => x.scaled?
  | _ => none

/-- Reads a real number of 32 bits: the nearest one to a whole number, and for a
decimal literal the number of 64 bits, rounded again. -/
def asSingle? : Json → Option Float32Bits
  | .int n => some (nearestInt Format.single n)
  | .real x => x.scaled?.map (Ieee.convert Format.single)
  | _ => none

/-- Reads a list of values. -/
def asList? {α : Type} (f : Json → Option α) : Json → Option (List α)
  | .arr items => items.mapM f
  | _ => none

/-- Reads an optional value; null is absence. -/
def asOption? {α : Type} (f : Json → Option α) : Json → Option (Option α)
  | .null => some none
  | j => (f j).map some

/-- The field `name` among named values: absent, there once, or, if it stands
twice, refused. -/
def field? (named : List (String × Json)) (name : String) : Option (Option Json) :=
  match named.filter (fun p => p.1 == name) with
  | [] => some none
  | [p] => some (some p.2)
  | _ => none

/-- The fields of a record with the given names, from an object or from a list
of all of them in order. -/
def fields? (names : List String) : Json → Option (List (Option Json))
  | .arr items => if items.length = names.length then some (items.map some) else none
  | .obj fields => do
    let named ← fields.mapM (fun p => (text? p.1).map (fun k => (k, p.2)))
    names.mapM (field? named)
  | _ => none

/-- The name of an alternative, and its payload. -/
def variant? : Json → Option (String × Option Json)
  | .str bs => (text? bs).map (fun name => (name, none))
  | .obj [(k, j)] => (text? k).map (fun name => (name, some j))
  | _ => none

/-- Reads a field that must be there. -/
def required? {α : Type} (f : Json → Option α) (j : Option Json) : Option α := j.bind f

/-- Reads a field that may be absent or null. -/
def optional? {α : Type} (f : Json → Option α) : Option Json → Option (Option α)
  | none => some none
  | some j => asOption? f j

/-- Whether a payload is that of an alternative without one. -/
def noPayload : Option Json → Bool
  | none => true
  | some .null => true
  | _ => false

/-- An alternative with a payload. -/
def alternative (name : String) (payload : Json) : Json := .record [(name, payload)]

end Json

end MapReduce
