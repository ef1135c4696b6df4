/-
# Reading numbers from text

The grammar of numbers in settings. A count is an optional plus sign and
decimal digits, and must fit its width; a real number is an optional sign and
either digits with an optional point and exponent, or the name of infinity or
of NaN in any letter case. A reading fails with the first fault met from left
to right.

Key definitions: `readCount`, `readReal`, `NumberFault`.
-/
import MapReduce.Number.Numeral

namespace MapReduce

/-- Why a text is not a number. -/
inductive NumberFault where
  | emptyCount
  | badDigit
  | tooLarge
  | emptyReal
  | badReal
deriving DecidableEq

/-- The wording of a fault. -/
def NumberFault.message : NumberFault → String
  | .emptyCount => "cannot parse integer from empty string"
  | .badDigit => "invalid digit found in string"
  | .tooLarge => "number too large to fit in target type"
  | .emptyReal => "cannot parse float from empty string"
  | .badReal => "invalid float literal"

/-- The value of a decimal digit. -/
def digitValue? (c : Char) : Option Nat :=
  if '0' ≤ c ∧ c ≤ '9' then some (c.toNat - '0'.toNat) else none

/-- Reads digits onto `acc`; the value stays below `bound`. -/
def readDigits (bound : Nat) : Nat → List Char → Except NumberFault Nat
  | acc, [] => .ok acc
  | acc, c :: cs =>
    match digitValue? c with
    | none => .error .badDigit
    | some d => if 10 * acc + d < bound then readDigits bound (10 * acc + d) cs else .error .tooLarge

/-- Reads a count below `bound`. -/
def readCount (bound : Nat) (s : String) : Except NumberFault Nat :=
  match s.toList with
  | [] => .error .emptyCount
  | ['+'] => .error .badDigit
  | '+' :: cs => readDigits bound 0 cs
  | cs => readDigits bound 0 cs

/-- The leading decimal digits of a text, and the rest. -/
def spanDigits : List Char → List Nat × List Char
  | [] => ([], [])
  | c :: cs =>
    match digitValue? c with
    | none => ([], c :: cs)
    | some d => (d :: (spanDigits cs).1, (spanDigits cs).2)

/-- Reads `e`, an optional sign and digits, or nothing, up to the end. Digits
after the exponent has passed `2 ^ 16` are not counted. -/
def readExponent : List Char → Option Int
  | [] => some 0
  | c :: cs =>
    if c = 'e' ∨ c = 'E' then
      let (negative, ds) := match cs with
        | '-' :: ds => (true, ds)
        | '+' :: ds => (false, ds)
        | ds => (false, ds)
      match spanDigits ds with
      | ([], _) => none
      | (digits, []) =>
        let e : Int := cappedValue (Nat.pow 2 16) digits
        some (if negative then -e else e)
      | _ => none
    else none

/-- Reads digits with an optional point and exponent, up to the end. At least
one digit stands around the point. -/
def readNumeral (negative : Bool) (cs : List Char) : Option Numeral :=
  let (whole, rest) := spanDigits cs
  let (fraction, tail) := match rest with
    | '.' :: after => spanDigits after
    | _ => ([], rest)
  if whole.isEmpty && fraction.isEmpty then none
  else (readExponent tail).map (fun e => ⟨negative, whole, fraction, e⟩)

/-- Reads a real number of format `f`, correctly rounded. -/
def readReal (f : Format) (s : String) : Except NumberFault (Ieee f) :=
  match s.toList with
  | [] => .error .emptyReal
  | c :: cs =>
    let (negative, body) := match c with
      | '-' => (true, cs)
      | '+' => (false, cs)
      | _ => (false, c :: cs)
    let word := String.ofList (body.map Char.toLower)
    if word = "inf" ∨ word = "infinity" then .ok (Ieee.infinity negative)
    else if word = "nan" then .ok Ieee.nan
    else match readNumeral negative body with
      | some n => .ok (n.nearest f)
      | none => .error .badReal

end MapReduce
