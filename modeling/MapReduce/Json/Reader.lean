/-
# Reading JSON documents

A strict reader: one value with blanks around it and nothing after it. Numbers
have no leading zeros and no plus sign, digits stand on both sides of a point,
a string holds no raw control character, and no comma stands before a closing
bracket. A whole number is a literal without point and exponent that fits 64
bits; any other literal is decimal and keeps its digits, and so does `-0`.

The reader walks the bytes with a bound on the number of steps. Each step
consumes a byte, so the length of the input is always enough.

Key definitions: `Json.readString`, `Json.readNumber`, `Json.readValue`,
`Json.parse`.
-/
import MapReduce.Json.Basic

namespace MapReduce

namespace Json

/-- The input after its leading blanks. -/
def skipBlank : Bytes → Bytes
  | [] => []
  | b :: bs => if b = 0x20 ∨ b = 0x0a ∨ b = 0x0d ∨ b = 0x09 then skipBlank bs else b :: bs

/-- Four hexadecimal digits, and the rest. -/
def readUnit : Bytes → Option (Nat × Bytes)
  | a :: b :: c :: d :: rest => do
    let a ← hexValue? a
    let b ← hexValue? b
    let c ← hexValue? c
    let d ← hexValue? d
    return (((a * 16 + b) * 16 + c) * 16 + d, rest)
  | _ => none

/-- The bytes of a 16-bit unit that stands alone. Half of a surrogate pair is
no character: its three bytes are not UTF-8. -/
def unitBytes (n : Nat) : Bytes :=
  if 0xd800 ≤ n ∧ n < 0xe000 then
    [UInt8.ofNat (0xe0 + n / 4096), UInt8.ofNat (0x80 + n / 64 % 64), UInt8.ofNat (0x80 + n % 64)]
  else String.utf8EncodeChar (Char.ofNat n)

/-- What follows a backslash: the bytes it stands for, and the rest. Two escaped
halves of a surrogate pair are one character. -/
def readEscape : Bytes → Option (Bytes × Bytes)
  | [] => none
  | b :: rest =>
    if b = 0x22 ∨ b = 0x5c ∨ b = 0x2f then some ([b], rest)
    else if b = 0x62 then some ([0x08], rest)
    else if b = 0x66 then some ([0x0c], rest)
    else if b = 0x6e then some ([0x0a], rest)
    else if b = 0x72 then some ([0x0d], rest)
    else if b = 0x74 then some ([0x09], rest)
    else if b = 0x75 then
      match readUnit rest with
      | none => none
      | some (high, 0x5c :: 0x75 :: more) =>
        match readUnit more with
        | none => none
        | some (low, after) =>
          if 0xd800 ≤ high ∧ high < 0xdc00 ∧ 0xdc00 ≤ low ∧ low < 0xe000 then
            some (String.utf8EncodeChar
              (Char.ofNat (0x10000 + (high - 0xd800) * 1024 + (low - 0xdc00))), after)
          else some (unitBytes high, 0x5c :: 0x75 :: more)
      | some (n, after) => some (unitBytes n, after)
    else none

/-- The rest of a string literal after its opening quote: its bytes, and what
follows the closing quote. -/
def readString : Nat → Bytes → Option (Bytes × Bytes)
  | 0, _ => none
  | _ + 1, [] => none
  | n + 1, b :: rest =>
    if b = 0x22 then some ([], rest)
    else if b < 0x20 then none
    else if b = 0x5c then
      match readEscape rest with
      | none => none
      | some (bs, after) => (readString n after).map (fun r => (bs ++ r.1, r.2))
    else (readString n rest).map (fun r => (b :: r.1, r.2))

/-- The leading decimal digits, and the rest. -/
def takeDigits : Bytes → List Nat × Bytes
  | [] => ([], [])
  | b :: bs =>
    if 0x30 ≤ b ∧ b ≤ 0x39 then
      let r := takeDigits bs
      ((b.toNat - 0x30) :: r.1, r.2)
    else ([], b :: bs)

/-- A fraction after its point, or none if there is no point. -/
def readFraction : Bytes → Option (List Nat × Bytes)
  | 0x2e :: rest =>
    match takeDigits rest with
    | ([], _) => none
    | (ds, after) => some (ds, after)
  | rest => some ([], rest)

/-- An exponent with its mark, or none if there is no mark. Digits after the
exponent has passed `2 ^ 31` are not counted. -/
def readExponentPart : Bytes → Option (Option Int × Bytes)
  | [] => some (none, [])
  | b :: rest =>
    if b = 0x65 ∨ b = 0x45 then
      let (negative, digits) := match rest with
        | 0x2d :: r => (true, r)
        | 0x2b :: r => (false, r)
        | r => (false, r)
      match takeDigits digits with
      | ([], _) => none
      | (ds, after) =>
        let e : Int := cappedValue (Nat.pow 2 31) ds
        some (some (if negative then -e else e), after)
    else some (none, b :: rest)

/-- The whole number with a sign and digits, if it fits 64 bits. A negative zero
is none. -/
def wholeNumber? (negative : Bool) (ds : List Nat) : Option Int :=
  match absorbDigits 0 ds with
  | (n, []) =>
    if !negative then some n
    else if 0 < n ∧ n ≤ Nat.pow 2 63 then some (-n)
    else none
  | _ => none

/-- A number after its sign. -/
def readUnsigned (negative : Bool) (bs : Bytes) : Option (Json × Bytes) :=
  match takeDigits bs with
  | ([], _) => none
  | (0 :: _ :: _, _) => none
  | (whole, rest) => do
    let (fraction, rest) ← readFraction rest
    let (exponent, rest) ← readExponentPart rest
    let literal : Json := .real ⟨negative, whole, fraction, exponent.getD 0⟩
    if fraction.isEmpty && exponent.isNone then
      return (((wholeNumber? negative whole).map Json.int).getD literal, rest)
    else return (literal, rest)

/-- A number. -/
def readNumber : Bytes → Option (Json × Bytes)
  | 0x2d :: rest => readUnsigned true rest
  | bs => readUnsigned false bs

/-- The input after the word `w`, if it starts with it. -/
def expect (w bs : Bytes) : Option Bytes :=
  if w.isPrefixOf bs then some (bs.drop w.length) else none

mutual

/-- A value, and the rest. -/
def readValue : Nat → Bytes → Option (Json × Bytes)
  | 0, _ => none
  | n + 1, bs =>
    match skipBlank bs with
    | [] => none
    | b :: rest =>
      if b = 0x22 then (readString n rest).map (fun r => (.str r.1, r.2))
      else if b = 0x5b then
        match skipBlank rest with
        | 0x5d :: after => some (.arr [], after)
        | _ => (readItems n rest).map (fun r => (.arr r.1, r.2))
      else if b = 0x7b then
        match skipBlank rest with
        | 0x7d :: after => some (.obj [], after)
        | _ => (readFields n rest).map (fun r => (.obj r.1, r.2))
      else if b = 0x6e then (expect (utf8 "ull") rest).map (fun r => (.null, r))
      else if b = 0x74 then (expect (utf8 "rue") rest).map (fun r => (.bool true, r))
      else if b = 0x66 then (expect (utf8 "alse") rest).map (fun r => (.bool false, r))
      else readNumber (b :: rest)

/-- One or more items and the closing bracket. -/
def readItems : Nat → Bytes → Option (List Json × Bytes)
  | 0, _ => none
  | n + 1, bs =>
    match readValue n bs with
    | none => none
    | some (j, rest) =>
      match skipBlank rest with
      | 0x2c :: more => (readItems n more).map (fun r => (j :: r.1, r.2))
      | 0x5d :: after => some ([j], after)
      | _ => none

/-- One or more fields and the closing brace. -/
def readFields : Nat → Bytes → Option (List (Bytes × Json) × Bytes)
  | 0, _ => none
  | n + 1, bs =>
    match skipBlank bs with
    | 0x22 :: start =>
      match readString n start with
      | none => none
      | some (k, rest) =>
        match skipBlank rest with
        | 0x3a :: body =>
          match readValue n body with
          | none => none
          | some (j, after) =>
            match skipBlank after with
            | 0x2c :: more => (readFields n more).map (fun r => ((k, j) :: r.1, r.2))
            | 0x7d :: tail => some ([(k, j)], tail)
            | _ => none
        | _ => none
    | _ => none

end

/-- The document that a byte string is, if it is one. -/
def parse (bs : Bytes) : Option Json :=
  match readValue (bs.length + 1) bs with
  | some (j, rest) => if (skipBlank rest).isEmpty then some j else none
  | none => none

end Json

end MapReduce
