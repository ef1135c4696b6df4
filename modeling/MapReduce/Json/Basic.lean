/-
# JSON documents

The tree of a JSON document and its written form. A whole number and a decimal
literal are different leaves, because a count may only be written as the first.
A string is kept as its bytes after unescaping: a literal may hold a lone
surrogate or bytes that are not UTF-8, and then it is no text, but a reader
that skips the value need not care.

`Json.write` gives both written forms, the compact one and the one with a line
per item and two blanks per level.

Key definitions: `Json`, `Json.write`, `Json.compact`, `Json.pretty`.
-/
import MapReduce.Number.Numeral
import MapReduce.Text.Bytes

namespace MapReduce

/-- A JSON document. -/
inductive Json where
  | null
  | bool (b : Bool)
  /-- A whole number, written without point and exponent. -/
  | int (n : Int)
  /-- A decimal literal. -/
  | real (x : Numeral)
  /-- A string, as the bytes its literal stands for. -/
  | str (bytes : Bytes)
  | arr (items : List Json)
  /-- An object, with its fields as they stand. -/
  | obj (fields : List (Bytes × Json))

namespace Json

instance : Inhabited Json := ⟨.null⟩

/-- A text as a JSON string. -/
def text (s : String) : Json := .str (utf8 s)

/-- A natural number as a JSON number. -/
def nat (n : Nat) : Json := .int n

/-- A record as a JSON object. -/
def record (fields : List (String × Json)) : Json :=
  .obj (fields.map (fun p => (utf8 p.1, p.2)))

/-- One byte of a string literal: the quote, the backslash and the controls
are escaped. -/
def escapeByte (b : UInt8) : Bytes :=
  if b = 0x22 then utf8 "\\\""
  else if b = 0x5c then utf8 "\\\\"
  else if b = 0x08 then utf8 "\\b"
  else if b = 0x09 then utf8 "\\t"
  else if b = 0x0a then utf8 "\\n"
  else if b = 0x0c then utf8 "\\f"
  else if b = 0x0d then utf8 "\\r"
  else if b < 0x20 then utf8 ("\\u00" ++ hexText [b])
  else [b]

/-- A string literal. -/
def writeString (bs : Bytes) : Bytes :=
  0x22 :: (bs.flatMap escapeByte ++ [0x22])

/-- The line break before an item at nesting `depth`; nothing in the compact
form. -/
def lineBreak (pretty : Bool) (depth : Nat) : Bytes :=
  if pretty then 0x0a :: List.replicate (2 * depth) 0x20 else []

/-- What divides a field's name from its value. -/
def colon (pretty : Bool) : Bytes :=
  if pretty then [0x3a, 0x20] else [0x3a]

mutual

/-- The written form of a document at nesting `depth`. -/
def write (pretty : Bool) (depth : Nat) : Json → Bytes
  | .null => utf8 "null"
  | .bool true => utf8 "true"
  | .bool false => utf8 "false"
  | .int n => utf8 (Int.repr n)
  | .real x => utf8 (x.render true)
  | .str bs => writeString bs
  | .arr [] => [0x5b, 0x5d]
  | .arr (j :: js) =>
    0x5b :: (lineBreak pretty (depth + 1) ++ write pretty (depth + 1) j ++
      writeItems pretty depth js)
  | .obj [] => [0x7b, 0x7d]
  | .obj ((k, j) :: fs) =>
    0x7b :: (lineBreak pretty (depth + 1) ++ writeString k ++ colon pretty ++
      write pretty (depth + 1) j ++ writeFields pretty depth fs)

/-- The items after the first, and the closing bracket. -/
def writeItems (pretty : Bool) (depth : Nat) : List Json → Bytes
  | [] => lineBreak pretty depth ++ [0x5d]
  | j :: js =>
    0x2c :: (lineBreak pretty (depth + 1) ++ write pretty (depth + 1) j ++
      writeItems pretty depth js)

/-- The fields after the first, and the closing brace. -/
def writeFields (pretty : Bool) (depth : Nat) : List (Bytes × Json) → Bytes
  | [] => lineBreak pretty depth ++ [0x7d]
  | (k, j) :: fs =>
    0x2c :: (lineBreak pretty (depth + 1) ++ writeString k ++ colon pretty ++
      write pretty (depth + 1) j ++ writeFields pretty depth fs)

end

/-- The document without blanks. -/
def compact (j : Json) : Bytes := write false 0 j

/-- The document with a line per item. -/
def pretty (j : Json) : Bytes := write true 0 j

end Json

end MapReduce
