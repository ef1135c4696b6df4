/-
# Quoted texts

How a text is shown inside a message: in double quotes, with the quote, the
backslash and the common controls escaped by a letter and every other
character without a printed form by its code point in braces.

Key definitions: `quotedChar`, `quoted`, `bracketed`.
-/
import MapReduce.Text.Unprintable

namespace MapReduce

/-- One character of a quoted text. -/
def quotedChar (c : Char) : String :=
  if c = '"' then "\\\""
  else if c = '\\' then "\\\\"
  else if c = '\n' then "\\n"
  else if c = '\r' then "\\r"
  else if c = '\t' then "\\t"
  else if c.toNat = 0 then "\\0"
  else if isUnprintable c then "\\u\x7b" ++ String.ofList (Nat.toDigits 16 c.toNat) ++ "\x7d"
  else String.singleton c

/-- A text in double quotes, with escapes. -/
def quoted (s : String) : String :=
  "\"" ++ String.join (s.toList.map quotedChar) ++ "\""

/-- Texts in square brackets, separated by a comma and a blank. -/
def bracketed (items : List String) : String :=
  "[" ++ String.intercalate ", " items ++ "]"

end MapReduce
