/-
# White space around a text

`trimBlank` drops the characters with the Unicode property White_Space from
both ends of a text.

Key definitions: `isBlank`, `trimBlank`.
-/
namespace MapReduce

/-- Whether `c` is white space: the controls from tab to carriage return, the
blank, the next-line control and the separators of all widths. -/
def isBlank (c : Char) : Bool :=
  let n := c.toNat
  (9 ≤ n && n ≤ 13) || n == 0x20 || n == 0x85 || n == 0xa0 || n == 0x1680 ||
    (0x2000 ≤ n && n ≤ 0x200a) || n == 0x2028 || n == 0x2029 || n == 0x202f || n == 0x205f ||
    n == 0x3000

/-- The text without white space at either end. -/
def trimBlank (s : String) : String :=
  String.ofList ((s.toList.dropWhile isBlank).reverse.dropWhile isBlank).reverse

end MapReduce
