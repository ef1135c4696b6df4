/-
# Texts as bytes

Files, digests and key encodings are byte strings; a text enters them in
UTF-8. `utf8` loses nothing and `text?` refuses exactly the byte strings that
are not UTF-8.

Key definitions: `Bytes`, `utf8`, `text?`, `littleEndian`, `hexText`,
`ofHexText?`.
Key theorems: `text?_utf8`, `utf8_inj`.
-/
namespace MapReduce

/-- A string of bytes. -/
abbrev Bytes := List UInt8

/-- The bytes of a text in UTF-8. -/
def utf8 (s : String) : Bytes := s.toByteArray.data.toList

/-- The text with these bytes in UTF-8, if they are UTF-8. -/
def text? (bs : Bytes) : Option String := String.fromUTF8? ⟨bs.toArray⟩

/-- The bytes of a text read back as the text. -/
theorem text?_utf8 (s : String) : text? (utf8 s) = some s := by
  have h : (⟨s.toByteArray.data⟩ : ByteArray).IsValidUTF8 := s.isValidUTF8
  simp only [text?, utf8, String.fromUTF8?, Array.toArray_toList]
  exact dif_pos h

/-- Different texts have different bytes. -/
theorem utf8_inj {s t : String} (h : utf8 s = utf8 t) : s = t := by
  have := congrArg text? h
  simpa [text?_utf8] using this

/-- The `n` low bytes of a natural number, lowest first. -/
def littleEndian : Nat → Nat → Bytes
  | 0, _ => []
  | n + 1, v => UInt8.ofNat v :: littleEndian n (v / 256)

/-- The natural number whose bytes are `bs`, lowest first. -/
def ofLittleEndian : Bytes → Nat
  | [] => 0
  | b :: bs => b.toNat + 256 * ofLittleEndian bs

/-- Bytes as pairs of lower-case hexadecimal digits. -/
def hexText (bs : Bytes) : String :=
  String.ofList (bs.flatMap (fun b =>
    [Nat.digitChar (b.toNat / 16), Nat.digitChar (b.toNat % 16)]))

/-- The value of a hexadecimal digit. -/
def hexValue? (b : UInt8) : Option Nat :=
  if 0x30 ≤ b ∧ b ≤ 0x39 then some (b.toNat - 0x30)
  else if 0x61 ≤ b ∧ b ≤ 0x66 then some (b.toNat - 0x57)
  else if 0x41 ≤ b ∧ b ≤ 0x46 then some (b.toNat - 0x37)
  else none

/-- The bytes of pairs of hexadecimal digits. -/
def ofHexDigits? : List UInt8 → Option Bytes
  | [] => some []
  | a :: b :: rest => do
    return UInt8.ofNat (16 * (← hexValue? a) + (← hexValue? b)) :: (← ofHexDigits? rest)
  | _ => none

/-- The bytes of a text of pairs of hexadecimal digits. -/
def ofHexText? (s : String) : Option Bytes := ofHexDigits? (utf8 s)

end MapReduce
