/-
# Documents read back

The reader takes exactly a written document off the front of its input, in the
compact and in the indented form and at every depth. The induction is over the
document, with whatever can follow it in a larger one as the rest of the input
(`Json.readValue_write`); the bound on the reader's steps is the length of the
text, since every step takes a byte. Only numbers can fail: a whole number beyond
64 bits is read as a decimal one, and a decimal literal has to look like one. A
document without such numbers, and with texts for strings, is `Json.Legible`; its
written form is a text too.

So the written form tells documents apart, whichever of the two forms is used
(`Json.eq_of_write_eq`).

Key definitions: `Json.Legible`.
Key theorems: `Json.readValue_write`, `Json.parse_write`, `Json.eq_of_write_eq`,
`Json.Legible.isText_write`.
-/
import MapReduce.Proofs.Literals

namespace MapReduce
namespace Json

/-- Every number of the document is a literal that is read as that number, and
every string is a text. -/
inductive Legible : Json → Prop
  | null : Legible .null
  | bool (b : Bool) : Legible (.bool b)
  | int {n : Int} (range : WholeRange n) : Legible (.int n)
  | real {x : Numeral} (legible : x.Legible) : Legible (.real x)
  | str {bs : Bytes} (text : IsText bs) : Legible (.str bs)
  | arr {items : List Json} (all : ∀ j ∈ items, Legible j) : Legible (.arr items)
  | obj {fields : List (Bytes × Json)} (names : ∀ f ∈ fields, IsText f.1)
      (all : ∀ f ∈ fields, Legible f.2) : Legible (.obj fields)

/-! ### Blanks and brackets -/

theorem skipBlank_replicate (bs : Bytes) : ∀ n, skipBlank (List.replicate n 0x20 ++ bs) = skipBlank bs
  | 0 => rfl
  | n + 1 => skipBlank_replicate bs n

/-- A line break is blank. -/
theorem skipBlank_lineBreak (pretty : Bool) (depth : Nat) (bs : Bytes) :
    skipBlank (lineBreak pretty depth ++ bs) = skipBlank bs := by
  cases pretty with
  | false => rfl
  | true => exact skipBlank_replicate bs (2 * depth)

theorem readValue_congr {bs bs' : Bytes} (h : skipBlank bs = skipBlank bs') (n : Nat) :
    readValue n bs = readValue n bs' := by
  cases n with
  | zero => rfl
  | succ n => rw [readValue, readValue, h]

/-- What is read as a number starts with a sign or a digit, so it is read as a
value. -/
theorem readValue_of_readNumber {bs : Bytes} {r : Json × Bytes} (h : readNumber bs = some r) (n : Nat) :
    readValue (n + 1) bs = some r := by
  have hother : ∀ c ∈ [0x20, 0x0a, 0x0d, 0x09, 0x22, 0x5b, 0x7b, 0x6e, 0x74, 0x66],
      ¬ ((0x30 : UInt8) ≤ c ∧ c ≤ 0x39) := forall_mem_of_all (by decide)
  cases bs with
  | nil => cases h
  | cons b bs =>
    by_cases hsign : b = 0x2d
    · subst hsign
      exact h
    · by_cases hdigit : 0x30 ≤ b ∧ b ≤ 0x39
      · have hne : ∀ c ∈ [0x20, 0x0a, 0x0d, 0x09, 0x22, 0x5b, 0x7b, 0x6e, 0x74, 0x66], b ≠ c :=
          fun c hc hb => hother c hc (hb ▸ hdigit)
        simp only [List.forall_mem_cons, List.not_mem_nil, false_implies, implies_true, and_true] at hne
        rw [readValue, skipBlank]
        simp only [hne, or_self, ↓reduceIte, h]
      · have hunsigned : readNumber (b :: bs) = readUnsigned false (b :: bs) :=
          readNumber.eq_2 _ fun rest hrest => hsign (List.cons.inj hrest).1
        rw [hunsigned, readUnsigned, takeDigits, if_neg hdigit] at h
        cases h

/-- Items after a bracket: they do not start with the closing one. -/
theorem readValue_bracket {n : Nat} {bs rest : Bytes} {items : List Json}
    (h : readItems n bs = some (items, rest)) : readValue (n + 1) (0x5b :: bs) = some (.arr items, rest) := by
  have hvalue : ∀ {m after}, skipBlank bs = 0x5d :: after → readValue m bs = none := by
    intro m after hs
    cases m with
    | zero => rfl
    | succ m =>
      rw [readValue, hs]
      rfl
  have hopen : ∀ after, skipBlank bs ≠ 0x5d :: after := by
    intro after hs
    cases n with
    | zero => cases h
    | succ n =>
      rw [readItems, hvalue hs] at h
      cases h
  rw [readValue, skipBlank, if_neg (by decide)]
  dsimp only
  rw [if_neg (by decide), if_pos rfl]
  split
  · exact absurd ‹_› (hopen _)
  · rw [h]
    rfl

/-- Fields after a brace: they start with a quote. -/
theorem readValue_brace {n : Nat} {bs rest : Bytes} {fields : List (Bytes × Json)}
    (h : readFields n bs = some (fields, rest)) : readValue (n + 1) (0x7b :: bs) = some (.obj fields, rest) := by
  have hopen : ∀ after, skipBlank bs ≠ 0x7d :: after := by
    intro after hs
    cases n with
    | zero => cases h
    | succ n =>
      rw [readFields, hs] at h
      cases h
  rw [readValue, skipBlank, if_neg (by decide)]
  dsimp only
  rw [if_neg (by decide), if_neg (by decide), if_pos rfl]
  split
  · exact absurd ‹_› (hopen _)
  · rw [h]
    rfl

section

variable {n : Nat} {bs rest after more : Bytes} {j : Json}

theorem readItems_last (hv : readValue n bs = some (j, rest)) (hs : skipBlank rest = 0x5d :: after) :
    readItems (n + 1) bs = some ([j], after) := by
  rw [readItems, hv]
  simp only [hs]

theorem readItems_next {js : List Json} (hv : readValue n bs = some (j, rest))
    (hs : skipBlank rest = 0x2c :: more) (hi : readItems n more = some (js, after)) :
    readItems (n + 1) bs = some (j :: js, after) := by
  rw [readItems, hv]
  simp only [hs, hi]
  rfl

/-- A field's name and value, and what follows them. -/
def FieldRead (n : Nat) (bs : Bytes) (k : Bytes) (j : Json) (rest : Bytes) : Prop :=
  ∃ start mid body, skipBlank bs = 0x22 :: start ∧ readString n start = some (k, mid) ∧
    skipBlank mid = 0x3a :: body ∧ readValue n body = some (j, rest)

theorem readFields_last {k : Bytes} (hf : FieldRead n bs k j rest) (hs : skipBlank rest = 0x7d :: after) :
    readFields (n + 1) bs = some ([(k, j)], after) := by
  obtain ⟨start, mid, body, hstart, hname, hmid, hvalue⟩ := hf
  rw [readFields, hstart]
  simp only [hname, hmid, hvalue, hs]

theorem readFields_next {k : Bytes} {fs : List (Bytes × Json)} (hf : FieldRead n bs k j rest)
    (hs : skipBlank rest = 0x2c :: more) (hi : readFields n more = some (fs, after)) :
    readFields (n + 1) bs = some ((k, j) :: fs, after) := by
  obtain ⟨start, mid, body, hstart, hname, hmid, hvalue⟩ := hf
  rw [readFields, hstart]
  simp only [hname, hmid, hvalue, hs, hi]
  rfl

end

/-! ### What is written -/

/-- The items between the brackets, and the closing one. -/
def itemsBytes (pretty : Bool) (depth : Nat) : List Json → Bytes
  | [] => []
  | j :: js => lineBreak pretty (depth + 1) ++ write pretty (depth + 1) j ++ writeItems pretty depth js

/-- The fields between the braces, and the closing one. -/
def fieldsBytes (pretty : Bool) (depth : Nat) : List (Bytes × Json) → Bytes
  | [] => []
  | (k, j) :: fs =>
    lineBreak pretty (depth + 1) ++ writeString k ++ colon pretty ++ write pretty (depth + 1) j ++
      writeFields pretty depth fs

theorem follows_writeItems (pretty : Bool) (depth : Nat) (js : List Json) (rest : Bytes) :
    Follows (writeItems pretty depth js ++ rest) := by
  cases js with
  | nil =>
    cases pretty with
    | false => exact .bracket rest
    | true => exact .line _
  | cons j js => exact .comma _

theorem follows_writeFields (pretty : Bool) (depth : Nat) (fs : List (Bytes × Json)) (rest : Bytes) :
    Follows (writeFields pretty depth fs ++ rest) := by
  cases fs with
  | nil =>
    cases pretty with
    | false => exact .brace rest
    | true => exact .line _
  | cons f fs => exact .comma _

theorem length_writeItems_pos (pretty : Bool) (depth : Nat) (js : List Json) :
    0 < (writeItems pretty depth js).length := by
  cases js <;> simp [writeItems]

theorem length_writeFields_pos (pretty : Bool) (depth : Nat) (fs : List (Bytes × Json)) :
    0 < (writeFields pretty depth fs).length := by
  cases fs <;> simp [writeFields]

/-- A written name and colon before what is read as a value. -/
theorem fieldRead_write (pretty : Bool) (depth : Nat) {n : Nat} {k bs rest : Bytes} {j : Json}
    (hk : (writeString k).length ≤ n) (hv : readValue n bs = some (j, rest)) :
    FieldRead n (lineBreak pretty depth ++ (writeString k ++ (colon pretty ++ bs))) k j rest := by
  have hbody := length_le_flatMap_escapeByte k
  have hlen : k.length < n := by
    simp only [writeString, List.length_cons, List.length_append] at hk
    omega
  have hcolon : ∃ body, skipBlank (colon pretty ++ bs) = 0x3a :: body ∧ readValue n body = some (j, rest) := by
    cases pretty with
    | false => exact ⟨bs, rfl, hv⟩
    | true =>
      have hblank : skipBlank (0x20 :: bs) = skipBlank bs := rfl
      exact ⟨0x20 :: bs, rfl, (readValue_congr hblank n).trans hv⟩
  obtain ⟨body, hbody, hvalue⟩ := hcolon
  refine ⟨_, _, body, ?_, readString_flatMap _ k n hlen, hbody, hvalue⟩
  rw [skipBlank_lineBreak]
  simp [writeString, skipBlank]

/-! ### Reading what is written -/

mutual

/-- **A written value is read back**, whatever follows it in a larger document. -/
theorem readValue_write (pretty : Bool) : ∀ (j : Json) (depth n : Nat) (rest : Bytes), Legible j →
    (write pretty depth j).length ≤ n → Follows rest →
    readValue (n + 1) (write pretty depth j ++ rest) = some (j, rest)
  | .null, _, _, _, _, _, _ => rfl
  | .bool true, _, _, _, _, _, _ => rfl
  | .bool false, _, _, _, _, _, _ => rfl
  | .int _, _, n, _, .int range, _, hr => readValue_of_readNumber (readNumber_int range hr) n
  | .real _, _, n, _, .real legible, _, hr => readValue_of_readNumber (readNumber_real legible hr) n
  | .str bs, depth, n, rest, _, hn, _ => by
    have hbody := length_le_flatMap_escapeByte bs
    have hlen : bs.length < n := by
      simp only [write, writeString, List.length_cons, List.length_append] at hn
      omega
    have hstring := readString_flatMap rest bs n hlen
    simp [write, writeString, readValue, skipBlank, hstring]
  | .arr [], _, _, _, _, _, _ => rfl
  | .arr (j :: js), depth, 0, _, _, hn, _ => nomatch hn
  | .arr (j :: js), depth, n + 1, rest, .arr all, hn, _ => by
    have hlen : (itemsBytes pretty depth (j :: js)).length ≤ n := Nat.le_of_succ_le_succ hn
    exact readValue_bracket (readItems_write pretty (j :: js) depth n rest (by simp) all hlen)
  | .obj [], _, _, _, _, _, _ => rfl
  | .obj ((k, j) :: fs), depth, 0, _, _, hn, _ => nomatch hn
  | .obj ((k, j) :: fs), depth, n + 1, rest, .obj _ all, hn, _ => by
    have hlen : (fieldsBytes pretty depth ((k, j) :: fs)).length ≤ n := Nat.le_of_succ_le_succ hn
    exact readValue_brace (readFields_write pretty ((k, j) :: fs) depth n rest (by simp) all hlen)

theorem readItems_write (pretty : Bool) : ∀ (items : List Json) (depth n : Nat) (rest : Bytes),
    items ≠ [] → (∀ j ∈ items, Legible j) → (itemsBytes pretty depth items).length ≤ n →
    readItems (n + 1) (itemsBytes pretty depth items ++ rest) = some (items, rest)
  | j :: js, depth, n, rest, _, all, hn => by
    simp only [itemsBytes, List.length_append] at hn
    have hpos := length_writeItems_pos pretty depth js
    obtain ⟨m, rfl⟩ : ∃ m, n = m + 1 := ⟨n - 1, by omega⟩
    have hvalue : readValue (m + 1) (itemsBytes pretty depth (j :: js) ++ rest) =
        some (j, writeItems pretty depth js ++ rest) := by
      rw [itemsBytes, List.append_assoc, List.append_assoc,
        readValue_congr (skipBlank_lineBreak pretty (depth + 1) _)]
      exact readValue_write pretty j (depth + 1) m _ (all j List.mem_cons_self) (by omega)
        (follows_writeItems pretty depth js rest)
    cases js with
    | nil =>
      refine readItems_last hvalue ?_
      rw [writeItems, List.append_assoc, skipBlank_lineBreak]
      rfl
    | cons j' js' =>
      have hlen : (itemsBytes pretty depth (j' :: js')).length ≤ m := by
        have hcomma : (writeItems pretty depth (j' :: js')).length =
            (itemsBytes pretty depth (j' :: js')).length + 1 := rfl
        omega
      have hitems := readItems_write pretty (j' :: js') depth m rest (by simp)
        (fun x hx => all x (List.mem_cons_of_mem j hx)) hlen
      exact readItems_next hvalue rfl hitems

theorem readFields_write (pretty : Bool) : ∀ (fields : List (Bytes × Json)) (depth n : Nat) (rest : Bytes),
    fields ≠ [] → (∀ f ∈ fields, Legible f.2) → (fieldsBytes pretty depth fields).length ≤ n →
    readFields (n + 1) (fieldsBytes pretty depth fields ++ rest) = some (fields, rest)
  | (k, j) :: fs, depth, n, rest, _, all, hn => by
    simp only [fieldsBytes, List.length_append] at hn
    have hpos := length_writeFields_pos pretty depth fs
    obtain ⟨m, rfl⟩ : ∃ m, n = m + 1 := ⟨n - 1, by omega⟩
    have hfield : FieldRead (m + 1) (fieldsBytes pretty depth ((k, j) :: fs) ++ rest) k j
        (writeFields pretty depth fs ++ rest) := by
      have hvalue := readValue_write pretty j (depth + 1) m _ (all (k, j) List.mem_cons_self) (by omega)
        (follows_writeFields pretty depth fs rest)
      have hread := fieldRead_write pretty (depth + 1) (k := k) (by omega) hvalue
      simpa only [fieldsBytes, List.append_assoc] using hread
    cases fs with
    | nil =>
      refine readFields_last hfield ?_
      rw [writeFields, List.append_assoc, skipBlank_lineBreak]
      rfl
    | cons f fs' =>
      have hlen : (fieldsBytes pretty depth (f :: fs')).length ≤ m := by
        have hcomma : (writeFields pretty depth (f :: fs')).length =
            (fieldsBytes pretty depth (f :: fs')).length + 1 := rfl
        omega
      have hfields := readFields_write pretty (f :: fs') depth m rest (by simp)
        (fun x hx => all x (List.mem_cons_of_mem (k, j) hx)) hlen
      exact readFields_next hfield rfl hfields

end

/-- **A written document is read back**, in both forms. -/
theorem parse_write (pretty : Bool) {j : Json} (h : j.Legible) : parse (write pretty 0 j) = some j := by
  have hread := readValue_write pretty j 0 _ [] h (Nat.le_refl _) .nothing
  rw [List.append_nil] at hread
  rw [parse, hread]
  rfl

/-- Documents that are written alike are the same. -/
theorem eq_of_write_eq (pretty : Bool) {j j' : Json} (h : j.Legible) (h' : j'.Legible)
    (heq : write pretty 0 j = write pretty 0 j') : j = j' := by
  have hread := parse_write pretty h
  rw [heq, parse_write pretty h'] at hread
  exact (Option.some.inj hread).symm

/-! ### The written form is a text -/

theorem isText_lineBreak (pretty : Bool) (depth : Nat) : IsText (lineBreak pretty depth) := by
  refine isText_of_lt (List.all_eq_true.mpr fun b hb => decide_eq_true ?_)
  cases pretty with
  | false => cases hb
  | true =>
    have hmem : b = 0x0a ∨ b ∈ List.replicate (2 * depth) 0x20 := List.mem_cons.1 hb
    rcases hmem with rfl | hb
    · decide
    · rw [List.eq_of_mem_replicate hb]
      decide

theorem isText_colon (pretty : Bool) : IsText (colon pretty) := by
  cases pretty <;> exact isText_of_lt (by decide)

theorem isText_itemsBytes (pretty : Bool) (depth : Nat) : ∀ {js : List Json},
    (∀ j ∈ js, ∀ d, IsText (write pretty d j)) → IsText (itemsBytes pretty depth js)
  | [], _ => isText_utf8 ""
  | j :: js, h => by
    have hj := (isText_lineBreak pretty (depth + 1)).append (h j List.mem_cons_self (depth + 1))
    refine hj.append ?_
    cases js with
    | nil => exact (isText_lineBreak pretty depth).append (isText_of_lt (by decide))
    | cons j' js' =>
      have hcomma : IsText [0x2c] := isText_of_lt (by decide)
      have hjs := isText_itemsBytes pretty depth fun x hx => h x (List.mem_cons_of_mem j hx)
      exact hcomma.append hjs

theorem isText_fieldsBytes (pretty : Bool) (depth : Nat) : ∀ {fs : List (Bytes × Json)},
    (∀ f ∈ fs, IsText f.1) → (∀ f ∈ fs, ∀ d, IsText (write pretty d f.2)) →
    IsText (fieldsBytes pretty depth fs)
  | [], _, _ => isText_utf8 ""
  | (k, j) :: fs, hn, h => by
    obtain ⟨name, hname⟩ := hn _ List.mem_cons_self
    have hk := (isText_lineBreak pretty (depth + 1)).append (hname ▸ isText_writeString name)
    have hj := (hk.append (isText_colon pretty)).append (h _ List.mem_cons_self (depth + 1))
    refine hj.append ?_
    cases fs with
    | nil => exact (isText_lineBreak pretty depth).append (isText_of_lt (by decide))
    | cons f fs' =>
      have hcomma : IsText [0x2c] := isText_of_lt (by decide)
      have hfs := isText_fieldsBytes pretty depth (fun x hx => hn x (List.mem_cons_of_mem _ hx))
        fun x hx => h x (List.mem_cons_of_mem _ hx)
      exact hcomma.append hfs

/-- A legible document is written as a text. -/
theorem Legible.isText_write (pretty : Bool) {j : Json} (h : j.Legible) :
    ∀ depth, IsText (write pretty depth j) := by
  induction h with
  | null => exact fun _ => isText_utf8 "null"
  | bool b =>
    cases b with
    | false => exact fun _ => isText_utf8 "false"
    | true => exact fun _ => isText_utf8 "true"
  | int range => exact fun _ => isText_utf8 _
  | real legible => exact fun _ => isText_utf8 _
  | str text =>
    obtain ⟨s, rfl⟩ := text
    exact fun _ => isText_writeString s
  | @arr items all ih =>
    intro depth
    cases items with
    | nil => exact isText_utf8 "[]"
    | cons j js =>
      have hbracket : IsText [0x5b] := isText_of_lt (by decide)
      exact hbracket.append (isText_itemsBytes pretty depth ih)
  | @obj fields names all ih =>
    intro depth
    cases fields with
    | nil => exact @isText_of_lt [0x7b, 0x7d] (by decide)
    | cons f fs =>
      have hbrace : IsText [0x7b] := isText_of_lt (by decide)
      exact hbrace.append (isText_fieldsBytes pretty depth names ih)

end Json
end MapReduce
