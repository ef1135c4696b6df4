/-
# Literals read back

Every leaf of a document is written as a literal, and the reader takes exactly
that literal off the front of its input. A number ends where something follows
that does not go on with it: `Json.Follows` lists what stands after a value in a
written document. A string ends at its closing quote; but an escaped control
character is read with an eye on the next escape, since two of them can be one
character, so a string is followed byte by byte (`Json.readString_escapeByte`).
What is escaped is below 128, so the literal of a text is again a text.

Key definitions: `IsText`, `digitByte`, `Json.Follows`, `LeadingDigits`,
`Numeral.Legible`.
Key theorems: `Json.readNumber_int`, `Json.readNumber_real`,
`Json.readString_flatMap`, `Json.isText_writeString`.
-/
import MapReduce.Json.Reader

namespace MapReduce

/-! ### Texts and digits as bytes -/

theorem utf8_append (s t : String) : utf8 (s ++ t) = utf8 s ++ utf8 t := by
  simp only [utf8, String.toByteArray_append, ByteArray.toList_data_append]

theorem utf8_ofList (cs : List Char) : utf8 (String.ofList cs) = cs.flatMap String.utf8EncodeChar := by
  simp [utf8, String.toByteArray_ofList, List.utf8Encode.eq_1, List.data_toByteArray]

/-- The bytes are a text. -/
def IsText (bs : Bytes) : Prop := ∃ s, utf8 s = bs

theorem isText_utf8 (s : String) : IsText (utf8 s) := ⟨s, rfl⟩

theorem IsText.append {bs bs' : Bytes} (h : IsText bs) (h' : IsText bs') : IsText (bs ++ bs') := by
  obtain ⟨s, rfl⟩ := h
  obtain ⟨t, rfl⟩ := h'
  exact ⟨s ++ t, utf8_append s t⟩

theorem isText_flatMap {α : Type} {f : α → Bytes} : ∀ {l : List α}, (∀ a ∈ l, IsText (f a)) →
    IsText (l.flatMap f)
  | [], _ => isText_utf8 ""
  | a :: l, h => by
    have hl := isText_flatMap fun b hb => h b (List.mem_cons_of_mem a hb)
    rw [List.flatMap_cons]
    exact (h a List.mem_cons_self).append hl

/-- The byte of a decimal digit. -/
def digitByte (d : Nat) : UInt8 := UInt8.ofNat (0x30 + d)

theorem utf8EncodeChar_digitChar : ∀ d < 10, String.utf8EncodeChar (Nat.digitChar d) = [digitByte d] := by
  decide

/-- Each character of a list is written as one byte. -/
theorem flatMap_singleton_of_mem {α β : Type} {f : α → List β} {g : α → β} : ∀ {l : List α},
    (∀ a ∈ l, f a = [g a]) → l.flatMap f = l.map g
  | [], _ => rfl
  | a :: l, h => by
    have ha := h a List.mem_cons_self
    have hl := flatMap_singleton_of_mem fun b hb => h b (List.mem_cons_of_mem a hb)
    simp [ha, hl]

theorem utf8EncodeChar_ofNat : ∀ n < 128, String.utf8EncodeChar (Char.ofNat n) = [UInt8.ofNat n] := by
  decide

/-- A property of the members of a concrete list, from the test of each. -/
theorem forall_mem_of_all {α : Type} {p : α → Prop} [DecidablePred p] {l : List α}
    (h : l.all (fun a => decide (p a)) = true) : ∀ a ∈ l, p a :=
  fun a ha => of_decide_eq_true (List.all_eq_true.mp h a ha)

/-- Low bytes are a text, a character each. -/
theorem isText_of_lt {bs : Bytes} (h : bs.all (fun b => decide (b < 0x80)) = true) : IsText bs := by
  have hbyte : ∀ b ∈ bs, String.utf8EncodeChar (Char.ofNat b.toNat) = [b] := by
    intro b hb
    have hnat : b.toNat < 128 := UInt8.lt_iff_toNat_lt.mp (forall_mem_of_all h b hb)
    rw [utf8EncodeChar_ofNat _ hnat, UInt8.ofNat_toNat]
  refine ⟨String.ofList (bs.map fun b => Char.ofNat b.toNat), ?_⟩
  rw [utf8_ofList, List.flatMap_map, flatMap_singleton_of_mem hbyte, List.map_id']

/-- The bytes of a character: one low byte, or high bytes only. -/
theorem utf8EncodeChar_cases (c : Char) :
    (∃ b < (0x80 : UInt8), String.utf8EncodeChar c = [b]) ∨
      ∀ b ∈ String.utf8EncodeChar c, (0x80 : UInt8) ≤ b := by
  by_cases h : c.val.toNat ≤ 127
  · refine .inl ⟨UInt8.ofNat c.val.toNat, ?_, by simp only [String.utf8EncodeChar, if_pos h]⟩
    rw [UInt8.lt_iff_toNat_lt, UInt8.toNat_ofNat']
    show c.val.toNat % 256 < 128
    omega
  · right
    intro b hb
    simp only [String.utf8EncodeChar, if_neg h] at hb
    rw [UInt8.le_iff_toNat_le]
    show 128 ≤ b.toNat
    split at hb
    · simp only [List.mem_cons, List.not_mem_nil, or_false] at hb
      rcases hb with rfl | rfl <;> rw [UInt8.toNat_ofNat'] <;> omega
    · split at hb
      · simp only [List.mem_cons, List.not_mem_nil, or_false] at hb
        rcases hb with rfl | rfl | rfl <;> rw [UInt8.toNat_ofNat'] <;> omega
      · simp only [List.mem_cons, List.not_mem_nil, or_false] at hb
        rcases hb with rfl | rfl | rfl | rfl <;> rw [UInt8.toNat_ofNat'] <;> omega

theorem utf8_digitsText {ds : List Nat} (h : ∀ d ∈ ds, d < 10) :
    utf8 (digitsText ds) = ds.map digitByte := by
  rw [digitsText, utf8_ofList, List.flatMap_map]
  exact flatMap_singleton_of_mem fun d hd => utf8EncodeChar_digitChar d (h d hd)

theorem decimalDigits_of_lt {n : Nat} (h : n < 10) : decimalDigits n = [n] := by
  have hchar : (Nat.digitChar n).toNat - '0'.toNat = n := by
    rw [Nat.toNat_digitChar_of_lt_ten h]
    exact Nat.add_sub_cancel_left 48 n
  rw [decimalDigits, Nat.toDigits_of_lt_base h, List.map_singleton, hchar]

theorem decimalDigits_of_le {n : Nat} (h : 10 ≤ n) :
    decimalDigits n = decimalDigits (n / 10) ++ [n % 10] := by
  have hlast := decimalDigits_of_lt (Nat.mod_lt n (show 0 < 10 by decide))
  rw [decimalDigits, Nat.toDigits_of_lt_base (Nat.mod_lt n (show 0 < 10 by decide))] at hlast
  rw [decimalDigits, decimalDigits, Nat.toDigits_of_base_le (by decide) h, List.map_append, hlast]

/-- The digits of a number, by the number of its digits. -/
theorem decimalDigits_induction {P : Nat → Prop} (low : ∀ n < 10, P n)
    (high : ∀ n, 10 ≤ n → P (n / 10) → P n) (n : Nat) : P n := by
  induction n using Nat.strongRecOn with
  | ind n ih =>
    by_cases h : n < 10
    · exact low n h
    · exact high n (by omega) (ih (n / 10) (by omega))

theorem lt_ten_of_mem_decimalDigits {n : Nat} : ∀ d ∈ decimalDigits n, d < 10 := by
  induction n using decimalDigits_induction with
  | low n h => simpa [decimalDigits_of_lt h] using h
  | high n h ih =>
    intro d hd
    rw [decimalDigits_of_le h, List.mem_append, List.mem_singleton] at hd
    rcases hd with hd | rfl
    · exact ih d hd
    · omega

theorem digitsValue_append (a b : List Nat) :
    digitsValue (a ++ b) = b.foldl (fun n d => 10 * n + d) (digitsValue a) := by
  simp [digitsValue]

/-- The digits of a number are worth the number. -/
theorem digitsValue_decimalDigits (n : Nat) : digitsValue (decimalDigits n) = n := by
  induction n using decimalDigits_induction with
  | low n h => simp [decimalDigits_of_lt h, digitsValue]
  | high n h ih =>
    rw [decimalDigits_of_le h, digitsValue_append, ih]
    simp only [List.foldl_cons, List.foldl_nil]
    omega

theorem utf8_repr (n : Nat) : utf8 (Nat.repr n) = (decimalDigits n).map digitByte := by
  induction n using decimalDigits_induction with
  | low n h =>
    rw [Nat.repr_of_lt h, decimalDigits_of_lt h]
    exact @utf8_digitsText [n] (by simpa using h)
  | high n h ih =>
    have hlast : utf8 (String.singleton (Nat.digitChar (n % 10))) = [digitByte (n % 10)] :=
      @utf8_digitsText [n % 10] (by simp; omega)
    rw [Nat.repr_of_ge h, utf8_append, ih, hlast, decimalDigits_of_le h, List.map_append]
    rfl

/-- Digits that may start a number: a zero stands alone. -/
def LeadingDigits (ds : List Nat) : Prop := ds = [0] ∨ ∃ d ds', ds = (d + 1) :: ds'

theorem leadingDigits_decimalDigits (n : Nat) : LeadingDigits (decimalDigits n) := by
  induction n using decimalDigits_induction with
  | low n h =>
    rw [decimalDigits_of_lt h]
    cases n with
    | zero => exact .inl rfl
    | succ n => exact .inr ⟨n, [], rfl⟩
  | high n h ih =>
    rw [decimalDigits_of_le h]
    rcases ih with hz | ⟨d, ds, hd⟩
    · have hvalue := digitsValue_decimalDigits (n / 10)
      rw [hz] at hvalue
      have : n / 10 = 0 := hvalue.symm
      omega
    · exact .inr ⟨d, ds ++ [n % 10], by rw [hd, List.cons_append]⟩

namespace Json

/-! ### Digits -/

theorem takeDigits_digitByte : ∀ d < 10, ∀ bs, takeDigits (digitByte d :: bs) =
    (d :: (takeDigits bs).1, (takeDigits bs).2) := by
  intro d hd bs
  have hbyte : ∀ d < 10, (0x30 ≤ digitByte d ∧ digitByte d ≤ 0x39) ∧ (digitByte d).toNat - 0x30 = d := by
    decide
  rw [takeDigits, if_pos (hbyte d hd).1, (hbyte d hd).2]

/-- The digits of a literal are taken, up to what follows them. -/
theorem takeDigits_append {rest : Bytes} (hrest : takeDigits rest = ([], rest)) : ∀ {ds : List Nat},
    (∀ d ∈ ds, d < 10) → takeDigits (ds.map digitByte ++ rest) = (ds, rest)
  | [], _ => hrest
  | d :: ds, h => by
    have hds := takeDigits_append hrest fun x hx => h x (List.mem_cons_of_mem d hx)
    rw [List.map_cons, List.cons_append, takeDigits_digitByte d (h d List.mem_cons_self), hds]

/-- What stands after a value in a written document. -/
inductive Follows : Bytes → Prop
  | nothing : Follows []
  | comma (bs : Bytes) : Follows (0x2c :: bs)
  | bracket (bs : Bytes) : Follows (0x5d :: bs)
  | brace (bs : Bytes) : Follows (0x7d :: bs)
  | line (bs : Bytes) : Follows (0x0a :: bs)

namespace Follows

variable {rest : Bytes} (h : Follows rest)
include h

theorem takeDigits_eq : takeDigits rest = ([], rest) := by cases h <;> rfl

theorem readFraction_eq : readFraction rest = some ([], rest) := by cases h <;> rfl

theorem readExponentPart_eq : readExponentPart rest = some (none, rest) := by cases h <;> rfl

end Follows

/-! ### Numbers -/

theorem le_foldl_digits : ∀ (ds : List Nat) (acc : Nat), acc ≤ ds.foldl (fun n d => 10 * n + d) acc
  | [], _ => Nat.le_refl _
  | d :: ds, acc => by
    have := le_foldl_digits ds (10 * acc + d)
    simp only [List.foldl_cons]
    omega

theorem absorbDigits_of_lt : ∀ {ds : List Nat} {acc : Nat},
    ds.foldl (fun n d => 10 * n + d) acc < Nat.pow 2 64 →
    absorbDigits acc ds = (ds.foldl (fun n d => 10 * n + d) acc, [])
  | [], _, _ => rfl
  | d :: ds, acc, h => by
    have hle := le_foldl_digits ds (10 * acc + d)
    rw [List.foldl_cons] at h ⊢
    rw [absorbDigits, if_pos (Nat.lt_of_le_of_lt hle h), absorbDigits_of_lt h]

theorem cappedValue_of_lt {limit : Nat} {ds : List Nat} (h : digitsValue ds < limit) :
    cappedValue limit ds = digitsValue ds := by
  have hfold : ∀ (ds : List Nat) (acc : Nat), ds.foldl (fun n d => 10 * n + d) acc < limit →
      ds.foldl (fun n d => if n < limit then 10 * n + d else n) acc =
        ds.foldl (fun n d => 10 * n + d) acc := by
    intro ds
    induction ds with
    | nil => intro _ _; rfl
    | cons d ds ih =>
      intro acc hacc
      have hle := le_foldl_digits (d :: ds) acc
      simp only [List.foldl_cons] at hacc ⊢
      rw [if_pos (Nat.lt_of_le_of_lt hle hacc), ih _ hacc]
  exact hfold ds 0 h

/-- After its leading digits a number goes on with a fraction and an exponent. -/
theorem readUnsigned_eq {negative : Bool} {bs rest : Bytes} {ds : List Nat} (hl : LeadingDigits ds)
    (ht : takeDigits bs = (ds, rest)) :
    readUnsigned negative bs =
      (readFraction rest).bind fun r => (readExponentPart r.2).map fun e =>
        if r.1.isEmpty && e.1.isNone then
          (((wholeNumber? negative ds).map Json.int).getD (.real ⟨negative, ds, r.1, e.1.getD 0⟩), e.2)
        else (.real ⟨negative, ds, r.1, e.1.getD 0⟩, e.2) := by
  have hbody : readUnsigned negative bs = (readFraction rest).bind fun r =>
      (readExponentPart r.2).bind fun e => if r.1.isEmpty && e.1.isNone then
        some (((wholeNumber? negative ds).map Json.int).getD (.real ⟨negative, ds, r.1, e.1.getD 0⟩), e.2)
      else some (.real ⟨negative, ds, r.1, e.1.getD 0⟩, e.2) := by
    unfold readUnsigned
    rw [ht]
    rcases hl with rfl | ⟨d, ds', rfl⟩ <;> rfl
  rw [hbody]
  congr 1
  funext r
  cases readExponentPart r.2 with
  | none => rfl
  | some e => simp only [Option.bind_some, Option.map_some]; split <;> rfl

/-- A whole number fits 64 bits, with or without sign. -/
def WholeRange (n : Int) : Prop :=
  -((Nat.pow 2 63 : Nat) : Int) ≤ n ∧ n < ((Nat.pow 2 64 : Nat) : Int)

theorem readNumber_digits {ds : List Nat} (hd : ∀ d ∈ ds, d < 10) (hl : LeadingDigits ds) (bs : Bytes) :
    readNumber (ds.map digitByte ++ bs) = readUnsigned false (ds.map digitByte ++ bs) := by
  have hbyte : ∀ d < 10, digitByte d ≠ 0x2d := by decide
  cases ds with
  | nil => rcases hl with hz | ⟨_, _, hz⟩ <;> cases hz
  | cons d ds =>
    have hne := hbyte d (hd d List.mem_cons_self)
    refine readNumber.eq_2 _ fun rest hrest => ?_
    exact hne (List.cons.inj hrest).1

theorem absorbDigits_decimalDigits {n : Nat} (h : n < Nat.pow 2 64) :
    absorbDigits 0 (decimalDigits n) = (n, []) := by
  have hvalue : (decimalDigits n).foldl (fun n d => 10 * n + d) 0 = n := digitsValue_decimalDigits n
  rw [absorbDigits_of_lt (by rwa [hvalue]), hvalue]

/-- **A whole number is read back** from its digits. -/
theorem readNumber_int {n : Int} {rest : Bytes} (h : WholeRange n) (hr : Follows rest) :
    readNumber (utf8 (Int.repr n) ++ rest) = some (.int n, rest) := by
  obtain ⟨hlow, hhigh⟩ := h
  have hunsigned : ∀ (negative : Bool) (m : Nat), wholeNumber? negative (decimalDigits m) = some n →
      readUnsigned negative ((decimalDigits m).map digitByte ++ rest) = some (.int n, rest) := by
    intro negative m hm
    have htake := takeDigits_append hr.takeDigits_eq (lt_ten_of_mem_decimalDigits (n := m))
    rw [readUnsigned_eq (leadingDigits_decimalDigits m) htake, hr.readFraction_eq]
    simp [hr.readExponentPart_eq, hm]
  cases n with
  | ofNat m =>
    have hm : m < Nat.pow 2 64 := Int.ofNat_lt.mp hhigh
    have htext : utf8 (Int.repr (Int.ofNat m)) = (decimalDigits m).map digitByte := utf8_repr m
    rw [htext, readNumber_digits lt_ten_of_mem_decimalDigits (leadingDigits_decimalDigits m)]
    refine hunsigned false m ?_
    rw [wholeNumber?, absorbDigits_decimalDigits hm]
    rfl
  | negSucc m =>
    have hm : m + 1 ≤ Nat.pow 2 63 := by omega
    have hm' : m + 1 < Nat.pow 2 64 := Nat.lt_of_le_of_lt hm (by decide)
    have htext : utf8 (Int.repr (Int.negSucc m)) = 0x2d :: (decimalDigits (m + 1)).map digitByte := by
      have hsign : Int.repr (Int.negSucc m) = "-" ++ Nat.repr (m + 1) := rfl
      rw [hsign, utf8_append, utf8_repr]
      rfl
    rw [htext, List.cons_append, readNumber.eq_1]
    refine hunsigned true (m + 1) ?_
    rw [wholeNumber?, absorbDigits_decimalDigits hm']
    simp only [Bool.not_true, Bool.false_eq_true, ↓reduceIte]
    rw [if_pos ⟨Nat.succ_pos m, hm⟩]
    rfl

end Json

/-- A literal as a reader expects it: without leading zeros, and with a fraction
or an exponent, so that it is no whole number. -/
structure Numeral.Legible (x : Numeral) : Prop where
  leading : LeadingDigits x.whole
  whole_lt : ∀ d ∈ x.whole, d < 10
  fraction_lt : ∀ d ∈ x.fraction, d < 10
  decimal : x.fraction ≠ [] ∨ x.exponent ≠ 0
  exponent_lt : x.exponent.natAbs < Nat.pow 2 31

namespace Json

/-- The bytes of a fraction with its point. -/
def fractionBytes (ds : List Nat) : Bytes := if ds = [] then [] else 0x2e :: ds.map digitByte

/-- The bytes of an exponent with its mark and sign. -/
def exponentBytes (e : Int) : Bytes :=
  if e = 0 then []
  else 0x65 :: (if e < 0 then 0x2d else 0x2b) :: (decimalDigits e.natAbs).map digitByte

theorem utf8_render {x : Numeral} (h : x.Legible) :
    utf8 (x.render true) = (if x.negative then [0x2d] else []) ++ x.whole.map digitByte ++
      fractionBytes x.fraction ++ exponentBytes x.exponent := by
  have hsign : utf8 (if x.negative then "-" else "") = if x.negative then [0x2d] else [] := by
    cases x.negative <;> rfl
  have hfraction : utf8 (if x.fraction.isEmpty then "" else "." ++ digitsText x.fraction) =
      fractionBytes x.fraction := by
    unfold fractionBytes
    cases hf : x.fraction with
    | nil => rfl
    | cons d ds =>
      have hlt := h.fraction_lt
      rw [hf] at hlt
      simp only [List.isEmpty_cons, Bool.false_eq_true, ↓reduceIte, utf8_append, utf8_digitsText hlt]
      rfl
  have hexponent : utf8 (if x.exponent = 0 then "" else if x.exponent < 0 then
      "e-" ++ Nat.repr x.exponent.natAbs else if true then "e+" ++ Nat.repr x.exponent.natAbs else
      "e" ++ Nat.repr x.exponent.natAbs) = exponentBytes x.exponent := by
    unfold exponentBytes
    split
    · rfl
    · split <;> simp only [↓reduceIte, utf8_append, utf8_repr] <;> rfl
  unfold Numeral.render
  rw [utf8_append, utf8_append, utf8_append, hsign, hfraction, hexponent, utf8_digitsText h.whole_lt]

variable {rest : Bytes}

theorem readFraction_fractionBytes {ds : List Nat} (hd : ∀ d ∈ ds, d < 10)
    (ht : takeDigits rest = ([], rest)) (hf : readFraction rest = some ([], rest)) :
    takeDigits (fractionBytes ds ++ rest) = ([], fractionBytes ds ++ rest) ∧
      readFraction (fractionBytes ds ++ rest) = some (ds, rest) := by
  unfold fractionBytes
  cases ds with
  | nil => exact ⟨ht, hf⟩
  | cons d ds =>
    rw [if_neg (by simp)]
    refine ⟨rfl, ?_⟩
    rw [List.cons_append, readFraction, takeDigits_append ht hd]

theorem readExponentPart_exponentBytes {e : Int} (he : e.natAbs < Nat.pow 2 31) (hr : Follows rest) :
    takeDigits (exponentBytes e ++ rest) = ([], exponentBytes e ++ rest) ∧
      readFraction (exponentBytes e ++ rest) = some ([], exponentBytes e ++ rest) ∧
      readExponentPart (exponentBytes e ++ rest) = some (if e = 0 then none else some e, rest) := by
  unfold exponentBytes
  by_cases hz : e = 0
  · rw [if_pos hz, if_pos hz]
    exact ⟨hr.takeDigits_eq, hr.readFraction_eq, hr.readExponentPart_eq⟩
  · rw [if_neg hz, if_neg hz]
    refine ⟨rfl, rfl, ?_⟩
    have htake := takeDigits_append hr.takeDigits_eq (lt_ten_of_mem_decimalDigits (n := e.natAbs))
    have hvalue := digitsValue_decimalDigits e.natAbs
    have hcapped : cappedValue (Nat.pow 2 31) (decimalDigits e.natAbs) = e.natAbs := by
      rw [cappedValue_of_lt (by rwa [hvalue]), hvalue]
    obtain ⟨d, ds, hne⟩ : ∃ d ds, decimalDigits e.natAbs = d :: ds := by
      rcases leadingDigits_decimalDigits e.natAbs with h | ⟨d, ds, h⟩
      · exact ⟨0, [], h⟩
      · exact ⟨d + 1, ds, h⟩
    rw [hne] at htake hcapped ⊢
    by_cases hneg : e < 0
    · rw [if_pos hneg, List.cons_append, List.cons_append, readExponentPart]
      simp only [true_or, ↓reduceIte, htake, hcapped]
      congr 3
      omega
    · rw [if_neg hneg, List.cons_append, List.cons_append, readExponentPart]
      simp only [true_or, ↓reduceIte, htake, hcapped, Bool.false_eq_true]
      congr 3
      omega

/-- **A decimal literal is read back** digit by digit. -/
theorem readNumber_real {x : Numeral} (h : x.Legible) (hr : Follows rest) :
    readNumber (utf8 (x.render true) ++ rest) = some (.real x, rest) := by
  obtain ⟨hte, hfe, hee⟩ := readExponentPart_exponentBytes h.exponent_lt hr
  obtain ⟨htf, hff⟩ := readFraction_fractionBytes h.fraction_lt hte hfe
  have hunsigned : readUnsigned x.negative
      (x.whole.map digitByte ++ (fractionBytes x.fraction ++ (exponentBytes x.exponent ++ rest))) =
        some (.real x, rest) := by
    have hliteral : (x.fraction.isEmpty && (if x.exponent = 0 then none else some x.exponent).isNone) =
        false := by
      rcases h.decimal with hf | he
      · simp [hf]
      · simp [he]
    have hvalue : (if x.exponent = 0 then none else some x.exponent).getD 0 = x.exponent := by
      split
      · exact (Option.getD_none).trans (Eq.symm ‹_›)
      · rfl
    rw [readUnsigned_eq h.leading (takeDigits_append htf h.whole_lt), hff]
    simp only [Option.bind_some, hee, Option.map_some, hliteral, hvalue, Bool.false_eq_true, ↓reduceIte]
  rw [utf8_render h]
  cases hneg : x.negative with
  | true =>
    rw [hneg] at hunsigned
    simpa [List.append_assoc, readNumber] using hunsigned
  | false =>
    rw [hneg] at hunsigned
    simp only [Bool.false_eq_true, ↓reduceIte, List.nil_append, List.append_assoc]
    rw [readNumber_digits h.whole_lt h.leading]
    exact hunsigned

/-! ### Strings -/

theorem hexValue?_digitChar :
    ∀ d < 16, (String.utf8EncodeChar (Nat.digitChar d)).map hexValue? = [some d] := by
  decide

/-- The bytes that have an escape of their own, and its letter. -/
def shortEscapes : List (UInt8 × UInt8) :=
  [(0x22, 0x22), (0x5c, 0x5c), (0x08, 0x62), (0x09, 0x74), (0x0a, 0x6e), (0x0c, 0x66), (0x0d, 0x72)]

theorem escapeByte_short : ∀ p ∈ shortEscapes, escapeByte p.1 = [0x5c, p.2] :=
  forall_mem_of_all (by decide)

theorem readEscape_short (bs : Bytes) : ∀ p ∈ shortEscapes, readEscape (p.2 :: bs) = some ([p.1], bs) := by
  simp [shortEscapes, readEscape]

theorem escapeByte_of_ne {b : UInt8} (h : ∀ p ∈ shortEscapes, b ≠ p.1) :
    escapeByte b = if b < 0x20 then utf8 ("\\u00" ++ hexText [b]) else [b] := by
  simp only [shortEscapes, List.forall_mem_cons, List.not_mem_nil, false_implies, implies_true,
    and_true] at h
  simp only [escapeByte, h, ↓reduceIte]

/-- How a byte is escaped: it stands for itself, or has a letter of its own, or is
a control character and stands as its number. -/
theorem escapeByte_cases (b : UInt8) :
    (escapeByte b = [b] ∧ b ≠ 0x22 ∧ b ≠ 0x5c ∧ ¬ b < 0x20) ∨
    (∃ c, escapeByte b = [0x5c, c] ∧ ∀ bs, readEscape (c :: bs) = some ([b], bs)) ∨
    (∃ high low, escapeByte b = [0x5c, 0x75, 0x30, 0x30, high, low] ∧ b < 0x20 ∧
      hexValue? high = some (b.toNat / 16) ∧ hexValue? low = some (b.toNat % 16)) := by
  by_cases hshort : ∃ p ∈ shortEscapes, b = p.1
  · obtain ⟨p, hp, rfl⟩ := hshort
    exact .inr (.inl ⟨p.2, escapeByte_short p hp, fun bs => readEscape_short bs p hp⟩)
  · have hne : ∀ p ∈ shortEscapes, b ≠ p.1 := fun p hp hb => hshort ⟨p, hp, hb⟩
    have hrest := escapeByte_of_ne hne
    simp only [shortEscapes, List.forall_mem_cons] at hne
    by_cases hb : b < 0x20
    · have hnat : b.toNat < 32 := UInt8.lt_iff_toNat_lt.mp hb
      obtain ⟨high, hhigh, hh⟩ :=
        List.map_eq_singleton_iff.mp (hexValue?_digitChar (b.toNat / 16) (by omega))
      obtain ⟨low, hlow, hl⟩ :=
        List.map_eq_singleton_iff.mp (hexValue?_digitChar (b.toNat % 16) (by omega))
      have hhex : utf8 (hexText [b]) = [high, low] := by
        rw [hexText, utf8_ofList]
        simp [hhigh, hlow]
      refine .inr (.inr ⟨high, low, ?_, hb, hh, hl⟩)
      rw [hrest, if_pos hb, utf8_append, hhex]
      rfl
    · exact .inl ⟨by rw [hrest, if_neg hb], hne.1, hne.2.1, hb⟩

theorem length_le_flatMap_escapeByte : ∀ bs : Bytes, bs.length ≤ (bs.flatMap escapeByte).length
  | [] => Nat.le_refl _
  | b :: bs => by
    have hone : 1 ≤ (escapeByte b).length := by
      rcases escapeByte_cases b with ⟨heq, _⟩ | ⟨c, heq, _⟩ | ⟨_, _, heq, _⟩ <;> simp [heq]
    have hrest := length_le_flatMap_escapeByte bs
    rw [List.length_cons, List.flatMap_cons, List.length_append]
    omega

/-- The rest of a string literal, up to and past its closing quote. -/
def Quoted (bs : Bytes) : Prop := ∃ body rest : Bytes, bs = body.flatMap escapeByte ++ 0x22 :: rest

theorem readUnit_escaped {high low : UInt8} {a b : Nat} (hh : hexValue? high = some a)
    (hl : hexValue? low = some b) (bs : Bytes) :
    readUnit (0x30 :: 0x30 :: high :: low :: bs) = some (16 * a + b, bs) := by
  have hzero : hexValue? 0x30 = some 0 := rfl
  simp [readUnit, hzero, hh, hl, Nat.mul_comm a 16]

/-- Inside a string literal an escape by number has its digits. -/
theorem Quoted.exists_readUnit {bs more : Bytes} (h : Quoted bs) (he : bs = 0x5c :: 0x75 :: more) :
    ∃ unit, readUnit more = some unit := by
  obtain ⟨body, rest, hbs⟩ := h
  rw [he] at hbs
  cases body with
  | nil => cases hbs
  | cons b body =>
    rw [List.flatMap_cons, List.append_assoc] at hbs
    rcases escapeByte_cases b with ⟨heq, _, hslash, _⟩ | ⟨c, heq, hread⟩ | ⟨high, low, heq, _, hh, hl⟩
    · rw [heq] at hbs
      exact absurd (List.cons.inj hbs).1.symm hslash
    · rw [heq] at hbs
      have hc : c = 0x75 := (List.cons.inj (List.cons.inj hbs).2).1.symm
      have hnone := hread []
      rw [hc] at hnone
      cases hnone
    · rw [heq] at hbs
      have hmore := (List.cons.inj (List.cons.inj hbs).2).2
      rw [hmore]
      exact ⟨_, readUnit_escaped hh hl _⟩

theorem unitBytes_control : ∀ n < 32, unitBytes n = [UInt8.ofNat n] := by decide

/-- A control character that is escaped by its number stands for itself, whatever
the literal goes on with. -/
theorem readEscape_control {b high low : UInt8} {bs : Bytes} (hb : b < 0x20)
    (hh : hexValue? high = some (b.toNat / 16)) (hl : hexValue? low = some (b.toNat % 16))
    (hbs : Quoted bs) :
    readEscape (0x75 :: 0x30 :: 0x30 :: high :: low :: bs) = some ([b], bs) := by
  have hnat : b.toNat < 32 := UInt8.lt_iff_toNat_lt.mp hb
  have hunit : readUnit (0x30 :: 0x30 :: high :: low :: bs) = some (b.toNat, bs) := by
    rw [readUnit_escaped hh hl, Nat.div_add_mod]
  have hbytes : unitBytes b.toNat = [b] := by rw [unitBytes_control _ hnat, UInt8.ofNat_toNat]
  rw [readEscape, if_neg (by decide), if_neg (by decide), if_neg (by decide), if_neg (by decide),
    if_neg (by decide), if_neg (by decide), if_pos rfl, hunit]
  split
  · rename_i heq
    cases heq
  · rename_i n more heq
    -- another escape follows: the two are no pair, since this one is below the surrogates
    obtain ⟨rfl, rfl⟩ := Prod.mk.inj (Option.some.inj heq)
    obtain ⟨⟨low', after⟩, hlow⟩ := hbs.exists_readUnit rfl
    have hno : ¬ (0xd800 ≤ b.toNat ∧ b.toNat < 0xdc00 ∧ 0xdc00 ≤ low' ∧ low' < 0xe000) := by omega
    simp only [hlow, if_neg hno, hbytes]
  · rename_i n after _ heq
    obtain ⟨rfl, rfl⟩ := Prod.mk.inj (Option.some.inj heq)
    rw [hbytes]

theorem readString_backslash (n : Nat) (bs : Bytes) : readString (n + 1) (0x5c :: bs) =
    (readEscape bs).bind fun e => (readString n e.2).map fun r => (e.1 ++ r.1, r.2) := by
  rw [readString, if_neg (by decide), if_neg (by decide), if_pos rfl]
  cases readEscape bs <;> rfl

/-- One byte of a string literal is read. -/
theorem readString_escapeByte (b : UInt8) (n : Nat) {bs : Bytes} (h : Quoted bs) :
    readString (n + 1) (escapeByte b ++ bs) = (readString n bs).map (fun r => (b :: r.1, r.2)) := by
  rcases escapeByte_cases b with ⟨heq, hquote, hslash, hb⟩ | ⟨c, heq, hread⟩ | ⟨high, low, heq, hb, hh, hl⟩
  · rw [heq, List.cons_append, List.nil_append, readString, if_neg hquote, if_neg hb, if_neg hslash]
  · rw [heq]
    simp only [List.cons_append, List.nil_append, readString_backslash, hread, Option.bind_some]
  · rw [heq]
    simp only [List.cons_append, List.nil_append, readString_backslash, readEscape_control hb hh hl h,
      Option.bind_some]

/-- **A string literal is read back** byte by byte. -/
theorem readString_flatMap (rest : Bytes) : ∀ (bs : Bytes) (n : Nat), bs.length < n →
    readString n (bs.flatMap escapeByte ++ 0x22 :: rest) = some (bs, rest)
  | [], n + 1, _ => rfl
  | b :: bs, n + 1, h => by
    have hlen : bs.length < n := Nat.lt_of_succ_lt_succ h
    rw [List.flatMap_cons, List.append_assoc, readString_escapeByte b n ⟨bs, rest, rfl⟩,
      readString_flatMap rest bs n hlen]
    rfl

theorem escapeByte_low : ∀ n < 128,
    (escapeByte (UInt8.ofNat n)).all (fun c => decide (c < 0x80)) = true := by decide

theorem escapeByte_high {b : UInt8} (h : 0x80 ≤ b) : escapeByte b = [b] := by
  have hlow : ∀ p ∈ shortEscapes, ¬ 0x80 ≤ p.1 := forall_mem_of_all (by decide)
  have hnat : 128 ≤ b.toNat := UInt8.le_iff_toNat_le.mp h
  have hcontrol : ¬ b < 0x20 := by
    rw [UInt8.lt_iff_toNat_lt]
    show ¬ b.toNat < 32
    omega
  rw [escapeByte_of_ne fun p hp hb => hlow p hp (hb ▸ h), if_neg hcontrol]

/-- A string literal of a text is a text. -/
theorem isText_writeString (s : String) : IsText (writeString (utf8 s)) := by
  have hchar : ∀ c : Char, IsText ((String.utf8EncodeChar c).flatMap escapeByte) := by
    intro c
    rcases utf8EncodeChar_cases c with ⟨b, hb, heq⟩ | hhigh
    · have hlow := escapeByte_low b.toNat (UInt8.lt_iff_toNat_lt.mp hb)
      rw [UInt8.ofNat_toNat] at hlow
      rw [heq, List.flatMap_singleton]
      exact isText_of_lt hlow
    · refine ⟨String.ofList [c], ?_⟩
      rw [flatMap_singleton_of_mem fun b hb => escapeByte_high (hhigh b hb), List.map_id', utf8_ofList,
        List.flatMap_singleton]
  have hbody : (utf8 s).flatMap escapeByte =
      s.toList.flatMap fun c => (String.utf8EncodeChar c).flatMap escapeByte := by
    have hs := utf8_ofList s.toList
    rw [String.ofList_toList] at hs
    rw [hs, List.flatMap_assoc]
  have hquote : IsText [0x22] := isText_utf8 "\""
  rw [writeString, hbody]
  exact hquote.append ((isText_flatMap fun c _ => hchar c).append hquote)

end Json
end MapReduce
