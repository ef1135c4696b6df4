/-
# The key encoding is unambiguous

A key is hashed as the encodings of its fields, one after the other, without their
number and without marks between them. Still no bytes are the encoding of two keys. The
first byte of a field tells its type, which fixes the length of the rest; a text or
binary value starts with its length. So from bytes that begin with a field the field and
what follows it can be read off, whatever bytes there are inside a text
(`Scalar.encode_append_inj`), and field by field the whole key (`Tuple.encode_inj_iff`).
A length is written in eight bytes and has to fit into them.

Key definitions: `Scalar.Measured`, `Tuple.Measured`.
Key theorems: `littleEndian_append_inj`, `Scalar.encode_append_inj`,
`Tuple.encode_inj_iff`.
-/
import MapReduce.Proofs.KeyHash

namespace MapReduce

attribute [ext] Ieee

variable {r r' : Bytes}

/-- A number that fits is told apart from what follows it. -/
theorem littleEndian_append_inj {n v w : Nat} (hv : v < 256 ^ n) (hw : w < 256 ^ n)
    (h : littleEndian n v ++ r = littleEndian n w ++ r') : v = w ∧ r = r' := by
  obtain ⟨hnumber, hrest⟩ := List.append_inj h (by rw [length_littleEndian, length_littleEndian])
  exact ⟨littleEndian_inj hv hw hnumber, hrest⟩

/-- A word is told apart from what follows it. -/
theorem word_append_inj {n w : Nat} {x y : BitVec w} (hw : 2 ^ w = 256 ^ n)
    (h : littleEndian n x.toNat ++ r = littleEndian n y.toNat ++ r') : x = y ∧ r = r' := by
  obtain ⟨hnat, hrest⟩ := littleEndian_append_inj (x.isLt.trans_eq hw) (y.isLt.trans_eq hw) h
  exact ⟨BitVec.eq_of_toNat_eq hnat, hrest⟩

/-- Bytes after their length are told apart from what follows them. -/
theorem counted_append_inj {bs cs : Bytes} (hb : bs.length < 2 ^ 64) (hc : cs.length < 2 ^ 64)
    (h : littleEndian 8 bs.length ++ bs ++ r = littleEndian 8 cs.length ++ cs ++ r') : bs = cs ∧ r = r' := by
  rw [List.append_assoc, List.append_assoc] at h
  obtain ⟨hlength, hrest⟩ := littleEndian_append_inj (hb.trans_eq (by norm_num)) (hc.trans_eq (by norm_num)) h
  exact List.append_inj hrest hlength

namespace Scalar

variable {a b : Scalar}

/-- The length of a text or binary value fits into 64 bits. -/
def Measured : Scalar → Prop
  | .text t => (utf8 t).length < 2 ^ 64
  | .bytes bs => bs.length < 2 ^ 64
  | _ => True

instance : DecidablePred Measured
  | .text t => inferInstanceAs (Decidable ((utf8 t).length < 2 ^ 64))
  | .bytes bs => inferInstanceAs (Decidable (bs.length < 2 ^ 64))
  | .null | .bool _ | .int _ | .long _ | .float _ | .double _ => isTrue trivial

theorem encode_ne_nil (a : Scalar) : a.encode ≠ [] := List.cons_ne_nil _ _

theorem typeOrder_lt (a : Scalar) : a.typeOrder < 256 := by
  cases a <;> simp [typeOrder]

/-- The first byte tells the type. -/
theorem typeOrder_eq_of_encode (h : a.encode ++ r = b.encode ++ r') : a.typeOrder = b.typeOrder := by
  have hbyte := congrArg UInt8.toNat (List.cons.inj h).1
  rw [UInt8.toNat_ofNat', UInt8.toNat_ofNat', Nat.mod_eq_of_lt a.typeOrder_lt,
    Nat.mod_eq_of_lt b.typeOrder_lt] at hbyte
  exact hbyte

/-- **A field is told apart from what follows it.** -/
theorem encode_append_inj (ha : a.Measured) (hb : b.Measured) (h : a.encode ++ r = b.encode ++ r') :
    a = b ∧ r = r' := by
  have htype := typeOrder_eq_of_encode h
  have hrest := (List.cons.inj h).2
  cases a <;> cases b <;> simp [typeOrder] at htype
  case null.null => exact ⟨rfl, hrest⟩
  case bool.bool x y =>
    obtain ⟨hbyte, hrest⟩ := List.cons.inj hrest
    refine ⟨?_, hrest⟩
    cases x <;> cases y <;> simp_all
  case int.int x y =>
    obtain ⟨hbits, hrest⟩ := word_append_inj rfl hrest
    exact ⟨congrArg int (Int32.toBitVec_inj.mp hbits), hrest⟩
  case long.long x y =>
    obtain ⟨hbits, hrest⟩ := word_append_inj rfl hrest
    exact ⟨congrArg long (Int64.toBitVec_inj.mp hbits), hrest⟩
  case float.float x y =>
    obtain ⟨hbits, hrest⟩ := word_append_inj rfl hrest
    exact ⟨congrArg float (Ieee.ext hbits), hrest⟩
  case double.double x y =>
    obtain ⟨hbits, hrest⟩ := word_append_inj rfl hrest
    exact ⟨congrArg double (Ieee.ext hbits), hrest⟩
  case text.text x y =>
    have hcounted : littleEndian 8 (utf8 x).length ++ utf8 x ++ r =
        littleEndian 8 (utf8 y).length ++ utf8 y ++ r' := hrest
    obtain ⟨htext, hrest⟩ := counted_append_inj ha hb hcounted
    exact ⟨congrArg text (utf8_inj htext), hrest⟩
  case bytes.bytes x y =>
    have hcounted : littleEndian 8 x.length ++ x ++ r = littleEndian 8 y.length ++ y ++ r' := hrest
    obtain ⟨hbytes, hrest⟩ := counted_append_inj ha hb hcounted
    exact ⟨congrArg bytes hbytes, hrest⟩

/-- Fields one after the other are told apart, however many they are. -/
theorem flatMap_encode_inj : ∀ {as bs : List Scalar}, (∀ a ∈ as, a.Measured) → (∀ b ∈ bs, b.Measured) →
    as.flatMap encode = bs.flatMap encode → as = bs
  | [], [], _, _, _ => rfl
  | [], b :: bs, _, _, h => by
    rw [List.flatMap_cons] at h
    exact absurd (List.append_eq_nil_iff.mp h.symm).1 b.encode_ne_nil
  | a :: as, [], _, _, h => by
    rw [List.flatMap_cons] at h
    exact absurd (List.append_eq_nil_iff.mp h).1 a.encode_ne_nil
  | a :: as, b :: bs, ha, hb, h => by
    obtain ⟨ha, has⟩ := List.forall_mem_cons.mp ha
    obtain ⟨hb, hbs⟩ := List.forall_mem_cons.mp hb
    rw [List.flatMap_cons, List.flatMap_cons] at h
    obtain ⟨rfl, hrest⟩ := encode_append_inj ha hb h
    rw [flatMap_encode_inj has hbs hrest]

end Scalar

namespace Tuple

/-- The length of every text or binary field fits into 64 bits. -/
def Measured (t : Tuple) : Prop := ∀ s ∈ t.fields, s.Measured

instance : DecidablePred Measured := fun t => inferInstanceAs (Decidable (∀ s ∈ t.fields, s.Measured))

/-- **Keys are told apart by their encodings.** The bytes under which two keys are hashed
are the same exactly if the keys are: as many fields, of the same types in the same order,
with the same payloads, real numbers bit by bit. -/
theorem encode_inj_iff {t u : Tuple} (ht : t.Measured) (hu : u.Measured) : t.encode = u.encode ↔ t = u := by
  constructor
  · intro h
    cases t
    cases u
    exact congrArg mk (Scalar.flatMap_encode_inj ht hu h)
  · rintro rfl
    rfl

/-- The text of the one key holds the bytes of the other's second field. -/
theorem encode_inj_iff_nested :
    let t : Tuple := ⟨[.text "a", .null]⟩
    let u : Tuple := ⟨[.text "a\x00"]⟩
    t.Measured ∧ u.Measured ∧ (t.encode = u.encode ↔ t = u) := by
  intro t u
  have ht : t.Measured := by decide
  have hu : u.Measured := by decide
  exact ⟨ht, hu, encode_inj_iff ht hu⟩

end Tuple
end MapReduce
