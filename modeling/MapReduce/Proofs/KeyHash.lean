/-
# When equal keys have one hash

Two keys are the same key if they compare equal, and a key is hashed by its
encoding. The two notions differ in one place only: the comparison sees neither
the sign of a zero nor the bits of a NaN, the encoding sees both. Such pairs of
values are `Twins`. Values that compare equal are the same or twins
(`Scalar.compare_eq_iff`), and the encodings of keys that compare equal agree
exactly if no field of them is a pair of twins (`Tuple.encode_eq_iff`). So keys
without twins go to one reducer, and the two zeros can go to two.

Key definitions: `Ieee.Twins`, `Scalar.Twins`, `Tuple.Twins`.
Key theorems: `Ieee.compare_eq_iff`, `Scalar.compare_eq_iff`,
`Tuple.encode_eq_iff`, `hash_eq_of_compare_eq`.
-/
import MapReduce.Proofs.Ieee
import MapReduce.Shuffle.Partitioner

namespace MapReduce

/-! ### Real numbers -/

namespace Ieee

variable {f : Format}

/-- Different bit patterns that the order does not tell apart: two zeros, or two
NaNs. -/
def Twins (x y : Ieee f) : Prop := x ≠ y ∧ (x.isZero ∧ y.isZero ∨ x.isNaN ∧ y.isNaN)

/-- **What the order of real numbers does not see.** Two numbers compare equal if
they are the same, or twins. -/
theorem compare_eq_iff (x y : Ieee f) : x.compare y = .eq ↔ x = y ∨ x.Twins y := by
  have hrank : x.compare y = .eq ↔ x.rank = y.rank := by
    unfold compare compareOn
    exact compare_eq_iff_eq
  rw [hrank]
  constructor
  · intro h
    by_cases hxy : x = y
    · exact .inl hxy
    refine .inr ⟨hxy, ?_⟩
    have hnan : x.isNaN = y.isNaN := by
      rw [Bool.eq_iff_iff, ← not_iff_not, Bool.not_eq_true, Bool.not_eq_true, ← rank_lt_iff_not_isNaN,
        ← rank_lt_iff_not_isNaN, h]
    cases hx : x.isNaN with
    | true => exact .inr ⟨rfl, hnan ▸ hx⟩
    | false =>
      -- both are numbers, so their magnitudes agree, and their signs unless they are zero
      left
      rw [rank, rank, ← hnan, hx] at h
      simp only [Bool.false_eq_true, if_false] at h
      by_cases hs : x.negative = y.negative
      · have hm : x.magnitude = y.magnitude := by rw [hs] at h; split at h <;> omega
        exact absurd (eq_of_magnitude hm hs) hxy
      · have hm : x.magnitude = 0 ∧ y.magnitude = 0 := by
          cases hx : x.negative <;> cases hy : y.negative <;> simp_all
        simp [isZero, hm]
  · rintro (rfl | ⟨_, ⟨hx, hy⟩ | ⟨hx, hy⟩⟩)
    · rfl
    · simp only [isZero, beq_iff_eq] at hx hy
      simp [rank, isNaN, hx, hy]
    · simp [rank, hx, hy]

end Ieee

/-! ### Scalars and tuples -/

/-- Lists compare equal if they are equally long and their items compare equal. -/
theorem compareLex_eq_iff {α : Type} {cmp : α → α → Ordering} : ∀ {xs ys : List α},
    List.compareLex cmp xs ys = .eq ↔ List.Forall₂ (fun x y => cmp x y = .eq) xs ys
  | [], [] => by simp [List.compareLex]
  | [], _ :: _ => by simp [List.compareLex]
  | _ :: _, [] => by simp [List.compareLex]
  | x :: xs, y :: ys => by
    rw [List.forall₂_cons, List.compareLex, ← compareLex_eq_iff]
    cases cmp x y <;> simp

theorem eq_of_compareBytes {a b : Bytes} (h : compareBytes a b = .eq) : a = b := by
  have hall := compareLex_eq_iff.mp h
  refine List.forall₂_eq_eq_eq ▸ hall.imp fun x y hxy => ?_
  exact UInt8.toNat_inj.mp (compare_eq_iff_eq.mp hxy)

namespace Scalar

/-- Different values that compare equal. -/
def Twins : Scalar → Scalar → Prop
  | .float x, .float y => x.Twins y
  | .double x, .double y => x.Twins y
  | _, _ => False

/-- Values that compare equal are the same, or twins. -/
theorem compare_eq_iff (a b : Scalar) : a.compare b = .eq ↔ a = b ∨ a.Twins b := by
  by_cases e : a.typeOrder = b.typeOrder
  · cases a <;> cases b <;> simp [typeOrder] at e
    case null.null => simp [compare]
    case bool.bool x y => cases x <;> cases y <;> simp [compare, Twins] <;> decide
    case int.int x y =>
      rw [compare, compareOn, compare_eq_iff_eq, Int32.toInt_inj]
      simp [Twins]
    case long.long x y =>
      rw [compare, compareOn, compare_eq_iff_eq, Int64.toInt_inj]
      simp [Twins]
    case float.float x y => simp [compare, Ieee.compare_eq_iff, Twins]
    case double.double x y => simp [compare, Ieee.compare_eq_iff, Twins]
    case text.text x y =>
      rw [compare, compare_eq_iff_eq]
      simp [Twins]
    case bytes.bytes x y =>
      rw [compare]
      simp only [bytes.injEq, Twins, or_false]
      exact ⟨eq_of_compareBytes, fun h => h ▸ Std.ReflCmp.compare_self⟩
  · have hne : a ≠ b := fun h => e (congrArg typeOrder h)
    have ht : ¬ a.Twins b := by cases a <;> cases b <;> simp_all [Twins, typeOrder]
    rw [compare_of_typeOrder_ne e, compareOn, compare_eq_iff_eq]
    simp [e, hne, ht]

end Scalar

/-- A field where two keys hold twins. -/
def Tuple.Twins (a b : Tuple) : Prop :=
  ∃ (i : Nat) (x y : Scalar), a.fields[i]? = some x ∧ b.fields[i]? = some y ∧ x.Twins y

/-- Nothing is its own twin. -/
theorem Scalar.not_twins_self (x : Scalar) : ¬ x.Twins x := by
  cases x <;> simp [Twins, Ieee.Twins]

theorem Tuple.not_twins_self (a : Tuple) : ¬ a.Twins a := by
  rintro ⟨i, x, y, hx, hy, h⟩
  rw [hx] at hy
  cases hy
  exact x.not_twins_self h

theorem fields_eq_of_compare_eq {xs ys : List Scalar}
    (h : List.Forall₂ (fun x y => x.compare y = .eq) xs ys) :
    (∀ (i : Nat) (x y : Scalar), xs[i]? = some x → ys[i]? = some y → ¬ x.Twins y) → xs = ys := by
  induction h with
  | nil => exact fun _ => rfl
  | cons hxy _ ih =>
    intro hno
    rcases (Scalar.compare_eq_iff _ _).mp hxy with rfl | ht
    · rw [ih fun i x y hx hy => hno (i + 1) x y hx hy]
    · exact absurd ht (hno 0 _ _ rfl rfl)

/-- Keys that compare equal and have no field with twins are the same. -/
theorem Tuple.eq_of_compare_eq {a b : Tuple} (h : a.compare b = .eq) (ht : ¬ a.Twins b) : a = b := by
  have hf : a.fields = b.fields := fields_eq_of_compare_eq (compareLex_eq_iff.mp h)
    fun i x y hx hy hxy => ht ⟨i, x, y, hx, hy, hxy⟩
  cases a
  cases b
  exact congrArg Tuple.mk hf

/-! ### The encoding -/

theorem length_littleEndian : ∀ n v : Nat, (littleEndian n v).length = n
  | 0, _ => rfl
  | n + 1, v => by rw [littleEndian, List.length_cons, length_littleEndian n]

/-- Numbers that fit are told apart by their bytes. -/
theorem littleEndian_inj : ∀ {n v w : Nat}, v < 256 ^ n → w < 256 ^ n →
    littleEndian n v = littleEndian n w → v = w
  | 0, v, w, hv, hw, _ => by omega
  | n + 1, v, w, hv, hw, h => by
    rw [littleEndian, littleEndian, List.cons.injEq] at h
    obtain ⟨hlow, hhigh⟩ := h
    have hmod : v % 256 = w % 256 := by
      have := congrArg UInt8.toNat hlow
      rwa [UInt8.toNat_ofNat', UInt8.toNat_ofNat'] at this
    have hdiv : v / 256 = w / 256 := by
      rw [Nat.pow_succ] at hv hw
      exact littleEndian_inj (Nat.div_lt_of_lt_mul (by omega)) (Nat.div_lt_of_lt_mul (by omega)) hhigh
    omega

theorem Ieee.eq_of_littleEndian {f : Format} {n : Nat} (hn : f.width = 8 * n) {x y : Ieee f}
    (h : littleEndian n x.bits.toNat = littleEndian n y.bits.toNat) : x = y := by
  have hpow : 2 ^ f.width = 256 ^ n := by rw [hn, Nat.pow_mul]
  have hlt : ∀ z : Ieee f, z.bits.toNat < 256 ^ n := fun z => hpow ▸ z.bits.isLt
  have hb := littleEndian_inj (hlt x) (hlt y) h
  cases x
  cases y
  exact congrArg Ieee.mk (BitVec.eq_of_toNat_eq hb)

/-- Values that compare equal have encodings of one length. -/
theorem Scalar.length_encode {x y : Scalar} (h : x.compare y = .eq) :
    x.encode.length = y.encode.length := by
  rcases (Scalar.compare_eq_iff x y).mp h with rfl | ht
  · rfl
  · cases x <;> cases y <;> simp_all [Twins, encode, length_littleEndian]

/-- The encoding tells twins apart. -/
theorem Scalar.encode_ne_of_twins {x y : Scalar} (h : x.Twins y) : x.encode ≠ y.encode := by
  intro he
  cases x <;> cases y <;> simp only [Twins] at h
  case float.float x y => exact h.1 (Ieee.eq_of_littleEndian (n := 4) rfl (List.cons.inj he).2)
  case double.double x y => exact h.1 (Ieee.eq_of_littleEndian (n := 8) rfl (List.cons.inj he).2)

theorem fields_eq_of_encode_eq {xs ys : List Scalar}
    (h : List.Forall₂ (fun x y => x.compare y = .eq) xs ys) :
    xs.flatMap Scalar.encode = ys.flatMap Scalar.encode → xs = ys := by
  induction h with
  | nil => exact fun _ => rfl
  | cons hxy _ ih =>
    intro he
    rw [List.flatMap_cons, List.flatMap_cons] at he
    obtain ⟨hhead, htail⟩ := List.append_inj he (Scalar.length_encode hxy)
    rcases (Scalar.compare_eq_iff _ _).mp hxy with rfl | ht
    · rw [ih htail]
    · exact absurd hhead (Scalar.encode_ne_of_twins ht)

/-- The encodings of keys that compare equal agree if no field holds twins. -/
theorem Tuple.encode_eq_iff {a b : Tuple} (h : a.compare b = .eq) : a.encode = b.encode ↔ ¬ a.Twins b := by
  constructor
  · intro he ht
    have hf : a.fields = b.fields := fields_eq_of_encode_eq (compareLex_eq_iff.mp h) he
    have hab : a = b := by cases a; cases b; exact congrArg Tuple.mk hf
    exact b.not_twins_self (hab ▸ ht)
  · intro ht
    rw [Tuple.eq_of_compare_eq h ht]

/-! ### Routing by hash -/

/-- **Equal keys without twins are routed together.** Keys that compare equal are
hashed from the same bytes exactly if no field holds two zeros of different
signs or two NaNs of different bits. Then they have one hash, and go to one
reducer by it, whatever the number of reducers is. -/
theorem hash_eq_of_compare_eq {a b : Tuple} (h : a.compare b = .eq) :
    (a.encode = b.encode ↔ ¬ a.Twins b) ∧
      (¬ a.Twins b → a.hash = b.hash ∧
        (∀ parallelism i j s t, (Partitioner.byHash parallelism).route i a s =
          (Partitioner.byHash parallelism).route j b t) ∧
        ∀ r : Router, r.defaultReducer a = r.defaultReducer b) := by
  refine ⟨Tuple.encode_eq_iff h, fun ht => ?_⟩
  have hash : a.hash = b.hash := by rw [Tuple.hash, Tuple.hash, (Tuple.encode_eq_iff h).mpr ht]
  refine ⟨hash, fun parallelism i j s t => ?_, fun r => ?_⟩
  · simp only [Partitioner.byHash, hash]
  · rw [Router.defaultReducer, Router.defaultReducer, hash]

/-- A key with a NaN and a text, against itself with another NaN. -/
theorem hash_eq_of_compare_eq_nan :
    let a : Tuple := ⟨[.double Ieee.nan, .text "a"]⟩
    let b : Tuple := ⟨[.double Ieee.nan.neg, .text "a"]⟩
    a.compare b = .eq ∧ (a.encode = b.encode ↔ ¬ a.Twins b) ∧
      (¬ a.Twins b → a.hash = b.hash ∧
        (∀ parallelism i j s t, (Partitioner.byHash parallelism).route i a s =
          (Partitioner.byHash parallelism).route j b t) ∧
        ∀ r : Router, r.defaultReducer a = r.defaultReducer b) := by
  intro a b
  have h : a.compare b = .eq := by decide
  exact ⟨h, hash_eq_of_compare_eq h⟩

/-- The two zeros are one key, but have two hashes, and of three reducers they go
to the last and to the middle one. -/
theorem hash_ne_of_zeros :
    let plus : Tuple := ⟨[.double (Ieee.zero false)]⟩
    let minus : Tuple := ⟨[.double (Ieee.zero true)]⟩
    plus.compare minus = .eq ∧ plus.hash ≠ minus.hash ∧
      (Partitioner.byHash 3).route 0 plus 0 = .ok [2] ∧
      (Partitioner.byHash 3).route 0 minus 0 = .ok [1] := by
  decide +kernel

end MapReduce
