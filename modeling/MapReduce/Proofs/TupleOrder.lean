/-
# Values and tuples are totally ordered

The comparisons of values and of tuples obey the laws of a total order up to what they
find equal (`LawfulComparison`). Every map keyed by tuples, the check of sorted input
and the search for a range rely on these laws.

Two things have to be said apart from the laws. What compares equal is said without the
comparison: tuples with as many fields, each of the same type and value, where the two
zeros are one value and all NaNs of a width are one (`Scalar.Agrees`). And the order
of real numbers, which is read off their bits, is the order of the numbers they stand
for, with the infinities around them and NaN above (`Ieee.meaning`): more magnitude bits
are a larger value (`Ieee.value_lt_value`). Widening a number to 64 bits keeps what it
stands for (`Ieee.meaning_convert`), so numbers of 32 bits compare as they do when they
are widened first.

Key definitions: `Ieee.meaning`, `Scalar.Agrees`, `LawfulComparison`.
Key theorems: `Ieee.compare_eq_meaning`, `Ieee.meaning_convert`,
`Tuple.compare_eq_iff_agrees`, `Tuple.compare_lawful`.
-/
import MapReduce.Proofs.KeyHash
import MapReduce.Proofs.RealReading

namespace MapReduce

/-! ### Real numbers by their values -/

namespace Ieee

variable {f : Format} {x y : Ieee f}

/-- More magnitude bits, a larger value. -/
theorem value_lt_value (h : x.magnitude < y.magnitude) : x.value < y.value := by
  have hx := x.magnitude_eq
  have hy := y.magnitude_eq
  have hxe := x.minExponent_le
  have hye := y.minExponent_le
  rcases lt_trichotomy x.exponent y.exponent with he | he | he
  · -- the significand of the smaller one has at most one bit more
    have hsx : (x.significand : ℚ) < 2 ^ (f.fractionBits + 1) := by exact_mod_cast x.significand_lt
    have hsy : (2 : ℚ) ^ f.fractionBits ≤ y.significand := by
      exact_mod_cast le_significand (lt_of_le_of_lt hxe he)
    calc x.value = x.significand * 2 ^ x.exponent := rfl
      _ < 2 ^ (f.fractionBits + 1) * 2 ^ x.exponent := by gcongr
      _ = 2 ^ f.fractionBits * 2 ^ (x.exponent + 1) := by rw [zpow_add_one₀ two_ne_zero, pow_succ]; ring
      _ ≤ 2 ^ f.fractionBits * 2 ^ y.exponent := by
        gcongr
        · exact one_le_two
        · omega
      _ ≤ y.value := by
        unfold value
        gcongr
  · have hs : x.significand < y.significand := by
      rw [hx, hy, he] at h
      omega
    unfold value
    rw [he]
    gcongr
  · exfalso
    have hsx := le_significand (x := x) (lt_of_le_of_lt hye he)
    have hsy := y.significand_lt
    have hk : (y.exponent - f.minExponent).toNat + 1 ≤ (x.exponent - f.minExponent).toNat := by omega
    have hmul := Nat.mul_le_mul_right (2 ^ f.fractionBits) hk
    rw [Nat.add_mul] at hmul
    rw [pow_succ] at hsy
    omega

theorem value_of_magnitude_eq (h : x.magnitude = y.magnitude) : x.value = y.value := by
  unfold value significand exponent
  rw [h]

theorem value_nonneg (x : Ieee f) : 0 ≤ x.value := by
  unfold value
  positivity

theorem significand_eq_zero (h : x.magnitude = 0) : x.significand = 0 := by
  have := x.magnitude_eq
  omega

theorem value_eq_zero (h : x.magnitude = 0) : x.value = 0 := by
  rw [value, significand_eq_zero h, Nat.cast_zero, zero_mul]

theorem value_pos (h : x.magnitude ≠ 0) : 0 < x.value := by
  have hsig : (0 : ℚ) < x.significand := by exact_mod_cast significand_pos h
  unfold value
  positivity

/-- The number that a pattern stands for, or the end of the line on its side. -/
def line (x : Ieee f) : WithTop (WithBot ℚ) :=
  if x.isInfinite then if x.negative then ((⊥ : WithBot ℚ) : WithTop (WithBot ℚ)) else ⊤
  else ((if x.negative then -x.value else x.value : ℚ) : WithBot ℚ)

/-- What a pattern stands for; not a number is above all numbers. -/
def meaning (x : Ieee f) : WithTop (WithTop (WithBot ℚ)) := if x.isNaN then ⊤ else x.line

theorem rank_of_not_isNaN (h : x.isNaN = false) :
    x.rank = if x.negative then -(x.magnitude : Int) else x.magnitude := by
  rw [rank, h, if_neg Bool.false_ne_true]

theorem magnitude_le_of_not_isNaN (h : x.isNaN = false) : x.magnitude ≤ f.infinite :=
  Nat.le_of_not_lt (of_decide_eq_false h)

theorem line_of_lt (h : x.magnitude < f.infinite) :
    x.line = ((if x.negative then -x.value else x.value : ℚ) : WithBot ℚ) := by
  rw [line, isInfinite, beq_false_of_ne (Nat.ne_of_lt h), if_neg Bool.false_ne_true]

theorem line_of_eq (h : x.magnitude = f.infinite) :
    x.line = if x.negative then ((⊥ : WithBot ℚ) : WithTop (WithBot ℚ)) else ⊤ := by
  rw [line, isInfinite, h, beq_self_eq_true, if_pos rfl]

/-- **Numbers rank by their values**, with the infinities around them. -/
theorem line_lt_line (hx : x.isNaN = false) (hy : y.isNaN = false) (h : x.rank < y.rank) :
    x.line < y.line := by
  rw [rank_of_not_isNaN hx, rank_of_not_isNaN hy] at h
  have hxm := magnitude_le_of_not_isNaN hx
  have hym := magnitude_le_of_not_isNaN hy
  cases hxn : x.negative <;> cases hyn : y.negative <;>
    simp only [hxn, hyn, if_true, if_false, Bool.false_eq_true] at h
  case false.false =>
    have hlt : x.magnitude < y.magnitude := by omega
    rw [line_of_lt (by omega), hxn]
    rcases Nat.lt_or_eq_of_le hym with hyf | hyf
    · rw [line_of_lt hyf, hyn]
      simpa using value_lt_value hlt
    · rw [line_of_eq hyf, hyn]
      exact WithTop.coe_lt_top _
  case false.true => omega
  case true.false =>
    rcases Nat.lt_or_eq_of_le hxm with hxf | hxf <;> rcases Nat.lt_or_eq_of_le hym with hyf | hyf
    · rw [line_of_lt hxf, line_of_lt hyf, hxn, hyn]
      have hvalues : -x.value < y.value := by
        by_cases hx0 : x.magnitude = 0
        · have := value_pos (x := y) (by omega)
          rw [value_eq_zero hx0]
          simpa using this
        · have := value_pos hx0
          have := y.value_nonneg
          linarith
      simpa using hvalues
    · rw [line_of_lt hxf, line_of_eq hyf, hyn]
      exact WithTop.coe_lt_top _
    · rw [line_of_eq hxf, line_of_lt hyf, hxn]
      exact WithTop.coe_lt_coe.mpr (WithBot.bot_lt_coe _)
    · rw [line_of_eq hxf, line_of_eq hyf, hxn, hyn]
      exact WithTop.coe_lt_top _
  case true.true =>
    have hlt : y.magnitude < x.magnitude := by omega
    rw [line_of_lt (x := y) (by omega), hyn]
    rcases Nat.lt_or_eq_of_le hxm with hxf | hxf
    · rw [line_of_lt hxf, hxn]
      simpa using value_lt_value hlt
    · rw [line_of_eq hxf, hxn]
      exact WithTop.coe_lt_coe.mpr (WithBot.bot_lt_coe _)

theorem meaning_lt_of_rank_lt (h : x.rank < y.rank) : x.meaning < y.meaning := by
  cases hx : x.isNaN with
  | true =>
    have hle : y.rank ≤ 2 ^ f.magnitudeBits := by
      cases hy : y.isNaN with
      | true => exact (rank_of_isNaN hy).le
      | false => exact ((rank_lt_iff_not_isNaN y).mpr hy).le
    rw [rank_of_isNaN hx] at h
    exact absurd h (not_lt.mpr hle)
  | false =>
    rw [meaning, meaning, hx, if_neg Bool.false_ne_true]
    cases hy : y.isNaN with
    | true => exact WithTop.coe_lt_top _
    | false => exact WithTop.coe_lt_coe.mpr (line_lt_line hx hy h)

theorem meaning_eq_of_isZero (hf : 0 < f.infinite) (h : x.isZero = true) : x.meaning = ((0 : ℚ) : WithBot ℚ) := by
  have hm : x.magnitude = 0 := beq_iff_eq.mp h
  have hnan : x.isNaN = false := decide_eq_false (by omega)
  rw [meaning, hnan, if_neg Bool.false_ne_true, line_of_lt (by omega), value_eq_zero hm]
  simp

theorem meaning_eq_of_compare_eq (hf : 0 < f.infinite) (h : x.compare y = .eq) : x.meaning = y.meaning := by
  rcases (compare_eq_iff x y).mp h with rfl | ⟨_, ⟨hx, hy⟩ | ⟨hx, hy⟩⟩
  · rfl
  · rw [meaning_eq_of_isZero hf hx, meaning_eq_of_isZero hf hy]
  · rw [meaning, meaning, if_pos hx, if_pos hy]

/-- **Real numbers compare by what they stand for.** -/
theorem compare_eq_meaning (hf : 0 < f.infinite) (x y : Ieee f) :
    x.compare y = Ord.compare x.meaning y.meaning := by
  have hlt : ∀ a b : Ieee f, a.compare b = .lt → a.meaning < b.meaning :=
    fun a b h => meaning_lt_of_rank_lt (compare_lt_iff_lt.mp h)
  cases h : x.compare y with
  | lt => exact (compare_lt_iff_lt.mpr (hlt x y h)).symm
  | eq => exact (compare_eq_iff_eq.mpr (meaning_eq_of_compare_eq hf h)).symm
  | gt => exact (compare_gt_iff_gt.mpr (hlt y x (Std.OrientedCmp.lt_of_gt h))).symm

/-! ### Widening -/

theorem meaning_of_isNaN (h : x.isNaN = true) : x.meaning = ⊤ := if_pos h

theorem meaning_of_lt (h : x.magnitude < f.infinite) :
    x.meaning = (((if x.negative then -x.value else x.value : ℚ) : WithBot ℚ) : WithTop (WithBot ℚ)) := by
  have hnan : x.isNaN = false := decide_eq_false (Nat.lt_asymm h)
  rw [meaning, hnan, if_neg Bool.false_ne_true, line_of_lt h]

theorem meaning_infinity (negative : Bool) : (infinity negative : Ieee f).meaning =
    (if negative then ((⊥ : WithBot ℚ) : WithTop (WithBot ℚ)) else ⊤ : WithTop (WithBot ℚ)) := by
  rw [meaning, isNaN_infinity, if_neg Bool.false_ne_true, line_of_eq (magnitude_infinity negative), negative_infinity]

/-- There is a number of 64 bits for every finite one of 32 bits. -/
theorem ofScaled_widened {x : Float32Bits} (hx : x.magnitude < Format.single.infinite) (h0 : x.magnitude ≠ 0) :
    ∃ z : Float64Bits, ofScaled x.negative x.significand x.exponent 1 = z ∧
      z.magnitude < Format.double.infinite ∧ z.negative = x.negative ∧ z.value = x.value := by
  have hsig : x.significand < 2 ^ 24 := x.significand_lt
  have hmin : -149 ≤ x.exponent := x.minExponent_le
  have hmax : x.exponent ≤ 104 := by
    have hdiv : x.magnitude / Nat.pow 2 Format.single.fractionBits < 255 := Nat.div_lt_of_lt_mul hx
    have hleast : Format.single.minExponent = -149 := by decide
    rw [exponent, hleast]
    omega
  obtain ⟨p, hp⟩ := exists_is (significand_pos h0) (by omega) (show -900 ≤ x.exponent by omega) (by omega)
  let z : Float64Bits := ofMagnitude x.negative p.magnitude
  have hmag : z.magnitude = p.magnitude := magnitude_ofMagnitude _ p.magnitude_lt
  have hneg : z.negative = x.negative := negative_ofMagnitude _ p.magnitude_lt
  have hfinite : z.magnitude < Format.double.infinite := hmag ▸ hp.finite
  have hvalue : z.value = x.value := (value_of_magnitude_eq hmag).trans hp.value_eq
  refine ⟨z, ?_, hfinite, hneg, hvalue⟩
  rw [← hneg]
  refine ofScaled_of_roundsTo hfinite (hmag ▸ hp.ne_zero) Nat.one_pos ?_
  have hr := z.roundsTo_value
  rw [hvalue, value] at hr
  rwa [Nat.cast_one, div_one]

/-- **A number of 32 bits is the same number when it is widened.** -/
theorem meaning_convert (x : Float32Bits) : (x.convert Format.double).meaning = x.meaning := by
  unfold convert
  cases hnan : x.isNaN with
  | true =>
    have hwide : (nan : Float64Bits).isNaN = true := by decide
    rw [if_pos rfl, meaning_of_isNaN hwide, meaning_of_isNaN hnan]
  | false =>
    rw [if_neg Bool.false_ne_true]
    rcases Nat.lt_or_eq_of_le (magnitude_le_of_not_isNaN hnan) with hlt | heq
    · have hinf : x.isInfinite = false := beq_false_of_ne hlt.ne
      rw [hinf, if_neg Bool.false_ne_true]
      by_cases h0 : x.magnitude = 0
      · have hsig : x.significand = 0 := significand_eq_zero h0
        have hwide : (zero x.negative : Float64Bits).isZero = true := by cases x.negative <;> decide
        rw [hsig, ofScaled, Nat.zero_mul, ofRatio, if_pos rfl, meaning_eq_of_isZero (by decide) hwide,
          meaning_eq_of_isZero (by decide) (beq_iff_eq.mpr h0)]
      · obtain ⟨z, hz, hfinite, hneg, hvalue⟩ := ofScaled_widened hlt h0
        rw [hz, meaning_of_lt hfinite, meaning_of_lt hlt, hneg, hvalue]
    · have hinf : x.isInfinite = true := beq_iff_eq.mpr heq
      rw [hinf, if_pos rfl, meaning_infinity, meaning, hnan, if_neg Bool.false_ne_true, line_of_eq heq]

end Ieee

/-! ### Values and tuples that agree -/

/-- The same number: the same pattern, or two zeros; or neither is a number. -/
def Ieee.Agrees {f : Format} (x y : Ieee f) : Prop :=
  x = y ∨ x.isZero ∧ y.isZero ∨ x.isNaN ∧ y.isNaN

/-- Values of one type that are the same, up to the sign of a zero and the pattern of a
NaN. -/
def Scalar.Agrees : Scalar → Scalar → Prop
  | .float x, .float y => x.Agrees y
  | .double x, .double y => x.Agrees y
  | a, b => a = b

theorem Ieee.eq_or_twins_iff {f : Format} (x y : Ieee f) : x = y ∨ x.Twins y ↔ x.Agrees y := by
  unfold Ieee.Twins Ieee.Agrees
  tauto

/-- Values compare equal exactly if they agree. -/
theorem Scalar.compare_eq_iff_agrees (a b : Scalar) : a.compare b = .eq ↔ a.Agrees b := by
  rw [compare_eq_iff]
  cases a <;> cases b <;> simp [Agrees, Twins, ← Ieee.eq_or_twins_iff]

/-- Tuples compare equal exactly if they have as many fields and these agree. -/
theorem Tuple.compare_eq_iff_agrees (a b : Tuple) : a.compare b = .eq ↔ a.arity = b.arity ∧
    ∀ (i : Nat) (x y : Scalar), a.fields[i]? = some x → b.fields[i]? = some y → x.Agrees y := by
  rw [Tuple.compare, compareLex_eq_iff, List.forall₂_iff_get]
  refine and_congr_right fun _ => ⟨fun h i x y hx hy => ?_, fun h i hi hi' => ?_⟩
  · obtain ⟨hi, rfl⟩ := List.getElem?_eq_some_iff.mp hx
    obtain ⟨hi', rfl⟩ := List.getElem?_eq_some_iff.mp hy
    exact (Scalar.compare_eq_iff_agrees _ _).mp (h i hi hi')
  · exact (Scalar.compare_eq_iff_agrees _ _).mpr
      (h i _ _ (List.getElem?_eq_getElem hi) (List.getElem?_eq_getElem hi'))

/-! ### The laws -/

/-- The laws of a total order, for a comparison that may find different things equal. -/
structure LawfulComparison {α : Type} (cmp : α → α → Ordering) : Prop where
  refl : ∀ a, cmp a a = .eq
  swap : ∀ a b, cmp b a = (cmp a b).swap
  lt_trans : ∀ a b c, cmp a b = .lt → cmp b c = .lt → cmp a c = .lt
  eq_trans : ∀ a b c, cmp a b = .eq → cmp b c = .eq → cmp a c = .eq
  congr_left : ∀ a b c, cmp a b = .eq → cmp a c = cmp b c
  congr_right : ∀ a b c, cmp a b = .eq → cmp c a = cmp c b

theorem lawfulComparison_of_transCmp {α : Type} (cmp : α → α → Ordering) [Std.TransCmp cmp] :
    LawfulComparison cmp where
  refl _ := Std.ReflCmp.compare_self
  swap _ _ := Std.OrientedCmp.eq_swap
  lt_trans _ _ _ := Std.TransCmp.lt_trans
  eq_trans _ _ _ := Std.TransCmp.eq_trans
  congr_left _ _ _ := Std.TransCmp.congr_left
  congr_right _ _ _ := Std.TransCmp.congr_right

/-- **Values and tuples are totally ordered.** Both comparisons are lawful, whatever the
types and the numbers of fields. Tuples compare equal exactly if they agree field by
field. Among the real numbers of a width the order is that of the numbers they stand
for, infinities included, and all NaNs come last; widening does not change it. -/
theorem Tuple.compare_lawful :
    LawfulComparison Scalar.compare ∧ LawfulComparison Tuple.compare ∧
      (∀ a b : Tuple, a.compare b = .eq ↔ a.arity = b.arity ∧
        ∀ (i : Nat) (x y : Scalar), a.fields[i]? = some x → b.fields[i]? = some y → x.Agrees y) ∧
      (∀ x y, Scalar.compare (.double x) (.double y) = Ord.compare x.meaning y.meaning) ∧
      ∀ x y, Scalar.compare (.float x) (.float y) = Ord.compare x.meaning y.meaning ∧
        Scalar.compare (.float x) (.float y) =
          Scalar.compare (.double (x.convert Format.double)) (.double (y.convert Format.double)) := by
  have hdouble : ∀ x y : Float64Bits, x.compare y = Ord.compare x.meaning y.meaning :=
    Ieee.compare_eq_meaning (by decide)
  have hsingle : ∀ x y : Float32Bits, x.compare y = Ord.compare x.meaning y.meaning :=
    Ieee.compare_eq_meaning (by decide)
  refine ⟨lawfulComparison_of_transCmp _, lawfulComparison_of_transCmp _, compare_eq_iff_agrees, hdouble,
    fun x y => ⟨hsingle x y, ?_⟩⟩
  calc Scalar.compare (.float x) (.float y)
    _ = Ord.compare x.meaning y.meaning := hsingle x y
    _ = Ord.compare (x.convert Format.double).meaning (y.convert Format.double).meaning := by
      rw [Ieee.meaning_convert, Ieee.meaning_convert]
    _ = Scalar.compare (.double (x.convert Format.double)) (.double (y.convert Format.double)) :=
      (hdouble _ _).symm

end MapReduce
