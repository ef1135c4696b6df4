/-
# Which real numbers a document keeps

A finite real number is written as its shortest decimal and read by one rounded
multiplication or division by a power of ten. Where the digits of the literal
are below `2 ^ 53` and the power of ten is at most `10 ^ 22`, both operands are
exact, the one rounding is that of the literal's value, and the number comes
back (`Json.asDouble?_ofReal_of_exact`). Beyond that the operands are themselves
rounded, and the number comes back exactly if the reader still finds the nearest
number to the literal (`Json.asDouble?_ofReal_iff`). NaN and the infinities are
written as null, which is no number.

Key definitions: `Ieee.Is`.
Key theorems: `Ieee.is_ofNat`, `Numeral.scaled?_of_exact`,
`Json.asDouble?_ofReal_iff`, `Json.asDouble?_ofReal_of_exact`, `Json.ofReal_inj`.
-/
import MapReduce.Json.Codec
import MapReduce.Proofs.Documents
import MapReduce.Proofs.ShortestDecimal

namespace MapReduce
namespace Ieee

variable {f : Format}

/-! ### Exact results -/

/-- `x` is the finite number of the positive value `v`. -/
structure Is (x : Ieee f) (v : ℚ) : Prop where
  finite : x.magnitude < f.infinite
  ne_zero : x.magnitude ≠ 0
  positive : x.negative = false
  value_eq : x.value = v

theorem Is.isNaN {x : Ieee f} {v : ℚ} (h : x.Is v) : x.isNaN = false :=
  decide_eq_false (Nat.lt_asymm h.finite)

theorem Is.isInfinite {x : Ieee f} {v : ℚ} (h : x.Is v) : x.isInfinite = false :=
  beq_false_of_ne h.finite.ne

theorem Is.isZero {x : Ieee f} {v : ℚ} (h : x.Is v) : x.isZero = false := beq_false_of_ne h.ne_zero

/-- There is a number for every full significand and every exponent of the
format. -/
theorem exists_of_significand {m k : Nat} (hlow : 2 ^ f.fractionBits ≤ m)
    (hhigh : m < 2 ^ f.fractionBits * 2) (hk : k + 1 < 2 ^ f.exponentBits - 1) :
    ∃ x : Ieee f, x.Is (m * 2 ^ (f.minExponent + k)) := by
  obtain ⟨r, rfl⟩ := Nat.exists_eq_add_of_le hlow
  have hlt : r + 2 ^ f.fractionBits * (k + 1) < f.infinite := by
    calc r + 2 ^ f.fractionBits * (k + 1) < 2 ^ f.fractionBits + 2 ^ f.fractionBits * (k + 1) := by
          omega
      _ = (k + 2) * 2 ^ f.fractionBits := by ring
      _ ≤ f.infinite := Nat.mul_le_mul_right _ hk
  have hwidth := hlt.trans (infinite_lt f)
  let x : Ieee f := ofMagnitude false (r + 2 ^ f.fractionBits * (k + 1))
  have hmag : x.magnitude = r + 2 ^ f.fractionBits * (k + 1) := magnitude_ofMagnitude _ hwidth
  obtain ⟨hdiv, hmod⟩ : x.magnitude / 2 ^ f.fractionBits = k + 1 ∧
      x.magnitude % 2 ^ f.fractionBits = r :=
    (Nat.div_mod_unique (Nat.two_pow_pos _)).mpr ⟨hmag.symm, by omega⟩
  have hsig : x.significand = 2 ^ f.fractionBits + r := by
    unfold significand
    simp only [Nat.pow_eq]
    rw [hdiv, hmod, if_neg (Nat.succ_ne_zero k)]
  have hexp : x.exponent = f.minExponent + k := by
    unfold exponent
    rw [Nat.pow_eq, hdiv, Nat.add_sub_cancel]
  refine ⟨x, hmag ▸ hlt, fun h0 => ?_, negative_ofMagnitude _ hwidth, by rw [value, hsig, hexp]⟩
  rw [h0, Nat.zero_div] at hdiv
  exact Nat.succ_ne_zero k hdiv.symm

/-- A number of at most 53 bits and a moderate power of two is exact. -/
theorem exists_is {n : Nat} {e : Int} (h0 : 0 < n) (h : n < 2 ^ 53) (hlow : -900 ≤ e) (hhigh : e ≤ 900) :
    ∃ x : Float64Bits, x.Is (n * 2 ^ e) := by
  have hlog : Nat.log2 n ≤ 52 := Nat.le_of_lt_succ ((Nat.log2_lt h0.ne').mpr h)
  have hpow : 2 ^ Nat.log2 n * 2 ^ (52 - Nat.log2 n) = 2 ^ 52 := by
    rw [← pow_add]
    congr 1
    omega
  have hleast : 2 ^ 52 ≤ n * 2 ^ (52 - Nat.log2 n) := by
    rw [← hpow]
    exact Nat.mul_le_mul_right _ (Nat.log2_self_le h0.ne')
  have hmost : n * 2 ^ (52 - Nat.log2 n) < 2 ^ 52 * 2 := by
    calc n * 2 ^ (52 - Nat.log2 n) < 2 ^ (Nat.log2 n + 1) * 2 ^ (52 - Nat.log2 n) :=
          Nat.mul_lt_mul_of_pos_right Nat.lt_log2_self (Nat.two_pow_pos _)
      _ = 2 ^ 52 * 2 := by rw [pow_succ, mul_right_comm, hpow]
  have hk : (Nat.log2 n + e + 1022).toNat + 1 < 2 ^ 11 - 1 := by omega
  obtain ⟨x, hx⟩ := exists_of_significand (f := Format.double) hleast hmost hk
  have hscale : Format.double.minExponent + ((Nat.log2 n + e + 1022).toNat : Int) +
      (52 - Nat.log2 n : Nat) = e := by
    have : Format.double.minExponent = -1074 := by decide
    omega
  generalize Format.double.minExponent + ((Nat.log2 n + e + 1022).toNat : Int) = d at hx hscale
  have hvalue : ((n * 2 ^ (52 - Nat.log2 n) : Nat) : ℚ) * 2 ^ d = n * 2 ^ e := by
    rw [← hscale, zpow_add₀ two_ne_zero, zpow_natCast]
    push_cast
    ring
  exact ⟨x, hvalue ▸ hx⟩

theorem is_ofNat {n j : Nat} (h0 : 0 < n) (h : n < 2 ^ 53) (hj : j ≤ 900) :
    (ofNat (n * 2 ^ j) : Float64Bits).Is (n * 2 ^ j) := by
  obtain ⟨x, hx⟩ := exists_is (e := j) h0 h (by omega) (by omega)
  rw [zpow_natCast] at hx
  have heq : ofNat (n * 2 ^ j) = x := by
    have hr : x.RoundsTo (((n * 2 ^ j : Nat) : ℚ) / (1 : Nat)) := by
      have := x.roundsTo_value
      rw [hx.value_eq] at this
      push_cast
      rwa [div_one]
    have := ofRatio_of_roundsTo hx.finite hx.ne_zero Nat.one_pos hr
    rwa [hx.positive] at this
  rw [heq]
  exact hx

/-- The powers of ten up to the twenty-second are exact. -/
theorem is_ofNat_ten_pow {k : Nat} (hk : k ≤ 22) :
    (ofNat (Nat.pow 10 k) : Float64Bits).Is (10 ^ k) := by
  have h5 : 5 ^ k < 2 ^ 53 := lt_of_le_of_lt (Nat.pow_le_pow_right (by norm_num) hk) (by norm_num)
  have h := is_ofNat (Nat.pow_pos (by norm_num)) h5 (show k ≤ 900 by omega)
  have hnat : 5 ^ k * 2 ^ k = Nat.pow 10 k := by rw [← mul_pow]; rfl
  have hrat : ((5 ^ k : Nat) : ℚ) * 2 ^ k = 10 ^ k := by
    push_cast
    rw [← mul_pow]
    norm_num
  rwa [hnat, hrat] at h

theorem ofScaled_of_roundsTo {z : Ieee f} (hz : z.magnitude < f.infinite) (hz0 : z.magnitude ≠ 0)
    {num den : Nat} {e : Int} (hden : 0 < den) (h : z.RoundsTo (num * 2 ^ e / den)) :
    ofScaled z.negative num e den = z := by
  refine ofRatio_of_roundsTo hz hz0 (Nat.mul_pos hden (Nat.two_pow_pos _)) ?_
  rw [two_zpow_eq, ← mul_div_assoc, div_div, mul_comm (((Nat.pow 2 (-e).toNat : Nat) : ℚ))] at h
  exact_mod_cast h

section Exact

variable {x y z : Ieee f} {a b : ℚ} (hx : x.Is a) (hy : y.Is b)
  (hz : z.magnitude < f.infinite) (hz0 : z.magnitude ≠ 0) (hpos : z.negative = false)

include hx hy hz hz0 hpos

/-- A product is the number nearest to the product of the values. -/
theorem mul_eq_of_roundsTo (h : z.RoundsTo (a * b)) : x.mul y = z := by
  unfold mul
  rw [hx.isNaN, hy.isNaN, hx.isInfinite, hy.isInfinite, hx.positive, hy.positive]
  show ofScaled false _ _ 1 = z
  rw [← hpos]
  refine ofScaled_of_roundsTo hz hz0 Nat.one_pos ?_
  rw [← hx.value_eq, ← hy.value_eq, value, value] at h
  rw [Nat.cast_one, div_one, zpow_add₀ two_ne_zero]
  push_cast
  rwa [mul_mul_mul_comm]

/-- A quotient is the number nearest to the quotient of the values. -/
theorem div_eq_of_roundsTo (h : z.RoundsTo (a / b)) : x.div y = z := by
  unfold div
  rw [hx.isNaN, hy.isNaN, hx.isInfinite, hy.isInfinite, hy.isZero, hx.positive, hy.positive]
  show ofScaled false _ _ _ = z
  rw [← hpos]
  refine ofScaled_of_roundsTo hz hz0 (significand_pos hy.ne_zero) ?_
  rw [← hx.value_eq, ← hy.value_eq, value, value] at h
  rwa [zpow_sub₀ two_ne_zero, ← mul_div_assoc, div_div, mul_comm ((2 : ℚ) ^ y.exponent)]

end Exact

/-- The interval of a number does not depend on its sign. -/
theorem RoundsTo.of_magnitude_eq {x y : Ieee f} (hm : y.magnitude = x.magnitude) {v : ℚ}
    (h : x.RoundsTo v) : y.RoundsTo v := by
  have hsig : y.significand = x.significand := by unfold significand; rw [hm]
  have hexp : y.exponent = x.exponent := by unfold exponent; rw [hm]
  have hnarrow : y.narrowBelow = x.narrowBelow := by unfold narrowBelow; rw [hm]
  obtain ⟨hlow, hhigh, hodd⟩ := h
  refine ⟨?_, ?_, ?_⟩
  · rwa [hsig, hexp, hnarrow]
  · rwa [hsig, hexp]
  · rwa [hsig, hexp, hnarrow]

end Ieee

/-! ### Reading a literal -/

open Ieee

/-- With exact operands the power of ten costs one rounding. -/
theorem scaleByTen_of_roundsTo {n : Nat} {e : Int} {z : Float64Bits} (h0 : 0 < n) (h : n < 2 ^ 53)
    (he : e.natAbs ≤ 22) (hz : z.magnitude < Format.double.infinite) (hz0 : z.magnitude ≠ 0)
    (hpos : z.negative = false) (hr : z.RoundsTo (n * 10 ^ e)) :
    scaleByTen (Ieee.ofNat n) e = some z := by
  have hn : (Ieee.ofNat n : Float64Bits).Is n := by simpa using is_ofNat h0 h (Nat.zero_le 900)
  have hten : (Ieee.ofNat (Nat.pow 10 e.natAbs) : Float64Bits).Is (10 ^ e.natAbs) :=
    is_ofNat_ten_pow he
  unfold scaleByTen
  rcases le_or_gt 0 e with hle | hlt
  · have habs : e.toNat = e.natAbs := by omega
    have hmul : (Ieee.ofNat n).mul (Ieee.ofNat (Nat.pow 10 e.natAbs)) = z := by
      refine mul_eq_of_roundsTo hn hten hz hz0 hpos ?_
      rwa [← zpow_natCast, Int.natAbs_of_nonneg hle]
    have hfin : z.isInfinite = false := beq_false_of_ne hz.ne
    rw [if_pos hle, hn.isZero, if_neg Bool.false_ne_true, if_pos (by omega)]
    dsimp only
    rw [habs, hmul, hfin, if_neg Bool.false_ne_true]
  · have habs : (-e).toNat = e.natAbs := by omega
    have hdiv : (Ieee.ofNat n).div (Ieee.ofNat (Nat.pow 10 e.natAbs)) = z := by
      refine div_eq_of_roundsTo hn hten hz hz0 hpos ?_
      have hneg : (e.natAbs : Int) = -e := by omega
      rwa [← zpow_natCast, hneg, zpow_neg, div_inv_eq_mul]
    rw [if_neg (by omega), if_pos (by omega), habs, hdiv]

/-- **A literal with exact operands is read as its nearest number.** -/
theorem Numeral.scaled?_of_exact {n : Numeral} {x : Float64Bits}
    (hx : x.magnitude < Format.double.infinite) (hz : x.magnitude ≠ 0)
    (hneg : n.negative = x.negative) (hdigits : digitsValue (n.whole ++ n.fraction) < 2 ^ 53)
    (hscale : (n.exponent - n.fraction.length).natAbs ≤ 22) (h : x.RoundsTo n.value) :
    n.scaled? = some x := by
  have hwidth : digitsValue (n.whole ++ n.fraction) < Nat.pow 2 64 := hdigits.trans (by decide)
  rw [digitsValue_append] at hwidth
  have hwhole : digitsValue n.whole < Nat.pow 2 64 :=
    Nat.lt_of_le_of_lt (Json.le_foldl_digits n.fraction _) hwidth
  have hpos : 0 < digitsValue (n.whole ++ n.fraction) := by
    refine Nat.pos_of_ne_zero fun h0 => ?_
    have hv := h.pos hz
    rw [Numeral.value, h0, Nat.cast_zero, zero_mul] at hv
    exact lt_irrefl _ hv
  -- The magnitude is read first, the sign set after it.
  have hmag : (ofMagnitude false x.magnitude : Float64Bits).magnitude = x.magnitude :=
    magnitude_ofMagnitude false x.magnitude_lt
  have hread : scaleByTen (Ieee.ofNat (digitsValue (n.whole ++ n.fraction)))
      (n.exponent - n.fraction.length) = some (ofMagnitude false x.magnitude) :=
    scaleByTen_of_roundsTo hpos hdigits hscale (by rwa [hmag]) (by rwa [hmag])
      (negative_ofMagnitude false x.magnitude_lt) (h.of_magnitude_eq hmag)
  have habsorb : absorbDigits 0 n.whole = (digitsValue n.whole, []) :=
    Json.absorbDigits_of_lt hwhole
  unfold scaled?
  rw [habsorb]
  dsimp only
  rw [Json.absorbDigits_of_lt hwidth, ← digitsValue_append]
  simp only [List.length_nil, Nat.cast_zero, add_zero]
  rw [hread, Option.map_some, hneg]
  cases hs : x.negative with
  | false =>
    rw [if_neg Bool.false_ne_true, ← hs, x.ofMagnitude_magnitude]
  | true =>
    rw [if_pos rfl, Ieee.neg, hmag, negative_ofMagnitude false x.magnitude_lt, Bool.not_false, ← hs,
      x.ofMagnitude_magnitude]

namespace Json

variable {f : Format} {x y : Ieee f}

theorem ofReal_of_finite (hx : x.magnitude < f.infinite) :
    ofReal x = .real (x.numeral (realLayout f)) := by
  have hnan : x.isNaN = false := decide_eq_false (Nat.lt_asymm hx)
  have hinf : x.isInfinite = false := beq_false_of_ne hx.ne
  rw [ofReal, hnan, hinf]
  rfl

theorem ofReal_of_not_finite (hx : ¬x.magnitude < f.infinite) : ofReal x = .null := by
  rw [ofReal, if_pos]
  rcases Nat.lt_or_eq_of_le (Nat.le_of_not_lt hx) with hlt | heq
  · rw [isNaN, decide_eq_true hlt, Bool.true_or]
  · rw [isInfinite, beq_iff_eq.mpr heq.symm, Bool.or_true]

theorem realLayout_pointZero (f : Format) : (realLayout f).pointZero = true := by
  unfold realLayout
  split <;> rfl

theorem realLayout_positional_zero (f : Format) : (realLayout f).positional 0 = true := by
  unfold realLayout
  split <;> rfl

theorem legible_ofReal (hf : f.fractionBits ≤ 2 ^ f.exponentBits)
    (hrange : 2 ^ f.exponentBits < 2 ^ 31) (x : Ieee f) : (ofReal x).Legible := by
  by_cases hx : x.magnitude < f.infinite
  · rw [ofReal_of_finite hx]
    exact .real (legible_numeral hf hrange hx (realLayout_pointZero f) (realLayout_positional_zero f))
  · rw [ofReal_of_not_finite hx]
    exact .null

/-- Two numbers are never written alike, unless both are written as null. -/
theorem ofReal_inj (hf : f.fractionBits ≤ 2 ^ f.exponentBits) (hx : ofReal x ≠ .null)
    (h : ofReal x = ofReal y) : x = y := by
  have hfin : ∀ z : Ieee f, ofReal z ≠ .null → z.magnitude < f.infinite :=
    fun z hz => not_not.mp fun hn => hz (ofReal_of_not_finite hn)
  have hx' := hfin x hx
  have hy' := hfin y (h ▸ hx)
  rw [ofReal_of_finite hx', ofReal_of_finite hy', Json.real.injEq] at h
  rw [← nearest_numeral hf hx' (realLayout f), h, nearest_numeral hf hy']

/-- **A number survives exactly if its literal is read as the nearest number.** -/
theorem asDouble?_ofReal_iff (x : Float64Bits) : asDouble? (ofReal x) = some x ↔
    x.magnitude < Format.double.infinite ∧ (x.numeral (realLayout Format.double)).scaled? =
      some ((x.numeral (realLayout Format.double)).nearest Format.double) := by
  by_cases hx : x.magnitude < Format.double.infinite
  · rw [ofReal_of_finite hx, nearest_numeral (by decide) hx]
    exact (and_iff_right hx).symm
  · rw [ofReal_of_not_finite hx]
    exact iff_of_false (fun h => nomatch h) fun h => hx h.1

/-- **Short literals survive**: those with digits below `2 ^ 53` and a power of ten
up to the twenty-second. -/
theorem asDouble?_ofReal_of_exact {x : Float64Bits} (hx : x.magnitude < Format.double.infinite)
    {n : Numeral} (hn : x.numeral (realLayout Format.double) = n)
    (hdigits : digitsValue (n.whole ++ n.fraction) < 2 ^ 53)
    (hscale : (n.exponent - n.fraction.length).natAbs ≤ 22) : asDouble? (ofReal x) = some x := by
  rw [ofReal_of_finite hx, hn]
  show n.scaled? = some x
  by_cases hz : x.magnitude = 0
  · have hx0 : x = Ieee.zero x.negative := by rw [Ieee.zero, ← hz, x.ofMagnitude_magnitude]
    rw [← hn, hx0]
    cases x.negative <;> decide +kernel
  · refine Numeral.scaled?_of_exact hx hz (hn ▸ negative_numeral _ x) hdigits hscale ?_
    rw [← hn, value_numeral]
    exact (shortest_spec _ hz).2

end Json

end MapReduce
