/-
# Sign and magnitude of real numbers

A real number is its sign and its magnitude bits (`Ieee.eq_of_magnitude`), and its
rank among all numbers is the magnitude with the sign, unless it is a NaN. The two
infinities are the ends of that order, and no other number has their ranks
(`Ieee.eq_infinity_of_rank`).

Key theorems: `Ieee.eq_of_magnitude`, `Ieee.rank_lt_iff_not_isNaN`,
`Ieee.eq_infinity_of_rank`.
-/
import Mathlib
import MapReduce.Number.Ieee

namespace MapReduce
namespace Ieee

variable {f : Format}

theorem magnitude_lt (x : Ieee f) : x.magnitude < 2 ^ f.magnitudeBits :=
  Nat.mod_lt _ (Nat.two_pow_pos _)

/-- The bits are the magnitude and the sign. -/
theorem bits_eq (x : Ieee f) :
    x.bits.toNat = x.magnitude + if x.negative then 2 ^ f.magnitudeBits else 0 := by
  have hlt : x.bits.toNat < 2 ^ f.magnitudeBits * 2 := x.bits.isLt
  have hmod : x.magnitude = x.bits.toNat % 2 ^ f.magnitudeBits := rfl
  have hneg : (x.negative = true) = (2 ^ f.magnitudeBits ≤ x.bits.toNat) := by
    rw [negative, decide_eq_true_eq]
    rfl
  rw [hmod]
  by_cases h : 2 ^ f.magnitudeBits ≤ x.bits.toNat
  · rw [if_pos (hneg ▸ h), Nat.mod_eq_sub_mod h, Nat.mod_eq_of_lt (by omega)]
    omega
  · rw [if_neg (hneg ▸ h), Nat.mod_eq_of_lt (by omega)]
    rfl

theorem eq_of_magnitude {x y : Ieee f} (hm : x.magnitude = y.magnitude)
    (hn : x.negative = y.negative) : x = y := by
  have hb : x.bits.toNat = y.bits.toNat := by rw [bits_eq, bits_eq, hm, hn]
  cases x
  cases y
  exact congrArg Ieee.mk (BitVec.eq_of_toNat_eq hb)

/-- All NaNs have one rank. -/
theorem rank_of_isNaN {x : Ieee f} (h : x.isNaN = true) :
    x.rank = ((Nat.pow 2 f.magnitudeBits : Nat) : Int) := if_pos h

/-- The rank of a NaN is above the magnitude of every number. -/
theorem rank_lt_iff_not_isNaN (x : Ieee f) : x.rank < 2 ^ f.magnitudeBits ↔ x.isNaN = false := by
  have hm := x.magnitude_lt
  have hp : ((2 ^ f.magnitudeBits : Nat) : Int) = 2 ^ f.magnitudeBits := by push_cast; rfl
  unfold rank
  cases x.isNaN with
  | true =>
    simp only [if_true, Bool.true_eq_false, iff_false, not_lt]
    exact le_of_eq hp.symm
  | false =>
    simp only [Bool.false_eq_true, if_false, iff_true]
    split <;> omega

theorem toNat_bits_ofMagnitude (neg : Bool) {n : Nat} (h : n < 2 ^ f.magnitudeBits) :
    (ofMagnitude neg n : Ieee f).bits.toNat = n + if neg then 2 ^ f.magnitudeBits else 0 := by
  refine Nat.mod_eq_of_lt ?_
  show n + (if neg then 2 ^ f.magnitudeBits else 0) < 2 ^ f.magnitudeBits * 2
  split <;> omega

theorem magnitude_ofMagnitude (neg : Bool) {n : Nat} (h : n < 2 ^ f.magnitudeBits) :
    (ofMagnitude neg n : Ieee f).magnitude = n := by
  show (ofMagnitude neg n : Ieee f).bits.toNat % 2 ^ f.magnitudeBits = n
  rw [toNat_bits_ofMagnitude neg h]
  cases neg with
  | false => exact Nat.mod_eq_of_lt h
  | true => rw [if_pos rfl, Nat.add_mod_right, Nat.mod_eq_of_lt h]

theorem negative_ofMagnitude (neg : Bool) {n : Nat} (h : n < 2 ^ f.magnitudeBits) :
    (ofMagnitude neg n : Ieee f).negative = neg := by
  show decide (2 ^ f.magnitudeBits ≤ (ofMagnitude neg n : Ieee f).bits.toNat) = neg
  rw [toNat_bits_ofMagnitude neg h]
  cases neg with
  | false => exact decide_eq_false (by rw [if_neg Bool.false_ne_true]; omega)
  | true => exact decide_eq_true (by rw [if_pos rfl]; omega)

theorem ofMagnitude_magnitude (x : Ieee f) : ofMagnitude x.negative x.magnitude = x :=
  eq_of_magnitude (magnitude_ofMagnitude _ x.magnitude_lt) (negative_ofMagnitude _ x.magnitude_lt)

/-! ### Infinities -/

theorem infinite_lt (f : Format) : f.infinite < 2 ^ f.magnitudeBits := by
  have hpow : 2 ^ f.magnitudeBits = 2 ^ f.exponentBits * 2 ^ f.fractionBits := Nat.pow_add 2 _ _
  have hlt : 2 ^ f.exponentBits - 1 < 2 ^ f.exponentBits := Nat.sub_lt (Nat.two_pow_pos _) Nat.one_pos
  rw [hpow]
  exact Nat.mul_lt_mul_of_pos_right hlt (Nat.two_pow_pos _)

theorem magnitude_infinity (neg : Bool) : (infinity neg : Ieee f).magnitude = f.infinite :=
  magnitude_ofMagnitude neg (infinite_lt f)

theorem negative_infinity (neg : Bool) : (infinity neg : Ieee f).negative = neg :=
  negative_ofMagnitude neg (infinite_lt f)

theorem isNaN_infinity (neg : Bool) : (infinity neg : Ieee f).isNaN = false := by
  rw [isNaN, magnitude_infinity]
  exact decide_eq_false (Nat.lt_irrefl _)

theorem rank_infinity (neg : Bool) :
    (infinity neg : Ieee f).rank = if neg then -(f.infinite : Int) else f.infinite := by
  rw [rank, isNaN_infinity, magnitude_infinity, negative_infinity]
  rfl

/-- **An infinity is alone at its end of the order.** -/
theorem eq_infinity_of_rank (hf : 0 < f.infinite) {x : Ieee f} (hx : x.isNaN = false) {neg : Bool}
    (h : if neg then x.rank ≤ (infinity neg : Ieee f).rank else (infinity neg : Ieee f).rank ≤ x.rank) :
    x = infinity neg := by
  have hmag : x.magnitude ≤ f.infinite := Nat.le_of_not_lt (of_decide_eq_false hx)
  have hrank : x.rank = if x.negative then -(x.magnitude : Int) else x.magnitude := by
    rw [rank, hx, if_neg Bool.false_ne_true]
  rw [rank_infinity, hrank] at h
  have hboth : x.magnitude = f.infinite ∧ x.negative = neg := by
    cases neg with
    | true =>
      simp only [if_true] at h
      cases hn : x.negative with
      | true =>
        rw [hn, if_pos rfl] at h
        exact ⟨by omega, rfl⟩
      | false =>
        rw [hn, if_neg Bool.false_ne_true] at h
        omega
    | false =>
      simp only [Bool.false_eq_true, if_false] at h
      cases hn : x.negative with
      | true =>
        rw [hn, if_pos rfl] at h
        omega
      | false =>
        rw [hn, if_neg Bool.false_ne_true] at h
        exact ⟨by omega, rfl⟩
  refine eq_of_magnitude ?_ ?_
  · rw [hboth.1, magnitude_infinity]
  · rw [hboth.2, negative_infinity]

end Ieee
end MapReduce
