/-
# Rounding to the nearest real number

A finite real number is the value `significand * 2 ^ exponent`, and the values
that are nearer to it than to any other number are an interval around it: half a
unit of its last place either way, a quarter unit below it where the numbers
below lie twice as close, the ends included if the significand is even
(`Ieee.RoundsTo`). `Ieee.ofRatio` takes every quotient in the interval to the
number (`Ieee.ofRatio_of_roundsTo`).

The proof follows `ofRatio`: `floorLog2` is the binary logarithm
(`floorLog2_eq_log`), so the quotient is rounded in units of the number's own last
place, or, below a power of two, in half units, where the rounded significand is
twice the number's.

Key definitions: `Ieee.value`, `Ieee.RoundsTo`.
Key theorems: `roundHalfEven_eq`, `floorLog2_eq_log`, `Ieee.ofRatio_of_roundsTo`.
-/
import MapReduce.Number.Shortest
import MapReduce.Proofs.Ieee

namespace MapReduce

/-! ### Quotients -/

/-- **A quotient is rounded to the number within half of it**, and to an even
one if it is exactly half away. -/
theorem roundHalfEven_eq {num den m : Nat} (hden : 0 < den)
    (hlow : 2 * m * den ≤ 2 * num + den) (hhigh : 2 * num ≤ 2 * m * den + den)
    (htie : m % 2 = 1 → 2 * m * den < 2 * num + den ∧ 2 * num < 2 * m * den + den) :
    roundHalfEven num den = m := by
  have hnum : den * (num / den) + num % den = num := Nat.div_add_mod num den
  have hr : num % den < den := Nat.mod_lt _ hden
  unfold roundHalfEven
  generalize num / den = q at hnum ⊢
  generalize num % den = r at hnum hr ⊢
  subst hnum
  have hqm : q ≤ m := by
    by_contra h
    have : (m + 1) * den ≤ q * den := Nat.mul_le_mul_right _ (by omega)
    nlinarith
  have hmq : m ≤ q + 1 := by
    by_contra h
    have : (q + 2) * den ≤ m * den := Nat.mul_le_mul_right _ (by omega)
    nlinarith
  rcases Nat.lt_or_ge q m with hlt | hge
  · obtain rfl : m = q + 1 := by omega
    have hle : den ≤ 2 * r := by nlinarith
    have hodd : (q + 1) % 2 = 1 → den < 2 * r := fun h => by nlinarith [(htie h).1]
    dsimp only
    split_ifs <;> omega
  · obtain rfl : m = q := by omega
    have hle : 2 * r ≤ den := by nlinarith
    have hodd : m % 2 = 1 → 2 * r < den := fun h => by nlinarith [(htie h).2]
    dsimp only
    split_ifs <;> omega

/-- A power with a whole exponent, as the quotient the definitions compute
with. -/
theorem cast_zpow_eq {b : Nat} (hb : 0 < b) (e : Int) :
    (b : ℚ) ^ e = (Nat.pow b e.toNat : Nat) / (Nat.pow b (-e).toNat : Nat) := by
  have hb' : (b : ℚ) ≠ 0 := by exact_mod_cast hb.ne'
  simp only [Nat.pow_eq, Nat.cast_pow]
  rw [← zpow_natCast, ← zpow_natCast, ← zpow_sub₀ hb']
  congr 1
  omega

theorem two_zpow_eq (e : Int) :
    (2 : ℚ) ^ e = (Nat.pow 2 e.toNat : Nat) / (Nat.pow 2 (-e).toNat : Nat) :=
  cast_zpow_eq two_pos e

theorem cast_log2_le {n : Nat} (hn : n ≠ 0) : (2 : ℚ) ^ (Nat.log2 n : Int) ≤ n := by
  rw [zpow_natCast]
  exact_mod_cast Nat.log2_self_le hn

theorem cast_lt_log2 (n : Nat) : (n : ℚ) < 2 ^ ((Nat.log2 n : Int) + 1) := by
  have h : n < 2 ^ (Nat.log2 n + 1) := Nat.lt_log2_self
  have hcast : (n : ℚ) < 2 ^ (Nat.log2 n + 1) := by exact_mod_cast h
  exact_mod_cast hcast

/-- What `floorLog2` compares: whether the quotient reaches `2 ^ e`. -/
theorem two_zpow_le_div_iff {num den : Nat} (hden : 0 < den) (e : Int) :
    den * Nat.pow 2 e.toNat ≤ num * Nat.pow 2 (-e).toNat ↔ (2 : ℚ) ^ e ≤ (num : ℚ) / den := by
  have hd : (0 : ℚ) < den := by exact_mod_cast hden
  have hp : (0 : ℚ) < (Nat.pow 2 (-e).toNat : Nat) := by exact_mod_cast Nat.two_pow_pos _
  rw [two_zpow_eq, div_le_div_iff₀ hp hd, mul_comm ((Nat.pow 2 e.toNat : Nat) : ℚ)]
  exact_mod_cast Iff.rfl

/-- **`floorLog2` is the binary logarithm of the quotient.** -/
theorem floorLog2_eq_log {num den : Nat} (hnum : 0 < num) (hden : 0 < den) :
    floorLog2 num den = Int.log 2 ((num : ℚ) / den) := by
  have hn : (0 : ℚ) < num := by exact_mod_cast hnum
  have hd : (0 : ℚ) < den := by exact_mod_cast hden
  have hv : (0 : ℚ) < num / den := div_pos hn hd
  have heq : (num : ℚ) / den * den = num := div_mul_cancel₀ _ hd.ne'
  have hlow : (2 : ℚ) ^ Int.log 2 ((num : ℚ) / den) ≤ num / den :=
    Int.zpow_log_le_self (by norm_num) hv
  have hhigh : (num : ℚ) / den < 2 ^ (Int.log 2 ((num : ℚ) / den) + 1) :=
    Int.lt_zpow_succ_log_self (by norm_num) _
  generalize Int.log 2 ((num : ℚ) / den) = e at hlow hhigh ⊢
  -- The logarithms of the two sides place the quotient within a factor of two.
  have hle : e ≤ (Nat.log2 num : Int) - Nat.log2 den := by
    have h : (2 : ℚ) ^ (e + Nat.log2 den) < 2 ^ ((Nat.log2 num : Int) + 1) := by
      calc (2 : ℚ) ^ (e + Nat.log2 den) = 2 ^ e * 2 ^ (Nat.log2 den : Int) :=
            zpow_add₀ two_ne_zero _ _
        _ ≤ num / den * den := by gcongr; exact cast_log2_le hden.ne'
        _ = num := heq
        _ < 2 ^ ((Nat.log2 num : Int) + 1) := cast_lt_log2 num
    have := (zpow_lt_zpow_iff_right₀ one_lt_two).mp h
    omega
  have hge : (Nat.log2 num : Int) - Nat.log2 den ≤ e + 1 := by
    have h : (2 : ℚ) ^ (Nat.log2 num : Int) < 2 ^ (e + 1 + ((Nat.log2 den : Int) + 1)) := by
      calc (2 : ℚ) ^ (Nat.log2 num : Int) ≤ num := cast_log2_le hnum.ne'
        _ = num / den * den := heq.symm
        _ < 2 ^ (e + 1) * 2 ^ ((Nat.log2 den : Int) + 1) := by gcongr; exact cast_lt_log2 den
        _ = 2 ^ (e + 1 + ((Nat.log2 den : Int) + 1)) := (zpow_add₀ two_ne_zero _ _).symm
    have := (zpow_lt_zpow_iff_right₀ one_lt_two).mp h
    omega
  unfold floorLog2
  dsimp only
  by_cases h : (Nat.log2 num : Int) - Nat.log2 den = e
  · rw [h, if_pos ((two_zpow_le_div_iff hden e).mpr hlow)]
  · have hsucc : (Nat.log2 num : Int) - Nat.log2 den = e + 1 := by omega
    rw [hsucc, if_neg]
    · omega
    · rw [two_zpow_le_div_iff hden]
      exact not_le.mpr hhigh

/-- A quotient in units of `2 ^ e`, by the numerator and denominator that
`ofRatio` rounds. -/
theorem div_eq_mul_zpow (num den : Nat) (e : Int) : (num : ℚ) / den =
    (num * Nat.pow 2 (-e).toNat : Nat) / (den * Nat.pow 2 e.toNat : Nat) * 2 ^ e := by
  have hp : ((Nat.pow 2 e.toNat : Nat) : ℚ) ≠ 0 := by exact_mod_cast (Nat.two_pow_pos _).ne'
  have hq : ((Nat.pow 2 (-e).toNat : Nat) : ℚ) ≠ 0 := by exact_mod_cast (Nat.two_pow_pos _).ne'
  rw [two_zpow_eq, Nat.cast_mul, Nat.cast_mul, div_mul_div_comm, mul_assoc, mul_assoc,
    mul_comm ((Nat.pow 2 (-e).toNat : Nat) : ℚ)]
  exact (mul_div_mul_right _ _ (mul_ne_zero hp hq)).symm

/-- A quotient within half a unit of `m` units is rounded to `m` of them. -/
theorem roundHalfEven_units {num den m : Nat} {e : Int} (hden : 0 < den)
    (hlow : ((m : ℚ) - 1 / 2) * 2 ^ e ≤ (num : ℚ) / den)
    (hhigh : (num : ℚ) / den ≤ ((m : ℚ) + 1 / 2) * 2 ^ e)
    (htie : m % 2 = 1 → ((m : ℚ) - 1 / 2) * 2 ^ e < (num : ℚ) / den ∧
      (num : ℚ) / den < ((m : ℚ) + 1 / 2) * 2 ^ e) :
    roundHalfEven (num * Nat.pow 2 (-e).toNat) (den * Nat.pow 2 e.toNat) = m := by
  have hD : 0 < den * Nat.pow 2 e.toNat := Nat.mul_pos hden (Nat.two_pow_pos _)
  have hDq : (0 : ℚ) < (den * Nat.pow 2 e.toNat : Nat) := by exact_mod_cast hD
  have hu : (0 : ℚ) < 2 ^ e := zpow_pos two_pos e
  rw [div_eq_mul_zpow num den e] at hlow hhigh htie
  generalize num * Nat.pow 2 (-e).toNat = N at hlow hhigh htie ⊢
  generalize den * Nat.pow 2 e.toNat = D at hD hDq hlow hhigh htie ⊢
  rw [mul_le_mul_iff_left₀ hu, le_div_iff₀ hDq] at hlow
  rw [mul_le_mul_iff_left₀ hu, div_le_iff₀ hDq] at hhigh
  rw [mul_lt_mul_iff_left₀ hu, lt_div_iff₀ hDq, mul_lt_mul_iff_left₀ hu, div_lt_iff₀ hDq] at htie
  refine roundHalfEven_eq hD ?_ ?_ ?_
  · have : ((2 * m * D : Nat) : ℚ) ≤ (2 * N + D : Nat) := by push_cast; linarith
    exact_mod_cast this
  · have : ((2 * N : Nat) : ℚ) ≤ (2 * m * D + D : Nat) := by push_cast; linarith
    exact_mod_cast this
  · intro hodd
    obtain ⟨h1, h2⟩ := htie hodd
    have h3 : ((2 * m * D : Nat) : ℚ) < (2 * N + D : Nat) := by push_cast; linarith
    have h4 : ((2 * N : Nat) : ℚ) < (2 * m * D + D : Nat) := by push_cast; linarith
    exact ⟨by exact_mod_cast h3, by exact_mod_cast h4⟩

namespace Ieee

variable {f : Format}

/-! ### Significand and exponent -/

theorem minExponent_le (x : Ieee f) : f.minExponent ≤ x.exponent := by
  unfold exponent
  omega

/-- The magnitude bits count the numbers below: `2 ^ fractionBits` of them for each
exponent, and the significand for the last. -/
theorem magnitude_eq (x : Ieee f) :
    x.magnitude = (x.exponent - f.minExponent).toNat * 2 ^ f.fractionBits + x.significand := by
  have hdiv : 2 ^ f.fractionBits * (x.magnitude / 2 ^ f.fractionBits) +
      x.magnitude % 2 ^ f.fractionBits = x.magnitude := Nat.div_add_mod _ _
  unfold exponent significand
  rw [add_sub_cancel_left, Int.toNat_natCast]
  simp only [Nat.pow_eq]
  generalize x.magnitude / 2 ^ f.fractionBits = b at hdiv ⊢
  cases b with
  | zero => rw [if_pos rfl]; omega
  | succ b =>
    rw [if_neg (Nat.succ_ne_zero b), Nat.add_sub_cancel]
    rw [Nat.mul_succ, mul_comm] at hdiv
    omega

theorem significand_lt (x : Ieee f) : x.significand < 2 ^ (f.fractionBits + 1) := by
  have hmod : x.magnitude % 2 ^ f.fractionBits < 2 ^ f.fractionBits :=
    Nat.mod_lt _ (Nat.two_pow_pos _)
  unfold significand
  simp only [Nat.pow_eq, Nat.pow_succ]
  split <;> omega

/-- Above the least exponent the hidden bit is set. -/
theorem le_significand {x : Ieee f} (h : f.minExponent < x.exponent) :
    2 ^ f.fractionBits ≤ x.significand := by
  unfold exponent at h
  unfold significand
  simp only [Nat.pow_eq] at h ⊢
  rw [if_neg (by omega)]
  omega

theorem significand_pos {x : Ieee f} (h : x.magnitude ≠ 0) : 0 < x.significand := by
  rcases Int.lt_or_le f.minExponent x.exponent with hlt | hle
  · exact Nat.lt_of_lt_of_le (Nat.two_pow_pos _) (le_significand hlt)
  · have hmag := x.magnitude_eq
    rw [Int.toNat_eq_zero.mpr (by omega), Nat.zero_mul, Nat.zero_add] at hmag
    omega

/-- The numbers below lie closer exactly below a power of two that is not the
least normal number. -/
theorem narrowBelow_iff (x : Ieee f) :
    x.narrowBelow = true ↔ x.significand = 2 ^ f.fractionBits ∧ f.minExponent < x.exponent := by
  have hmod : x.magnitude % 2 ^ f.fractionBits < 2 ^ f.fractionBits :=
    Nat.mod_lt _ (Nat.two_pow_pos _)
  unfold narrowBelow significand exponent
  simp only [Nat.pow_eq, Bool.and_eq_true, beq_iff_eq, decide_eq_true_eq]
  split <;> omega

/-! ### The values that round to a number -/

/-- The value of a finite number, without its sign. -/
def value (x : Ieee f) : ℚ := x.significand * 2 ^ x.exponent

/-- The values between half way to the number below and half way to the number
above, the ends only for an even significand. -/
structure RoundsTo (x : Ieee f) (v : ℚ) : Prop where
  low : ((x.significand : ℚ) - if x.narrowBelow then 1 / 4 else 1 / 2) * 2 ^ x.exponent ≤ v
  high : v ≤ ((x.significand : ℚ) + 1 / 2) * 2 ^ x.exponent
  odd : x.significand % 2 = 1 →
    ((x.significand : ℚ) - if x.narrowBelow then 1 / 4 else 1 / 2) * 2 ^ x.exponent < v ∧
      v < ((x.significand : ℚ) + 1 / 2) * 2 ^ x.exponent

namespace RoundsTo

variable {x : Ieee f} {v : ℚ}

theorem half_below (h : x.RoundsTo v) : ((x.significand : ℚ) - 1 / 2) * 2 ^ x.exponent ≤ v := by
  have hgap : (if x.narrowBelow then 1 / 4 else 1 / 2 : ℚ) ≤ 1 / 2 := by split <;> norm_num
  exact le_trans (by gcongr) h.low

theorem half_below_lt (h : x.RoundsTo v) (hodd : x.significand % 2 = 1) :
    ((x.significand : ℚ) - 1 / 2) * 2 ^ x.exponent < v := by
  have hgap : (if x.narrowBelow then 1 / 4 else 1 / 2 : ℚ) ≤ 1 / 2 := by split <;> norm_num
  exact lt_of_le_of_lt (by gcongr) (h.odd hodd).1

theorem pos (hz : x.magnitude ≠ 0) (h : x.RoundsTo v) : 0 < v := by
  have hsig : (1 : ℚ) ≤ x.significand := by exact_mod_cast significand_pos hz
  have hu : (0 : ℚ) < 2 ^ x.exponent := zpow_pos two_pos _
  exact lt_of_lt_of_le (mul_pos (by linarith) hu) h.half_below

/-- No value that rounds to a number reaches the next power of two. -/
theorem log_lt (hz : x.magnitude ≠ 0) (h : x.RoundsTo v) :
    Int.log 2 v < x.exponent + (f.fractionBits + 1 : Nat) := by
  have htop : (x.significand : ℚ) + 1 ≤ 2 ^ (f.fractionBits + 1) := by
    exact_mod_cast x.significand_lt
  rw [← Int.lt_zpow_iff_log_lt (by norm_num) (h.pos hz), Nat.cast_ofNat,
    zpow_add₀ two_ne_zero, zpow_natCast, mul_comm]
  refine lt_of_le_of_lt h.high ?_
  gcongr
  linarith

/-- A value below the power of two at which a number's exponent starts rounds to it
only if it is that power. -/
theorem narrowBelow_of_lt (h : x.RoundsTo v) (hmin : f.minExponent < x.exponent)
    (hlt : v < 2 ^ f.fractionBits * 2 ^ x.exponent) : x.narrowBelow = true := by
  have hu : (0 : ℚ) < 2 ^ x.exponent := zpow_pos two_pos _
  rw [narrowBelow_iff]
  refine ⟨?_, hmin⟩
  by_contra hne
  have hsucc : (2 : ℚ) ^ f.fractionBits + 1 ≤ x.significand := by
    exact_mod_cast Nat.lt_of_le_of_ne (le_significand hmin) (Ne.symm hne)
  have := (mul_lt_mul_iff_left₀ hu).mp (h.half_below.trans_lt hlt)
  linarith

end RoundsTo

/-- What `ofRatio` gives when the quotient is rounded in units of `2 ^ e`. -/
theorem ofRatio_eq_of_units {x : Ieee f} (hx : x.magnitude < f.infinite) {num den m : Nat} {e : Int}
    (hnum : 0 < num) (hden : 0 < den)
    (hexp : max (Int.log 2 ((num : ℚ) / den) - f.fractionBits) f.minExponent = e)
    (hmag : (e - f.minExponent).toNat * 2 ^ f.fractionBits + m = x.magnitude)
    (hlow : ((m : ℚ) - 1 / 2) * 2 ^ e ≤ (num : ℚ) / den)
    (hhigh : (num : ℚ) / den ≤ ((m : ℚ) + 1 / 2) * 2 ^ e)
    (htie : m % 2 = 1 → ((m : ℚ) - 1 / 2) * 2 ^ e < (num : ℚ) / den ∧
      (num : ℚ) / den < ((m : ℚ) + 1 / 2) * 2 ^ e) :
    ofRatio x.negative num den = x := by
  unfold ofRatio
  dsimp only
  rw [if_neg hnum.ne', floorLog2_eq_log hnum hden, hexp, roundHalfEven_units hden hlow hhigh htie,
    Nat.pow_eq, hmag, min_eq_left hx.le]
  exact x.ofMagnitude_magnitude

/-- Below a power of two the quotient is rounded in half units, to twice the
significand. -/
theorem ofRatio_below_power {x : Ieee f} (hx : x.magnitude < f.infinite)
    (hnarrow : x.narrowBelow = true) {num den : Nat} (hnum : 0 < num) (hden : 0 < den)
    (hlow : ((x.significand : ℚ) - 1 / 4) * 2 ^ x.exponent ≤ (num : ℚ) / den)
    (hlt : (num : ℚ) / den < x.significand * 2 ^ x.exponent) : ofRatio x.negative num den = x := by
  obtain ⟨hsig, hmin⟩ := x.narrowBelow_iff.mp hnarrow
  have hsig' : (2 : ℚ) ^ f.fractionBits = x.significand := by rw [hsig]; push_cast; rfl
  have hone : (1 : ℚ) ≤ x.significand := by rw [← hsig']; exact one_le_pow₀ one_le_two
  have hv : (0 : ℚ) < (num : ℚ) / den := div_pos (by exact_mod_cast hnum) (by exact_mod_cast hden)
  have hu : (0 : ℚ) < 2 ^ (x.exponent - 1) := zpow_pos two_pos _
  have hhalf : (2 : ℚ) ^ x.exponent = 2 * 2 ^ (x.exponent - 1) := by
    rw [zpow_sub_one₀ two_ne_zero]
    ring
  rw [hhalf] at hlow hlt
  have hexp : max (Int.log 2 ((num : ℚ) / den) - f.fractionBits) f.minExponent =
      x.exponent - 1 := by
    have hge : x.exponent - 1 + f.fractionBits ≤ Int.log 2 ((num : ℚ) / den) := by
      rw [← Int.zpow_le_iff_le_log (by norm_num) hv, Nat.cast_ofNat, zpow_add₀ two_ne_zero,
        zpow_natCast, hsig']
      nlinarith
    have hlog : Int.log 2 ((num : ℚ) / den) < x.exponent + f.fractionBits := by
      rw [← Int.lt_zpow_iff_log_lt (by norm_num) hv, Nat.cast_ofNat, zpow_add₀ two_ne_zero,
        zpow_natCast, hsig', hhalf, mul_comm]
      exact hlt
    omega
  have hmag : (x.exponent - 1 - f.minExponent).toNat * 2 ^ f.fractionBits + 2 * x.significand =
      x.magnitude := by
    have hsucc : (x.exponent - f.minExponent).toNat =
        (x.exponent - 1 - f.minExponent).toNat + 1 := by omega
    rw [x.magnitude_eq, hsucc, hsig]
    ring
  refine ofRatio_eq_of_units hx hnum hden hexp hmag ?_ ?_ (by omega)
  · push_cast
    linarith
  · push_cast
    linarith

/-- **Rounding gives the number whose interval holds the quotient.** -/
theorem ofRatio_of_roundsTo {x : Ieee f} (hx : x.magnitude < f.infinite) (hz : x.magnitude ≠ 0)
    {num den : Nat} (hden : 0 < den) (h : x.RoundsTo ((num : ℚ) / den)) :
    ofRatio x.negative num den = x := by
  have hmin := x.minExponent_le
  have hlog := h.log_lt hz
  have hv : (0 : ℚ) < (num : ℚ) / den := h.pos hz
  have hnum : 0 < num := by
    refine Nat.pos_of_ne_zero ?_
    rintro rfl
    simp at hv
  by_cases hfull : x.exponent + f.fractionBits ≤ Int.log 2 ((num : ℚ) / den) ∨
      x.exponent = f.minExponent
  · -- The quotient is rounded in units of the number's last place.
    have hexp : max (Int.log 2 ((num : ℚ) / den) - f.fractionBits) f.minExponent = x.exponent := by
      omega
    exact ofRatio_eq_of_units hx hnum hden hexp x.magnitude_eq.symm h.half_below h.high
      fun hodd => ⟨h.half_below_lt hodd, (h.odd hodd).2⟩
  · push Not at hfull
    obtain ⟨hlt, hne⟩ := hfull
    have hmin' : f.minExponent < x.exponent := lt_of_le_of_ne hmin hne.symm
    rw [← Int.lt_zpow_iff_log_lt (by norm_num) hv, Nat.cast_ofNat, zpow_add₀ two_ne_zero,
      zpow_natCast, mul_comm] at hlt
    have hnarrow := h.narrowBelow_of_lt hmin' hlt
    have hlow := h.low
    rw [hnarrow, if_pos rfl] at hlow
    have hsig : (2 : ℚ) ^ f.fractionBits = x.significand := by
      rw [(x.narrowBelow_iff.mp hnarrow).1]
      push_cast
      rfl
    exact ofRatio_below_power hx hnarrow hnum hden hlow (hsig ▸ hlt)

end Ieee
end MapReduce
