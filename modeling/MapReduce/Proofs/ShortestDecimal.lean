/-
# The shortest decimal reads back

The decimal that `Ieee.shortest` finds for a finite number lies in the interval
of values that round to it (`Ieee.roundsTo_shortest`): the comparisons of
`Ieee.onGrid` are those of `Ieee.RoundsTo` over a common denominator, and where
no grid has a hit the decimal is the exact value. A layout only distributes the
digits around the point, which keeps the value (`Ieee.value_numeral`). So the
literal of a finite number has the number as its nearest one
(`Ieee.nearest_numeral`), two numbers never share a literal, and the literal can
stand in a document (`Ieee.legible_numeral`).

Key definitions: `Significant.value`, `Significant.Proper`, `Numeral.value`.
Key theorems: `Ieee.roundsTo_shortest`, `Ieee.value_numeral`,
`Ieee.nearest_numeral`, `Ieee.legible_numeral`.
-/
import MapReduce.Proofs.Literals
import MapReduce.Proofs.Rounding

namespace MapReduce

/-! ### The value of digits -/

theorem foldl_digits : ∀ (ds : List Nat) (acc : Nat),
    ds.foldl (fun n d => 10 * n + d) acc = acc * 10 ^ ds.length + digitsValue ds
  | [], acc => by simp [digitsValue]
  | d :: ds, acc => by
    show ds.foldl _ (10 * acc + d) = acc * 10 ^ (ds.length + 1) + ds.foldl _ (10 * 0 + d)
    rw [foldl_digits ds, foldl_digits ds (10 * 0 + d), pow_succ]
    ring

theorem digitsValue_cons (d : Nat) (ds : List Nat) :
    digitsValue (d :: ds) = d * 10 ^ ds.length + digitsValue ds := by
  rw [digitsValue, List.foldl_cons, foldl_digits, Nat.mul_zero, Nat.zero_add]

theorem digitsValue_append_eq (a b : List Nat) :
    digitsValue (a ++ b) = digitsValue a * 10 ^ b.length + digitsValue b := by
  rw [digitsValue_append, foldl_digits]

theorem digitsValue_replicate_zero (n : Nat) : digitsValue (List.replicate n 0) = 0 := by
  induction n with
  | zero => rfl
  | succ n ih => rw [List.replicate_succ, digitsValue_cons, ih, Nat.zero_mul]

theorem digitsValue_lt : ∀ {ds : List Nat}, (∀ d ∈ ds, d < 10) → digitsValue ds < 10 ^ ds.length
  | [], _ => by simp [digitsValue]
  | d :: ds, h => by
    have hd : d < 10 := h d List.mem_cons_self
    have ih := digitsValue_lt fun e he => h e (List.mem_cons_of_mem d he)
    calc digitsValue (d :: ds) = d * 10 ^ ds.length + digitsValue ds := digitsValue_cons d ds
      _ < d * 10 ^ ds.length + 10 ^ ds.length := by omega
      _ = (d + 1) * 10 ^ ds.length := by ring
      _ ≤ 10 * 10 ^ ds.length := Nat.mul_le_mul_right _ hd
      _ = 10 ^ (d :: ds).length := by rw [List.length_cons, pow_succ, mul_comm]

namespace Significant

/-- The exact value of a decimal. -/
def value (s : Significant) : ℚ := digitsValue s.digits * 10 ^ (s.exponent - s.digits.length + 1)

/-- A decimal whose first digit is not zero. -/
structure Proper (s : Significant) : Prop where
  leading : ∃ d ds, s.digits = (d + 1) :: ds
  digits_lt : ∀ d ∈ s.digits, d < 10

/-- The digits of a grid point are those kept and the zeros that are not. -/
theorem decimalDigits_eq_ofGrid (d : Nat) (g : Int) : ∃ k, decimalDigits d =
    (ofGrid d g).digits ++ List.replicate k 0 := by
  have hsplit := List.takeWhile_append_dropWhile (p := (· == 0)) (l := (decimalDigits d).reverse)
  have hzeros : (decimalDigits d).reverse.takeWhile (· == 0) =
      List.replicate ((decimalDigits d).reverse.takeWhile (· == 0)).length 0 :=
    List.eq_replicate_of_mem fun b hb => by simpa using List.mem_takeWhile_imp hb
  refine ⟨((decimalDigits d).reverse.takeWhile (· == 0)).length, ?_⟩
  rw [hzeros] at hsplit
  have := congrArg List.reverse hsplit
  rw [List.reverse_append, List.reverse_replicate, List.reverse_reverse] at this
  exact this.symm

theorem value_ofGrid (d : Nat) (g : Int) : (ofGrid d g).value = d * 10 ^ g := by
  obtain ⟨k, hk⟩ := decimalDigits_eq_ofGrid d g
  have hexp : (ofGrid d g).exponent = g + (decimalDigits d).length - 1 := rfl
  have hval : (digitsValue (ofGrid d g).digits : ℚ) * 10 ^ k = d := by
    have h := digitsValue_decimalDigits d
    rw [hk, digitsValue_append_eq, digitsValue_replicate_zero, List.length_replicate] at h
    exact_mod_cast h
  have hscale : (ofGrid d g).exponent - (ofGrid d g).digits.length + 1 = g + k := by
    rw [hexp, hk, List.length_append, List.length_replicate]
    push_cast
    ring
  calc (ofGrid d g).value = digitsValue (ofGrid d g).digits * 10 ^ (g + k) := by rw [value, hscale]
    _ = digitsValue (ofGrid d g).digits * 10 ^ k * 10 ^ g := by
        rw [zpow_add₀ (by norm_num), zpow_natCast]
        ring
    _ = d * 10 ^ g := by rw [hval]

theorem proper_ofGrid {d : Nat} (hd : d ≠ 0) (g : Int) : (ofGrid d g).Proper := by
  obtain ⟨k, hk⟩ := decimalDigits_eq_ofGrid d g
  have hval := digitsValue_decimalDigits d
  have hlt := @lt_ten_of_mem_decimalDigits d
  rw [hk] at hlt
  refine ⟨?_, fun e he => hlt e (List.mem_append_left _ he)⟩
  cases hds : (ofGrid d g).digits with
  | nil =>
    rw [hk, hds, List.nil_append, digitsValue_replicate_zero] at hval
    exact absurd hval.symm hd
  | cons a as =>
    rw [hds, List.cons_append] at hk
    rcases leadingDigits_decimalDigits d with hzero | ⟨b, bs, hb⟩
    · rw [hzero] at hval
      exact absurd hval.symm hd
    · rw [hb] at hk
      exact ⟨b, as, by rw [(List.cons.inj hk).1]⟩

/-- The exponent of a proper decimal is that of its first digit. -/
theorem Proper.zpow_le_value {s : Significant} (h : s.Proper) : (10 : ℚ) ^ s.exponent ≤ s.value := by
  obtain ⟨d, ds, hds⟩ := h.leading
  have hle : (1 : ℚ) * 10 ^ ds.length ≤ digitsValue s.digits := by
    rw [hds, digitsValue_cons]
    push_cast
    nlinarith [show (0 : ℚ) < 10 ^ ds.length by positivity]
  have hscale : s.exponent = ds.length + (s.exponent - s.digits.length + 1) := by
    rw [hds, List.length_cons]
    push_cast
    ring
  calc (10 : ℚ) ^ s.exponent = 1 * 10 ^ ds.length * 10 ^ (s.exponent - s.digits.length + 1) := by
        rw [one_mul, ← zpow_natCast, ← zpow_add₀ (by norm_num), ← hscale]
    _ ≤ s.value := by unfold value; gcongr

theorem Proper.value_lt {s : Significant} (h : s.Proper) : s.value < (10 : ℚ) ^ (s.exponent + 1) := by
  have hlt : (digitsValue s.digits : ℚ) < 10 ^ s.digits.length := by
    exact_mod_cast digitsValue_lt h.digits_lt
  calc s.value < 10 ^ s.digits.length * 10 ^ (s.exponent - s.digits.length + 1) := by
        unfold value
        gcongr
    _ = (10 : ℚ) ^ (s.exponent + 1) := by
        rw [← zpow_natCast, ← zpow_add₀ (by norm_num)]
        congr 1
        ring

end Significant

/-! ### Points of a decimal grid -/

section Grid

variable (n d : Nat) (q g : Int)

/-- The common denominator of `2 ^ q` and `10 ^ g`. -/
def gridDenominator : ℚ := (Nat.pow 2 (-q).toNat : Nat) * (Nat.pow 10 (-g).toNat : Nat)

theorem gridDenominator_pos : 0 < gridDenominator q g := by
  have h2 : (0 : ℚ) < (Nat.pow 2 (-q).toNat : Nat) := by exact_mod_cast Nat.two_pow_pos _
  have h10 : (0 : ℚ) < (Nat.pow 10 (-g).toNat : Nat) := by
    exact_mod_cast Nat.pow_pos (show 0 < 10 by norm_num)
  exact mul_pos h2 h10

theorem cast_mul_quarter :
    ((n * (Nat.pow 2 q.toNat * Nat.pow 10 (-g).toNat) : Nat) : ℚ) =
      n * 2 ^ q * gridDenominator q g := by
  have h2 : ((Nat.pow 2 (-q).toNat : Nat) : ℚ) ≠ 0 := by exact_mod_cast (Nat.two_pow_pos _).ne'
  rw [two_zpow_eq, gridDenominator, Nat.cast_mul, Nat.cast_mul]
  field_simp

theorem cast_mul_unit :
    ((d * (Nat.pow 2 (-q).toNat * Nat.pow 10 g.toNat) : Nat) : ℚ) =
      d * 10 ^ g * gridDenominator q g := by
  have h10 : ((Nat.pow 10 (-g).toNat : Nat) : ℚ) ≠ 0 := by
    exact_mod_cast (Nat.pow_pos (show 0 < 10 by norm_num)).ne'
  have hten : (10 : ℚ) ^ g = (Nat.pow 10 g.toNat : Nat) / (Nat.pow 10 (-g).toNat : Nat) :=
    cast_zpow_eq (by norm_num) g
  rw [hten, gridDenominator, Nat.cast_mul, Nat.cast_mul]
  field_simp

theorem quarter_le_unit_iff :
    n * (Nat.pow 2 q.toNat * Nat.pow 10 (-g).toNat) ≤
      d * (Nat.pow 2 (-q).toNat * Nat.pow 10 g.toNat) ↔ (n : ℚ) * 2 ^ q ≤ d * 10 ^ g := by
  rw [← mul_le_mul_iff_left₀ (gridDenominator_pos q g), ← cast_mul_quarter, ← cast_mul_unit,
    Nat.cast_le]

theorem unit_le_quarter_iff :
    d * (Nat.pow 2 (-q).toNat * Nat.pow 10 g.toNat) ≤
      n * (Nat.pow 2 q.toNat * Nat.pow 10 (-g).toNat) ↔ (d : ℚ) * 10 ^ g ≤ n * 2 ^ q := by
  rw [← mul_le_mul_iff_left₀ (gridDenominator_pos q g), ← cast_mul_quarter, ← cast_mul_unit,
    Nat.cast_le]

end Grid

namespace Ieee

variable {f : Format} {x : Ieee f} {tie : Tie} {g : Int} {d : Nat}

/-- The comparisons by which a grid point is taken to read back. -/
def readsBack (x : Ieee f) (g : Int) (d : Nat) : Bool :=
  let m := x.significand
  let q := x.exponent - 2
  let quarter := Nat.pow 2 q.toNat * Nat.pow 10 (-g).toNat
  let unit := Nat.pow 2 (-q).toNat * Nat.pow 10 g.toNat
  let low := if x.narrowBelow then 4 * m - 1 else 4 * m - 2
  let high := 4 * m + 2
  if m % 2 = 0 then decide (low * quarter ≤ d * unit) && decide (d * unit ≤ high * quarter)
  else decide (low * quarter < d * unit) && decide (d * unit < high * quarter)

theorem readsBack_of_onGrid (h : x.onGrid tie g = some d) : x.readsBack g d = true := by
  unfold onGrid at h
  dsimp only at h
  generalize 4 * x.significand * (Nat.pow 2 (x.exponent - 2).toNat * Nat.pow 10 (-g).toNat) /
    (Nat.pow 2 (-(x.exponent - 2)).toNat * Nat.pow 10 g.toNat) = d₀ at h
  split at h
  · rename_i hlow _
    cases h
    exact hlow
  · rename_i _ hhigh
    cases h
    exact hhigh
  · cases h
  · rename_i hlow hhigh
    split at h
    · cases h
      exact hlow
    · split at h
      · cases h
        exact hhigh
      · cases tie with
        | up =>
          cases h
          exact hhigh
        | even =>
          obtain rfl := Option.some.inj h
          rcases Nat.mod_two_eq_zero_or_one d₀ with h0 | h1
          · rw [h0]
            exact hlow
          · rw [h1]
            exact hhigh

theorem roundsTo_of_readsBack (hz : x.magnitude ≠ 0) (h : x.readsBack g d = true) :
    x.RoundsTo (d * 10 ^ g) := by
  have hsig := significand_pos hz
  have hquarter : (2 : ℚ) ^ (x.exponent - 2) = 2 ^ x.exponent / 4 := by
    rw [zpow_sub₀ two_ne_zero]
    norm_num
  have hlow : ((if x.narrowBelow then 4 * x.significand - 1 else 4 * x.significand - 2 : Nat) : ℚ) *
      2 ^ (x.exponent - 2) =
        ((x.significand : ℚ) - if x.narrowBelow then 1 / 4 else 1 / 2) * 2 ^ x.exponent := by
    rw [hquarter]
    split
    · rw [Nat.cast_sub (by omega)]
      push_cast
      ring
    · rw [Nat.cast_sub (by omega)]
      push_cast
      ring
  have hhigh : ((4 * x.significand + 2 : Nat) : ℚ) * 2 ^ (x.exponent - 2) =
      ((x.significand : ℚ) + 1 / 2) * 2 ^ x.exponent := by
    rw [hquarter]
    push_cast
    ring
  unfold readsBack at h
  dsimp only at h
  split at h
  · simp only [Bool.and_eq_true, decide_eq_true_eq, quarter_le_unit_iff, unit_le_quarter_iff, hlow,
      hhigh] at h
    exact ⟨h.1, h.2, fun hodd => by omega⟩
  · simp only [Bool.and_eq_true, decide_eq_true_eq, ← not_le, quarter_le_unit_iff,
      unit_le_quarter_iff, hlow, hhigh] at h
    exact ⟨(not_le.mp h.1).le, (not_le.mp h.2).le, fun _ => ⟨not_le.mp h.1, not_le.mp h.2⟩⟩

/-- The value of a number rounds to it. -/
theorem roundsTo_value (x : Ieee f) : x.RoundsTo x.value := by
  have hu : (0 : ℚ) < 2 ^ x.exponent := zpow_pos two_pos _
  have hlow : ((x.significand : ℚ) - if x.narrowBelow then 1 / 4 else 1 / 2) * 2 ^ x.exponent <
      x.value := by
    unfold value
    gcongr
    split <;> norm_num
  have hhigh : x.value < ((x.significand : ℚ) + 1 / 2) * 2 ^ x.exponent := by
    unfold value
    gcongr
    norm_num
  exact ⟨hlow.le, hhigh.le, fun _ => ⟨hlow, hhigh⟩⟩

/-- The exact decimal of a number. -/
theorem value_eq_decimal (x : Ieee f) :
    ((x.significand * Nat.pow 2 x.exponent.toNat * Nat.pow 5 (-x.exponent).toNat : Nat) : ℚ) *
      10 ^ min x.exponent 0 = x.value := by
  unfold value
  push_cast
  rcases le_or_gt 0 x.exponent with hle | hlt
  · rw [min_eq_right hle, Int.toNat_eq_zero.mpr (show -x.exponent ≤ 0 by omega)]
    have : (2 : ℚ) ^ x.exponent = 2 ^ x.exponent.toNat := by
      rw [← zpow_natCast, Int.toNat_of_nonneg hle]
    simp [this]
  · rw [min_eq_left hlt.le, Int.toNat_eq_zero.mpr hlt.le]
    have h5 : ((Nat.pow 5 (-x.exponent).toNat : Nat) : ℚ) = 5 ^ (-x.exponent) := by
      rw [Nat.pow_eq, Nat.cast_pow, ← zpow_natCast, Int.toNat_of_nonneg (by omega)]
      rfl
    have h10 : (10 : ℚ) ^ x.exponent = 2 ^ x.exponent * 5 ^ x.exponent := by
      rw [← mul_zpow]
      norm_num
    rw [h5, h10, zpow_neg]
    field_simp
    simp

/-- **The shortest decimal rounds back to the number.** -/
theorem shortest_spec (tie : Tie) (hz : x.magnitude ≠ 0) :
    (x.shortest tie).Proper ∧ x.RoundsTo (x.shortest tie).value := by
  obtain ⟨d, g, hs, hr⟩ : ∃ d g, x.shortest tie = Significant.ofGrid d g ∧
      x.RoundsTo ((d : ℚ) * 10 ^ g) := by
    unfold shortest
    rw [if_neg (by simpa [isZero] using hz)]
    dsimp only
    split
    · rename_i d g hfound
      refine ⟨d, g, rfl, ?_⟩
      obtain ⟨n, -, hn⟩ := List.exists_of_findSome?_eq_some hfound
      obtain ⟨d', hd', heq⟩ := Option.map_eq_some_iff.mp hn
      cases heq
      exact roundsTo_of_readsBack hz (readsBack_of_onGrid hd')
    · exact ⟨_, _, rfl, x.value_eq_decimal ▸ x.roundsTo_value⟩
  have hd : d ≠ 0 := by
    rintro rfl
    have := hr.pos hz
    simp at this
  rw [hs, Significant.value_ofGrid]
  exact ⟨Significant.proper_ofGrid hd g, hr⟩

theorem shortest_of_isZero (hz : x.magnitude = 0) : x.shortest tie = ⟨[0], 0⟩ := by
  unfold shortest
  rw [if_pos (by simpa [isZero] using hz)]

theorem shortest_digits_lt : ∀ d ∈ (x.shortest tie).digits, d < 10 := by
  by_cases hz : x.magnitude = 0
  · rw [shortest_of_isZero hz]
    decide
  · exact (shortest_spec tie hz).1.digits_lt

theorem shortest_digits_ne_nil : (x.shortest tie).digits ≠ [] := by
  by_cases hz : x.magnitude = 0
  · rw [shortest_of_isZero hz]
    exact List.cons_ne_nil _ _
  · obtain ⟨d, ds, hds⟩ := (shortest_spec tie hz).1.leading
    rw [hds]
    exact List.cons_ne_nil _ _

end Ieee

/-! ### Literals -/

/-- The exact value of a literal, without its sign. -/
def Numeral.value (n : Numeral) : ℚ :=
  digitsValue (n.whole ++ n.fraction) * 10 ^ (n.exponent - n.fraction.length)

namespace Significant

theorem value_scientific {s : Significant} (hs : s.digits ≠ []) (negative : Bool) :
    (s.scientific negative).value = s.value := by
  have hlen : 1 ≤ s.digits.length := List.length_pos_iff.mpr hs
  unfold Numeral.value scientific value
  dsimp only
  rw [List.take_append_drop, List.length_drop]
  congr 2
  omega

theorem value_positional (s : Significant) (negative : Bool) :
    (s.positional negative).value = s.value := by
  unfold Numeral.value positional
  split
  · rename_i hneg
    have hdigits : digitsValue ([0] ++ (List.replicate (-s.exponent - 1).toNat 0 ++ s.digits)) =
        digitsValue s.digits := by
      rw [← List.append_assoc, digitsValue_append_eq, List.singleton_append, ← List.replicate_succ,
        digitsValue_replicate_zero, Nat.zero_mul, Nat.zero_add]
    dsimp only
    rw [hdigits, List.length_append, List.length_replicate, value]
    congr 2
    omega
  · rename_i hpos
    dsimp only
    rcases Nat.le_total s.digits.length (s.exponent.toNat + 1) with hle | hge
    · rw [List.drop_eq_nil_of_le hle, List.take_of_length_le hle, List.append_nil,
        digitsValue_append_eq, digitsValue_replicate_zero, List.length_replicate, List.length_nil,
        Nat.add_zero, Nat.cast_mul, Nat.cast_pow, Nat.cast_ofNat, value, mul_assoc,
        ← zpow_natCast, ← zpow_add₀ (by norm_num)]
      congr 2
      omega
    · rw [Nat.sub_eq_zero_of_le hge, List.replicate_zero, List.append_nil, List.take_append_drop,
        List.length_drop, value]
      congr 2
      omega

/-- A literal has the digits of the decimal, and zeros. -/
theorem mem_positional {s : Significant} {negative : Bool} {d : Nat}
    (h : d ∈ (s.positional negative).whole ++ (s.positional negative).fraction) :
    d = 0 ∨ d ∈ s.digits := by
  unfold positional at h
  split at h
  · simp only [List.mem_append, List.mem_singleton, List.mem_replicate] at h
    tauto
  · simp only [List.mem_append, List.mem_replicate] at h
    rcases h with (h | h) | h
    · exact .inr (List.mem_of_mem_take h)
    · exact .inl h.2
    · exact .inr (List.mem_of_mem_drop h)

theorem leading_positional {s : Significant} (hs : LeadingDigits s.digits)
    (hzero : s.digits = [0] → s.exponent = 0) (negative : Bool) :
    LeadingDigits (s.positional negative).whole := by
  unfold positional
  split
  · exact .inl rfl
  · rcases hs with h | ⟨d, ds, h⟩
    · rw [hzero h, h]
      exact .inl rfl
    · rw [h]
      exact .inr ⟨d, _, rfl⟩

theorem leading_scientific {s : Significant} (hs : LeadingDigits s.digits) (negative : Bool) :
    LeadingDigits (s.scientific negative).whole := by
  unfold scientific
  rcases hs with h | ⟨d, ds, h⟩
  · rw [h]
    exact .inl rfl
  · rw [h]
    exact .inr ⟨d, _, rfl⟩

end Significant

namespace Ieee

variable {f : Format} {x : Ieee f}

theorem negative_numeral (layout : Layout) (x : Ieee f) :
    (x.numeral layout).negative = x.negative := by
  unfold numeral Significant.positional Significant.scientific
  dsimp only
  split_ifs <;> rfl

/-- **A layout keeps the value of the decimal.** -/
theorem value_numeral (layout : Layout) (x : Ieee f) :
    (x.numeral layout).value = (x.shortest layout.tie).value := by
  unfold numeral
  dsimp only
  split
  · rw [← Significant.value_positional _ x.negative]
    split
    · rename_i hpoint
      have hempty : ((x.shortest layout.tie).positional x.negative).fraction = [] := by
        simpa using (Bool.and_eq_true_iff.mp hpoint).2
      unfold Numeral.value
      rw [hempty, List.append_nil, digitsValue_append_eq, List.length_nil, List.length_singleton,
        Nat.cast_zero, sub_zero, Nat.cast_one, zpow_sub_one₀ (by norm_num)]
      simp [digitsValue]
      field_simp
    · rfl
  · exact Significant.value_scientific shortest_digits_ne_nil _

theorem numeral_digits_lt (layout : Layout) (x : Ieee f) :
    ∀ d ∈ (x.numeral layout).whole ++ (x.numeral layout).fraction, d < 10 := by
  have hlt : ∀ d ∈ (x.shortest layout.tie).digits, d < 10 := shortest_digits_lt
  have hpos : ∀ d ∈ ((x.shortest layout.tie).positional x.negative).whole ++
      ((x.shortest layout.tie).positional x.negative).fraction, d < 10 := fun d hd => by
    rcases Significant.mem_positional hd with rfl | h
    · decide
    · exact hlt d h
  unfold numeral
  dsimp only
  split
  · split
    · rename_i hpoint
      intro d hd
      rcases List.mem_append.mp hd with h | h
      · exact hpos d (List.mem_append_left _ h)
      · rw [List.mem_singleton.mp h]
        decide
    · exact hpos
  · unfold Significant.scientific
    dsimp only
    rw [List.take_append_drop]
    exact hlt

/-! ### The range of the literals -/

section Range

variable {v : ℚ} (hx : x.magnitude < f.infinite) (hz : x.magnitude ≠ 0) (h : x.RoundsTo v)

include hx hz h in
theorem RoundsTo.lt_ten_pow : v < 10 ^ (2 ^ f.exponentBits) := by
  have hlog := h.log_lt hz
  rw [← Int.lt_zpow_iff_log_lt (by norm_num) (h.pos hz), Nat.cast_ofNat] at hlog
  have hexp : x.exponent + (f.fractionBits + 1 : Nat) ≤ (2 ^ f.exponentBits : Nat) := by
    have hb : x.magnitude / 2 ^ f.fractionBits < 2 ^ f.exponentBits - 1 :=
      (Nat.div_lt_iff_lt_mul (Nat.two_pow_pos _)).mpr hx
    have hhalf : 1 ≤ 2 ^ (f.exponentBits - 1) := Nat.one_le_two_pow
    unfold exponent Format.minExponent
    simp only [Nat.pow_eq]
    generalize x.magnitude / 2 ^ f.fractionBits = biased at hb ⊢
    generalize 2 ^ f.exponentBits = range at hb ⊢
    generalize 2 ^ (f.exponentBits - 1) = bias at hhalf ⊢
    omega
  calc v < 2 ^ (x.exponent + (f.fractionBits + 1 : Nat)) := hlog
    _ ≤ 2 ^ ((2 ^ f.exponentBits : Nat) : Int) := zpow_le_zpow_right₀ one_le_two hexp
    _ = 2 ^ (2 ^ f.exponentBits) := zpow_natCast _ _
    _ ≤ 10 ^ (2 ^ f.exponentBits) := by gcongr; norm_num

include hz h in
theorem RoundsTo.ten_zpow_le (hf : f.fractionBits ≤ 2 ^ f.exponentBits) :
    (10 : ℚ) ^ (-(2 ^ f.exponentBits : Nat) : Int) ≤ v := by
  have hsig : (1 : ℚ) ≤ x.significand := by exact_mod_cast significand_pos hz
  have hexp : -((3 * 2 ^ f.exponentBits : Nat) : Int) ≤ x.exponent - 1 := by
    have hmin := x.minExponent_le
    have hhalf : 2 ^ (f.exponentBits - 1) ≤ 2 ^ f.exponentBits :=
      Nat.pow_le_pow_right two_pos (Nat.sub_le _ _)
    unfold Format.minExponent at hmin
    simp only [Nat.pow_eq] at hmin
    generalize 2 ^ f.exponentBits = range at hf hhalf ⊢
    generalize 2 ^ (f.exponentBits - 1) = bias at hhalf hmin
    omega
  calc (10 : ℚ) ^ (-(2 ^ f.exponentBits : Nat) : Int) ≤ 8 ^ (-(2 ^ f.exponentBits : Nat) : Int) := by
        rw [zpow_neg, zpow_neg, zpow_natCast, zpow_natCast]
        gcongr
        norm_num
    _ = 2 ^ (-((3 * 2 ^ f.exponentBits : Nat) : Int)) := by
        rw [zpow_neg, zpow_neg, zpow_natCast, zpow_natCast, pow_mul]
        norm_num
    _ ≤ 2 ^ (x.exponent - 1) := zpow_le_zpow_right₀ one_le_two hexp
    _ = 1 / 2 * 2 ^ x.exponent := by
        rw [zpow_sub_one₀ two_ne_zero]
        ring
    _ ≤ ((x.significand : ℚ) - 1 / 2) * 2 ^ x.exponent := by gcongr; linarith
    _ ≤ v := h.half_below

end Range

end Ieee

/-- A literal is read as the number whose interval its value lies in. -/
theorem Numeral.nearest_of_roundsTo {f : Format} (hf : f.fractionBits ≤ 2 ^ f.exponentBits)
    {x : Ieee f} (hx : x.magnitude < f.infinite) (hz : x.magnitude ≠ 0) {n : Numeral}
    (hneg : n.negative = x.negative) (hlt : ∀ d ∈ n.whole ++ n.fraction, d < 10)
    (h : x.RoundsTo n.value) : n.nearest f = x := by
  have hten : (1 : ℚ) < 10 := by norm_num
  have hv := h.pos hz
  have hvalue : digitsValue (n.whole ++ n.fraction) ≠ 0 := fun h0 => by
    rw [Numeral.value, h0, Nat.cast_zero, zero_mul] at hv
    exact lt_irrefl _ hv
  have hone : (1 : ℚ) ≤ digitsValue (n.whole ++ n.fraction) := by
    exact_mod_cast Nat.one_le_iff_ne_zero.mpr hvalue
  have hdigits : (digitsValue (n.whole ++ n.fraction) : ℚ) < 10 ^ (n.whole ++ n.fraction).length := by
    exact_mod_cast digitsValue_lt hlt
  have hscale : n.exponent - n.fraction.length < (2 ^ f.exponentBits : Nat) := by
    rw [← zpow_lt_zpow_iff_right₀ hten, zpow_natCast]
    refine lt_of_le_of_lt ?_ (h.lt_ten_pow hx hz)
    exact le_mul_of_one_le_left (zpow_nonneg (by norm_num) _) hone
  have hscale' : -(2 ^ f.exponentBits : Nat) <
      n.exponent - n.fraction.length + (n.whole ++ n.fraction).length := by
    rw [← zpow_lt_zpow_iff_right₀ hten, add_comm, zpow_add₀ (by norm_num), zpow_natCast]
    refine lt_of_le_of_lt (h.ten_zpow_le hz hf) ?_
    unfold Numeral.value
    gcongr
  unfold nearest
  dsimp only
  rw [if_neg hvalue, if_neg (by rw [Nat.pow_eq]; omega), if_neg (by rw [Nat.pow_eq]; omega), hneg]
  refine Ieee.ofRatio_of_roundsTo hx hz (Nat.pow_pos (by norm_num)) ?_
  have hpow : (10 : ℚ) ^ (n.exponent - n.fraction.length) = _ := cast_zpow_eq (by norm_num) _
  rw [Numeral.value, hpow, ← mul_div_assoc] at h
  exact_mod_cast h

namespace Ieee

variable {f : Format} {x : Ieee f}

/-- **The literal of a finite number reads back.** -/
theorem nearest_numeral (hf : f.fractionBits ≤ 2 ^ f.exponentBits) (hx : x.magnitude < f.infinite)
    (layout : Layout) : (x.numeral layout).nearest f = x := by
  by_cases hz : x.magnitude = 0
  · have hvalue : digitsValue ((x.numeral layout).whole ++ (x.numeral layout).fraction) = 0 := by
      have h := value_numeral layout x
      rw [shortest_of_isZero hz, Numeral.value, Significant.value] at h
      have h10 : (10 : ℚ) ^ ((x.numeral layout).exponent - (x.numeral layout).fraction.length) ≠ 0 :=
        zpow_ne_zero _ (by norm_num)
      simpa [digitsValue, h10] using h
    unfold Numeral.nearest
    dsimp only
    rw [if_pos hvalue, negative_numeral, zero, ← hz]
    exact x.ofMagnitude_magnitude
  · refine Numeral.nearest_of_roundsTo hf hx hz (negative_numeral layout x)
      (numeral_digits_lt layout x) ?_
    rw [value_numeral]
    exact (shortest_spec layout.tie hz).2

/-- The leading exponent of a number's decimal is within the exponents of the
format. -/
theorem natAbs_shortest_exponent_le (hf : f.fractionBits ≤ 2 ^ f.exponentBits)
    (hx : x.magnitude < f.infinite) (tie : Tie) :
    (x.shortest tie).exponent.natAbs ≤ 2 ^ f.exponentBits := by
  by_cases hz : x.magnitude = 0
  · rw [shortest_of_isZero hz]
    exact Nat.zero_le _
  · have hten : (1 : ℚ) < 10 := by norm_num
    obtain ⟨hproper, hr⟩ := shortest_spec tie hz
    have hhigh : (x.shortest tie).exponent < (2 ^ f.exponentBits : Nat) := by
      rw [← zpow_lt_zpow_iff_right₀ hten, zpow_natCast]
      exact hproper.zpow_le_value.trans_lt (hr.lt_ten_pow hx hz)
    have hlow : -(2 ^ f.exponentBits : Nat) < (x.shortest tie).exponent + 1 := by
      rw [← zpow_lt_zpow_iff_right₀ hten]
      exact (hr.ten_zpow_le hz hf).trans_lt hproper.value_lt
    omega

theorem leading_shortest (x : Ieee f) (tie : Tie) : LeadingDigits (x.shortest tie).digits ∧
    ((x.shortest tie).digits = [0] → (x.shortest tie).exponent = 0) := by
  by_cases hz : x.magnitude = 0
  · rw [shortest_of_isZero hz]
    exact ⟨.inl rfl, fun _ => rfl⟩
  · obtain ⟨d, ds, hds⟩ := (shortest_spec tie hz).1.leading
    rw [hds]
    exact ⟨.inr ⟨d, ds, rfl⟩, fun h => by simp at h⟩

/-- **The literal of a finite number can stand in a document**, under a layout
that writes whole numbers with a point and no exponent zero. -/
theorem legible_numeral (hf : f.fractionBits ≤ 2 ^ f.exponentBits)
    (hrange : 2 ^ f.exponentBits < 2 ^ 31) (hx : x.magnitude < f.infinite) {layout : Layout}
    (hpoint : layout.pointZero = true) (hpos : layout.positional 0 = true) :
    (x.numeral layout).Legible := by
  obtain ⟨hlead, hzero⟩ := x.leading_shortest layout.tie
  have hexp := natAbs_shortest_exponent_le hf hx layout.tie
  have hlt := numeral_digits_lt layout x
  refine ⟨?_, fun d hd => hlt d (List.mem_append_left _ hd),
    fun d hd => hlt d (List.mem_append_right _ hd), ?_, ?_⟩
  · unfold numeral
    dsimp only
    split
    · have := Significant.leading_positional hlead hzero x.negative
      split <;> exact this
    · exact Significant.leading_scientific hlead x.negative
  · unfold numeral
    dsimp only
    split
    · split
      · exact .inl (List.cons_ne_nil _ _)
      · rename_i h
        rw [hpoint, Bool.true_and, List.isEmpty_iff] at h
        exact .inl h
    · rename_i h
      refine .inr fun h0 => h ?_
      rw [← hpos, ← h0]
      rfl
  · unfold numeral Significant.positional Significant.scientific
    dsimp only
    split_ifs
    · exact Nat.two_pow_pos 31
    · exact Nat.two_pow_pos 31
    · exact Nat.two_pow_pos 31
    · exact Nat.two_pow_pos 31
    · exact hexp.trans_lt hrange

end Ieee

end MapReduce
