/-
# Laws of aggregates

The combination of an aggregate is associative and its starting value changes
nothing, for the greatest and the least of every kind of numbers and for sums of
integers (`Aggregate.Exact`); sums of real numbers round, and do not. So a bag can
be cut anywhere: the value of the whole is the combination of the values of the
parts (`Aggregate.fold_append`), and a value that was written into a row and read
again is still the same (`Aggregate.entry_scalar`). Errors are cut alike: the
whole fails as its first part that fails (`Aggregate.reduce_append`), and so do
the results of a wave (`Aggregate.reduce_intermediates`).

Key definitions: `Aggregate.Exact`, `Aggregate.reads`, `Aggregate.number`.
Key theorems: `Aggregate.combine_seed`, `Aggregate.combine_assoc`,
`Aggregate.fold_append`, `Aggregate.fold_filterMap_fold`, `Aggregate.entry_scalar`,
`Aggregate.reduce_append`, `Aggregate.reduce_intermediates`,
`Aggregate.finalValue_eq_null_iff`, `Accumulator.running_fed`.
-/
import MapReduce.Proofs.Ieee
import MapReduce.Proofs.Outcome
import MapReduce.Aggregate.Accumulator

namespace MapReduce

/-! ### The ends of the order -/

namespace Numeric

theorem isNaN_lowest : ∀ n : Numeric, n.isNaN n.lowest = false
  | .int | .long => rfl
  | .float | .double => Ieee.isNaN_infinity true

theorem isNaN_highest : ∀ n : Numeric, n.isNaN n.highest = false
  | .int | .long => rfl
  | .float | .double => Ieee.isNaN_infinity false

/-- No value but the lowest has its rank or one below. -/
theorem eq_lowest : ∀ {n : Numeric} {x : n.Value}, n.isNaN x = false → n.rank x ≤ n.rank n.lowest → x = n.lowest
  | .int, x, _, h => Int32.toInt_inj.mp (le_antisymm h (Int32.le_toInt x))
  | .long, x, _, h => Int64.toInt_inj.mp (le_antisymm h (Int64.le_toInt x))
  | .float, _, hx, h => Ieee.eq_infinity_of_rank (by decide) hx h
  | .double, _, hx, h => Ieee.eq_infinity_of_rank (by decide) hx h

/-- No value but the highest has its rank or one above. -/
theorem eq_highest : ∀ {n : Numeric} {x : n.Value}, n.isNaN x = false → n.rank n.highest ≤ n.rank x → x = n.highest
  | .int, x, _, h => Int32.toInt_inj.mp (le_antisymm (Int32.toInt_le x) h)
  | .long, x, _, h => Int64.toInt_inj.mp (le_antisymm (Int64.toInt_le x) h)
  | .float, _, hx, h => Ieee.eq_infinity_of_rank (by decide) hx h
  | .double, _, hx, h => Ieee.eq_infinity_of_rank (by decide) hx h

end Numeric

/-! ### The combination -/

/-- Of two values the second if it is a NaN or has the greater rank, unless the
first is a NaN. -/
def pick {α : Type} (nan : α → Bool) (rank : α → Int) (a b : α) : α :=
  if nan a then a else if nan b || decide (rank a < rank b) then b else a

theorem pick_assoc {α : Type} (nan : α → Bool) (rank : α → Int) (a b c : α) :
    pick nan rank (pick nan rank a b) c = pick nan rank a (pick nan rank b c) := by
  unfold pick
  cases ha : nan a with
  | true => simp [ha]
  | false =>
    cases hb : nan b with
    | true => simp [hb]
    | false =>
      cases hc : nan c with
      | true => by_cases hab : rank a < rank b <;> simp [ha, hb, hc, hab]
      | false =>
        by_cases hab : rank a < rank b <;> by_cases hbc : rank b < rank c <;> by_cases hac : rank a < rank c <;>
          simp [ha, hb, hc, hab, hbc, hac] <;> omega

namespace Aggregate

variable {f : Aggregate}

/-- Aggregates whose value does not depend on how a bag is cut: all but sums of
real numbers. -/
def Exact (f : Aggregate) : Prop := f.rule = .sum → f.numeric = .int ∨ f.numeric = .long

instance (f : Aggregate) : Decidable f.Exact := inferInstanceAs (Decidable (_ → _))

theorem combine_max (n : Numeric) : Rule.combine n .max = pick n.isNaN n.rank := rfl

theorem combine_min (n : Numeric) : Rule.combine n .min = pick n.isNaN (fun x => -n.rank x) := by
  funext a b
  simp only [Rule.combine, pick, neg_lt_neg_iff]

/-- The starting value changes nothing. -/
theorem combine_seed (h : f.Exact) (x : f.Value) :
    f.rule.combine f.numeric (f.rule.seed f.numeric) x = x := by
  obtain ⟨n, rule⟩ := f
  cases rule with
  | max =>
    show (if n.isNaN n.lowest then n.lowest
      else if n.isNaN x || decide (n.rank n.lowest < n.rank x) then x else n.lowest) = x
    rw [n.isNaN_lowest, if_neg Bool.false_ne_true]
    split
    · rfl
    · rename_i hx
      simp only [Bool.or_eq_true, decide_eq_true_eq, not_or, not_lt, Bool.not_eq_true] at hx
      exact (Numeric.eq_lowest hx.1 hx.2).symm
  | min =>
    show (if n.isNaN n.highest then n.highest
      else if n.isNaN x || decide (n.rank x < n.rank n.highest) then x else n.highest) = x
    rw [n.isNaN_highest, if_neg Bool.false_ne_true]
    split
    · rfl
    · rename_i hx
      simp only [Bool.or_eq_true, decide_eq_true_eq, not_or, not_lt, Bool.not_eq_true] at hx
      exact (Numeric.eq_highest hx.1 hx.2).symm
  | sum =>
    rcases h rfl with rfl | rfl
    · exact Int32.zero_add x
    · exact Int64.zero_add x

theorem combine_assoc (h : f.Exact) (a b c : f.Value) :
    f.rule.combine f.numeric (f.rule.combine f.numeric a b) c =
      f.rule.combine f.numeric a (f.rule.combine f.numeric b c) := by
  obtain ⟨n, rule⟩ := f
  cases rule with
  | max =>
    rw [combine_max]
    exact pick_assoc n.isNaN n.rank a b c
  | min =>
    rw [combine_min]
    exact pick_assoc n.isNaN (fun x => -n.rank x) a b c
  | sum =>
    rcases h rfl with rfl | rfl
    · exact Int32.add_assoc a b c
    · exact Int64.add_assoc a b c

/-- The values of two parts of a bag, combined. -/
def joined (f : Aggregate) : Option f.Value → Option f.Value → Option f.Value :=
  Option.merge (f.rule.combine f.numeric)

theorem fold_singleton (h : f.Exact) (x : f.Value) : f.fold [x] = some x :=
  congrArg some (combine_seed h x)

/-- **A list of numbers can be cut anywhere.** -/
theorem fold_append (h : f.Exact) (xs ys : List f.Value) : f.fold (xs ++ ys) = f.joined (f.fold xs) (f.fold ys) := by
  have hassoc : Std.Associative (f.rule.combine f.numeric) := ⟨combine_assoc h⟩
  cases xs with
  | nil => cases ys <;> rfl
  | cons x xs =>
    cases ys with
    | nil => rw [List.append_nil]; rfl
    | cons y ys =>
      refine congrArg some ?_
      rw [List.foldl_append]
      generalize (x :: xs).foldl (f.rule.combine f.numeric) (f.rule.seed f.numeric) = a
      rw [List.foldl_cons, List.foldl_cons, combine_seed h y, List.foldl_assoc]

/-- **Partial results are combined into the result of the whole.** -/
theorem fold_filterMap_fold (h : f.Exact) : ∀ xss : List (List f.Value),
    f.fold (xss.filterMap f.fold) = f.fold xss.flatten
  | [] => rfl
  | xs :: xss => by
    have ih := fold_filterMap_fold h xss
    rw [List.flatten_cons, fold_append h, ← ih]
    cases hx : f.fold xs with
    | none =>
      rw [List.filterMap_cons_none hx]
      cases f.fold (xss.filterMap f.fold) <;> rfl
    | some x => rw [List.filterMap_cons_some hx, ← List.singleton_append, fold_append h, fold_singleton h]

/-! ### Reading numbers -/

/-- Whether the first field of a row is a number of the kind, or null. -/
def reads (f : Aggregate) (t : Tuple) : Bool := (f.entry t).isOk

/-- The number in the first field of a row, if there is one. -/
def number (f : Aggregate) (t : Tuple) : Option f.Value := (f.entry t).toOption.join

theorem yields_entry (f : Aggregate) (t : Tuple) : Yields (f.entry t) (f.reads t) (f.number t) := by
  unfold reads number
  cases f.entry t <;> rfl

theorem yields_values (f : Aggregate) : ∀ b : Bag, Yields (f.values b) (b.all f.reads) (b.filterMap f.number)
  | [] => rfl
  | t :: b => by
    rw [values, List.all_cons]
    refine (f.yields_entry t).bind ?_
    cases hn : f.number t with
    | none =>
      rw [List.filterMap_cons_none hn]
      exact yields_values f b
    | some x =>
      rw [List.filterMap_cons_some hn]
      exact (yields_values f b).map (x :: ·)

theorem yields_reduce (f : Aggregate) (b : Bag) :
    Yields (f.reduce b) (b.all f.reads) (f.fold (b.filterMap f.number)) :=
  (f.yields_values b).map f.fold

theorem yields_finalValue (f : Aggregate) (b : Bag) :
    Yields (f.finalValue b) (b.all f.reads) (f.scalar (f.fold (b.filterMap f.number))) :=
  (f.yields_reduce b).map f.scalar

/-- A value that was written into a row is read back. -/
theorem entry_scalar (f : Aggregate) (x : Option f.Value) : f.entry ⟨[f.scalar x]⟩ = .ok x := by
  obtain ⟨n, rule⟩ := f
  cases x with
  | none => rfl
  | some x => cases n <;> rfl

/-! ### Cutting a bag -/

theorem values_append (f : Aggregate) : ∀ b b' : Bag,
    f.values (b ++ b') = (do return (← f.values b) ++ (← f.values b'))
  | [], b' => by
    simp only [List.nil_append, values]
    cases f.values b' <;> rfl
  | t :: b, b' => by
    have ih := values_append f b b'
    simp only [List.cons_append, values, ih]
    cases f.entry t with
    | error e => rfl
    | ok x =>
      cases x with
      | none => rfl
      | some x => cases f.values b <;> cases f.values b' <;> rfl

/-- **A bag can be cut anywhere.** The value of the whole is the combination of
the values of its parts, and the whole fails as the first part that fails. -/
theorem reduce_append (h : f.Exact) (b b' : Bag) :
    f.reduce (b ++ b') = (do return f.joined (← f.reduce b) (← f.reduce b')) := by
  unfold reduce
  rw [values_append]
  cases f.values b with
  | error e => rfl
  | ok xs =>
    cases f.values b' with
    | error e => rfl
    | ok ys => exact congrArg Except.ok (fold_append h xs ys)

theorem reduce_result (h : f.Exact) (x : Option f.Value) : f.reduce [⟨[f.scalar x]⟩] = .ok x := by
  unfold reduce
  rw [values, f.entry_scalar x]
  cases x with
  | none => rfl
  | some x => exact congrArg Except.ok (fold_singleton h x)

/-- **The results of a wave are worth the bags behind them**, and the wave fails
as these would together. -/
theorem reduce_intermediates (h : f.Exact) : ∀ bs : List Bag,
    (bs.mapM f.intermediate >>= f.reduce) = f.reduce bs.flatten
  | [] => rfl
  | b :: bs => by
    rw [List.flatten_cons, reduce_append h, ← reduce_intermediates h bs, List.mapM_cons]
    unfold intermediate
    cases f.reduce b with
    | error e => rfl
    | ok x =>
      cases bs.mapM (fun b => (f.reduce b).map fun x => (⟨[f.scalar x]⟩ : Tuple)) with
      | error e => rfl
      | ok rs =>
        show f.reduce ([⟨[f.scalar x]⟩] ++ rs) = (f.reduce rs).map (f.joined x)
        rw [reduce_append h, reduce_result h]
        cases f.reduce rs <;> rfl

/-- A wave over the results of a wave is a wave over the bags behind them. -/
theorem intermediate_intermediates (h : f.Exact) (bs : List Bag) :
    (bs.mapM f.intermediate >>= f.intermediate) = f.intermediate bs.flatten :=
  calc (bs.mapM f.intermediate >>= f.intermediate)
      = (bs.mapM f.intermediate >>= f.reduce).map (fun x => ⟨[f.scalar x]⟩) := (map_bind _ _ _).symm
    _ = f.intermediate bs.flatten := congrArg _ (reduce_intermediates h bs)

/-- The last wave over the results of a wave is one over the bags behind them. -/
theorem finalValue_intermediates (h : f.Exact) (bs : List Bag) :
    (bs.mapM f.intermediate >>= f.finalValue) = f.finalValue bs.flatten :=
  calc (bs.mapM f.intermediate >>= f.finalValue)
      = (bs.mapM f.intermediate >>= f.reduce).map f.scalar := (map_bind _ _ _).symm
    _ = f.finalValue bs.flatten := congrArg _ (reduce_intermediates h bs)

/-! ### Bags without numbers -/

theorem entry_eq_none_iff {t : Tuple} : f.entry t = .ok none ↔ t.field 0 = .ok .null := by
  unfold entry
  split
  · rename_i e he
    simp [he]
  · rename_i hnull
    simp [hnull]
  · rename_i s hne hs
    have hsome : (.ok s : Except FieldFault Scalar) ≠ .ok .null := fun h => hne (Except.ok.inj h)
    rw [hs]
    split <;> simp [hsome]

theorem values_eq_nil_iff : ∀ {b : Bag}, f.values b = .ok [] ↔ ∀ t ∈ b, t.field 0 = .ok .null
  | [] => by simp [values]
  | t :: b => by
    rw [List.forall_mem_cons, ← values_eq_nil_iff (b := b), ← entry_eq_none_iff (f := f), values]
    cases f.entry t with
    | error e => simp [bind, Except.bind]
    | ok x =>
      cases x with
      | none => simp [bind, Except.bind]
      | some x => cases f.values b <;> simp [bind, Except.bind, pure, Except.pure]

theorem scalar_eq_null_iff {x : Option f.Value} : f.scalar x = .null ↔ x = none := by
  obtain ⟨n, rule⟩ := f
  cases x with
  | none => simp [scalar]
  | some x => cases n <;> exact ⟨nofun, nofun⟩

theorem fold_eq_none_iff {xs : List f.Value} : f.fold xs = none ↔ xs = [] := by
  cases xs <;> simp [fold]

/-- A bag is worth null exactly if it has no number. -/
theorem finalValue_eq_null_iff {b : Bag} :
    f.finalValue b = .ok .null ↔ ∀ t ∈ b, t.field 0 = .ok .null := by
  rw [← values_eq_nil_iff (f := f), finalValue, reduce]
  cases f.values b with
  | error e => simp [Except.map]
  | ok xs => simp [Except.map, scalar_eq_null_iff, fold_eq_none_iff]

end Aggregate

/-! ### Accumulators -/

namespace Accumulator

variable {f : Aggregate}

/-- The accumulator after a chunk that can be read. -/
def fed (a : Accumulator f) (b : Bag) : Accumulator f :=
  match f.fold (b.filterMap f.number) with
  | none => a
  | some x => a.absorb x

theorem yields_accumulate (a : Accumulator f) (b : Bag) : Yields (a.accumulate b) (b.all f.reads) (a.fed b) := by
  rw [accumulate, ← Bool.and_true (b.all f.reads)]
  refine (f.yields_reduce b).bind ?_
  unfold fed
  cases f.fold (b.filterMap f.number) <;> rfl

/-- The accumulator after the value of a chunk, if the chunk has one. -/
theorem running_elim (h : f.Exact) (a : Accumulator f) (x : Option f.Value) :
    (x.elim a a.absorb).running = f.joined a.running x := by
  cases x with
  | none => cases hr : a.running <;> simp [hr, Aggregate.joined]
  | some x =>
    cases hr : a.running with
    | none => simp [absorb, hr, Aggregate.joined, Aggregate.combine_seed h]
    | some y => simp [absorb, hr, Aggregate.joined]

/-- **An accumulator combines the value of a chunk into the running one.** -/
theorem running_fed (h : f.Exact) (a : Accumulator f) (b : Bag) :
    (a.fed b).running = f.joined a.running (f.fold (b.filterMap f.number)) := by
  rw [← running_elim h]
  unfold fed
  cases f.fold (b.filterMap f.number) <;> rfl

end Accumulator
end MapReduce
