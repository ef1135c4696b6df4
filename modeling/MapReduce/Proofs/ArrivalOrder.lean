/-
# Aggregates ignore arrival order

Of two equal numbers the greatest and the least keep the first, and of two NaNs as
well, so rows in another order can come to other bits: a zero of the other sign,
another NaN. The order of scalars does not see the difference. A number has a
`grade`, its rank or, for a NaN, a place above all ranks. Combining two numbers
takes the greater grade (`grade_pick`), the greatest grade of a list does not
depend on its order, and numbers of one grade compare equal
(`Numeric.compare_eq_of_grade`).

Integers that compare equal are the same, and sums of integers wrap, so they do
not depend on the order either. Sums of real numbers round and do; but whether a
bag has a value at all never depends on its order.

Key definitions: `grade`.
Key theorems: `grade_pick`, `Aggregate.compare_fold_of_perm`,
`Aggregate.scalar_fold_of_perm`, `finalValue_of_perm`.
-/
import MapReduce.Proofs.AggregateLaws
import MapReduce.Proofs.KeyHash

namespace MapReduce

/-! ### Grades -/

section

variable {α : Type} (nan : α → Bool) (rank : α → Int)

/-- The rank of a number, and for a NaN a place above all ranks. -/
def grade (x : α) : WithTop Int := if nan x then ⊤ else rank x

/-- Of two numbers the one with the greater grade is taken. -/
theorem grade_pick (a b : α) :
    grade nan rank (pick nan rank a b) = max (grade nan rank a) (grade nan rank b) := by
  unfold grade pick
  cases ha : nan a with
  | true => simp [ha]
  | false =>
    cases hb : nan b with
    | true => simp [hb]
    | false =>
      by_cases hab : rank a < rank b
      · simp [hb, hab, hab.le]
      · simp [ha, hab, not_lt.mp hab]

/-- **The grade of what is taken from a list does not depend on its order.** -/
theorem grade_foldl_of_perm {xs ys : List α} (h : xs.Perm ys) (s : α) :
    grade nan rank (xs.foldl (pick nan rank) s) = grade nan rank (ys.foldl (pick nan rank) s) := by
  have hmax : ∀ l : List α, grade nan rank (l.foldl (pick nan rank) s) =
      l.foldl (fun g x => max g (grade nan rank x)) (grade nan rank s) :=
    fun l => (List.foldl_hom (grade nan rank) fun a b => (grade_pick nan rank a b).symm).symm
  have hcomm : RightCommutative (fun (g : WithTop Int) x => max g (grade nan rank x)) :=
    ⟨fun g x y => max_right_comm g (grade nan rank x) (grade nan rank y)⟩
  rw [hmax, hmax]
  exact h.foldl_eq _

end

namespace Numeric

theorem compare_toScalar : ∀ (n : Numeric) (x y : n.Value),
    (n.toScalar x).compare (n.toScalar y) = compareOn n.rank x y
  | .int, _, _ | .long, _, _ | .float, _, _ | .double, _, _ => rfl

theorem rank_eq_of_isNaN : ∀ {n : Numeric} {x y : n.Value}, n.isNaN x = true → n.isNaN y = true →
    n.rank x = n.rank y
  | .int, _, _, hx, _ | .long, _, _, hx, _ => nomatch hx
  | .float, _, _, hx, hy | .double, _, _, hx, hy =>
    (Ieee.rank_of_isNaN hx).trans (Ieee.rank_of_isNaN hy).symm

/-- **Numbers of one grade compare equal**, whichever way the ranks are read. -/
theorem compare_eq_of_grade {n : Numeric} {rank : n.Value → Int}
    (hrank : ∀ x y, rank x = rank y → n.rank x = n.rank y) {x y : n.Value}
    (h : grade n.isNaN rank x = grade n.isNaN rank y) :
    (n.toScalar x).compare (n.toScalar y) = .eq := by
  rw [compare_toScalar, compareOn, compare_eq_iff_eq]
  unfold grade at h
  -- a NaN and a number have different grades, which leaves two cases
  cases hx : n.isNaN x <;> cases hy : n.isNaN y <;> simp [hx, hy] at h
  · exact hrank x y h
  · exact rank_eq_of_isNaN hx hy

end Numeric

/-! ### Values of lists -/

namespace Aggregate

variable {f : Aggregate} {xs ys : List f.Value}

/-- The greatest and the least of two orders of a list compare equal. -/
theorem compare_fold_of_perm (hr : f.rule = .max ∨ f.rule = .min) (h : xs.Perm ys) :
    (f.scalar (f.fold xs)).compare (f.scalar (f.fold ys)) = .eq := by
  unfold fold
  rw [h.isEmpty_eq]
  split
  · rfl
  · obtain ⟨n, rule⟩ := f
    rcases hr with rfl | rfl
    · rw [combine_max]
      exact Numeric.compare_eq_of_grade (fun _ _ he => he) (grade_foldl_of_perm _ _ h _)
    · rw [combine_min]
      exact Numeric.compare_eq_of_grade (fun _ _ he => neg_inj.mp he) (grade_foldl_of_perm _ _ h _)

/-- Sums of integers do not depend on the order. -/
theorem fold_sum_of_perm (hr : f.rule = .sum) (hn : f.numeric = .int ∨ f.numeric = .long)
    (h : xs.Perm ys) : f.fold xs = f.fold ys := by
  have hcomm : ∀ a b, f.rule.combine f.numeric a b = f.rule.combine f.numeric b a := by
    obtain ⟨n, rule⟩ := f
    subst hr
    rcases hn with rfl | rfl
    · exact Int32.add_comm
    · exact Int64.add_comm
  have hright : RightCommutative (f.rule.combine f.numeric) := by
    refine ⟨fun a b c => ?_⟩
    rw [combine_assoc fun _ => hn, hcomm b c, ← combine_assoc fun _ => hn]
  unfold fold
  rw [h.isEmpty_eq, h.foldl_eq]

/-- Values of integer kinds have no twins. -/
theorem not_twins_scalar (hn : f.numeric = .int ∨ f.numeric = .long) (x : Option f.Value) (s : Scalar) :
    ¬ (f.scalar x).Twins s := by
  obtain ⟨n, rule⟩ := f
  rcases hn with rfl | rfl <;> cases x <;> exact id

/-- **Aggregates of integers do not depend on the order.** -/
theorem scalar_fold_of_perm (hn : f.numeric = .int ∨ f.numeric = .long) (h : xs.Perm ys) :
    f.scalar (f.fold xs) = f.scalar (f.fold ys) := by
  have hpick : f.rule = .max ∨ f.rule = .min → f.scalar (f.fold xs) = f.scalar (f.fold ys) := fun hr =>
    ((Scalar.compare_eq_iff _ _).mp (compare_fold_of_perm hr h)).resolve_right (not_twins_scalar hn _ _)
  cases hr : f.rule with
  | max => exact hpick (.inl hr)
  | min => exact hpick (.inr hr)
  | sum => rw [fold_sum_of_perm hr hn h]

end Aggregate

/-- **Aggregates ignore arrival order.** Two orders of a bag both have a value or
both fail. Aggregates of integers have the same value; the greatest and the least
of real numbers have values that compare equal, so they are the same, or two zeros,
or two NaNs. -/
theorem finalValue_of_perm (f : Aggregate) {b b' : Bag} (h : b.Perm b') :
    ((∃ e, f.finalValue b = .error e) ↔ ∃ e, f.finalValue b' = .error e) ∧
      (f.numeric = .int ∨ f.numeric = .long → ∀ v, f.finalValue b = .ok v ↔ f.finalValue b' = .ok v) ∧
      (f.rule = .max ∨ f.rule = .min → ∀ v v', f.finalValue b = .ok v → f.finalValue b' = .ok v' →
        v.compare v' = .eq ∧ (v = v' ∨ v.Twins v')) := by
  have hreads : b.all f.reads = b'.all f.reads := h.all_eq
  have hnumbers : (b.filterMap f.number).Perm (b'.filterMap f.number) := h.filterMap f.number
  refine ⟨?_, fun hn v => ?_, fun hr v v' hv hv' => ?_⟩
  · rw [(f.yields_finalValue b).exists_error_iff, (f.yields_finalValue b').exists_error_iff, hreads]
  · rw [(f.yields_finalValue b).eq_ok_iff, (f.yields_finalValue b').eq_ok_iff, hreads,
      Aggregate.scalar_fold_of_perm hn hnumbers]
  · obtain ⟨_, rfl⟩ := (f.yields_finalValue b).eq_ok_iff.mp hv
    obtain ⟨_, rfl⟩ := (f.yields_finalValue b').eq_ok_iff.mp hv'
    have heq := Aggregate.compare_fold_of_perm hr hnumbers
    exact ⟨heq, (Scalar.compare_eq_iff _ _).mp heq⟩

/-- Two orders of a bag with both zeros, and their least numbers: the zero that
comes first. -/
theorem finalValue_of_perm_zeros :
    let f : Aggregate := ⟨.double, .min⟩
    let b : Bag := [⟨[.double (Ieee.zero true)]⟩, ⟨[.null]⟩, ⟨[.float (Ieee.zero false)]⟩]
    let b' : Bag := [⟨[.float (Ieee.zero false)]⟩, ⟨[.double (Ieee.zero true)]⟩, ⟨[.null]⟩]
    let v : Scalar := .double (Ieee.zero true)
    let v' : Scalar := .double (Ieee.zero false)
    b.Perm b' ∧ f.finalValue b = .ok v ∧ f.finalValue b' = .ok v' ∧
      v.compare v' = .eq ∧ (v = v' ∨ v.Twins v') := by
  intro f b b' v v'
  have hperm : b.Perm b' := by decide
  have hv : f.finalValue b = .ok v := by decide
  have hv' : f.finalValue b' = .ok v' := by decide
  exact ⟨hperm, hv, hv', (finalValue_of_perm f hperm).2.2 (.inr rfl) v v' hv hv'⟩

end MapReduce
