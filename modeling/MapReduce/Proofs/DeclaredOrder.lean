/-
# Ranges and the declared order

A job may declare an order of its key whose columns ascend or descend each on their
own. Its rows are sent by ranges of the plain order of tuples, which ascends in every
column, and only the direction of the first column is looked at: if it descends, the
reducers are counted from the last range.

So what matters for two keys is the first column in which they differ
(`Tuple.compare_of_compareBy`). If it has the direction of the first column, the reducers
follow the declared order (`Quantiles.reducerOf_le`). If it has the other one, they go
against it, unless no bound lies between the two keys and they have the same reducer
(`Quantiles.reducerOf_eq_iff`). Keys that differ in the first column, and all keys where
the columns have one direction, are always in order (`partitionerFor_sortOrder`).

Key definitions: `Tuple.compareBy`, `Tuple.decidedBy`.
Key theorems: `Tuple.compare_of_compareBy`, `Quantiles.reducerOf_le`,
`Quantiles.reducerOf_eq_iff`, `partitionerFor_sortOrder`.
-/
import MapReduce.Proofs.JobPartitioner

namespace MapReduce

/-! ### The declared order -/

/-- Compares column by column, the columns that descend the other way round. -/
def compareColumns : List Bool → List Scalar → List Scalar → Ordering
  | ascends :: order, a :: as, b :: bs =>
    (if ascends then a.compare b else (a.compare b).swap).then (compareColumns order as bs)
  | _, _, _ => .eq

/-- The direction of the first column in which the fields differ. -/
def decidingDirection : List Bool → List Scalar → List Scalar → Option Bool
  | ascends :: order, a :: as, b :: bs =>
    if a.compare b = .eq then decidingDirection order as bs else some ascends
  | _, _, _ => none

/-- The declared order of keys: for each column, whether it ascends. -/
def Tuple.compareBy (order : List Bool) (a b : Tuple) : Ordering := compareColumns order a.fields b.fields

/-- The direction of the column that decides between two keys, if they differ. -/
def Tuple.decidedBy (order : List Bool) (a b : Tuple) : Option Bool := decidingDirection order a.fields b.fields

theorem compareLex_of_compareColumns {order : List Bool} : ∀ {as bs : List Scalar},
    as.length = order.length → bs.length = order.length → compareColumns order as bs = .lt →
      ∃ ascends ∈ order, decidingDirection order as bs = some ascends ∧
        List.compareLex Scalar.compare as bs = if ascends then .lt else .gt := by
  induction order with
  | nil => exact fun _ _ h => nomatch h
  | cons ascends order ih =>
    intro as bs has hbs h
    obtain ⟨a, as, rfl⟩ := List.exists_cons_of_length_eq_add_one has
    obtain ⟨b, bs, rfl⟩ := List.exists_cons_of_length_eq_add_one hbs
    rw [compareColumns] at h
    rw [decidingDirection, List.compareLex_cons_cons]
    cases hab : a.compare b with
    | eq =>
      have hrest : compareColumns order as bs = .lt := by
        rw [hab] at h
        cases ascends <;> exact h
      obtain ⟨x, hx, hdecided, hlex⟩ := ih (Nat.succ.inj has) (Nat.succ.inj hbs) hrest
      exact ⟨x, List.mem_cons_of_mem _ hx, hdecided, hlex⟩
    | lt =>
      -- a smaller field comes first only where the column ascends
      rw [hab] at h
      cases ascends with
      | false => cases h
      | true => exact ⟨true, List.mem_cons_self, rfl, rfl⟩
    | gt =>
      rw [hab] at h
      cases ascends with
      | false => exact ⟨false, List.mem_cons_self, rfl, rfl⟩
      | true => cases h

/-- **Before in the declared order** is before in the plain order where the deciding
column ascends, and after where it descends. -/
theorem Tuple.compare_of_compareBy {order : List Bool} {a b : Tuple} (ha : a.arity = order.length)
    (hb : b.arity = order.length) (h : a.compareBy order b = .lt) :
    ∃ ascends ∈ order, a.decidedBy order b = some ascends ∧ a.compare b = if ascends then .lt else .gt :=
  compareLex_of_compareColumns ha hb h

/-! ### The reducers of two keys -/

namespace Quantiles

variable {q : Quantiles} (h : KeysSorted q.boundaries)

include h

/-- Keys are in the same range if no bound lies between them. -/
theorem rangeOf_eq_iff {a b : Tuple} :
    q.rangeOf a = q.rangeOf b ↔ ∀ x ∈ q.boundaries, x.before a = x.before b := by
  constructor
  · intro heq x hx
    obtain ⟨i, hi⟩ := List.getElem?_of_mem hx
    rw [Bool.eq_iff_iff, Tuple.before_iff, Tuple.before_iff, lt_iff_lt_rangeOf h hi, lt_iff_lt_rangeOf h hi, heq]
  · intro hsame
    rw [rangeOf_eq_countP h, rangeOf_eq_countP h]
    exact List.countP_congr fun x hx => by rw [hsame x hx]

theorem reducerOf_eq_iff {ascending : Bool} {a b : Tuple} :
    q.reducerOf ascending a = q.reducerOf ascending b ↔ ∀ x ∈ q.boundaries, x.before a = x.before b := by
  have ha := rangeOf_le h a
  have hb := rangeOf_le h b
  rw [← rangeOf_eq_iff h, reducerOf, reducerOf]
  split <;> omega

/-- **The reducers follow the direction of the first column.** -/
theorem reducerOf_le {ascending : Bool} {a b : Tuple} (hab : a.compare b = if ascending then .lt else .gt) :
    q.reducerOf ascending a ≤ q.reducerOf ascending b := by
  cases ascending with
  | true => exact rangeOf_mono h (by rw [hab]; rfl)
  | false =>
    have hba : b.compare a = .lt := Std.OrientedCmp.gt_iff_lt.mp hab
    exact Nat.sub_le_sub_left (rangeOf_mono h (by rw [hba]; rfl)) _

end Quantiles

/-! ### A global sort -/

theorem Job.firstAscends_of_order {j : Job} {first : Bool} {rest : List Bool}
    (h : j.annotations.sortOrder = some (first :: rest)) : j.firstAscends = first := by
  rw [firstAscends, h]
  rfl

/-- **When a global sort follows the declared order.** A job that sorts globally and is no
skewed join sends each key to one reducer. Where one key comes before another in the
declared order, its reducer does not come after the other's exactly if the column that
decides between them has the direction of the first column, or no bound lies between
them; always, if the columns have one direction. -/
theorem partitionerFor_sortOrder {j : Job} {read : String → Except Failure Bytes} {c : Settings} {p : Partitioner}
    {order : List Bool} {k₁ k₂ : Tuple} (hsort : j.annotations.globalSort = true)
    (hjoin : j.annotations.partitionFile = none) (horder : j.annotations.sortOrder = some order)
    (hp : partitionerFor j read c = .ok p) (h₁ : k₁.arity = order.length) (h₂ : k₂.arity = order.length)
    (hbefore : k₁.compareBy order k₂ = .lt) :
    ∃ q r₁ r₂, j.RoutesBy read q ∧
      (∀ input seq, p.route input k₁ seq = .ok [r₁] ∧ p.route input k₂ seq = .ok [r₂]) ∧
      (r₁ ≤ r₂ ↔ k₁.decidedBy order k₂ = order.head? ∨ ∀ b ∈ q.boundaries, b.before k₁ = b.before k₂) ∧
      ((∀ ascends ∈ order, order.head? = some ascends) → r₁ ≤ r₂) := by
  cases partitionerFor_eq_ok_iff.mp hp with
  | bySkew r hpath hm hr => exact nomatch hjoin.symm.trans hpath
  | byHash hfile hnone => exact nomatch hsort.symm.trans hnone
  | @byRange q _ hroutes hranges =>
    obtain ⟨hsorted, rfl⟩ := Partitioner.byRange_eq_ok_iff.mp hranges
    obtain ⟨ascends, hmem, hdecided, hcompare⟩ := Tuple.compare_of_compareBy h₁ h₂ hbefore
    obtain ⟨first, rest, rfl⟩ := List.exists_cons_of_ne_nil (List.ne_nil_of_mem hmem)
    rw [Job.firstAscends_of_order horder]
    refine ⟨q, _, _, hroutes, fun input seq => ⟨rfl, rfl⟩, ?_, fun hone => ?_⟩
    · rw [hdecided, List.head?_cons, Option.some.injEq]
      by_cases hsame : ascends = first
      · subst hsame
        exact ⟨fun _ => .inl rfl, fun _ => Quantiles.reducerOf_le hsorted hcompare⟩
      · -- the plain order sees the keys the other way round
        have hback : k₂.compare k₁ = if first then .lt else .gt := by
          have hswap : k₂.compare k₁ = (k₁.compare k₂).swap := Std.OrientedCmp.eq_swap
          rw [hswap, hcompare]
          revert hsame
          cases ascends <;> cases first <;> decide
        have hle := Quantiles.reducerOf_le hsorted hback
        rw [← Quantiles.reducerOf_eq_iff hsorted]
        exact ⟨fun h => .inr (Nat.le_antisymm h hle), fun h => (h.resolve_left hsame).le⟩
    · obtain rfl : first = ascends := Option.some.inj (hone ascends hmem)
      exact Quantiles.reducerOf_le hsorted hcompare

/-- Keys on both sides of a bound that differ in the first column, in an order with a
second column that descends. -/
theorem partitionerFor_sortOrder_firstColumn :
    let q : Quantiles := ⟨[⟨[.long 1, .long 5]⟩, ⟨[.long 1, .long 20]⟩]⟩
    let k₁ : Tuple := ⟨[.long 1, .long 9]⟩
    let k₂ : Tuple := ⟨[.long 2, .long 30]⟩
    let d := Draft.closedWith fun a =>
      { a with globalSort := true, quantileFile := some "q", sortOrder := some [true, false] }
    d.freeze = .ok d.job ∧ k₁.compareBy [true, false] k₂ = .lt ∧
      ∃ p r₁ r₂, partitionerFor d.job (q.write .inMemory "q").1.read Settings.default = .ok p ∧
        p.route 0 k₁ 0 = .ok [r₁] ∧ p.route 0 k₂ 0 = .ok [r₂] ∧ r₁ ≤ r₂ := by
  intro q k₁ k₂ d
  have hbounds : ∀ b ∈ q.boundaries, b.Durable := by decide +kernel
  have hroutes : d.job.RoutesBy (q.write .inMemory "q").1.read q :=
    ⟨rfl, rfl, "q", rfl, Quantiles.read_of_durable OrderedMap.empty "q" hbounds⟩
  have hsorted : KeysSorted q.boundaries := (Quantiles.ascending_iff _).mp (by decide +kernel)
  have hp := hroutes.partitionerFor_eq hsorted Settings.default
  have hbefore : k₁.compareBy [true, false] k₂ = .lt := by decide +kernel
  obtain ⟨_, r₁, r₂, _, hroute, hle, _⟩ := partitionerFor_sortOrder rfl rfl rfl hp rfl rfl hbefore
  exact ⟨by cbv, hbefore, _, r₁, r₂, hp, (hroute 0 0).1, (hroute 0 0).2, hle.mpr (.inl (by decide +kernel))⟩

/-- A bound between two keys that differ in the second column only, which descends while
the first one ascends: their reducers go against the declared order. So do those of a
skewed join, which does not look at the order. -/
theorem partitionerFor_against_sortOrder :
    let q : Quantiles := ⟨[⟨[.long 1, .long 5]⟩]⟩
    let k₁ : Tuple := ⟨[.long 1, .long 9]⟩
    let k₂ : Tuple := ⟨[.long 1, .long 1]⟩
    let sorting := Draft.closedWith fun a =>
      { a with globalSort := true, quantileFile := some "q", sortOrder := some [true, false] }
    let m : PartitionMap := .ofEntries 2 [⟨⟨[.long 1]⟩, 1, 1⟩, ⟨⟨[.long 2]⟩, 1, 0⟩]
    let joining := Draft.closedWith fun a =>
      { a with globalSort := true, quantileFile := some "q", sortOrder := some [true], skewedJoin := true,
               partitionFile := some "p", requestedParallelism := some 2 }
    (sorting.freeze = .ok sorting.job ∧ k₁.compareBy [true, false] k₂ = .lt ∧
      ∃ p, partitionerFor sorting.job (q.write .inMemory "q").1.read Settings.default = .ok p ∧
        p.route 0 k₁ 0 = .ok [1] ∧ p.route 0 k₂ 0 = .ok [0]) ∧
    (joining.freeze = .ok joining.job ∧ Tuple.compareBy [true] ⟨[.long 1]⟩ ⟨[.long 2]⟩ = .lt ∧
      ∃ p, partitionerFor joining.job (writePartitionMap .inMemory "p" m).1.read Settings.default = .ok p ∧
        p.route 0 ⟨[.long 1]⟩ 0 = .ok [1] ∧ p.route 0 ⟨[.long 2]⟩ 0 = .ok [0]) := by
  intro q k₁ k₂ sorting m joining
  have hbounds : ∀ b ∈ q.boundaries, b.Durable := by decide +kernel
  have hroutes : sorting.job.RoutesBy (q.write .inMemory "q").1.read q :=
    ⟨rfl, rfl, "q", rfl, Quantiles.read_of_durable OrderedMap.empty "q" hbounds⟩
  have hsorted : KeysSorted q.boundaries := (Quantiles.ascending_iff _).mp (by decide +kernel)
  have hkeys : ∀ e ∈ m.entries, e.key.Durable := by decide +kernel
  have hm : readPartitionMap (writePartitionMap .inMemory "p" m).1.read "p" = .ok m :=
    readPartitionMap_of_durable OrderedMap.empty "p" hkeys
  obtain ⟨hsound, hfirst, hsecond⟩ : ∃ h : m.routingFault? = none,
      (Partitioner.bySkew ⟨m, h⟩).route 0 ⟨[.long 1]⟩ 0 = .ok [1] ∧
      (Partitioner.bySkew ⟨m, h⟩).route 0 ⟨[.long 2]⟩ 0 = .ok [0] := by decide +kernel
  refine ⟨⟨by cbv, by decide +kernel, _, hroutes.partitionerFor_eq hsorted _, by cbv, by cbv⟩,
    by cbv, by decide +kernel, _, partitionerFor_eq_ok_iff.mpr (.bySkew ⟨m, hsound⟩ rfl hm rfl), hfirst, hsecond⟩

end MapReduce
