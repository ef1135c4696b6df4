/-
# Ranges of keys give a total order

Bounds are accepted if no bound is above the next one, hence above a later one
(`Quantiles.ascending_iff`). Then the bounds below a key come first, and halving
finds their number (`Quantiles.rangeOf_eq_countP`), which is the range of the key: the
key is above the bound before it and not above the bound after it
(`Quantiles.inRange_iff`).

A key in an earlier range is below every key in a later one, so the sorted rows of
the reducers, one reducer after the other, are the stable sort of all rows
(`sortByKey_eq_flatMap`): first to last, or last to first if the order descends.
Bounds may be equal, which leaves reducers without rows.

Key definitions: `Quantiles.InRange`, `Quantiles.reducerOf`.
Key theorems: `bisect_eq_countP`, `Quantiles.inRange_iff`, `Quantiles.lt_of_rangeOf_lt`,
`sortByKey_eq_flatMap`, `Partitioner.byRange_totalOrder`.
-/
import MapReduce.Proofs.Gather
import MapReduce.Proofs.Shuffle

namespace MapReduce

/-! ### Searching by halves -/

section

variable {α : Type} {p : α → Bool} {l : List α}

/-- **Halving counts.** If the items that pass come first, the search finds how many
there are. -/
theorem bisect_eq_countP (h : l.Pairwise fun a b => p b = true → p a = true) : bisect p l = l.countP p := by
  fun_induction bisect p l with
  | case1 l hmiddle =>
    have hlength := congrArg List.length hmiddle
    rw [List.length_drop, List.length_nil] at hlength
    obtain rfl : l = [] := List.eq_nil_of_length_eq_zero (by omega)
    rfl
  | case2 l x rest hmiddle hx ih =>
    -- the middle item passes, so do all before it
    have hl : l = l.take (l.length / 2) ++ x :: rest := by rw [← hmiddle, List.take_append_drop]
    rw [hl, List.pairwise_append, List.pairwise_cons] at h
    obtain ⟨_, ⟨_, hrest⟩, hcross⟩ := h
    have hfirst : (l.take (l.length / 2)).countP p = l.length / 2 := by
      have hall : (l.take (l.length / 2)).countP p = (l.take (l.length / 2)).length :=
        List.countP_eq_length.mpr fun a ha => hcross a ha x List.mem_cons_self hx
      rw [hall, List.length_take]
      omega
    calc l.length / 2 + 1 + bisect p rest
        = (l.take (l.length / 2)).countP p + (rest.countP p + 1) := by rw [ih hrest, hfirst]; omega
      _ = (l.take (l.length / 2) ++ x :: rest).countP p := by
        rw [List.countP_append, List.countP_cons_of_pos hx]
      _ = l.countP p := by rw [← hl]
  | case3 l x rest hmiddle hx ih =>
    -- the middle item does not pass, nor does any after it
    have hl : l = l.take (l.length / 2) ++ x :: rest := by rw [← hmiddle, List.take_append_drop]
    rw [hl, List.pairwise_append, List.pairwise_cons] at h
    obtain ⟨hfirst, ⟨hafter, _⟩, _⟩ := h
    have hrest : (x :: rest).countP p = 0 := by
      rw [List.countP_eq_zero]
      intro b hb hpass
      rcases List.mem_cons.mp hb with rfl | hb
      · exact hx hpass
      · exact hx (hafter b hb hpass)
    calc bisect p (l.take (l.length / 2))
        = (l.take (l.length / 2)).countP p + (x :: rest).countP p := by rw [ih hfirst, hrest, Nat.add_zero]
      _ = l.countP p := by rw [← List.countP_append, ← hl]

/-- The items that pass are those before the number of them. -/
theorem passes_iff_lt_countP (h : l.Pairwise fun a b => p b = true → p a = true) {i : Nat} {x : α}
    (hx : l[i]? = some x) : p x = true ↔ i < l.countP p := by
  induction l generalizing i with
  | nil => cases hx
  | cons a l ih =>
    obtain ⟨hhead, htail⟩ := List.pairwise_cons.mp h
    by_cases ha : p a = true
    · rw [List.countP_cons_of_pos ha]
      cases i with
      | zero =>
        obtain rfl := Option.some.inj hx
        exact ⟨fun _ => Nat.succ_pos _, fun _ => ha⟩
      | succ i => rw [ih htail hx, Nat.add_lt_add_iff_right]
    · have hnone : (a :: l).countP p = 0 := by
        rw [List.countP_eq_zero]
        intro b hb hpass
        rcases List.mem_cons.mp hb with rfl | hb
        · exact ha hpass
        · exact ha (hhead b hb hpass)
      have hmem := List.countP_eq_zero.mp hnone x (List.mem_of_getElem? hx)
      rw [hnone]
      exact ⟨fun hpass => absurd hpass hmem, fun hlt => absurd hlt (Nat.not_lt_zero i)⟩

end

/-! ### The range of a key -/

theorem Tuple.before_iff {a b : Tuple} : a.before b = true ↔ a.compare b = .lt := beq_iff_eq

namespace Quantiles

theorem ascending_iff : ∀ l : List Tuple, ascending l = true ↔ KeysSorted l
  | [] => ⟨fun _ => List.Pairwise.nil, fun _ => rfl⟩
  | [a] => ⟨fun _ => List.pairwise_singleton _ a, fun _ => rfl⟩
  | a :: b :: rest => by
    rw [ascending, Bool.and_eq_true, ascending_iff (b :: rest)]
    constructor
    · rintro ⟨hab, hrest⟩
      refine List.pairwise_cons.mpr ⟨fun c hc => ?_, hrest⟩
      rcases List.mem_cons.mp hc with rfl | hc
      · exact hab
      · exact Std.TransCmp.isLE_trans hab ((List.pairwise_cons.mp hrest).1 c hc)
    · intro hsorted
      obtain ⟨ha, hrest⟩ := List.pairwise_cons.mp hsorted
      exact ⟨ha b List.mem_cons_self, hrest⟩

/-- The key is in range `i`: above the bound before the range, if there is one, and
not above the bound after it. -/
def InRange (q : Quantiles) (key : Tuple) (i : Nat) : Prop :=
  i ≤ q.boundaries.length ∧
    (∀ b, 0 < i → q.boundaries[i - 1]? = some b → b.compare key = .lt) ∧
    ∀ b, q.boundaries[i]? = some b → (key.compare b).isLE = true

/-- The reducer of a key. -/
def reducerOf (q : Quantiles) (ascending : Bool) (key : Tuple) : Nat :=
  if ascending then q.rangeOf key else q.boundaries.length - q.rangeOf key

section

variable {q : Quantiles} (h : KeysSorted q.boundaries)

include h

/-- The bounds below a key come before the others. -/
theorem pairwise_before (key : Tuple) :
    q.boundaries.Pairwise fun a b => b.before key = true → a.before key = true := by
  refine h.imp fun {a b} hab hb => ?_
  rw [Tuple.before_iff] at hb ⊢
  exact Std.TransCmp.lt_of_isLE_of_lt hab hb

theorem rangeOf_eq_countP (key : Tuple) : q.rangeOf key = q.boundaries.countP fun b => b.before key :=
  bisect_eq_countP (pairwise_before h key)

theorem rangeOf_le (key : Tuple) : q.rangeOf key ≤ q.boundaries.length := by
  rw [rangeOf_eq_countP h]
  exact List.countP_le_length

theorem lt_iff_lt_rangeOf {key b : Tuple} {i : Nat} (hb : q.boundaries[i]? = some b) :
    b.compare key = .lt ↔ i < q.rangeOf key := by
  rw [rangeOf_eq_countP h, ← Tuple.before_iff]
  exact passes_iff_lt_countP (pairwise_before h key) hb

/-- **A key is in the range of its number, and in no other.** -/
theorem inRange_iff {key : Tuple} {i : Nat} : q.InRange key i ↔ i = q.rangeOf key := by
  have hle := rangeOf_le h key
  constructor
  · rintro ⟨hi, hbelow, habove⟩
    apply Nat.le_antisymm
    · by_contra hgt
      have hbound := List.getElem?_eq_getElem (show i - 1 < q.boundaries.length by omega)
      have hlt := (lt_iff_lt_rangeOf h hbound).mp (hbelow _ (by omega) hbound)
      omega
    · by_contra hlt
      have hbound := List.getElem?_eq_getElem (show i < q.boundaries.length by omega)
      have hb := (lt_iff_lt_rangeOf h hbound).mpr (Nat.lt_of_not_le hlt)
      exact Std.OrientedCmp.not_isLE_of_lt hb (habove _ hbound)
  · rintro rfl
    refine ⟨hle, fun b hpos hb => (lt_iff_lt_rangeOf h hb).mpr (by omega), fun b hb => ?_⟩
    by_contra hgt
    exact Nat.lt_irrefl _ ((lt_iff_lt_rangeOf h hb).mp (Std.OrientedCmp.lt_of_not_isLE hgt))

theorem rangeOf_mono {a b : Tuple} (hab : (a.compare b).isLE = true) : q.rangeOf a ≤ q.rangeOf b := by
  rw [rangeOf_eq_countP h, rangeOf_eq_countP h]
  apply List.countP_mono_left
  intro x _ hx
  rw [Tuple.before_iff] at hx ⊢
  exact Std.TransCmp.lt_of_lt_of_isLE hx hab

/-- **A key in an earlier range is below a key in a later one.** -/
theorem lt_of_rangeOf_lt {a b : Tuple} (hab : q.rangeOf a < q.rangeOf b) : a.compare b = .lt :=
  Std.OrientedCmp.lt_of_not_isLE fun hba => Nat.not_lt.mpr (rangeOf_mono h hba) hab

theorem rangeOf_congr {a b : Tuple} (hab : a.compare b = .eq) : q.rangeOf a = q.rangeOf b :=
  Nat.le_antisymm (rangeOf_mono h (by rw [hab]; rfl))
    (rangeOf_mono h (by rw [Std.OrientedCmp.eq_symm hab]; rfl))

end

end Quantiles

/-! ### The partitioner -/

namespace Partitioner

variable {q : Quantiles} {ascending : Bool} {p : Partitioner}

theorem byRange_eq_ok_iff : byRange q ascending = .ok p ↔ KeysSorted q.boundaries ∧
    p = ⟨q.boundaries.length + 1, fun _ key _ => .ok [q.reducerOf ascending key]⟩ := by
  rw [← Quantiles.ascending_iff, byRange]
  split
  · rename_i hsorted
    rw [Except.ok.injEq, eq_comm]
    exact ⟨fun h => ⟨hsorted, h⟩, fun h => h.2⟩
  · rename_i hsorted
    exact ⟨nofun, fun h => absurd h.1 hsorted⟩

theorem sendsTo_byRange (h : byRange q ascending = .ok p) : p.SendsTo (q.reducerOf ascending) := by
  obtain ⟨hsorted, rfl⟩ := byRange_eq_ok_iff.mp h
  intro _ key _
  refine ⟨rfl, ?_⟩
  have hle := Quantiles.rangeOf_le hsorted key
  show q.reducerOf ascending key < q.boundaries.length + 1
  unfold Quantiles.reducerOf
  split <;> omega

end Partitioner

/-! ### Sorting range by range -/

/-- What is picked from a list once, among places that hold nothing. -/
theorem flatMap_ite_eq {α : Type} {rs : List Nat} (hnodup : rs.Nodup) {n : Nat} (hn : n ∈ rs) (l : List α) :
    (rs.flatMap fun r => if n = r then l else []) = l := by
  obtain ⟨before, after, rfl⟩ := List.append_of_mem hn
  rw [List.nodup_middle, List.nodup_cons, List.mem_append, not_or] at hnodup
  have hnone : ∀ part : List Nat, n ∉ part → (part.flatMap fun r => if n = r then l else []) = [] := by
    intro part hpart
    refine List.flatMap_eq_nil_iff.mpr fun r hr => if_neg ?_
    rintro rfl
    exact hpart hr
  rw [List.flatMap_append, List.flatMap_cons, if_pos rfl, hnone before hnodup.1.1, hnone after hnodup.1.2,
    List.nil_append, List.append_nil]

/-- **Sorting can be done class by class.** If keys of an earlier class are below keys of
a later one, the sorted items of the classes, one class after the other, are the
stable sort of all items. -/
theorem sortByKey_eq_flatMap {α : Type} (key : α → Tuple) {f : Tuple → Nat} {rs : List Nat}
    (hnodup : rs.Nodup) (hall : ∀ k, f k ∈ rs) (hcongr : ∀ {a b}, a.compare b = .eq → f a = f b)
    (hbelow : rs.Pairwise fun r r' => ∀ a b, f a = r → f b = r' → a.compare b = .lt) (l : List α) :
    (rs.flatMap fun r => sortByKey key (l.filter fun x => f (key x) == r)) = sortByKey key l := by
  have hclass : ∀ {r x}, x ∈ sortByKey key (l.filter fun x => f (key x) == r) → f (key x) = r := by
    intro r x hx
    simpa using (List.mem_filter.mp (List.mem_mergeSort.mp hx)).2
  refine eq_of_sorted_of_itemsWith key ?_ (pairwise_sortByKey key l) fun k => ?_
  · refine List.pairwise_flatMap.mpr ⟨fun r _ => pairwise_sortByKey key _, hbelow.imp fun {r r'} h x hx y hy => ?_⟩
    rw [h (key x) (key y) (hclass hx) (hclass hy)]
    rfl
  · -- the items of a key are all in the class of the key
    have hpick : ∀ r, itemsWith key k (l.filter fun x => f (key x) == r) =
        if f k = r then itemsWith key k l else [] := by
      intro r
      unfold itemsWith
      rw [List.filter_filter]
      split
      · rename_i hr
        refine List.filter_congr fun x _ => ?_
        by_cases hk : k.sameKey (key x) = true
        · have hfx : f (key x) = r := (hcongr (Tuple.sameKey_iff.mp hk)).symm.trans hr
          simp [hk, hfx]
        · simp [hk]
      · rename_i hr
        refine List.filter_eq_nil_iff.mpr fun x _ hx => hr ?_
        rw [Bool.and_eq_true, beq_iff_eq] at hx
        exact (hcongr (Tuple.sameKey_iff.mp hx.1)).trans hx.2
    calc itemsWith key k (rs.flatMap fun r => sortByKey key (l.filter fun x => f (key x) == r))
        = rs.flatMap fun r => itemsWith key k (sortByKey key (l.filter fun x => f (key x) == r)) :=
          List.filter_flatMap
      _ = rs.flatMap fun r => if f k = r then itemsWith key k l else [] :=
          List.flatMap_congr fun r _ => by rw [itemsWith_sortByKey, hpick]
      _ = itemsWith key k l := flatMap_ite_eq hnodup (hall k) _
      _ = itemsWith key k (sortByKey key l) := (itemsWith_sortByKey key k l).symm

/-- Rows of one input are sorted by their keys. -/
theorem Shuffle.sortRows_of_input {input : Nat} {rows : List ShuffledRow} (h : ∀ row ∈ rows, row.input = input) :
    Shuffle.sortRows rows = sortByKey ShuffledRow.key rows := by
  have horder : ∀ a ∈ rows, ∀ b ∈ rows,
      (Shuffle.rowOrder a b).isLE = ((id a).key.compare (id b).key).isLE := by
    intro a ha b hb
    rw [Shuffle.rowOrder, h a ha, h b hb]
    show ((a.key.compare b.key).then (Ord.compare input input)).isLE = (a.key.compare b.key).isLE
    cases a.key.compare b.key <;> simp [Ordering.then]
  calc Shuffle.sortRows rows = (Shuffle.sortRows rows).map id := (List.map_id _).symm
    _ = (rows.map id).mergeSort fun a b => (a.key.compare b.key).isLE := List.map_mergeSort horder
    _ = sortByKey ShuffledRow.key rows := by rw [List.map_id]; rfl

/-- The reducers in the order of their ranges. -/
def Quantiles.reducers (q : Quantiles) (ascending : Bool) : List Nat :=
  if ascending then List.range (q.boundaries.length + 1) else (List.range (q.boundaries.length + 1)).reverse

namespace Quantiles

variable {q : Quantiles} (h : KeysSorted q.boundaries) (ascending : Bool)

theorem nodup_reducers (q : Quantiles) (ascending : Bool) : (q.reducers ascending).Nodup := by
  unfold reducers
  split
  · exact List.nodup_range
  · exact List.nodup_reverse.mpr List.nodup_range

include h

theorem reducerOf_mem_reducers (key : Tuple) : q.reducerOf ascending key ∈ q.reducers ascending := by
  have hle := rangeOf_le h key
  unfold reducerOf reducers
  split
  · exact List.mem_range.mpr (by omega)
  · exact List.mem_reverse.mpr (List.mem_range.mpr (by omega))

/-- The keys of a reducer are below those of the reducers after it. -/
theorem pairwise_reducers : (q.reducers ascending).Pairwise fun r r' =>
    ∀ a b, q.reducerOf ascending a = r → q.reducerOf ascending b = r' → a.compare b = .lt := by
  unfold reducers
  cases ascending with
  | true =>
    refine List.pairwise_lt_range.imp fun {r r'} hlt a b ha hb => lt_of_rangeOf_lt h ?_
    rw [reducerOf, if_pos rfl] at ha hb
    omega
  | false =>
    refine List.pairwise_reverse.mpr (List.pairwise_lt_range.imp fun {r r'} hlt a b ha hb => lt_of_rangeOf_lt h ?_)
    rw [reducerOf, if_neg Bool.false_ne_true] at ha hb
    omega

end Quantiles

namespace Partitioner

/-- **Range partitioning gives a total order.** Bounds are accepted exactly if none is
above a later one. Then a key goes to the reducer that is numbered by the bounds
below it, the one range the key is in, or to the mirror image of that reducer if the
order descends; and the rows of one input are all taken, and the buckets, read from
the first range to the last, are the stable sort of the rows. -/
theorem byRange_totalOrder (q : Quantiles) (ascending : Bool) :
    ((∃ p, byRange q ascending = .ok p) ↔
      q.boundaries.Pairwise fun a b => (a.compare b).isLE = true) ∧
    ∀ p, byRange q ascending = .ok p →
      p.parallelism = q.boundaries.length + 1 ∧
      (∀ input key seq, ∃ i, i = (q.boundaries.countP fun b => b.compare key == .lt) ∧
        (∀ i', q.InRange key i' ↔ i' = i) ∧ i < p.parallelism ∧
        p.route input key seq = .ok [if ascending then i else p.parallelism - 1 - i]) ∧
      ∀ (input : Nat) (rows : List ShuffledRow), (∀ row ∈ rows, row.input = input) →
        let pushed := Shuffle.pushAll p .empty rows
        (pushed.2 = rows.map fun _ => .ok ()) ∧
        (if ascending then pushed.1.finish else pushed.1.finish.reverse).flatMap Prod.snd =
          sortByKey ShuffledRow.key rows := by
  refine ⟨⟨?_, fun hsorted => ⟨_, byRange_eq_ok_iff.mpr ⟨hsorted, rfl⟩⟩⟩, fun p hp => ?_⟩
  · rintro ⟨p, hp⟩
    exact (byRange_eq_ok_iff.mp hp).1
  · have hsends := sendsTo_byRange hp
    obtain ⟨hsorted, hfields⟩ := byRange_eq_ok_iff.mp hp
    have hparallel : p.parallelism = q.boundaries.length + 1 := by rw [hfields]
    refine ⟨hparallel, fun input key seq => ?_, fun input rows hrows => ⟨Shuffle.pushAll_of_sendsTo hsends _ rows, ?_⟩⟩
    · have hle := Quantiles.rangeOf_le hsorted key
      refine ⟨q.rangeOf key, Quantiles.rangeOf_eq_countP hsorted key, fun i' => Quantiles.inRange_iff hsorted,
        by omega, ?_⟩
      rw [(hsends input key seq).1, Quantiles.reducerOf, hparallel, Nat.add_sub_cancel]
    · have hbuckets : ∀ r, Shuffle.sortRows (Shuffle.routed p r .empty rows) =
          sortByKey ShuffledRow.key (rows.filter fun row => q.reducerOf ascending row.key == r) := by
        intro r
        rw [Shuffle.routed_of_sendsTo hsends]
        exact Shuffle.sortRows_of_input fun row hrow => hrows row (List.mem_of_mem_filter hrow)
      have hcongr : ∀ {a b : Tuple}, a.compare b = .eq → q.reducerOf ascending a = q.reducerOf ascending b := by
        intro a b hab
        rw [Quantiles.reducerOf, Quantiles.reducerOf, Quantiles.rangeOf_congr hsorted hab]
      calc (if ascending then (Shuffle.pushAll p .empty rows).1.finish
            else (Shuffle.pushAll p .empty rows).1.finish.reverse).flatMap Prod.snd
          = (q.reducers ascending).flatMap fun r => Shuffle.sortRows (Shuffle.routed p r .empty rows) := by
            rw [Shuffle.flatMap_finish_pushAll, hparallel]
            rfl
        _ = (q.reducers ascending).flatMap fun r =>
              sortByKey ShuffledRow.key (rows.filter fun row => q.reducerOf ascending row.key == r) := by
            simp only [hbuckets]
        _ = sortByKey ShuffledRow.key rows :=
            sortByKey_eq_flatMap ShuffledRow.key (q.nodup_reducers ascending)
              (Quantiles.reducerOf_mem_reducers hsorted ascending) hcongr
              (Quantiles.pairwise_reducers hsorted ascending) rows

/-- Two equal bounds and a descending order: the reducer between the two gets no rows,
and the rows of key 20 stay in order. -/
theorem byRange_totalOrder_equal_bounds :
    let q : Quantiles := ⟨[⟨[.long 10]⟩, ⟨[.long 20]⟩, ⟨[.long 20]⟩]⟩
    let row (key value : Int64) : ShuffledRow := ⟨⟨[.long key]⟩, 0, ⟨[.long value]⟩⟩
    let rows := [row 25 1, row 20 2, row 10 3, row 20 4]
    ∃ p, byRange q false = .ok p ∧ p.parallelism = 4 ∧ p.route 0 ⟨[.long 20]⟩ 0 = .ok [2] ∧
      (Shuffle.pushAll p .empty rows).1.finish.reverse.flatMap Prod.snd =
        [row 10 3, row 20 2, row 20 4, row 25 1] := by
  intro q row rows
  have hall := byRange_totalOrder q false
  obtain ⟨p, hp⟩ := hall.1.mpr (by decide)
  obtain ⟨hparallel, hroute, hsort⟩ := hall.2 p hp
  obtain ⟨i, hcount, _, _, hi⟩ := hroute 0 ⟨[.long 20]⟩ 0
  have hone : (q.boundaries.countP fun b => b.compare ⟨[.long 20]⟩ == .lt) = 1 := by decide
  refine ⟨p, hp, hparallel, ?_, (hsort 0 rows (by decide)).2.trans (by cbv)⟩
  rw [hi, hcount, hone, hparallel]
  rfl

end Partitioner
end MapReduce
