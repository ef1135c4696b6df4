/-
# A skewed join is a plain join

The reducers of a skewed join pair, each in its own bucket, the rows of the two
inputs whose keys are equal. Together they give every pair of the plain join,
and each as often: a row of the skewed input lands on one reducer, and every row
of the other input with an equal key stands there exactly once.

Pairs are counted. The count of a pair in a bucket is the product of its rows'
counts there (`count_joinRows`); over all buckets the skewed row is counted as
often as it was sent (`sum_count_routed`), and wherever it is counted the other
row is counted as often as it was sent (`count_routed_probe`).

Key definitions: `joinRows`, `joinBuckets`, `Interleaved`.
Key theorems: `joinBuckets_perm_joinRows`.
-/
import MapReduce.Proofs.Router
import MapReduce.Proofs.Shuffle
import MapReduce.Task

namespace MapReduce

/-- The plain join: every pair of rows, one of each list, with equal keys. -/
def joinRows (left right : List Row) : List (Row × Row) :=
  left.flatMap (fun a => (right.filter (fun b => a.1.sameKey b.1)).map (fun b => (a, b)))

/-- The rows of one input. -/
def rowsOf (input : Nat) (rows : List ShuffledRow) : List Row :=
  (rows.filter (fun x => x.input == input)).map (fun x => (x.key, x.value))

/-- The join of the two inputs in a bucket. -/
def joinBucket (rows : List ShuffledRow) : List (Row × Row) := joinRows (rowsOf 0 rows) (rowsOf 1 rows)

/-- What all reducers of a join give, one after the other. -/
def joinBuckets (buckets : List (Nat × List ShuffledRow)) : List (Row × Row) :=
  buckets.flatMap (fun b => joinBucket b.2)

/-- The rows are those of two inputs, sent in some order that keeps the order of
each. -/
inductive Interleaved : List Row → List Row → List ShuffledRow → Prop where
  | nil : Interleaved [] [] []
  | skewed {left right : List Row} {rows : List ShuffledRow} (row : Row) :
      Interleaved left right rows → Interleaved (row :: left) right (⟨row.1, 0, row.2⟩ :: rows)
  | probe {left right : List Row} {rows : List ShuffledRow} (row : Row) :
      Interleaved left right rows → Interleaved left (row :: right) (⟨row.1, 1, row.2⟩ :: rows)

/-- A row as it is sent. -/
def sentAs (input : Nat) (row : Row) : ShuffledRow := ⟨row.1, input, row.2⟩

/-! ### Counting pairs -/

theorem count_joinRows (a b : Row) (right : List Row) : ∀ left : List Row,
    (joinRows left right).count (a, b) = if a.1.sameKey b.1 then left.count a * right.count b else 0
  | [] => by simp [joinRows]
  | c :: left => by
    have hc : joinRows (c :: left) right =
        (right.filter (fun b => c.1.sameKey b.1)).map (fun b => (c, b)) ++ joinRows left right := rfl
    rw [hc, List.count_append, count_joinRows a b right left]
    by_cases hac : a = c
    · subst hac
      rw [List.count_map_of_injective _ _ (Prod.mk_right_injective a) b, List.count_cons_self]
      by_cases hk : a.1.sameKey b.1
      · have hb : (right.filter (fun b => a.1.sameKey b.1)).count b = right.count b :=
          List.count_filter (p := fun b : Row => a.1.sameKey b.1) hk
        rw [hb, if_pos hk, if_pos hk]
        ring
      · rw [if_neg hk, if_neg hk, List.count_eq_zero_of_not_mem]
        rw [List.mem_filter]
        exact fun h => hk h.2
    · rw [List.count_cons_of_ne (Ne.symm hac), List.count_eq_zero_of_not_mem, Nat.zero_add]
      rw [List.mem_map]
      rintro ⟨x, _, hx⟩
      exact hac (congrArg Prod.fst hx).symm

theorem count_rowsOf (i : Nat) (a : Row) : ∀ rows : List ShuffledRow,
    (rowsOf i rows).count a = rows.count (sentAs i a)
  | [] => rfl
  | x :: rows => by
    have ih := count_rowsOf i a rows
    have hx : rowsOf i (x :: rows) =
        if x.input = i then (x.key, x.value) :: rowsOf i rows else rowsOf i rows := by
      by_cases h : x.input = i <;> simp [rowsOf, h]
    obtain ⟨k, j, v⟩ := x
    obtain ⟨k', v'⟩ := a
    rw [hx]
    simp only [sentAs] at ih ⊢
    by_cases h : j = i
    · subst h
      simp only [if_true, List.count_cons, ih, beq_iff_eq, Prod.mk.injEq, ShuffledRow.mk.injEq, true_and]
    · rw [if_neg h, ih, List.count_cons_of_ne]
      intro he
      exact h (congrArg ShuffledRow.input he)

theorem mem_rowsOf_iff {i : Nat} {a : Row} {rows : List ShuffledRow} :
    a ∈ rowsOf i rows ↔ sentAs i a ∈ rows := by
  rw [← List.count_pos_iff, count_rowsOf, List.count_pos_iff]

theorem count_joinBucket (a b : Row) (rows : List ShuffledRow) : (joinBucket rows).count (a, b) =
    if a.1.sameKey b.1 then rows.count (sentAs 0 a) * rows.count (sentAs 1 b) else 0 := by
  rw [joinBucket, count_joinRows, count_rowsOf, count_rowsOf]

/-- The pairs of all buckets, counted reducer by reducer. -/
theorem count_joinBuckets_finish (p : Partitioner) (rows : List ShuffledRow) (a b : Row) :
    (joinBuckets (Shuffle.pushAll p .empty rows).1.finish).count (a, b) =
      ∑ r ∈ Finset.range p.parallelism, (joinBucket (Shuffle.routed p r .empty rows)).count (a, b) := by
  have hsort : ∀ l, (joinBucket (Shuffle.sortRows l)).count (a, b) = (joinBucket l).count (a, b) := by
    intro l
    have hl : (Shuffle.sortRows l).Perm l := List.mergeSort_perm l _
    rw [count_joinBucket, count_joinBucket, hl.count_eq, hl.count_eq]
  rw [Shuffle.finish_pushAll, joinBuckets, List.count_flatMap]
  change _ = ((List.range p.parallelism).map _).sum
  induction List.range p.parallelism with
  | nil => rfl
  | cons r rs ih =>
    rw [List.map_cons, List.sum_cons, ← ih, List.filterMap_cons]
    by_cases he : Shuffle.routed p r .empty rows = []
    · simp [he, joinBucket, rowsOf, joinRows]
    · simp [he, hsort]

/-! ### Where the rows of a skewed join are counted -/

section

variable (r : Router) (s : Shuffle) (row : Row)

theorem reached_skewed :
    s.reached (.bySkew r) (sentAs 0 row) = [r.routeSkewed row.1 (s.sentOf 0)] ∧
      (s.push (.bySkew r) (sentAs 0 row)).2 = .ok () := by
  refine Shuffle.reached_of_route rfl fun t ht => ?_
  rw [List.mem_singleton.mp ht]
  exact Router.lt_of_mem_routeProbe (r.routeSkewed_mem_routeProbe row.1 _)

theorem reached_probe :
    s.reached (.bySkew r) (sentAs 1 row) = r.routeProbe row.1 ∧
      (s.push (.bySkew r) (sentAs 1 row)).2 = .ok () :=
  Shuffle.reached_of_route rfl fun _ ht => Router.lt_of_mem_routeProbe ht

end

/-- Every push of the two inputs succeeds. -/
theorem pushAll_interleaved (r : Router) {left right : List Row} {rows : List ShuffledRow}
    (h : Interleaved left right rows) (s : Shuffle) :
    (Shuffle.pushAll (.bySkew r) s rows).2 = rows.map (fun _ => .ok ()) := by
  induction h generalizing s with
  | nil => rfl
  | skewed row _ ih =>
    rw [Shuffle.pushAll, List.map_cons, ih]
    exact congrArg (· :: _) (reached_skewed r s row).2
  | probe row _ ih =>
    rw [Shuffle.pushAll, List.map_cons, ih]
    exact congrArg (· :: _) (reached_probe r s row).2

theorem rowsOf_interleaved {left right : List Row} {rows : List ShuffledRow}
    (h : Interleaved left right rows) : rowsOf 0 rows = left ∧ rowsOf 1 rows = right := by
  induction h with
  | nil => exact ⟨rfl, rfl⟩
  | skewed row _ ih => exact ⟨congrArg (row :: ·) ih.1, ih.2⟩
  | probe row _ ih => exact ⟨ih.1, congrArg (row :: ·) ih.2⟩

/-- A row of the other input stands once, for each time it was sent, on every
reducer of its key. -/
theorem count_routed_probe (r : Router) (b : Row) (t : Nat) : ∀ (s : Shuffle) (rows : List ShuffledRow),
    (Shuffle.routed (.bySkew r) t s rows).count (sentAs 1 b) =
      if t ∈ r.routeProbe b.1 then rows.count (sentAs 1 b) else 0
  | s, [] => by simp [Shuffle.routed]
  | s, x :: rows => by
    rw [Shuffle.routed, List.count_append, count_routed_probe r b t _ rows, List.count_replicate]
    by_cases hx : x = sentAs 1 b
    · subst hx
      rw [(reached_probe r s b).1, List.count_cons_self]
      by_cases ht : t ∈ r.routeProbe b.1
      · simp [ht, (r.nodup_routeProbe b.1).count, Nat.add_comm]
      · simp [ht, (r.nodup_routeProbe b.1).count]
    · simp [hx, List.count_cons_of_ne hx]

/-- A row of the skewed input stands only on reducers of its key. -/
theorem mem_routeProbe_of_mem_routed (r : Router) {a : Row} {t : Nat} : ∀ {s : Shuffle}
    {rows : List ShuffledRow}, sentAs 0 a ∈ Shuffle.routed (.bySkew r) t s rows → t ∈ r.routeProbe a.1
  | s, x :: rows, h => by
    rw [Shuffle.routed, List.mem_append] at h
    rcases h with h | h
    · obtain ⟨hne, rfl⟩ := List.mem_replicate.mp h
      have ht : t ∈ s.reached (.bySkew r) (sentAs 0 a) := List.count_pos_iff.mp (Nat.pos_of_ne_zero hne)
      rw [(reached_skewed r s a).1] at ht
      rw [List.mem_singleton.mp ht]
      exact r.routeSkewed_mem_routeProbe a.1 _
    · exact mem_routeProbe_of_mem_routed r h

/-- A row of the skewed input stands on one reducer for each time it was sent. -/
theorem sum_count_routed (r : Router) (a : Row) : ∀ (s : Shuffle) (rows : List ShuffledRow),
    ∑ t ∈ Finset.range r.parallelism, (Shuffle.routed (.bySkew r) t s rows).count (sentAs 0 a) =
      rows.count (sentAs 0 a)
  | s, [] => by simp [Shuffle.routed]
  | s, x :: rows => by
    have ih := sum_count_routed r a (s.push (.bySkew r) x).1 rows
    simp only [Shuffle.routed, List.count_append, Finset.sum_add_distrib, ih, List.count_replicate]
    by_cases hx : x = sentAs 0 a
    · subst hx
      have ht : r.routeSkewed a.1 (s.sentOf 0) < r.parallelism :=
        Router.lt_of_mem_routeProbe (r.routeSkewed_mem_routeProbe a.1 _)
      simp [(reached_skewed r s a).1, List.count_singleton, ht, Nat.add_comm]
    · simp [hx, List.count_cons_of_ne hx]

/-! ### The join -/

/-- The pairs of two rows with equal keys, over all reducers. -/
theorem sum_count_pairs (r : Router) {a b : Row} (rows : List ShuffledRow)
    (hk : a.1.compare b.1 = .eq)
    (hh : sentAs 0 a ∈ rows → sentAs 1 b ∈ rows → a.1.hash = b.1.hash) :
    ∑ t ∈ Finset.range r.parallelism, (Shuffle.routed (.bySkew r) t .empty rows).count (sentAs 0 a) *
        (Shuffle.routed (.bySkew r) t .empty rows).count (sentAs 1 b) =
      rows.count (sentAs 0 a) * rows.count (sentAs 1 b) := by
  rw [← sum_count_routed r a .empty rows, Finset.sum_mul]
  refine Finset.sum_congr rfl fun t _ => ?_
  rw [count_routed_probe]
  by_cases ht : t ∈ r.routeProbe b.1
  · rw [if_pos ht]
  -- where the other row is missing, the skewed row is missing too, or one of them was never sent
  rw [if_neg ht, Nat.mul_zero]
  by_cases ha : sentAs 0 a ∈ Shuffle.routed (.bySkew r) t .empty rows
  · have hb : sentAs 1 b ∉ rows := by
      intro hb
      rw [← r.routeProbe_congr hk (hh (Shuffle.mem_of_mem_routed ha) hb)] at ht
      exact ht (mem_routeProbe_of_mem_routed r ha)
    rw [List.count_eq_zero_of_not_mem hb, Nat.mul_zero]
  · rw [List.count_eq_zero_of_not_mem ha, Nat.zero_mul]

/-- **A skewed join is a plain join.** The rows of two inputs are sent in any
order through the router of any map that is accepted. Every push succeeds, and
the reducers' pairs are the pairs of the plain join, each as often, provided
that equal keys of the two inputs have one hash. -/
theorem joinBuckets_perm_joinRows {m : PartitionMap} {p : Partitioner}
    (hp : (Router.ofMap m).map Partitioner.bySkew = .ok p)
    {left right : List Row} {rows : List ShuffledRow} (hi : Interleaved left right rows)
    (hh : ∀ a ∈ left, ∀ b ∈ right, a.1.compare b.1 = .eq → a.1.hash = b.1.hash) :
    (Shuffle.pushAll p .empty rows).2 = rows.map (fun _ => .ok ()) ∧
      (joinBuckets (Shuffle.pushAll p .empty rows).1.finish).Perm (joinRows left right) := by
  obtain ⟨r, rfl⟩ : ∃ r, p = .bySkew r := by
    cases hr : Router.ofMap m with
    | error e => rw [hr] at hp; cases hp
    | ok r => rw [hr] at hp; cases hp; exact ⟨r, rfl⟩
  refine ⟨pushAll_interleaved r hi .empty, List.perm_iff_count.mpr ?_⟩
  rintro ⟨a, b⟩
  obtain ⟨rfl, rfl⟩ := rowsOf_interleaved hi
  rw [count_joinBuckets_finish, count_joinRows, count_rowsOf, count_rowsOf]
  simp only [count_joinBucket]
  by_cases hk : a.1.sameKey b.1
  · simp only [if_pos hk]
    have hk' : a.1.compare b.1 = .eq := by simpa [Tuple.sameKey] using hk
    refine sum_count_pairs r rows hk' fun ha hb => ?_
    exact hh a (mem_rowsOf_iff.mpr ha) b (mem_rowsOf_iff.mpr hb) hk'
  · simp [hk]

/-- A key that is spread over the last and the first of three reducers. -/
def wrappedMap : PartitionMap := .ofEntries 3 [⟨⟨[.long 7]⟩, 2, 2⟩]

theorem wrappedMap_sound : wrappedMap.routingFault? = none := by decide

/-- Three rows of the spread key and one of another meet two rows of the other
input. -/
theorem joinBuckets_perm_joinRows_wrapped :
    let hot : Tuple := ⟨[.long 7]⟩
    let cold : Tuple := ⟨[.text "a"]⟩
    let value : Int64 → Tuple := fun n => ⟨[.long n]⟩
    let rows : List ShuffledRow := [⟨hot, 0, value 1⟩, ⟨hot, 1, value 5⟩, ⟨cold, 0, value 2⟩,
      ⟨hot, 0, value 3⟩, ⟨cold, 1, value 6⟩, ⟨hot, 0, value 4⟩]
    let done := Shuffle.pushAll (.bySkew ⟨wrappedMap, wrappedMap_sound⟩) .empty rows
    done.2 = rows.map (fun _ => .ok ()) ∧
      (joinBuckets done.1.finish).Perm (joinRows
        [(hot, value 1), (cold, value 2), (hot, value 3), (hot, value 4)]
        [(hot, value 5), (cold, value 6)]) := by
  intro hot cold value rows done
  refine joinBuckets_perm_joinRows (m := wrappedMap) ?_ ?_ ?_
  · rw [Router.ofMap_of_sound wrappedMap_sound]
    rfl
  · exact .skewed _ (.probe _ (.skewed _ (.skewed _ (.probe _ (.skewed _ .nil)))))
  · intro a ha b hb hk
    have hne : hot.compare cold ≠ .eq ∧ cold.compare hot ≠ .eq := by decide
    have hkey : (a.1 = hot ∨ a.1 = cold) ∧ (b.1 = hot ∨ b.1 = cold) := by
      simp only [List.mem_cons, List.not_mem_nil, or_false] at ha hb
      refine ⟨?_, ?_⟩
      · rcases ha with rfl | rfl | rfl | rfl <;> simp
      · rcases hb with rfl | rfl <;> simp
    rcases hkey with ⟨h | h, h' | h'⟩
    · rw [h, h']
    · rw [h, h'] at hk; exact absurd hk hne.1
    · rw [h, h'] at hk; exact absurd hk hne.2
    · rw [h, h']

end MapReduce
