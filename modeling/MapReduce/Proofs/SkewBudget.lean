/-
# How many rows of a key a reducer of a skewed join receives

A key that is spread over `n` reducers gives them its rows by their place in the
whole input: the row at place `i` goes to the slot `i % n`. So the key's share of
a reducer is the number of its rows at the places of one slot (`slotCount`), and
this is not the number of its rows, divided by `n`, when other keys stand in
between. `withinBudget_iff_evenlyPlaced` says when no reducer receives more than
the budget, and `evenlyPlaced_of_grouped` that this is so where the rows of every
key stand together.

Key definitions: `slotCount`, `WithinBudget`, `EvenlyPlaced`, `Grouped`.
Key theorems: `withinBudget_iff_evenlyPlaced`, `exceeds_budget_of_alternating`.
-/
import MapReduce.Proofs.PartitionPlan
import MapReduce.Proofs.SkewedJoin

namespace MapReduce

/-- The rows of a key at the places of one slot out of `n`. -/
def slotCount (key : Tuple) (n slot : Nat) (rows : List Row) : Nat :=
  rows.zipIdx.countP (fun x => x.1.1.sameKey key && x.2 % n == slot)

/-- No bucket holds more than `budget` rows of one key. -/
def WithinBudget (budget : Nat) (buckets : List (Nat × List ShuffledRow)) : Prop :=
  ∀ b ∈ buckets, ∀ key, b.2.countP (fun x => x.key.sameKey key) ≤ budget

/-- No slot of a key that is spread has more than `budget` of its rows. -/
def EvenlyPlaced (budget : Nat) (m : PartitionMap) (rows : List Row) : Prop :=
  ∀ key e, m.find? key = some e → ∀ slot < e.partitions.toNat,
    slotCount key e.partitions.toNat slot rows ≤ budget

/-- The rows of each key stand together. -/
def Grouped (rows : List Row) : Prop :=
  ∀ key, ∃ before block after : List Row, rows = before ++ block ++ after ∧
    (∀ r ∈ block, r.1.sameKey key = true) ∧ ∀ r ∈ before ++ after, r.1.sameKey key = false

/-! ### The rows of a key on a reducer -/

theorem countP_routed (r : Router) (t : Nat) (key : Tuple) : ∀ (rows : List Row) (s : Shuffle),
    (Shuffle.routed (.bySkew r) t s (rows.map (sentAs 0))).countP (fun x => x.key.sameKey key) =
      (rows.zipIdx (s.sentOf 0)).countP (fun x => x.1.1.sameKey key && r.routeSkewed x.1.1 x.2 == t)
  | [], s => rfl
  | row :: rows, s => by
    have hsent : (s.push (.bySkew r) (sentAs 0 row)).1.sentOf 0 = s.sentOf 0 + 1 := by
      rw [Shuffle.sentOf_push]
      exact congrArg (s.sentOf 0 + ·) (if_pos ⟨rfl, rfl⟩)
    rw [List.map_cons, Shuffle.routed, List.countP_append, countP_routed r t key rows, hsent,
      (reached_skewed r s row).1, List.count_singleton, List.countP_replicate, List.zipIdx_cons,
      List.countP_cons, Nat.add_comm]
    have hkey : (sentAs 0 row).key = row.1 := rfl
    rw [hkey]
    cases row.1.sameKey key <;> cases r.routeSkewed row.1 (s.sentOf 0) == t <;> rfl

/-- The buckets are within a budget if what reaches each reducer is. -/
theorem withinBudget_finish_iff (p : Partitioner) (rows : List ShuffledRow) (budget : Nat) :
    WithinBudget budget (Shuffle.pushAll p .empty rows).1.finish ↔
      ∀ t < p.parallelism, ∀ key,
        (Shuffle.routed p t .empty rows).countP (fun x => x.key.sameKey key) ≤ budget := by
  have hsort : ∀ (l : List ShuffledRow) (key : Tuple),
      (Shuffle.sortRows l).countP (fun x => x.key.sameKey key) = l.countP (fun x => x.key.sameKey key) :=
    fun l key => (List.mergeSort_perm l _).countP_eq _
  unfold WithinBudget
  rw [Shuffle.finish_pushAll]
  constructor
  · intro h t ht key
    by_cases he : Shuffle.routed p t .empty rows = []
    · rw [he]
      exact Nat.zero_le _
    · rw [← hsort]
      exact h (t, Shuffle.sortRows (Shuffle.routed p t .empty rows))
        (List.mem_filterMap.mpr ⟨t, List.mem_range.mpr ht, if_neg he⟩) key
  · intro h b hb key
    obtain ⟨t, ht, hbt⟩ := List.mem_filterMap.mp hb
    split at hbt
    · cases hbt
    · cases hbt
      rw [hsort]
      exact h t (List.mem_range.mp ht) key

section

variable (r : Router) {key : Tuple} {e : PartitionEntry} (he : r.map.find? key = some e)
include he

theorem routeSkewed_of_sameKey {k : Tuple} (hk : k.sameKey key = true) (seq : Nat) :
    r.routeSkewed k seq = e.reducer (seq % e.partitions.toNat) r.parallelism := by
  have hf : r.map.find? k = some e := by
    rw [← he]
    exact r.map.spread.find?_congr (Tuple.sameKey_iff.mp hk)
  rw [Router.routeSkewed, hf]

/-- A reducer of a spread key receives the rows of its slot. -/
theorem countP_routed_slot (rows : List Row) {slot : Nat} (hs : slot < e.partitions.toNat) :
    (Shuffle.routed (.bySkew r) (e.reducer slot r.parallelism) .empty (rows.map (sentAs 0))).countP
      (fun x => x.key.sameKey key) = slotCount key e.partitions.toNat slot rows := by
  rw [countP_routed]
  refine List.countP_congr fun x _ => ?_
  simp only [Bool.and_eq_true, beq_iff_eq]
  refine and_congr_right fun hk => ?_
  rw [routeSkewed_of_sameKey r he hk]
  constructor
  · intro h
    exact PartitionEntry.reducer_inj (Router.fits he) (Nat.mod_lt _ (Router.fits he).1) hs h
  · intro h
    rw [h]

/-- Other reducers receive no row of it. -/
theorem countP_routed_eq_zero (rows : List Row) {t : Nat}
    (ht : ∀ slot < e.partitions.toNat, e.reducer slot r.parallelism ≠ t) :
    (Shuffle.routed (.bySkew r) t .empty (rows.map (sentAs 0))).countP (fun x => x.key.sameKey key) = 0 := by
  rw [countP_routed, List.countP_eq_zero]
  intro x _ hx
  simp only [Bool.and_eq_true, beq_iff_eq] at hx
  rw [routeSkewed_of_sameKey r he hx.1] at hx
  exact ht _ (Nat.mod_lt _ (Router.fits he).1) hx.2

end

theorem countP_routed_le (r : Router) (t : Nat) (key : Tuple) (rows : List Row) :
    (Shuffle.routed (.bySkew r) t .empty (rows.map (sentAs 0))).countP (fun x => x.key.sameKey key) ≤
      keyCount rows key := by
  have hfst : keyCount rows key =
      (rows.zipIdx (Shuffle.empty.sentOf 0)).countP (fun x => x.1.1.sameKey key) := by
    conv_lhs => rw [← List.zipIdx_map_fst (Shuffle.empty.sentOf 0) rows]
    rw [keyCount, List.countP_map]
    rfl
  rw [countP_routed, hfst]
  refine List.countP_mono_left fun x _ hx => ?_
  simp only [Bool.and_eq_true] at hx
  exact hx.1

/-! ### Rows that stand together -/

/-- The places of one slot in a stretch of places. -/
theorem countP_zipIdx_slot (n slot : Nat) : ∀ (rows : List Row) (start : Nat),
    (rows.zipIdx start).countP (fun x => x.2 % n == slot) =
      Nat.count (fun i => (start + i) % n = slot) rows.length
  | [], _ => rfl
  | row :: rows, start => by
    have hshift : ∀ i, (start + 1 + i) % n = slot ↔ (start + (i + 1)) % n = slot := fun i => by
      rw [Nat.add_assoc, Nat.add_comm 1 i]
    rw [List.zipIdx_cons, List.countP_cons, countP_zipIdx_slot n slot rows, List.length_cons,
      Nat.count_succ']
    simp only [hshift, beq_iff_eq, Nat.add_zero]

/-- A slot has at most its share of any stretch of places. -/
theorem count_slot_le {n slot : Nat} (hs : slot < n) (start len : Nat) :
    Nat.count (fun i => (start + i) % n = slot) len ≤ KeySample.ceilDiv len n := by
  have hn : 0 < n := by omega
  have hmod : ∀ i, (start + i) % n = slot ↔ i ≡ slot + (n - start % n) [MOD n] := by
    intro i
    have hstart : start % n < n := Nat.mod_lt _ hn
    have hsum : start + (slot + (n - start % n)) ≡ slot [MOD n] := by
      have hdiv := Nat.div_add_mod start n
      have heq : start + (slot + (n - start % n)) = slot + n * (start / n + 1) := by
        rw [Nat.mul_succ]
        omega
      rw [heq]
      exact Nat.add_mul_mod_self_left slot n _
    constructor
    · intro h
      refine Nat.ModEq.add_left_cancel' start (Nat.ModEq.trans ?_ hsum.symm)
      exact h.trans (Nat.mod_eq_of_lt hs).symm
    · intro h
      exact Eq.trans ((Nat.ModEq.add_left start h).trans hsum) (Nat.mod_eq_of_lt hs)
  simp only [hmod]
  rw [Nat.count_modEq_card len hn, KeySample.ceilDiv_eq_div_add hn]
  refine Nat.add_le_add_left ?_ _
  split <;> split <;> omega

/-- A key whose rows stand together has in every slot at most its share. -/
theorem slotCount_le_of_block {key : Tuple} {before block after : List Row} {n slot : Nat} (hs : slot < n)
    (hout : ∀ r ∈ before ++ after, r.1.sameKey key = false) :
    slotCount key n slot (before ++ block ++ after) ≤ KeySample.ceilDiv block.length n := by
  have hzero : ∀ (l : List Row) (start : Nat), (∀ r ∈ l, r.1.sameKey key = false) →
      (l.zipIdx start).countP (fun x => x.1.1.sameKey key && x.2 % n == slot) = 0 := by
    intro l start hl
    rw [List.countP_eq_zero]
    intro x hx
    rw [hl x.1 (List.fst_mem_of_mem_zipIdx hx), Bool.false_and]
    exact Bool.false_ne_true
  rw [slotCount, List.zipIdx_append, List.zipIdx_append, List.countP_append, List.countP_append,
    hzero before _ (fun r hr => hout r (List.mem_append_left _ hr)),
    hzero after _ (fun r hr => hout r (List.mem_append_right _ hr)), Nat.zero_add, Nat.add_zero]
  refine Nat.le_trans (List.countP_mono_left fun x _ hx => (Bool.and_eq_true_iff.mp hx).2) ?_
  rw [countP_zipIdx_slot]
  exact count_slot_le hs _ _

theorem keyCount_block {key : Tuple} {before block after : List Row}
    (hin : ∀ r ∈ block, r.1.sameKey key = true) (hout : ∀ r ∈ before ++ after, r.1.sameKey key = false) :
    keyCount (before ++ block ++ after) key = block.length := by
  have hzero : ∀ l : List Row, (∀ r ∈ l, r.1.sameKey key = false) → l.countP (fun r => r.1.sameKey key) = 0 :=
    fun l hl => List.countP_eq_zero.mpr fun r hr => by rw [hl r hr]; exact Bool.false_ne_true
  rw [keyCount, List.countP_append, List.countP_append,
    hzero before (fun r hr => hout r (List.mem_append_left _ hr)),
    hzero after (fun r hr => hout r (List.mem_append_right _ hr)), List.countP_eq_length.mpr hin]
  omega

/-- **Grouped rows are placed evenly**, as long as a key is not spread over the
greatest number of reducers there can be. -/
theorem evenlyPlaced_of_grouped {rows : List Row} {c : Settings} {inputs : Nat} {n : UInt32} {m : PartitionMap}
    (h : planSkewedJoin (sampleAll rows) c inputs n = .ok m) (hn : n.toNat < 2 ^ 32 - 1)
    (hg : Grouped rows) : EvenlyPlaced (rowBudget (sampleAll rows) c) m rows := by
  intro key e he slot hs
  obtain ⟨_, hparts⟩ := find?_plan_eq_some h he
  have hle := (planSkewedJoin_inv h).2.2 e (PartitionMap.mem_entries_of_find? he)
  have hceil : e.partitions.toNat = KeySample.ceilDiv (keyCount rows key) (rowBudget (sampleAll rows) c) := by
    have hmin := toNat_partitionsFor (rowBudget (sampleAll rows) c) (keyCount rows key)
    rw [← hparts] at hmin
    omega
  obtain ⟨before, block, after, hrows, hin, hout⟩ := hg key
  have hlen : keyCount rows key = block.length := by
    rw [hrows]
    exact keyCount_block hin hout
  calc slotCount key e.partitions.toNat slot rows
      ≤ KeySample.ceilDiv block.length e.partitions.toNat := by
        rw [hrows]
        exact slotCount_le_of_block hs hout
    _ ≤ rowBudget (sampleAll rows) c := by
        rw [KeySample.ceilDiv_le_iff (by omega), Nat.mul_comm, ← KeySample.ceilDiv_le_iff (rowBudget_pos _ _), ← hlen,
          ← hceil]

/-! ### The budget -/

theorem interleaved_skewed : ∀ rows : List Row, Interleaved rows [] (rows.map (sentAs 0))
  | [] => .nil
  | row :: rows => .skewed row (interleaved_skewed rows)

theorem withinBudget_iff {rows : List Row} {c : Settings} {inputs : Nat} {n : UInt32} {r : Router}
    (h : planSkewedJoin (sampleAll rows) c inputs n = .ok r.map) :
    WithinBudget (rowBudget (sampleAll rows) c)
        (Shuffle.pushAll (.bySkew r) .empty (rows.map (sentAs 0))).1.finish ↔
      EvenlyPlaced (rowBudget (sampleAll rows) c) r.map rows := by
  rw [withinBudget_finish_iff]
  constructor
  · intro hb key e he slot hs
    rw [← countP_routed_slot r he rows hs]
    exact hb _ (PartitionEntry.reducer_lt (Router.fits he) slot) key
  · intro hp t _ key
    cases he : r.map.find? key with
    | none => exact (countP_routed_le r t key rows).trans (keyCount_le_of_find?_eq_none h he)
    | some e =>
      by_cases ht : ∃ slot < e.partitions.toNat, e.reducer slot r.parallelism = t
      · obtain ⟨slot, hs, rfl⟩ := ht
        rw [countP_routed_slot r he rows hs]
        exact hp key e he slot hs
      · rw [countP_routed_eq_zero r he rows fun slot hs hst => ht ⟨slot, hs, hst⟩]
        exact Nat.zero_le _

/-- **When the reducers of a skewed join stay within their budget.** The rows are
all sampled, a plan is made, and they are sent in the same order. The plan can be
routed by and every push succeeds. Keys that are not spread are within the budget
always, and all keys are if and only if no slot of a spread key has more of its
rows than the budget; grouped rows are such rows. -/
theorem withinBudget_iff_evenlyPlaced {rows : List Row} {c : Settings} {n : UInt32} {m : PartitionMap}
    (h : planSkewedJoin (sampleAll rows) c 2 n = .ok m) :
    ∃ r, Router.ofMap m = .ok r ∧
      let done := Shuffle.pushAll (.bySkew r) .empty (rows.map (sentAs 0))
      done.2 = rows.map (fun _ => .ok ()) ∧
      (WithinBudget (rowBudget (sampleAll rows) c) done.1.finish ↔
        EvenlyPlaced (rowBudget (sampleAll rows) c) m rows) ∧
      (n.toNat < 2 ^ 32 - 1 → Grouped rows →
        WithinBudget (rowBudget (sampleAll rows) c) done.1.finish) := by
  refine ⟨⟨m, routingFault?_of_plan h⟩, Router.ofMap_of_sound _, ?_, withinBudget_iff h, ?_⟩
  · rw [pushAll_interleaved _ (interleaved_skewed rows), List.map_map]
    rfl
  · intro hn hg
    exact (withinBudget_iff h).mpr (evenlyPlaced_of_grouped h hn hg)

/-- Settings that allow one row of a key on a reducer. -/
def oneRowSettings : Settings := { Settings.default with maxTuples := 1 }

/-- A row of a numbered key. -/
def numberedRow (n : Int64) : Row := (⟨[.long n]⟩, ⟨[.long n]⟩)

/-- Two keys with two rows each, spread over two reducers each. -/
def twoSpreadKeys : PartitionMap := .ofEntries 2 [⟨⟨[.long 1]⟩, 2, 0⟩, ⟨⟨[.long 2]⟩, 2, 0⟩]

theorem withinBudget_of_two_groups :
    let rows := [1, 1, 2, 2].map numberedRow
    planSkewedJoin (sampleAll rows) oneRowSettings 2 2 = .ok twoSpreadKeys ∧ Grouped rows ∧
      ∃ r, Router.ofMap twoSpreadKeys = .ok r ∧ WithinBudget 1
        (Shuffle.pushAll (.bySkew r) .empty (rows.map (sentAs 0))).1.finish := by
  intro rows
  have hplan : planSkewedJoin (sampleAll rows) oneRowSettings 2 2 = .ok twoSpreadKeys := by decide +kernel
  have hbudget : rowBudget (sampleAll rows) oneRowSettings = 1 := by decide +kernel
  have hgrouped : Grouped rows := by
    intro key
    have hne : (⟨[.long 1]⟩ : Tuple).compare ⟨[.long 2]⟩ ≠ .eq := by decide
    cases h1 : (numberedRow 1).1.sameKey key with
    | true =>
      have h2 : (numberedRow 2).1.sameKey key = false := by
        refine Bool.eq_false_iff.mpr fun h2 => hne ?_
        exact Std.TransCmp.eq_trans (Tuple.sameKey_iff.mp h1) (Std.OrientedCmp.eq_symm (Tuple.sameKey_iff.mp h2))
      exact ⟨[], [1, 1].map numberedRow, [2, 2].map numberedRow, rfl, by simp [h1], by simp [h2]⟩
    | false =>
      cases h2 : (numberedRow 2).1.sameKey key with
      | true => exact ⟨[1, 1].map numberedRow, [2, 2].map numberedRow, [], rfl, by simp [h2], by simp [h1]⟩
      | false => exact ⟨rows, [], [], rfl, by simp, by simp [rows, h1, h2]⟩
  obtain ⟨r, hr, _, _, hwithin⟩ := withinBudget_iff_evenlyPlaced hplan
  rw [hbudget] at hwithin
  exact ⟨hplan, hgrouped, r, hr, hwithin (by decide) hgrouped⟩

/-- **Alternating keys exceed the budget.** Two keys take turns and each is spread
over two reducers, so that every row of the first goes to one of them and every
row of the second to the other. -/
theorem exceeds_budget_of_alternating :
    let rows := [1, 2, 1, 2].map numberedRow
    planSkewedJoin (sampleAll rows) oneRowSettings 2 2 = .ok twoSpreadKeys ∧
      rowBudget (sampleAll rows) oneRowSettings = 1 ∧
      ∃ r, Router.ofMap twoSpreadKeys = .ok r ∧ ¬ WithinBudget 1
        (Shuffle.pushAll (.bySkew r) .empty (rows.map (sentAs 0))).1.finish := by
  intro rows
  refine ⟨by decide +kernel, by decide +kernel, ⟨twoSpreadKeys, by decide⟩, Router.ofMap_of_sound _, ?_⟩
  rw [withinBudget_finish_iff]
  intro h
  have hkey := h 0 (by decide) ⟨[.long 1]⟩
  revert hkey
  decide +kernel

end MapReduce
