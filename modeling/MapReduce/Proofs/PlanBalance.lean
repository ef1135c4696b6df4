/-
# The plan of a skewed join is exact and balanced

A plan spreads exactly the keys that are estimated to have more rows than a reducer
may receive, each over as few reducers as hold its rows, and the spread keys take
their reducers one after the other. So the windows of all keys, laid end to end, are
one walk around the reducers that starts at the first
(`flatMap_reducers_spreadKeys`): a key begins where the slots of the smaller keys end
(`firstReducer_of_split`), and no two reducers differ by more than one in the number
of slots they get (`load_plannedMap`), also if a key is spread wider than there are
reducers.

Key definitions: `slotTotal`, `PartitionMap.load`, `PartitionMap.slotsBefore`.
Key theorems: `flatMap_reducers_spreadKeys`, `firstReducer_of_split`,
`load_plannedMap`, `PartitionMap.generate_exact`.
-/
import MapReduce.Proofs.PartitionPlan

namespace MapReduce

/-- The slots of entries, all together. -/
def slotTotal (es : List PartitionEntry) : Nat := (es.map fun e => e.partitions.toNat).sum

namespace PartitionMap

/-- How many slots, of all keys, are on a reducer. -/
def load (m : PartitionMap) (r : Nat) : Nat :=
  (m.entries.map fun e => (e.reducers m.parallelism.toNat).count r).sum

/-- The slots of all keys before a key. -/
def slotsBefore (m : PartitionMap) (k : Tuple) : Nat :=
  slotTotal (m.entries.filter fun e => e.key.before k)

end PartitionMap

/-! ### The walk around the reducers -/

theorem PartitionEntry.reducers_eq (e : PartitionEntry) {p : Nat} (hp : 0 < p) :
    e.reducers p = (List.range e.partitions.toNat).map fun i => (e.firstReducer.toNat + i) % p := by
  refine List.map_congr_left fun slot hslot => ?_
  have hlt := List.mem_range.mp hslot
  rw [reducer, Nat.max_eq_right (by omega), Nat.max_eq_right hp, Nat.mod_eq_of_lt hlt]

section

variable {b p : Nat}

theorem slotTotal_cons (e : PartitionEntry) (es : List PartitionEntry) :
    slotTotal (e :: es) = e.partitions.toNat + slotTotal es := by
  simp [slotTotal]

variable (hp : p < 2 ^ 32)
include hp

/-- **The windows of all keys are one walk around the reducers**, from the cursor
on. -/
theorem flatMap_reducers_spreadKeys : ∀ (keys : List (Tuple × Nat)) {cursor : Nat}, cursor < p →
    (spreadKeys b p cursor keys).flatMap (fun e => e.reducers p) =
      (List.range (slotTotal (spreadKeys b p cursor keys))).map fun i => (cursor + i) % p
  | [], _, _ => rfl
  | (key, rows) :: rest, cursor, hc => by
    have hpos : 0 < p := by omega
    by_cases hb : KeySample.ceilDiv rows b ≤ 1
    · rw [spreadKeys_of_le key rest hb]
      exact flatMap_reducers_spreadKeys rest hc
    · have hfirst : (UInt32.ofNat cursor).toNat = cursor :=
        UInt32.toNat_ofNat_of_lt' (show cursor < 2 ^ 32 by omega)
      rw [spreadKeys_of_gt key rest hb, List.flatMap_cons, slotTotal_cons,
        flatMap_reducers_spreadKeys rest (Nat.mod_lt _ hpos), PartitionEntry.reducers_eq _ hpos,
        List.range_add, List.map_append, List.map_map, hfirst]
      refine congrArg _ (List.map_congr_left fun i _ => ?_)
      show ((cursor + (partitionsFor b rows).toNat) % p + i) % p = (cursor + ((partitionsFor b rows).toNat + i)) % p
      rw [Nat.mod_add_mod, Nat.add_assoc]

/-- **A key begins where the slots of the keys before it end.** -/
theorem firstReducer_of_split : ∀ {keys : List (Tuple × Nat)} {cursor : Nat}
    {pre post : List PartitionEntry} {e : PartitionEntry}, cursor < p →
    spreadKeys b p cursor keys = pre ++ e :: post →
    e.firstReducer.toNat = (cursor + slotTotal pre) % p
  | [], _, pre, post, e, _, h => by
    rw [spreadKeys] at h
    exact absurd h.symm (List.append_ne_nil_of_right_ne_nil pre (List.cons_ne_nil e post))
  | (key, rows) :: rest, cursor, pre, post, e, hc, h => by
    by_cases hb : KeySample.ceilDiv rows b ≤ 1
    · rw [spreadKeys_of_le key rest hb] at h
      exact firstReducer_of_split hc h
    · rw [spreadKeys_of_gt key rest hb] at h
      cases pre with
      | nil =>
        obtain ⟨rfl, _⟩ := List.cons.inj h
        have hfirst : (UInt32.ofNat cursor).toNat = cursor :=
          UInt32.toNat_ofNat_of_lt' (show cursor < 2 ^ 32 by omega)
        rw [hfirst]
        exact (Nat.mod_eq_of_lt hc).symm
      | cons x pre =>
        obtain ⟨rfl, hrest⟩ := List.cons.inj h
        rw [firstReducer_of_split (Nat.mod_lt _ (by omega)) hrest, slotTotal_cons, Nat.mod_add_mod,
          Nat.add_assoc]

end

/-- The numbers below `n` that leave a rest below `p`. -/
theorem count_map_mod {p r : Nat} (hr : r < p) (n : Nat) :
    ((List.range n).map fun i => (0 + i) % p).count r = n / p + if r < n % p then 1 else 0 := by
  have hcount : ((List.range n).map fun i => (0 + i) % p).count r = n.count (· ≡ r [MOD p]) := by
    rw [List.count, List.countP_map, Nat.count]
    refine List.countP_congr fun i _ => ?_
    simp [Nat.ModEq, Nat.mod_eq_of_lt hr]
  rw [hcount, Nat.count_modEq_card n (by omega), Nat.mod_eq_of_lt hr]

/-! ### The map of a plan -/

section

variable {s : KeySample} {b : Nat} {n : UInt32} {k : Tuple} {e : PartitionEntry}

/-- Of entries in the order of their keys, those before a key stand before its
entry. -/
theorem filter_before_of_split {pre post : List PartitionEntry}
    (h : (pre ++ e :: post).Pairwise fun x y => x.key.compare y.key = .lt) (hk : k.compare e.key = .eq) :
    (pre ++ e :: post).filter (fun x => x.key.before k) = pre := by
  obtain ⟨_, hpost, hpre⟩ := List.pairwise_append.mp h
  have hcompare : ∀ x : Tuple, x.before k = (x.compare e.key == .lt) := fun x => by
    rw [Tuple.before, Std.TransCmp.congr_right hk]
  have hbefore : ∀ x ∈ pre, x.key.before k = true := fun x hx => by
    rw [hcompare, hpre x hx e List.mem_cons_self]
    rfl
  have hafter : ∀ x ∈ e :: post, ¬ x.key.before k = true := fun x hx => by
    rw [hcompare, beq_iff_eq]
    rcases List.mem_cons.mp hx with heq | hx
    · have hself : e.key.compare e.key = .eq := Std.ReflCmp.compare_self
      rw [heq, hself]
      exact nofun
    · exact fun hlt => Std.OrientedCmp.not_lt_of_lt ((List.pairwise_cons.mp hpost).1 x hx) hlt
  rw [List.filter_append, List.filter_eq_self.mpr hbefore, List.filter_eq_nil_iff.mpr hafter, List.append_nil]

variable (hn : 0 < n.toNat)
include hn

/-- A key begins where the slots of the smaller keys end. -/
theorem firstReducer_of_find?_plannedMap (h : (plannedMap s b n).find? k = some e) :
    e.firstReducer.toNat = (plannedMap s b n).slotsBefore k % n.toNat := by
  obtain ⟨hmem, hk⟩ := find?_plannedMap_eq_some_iff.mp h
  obtain ⟨pre, post, hsplit⟩ := List.append_of_mem hmem
  have hsorted := pairwise_spreadKeys_estimates s b n
  rw [PartitionMap.slotsBefore, entries_plannedMap, firstReducer_of_split n.toNat_lt hn hsplit, Nat.zero_add]
  rw [hsplit] at hsorted ⊢
  rw [filter_before_of_split hsorted hk]

/-- The slots on a reducer: each has its share of all of them, rounded down or
up. -/
theorem load_plannedMap {r : Nat} (hr : r < n.toNat) :
    (plannedMap s b n).load r = slotTotal (plannedMap s b n).entries / n.toNat +
      if r < slotTotal (plannedMap s b n).entries % n.toNat then 1 else 0 := by
  rw [← count_map_mod hr, entries_plannedMap, ← flatMap_reducers_spreadKeys n.toNat_lt s.estimates hn,
    List.count_flatMap, PartitionMap.load, entries_plannedMap, parallelism_plannedMap]
  rfl

/-- **No two reducers differ by more than one slot.** -/
theorem load_plannedMap_le {r r' : Nat} (hr : r < n.toNat) (hr' : r' < n.toNat) :
    (plannedMap s b n).load r ≤ (plannedMap s b n).load r' + 1 := by
  rw [load_plannedMap hn hr, load_plannedMap hn hr']
  split <;> split <;> omega

end

/-- **A plan is exact and balanced.** From any sample, with valid settings and at
least one reducer, a map is made. A key has an entry exactly if it was sampled and
is estimated to have more rows than one reducer may receive; it is spread over as
many reducers as hold its rows, up to the greatest number there is, and over two at
least; it begins where the slots of the smaller keys end; and no two reducers differ
by more than one in the number of slots they get. If the plan is accepted for fewer
reducers than that greatest number, no reducer gets more than its budget of the
estimated rows of a key. -/
theorem PartitionMap.generate_exact (s : KeySample) {c : Settings} (hc : c.validate = .ok ()) {n : UInt32}
    (hn : 1 ≤ n.toNat) :
    let maxRows := max 1 (min c.maxTuples (c.keyBytes / s.averageBytes))
    ∃ m, PartitionMap.generate s c n = .ok m ∧
      (∀ k, (∃ e, m.find? k = some e) ↔ (s.counts.find? k).isSome = true ∧ maxRows < s.estimate k) ∧
      (∀ k e, m.find? k = some e →
        e.partitions.toNat = min (s.estimate k ⌈/⌉ maxRows) (2 ^ 32 - 1) ∧ 2 ≤ e.partitions.toNat ∧
        e.firstReducer.toNat = m.slotsBefore k % n.toNat ∧ e.firstReducer.toNat < n.toNat) ∧
      (∀ r < n.toNat, ∀ r' < n.toNat, m.load r ≤ m.load r' + 1) ∧
      (∀ inputs, planSkewedJoin s c inputs n = .ok m → n.toNat < 2 ^ 32 - 1 →
        ∀ k e, m.find? k = some e → s.estimate k ⌈/⌉ e.partitions.toNat ≤ maxRows) := by
  intro maxRows
  have hbudget : rowBudget s c = maxRows := by
    rw [rowBudget, Nat.min_comm]
  have hpos : 0 < maxRows := Nat.le_max_left 1 _
  refine ⟨_, generate_eq_ok hc hn, ?_⟩
  rw [hbudget]
  have hentry : ∀ k e, (plannedMap s maxRows n).find? k = some e →
      maxRows < s.estimate k ∧ e.partitions = partitionsFor maxRows (s.estimate k) := fun k e he =>
    ⟨((exists_find?_plannedMap_iff hn hpos).mp ⟨e, he⟩).2, partitions_of_find?_plannedMap hn he⟩
  have hparts : ∀ k e, (plannedMap s maxRows n).find? k = some e →
      e.partitions.toNat = min (s.estimate k ⌈/⌉ maxRows) (2 ^ 32 - 1) := fun k e he => by
    rw [(hentry k e he).2, toNat_partitionsFor, KeySample.ceilDiv_eq]
  refine ⟨fun k => exists_find?_plannedMap_iff hn hpos, fun k e he => ?_, fun r hr r' hr' => ?_,
    fun inputs hplan hsmall k e he => ?_⟩
  · have hfirst := firstReducer_of_find?_plannedMap hn he
    refine ⟨hparts k e he, ?_, hfirst, hfirst ▸ Nat.mod_lt _ hn⟩
    rw [(hentry k e he).2]
    exact two_le_partitionsFor ((KeySample.one_lt_ceilDiv_iff hpos).mpr (hentry k e he).1)
  · exact load_plannedMap_le hn hr hr'
  · -- the spread is within the reducers, so it was not cut down to the greatest number
    have hle := (planSkewedJoin_inv hplan).2.2 e (PartitionMap.mem_entries_of_find? he)
    have hceil : s.estimate k ⌈/⌉ maxRows ≤ e.partitions.toNat := by
      have := hparts k e he
      omega
    have hspread : 0 < e.partitions.toNat := by
      have := two_le_partitionsFor ((KeySample.one_lt_ceilDiv_iff hpos).mpr (hentry k e he).1)
      rw [(hentry k e he).2]
      omega
    rw [ceilDiv_le_iff_le_mul hspread, Nat.mul_comm, ← ceilDiv_le_iff_le_mul hpos]
    exact hceil

/-- A sample of five rows of one key and two of another. -/
def fiveAndTwo : KeySample := sampleAll (([1, 1, 1, 1, 1, 2, 2] : List Int64).map fun n => (⟨[.long n]⟩, ⟨[]⟩))

/-- With one row of a key on a reducer, the first key goes around three reducers and
on, and the second begins at the last of them; five reducers are enough for both. -/
theorem PartitionMap.generate_exact_fiveAndTwo :
    let c : Settings := { Settings.default with maxTuples := 1 }
    let wide : PartitionMap := .ofEntries 3 [⟨⟨[.long 1]⟩, 5, 0⟩, ⟨⟨[.long 2]⟩, 2, 2⟩]
    let fitting : PartitionMap := .ofEntries 5 [⟨⟨[.long 1]⟩, 5, 0⟩, ⟨⟨[.long 2]⟩, 2, 0⟩]
    c.validate = .ok () ∧ PartitionMap.generate fiveAndTwo c 3 = .ok wide ∧
      (∀ r < 3, ∀ r' < 3, wide.load r ≤ wide.load r' + 1) ∧ planSkewedJoin fiveAndTwo c 2 5 = .ok fitting ∧
      ∀ k e, fitting.find? k = some e →
        fiveAndTwo.estimate k ⌈/⌉ e.partitions.toNat ≤ max 1 (min 1 (c.keyBytes / fiveAndTwo.averageBytes)) := by
  intro c wide fitting
  have hvalid : c.validate = .ok () := by decide +kernel
  have hwide : PartitionMap.generate fiveAndTwo c 3 = .ok wide := by decide +kernel
  have hfitting : PartitionMap.generate fiveAndTwo c 5 = .ok fitting := by decide +kernel
  have hplan : planSkewedJoin fiveAndTwo c 2 5 = .ok fitting := by decide +kernel
  obtain ⟨m, hm, _, _, hload, _⟩ := PartitionMap.generate_exact fiveAndTwo hvalid (n := 3) (by decide)
  obtain ⟨m', hm', _, _, _, hrows⟩ := PartitionMap.generate_exact fiveAndTwo hvalid (n := 5) (by decide)
  rw [hwide] at hm
  rw [hfitting] at hm'
  cases hm
  cases hm'
  exact ⟨hvalid, hwide, hload, hplan, hrows 2 hplan (by decide)⟩

end MapReduce
