/-
# What a plan knows of its input

A plan is made from any sample. It spreads exactly the keys that are estimated to
have more rows than a reducer may receive (`exists_find?_plannedMap_iff`), each over
as few reducers as hold them (`partitions_of_find?_plannedMap`), and its map can be
routed by exactly if no key needs more reducers than there are
(`routingFault?_plannedMap`).

A sampler that records every row counts every key exactly (`find?_sampleAll`), so its
estimates are the true numbers of rows (`estimate_sampleAll`), and the plan made from
such a sample spreads exactly the keys with more rows than the budget allows
(`find?_plan_eq_some`, `keyCount_le_of_find?_eq_none`).

Key definitions: `sampleAll`, `plannedMap`.
Key theorems: `find?_sampleAll`, `exists_find?_plannedMap_iff`,
`routingFault?_plannedMap`, `planSkewedJoin_inv`, `keyCount_le_of_find?_eq_none`.
-/
import MapReduce.Proofs.Outcome
import MapReduce.Proofs.Router
import MapReduce.Proofs.Sampling

namespace MapReduce

/-! ### Recording every row -/

/-- The sample that records every row. -/
def sampleAll (rows : List Row) : KeySample := ((Sampler.create 1).observeAll rows).sample

theorem describes_sampleAll (rows : List Row) : (sampleAll rows).Describes rows rows.length := by
  have h := describes_sampled 1 rows
  rwa [kept_one] at h

/-- A sample of every row holds the keys that occur, each with its number of
rows. -/
theorem find?_sampleAll (rows : List Row) (k : Tuple) :
    (sampleAll rows).counts.find? k = if keyCount rows k = 0 then none else some (keyCount rows k) :=
  (describes_sampleAll rows).find? k

/-! ### The entries of a map -/

namespace PartitionMap

/-- The number of reducers is not changed by entries. -/
theorem parallelism_ofEntries (n : UInt32) (es : List PartitionEntry) :
    (ofEntries n es).parallelism = n := by
  have hfold : ∀ (es : List PartitionEntry) (m : PartitionMap),
      (es.foldl insert m).parallelism = m.parallelism := by
    intro es
    induction es with
    | nil => exact fun m => rfl
    | cons e es ih => exact fun m => ih (m.insert e)
  exact hfold es (empty n)

/-- Inserting entries above all that are there appends them. -/
theorem entries_foldl_insert : ∀ {es : List PartitionEntry} {m : PartitionMap},
    es.Pairwise (fun a b => a.key.compare b.key = .lt) →
    (∀ e ∈ es, ∀ p ∈ m.spread.entries, e.key.compare p.1 = .gt) →
    (es.foldl PartitionMap.insert m).spread.entries =
      m.spread.entries ++ es.map fun e => (e.key, e)
  | [], m, _, _ => (List.append_nil _).symm
  | e :: es, m, hsorted, habove => by
    rw [List.pairwise_cons] at hsorted
    have happend : (m.insert e).spread.entries = m.spread.entries ++ [(e.key, e)] := by
      have h : OrderedMap.upsertEntries Tuple.compare e.key (fun _ => e) (m.spread.entries ++ []) =
          m.spread.entries ++ [(e.key, e)] :=
        OrderedMap.upsertEntries_append (habove e List.mem_cons_self)
      rwa [List.append_nil] at h
    have habove' : ∀ e' ∈ es, ∀ p ∈ (m.insert e).spread.entries, e'.key.compare p.1 = .gt := by
      intro e' he' p hp
      rw [happend, List.mem_append, List.mem_singleton] at hp
      rcases hp with hp | rfl
      · exact habove e' (List.mem_cons_of_mem e he') p hp
      · exact Std.OrientedCmp.gt_of_lt (hsorted.1 e' he')
    rw [List.foldl_cons, entries_foldl_insert hsorted.2 habove', happend, List.append_assoc]
    rfl

/-- A map with entries in the order of their keys holds just these. -/
theorem spread_ofEntries (n : UInt32) {es : List PartitionEntry}
    (h : es.Pairwise fun a b => a.key.compare b.key = .lt) :
    (ofEntries n es).spread.entries = es.map fun e => (e.key, e) :=
  entries_foldl_insert h fun _ _ _ hp => nomatch hp

theorem entries_ofEntries (n : UInt32) {es : List PartitionEntry}
    (h : es.Pairwise fun a b => a.key.compare b.key = .lt) : (ofEntries n es).entries = es := by
  rw [entries, OrderedMap.values, spread_ofEntries n h, List.map_map]
  exact List.map_id es

/-- A map with entries in the order of their keys finds the entry of a key. -/
theorem find?_ofEntries_eq_some_iff (n : UInt32) {es : List PartitionEntry}
    (h : es.Pairwise fun a b => a.key.compare b.key = .lt) {k : Tuple} {e : PartitionEntry} :
    (ofEntries n es).find? k = some e ↔ e ∈ es ∧ k.compare e.key = .eq := by
  have hitem : (ofEntries n es).find? k = ((ofEntries n es).spread.item? k).map Prod.snd := rfl
  rw [hitem, Option.map_eq_some_iff]
  simp only [OrderedMap.item?_eq_some_iff, spread_ofEntries n h, List.mem_map]
  constructor
  · rintro ⟨_, ⟨⟨e', he', rfl⟩, hk⟩, rfl⟩
    exact ⟨he', hk⟩
  · rintro ⟨he, hk⟩
    exact ⟨(e.key, e), ⟨⟨e, he, rfl⟩, hk⟩, rfl⟩

end PartitionMap

/-! ### Spreading keys -/

theorem rowBudget_pos (s : KeySample) (c : Settings) : 0 < rowBudget s c := Nat.le_max_left 1 _

theorem toNat_partitionsFor (budget rows : Nat) :
    (partitionsFor budget rows).toNat = min (KeySample.ceilDiv rows budget) (2 ^ 32 - 1) := by
  have hlt : min (KeySample.ceilDiv rows budget) (2 ^ 32 - 1) < 2 ^ 32 := by omega
  exact UInt32.toNat_ofNat_of_lt' hlt

theorem two_le_partitionsFor {b rows : Nat} (h : 1 < KeySample.ceilDiv rows b) :
    2 ≤ (partitionsFor b rows).toNat := by
  rw [toNat_partitionsFor]
  omega

section

variable {b p : Nat}

theorem spreadKeys_of_le {cursor rows : Nat} (key : Tuple) (rest : List (Tuple × Nat))
    (h : KeySample.ceilDiv rows b ≤ 1) :
    spreadKeys b p cursor ((key, rows) :: rest) = spreadKeys b p cursor rest := by
  rw [spreadKeys, if_pos h]

/-- A key that needs more than one reducer takes them from the cursor on. -/
theorem spreadKeys_of_gt {cursor rows : Nat} (key : Tuple) (rest : List (Tuple × Nat))
    (h : ¬ KeySample.ceilDiv rows b ≤ 1) :
    spreadKeys b p cursor ((key, rows) :: rest) =
      ⟨key, partitionsFor b rows, UInt32.ofNat cursor⟩ ::
        spreadKeys b p ((cursor + (partitionsFor b rows).toNat) % p) rest := by
  rw [spreadKeys, if_neg h]

/-- Every entry is made for a key that needs more than one reducer, and starts at a
reducer that exists. -/
theorem mem_spreadKeys (hp : p < 2 ^ 32) {e : PartitionEntry} :
    ∀ {keys : List (Tuple × Nat)} {cursor : Nat}, cursor < p → e ∈ spreadKeys b p cursor keys →
      e.firstReducer.toNat < p ∧
        ∃ rows, (e.key, rows) ∈ keys ∧ 1 < KeySample.ceilDiv rows b ∧ e.partitions = partitionsFor b rows
  | (key, rows) :: rest, cursor, hc, h => by
    by_cases hb : KeySample.ceilDiv rows b ≤ 1
    · rw [spreadKeys_of_le key rest hb] at h
      obtain ⟨hfirst, x, hx, hrest⟩ := mem_spreadKeys hp hc h
      exact ⟨hfirst, x, List.mem_cons_of_mem _ hx, hrest⟩
    · rw [spreadKeys_of_gt key rest hb] at h
      rcases List.mem_cons.mp h with rfl | h
      · refine ⟨?_, rows, List.mem_cons_self, Nat.lt_of_not_le hb, rfl⟩
        rw [UInt32.toNat_ofNat_of_lt' (show cursor < 2 ^ 32 by omega)]
        exact hc
      · obtain ⟨hfirst, x, hx, hrest⟩ := mem_spreadKeys hp (Nat.mod_lt _ (by omega)) h
        exact ⟨hfirst, x, List.mem_cons_of_mem _ hx, hrest⟩

/-- Every key that needs more than one reducer gets an entry. -/
theorem exists_mem_spreadKeys {key : Tuple} {rows : Nat} (hb : 1 < KeySample.ceilDiv rows b) :
    ∀ {keys : List (Tuple × Nat)} {cursor : Nat}, (key, rows) ∈ keys →
      ∃ e ∈ spreadKeys b p cursor keys, e.key = key
  | (k, x) :: rest, cursor, h => by
    rcases List.mem_cons.mp h with heq | h
    · cases heq
      rw [spreadKeys_of_gt key rest (Nat.not_le_of_lt hb)]
      exact ⟨_, List.mem_cons_self, rfl⟩
    · by_cases hx : KeySample.ceilDiv x b ≤ 1
      · rw [spreadKeys_of_le k rest hx]
        exact exists_mem_spreadKeys hb h
      · rw [spreadKeys_of_gt k rest hx]
        obtain ⟨e, he, hk⟩ := exists_mem_spreadKeys hb h
        exact ⟨e, List.mem_cons_of_mem _ he, hk⟩

/-- Entries are made in the order of the keys. -/
theorem sublist_spreadKeys : ∀ (keys : List (Tuple × Nat)) (cursor : Nat),
    ((spreadKeys b p cursor keys).map PartitionEntry.key).Sublist (keys.map Prod.fst)
  | [], _ => .slnil
  | (key, rows) :: rest, cursor => by
    by_cases hb : KeySample.ceilDiv rows b ≤ 1
    · rw [spreadKeys_of_le key rest hb]
      exact (sublist_spreadKeys rest cursor).cons key
    · rw [spreadKeys_of_gt key rest hb]
      exact (sublist_spreadKeys rest _).cons_cons key

theorem pairwise_spreadKeys {keys : List (Tuple × Nat)}
    (h : (keys.map Prod.fst).Pairwise fun a b => a.compare b = .lt) (cursor : Nat) :
    (spreadKeys b p cursor keys).Pairwise fun a b => a.key.compare b.key = .lt :=
  List.pairwise_map.mp (h.sublist (sublist_spreadKeys keys cursor))

end

/-! ### Estimates -/

namespace KeySample

/-- The keys of a sample with their estimated rows. -/
def estimates (s : KeySample) : List (Tuple × Nat) :=
  s.counts.entries.map (fun e => (e.1, s.scale e.2))

variable {s : KeySample} {k key : Tuple} {rows : Nat}

theorem pairwise_estimates (s : KeySample) :
    (s.estimates.map Prod.fst).Pairwise fun a b => a.compare b = .lt := by
  rw [estimates, List.map_map]
  exact s.counts.pairwise_keys

/-- A key of the list of estimates was sampled, and that is its estimate. -/
theorem estimate_of_mem (h : (key, rows) ∈ s.estimates) (hk : k.compare key = .eq) :
    (s.counts.find? k).isSome = true ∧ s.estimate k = rows := by
  obtain ⟨e, he, heq⟩ := List.mem_map.mp h
  cases heq
  have hfind : s.counts.find? k = some e.2 := by
    rw [s.counts.find?_congr hk, OrderedMap.find?_eq_item?, s.counts.item?_of_mem he, Option.map_some]
  rw [estimate, hfind]
  exact ⟨rfl, rfl⟩

/-- A key that was sampled is in the list of estimates. -/
theorem mem_estimates (h : (s.counts.find? k).isSome = true) :
    ∃ key, k.compare key = .eq ∧ (key, s.estimate k) ∈ s.estimates := by
  obtain ⟨n, hn⟩ := Option.isSome_iff_exists.mp h
  obtain ⟨e, hitem, rfl⟩ := Option.map_eq_some_iff.mp hn
  obtain ⟨he, hk⟩ := s.counts.item?_eq_some_iff.mp hitem
  refine ⟨e.1, hk, ?_⟩
  rw [estimate, hn]
  exact List.mem_map_of_mem he

end KeySample

/-! ### The map of a plan -/

/-- The map that a plan makes from a sample, for a budget of rows. -/
def plannedMap (s : KeySample) (b : Nat) (n : UInt32) : PartitionMap :=
  .ofEntries n (spreadKeys b n.toNat 0 s.estimates)

section

variable {s : KeySample} {b : Nat} {n : UInt32} {k : Tuple} {e : PartitionEntry}

theorem pairwise_spreadKeys_estimates (s : KeySample) (b : Nat) (n : UInt32) :
    (spreadKeys b n.toNat 0 s.estimates).Pairwise fun x y => x.key.compare y.key = .lt :=
  pairwise_spreadKeys s.pairwise_estimates 0

theorem parallelism_plannedMap (s : KeySample) (b : Nat) (n : UInt32) : (plannedMap s b n).parallelism = n :=
  PartitionMap.parallelism_ofEntries n _

theorem entries_plannedMap (s : KeySample) (b : Nat) (n : UInt32) :
    (plannedMap s b n).entries = spreadKeys b n.toNat 0 s.estimates :=
  PartitionMap.entries_ofEntries n (pairwise_spreadKeys_estimates s b n)

theorem find?_plannedMap_eq_some_iff :
    (plannedMap s b n).find? k = some e ↔ e ∈ spreadKeys b n.toNat 0 s.estimates ∧ k.compare e.key = .eq :=
  PartitionMap.find?_ofEntries_eq_some_iff n (pairwise_spreadKeys_estimates s b n)

variable (hn : 0 < n.toNat)
include hn

/-- **A key has an entry if it was sampled and is estimated above the budget.** -/
theorem exists_find?_plannedMap_iff (hb : 0 < b) : (∃ e, (plannedMap s b n).find? k = some e) ↔
    (s.counts.find? k).isSome = true ∧ b < s.estimate k := by
  rw [← KeySample.one_lt_ceilDiv_iff hb]
  constructor
  · rintro ⟨e, he⟩
    obtain ⟨hmem, hk⟩ := find?_plannedMap_eq_some_iff.mp he
    obtain ⟨_, rows, hrows, hneeds, _⟩ := mem_spreadKeys n.toNat_lt hn hmem
    obtain ⟨hsampled, rfl⟩ := KeySample.estimate_of_mem hrows hk
    exact ⟨hsampled, hneeds⟩
  · rintro ⟨hsampled, hneeds⟩
    obtain ⟨key, hk, hrows⟩ := KeySample.mem_estimates hsampled
    obtain ⟨e, he, rfl⟩ : ∃ e ∈ spreadKeys b n.toNat 0 s.estimates, e.key = key :=
      exists_mem_spreadKeys hneeds hrows
    exact ⟨e, find?_plannedMap_eq_some_iff.mpr ⟨he, hk⟩⟩

/-- A key that is spread has as many reducers as hold its rows. -/
theorem partitions_of_find?_plannedMap (h : (plannedMap s b n).find? k = some e) :
    e.partitions = partitionsFor b (s.estimate k) := by
  obtain ⟨hmem, hk⟩ := find?_plannedMap_eq_some_iff.mp h
  obtain ⟨_, rows, hrows, _, hparts⟩ := mem_spreadKeys n.toNat_lt hn hmem
  rw [(KeySample.estimate_of_mem hrows hk).2, hparts]

/-- **The map of a plan can be routed by if no key needs more reducers than there
are**: its entries need at least two, and start at reducers that exist. -/
theorem routingFault?_plannedMap : (plannedMap s b n).routingFault? = none ↔
    ∀ e ∈ (plannedMap s b n).entries, e.partitions.toNat ≤ n.toNat := by
  rw [PartitionMap.sound_iff, parallelism_plannedMap]
  refine ⟨fun h e he => (h.2 e he).2.1, fun h => ⟨hn, fun e he => ?_⟩⟩
  have hmem := he
  rw [entries_plannedMap] at hmem
  obtain ⟨hfirst, rows, _, hrows, hparts⟩ := mem_spreadKeys n.toNat_lt hn hmem
  have htwo := two_le_partitionsFor hrows
  rw [← hparts] at htwo
  exact ⟨by omega, h e he, hfirst⟩

end

/-! ### Plans -/

/-- Valid settings and a reducer are all that a plan needs. -/
theorem PartitionMap.generate_eq_ok {s : KeySample} {c : Settings} {n : UInt32} (hc : c.validate = .ok ())
    (hn : 0 < n.toNat) : generate s c n = .ok (plannedMap s (rowBudget s c) n) := by
  have hne : n ≠ 0 := fun h => by
    rw [h] at hn
    exact absurd hn (by decide)
  unfold generate
  rw [hc]
  simp only [if_neg hne]
  rfl

theorem PartitionMap.generate_inv {s : KeySample} {c : Settings} {n : UInt32} {m : PartitionMap}
    (h : generate s c n = .ok m) : 0 < n.toNat ∧ m = plannedMap s (rowBudget s c) n := by
  obtain ⟨_, _, h⟩ := ok_of_bind h
  by_cases hz : n = 0
  · rw [if_pos hz] at h
    cases h
  · rw [if_neg hz] at h
    cases h
    exact ⟨Nat.pos_of_ne_zero fun h0 => hz (UInt32.toNat_inj.mp h0), rfl⟩

theorem PartitionMap.checkParallelism_eq_ok_iff (m : PartitionMap) (n : Nat) :
    m.checkParallelism n = .ok () ↔ ∀ e ∈ m.entries, e.partitions.toNat ≤ n := by
  have hnone : m.entries.find? (fun e => decide (n < e.partitions.toNat)) = none ↔
      ∀ e ∈ m.entries, e.partitions.toNat ≤ n := by
    simp only [List.find?_eq_none, decide_eq_true_eq, not_lt]
  rw [← hnone, checkParallelism]
  split <;> simp [*]

/-- What a plan that passes its checks is. -/
theorem planSkewedJoin_inv {s : KeySample} {c : Settings} {inputs : Nat} {n : UInt32} {m : PartitionMap}
    (h : planSkewedJoin s c inputs n = .ok m) :
    0 < n.toNat ∧ m = plannedMap s (rowBudget s c) n ∧ ∀ e ∈ m.entries, e.partitions.toNat ≤ n.toNat := by
  obtain ⟨_, _, h⟩ := ok_of_bind h
  obtain ⟨m', hg, h⟩ := ok_of_bind h
  obtain ⟨_, hc, h⟩ := ok_of_bind h
  cases h
  obtain ⟨hpos, hm⟩ := PartitionMap.generate_inv hg
  exact ⟨hpos, hm, (m.checkParallelism_eq_ok_iff n.toNat).mp hc⟩

/-- **A plan that passes its checks can be routed by.** -/
theorem routingFault?_of_plan {s : KeySample} {c : Settings} {inputs : Nat} {n : UInt32} {m : PartitionMap}
    (h : planSkewedJoin s c inputs n = .ok m) : m.routingFault? = none := by
  obtain ⟨hpos, rfl, hle⟩ := planSkewedJoin_inv h
  exact (routingFault?_plannedMap hpos).mpr hle

/-! ### Plans of a sample of every row -/

section

variable {rows : List Row} {c : Settings} {inputs : Nat} {n : UInt32} {m : PartitionMap}

/-- The estimates are the true numbers of rows. -/
theorem estimate_sampleAll (rows : List Row) (k : Tuple) : (sampleAll rows).estimate k = keyCount rows k :=
  (describes_sampleAll rows).estimate_eq k

/-- A key that is spread has more rows than the budget, and as many reducers as
hold them. -/
theorem find?_plan_eq_some (h : planSkewedJoin (sampleAll rows) c inputs n = .ok m) {k : Tuple}
    {e : PartitionEntry} (hk : m.find? k = some e) :
    rowBudget (sampleAll rows) c < keyCount rows k ∧
      e.partitions = partitionsFor (rowBudget (sampleAll rows) c) (keyCount rows k) := by
  obtain ⟨hpos, rfl, _⟩ := planSkewedJoin_inv h
  rw [← estimate_sampleAll]
  exact ⟨((exists_find?_plannedMap_iff hpos (rowBudget_pos _ c)).mp ⟨e, hk⟩).2, partitions_of_find?_plannedMap hpos hk⟩

/-- **A key that is not spread is within the budget.** -/
theorem keyCount_le_of_find?_eq_none (h : planSkewedJoin (sampleAll rows) c inputs n = .ok m) {k : Tuple}
    (hk : m.find? k = none) : keyCount rows k ≤ rowBudget (sampleAll rows) c := by
  obtain ⟨hpos, rfl, _⟩ := planSkewedJoin_inv h
  by_contra hlt
  have hsampled : ((sampleAll rows).counts.find? k).isSome = true := by
    rw [find?_sampleAll, if_neg (by omega)]
    rfl
  rw [← estimate_sampleAll, not_le] at hlt
  obtain ⟨e, he⟩ := (exists_find?_plannedMap_iff hpos (rowBudget_pos _ c)).mpr ⟨hsampled, hlt⟩
  rw [hk] at he
  cases he

end

end MapReduce
