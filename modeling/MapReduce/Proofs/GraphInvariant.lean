/-
# Graphs stay well formed

A graph records its edges twice. It is well formed if both indexes have records for
vertices only, if they mirror each other, and if no path leads from a vertex to itself.
Each operation says what it does to the edges (`edge_link`, `edge_disconnect`,
`edge_remove`), and from that alone it follows that it keeps a well-formed graph well
formed. A vertex without edges may have records without ends or none at all, and that
depends on how it came in: where every vertex is entered into the indexes at once they
have a record for each of them (`Graph.Indexed`), and the operations keep that too.

`connect` searches for a path back before it adds an edge. On a well-formed graph
the search is exact, so an edge is refused exactly if it would close a cycle
(`WellFormed.connect_eq_ok_iff`). Where the vertices are labelled by things that
know their own keys, the labels stay in their places as well (`Graph.Keyed`).

Key definitions: `Graph.WellFormed`, `Graph.Indexed`, `Graph.Keyed`.
Key theorems: `Graph.WellFormed.insert?`, `Graph.WellFormed.place`, `Graph.WellFormed.link`,
`Graph.WellFormed.disconnect`, `Graph.WellFormed.remove`,
`Graph.WellFormed.connect_eq_ok_iff`, `Graph.WellFormed.isConnected_iff`.
-/
import MapReduce.Proofs.GraphSearch
import MapReduce.Proofs.OrderedMap

namespace MapReduce

/-! ### Indexes -/

namespace EdgeIndex

variable (e : EdgeIndex) {k l x y : Key}

theorem mem_ends_iff : y ∈ e.ends x ↔ ∃ s, e.find? x = some s ∧ y ∈ s.elements := by
  unfold ends
  cases e.find? x <;> simp

theorem mem_keys_of_mem_ends (h : y ∈ e.ends x) : x ∈ OrderedMap.keys e := by
  obtain ⟨s, hs, _⟩ := (e.mem_ends_iff).mp h
  exact (OrderedMap.mem_keys_iff e).mpr ⟨s, hs⟩

theorem nodup_ends (x : Key) : (e.ends x).Nodup := by
  unfold ends
  cases e.find? x with
  | none => simp
  | some s => exact OrderedMap.nodup_keys s

theorem ends_enter (k x : Key) : (e.enter k).ends x = e.ends x := by
  unfold ends enter
  rw [OrderedMap.find?_upsert_eq]
  by_cases h : x = k
  · subst h
    rw [if_pos rfl]
    cases e.find? x <;> rfl
  · rw [if_neg h]

theorem mem_keys_enter : x ∈ OrderedMap.keys (e.enter k) ↔ x = k ∨ x ∈ OrderedMap.keys e :=
  OrderedMap.mem_keys_upsert e

theorem mem_ends_join : y ∈ (e.join k l).ends x ↔ y ∈ e.ends x ∨ x = k ∧ y = l := by
  unfold ends join
  rw [OrderedMap.find?_upsert_eq]
  by_cases h : x = k
  · subst h
    cases e.find? x with
    | none =>
      have hempty : y ∉ OrderedSet.elements (OrderedMap.empty : KeySet) := List.not_mem_nil
      simp [OrderedSet.mem_add, hempty]
    | some s => simp [OrderedSet.mem_add, or_comm]
  · simp [h]

theorem mem_keys_join : x ∈ OrderedMap.keys (e.join k l) ↔ x = k ∨ x ∈ OrderedMap.keys e :=
  OrderedMap.mem_keys_upsert e

theorem keys_join (h : k ∈ OrderedMap.keys e) :
    OrderedMap.keys (e.join k l) = OrderedMap.keys e := by
  refine OrderedMap.keys_eq_of_mem_iff fun x => ?_
  rw [mem_keys_join]
  exact or_iff_right_of_imp fun hx => hx ▸ h

theorem mem_ends_part : y ∈ (e.part k l).ends x ↔ y ∈ e.ends x ∧ ¬ (x = k ∧ y = l) := by
  unfold ends part
  rw [OrderedMap.find?_modify]
  by_cases h : x = k
  · subst h
    cases e.find? x with
    | none => simp
    | some s => simp [OrderedSet.mem_erase, and_comm]
  · simp [h]

theorem keys_part (k l : Key) : OrderedMap.keys (e.part k l) = OrderedMap.keys e :=
  OrderedMap.keys_modify e k _

/-- An end that is not recorded can be taken away. -/
theorem part_of_not_mem (h : l ∉ e.ends k) : e.part k l = e := by
  refine OrderedMap.ext_find? fun x => ?_
  unfold part
  rw [OrderedMap.find?_modify]
  by_cases hx : x = k
  · subst hx
    rw [if_pos rfl]
    cases hs : e.find? x with
    | none => rfl
    | some s =>
      have hl : l ∉ s.elements := fun hl => h ((e.mem_ends_iff).mpr ⟨s, hs, hl⟩)
      have herase : s.erase l = s := OrderedMap.ext_find? fun y => by
        rw [OrderedMap.find?_erase]
        by_cases hy : y = l
        · rw [if_pos hy, hy, (OrderedMap.find?_eq_none_iff s).mpr hl]
        · rw [if_neg hy]
      rw [Option.map_some, herase]
  · rw [if_neg hx]

theorem mem_ends_erase : y ∈ EdgeIndex.ends (e.erase k) x ↔ x ≠ k ∧ y ∈ e.ends x := by
  unfold ends
  rw [OrderedMap.find?_erase]
  by_cases h : x = k <;> simp [h]

/-- One key is taken away from the records of several. -/
theorem mem_ends_foldl_part (k : Key) : ∀ (ks : List Key) (e : EdgeIndex),
    y ∈ EdgeIndex.ends (ks.foldl (fun e s => e.part s k) e) x ↔
      y ∈ e.ends x ∧ ¬ (x ∈ ks ∧ y = k)
  | [], e => by simp
  | s :: ks, e => by
    rw [List.foldl_cons, mem_ends_foldl_part k ks, mem_ends_part, List.mem_cons]
    tauto

theorem keys_foldl_part (k : Key) : ∀ (ks : List Key) (e : EdgeIndex),
    OrderedMap.keys (ks.foldl (fun (e : EdgeIndex) s => e.part s k) e) = OrderedMap.keys e
  | [], _ => rfl
  | s :: ks, e => by rw [List.foldl_cons, keys_foldl_part k ks, keys_part]

end EdgeIndex

namespace Graph

variable {α : Type}

/-- Both indexes have records for vertices only, they mirror each other, and no path
leads from a vertex to itself. -/
structure WellFormed (g : Graph α) : Prop where
  outgoing_subset : OrderedMap.keys g.outgoing ⊆ g.keys
  incoming_subset : OrderedMap.keys g.incoming ⊆ g.keys
  mirror : ∀ a b, b ∈ g.succs a ↔ a ∈ g.preds b
  acyclic : ∀ k, ¬ g.Leads k k

/-- Both indexes have a record for every vertex, and for no other key. -/
structure Indexed (g : Graph α) : Prop where
  outgoing_keys : OrderedMap.keys g.outgoing = g.keys
  incoming_keys : OrderedMap.keys g.incoming = g.keys

variable {g : Graph α} {a b k x y : Key}

theorem contains_iff : g.contains k = true ↔ k ∈ g.keys := OrderedMap.contains_iff g.nodes

theorem contains_eq_false_iff : g.contains k = false ↔ k ∉ g.keys := by
  rw [← contains_iff, Bool.not_eq_true]

theorem nodup_keys (g : Graph α) : g.keys.Nodup := OrderedMap.nodup_keys g.nodes

theorem nodup_succs (g : Graph α) (k : Key) : (g.succs k).Nodup := g.outgoing.nodup_ends k

theorem nodup_preds (g : Graph α) (k : Key) : (g.preds k).Nodup := g.incoming.nodup_ends k

theorem mem_keys_iff : k ∈ g.keys ↔ ∃ a, g.label? k = some a := OrderedMap.mem_keys_iff g.nodes

/-- More edges lead further. -/
theorem Leads.mono {g g' : Graph α} (h : ∀ a b, g.Edge a b → g'.Edge a b) (hl : g.Leads x y) :
    g'.Leads x y := by
  induction hl with
  | single he => exact .single (h _ _ he)
  | tail _ he ih => exact .tail ih (h _ _ he)

namespace WellFormed

theorem mem_keys_of_edge (h : g.WellFormed) (he : g.Edge a b) : a ∈ g.keys ∧ b ∈ g.keys := by
  refine ⟨h.outgoing_subset (g.outgoing.mem_keys_of_mem_ends he), ?_⟩
  exact h.incoming_subset (g.incoming.mem_keys_of_mem_ends ((h.mirror a b).mp he))

theorem mem_keys_of_leads (h : g.WellFormed) (hl : g.Leads a b) : a ∈ g.keys ∧ b ∈ g.keys := by
  induction hl with
  | single he => exact h.mem_keys_of_edge he
  | tail _ he ih => exact ⟨ih.1, (h.mem_keys_of_edge he).2⟩

theorem ne_of_leads (h : g.WellFormed) (hl : g.Leads a b) : a ≠ b := by
  rintro rfl
  exact h.acyclic a hl

end WellFormed

theorem wellFormed_empty : (empty : Graph α).WellFormed where
  outgoing_subset := List.Subset.refl _
  incoming_subset := List.Subset.refl _
  mirror _ _ := by constructor <;> intro h <;> cases h
  acyclic k h := by
    obtain ⟨b, hb, _⟩ := Relation.TransGen.head'_iff.mp h
    cases hb

/-! ### Paths and searches -/

/-- A search along the edges finds a vertex and what it leads to. -/
theorem WellFormed.mem_explore_iff (h : g.WellFormed) (hk : k ∈ g.keys) :
    x ∈ explore g.succs g.keys [k] ↔ x = k ∨ g.Leads k x := by
  have hnext : ∀ a ∈ g.keys, ∀ b ∈ g.succs a, b ∈ g.keys :=
    fun a _ b hb => (h.mem_keys_of_edge hb).2
  rw [Graph.mem_explore_iff hnext hk]
  exact Relation.reflTransGen_iff_eq_or_transGen

theorem WellFormed.reaches_iff (h : g.WellFormed) (ha : a ∈ g.keys) (hab : a ≠ b) :
    g.reaches a b = true ↔ g.Leads a b := by
  unfold reaches
  rw [decide_eq_true_iff, h.mem_explore_iff ha]
  exact or_iff_right hab.symm

theorem Joined.symm (h : g.Joined a b) : g.Joined b a := by
  induction h with
  | refl => exact .refl
  | tail _ he ih => exact .head he.symm ih

theorem Joined.trans {c : Key} (hab : g.Joined a b) (hbc : g.Joined b c) : g.Joined a c :=
  Relation.ReflTransGen.trans hab hbc

theorem WellFormed.mem_succs_append_preds (h : g.WellFormed) :
    b ∈ g.succs a ++ g.preds a ↔ g.Edge a b ∨ g.Edge b a := by
  rw [List.mem_append, ← h.mirror b a]
  rfl

/-- A search along the edges in both directions finds what is joined to a vertex. -/
theorem WellFormed.mem_explore_iff_joined (h : g.WellFormed) (hk : k ∈ g.keys) :
    x ∈ explore (fun x => g.succs x ++ g.preds x) g.keys [k] ↔ g.Joined k x := by
  have hnext : ∀ a ∈ g.keys, ∀ b ∈ g.succs a ++ g.preds a, b ∈ g.keys := by
    intro a _ b hb
    rcases h.mem_succs_append_preds.mp hb with hb | hb
    · exact (h.mem_keys_of_edge hb).2
    · exact (h.mem_keys_of_edge hb).1
  rw [Graph.mem_explore_iff hnext hk]
  simp only [h.mem_succs_append_preds]
  rfl

/-- **The connectivity check is exact**: it passes if and only if any two
vertices are joined. -/
theorem WellFormed.isConnected_iff (h : g.WellFormed) :
    g.isConnected = true ↔ ∀ a ∈ g.keys, ∀ b ∈ g.keys, g.Joined a b := by
  unfold isConnected
  split
  · rename_i hk
    simp [hk]
  · rename_i k ks hk
    have hmem : ∀ x, x ∈ explore (fun x => g.succs x ++ g.preds x) (k :: ks) [k] ↔ g.Joined k x := by
      intro x
      rw [← hk]
      exact h.mem_explore_iff_joined (hk ▸ List.mem_cons_self)
    rw [hk]
    have hnodup : (k :: ks).Nodup := hk ▸ g.nodup_keys
    have hsize : g.size = (k :: ks).length := by
      rw [← hk, keys, OrderedMap.keys, List.length_map]
      rfl
    rw [beq_iff_eq, hsize]
    constructor
    · intro hlen
      -- as many vertices were found as there are, so each was found
      have hsub : (explore (fun x => g.succs x ++ g.preds x) (k :: ks) [k]).Subperm (k :: ks) :=
        (nodup_explore hnodup).subperm fun x hx => mem_unseen_of_mem_explore hx
      have hperm := hsub.perm_of_length_le hlen.ge
      intro a ha b hb
      have ha' := (hmem a).mp (hperm.mem_iff.mpr ha)
      have hb' := (hmem b).mp (hperm.mem_iff.mpr hb)
      exact ha'.symm.trans hb'
    · intro hall
      have hperm : (explore (fun x => g.succs x ++ g.preds x) (k :: ks) [k]).Perm (k :: ks) := by
        rw [List.perm_ext_iff_of_nodup (nodup_explore hnodup) hnodup]
        intro x
        constructor
        · exact fun hx => mem_unseen_of_mem_explore hx
        · exact fun hx => (hmem x).mpr (hall k List.mem_cons_self x hx)
      exact hperm.length_eq

/-! ### A new vertex -/

theorem insert?_eq_some_iff {v : α} {g' : Graph α} : g.insert? k v = some g' ↔
    k ∉ g.keys ∧ g' = ⟨g.nodes.insert k v, g.outgoing.enter k, g.incoming.enter k⟩ := by
  unfold insert?
  by_cases hk : k ∈ g.keys
  · simp [contains_iff.mpr hk, hk]
  · simp [contains_eq_false_iff.mpr hk, hk, eq_comm]

theorem insert?_eq_none_iff {v : α} : g.insert? k v = none ↔ k ∈ g.keys := by
  unfold insert?
  by_cases hk : k ∈ g.keys
  · simp [contains_iff.mpr hk, hk]
  · simp [contains_eq_false_iff.mpr hk, hk]

theorem mem_keys_insert {v : α} {out inc : EdgeIndex} :
    x ∈ (⟨g.nodes.insert k v, out, inc⟩ : Graph α).keys ↔ x = k ∨ x ∈ g.keys :=
  OrderedMap.mem_keys_upsert g.nodes

/-- A new vertex brings no edges. -/
theorem edge_insert? {v : α} {g' : Graph α} (h : g.insert? k v = some g') :
    g'.Edge a b ↔ g.Edge a b := by
  obtain ⟨_, rfl⟩ := insert?_eq_some_iff.mp h
  unfold Edge succs
  rw [EdgeIndex.ends_enter]

theorem WellFormed.insert? (h : g.WellFormed) {v : α} {g' : Graph α} (hg : g.insert? k v = some g') :
    g'.WellFormed := by
  have hedge : ∀ a b, g'.Edge a b ↔ g.Edge a b := fun a b => edge_insert? hg
  obtain ⟨_, rfl⟩ := insert?_eq_some_iff.mp hg
  refine ⟨fun x hx => ?_, fun x hx => ?_, fun a b => ?_, fun x hx => ?_⟩
  · rw [EdgeIndex.mem_keys_enter] at hx
    exact mem_keys_insert.mpr (hx.imp_right fun hx => h.outgoing_subset hx)
  · rw [EdgeIndex.mem_keys_enter] at hx
    exact mem_keys_insert.mpr (hx.imp_right fun hx => h.incoming_subset hx)
  · unfold succs preds
    rw [EdgeIndex.ends_enter, EdgeIndex.ends_enter]
    exact h.mirror a b
  · exact h.acyclic x (hx.mono fun a b => (hedge a b).mp)

theorem Indexed.insert? (h : g.Indexed) {v : α} {g' : Graph α} (hg : g.insert? k v = some g') :
    g'.Indexed := by
  obtain ⟨_, rfl⟩ := insert?_eq_some_iff.mp hg
  constructor
  · refine OrderedMap.keys_eq_of_mem_iff fun x => ?_
    rw [EdgeIndex.mem_keys_enter, h.outgoing_keys]
    exact mem_keys_insert.symm
  · refine OrderedMap.keys_eq_of_mem_iff fun x => ?_
    rw [EdgeIndex.mem_keys_enter, h.incoming_keys]
    exact mem_keys_insert.symm

/-- A vertex without records has no edges either. -/
theorem WellFormed.place (h : g.WellFormed) (k : Key) (v : α) : (g.place k v).WellFormed where
  outgoing_subset _ hx := mem_keys_insert.mpr (.inr (h.outgoing_subset hx))
  incoming_subset _ hx := mem_keys_insert.mpr (.inr (h.incoming_subset hx))
  mirror := h.mirror
  acyclic := h.acyclic

/-! ### A new edge -/

/-- A link adds one edge. -/
theorem edge_link : (g.link a b).Edge x y ↔ g.Edge x y ∨ x = a ∧ y = b :=
  g.outgoing.mem_ends_join

/-- A path over a new edge goes to its start, over it, and on from its end. -/
theorem leads_link (h : (g.link a b).Leads x y) :
    g.Leads x y ∨ Relation.ReflTransGen g.Edge x a ∧ Relation.ReflTransGen g.Edge b y := by
  induction h with
  | single he =>
    rcases edge_link.mp he with he | ⟨rfl, rfl⟩
    · exact .inl (.single he)
    · exact .inr ⟨.refl, .refl⟩
  | @tail y z _ he ih =>
    rcases ih, edge_link.mp he with ⟨hxy | ⟨hxa, hby⟩, hyz | ⟨rfl, rfl⟩⟩
    · exact .inl (hxy.tail hyz)
    · exact .inr ⟨hxy.to_reflTransGen, .refl⟩
    · exact .inr ⟨hxa, hby.tail hyz⟩
    · exact .inr ⟨hxa, .refl⟩

theorem WellFormed.link (h : g.WellFormed) (ha : a ∈ g.keys) (hb : b ∈ g.keys) (hne : a ≠ b)
    (hback : ¬ g.Leads b a) : (g.link a b).WellFormed := by
  refine ⟨fun x hx => ?_, fun x hx => ?_, fun x y => ?_, fun x hx => ?_⟩
  · rcases g.outgoing.mem_keys_join.mp hx with rfl | hx
    · exact ha
    · exact h.outgoing_subset hx
  · rcases g.incoming.mem_keys_join.mp hx with rfl | hx
    · exact hb
    · exact h.incoming_subset hx
  · unfold succs preds Graph.link
    rw [EdgeIndex.mem_ends_join, EdgeIndex.mem_ends_join, and_comm (a := y = b)]
    exact or_congr_left (h.mirror x y)
  · rcases leads_link hx with hx | ⟨hxa, hbx⟩
    · exact h.acyclic x hx
    · have hba : Relation.ReflTransGen g.Edge b a := hbx.trans hxa
      rcases Relation.reflTransGen_iff_eq_or_transGen.mp hba with he | hl
      · exact hne he
      · exact hback hl

theorem Indexed.link (h : g.Indexed) (ha : a ∈ g.keys) (hb : b ∈ g.keys) : (g.link a b).Indexed where
  outgoing_keys := (g.outgoing.keys_join (h.outgoing_keys ▸ ha)).trans h.outgoing_keys
  incoming_keys := (g.incoming.keys_join (h.incoming_keys ▸ hb)).trans h.incoming_keys

/-- **An edge is accepted exactly if its ends exist and it closes no cycle.** -/
theorem WellFormed.connect_eq_ok_iff (h : g.WellFormed) {g' : Graph α} : g.connect a b = .ok g' ↔
    (a ∈ g.keys ∧ b ∈ g.keys ∧ a ≠ b ∧ ¬ g.Leads b a) ∧ g' = g.link a b := by
  unfold Graph.connect
  split
  · rename_i hc
    have ha : a ∉ g.keys := contains_eq_false_iff.mp (by simpa using hc)
    simp [ha]
  · rename_i hca
    have ha : a ∈ g.keys := contains_iff.mp (by simpa using hca)
    split
    · rename_i hc
      have hb : b ∉ g.keys := contains_eq_false_iff.mp (by simpa using hc)
      simp [hb]
    · rename_i hcb
      have hb : b ∈ g.keys := contains_iff.mp (by simpa using hcb)
      split
      · -- the edge is a loop, or the search has found a way back
        rename_i hback
        have hno : ¬ (a ≠ b ∧ ¬ g.Leads b a) := by
          rintro ⟨hne, hl⟩
          rcases Bool.or_eq_true_iff.mp hback with he | hr
          · exact hne (beq_iff_eq.mp he)
          · exact hl ((h.reaches_iff hb hne.symm).mp hr)
        constructor
        · intro he
          cases he
        · rintro ⟨⟨_, _, hyes⟩, _⟩
          exact absurd hyes hno
      · rename_i hfree
        have hne : a ≠ b := fun e => hfree (by simp [e])
        have hl : ¬ g.Leads b a := by
          intro hl
          exact hfree (Bool.or_eq_true_iff.mpr (.inr ((h.reaches_iff hb hne.symm).mpr hl)))
        constructor
        · intro he
          cases he
          exact ⟨⟨ha, hb, hne, hl⟩, rfl⟩
        · rintro ⟨_, rfl⟩
          rfl

theorem WellFormed.connect (h : g.WellFormed) {g' : Graph α} (hg : g.connect a b = .ok g') :
    g'.WellFormed := by
  obtain ⟨⟨ha, hb, hne, hl⟩, rfl⟩ := h.connect_eq_ok_iff.mp hg
  exact h.link ha hb hne hl

/-! ### Edges and vertices taken away -/

theorem edge_disconnect : (g.disconnect a b).Edge x y ↔ g.Edge x y ∧ ¬ (x = a ∧ y = b) :=
  g.outgoing.mem_ends_part

theorem WellFormed.disconnect (h : g.WellFormed) (a b : Key) : (g.disconnect a b).WellFormed := by
  refine ⟨?_, ?_, fun x y => ?_, fun x hx => ?_⟩
  · exact (g.outgoing.keys_part a b).symm ▸ h.outgoing_subset
  · exact (g.incoming.keys_part b a).symm ▸ h.incoming_subset
  · unfold succs preds Graph.disconnect
    rw [EdgeIndex.mem_ends_part, EdgeIndex.mem_ends_part, and_comm (a := y = b)]
    exact and_congr_left' (h.mirror x y)
  · exact h.acyclic x (hx.mono fun _ _ he => (edge_disconnect.mp he).1)

theorem Indexed.disconnect (h : g.Indexed) (a b : Key) : (g.disconnect a b).Indexed where
  outgoing_keys := (g.outgoing.keys_part a b).trans h.outgoing_keys
  incoming_keys := (g.incoming.keys_part b a).trans h.incoming_keys

/-- Taking away an edge that is not there changes neither index. -/
theorem WellFormed.disconnect_of_not_edge (h : g.WellFormed) (he : ¬ g.Edge a b) :
    g.disconnect a b = g := by
  unfold Graph.disconnect
  rw [g.outgoing.part_of_not_mem he, g.incoming.part_of_not_mem fun hp => he ((h.mirror a b).mpr hp)]

theorem WellFormed.edge_remove (h : g.WellFormed) :
    (g.remove k).Edge x y ↔ g.Edge x y ∧ x ≠ k ∧ y ≠ k := by
  have hself : k ∉ g.succs k := fun he => h.acyclic k (.single he)
  change y ∈ EdgeIndex.ends _ x ↔ y ∈ g.succs x ∧ _
  unfold Graph.remove
  rw [EdgeIndex.mem_ends_foldl_part, EdgeIndex.mem_ends_erase, EdgeIndex.mem_ends_foldl_part]
  constructor
  · rintro ⟨⟨hx, hy⟩, hno⟩
    refine ⟨hy, hx, ?_⟩
    rintro rfl
    exact hno ⟨⟨(h.mirror x y).mp hy, fun hk => hself hk.1⟩, rfl⟩
  · rintro ⟨hy, hx, hyk⟩
    exact ⟨⟨hx, hy⟩, fun hk => hyk hk.2⟩

theorem WellFormed.pred_remove (h : g.WellFormed) :
    x ∈ (g.remove k).preds y ↔ g.Edge x y ∧ x ≠ k ∧ y ≠ k := by
  change x ∈ EdgeIndex.ends _ y ↔ y ∈ g.succs x ∧ _
  unfold Graph.remove
  rw [EdgeIndex.mem_ends_erase, EdgeIndex.mem_ends_foldl_part]
  change y ≠ k ∧ x ∈ g.preds y ∧ _ ↔ _
  rw [h.mirror x y]
  constructor
  · rintro ⟨hyk, hx, hno⟩
    refine ⟨hx, ?_, hyk⟩
    rintro rfl
    exact hno ⟨(h.mirror x y).mpr hx, rfl⟩
  · rintro ⟨hx, hxk, hyk⟩
    exact ⟨hyk, hx, fun hk => hxk hk.2⟩

theorem mem_keys_remove : x ∈ (g.remove k).keys ↔ x ≠ k ∧ x ∈ g.keys := OrderedMap.mem_keys_erase g.nodes

theorem mem_outgoing_remove :
    x ∈ OrderedMap.keys (g.remove k).outgoing ↔ x ≠ k ∧ x ∈ OrderedMap.keys g.outgoing := by
  unfold Graph.remove
  rw [EdgeIndex.keys_foldl_part, OrderedMap.mem_keys_erase]

theorem mem_incoming_remove :
    x ∈ OrderedMap.keys (g.remove k).incoming ↔ x ≠ k ∧ x ∈ OrderedMap.keys g.incoming := by
  unfold Graph.remove
  rw [OrderedMap.mem_keys_erase, EdgeIndex.keys_foldl_part]

theorem WellFormed.remove (h : g.WellFormed) (k : Key) : (g.remove k).WellFormed := by
  refine ⟨fun x hx => ?_, fun x hx => ?_, fun x y => ?_, fun x hx => ?_⟩
  · exact mem_keys_remove.mpr ((mem_outgoing_remove.mp hx).imp_right fun hx => h.outgoing_subset hx)
  · exact mem_keys_remove.mpr ((mem_incoming_remove.mp hx).imp_right fun hx => h.incoming_subset hx)
  · rw [h.pred_remove]
    exact h.edge_remove
  · exact h.acyclic x (hx.mono fun _ _ he => (h.edge_remove.mp he).1)

theorem Indexed.remove (h : g.Indexed) (k : Key) : (g.remove k).Indexed := by
  constructor
  · refine OrderedMap.keys_eq_of_mem_iff fun x => ?_
    rw [mem_outgoing_remove, h.outgoing_keys]
    exact mem_keys_remove.symm
  · refine OrderedMap.keys_eq_of_mem_iff fun x => ?_
    rw [mem_incoming_remove, h.incoming_keys]
    exact mem_keys_remove.symm

/-! ### Labels under their own keys -/

/-- The graph is well formed, and each label stands under its own key. -/
structure Keyed (key : α → Key) (g : Graph α) : Prop where
  wellFormed : g.WellFormed
  ownKey : ∀ k v, g.label? k = some v → key v = k

namespace Keyed

variable {key : α → Key} {g' : Graph α}

theorem empty : (Graph.empty : Graph α).Keyed key where
  wellFormed := wellFormed_empty
  ownKey _ _ h := by cases h

/-- A label comes to stand under its own key. -/
theorem of_insert (h : g.Keyed key) {v : α} (hg : g'.WellFormed) (hn : g'.nodes = g.nodes.insert (key v) v) :
    g'.Keyed key := by
  refine ⟨hg, fun k u hu => ?_⟩
  rw [label?, hn, OrderedMap.insert, OrderedMap.find?_upsert_eq] at hu
  by_cases hk : k = key v
  · rw [if_pos hk] at hu
    rw [← Option.some.inj hu, hk]
  · rw [if_neg hk] at hu
    exact h.ownKey k u hu

theorem insert? (h : g.Keyed key) {v : α} (hg : g.insert? (key v) v = some g') : g'.Keyed key := by
  have hn : g'.nodes = g.nodes.insert (key v) v := by
    obtain ⟨_, rfl⟩ := insert?_eq_some_iff.mp hg
    rfl
  exact h.of_insert (h.wellFormed.insert? hg) hn

theorem place (h : g.Keyed key) (v : α) : (g.place (key v) v).Keyed key :=
  h.of_insert (h.wellFormed.place (key v) v) rfl

/-- Edges may change as long as the labels stay. -/
theorem of_nodes (h : g.Keyed key) (hg : g'.WellFormed) (hn : g'.nodes = g.nodes) : g'.Keyed key := by
  refine ⟨hg, fun k v hv => h.ownKey k v ?_⟩
  rwa [label?, hn] at hv

theorem connect (h : g.Keyed key) (hg : g.connect a b = .ok g') : g'.Keyed key := by
  refine h.of_nodes (h.wellFormed.connect hg) ?_
  obtain ⟨_, rfl⟩ := h.wellFormed.connect_eq_ok_iff.mp hg
  rfl

theorem disconnect (h : g.Keyed key) (a b : Key) : (g.disconnect a b).Keyed key :=
  h.of_nodes (h.wellFormed.disconnect a b) rfl

theorem remove (h : g.Keyed key) (k : Key) : (g.remove k).Keyed key := by
  refine ⟨h.wellFormed.remove k, fun x v hv => ?_⟩
  have hv' : (g.nodes.erase k).find? x = some v := hv
  rw [OrderedMap.find?_erase] at hv'
  by_cases hx : x = k
  · rw [if_pos hx] at hv'
    cases hv'
  · rw [if_neg hx] at hv'
    exact h.ownKey x v hv'

/-- Vertices listed by their keys. -/
theorem map_key_filterMap (h : g.Keyed key) : ∀ {ks : List Key}, (∀ k ∈ ks, k ∈ g.keys) →
    (ks.filterMap g.label?).map key = ks
  | [], _ => rfl
  | k :: ks, hks => by
    obtain ⟨hk, hks⟩ := List.forall_mem_cons.mp hks
    obtain ⟨v, hv⟩ := mem_keys_iff.mp hk
    rw [List.filterMap_cons_some hv, List.map_cons, h.map_key_filterMap hks, h.ownKey k v hv]

end Keyed

end Graph
end MapReduce
