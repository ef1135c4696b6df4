/-
# Phase plans under any sequence of operations

A plan is sound if its graph is well formed and every operator is stored under
its own key. `PlanEdit` lists the operations; one operation keeps a plan sound
(`Sound.apply`), so every plan that can be built is (`sound_applyAll`).

Adding a leaf is the one operation of several steps. On a sound plan the check of
the edges passes (`Sound.checkEdges_eq_ok`), and since the new operator has no
successors none of the new edges can close a cycle (`feed_eq`). So it fails only
for a key that is taken, and the way back is never needed.

Key definitions: `PlanEdit`, `PhasePlan.apply`, `PhasePlan.applyAll`,
`PhasePlan.Sound`, `PhasePlan.GainsLeaf`.
Key theorems: `PhasePlan.Sound.apply`, `PhasePlan.Sound.apply_error`,
`PhasePlan.Sound.addAsLeaf`, `PhasePlan.sound_and_atomic`.
-/
import MapReduce.Phase.Plan
import MapReduce.Proofs.GraphOrder

namespace MapReduce

/-- An operation on a plan. -/
inductive PlanEdit where
  | add (op : Operator)
  | connect (a b : Key)
  | disconnect (a b : Key)
  | remove (k : Key)
  | addAsLeaf (op : Operator)

namespace PhasePlan

/-- The plan that an operation leaves behind, and its error if it has one. -/
def apply (p : PhasePlan) : PlanEdit → PhasePlan × Except Failure Unit
  | .add op => p.add op
  | .connect a b => p.connect a b
  | .disconnect a b => ((p.disconnect a b).1, .ok ())
  | .remove k => ((p.remove k).1, .ok ())
  | .addAsLeaf op => p.addAsLeaf op

/-- The plan after several operations, those that fail included. -/
def applyAll (p : PhasePlan) (edits : List PlanEdit) : PhasePlan :=
  edits.foldl (fun q e => (q.apply e).1) p

/-- Both indexes cover exactly the operators and mirror each other, no operator
leads to itself, and each is stored under its own key. -/
structure Sound (p : PhasePlan) : Prop extends p.graph.Keyed Operator.key where
  indexed : p.graph.Indexed

/-- `q` is `p` with `op` as its only leaf, fed by the former leaves, and all else
as it was. -/
structure GainsLeaf (p : PhasePlan) (op : Operator) (q : PhasePlan) : Prop where
  fresh : op.key ∉ p.graph.keys
  nodes : q.graph.nodes = p.graph.nodes.insert op.key op
  leaves : q.graph.leaves = [op.key]
  preds : ∀ k, k ∈ q.graph.preds op.key ↔ k ∈ p.graph.leaves
  edges : ∀ a b, q.graph.Edge a b ↔ p.graph.Edge a b ∨ a ∈ p.graph.leaves ∧ b = op.key

variable {p q : PhasePlan} {op : Operator} {a b k : Key}

theorem sound_empty : empty.Sound := ⟨Graph.Keyed.empty, rfl, rfl⟩

/-! ### What each operation does -/

theorem add_of_not_mem (h : op.key ∉ p.graph.keys) :
    ∃ g, p.graph.insert? op.key op = some g ∧ p.add op = (⟨g⟩, .ok ()) := by
  cases hg : p.graph.insert? op.key op with
  | none => exact absurd (Graph.insert?_eq_none_iff.mp hg) h
  | some g => exact ⟨g, rfl, by rw [add, hg]⟩

theorem add_of_mem (h : op.key ∈ p.graph.keys) :
    p.add op = (p, .error (.construction (.duplicateOperator op.key))) := by
  rw [add, Graph.insert?_eq_none_iff.mpr h]

theorem Sound.add (h : p.Sound) (op : Operator) : (p.add op).1.Sound := by
  by_cases hk : op.key ∈ p.graph.keys
  · rw [add_of_mem hk]
    exact h
  · obtain ⟨g, hg, hadd⟩ := add_of_not_mem hk
    rw [hadd]
    exact ⟨h.toKeyed.insert? hg, h.indexed.insert? hg⟩

/-- A connection is made in the graph, or nothing happens. -/
theorem connect_cases (p : PhasePlan) (a b : Key) :
    (∃ g, p.graph.connect a b = .ok g ∧ p.connect a b = (⟨g⟩, .ok ())) ∨
      ∃ e, p.connect a b = (p, .error e) := by
  unfold connect
  cases p.graph.connect a b with
  | ok g => exact .inl ⟨g, rfl, rfl⟩
  | error e =>
    cases e with
    | missing k => exact .inr ⟨_, rfl⟩
    | cycle => exact .inr ⟨_, rfl⟩

/-- A connection that closes no cycle is made. -/
theorem connect_eq_link (h : p.graph.WellFormed) (ha : a ∈ p.graph.keys) (hb : b ∈ p.graph.keys)
    (hne : a ≠ b) (hback : ¬ p.graph.Leads b a) : p.connect a b = (⟨p.graph.link a b⟩, .ok ()) := by
  rw [PhasePlan.connect, h.connect_eq_ok_iff.mpr ⟨⟨ha, hb, hne, hback⟩, rfl⟩]

theorem Sound.connect (h : p.Sound) (a b : Key) : (p.connect a b).1.Sound := by
  rcases p.connect_cases a b with ⟨g, hg, hc⟩ | ⟨e, hc⟩
  · rw [hc]
    obtain ⟨⟨ha, hb, _⟩, rfl⟩ := h.wellFormed.connect_eq_ok_iff.mp hg
    exact ⟨h.toKeyed.connect hg, h.indexed.link ha hb⟩
  · rw [hc]
    exact h

theorem Sound.disconnect (h : p.Sound) (a b : Key) : (p.disconnect a b).1.Sound :=
  ⟨h.toKeyed.disconnect a b, h.indexed.disconnect a b⟩

/-- Taking away an edge that is not there changes nothing. -/
theorem Sound.disconnect_of_not_edge (h : p.Sound) (he : ¬ p.graph.Edge a b) :
    p.disconnect a b = (p, false) := by
  have hhas : p.graph.hasEdge a b = false := decide_eq_false he
  rw [PhasePlan.disconnect, h.wellFormed.disconnect_of_not_edge he, hhas]

theorem remove_of_not_mem (h : k ∉ p.graph.keys) : p.remove k = (p, none) := by
  have hfind : p.find? k = none := (OrderedMap.find?_eq_none_iff p.graph.nodes).mpr h
  rw [remove, hfind]

theorem Sound.remove (h : p.Sound) (k : Key) : (p.remove k).1.Sound := by
  by_cases hk : k ∈ p.graph.keys
  · obtain ⟨op, hop⟩ := Graph.mem_keys_iff.mp hk
    have hfind : p.find? k = some op := hop
    rw [PhasePlan.remove, hfind]
    exact ⟨h.toKeyed.remove k, h.indexed.remove k⟩
  · rw [remove_of_not_mem hk]
    exact h

/-! ### A new leaf -/

/-- The edges of a sound plan pass their check. -/
theorem Sound.checkEdges_eq_ok (h : p.Sound) : p.checkEdges = .ok () := by
  have hg := h.wellFormed
  have hedge : ∀ a b, b ∈ p.graph.succs a → p.edgeFault? a b = none := by
    intro a b hb
    have hcontains : p.graph.contains b = true := Graph.contains_iff.mpr (hg.mem_keys_of_edge hb).2
    have hmirror : (p.graph.preds b).contains a = true := by
      rw [List.contains_iff_mem]
      exact (hg.mirror a b).mp hb
    rw [edgeFault?, hcontains, hmirror]
    rfl
  have hsource : ∀ e ∈ p.graph.outgoing.entries, p.sourceFault? e.1 e.2.elements = none := by
    rintro ⟨a, targets⟩ he
    have hfind : p.graph.outgoing.find? a = some targets := (OrderedMap.mem_entries_iff _).mp he
    have hcontains : p.graph.contains a = true := by
      rw [Graph.contains_iff]
      exact hg.outgoing_subset ((OrderedMap.mem_keys_iff _).mpr ⟨targets, hfind⟩)
    rw [sourceFault?, hcontains]
    refine List.findSome?_eq_none_iff.mpr fun b hb => hedge a b ?_
    exact (EdgeIndex.mem_ends_iff _).mpr ⟨targets, hfind, hb⟩
  have hsize : p.graph.topological.length = p.size := hg.length_topological
  rw [checkEdges, List.findSome?_eq_none_iff.mpr hsource]
  simp [hsize]

/-- The edges from `ks` to `k`, one after the other. -/
def linkAll (g : Graph Operator) (k : Key) (ks : List Key) : Graph Operator :=
  ks.foldl (fun g l => g.link l k) g

theorem edge_linkAll (k : Key) : ∀ (ks : List Key) (g : Graph Operator),
    (linkAll g k ks).Edge a b ↔ g.Edge a b ∨ a ∈ ks ∧ b = k
  | [], g => by simp [linkAll]
  | l :: ks, g => by
    have ih := edge_linkAll k ks (g.link l k)
    rw [linkAll] at ih
    rw [linkAll, List.foldl_cons, ih, Graph.edge_link, List.mem_cons]
    tauto

theorem nodes_linkAll (k : Key) : ∀ (ks : List Key) (g : Graph Operator),
    (linkAll g k ks).nodes = g.nodes
  | [], _ => rfl
  | l :: ks, g => nodes_linkAll k ks (g.link l k)

theorem indexed_linkAll : ∀ {ks : List Key} {g : Graph Operator}, g.Indexed → k ∈ g.keys →
    (∀ l ∈ ks, l ∈ g.keys) → (linkAll g k ks).Indexed
  | [], _, h, _, _ => h
  | l :: ks, g, h, hk, hks => by
    obtain ⟨hl, hks⟩ := List.forall_mem_cons.mp hks
    exact indexed_linkAll (g := g.link l k) (h.link hl hk) hk hks

/-- An operator without successors can be fed by any others: no edge to it
closes a cycle. -/
theorem feed_eq : ∀ {ks : List Key} {q : PhasePlan}, q.graph.WellFormed → k ∈ q.graph.keys →
    (∀ x, ¬ q.graph.Edge k x) → (∀ l ∈ ks, l ∈ q.graph.keys ∧ l ≠ k) →
    q.feed k ks = (⟨linkAll q.graph k ks⟩, .ok ()) ∧ (linkAll q.graph k ks).WellFormed
  | [], q, hq, _, _, _ => ⟨rfl, hq⟩
  | l :: ks, q, hq, hk, hfree, hks => by
    obtain ⟨hl, hlk⟩ := hks l List.mem_cons_self
    have hback : ¬ q.graph.Leads k l := by
      intro hlead
      obtain ⟨x, hx, _⟩ := Relation.TransGen.head'_iff.mp hlead
      exact hfree x hx
    have hfree' : ∀ x, ¬ (q.graph.link l k).Edge k x := by
      intro x hx
      rcases Graph.edge_link.mp hx with hx | ⟨hkl, _⟩
      · exact hfree x hx
      · exact hlk hkl.symm
    have ih := feed_eq (q := ⟨q.graph.link l k⟩) (hq.link hl hk hlk hback) hk hfree'
      fun x hx => hks x (List.mem_cons_of_mem l hx)
    rw [feed, connect_eq_link hq hl hk hlk hback]
    exact ih

/-- A nodup list with one member. -/
theorem eq_singleton_of_mem_iff {l : List Key} (hnd : l.Nodup) (h : ∀ x, x ∈ l ↔ x = k) : l = [k] := by
  refine List.perm_singleton.mp ((List.perm_ext_iff_of_nodup hnd (List.nodup_singleton k)).mpr ?_)
  intro x
  rw [h, List.mem_singleton]

/-- **A leaf can be added under any key that is not taken**, and the plan gains
it as its only leaf. -/
theorem Sound.addAsLeaf (h : p.Sound) (hk : op.key ∉ p.graph.keys) :
    (p.addAsLeaf op).2 = .ok () ∧ p.GainsLeaf op (p.addAsLeaf op).1 ∧ (p.addAsLeaf op).1.Sound := by
  obtain ⟨g, hg, hadd⟩ := add_of_not_mem hk
  have hsound : (⟨g⟩ : PhasePlan).Sound := by
    have := h.add op
    rwa [hadd] at this
  have hedge : ∀ a b, g.Edge a b ↔ p.graph.Edge a b := fun a b => Graph.edge_insert? hg
  have hnodes : g.nodes = p.graph.nodes.insert op.key op := by
    obtain ⟨_, rfl⟩ := Graph.insert?_eq_some_iff.mp hg
    rfl
  have hkeys : ∀ x, x ∈ g.keys ↔ x = op.key ∨ x ∈ p.graph.keys := by
    intro x
    rw [Graph.keys, hnodes]
    exact OrderedMap.mem_keys_upsert p.graph.nodes
  -- the new operator has no edges yet
  have hout : ∀ x, ¬ p.graph.Edge op.key x := fun x hx => hk (h.wellFormed.mem_keys_of_edge hx).1
  have hin : ∀ x, ¬ p.graph.Edge x op.key := fun x hx => hk (h.wellFormed.mem_keys_of_edge hx).2
  have hleaves : ∀ l ∈ p.graph.leaves, l ∈ g.keys ∧ l ≠ op.key := by
    intro l hl
    have hlk := (Graph.mem_leaves_iff.mp hl).1
    exact ⟨(hkeys l).mpr (.inr hlk), fun e => hk (e ▸ hlk)⟩
  have hself : op.key ∈ g.keys := (hkeys op.key).mpr (.inl rfl)
  obtain ⟨hfeed, hwf⟩ := feed_eq (q := ⟨g⟩) hsound.wellFormed hself
    (fun x hx => hout x ((hedge _ x).mp hx)) hleaves
  have hindexed : (linkAll g op.key p.graph.leaves).Indexed :=
    indexed_linkAll hsound.indexed hself fun l hl => (hleaves l hl).1
  have hresult : p.addAsLeaf op = (⟨linkAll g op.key p.graph.leaves⟩, .ok ()) := by
    rw [PhasePlan.addAsLeaf, h.checkEdges_eq_ok, hadd]
    exact hfeed
  have hedges : ∀ a b, (linkAll g op.key p.graph.leaves).Edge a b ↔
      p.graph.Edge a b ∨ a ∈ p.graph.leaves ∧ b = op.key := by
    intro a b
    rw [edge_linkAll, hedge]
  have hnodes' := nodes_linkAll op.key p.graph.leaves g
  rw [hresult]
  refine ⟨rfl, ⟨hk, hnodes'.trans hnodes, ?_, fun k => ?_, hedges⟩, hsound.toKeyed.of_nodes hwf hnodes', hindexed⟩
  · have hmem : ∀ x, x ∈ (linkAll g op.key p.graph.leaves).leaves ↔ x = op.key := by
      intro x
      rw [Graph.mem_leaves_iff, Graph.keys, hnodes', ← Graph.keys, hkeys]
      constructor
      · rintro ⟨rfl | hx, hno⟩
        · rfl
        · -- a former operator keeps its successors, or was a leaf and feeds the new one
          by_contra _
          have hleaf : x ∈ p.graph.leaves :=
            Graph.mem_leaves_iff.mpr ⟨hx, fun y hy => hno y ((hedges x y).mpr (.inl hy))⟩
          exact hno op.key ((hedges x op.key).mpr (.inr ⟨hleaf, rfl⟩))
      · rintro rfl
        refine ⟨.inl rfl, fun y hy => ?_⟩
        rcases (hedges _ y).mp hy with hy | ⟨hl, _⟩
        · exact hout y hy
        · exact hk (Graph.mem_leaves_iff.mp hl).1
    exact eq_singleton_of_mem_iff ((Graph.nodup_keys _).filter _) hmem
  · rw [← hwf.mirror]
    change (linkAll g op.key p.graph.leaves).Edge k op.key ↔ _
    rw [hedges]
    constructor
    · rintro (he | ⟨hl, _⟩)
      · exact absurd he (hin k)
      · exact hl
    · intro hl
      exact .inr ⟨hl, rfl⟩

theorem Sound.addAsLeaf_of_mem (h : p.Sound) (hk : op.key ∈ p.graph.keys) :
    p.addAsLeaf op = (p, .error (.construction (.duplicateOperator op.key))) := by
  rw [PhasePlan.addAsLeaf, h.checkEdges_eq_ok, add_of_mem hk]

/-! ### Any sequence of operations -/

/-- One operation keeps a plan sound. -/
theorem Sound.apply (h : p.Sound) (e : PlanEdit) : (p.apply e).1.Sound := by
  cases e with
  | add op => exact h.add op
  | connect a b => exact h.connect a b
  | disconnect a b => exact h.disconnect a b
  | remove k => exact h.remove k
  | addAsLeaf op =>
    by_cases hk : op.key ∈ p.graph.keys
    · rw [PhasePlan.apply, h.addAsLeaf_of_mem hk]
      exact h
    · exact (h.addAsLeaf hk).2.2

/-- An operation that fails leaves a sound plan as it was. -/
theorem Sound.apply_error (h : p.Sound) {e : PlanEdit} {err : Failure}
    (herr : (p.apply e).2 = .error err) : (p.apply e).1 = p := by
  cases e with
  | add op =>
    by_cases hk : op.key ∈ p.graph.keys
    · rw [PhasePlan.apply, add_of_mem hk]
    · obtain ⟨g, _, hadd⟩ := add_of_not_mem hk
      rw [PhasePlan.apply, hadd] at herr
      cases herr
  | connect a b =>
    rcases p.connect_cases a b with ⟨g, _, hc⟩ | ⟨e, hc⟩
    · rw [PhasePlan.apply, hc] at herr
      cases herr
    · rw [PhasePlan.apply, hc]
  | disconnect a b => cases herr
  | remove k => cases herr
  | addAsLeaf op =>
    by_cases hk : op.key ∈ p.graph.keys
    · rw [PhasePlan.apply, h.addAsLeaf_of_mem hk]
    · rw [PhasePlan.apply, (h.addAsLeaf hk).1] at herr
      cases herr

/-- Every plan that can be built is sound. -/
theorem sound_applyAll (edits : List PlanEdit) : (empty.applyAll edits).Sound := by
  have hrun : ∀ (edits : List PlanEdit) {p : PhasePlan}, p.Sound → (p.applyAll edits).Sound := by
    intro edits
    induction edits with
    | nil => exact fun h => h
    | cons e edits ih => exact fun h => ih (h.apply e)
  exact hrun edits sound_empty

/-- **Plans are sound, and operations are all or nothing.** After any operations
on an empty plan the indexes agree and no cycle is closed. An operation that
fails changes nothing, and neither does taking away what is not there. A leaf is
refused exactly if its key is taken; otherwise it becomes the only leaf, fed by
exactly the former leaves, and no other edge changes. -/
theorem sound_and_atomic (edits : List PlanEdit) :
    let p := empty.applyAll edits
    p.Sound ∧
      (∀ e err, (p.apply e).2 = .error err → (p.apply e).1 = p) ∧
      (∀ k, k ∉ p.graph.keys → p.remove k = (p, none)) ∧
      (∀ a b, ¬ p.graph.Edge a b → p.disconnect a b = (p, false)) ∧
      ∀ op, ((∃ err, (p.addAsLeaf op).2 = .error err) ↔ op.key ∈ p.graph.keys) ∧
        (op.key ∉ p.graph.keys → p.GainsLeaf op (p.addAsLeaf op).1) := by
  intro p
  have h : p.Sound := sound_applyAll edits
  refine ⟨h, fun e err => h.apply_error, fun k => remove_of_not_mem,
    fun a b => h.disconnect_of_not_edge, fun op => ⟨⟨?_, ?_⟩, fun hk => (h.addAsLeaf hk).2.1⟩⟩
  · rintro ⟨err, herr⟩
    by_contra hk
    rw [(h.addAsLeaf hk).1] at herr
    cases herr
  · intro hk
    rw [h.addAsLeaf_of_mem hk]
    exact ⟨_, rfl⟩

end PhasePlan
end MapReduce
