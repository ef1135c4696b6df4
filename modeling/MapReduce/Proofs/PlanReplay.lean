/-
# Plans from their manifests

The manifest of a plan lists its operators in topological order and then its
edges. Carried out on the empty plan, the operators first and then the edges, it is
never refused, and the plan comes back (`PhaseManifest.replay_of`). An operator is
listed once, so no key is taken. While the edges are joined, the plan has a part of
the edges of the one that is rebuilt. A way back from the end of an edge to its start
would be one there too, so no edge closes a cycle.

Key definitions: `PhasePlan.perform`, `PhaseManifest.replay`, `PhasePlan.Alike`,
`PhasePlan.Replayable`.
Key theorems: `PhaseManifest.replay_of`, `PhasePlan.replayable_applyAll`.
-/
import MapReduce.Proofs.LeastOrder
import MapReduce.Proofs.SameWork

namespace MapReduce

/-! ### Operations up to the first that fails -/

namespace PhasePlan

variable {p q : PhasePlan} {op : Operator} {a b : Key}

/-- The plan after several operations, or the error of the first that fails. -/
def perform : PhasePlan → List PlanEdit → Except Failure PhasePlan
  | p, [] => .ok p
  | p, e :: edits =>
    match p.apply e with
    | (q, .ok _) => perform q edits
    | (_, .error err) => .error err

theorem perform_cons {e : PlanEdit} (h : p.apply e = (q, .ok ())) (edits : List PlanEdit) :
    p.perform (e :: edits) = q.perform edits := by
  rw [perform, h]

theorem perform_append : ∀ {edits : List PlanEdit} {p : PhasePlan}, p.perform edits = .ok q →
    ∀ more, p.perform (edits ++ more) = q.perform more
  | [], p, h, more => by
    cases h
    rfl
  | e :: edits, p, h, more => by
    unfold perform at h
    split at h
    · rename_i p' _ he
      rw [List.cons_append, perform_cons he]
      exact perform_append h more
    · cases h

/-- The operators of a plan are those stored under their own keys. -/
theorem Sound.mem_operators (h : p.Sound) : op ∈ p.operators ↔ p.find? op.key = some op := by
  unfold operators Graph.labels OrderedMap.values
  rw [List.mem_map]
  constructor
  · rintro ⟨⟨k, v⟩, he, rfl⟩
    have hfind := (OrderedMap.mem_entries_iff p.graph.nodes).mp he
    have hkey : v.key = k := h.ownKey k v hfind
    exact hkey ▸ hfind
  · intro hop
    exact ⟨(op.key, op), (OrderedMap.mem_entries_iff p.graph.nodes).mpr hop, rfl⟩

/-- An operator under a key that is free is added, and nothing else changes. -/
theorem Sound.add_eq_ok (h : p.Sound) (hop : op.key ∉ p.graph.keys) :
    ∃ q, p.add op = (q, .ok ()) ∧ q.Sound ∧
      (∀ x, x ∈ q.operators ↔ x = op ∨ x ∈ p.operators) ∧
      (∀ k, k ∈ q.graph.keys ↔ k = op.key ∨ k ∈ p.graph.keys) ∧
      ∀ a b, q.graph.Edge a b ↔ p.graph.Edge a b := by
  obtain ⟨g, hg, hadd⟩ := add_of_not_mem hop
  have hsound : PhasePlan.Sound ⟨g⟩ := ⟨h.toKeyed.insert? hg, h.indexed.insert? hg⟩
  refine ⟨⟨g⟩, hadd, hsound, fun x => ?_, fun k => ?_, fun a b => Graph.edge_insert? hg⟩
  · rw [hsound.mem_operators, h.mem_operators]
    obtain ⟨_, rfl⟩ := Graph.insert?_eq_some_iff.mp hg
    have hfind : (p.graph.nodes.insert op.key op).find? x.key =
        if x.key = op.key then some op else p.graph.nodes.find? x.key :=
      OrderedMap.find?_upsert_eq _ _ _ _
    change (p.graph.nodes.insert op.key op).find? x.key = some x ↔ _
    rw [hfind]
    by_cases hx : x.key = op.key
    · have hnone : p.find? x.key = none := (OrderedMap.find?_eq_none_iff p.graph.nodes).mpr (hx ▸ hop)
      rw [if_pos hx, hnone]
      simp [eq_comm]
    · have hne : x ≠ op := fun e => hx (congrArg Operator.key e)
      rw [if_neg hx]
      simp only [hne, false_or]
      rfl
  · obtain ⟨_, rfl⟩ := Graph.insert?_eq_some_iff.mp hg
    exact Graph.mem_keys_insert

/-- Operators under different keys, all free, are added one after the other. -/
theorem Sound.perform_add : ∀ {ops : List Operator} {p : PhasePlan}, p.Sound →
    (ops.map Operator.key).Nodup → (∀ op ∈ ops, op.key ∉ p.graph.keys) →
    ∃ q, p.perform (ops.map .add) = .ok q ∧ q.Sound ∧
      (∀ x, x ∈ q.operators ↔ x ∈ ops ∨ x ∈ p.operators) ∧
      ∀ a b, q.graph.Edge a b ↔ p.graph.Edge a b
  | [], p, h, _, _ => ⟨p, rfl, h, by simp, fun _ _ => Iff.rfl⟩
  | op :: ops, p, h, hnd, hfree => by
    obtain ⟨hop, hops⟩ := List.nodup_cons.mp hnd
    obtain ⟨q, hq, hsound, hmem, hkeys, hedge⟩ := h.add_eq_ok (hfree op List.mem_cons_self)
    have hfree' : ∀ x ∈ ops, x.key ∉ q.graph.keys := by
      intro x hx hk
      rcases (hkeys x.key).mp hk with hk | hk
      · exact hop (hk ▸ List.mem_map_of_mem hx)
      · exact hfree x (List.mem_cons_of_mem op hx) hk
    obtain ⟨r, hr, hrsound, hrmem, hredge⟩ := hsound.perform_add hops hfree'
    refine ⟨r, (perform_cons (e := .add op) hq _).trans hr, hrsound, fun x => ?_, fun a b => ?_⟩
    · rw [hrmem, hmem, List.mem_cons, or_left_comm, or_assoc]
    · rw [hredge, hedge]

/-- Edges that close no cycle together are joined one after the other. -/
theorem Sound.perform_connect {r : Key → Key → Prop} (hr : ∀ k, ¬ Relation.TransGen r k k) :
    ∀ {es : List (Key × Key)} {p : PhasePlan}, p.Sound → (∀ a b, p.graph.Edge a b → r a b) →
    (∀ e ∈ es, r e.1 e.2 ∧ e.1 ∈ p.graph.keys ∧ e.2 ∈ p.graph.keys) →
    ∃ q, p.perform (es.map fun e => .connect e.1 e.2) = .ok q ∧ q.Sound ∧
      q.graph.nodes = p.graph.nodes ∧ ∀ a b, q.graph.Edge a b ↔ p.graph.Edge a b ∨ (a, b) ∈ es
  | [], p, h, _, _ => ⟨p, rfl, h, rfl, by simp⟩
  | (x, y) :: es, p, h, hle, hes => by
    obtain ⟨⟨hxy, hx, hy⟩, hes⟩ := List.forall_mem_cons.mp hes
    have hne : x ≠ y := by
      rintro rfl
      exact hr x (.single hxy)
    have hback : ¬ p.graph.Leads y x := by
      intro hl
      have hl' : Relation.TransGen r y x := Relation.TransGen.mono hle _ _ hl
      exact hr x (hl'.head hxy)
    have hstep := connect_eq_link h.wellFormed hx hy hne hback
    have hlink : PhasePlan.Sound ⟨p.graph.link x y⟩ :=
      ⟨h.toKeyed.of_nodes (h.wellFormed.link hx hy hne hback) rfl, h.indexed.link hx hy⟩
    have hle' : ∀ a b, (p.graph.link x y).Edge a b → r a b := by
      intro a b he
      rcases Graph.edge_link.mp he with he | ⟨rfl, rfl⟩
      · exact hle a b he
      · exact hxy
    obtain ⟨q, hq, hsound, hnodes, hedge⟩ := hlink.perform_connect hr hle' hes
    refine ⟨q, (perform_cons (e := .connect x y) hstep _).trans hq, hsound, hnodes, fun a b => ?_⟩
    rw [hedge, Graph.edge_link, List.mem_cons, Prod.mk.injEq, or_assoc]

end PhasePlan

/-! ### Manifests carried out again -/

namespace PhaseManifest

variable {p q : PhasePlan}

/-- What builds the plan of a manifest: its operators are added and then its
edges joined, both in the order in which they are listed. -/
def edits (m : PhaseManifest) : List PlanEdit :=
  m.operators.map .add ++ m.edges.map fun e => .connect e.1 e.2

/-- The plan that a manifest builds from nothing. -/
def replay (m : PhaseManifest) : Except Failure PhasePlan := PhasePlan.empty.perform m.edits

/-- The operators stand in topological order. -/
theorem map_key_operators_of (h : p.Sound) : (of p).operators.map Operator.key = p.graph.topological :=
  h.toKeyed.map_key_filterMap fun _ hk => h.wellFormed.perm_topological.mem_iff.mp hk

/-- **A manifest is carried out without failure, and gives back the plan.** -/
theorem replay_of (h : p.Sound) : (of p).replay = .ok p := by
  have hnodup : ((of p).operators.map Operator.key).Nodup := by
    rw [map_key_operators_of h]
    exact h.wellFormed.linearExtension_topological.nodup
  obtain ⟨q, hq, hsound, hops, hnone⟩ :=
    PhasePlan.sound_empty.perform_add hnodup fun op _ => List.not_mem_nil
  have hmem : ∀ op, op ∈ q.operators ↔ op ∈ p.operators := by
    intro op
    rw [hops, mem_operators_of h, h.mem_operators]
    exact or_iff_left List.not_mem_nil
  have hle : ∀ a b, q.graph.Edge a b → p.graph.Edge a b := by
    intro a b he
    cases (hnone a b).mp he
  have hkeys : ∀ k, k ∈ p.graph.keys → k ∈ q.graph.keys := by
    intro k hk
    obtain ⟨op, hop⟩ := Graph.mem_keys_iff.mp hk
    have hkey : op.key = k := h.ownKey k op hop
    subst hkey
    have hq : op ∈ q.operators := (hmem op).mpr (h.mem_operators.mpr hop)
    exact Graph.mem_keys_iff.mpr ⟨op, hsound.mem_operators.mp hq⟩
  have hedges : ∀ e ∈ (of p).edges,
      p.graph.Edge e.1 e.2 ∧ e.1 ∈ q.graph.keys ∧ e.2 ∈ q.graph.keys := by
    intro e he
    have hedge := (mem_edges_of h).mp he
    obtain ⟨ha, hb⟩ := h.wellFormed.mem_keys_of_edge hedge
    exact ⟨hedge, hkeys _ ha, hkeys _ hb⟩
  obtain ⟨r, hr, hrsound, hnodes, hredge⟩ :=
    PhasePlan.Sound.perform_connect h.wellFormed.acyclic hsound hle hedges
  have hrp : r = p := by
    refine hrsound.ext h (fun op => ?_) fun a b => ?_
    · rw [← h.mem_operators, ← hmem, hsound.mem_operators, PhasePlan.find?, Graph.label?, hnodes]
      rfl
    · rw [hredge, mem_edges_of h]
      exact or_iff_right_of_imp (hle a b)
  rw [replay, edits, PhasePlan.perform_append hq, hr, hrp]

end PhaseManifest

/-! ### Plans however they were built -/

namespace PhasePlan

/-- The same operators and the same edges. -/
def Alike (p q : PhasePlan) : Prop :=
  (∀ op, op ∈ p.operators ↔ op ∈ q.operators) ∧ ∀ a b, p.graph.Edge a b ↔ q.graph.Edge a b

theorem Sound.eq_of_alike {p q : PhasePlan} (hp : p.Sound) (hq : q.Sound) (h : p.Alike q) : p = q := by
  refine hp.ext hq (fun op => ?_) h.2
  rw [← hp.mem_operators, ← hq.mem_operators]
  exact h.1 op

/-- What holds of the order and of the manifest of a plan. -/
structure Replayable (p : PhasePlan) : Prop where
  /-- The order has each operator once, and every edge goes forward in it. -/
  order : p.graph.LinearExtension p.graph.topological
  /-- It is the least such order, key by key. -/
  least : ∀ l, p.graph.LinearExtension l → (List.compareLex Key.compare p.graph.topological l).isLE
  /-- No counter goes below zero, and more steps would take nothing more. -/
  counters : ∀ n, p.graph.takeReady? n p.graph.frontier = some (p.graph.takeReady n p.graph.frontier) ∧
    (p.graph.size ≤ n → p.graph.takeReady n p.graph.frontier = p.graph.topological)
  replay : (PhaseManifest.of p).replay = .ok p

/-- **Plans can be rebuilt from their manifests.** Whatever operations built a
plan, its topological order is the least in which every edge goes forward, and is
found without a counter below zero. The manifest in that order builds the plan
again. So two plans have one manifest exactly if they have the same operators and
edges, and then they are explained alike. -/
theorem replayable_applyAll (edits edits' : List PlanEdit) :
    let p := empty.applyAll edits
    let q := empty.applyAll edits'
    p.Replayable ∧ (p.Alike q ↔ PhaseManifest.of p = PhaseManifest.of q) ∧
      (p.Alike q → p.explain = q.explain) := by
  intro p q
  have hp : p.Sound := sound_applyAll edits
  have hq : q.Sound := sound_applyAll edits'
  have hg := hp.wellFormed
  refine ⟨⟨hg.linearExtension_topological, fun l => hg.topological_isLE, fun n => ?_, ?_⟩, ?_, ?_⟩
  · exact ⟨hg.takeReady?_eq n (Frontier.tracks_frontier hg), hg.takeReady_eq⟩
  · exact PhaseManifest.replay_of hp
  · constructor
    · intro h
      rw [hp.eq_of_alike hq h]
    · intro h
      rw [PhaseManifest.eq_of_of_eq hp hq h]
      exact ⟨fun _ => Iff.rfl, fun _ _ => Iff.rfl⟩
  · intro h
    rw [hp.eq_of_alike hq h]

/-- A load that a filter follows. -/
def loadThenFilter : List PlanEdit :=
  [.add ⟨⟨"s", 2⟩, .load ⟨"input", "reader"⟩⟩, .add ⟨⟨"s", 1⟩, .filter "x > 0"⟩,
    .connect ⟨"s", 2⟩ ⟨"s", 1⟩]

/-- The same with the filter first, and an edge back that is refused. -/
def filterThenLoad : List PlanEdit :=
  [.add ⟨⟨"s", 1⟩, .filter "x > 0"⟩, .add ⟨⟨"s", 2⟩, .load ⟨"input", "reader"⟩⟩,
    .connect ⟨"s", 2⟩ ⟨"s", 1⟩, .connect ⟨"s", 1⟩ ⟨"s", 2⟩]

theorem replayable_applyAll_either_order :
    (empty.applyAll loadThenFilter).Alike (empty.applyAll filterThenLoad) ∧
      (empty.applyAll loadThenFilter).explain = (empty.applyAll filterThenLoad).explain := by
  have hof : PhaseManifest.of (empty.applyAll loadThenFilter) =
      PhaseManifest.of (empty.applyAll filterThenLoad) := by cbv
  have h := replayable_applyAll loadThenFilter filterThenLoad
  have halike := h.2.1.mpr hof
  exact ⟨halike, h.2.2 halike⟩

end PhasePlan
end MapReduce
