/-
# The order of a well-formed graph

In an acyclic graph some vertex of any finite set has no predecessor in it, and
some has no successor in it. The second gives a leaf that a vertex leads to
(`WellFormed.exists_leaf`), so a graph with one leaf hangs together. The first
keeps the topological order going until every vertex is taken.

While vertices are taken, the frontier counts for each vertex its predecessors
that are left, and holds the vertices for which that count is zero
(`Frontier.Tracks`). Taking a vertex keeps this up (`Tracks.take`): a successor
still has the vertex among its predecessors left, so its counter is never zero
when it is lowered. The order that comes out is `Scheduled`: each time the least
vertex of those without a predecessor left.

Key definitions: `Frontier.Tracks`, `Graph.Scheduled`.
Key theorems: `Graph.WellFormed.exists_leaf`,
`Graph.WellFormed.scheduled_topological`, `Graph.Scheduled.perm`,
`Graph.WellFormed.mem_before_of_leads`.
-/
import MapReduce.Graph.Order
import MapReduce.Proofs.GraphInvariant

namespace MapReduce

/-- Along an acyclic relation some member of a list has none of the others
before it. -/
theorem exists_minimal_of_acyclic {r : Key → Key → Prop} (hr : ∀ x, ¬ Relation.TransGen r x x)
    {l : List Key} (hl : l ≠ []) : ∃ k ∈ l, ∀ p ∈ l, ¬ r p k := by
  have : IsStrictOrder Key (Relation.TransGen r) :=
    { irrefl := hr, trans := fun _ _ _ => Relation.TransGen.trans }
  have hwf : {x | x ∈ l}.WellFoundedOn (Relation.TransGen r) :=
    Set.Finite.wellFoundedOn l.finite_toSet
  obtain ⟨x, hx⟩ := List.exists_mem_of_ne_nil l hl
  obtain ⟨⟨k, hk⟩, _, hmin⟩ := WellFounded.has_min hwf Set.univ ⟨⟨x, hx⟩, trivial⟩
  exact ⟨k, hk, fun p hp hpk => hmin ⟨p, hp⟩ trivial (.single hpk)⟩

namespace Graph

variable {α : Type} {g : Graph α} {a b k x y : Key}

/-! ### Leaves -/

theorem mem_leaves_iff : k ∈ g.leaves ↔ k ∈ g.keys ∧ ∀ x, ¬ g.Edge k x := by
  unfold leaves
  rw [List.mem_filter, List.isEmpty_iff, List.eq_nil_iff_forall_not_mem]
  rfl

/-- Every vertex is a leaf or leads to one. -/
theorem WellFormed.exists_leaf (h : g.WellFormed) (hk : k ∈ g.keys) :
    ∃ l ∈ g.leaves, Relation.ReflTransGen g.Edge k l := by
  have hself : k ∈ explore g.succs g.keys [k] := (h.mem_explore_iff hk).mpr (.inl rfl)
  have hacyclic : ∀ x, ¬ Relation.TransGen (Function.swap g.Edge) x x :=
    fun x hx => h.acyclic x (Relation.transGen_swap.mp hx)
  obtain ⟨l, hl, hlast⟩ := exists_minimal_of_acyclic hacyclic (List.ne_nil_of_mem hself)
  refine ⟨l, mem_leaves_iff.mpr ⟨mem_unseen_of_mem_explore hl, fun x hx => ?_⟩, ?_⟩
  · -- a successor of what was found is found too
    exact hlast x (mem_explore_of_next hl hx (h.mem_keys_of_edge hx).2) hx
  · exact Relation.reflTransGen_iff_eq_or_transGen.mpr ((h.mem_explore_iff hk).mp hl)

theorem joined_of_reaches (h : Relation.ReflTransGen g.Edge a b) : g.Joined a b :=
  Relation.ReflTransGen.mono (fun _ _ he => .inl he) _ _ h

/-- A graph with at most one leaf hangs together. -/
theorem WellFormed.joined_of_leaves_le_one (h : g.WellFormed) (hl : g.leaves.length ≤ 1)
    (ha : a ∈ g.keys) (hb : b ∈ g.keys) : g.Joined a b := by
  obtain ⟨l, hla, hal⟩ := h.exists_leaf ha
  obtain ⟨l', hlb, hbl⟩ := h.exists_leaf hb
  have hll : l = l' := by
    match hg : g.leaves, hl, hla, hlb with
    | [m], _, hla, hlb => rw [List.mem_singleton.mp hla, List.mem_singleton.mp hlb]
  subst hll
  exact (joined_of_reaches hal).trans (joined_of_reaches hbl).symm

end Graph

/-! ### The frontier -/

namespace Frontier

variable {α : Type} {g : Graph α} {f : Frontier} {left : List Key} {k x : Key}

/-- What a frontier says while the vertices `left` are still to be taken. -/
structure Tracks (g : Graph α) (left : List Key) (f : Frontier) : Prop where
  nodup : left.Nodup
  mem_keys : ∀ k ∈ left, k ∈ g.keys
  /-- A vertex is taken after its predecessors. -/
  closed : ∀ p ∈ left, ∀ s, g.Edge p s → s ∈ left
  waiting : ∀ k ∈ g.keys, f.waiting.find? k = some ((g.preds k).countP (fun p => decide (p ∈ left)))
  ready : ∀ k, k ∈ f.ready.elements ↔ k ∈ left ∧ ∀ p ∈ g.preds k, p ∉ left

theorem find?_release {n : Nat} (h : f.waiting.find? k = some (n + 1)) :
    (f.release k).waiting.find? x = if x = k then some n else f.waiting.find? x := by
  unfold release
  rw [h]
  exact f.waiting.find?_upsert_eq k x _

theorem mem_ready_release {n : Nat} (h : f.waiting.find? k = some (n + 1)) :
    x ∈ (f.release k).ready.elements ↔ x ∈ f.ready.elements ∨ x = k ∧ n = 0 := by
  unfold release
  rw [h]
  by_cases hn : n = 0
  · simp [hn, OrderedSet.mem_add, or_comm]
  · simp [hn]

/-- The others still wait when a vertex is released. -/
theorem waits_release {n : Nat} (h : f.waiting.find? k = some (n + 1)) {ks : List Key} (hk : k ∉ ks)
    (hpos : ∀ y ∈ ks, ∃ m, f.waiting.find? y = some (m + 1)) :
    ∀ y ∈ ks, ∃ m, (f.release k).waiting.find? y = some (m + 1) := by
  intro y hy
  have hyk : y ≠ k := fun e => hk (e ▸ hy)
  rw [find?_release h, if_neg hyk]
  exact hpos y hy

/-- Several vertices, each of which waits, are released one after the other. -/
theorem foldl_release (x : Key) : ∀ {ks : List Key} {f : Frontier}, ks.Nodup →
    (∀ k ∈ ks, ∃ n, f.waiting.find? k = some (n + 1)) →
    ((ks.foldl release f).waiting.find? x =
        if x ∈ ks then (f.waiting.find? x).map (· - 1) else f.waiting.find? x) ∧
      (x ∈ (ks.foldl release f).ready.elements ↔
        x ∈ f.ready.elements ∨ x ∈ ks ∧ f.waiting.find? x = some 1)
  | [], f, _, _ => by simp
  | k :: ks, f, hnd, hpos => by
    obtain ⟨hk, hks⟩ := List.nodup_cons.mp hnd
    obtain ⟨n, hn⟩ := hpos k List.mem_cons_self
    have hpos' := waits_release hn hk fun y hy => hpos y (List.mem_cons_of_mem k hy)
    obtain ⟨ihw, ihr⟩ := foldl_release x hks hpos'
    rw [List.foldl_cons, ihw, ihr, find?_release hn, mem_ready_release hn]
    by_cases hx : x = k
    · subst hx
      simp [hk, hn]
    · simp [hx]

theorem take_spec (k x : Key) {ks : List Key} (hnd : ks.Nodup)
    (hpos : ∀ s ∈ ks, ∃ n, f.waiting.find? s = some (n + 1)) :
    ((f.take k ks).waiting.find? x =
        if x ∈ ks then (f.waiting.find? x).map (· - 1) else f.waiting.find? x) ∧
      (x ∈ (f.take k ks).ready.elements ↔
        (x ≠ k ∧ x ∈ f.ready.elements) ∨ x ∈ ks ∧ f.waiting.find? x = some 1) := by
  obtain ⟨hw, hr⟩ := foldl_release x (f := ⟨f.waiting, f.ready.erase k⟩) hnd hpos
  exact ⟨hw, hr.trans (or_congr_left (OrderedSet.mem_erase f.ready))⟩

/-- One vertex less is left to count. -/
theorem countP_mem_erase (hnd : left.Nodup) (hk : k ∈ left) : ∀ l : List Key,
    l.countP (fun p => decide (p ∈ left)) =
      l.countP (fun p => decide (p ∈ left.erase k)) + l.count k
  | [] => rfl
  | p :: l => by
    rw [List.countP_cons, List.countP_cons, List.count_cons, countP_mem_erase hnd hk l]
    by_cases hp : p = k
    · subst hp
      simp [hk, hnd.not_mem_erase]
      omega
    · simp [hp, List.mem_erase_of_ne hp]
      omega

namespace Tracks

/-- A vertex that is taken is a predecessor less for each of its successors. -/
theorem countP_preds (h : Tracks g left f) (hg : g.WellFormed) (hk : k ∈ left) (y : Key) :
    (g.preds y).countP (fun p => decide (p ∈ left)) =
      (g.preds y).countP (fun p => decide (p ∈ left.erase k)) + if y ∈ g.succs k then 1 else 0 := by
  rw [countP_mem_erase h.nodup hk, (g.nodup_preds y).count]
  exact congrArg _ (if_congr (hg.mirror k y).symm rfl rfl)

/-- The counter of a successor is not zero when it is lowered. -/
theorem waiting_succ (h : Tracks g left f) (hg : g.WellFormed) (hk : k ∈ left) {y : Key}
    (hy : y ∈ g.succs k) : ∃ n, f.waiting.find? y = some (n + 1) := by
  have hc := h.countP_preds hg hk y
  rw [if_pos hy] at hc
  exact ⟨_, (h.waiting y (hg.mem_keys_of_edge hy).2).trans (congrArg some hc)⟩

/-- **Taking a vertex that is ready leaves a frontier for the others.** -/
theorem take (h : Tracks g left f) (hg : g.WellFormed) (hk : k ∈ f.ready.elements) :
    Tracks g (left.erase k) (f.take k (g.succs k)) := by
  obtain ⟨hkl, hfree⟩ := (h.ready k).mp hk
  have hmem : ∀ y, y ∈ left.erase k ↔ y ≠ k ∧ y ∈ left := fun y => h.nodup.mem_erase_iff
  have hspec := fun y => take_spec (f := f) k y (g.nodup_succs k) fun s hs => h.waiting_succ hg hkl hs
  refine ⟨h.nodup.erase k, fun y hy => h.mem_keys y (List.mem_of_mem_erase hy), ?_, ?_, ?_⟩
  · intro p hp s hs
    have hpl := ((hmem p).mp hp).2
    refine (hmem s).mpr ⟨?_, h.closed p hpl s hs⟩
    rintro rfl
    exact hfree p ((hg.mirror p s).mp hs) hpl
  · intro y hy
    rw [(hspec y).1, h.waiting y hy, h.countP_preds hg hkl y]
    by_cases hs : y ∈ g.succs k <;> simp [hs]
  · intro y
    rw [(hspec y).2]
    constructor
    · rintro (⟨hyk, hy⟩ | ⟨hs, hone⟩)
      · obtain ⟨hyl, hyfree⟩ := (h.ready y).mp hy
        exact ⟨(hmem y).mpr ⟨hyk, hyl⟩, fun p hp hpl => hyfree p hp ((hmem p).mp hpl).2⟩
      · -- the vertex was the last predecessor that its successor waited for
        have hyk : y ≠ k := by
          rintro rfl
          exact hg.acyclic y (.single hs)
        have hc := h.countP_preds hg hkl y
        rw [if_pos hs, Option.some.inj ((h.waiting y (hg.mem_keys_of_edge hs).2).symm.trans hone)] at hc
        have hzero : (g.preds y).countP (fun p => decide (p ∈ left.erase k)) = 0 := by omega
        refine ⟨(hmem y).mpr ⟨hyk, h.closed k hkl y hs⟩, fun p hp hpl => ?_⟩
        exact List.countP_eq_zero.mp hzero p hp (decide_eq_true hpl)
    · rintro ⟨hy, hyfree⟩
      obtain ⟨hyk, hyl⟩ := (hmem y).mp hy
      have hzero : (g.preds y).countP (fun p => decide (p ∈ left.erase k)) = 0 :=
        List.countP_eq_zero.mpr fun p hp hpl => hyfree p hp (of_decide_eq_true hpl)
      have hc := h.countP_preds hg hkl y
      have hw := h.waiting y (h.mem_keys y hyl)
      rw [hc, hzero] at hw
      by_cases hs : y ∈ g.succs k
      · rw [if_pos hs] at hw
        exact .inr ⟨hs, hw⟩
      · rw [if_neg hs, hzero] at hc
        refine .inl ⟨hyk, (h.ready y).mpr ⟨hyl, fun p hp hpl => ?_⟩⟩
        exact List.countP_eq_zero.mp hc p hp (decide_eq_true hpl)

/-- While vertices are left, one of them is ready. -/
theorem ready_ne_nil (h : Tracks g left f) (hg : g.WellFormed) (hne : left ≠ []) :
    f.ready.elements ≠ [] := by
  obtain ⟨k, hk, hfirst⟩ := exists_minimal_of_acyclic (r := g.Edge) hg.acyclic hne
  refine List.ne_nil_of_mem ((h.ready k).mpr ⟨hk, fun p hp hpl => ?_⟩)
  exact hfirst p hpl ((hg.mirror p k).mpr hp)

end Tracks

/-- At first every vertex is left. -/
theorem tracks_frontier (hg : g.WellFormed) : Tracks g g.keys g.frontier := by
  have hall : ∀ k, (g.preds k).countP (fun p => decide (p ∈ g.keys)) = (g.preds k).length := by
    intro k
    refine List.countP_eq_length.mpr fun p hp => decide_eq_true ?_
    exact (hg.mem_keys_of_edge ((hg.mirror p k).mpr hp)).1
  have hwaiting : ∀ k, g.frontier.waiting.find? k =
      (g.nodes.find? k).map (fun _ => (g.preds k).length) := by
    intro k
    exact g.nodes.find?_mapValues _ k
  refine ⟨g.nodup_keys, fun _ hk => hk, fun p _ s hs => (hg.mem_keys_of_edge hs).2, ?_, ?_⟩
  · intro k hk
    obtain ⟨v, hv⟩ := (OrderedMap.mem_keys_iff g.nodes).mp hk
    rw [hwaiting, hv, hall]
    rfl
  · intro k
    have hready : k ∈ g.frontier.ready.elements ↔
        ∃ n, g.frontier.waiting.find? k = some n ∧ (n == 0) = true := by
      unfold OrderedSet.elements Graph.frontier
      rw [OrderedMap.keys_mapValues]
      exact OrderedMap.mem_keys_filter _ _
    have hnone : (∀ p ∈ g.preds k, p ∉ g.keys) ↔ g.preds k = [] := by
      rw [List.eq_nil_iff_forall_not_mem]
      refine forall_congr' fun p => ⟨fun hp hpk => ?_, fun hp hpk => absurd hpk hp⟩
      exact hp hpk (hg.mem_keys_of_edge ((hg.mirror p k).mpr hpk)).1
    rw [hready, hwaiting, hnone, Graph.keys, OrderedMap.mem_keys_iff]
    cases g.nodes.find? k <;> simp

end Frontier

namespace Graph

variable {α : Type} {g : Graph α} {a b k x y : Key}

/-! ### The order -/

/-- The vertices `left` are listed so that each, when its turn comes, is the
least of those without a predecessor left. -/
inductive Scheduled (g : Graph α) : List Key → List Key → Prop where
  | nil : Scheduled g [] []
  | cons {left order : List Key} {k : Key} (mem : k ∈ left) (free : ∀ p ∈ g.preds k, p ∉ left)
      (least : ∀ x ∈ left, (∀ p ∈ g.preds x, p ∉ left) → (Key.compare k x).isLE)
      (rest : Scheduled g (left.erase k) order) : Scheduled g left (k :: order)

/-- Vertices are taken until none is left. -/
theorem WellFormed.scheduled_takeReady (hg : g.WellFormed) : ∀ {n : Nat} {left : List Key}
    {f : Frontier}, f.Tracks g left → left.length ≤ n → g.Scheduled left (g.takeReady n f)
  | 0, left, f, _, hn => by
    rw [List.eq_nil_of_length_eq_zero (Nat.le_zero.mp hn)]
    exact .nil
  | n + 1, left, f, h, hn => by
    rw [takeReady]
    split
    · rename_i hready
      have hleft : left = [] := by
        by_contra hne
        exact h.ready_ne_nil hg hne hready
      rw [hleft]
      exact .nil
    · rename_i k ks hready
      have hk : k ∈ f.ready.elements := hready ▸ List.mem_cons_self
      obtain ⟨hkl, hfree⟩ := (h.ready k).mp hk
      have hlen := List.length_erase_of_mem hkl
      refine .cons hkl hfree ?_ (hg.scheduled_takeReady (h.take hg hk) (by omega))
      intro x hx hxfree
      have hxr : x ∈ k :: ks := hready ▸ (h.ready x).mpr ⟨hx, hxfree⟩
      have hsorted : (k :: ks).Pairwise (fun a b => Key.compare a b = .lt) :=
        hready ▸ OrderedMap.pairwise_keys f.ready
      rcases List.mem_cons.mp hxr with rfl | hxr
      · have hself : Key.compare x x = .eq := Std.ReflCmp.compare_self
        rw [hself]
        rfl
      · rw [List.rel_of_pairwise_cons hsorted hxr]
        rfl

theorem length_keys (g : Graph α) : g.keys.length = g.size := List.length_map _

/-- **The topological order of a well-formed graph** takes every vertex, each
time the least of those that wait for no other. -/
theorem WellFormed.scheduled_topological (hg : g.WellFormed) : g.Scheduled g.keys g.topological :=
  hg.scheduled_takeReady (Frontier.tracks_frontier hg) g.length_keys.le

namespace Scheduled

variable {left order : List Key}

theorem perm (h : g.Scheduled left order) : order.Perm left := by
  induction h with
  | nil => exact .nil
  | cons mem _ _ _ ih => exact (ih.cons _).trans (List.perm_cons_erase mem).symm

/-- A predecessor that is left stands earlier in the order. -/
theorem mem_before (h : g.Scheduled left order) {pre post : List Key} (ho : order = pre ++ k :: post)
    {p : Key} (hp : p ∈ g.preds k) (hpl : p ∈ left) : p ∈ pre := by
  induction h generalizing pre with
  | nil => simp at ho
  | @cons left order k' mem free _ _ ih =>
    cases pre with
    | nil =>
      obtain ⟨rfl, _⟩ := List.cons.inj ho
      exact absurd hpl (free p hp)
    | cons q pre =>
      obtain ⟨rfl, ho'⟩ := List.cons.inj ho
      by_cases hpq : p = k'
      · exact hpq ▸ List.mem_cons_self
      · exact List.mem_cons_of_mem k' (ih ho' ((List.mem_erase_of_ne hpq).mpr hpl))

end Scheduled

theorem WellFormed.perm_topological (hg : g.WellFormed) : g.topological.Perm g.keys :=
  hg.scheduled_topological.perm

theorem WellFormed.length_topological (hg : g.WellFormed) : g.topological.length = g.size :=
  hg.perm_topological.length_eq.trans g.length_keys

/-- **What leads to a vertex stands before it in the order.** -/
theorem WellFormed.mem_before_of_leads (hg : g.WellFormed) (hl : g.Leads a b) {pre post : List Key}
    (ho : g.topological = pre ++ b :: post) : a ∈ pre := by
  have hedge : ∀ {x y pre post}, g.Edge x y → g.topological = pre ++ y :: post → x ∈ pre :=
    fun he ho => hg.scheduled_topological.mem_before ho ((hg.mirror _ _).mp he) (hg.mem_keys_of_edge he).1
  induction hl generalizing pre post with
  | single he => exact hedge he ho
  | @tail y z _ he ih =>
    -- the last vertex of the path stands earlier, and the rest of the path before that one
    obtain ⟨pre₁, post₁, hpre⟩ := List.append_of_mem (hedge he ho)
    have ho' : g.topological = pre₁ ++ y :: (post₁ ++ z :: post) := by
      rw [ho, hpre]
      simp
    have ha : a ∈ pre₁ := ih ho'
    rw [hpre]
    exact List.mem_append_left _ ha

end Graph
end MapReduce
