/-
# The outline of a plan

A plan is explained by a recursion from each leaf back towards the roots. It keeps no
note of where it has been, so an operator that feeds several others comes up once for
each way from it to the leaf. `Graph.Unfolds` is that recursion without any bound on
its depth: it ends for some lines or does not end at all. The outline is computed with
a bound, the number of vertices. In a well-formed graph no path is longer
(`WellFormed.length_lt_size`), so the recursion ends, and with the same lines
(`WellFormed.unfolds_iff`).

What the lines are is said without the recursion. A path to a leaf, read backwards from
the leaf, is a list of keys, and the paths to a leaf have an order: key by key, a path
before those that go on from it. That is the order in which a tree of paths is written
down with every node before its children (`Graph.PathsTo`). The outline has a line for
each of these paths, in this order (`WellFormed.outline_eq`), and since every vertex has
a way to some leaf it has a line for every vertex (`WellFormed.exists_mem_outline`).

Key definitions: `Graph.Unfolds`, `Graph.Trail`, `Graph.PathsTo`, `PhasePlan.Explained`.
Key theorems: `Graph.WellFormed.unfolds_iff`, `Graph.WellFormed.outline_eq`,
`Graph.WellFormed.exists_mem_outline`, `PhasePlan.explained_applyAll`.
-/
import MapReduce.Proofs.PlanReplay

namespace MapReduce
namespace Graph

variable {α : Type} {g : Graph α} {k : Key} {d : Nat}

/-! ### Paths read backwards -/

/-- `t` goes back from `k`, against an edge with every step: read from its end it is a
path to `k`. -/
def Trail (g : Graph α) (k : Key) (t : List Key) : Prop := (k :: t).IsChain (fun b a => g.Edge a b)

/-- `trails` lists the paths to `k`, read backwards, each once: a path before those that
go on from it, and of two that part that with the smaller key first. -/
structure PathsTo (g : Graph α) (k : Key) (trails : List (List Key)) : Prop where
  mem_iff : ∀ t, t ∈ trails ↔ g.Trail k t
  sorted : trails.Pairwise (fun s t => List.compareLex Key.compare s t = .lt)

/-- The line of a path to `k`: its length, and where it starts. -/
def lineOf (k : Key) (t : List Key) : Nat × Key := (t.length, t.getLastD k)

theorem trail_nil : g.Trail k [] := .singleton k

theorem trail_cons {p : Key} {t : List Key} : g.Trail k (p :: t) ↔ g.Edge p k ∧ g.Trail p t :=
  List.isChain_cons_cons

/-- A path back from `k` visits vertices. -/
theorem WellFormed.mem_keys_of_trail (h : g.WellFormed) : ∀ {t : List Key} {k : Key}, k ∈ g.keys →
    g.Trail k t → ∀ x ∈ k :: t, x ∈ g.keys
  | [], k, hk, _ => by simpa using hk
  | p :: t, k, hk, ht => by
    obtain ⟨hpk, hpt⟩ := trail_cons.mp ht
    exact List.forall_mem_cons.mpr ⟨hk, h.mem_keys_of_trail (h.mem_keys_of_edge hpk).1 hpt⟩

/-- No path is as long as the graph has vertices. -/
theorem WellFormed.length_lt_size (h : g.WellFormed) {t : List Key} (hk : k ∈ g.keys)
    (ht : g.Trail k t) : t.length < g.size := by
  -- a vertex that came up again would lead to itself
  have hleads : (k :: t).Pairwise (fun b a => g.Leads a b) := by
    have htrans : IsTrans Key (fun b a => g.Leads a b) := ⟨fun _ _ _ hab hbc => hbc.trans hab⟩
    exact List.isChain_iff_pairwise.mp (ht.imp fun _ _ he => .single he)
  have hnodup : (k :: t).Nodup := hleads.imp fun hab => (h.ne_of_leads hab).symm
  have hle := (hnodup.subperm fun x hx => h.mem_keys_of_trail hk ht x hx).length_le
  rw [List.length_cons, g.length_keys] at hle
  exact hle

/-! ### Paths by their length -/

/-- The paths to `k` of fewer than `n` edges. -/
def trailsFrom (g : Graph α) : Nat → Key → List (List Key)
  | 0, _ => []
  | n + 1, k => [] :: (g.preds k).flatMap fun p => (trailsFrom g n p).map (p :: ·)

theorem WellFormed.mem_trailsFrom (h : g.WellFormed) : ∀ {n : Nat} {k : Key} {t : List Key},
    t ∈ g.trailsFrom n k ↔ t.length < n ∧ g.Trail k t
  | 0, k, t => by simp [trailsFrom]
  | n + 1, k, [] => by simp [trailsFrom, trail_nil]
  | n + 1, k, p :: t => by
    have ih := h.mem_trailsFrom (n := n) (k := p) (t := t)
    have hedge : g.Edge p k ↔ p ∈ g.preds k := h.mirror p k
    rw [trail_cons, hedge, List.length_cons, Nat.add_lt_add_iff_right]
    simp only [trailsFrom, List.mem_cons, List.mem_flatMap, List.mem_map, reduceCtorEq, false_or,
      List.cons.injEq, exists_eq_right_right, ih]
    tauto

theorem pairwise_trailsFrom (g : Graph α) : ∀ (n : Nat) (k : Key),
    (g.trailsFrom n k).Pairwise (fun s t => List.compareLex Key.compare s t = .lt)
  | 0, _ => .nil
  | n + 1, k => by
    have hpreds : (g.preds k).Pairwise (fun a b => Key.compare a b = .lt) := by
      unfold preds EdgeIndex.ends
      cases g.incoming.find? k with
      | none => exact .nil
      | some s => exact OrderedMap.pairwise_keys s
    rw [trailsFrom, List.pairwise_cons, List.pairwise_flatMap]
    refine ⟨fun t ht => ?_, fun p _ => ?_, hpreds.imp fun {a b} hab s hs t ht => ?_⟩
    · obtain ⟨p, _, hp⟩ := List.mem_flatMap.mp ht
      obtain ⟨u, _, rfl⟩ := List.mem_map.mp hp
      rfl
    · refine List.pairwise_map.mpr ((pairwise_trailsFrom g n p).imp fun hst => ?_)
      have hself : Key.compare p p = .eq := Std.ReflCmp.compare_self
      rw [List.compareLex_cons_cons, hself]
      exact hst
    · obtain ⟨u, _, rfl⟩ := List.mem_map.mp hs
      obtain ⟨v, _, rfl⟩ := List.mem_map.mp ht
      rw [List.compareLex_cons_cons, hab]
      rfl

/-- The paths shorter than the number of vertices are all. -/
theorem WellFormed.pathsTo_trailsFrom (h : g.WellFormed) (hk : k ∈ g.keys) :
    g.PathsTo k (g.trailsFrom g.size k) := by
  refine ⟨fun t => ?_, g.pairwise_trailsFrom g.size k⟩
  rw [h.mem_trailsFrom]
  exact and_iff_right_of_imp (h.length_lt_size hk)

/-- The lines from a vertex on are those of the paths to it. -/
theorem WellFormed.outlineFrom_eq (h : g.WellFormed) : ∀ (n : Nat) {d : Nat} {k : Key}, k ∈ g.keys →
    g.outlineFrom n d k = (g.trailsFrom n k).map fun t => (d + t.length, t.getLastD k)
  | 0, _, _, _ => rfl
  | n + 1, d, k, hk => by
    have hlines : ∀ p ∈ g.preds k, g.outlineFrom n (d + 1) p =
        (g.trailsFrom n p).map fun t => (d + (p :: t).length, (p :: t).getLastD k) := by
      intro p hp
      rw [h.outlineFrom_eq n (h.mem_keys_of_edge ((h.mirror p k).mpr hp)).1]
      simp only [List.length_cons, List.getLastD_cons, Nat.add_assoc, Nat.add_comm 1]
    rw [outlineFrom, if_pos (contains_iff.mpr hk), trailsFrom, List.map_cons, List.map_flatMap]
    simp only [List.map_map]
    exact congrArg _ (List.flatMap_congr hlines)

/-- **The outline has a line for each path to a leaf**, leaf by leaf. -/
theorem WellFormed.outline_eq (h : g.WellFormed) :
    g.outline = g.leaves.flatMap fun l => (g.trailsFrom g.size l).map (lineOf l) := by
  refine List.flatMap_congr fun l hl => ?_
  rw [h.outlineFrom_eq _ (mem_leaves_iff.mp hl).1]
  simp only [Nat.zero_add]
  rfl

/-- **Every vertex has a line.** -/
theorem WellFormed.exists_mem_outline (h : g.WellFormed) (hk : k ∈ g.keys) : ∃ d, (d, k) ∈ g.outline := by
  obtain ⟨l, hl, hkl⟩ := h.exists_leaf hk
  obtain ⟨t, ht, hlast⟩ := List.exists_isChain_cons_of_relationReflTransGen (Relation.reflTransGen_swap.mpr hkl)
  refine ⟨t.length, ?_⟩
  rw [h.outline_eq]
  refine List.mem_flatMap.mpr ⟨l, hl, List.mem_map.mpr ⟨t, ?_, ?_⟩⟩
  · exact ((h.pathsTo_trailsFrom (mem_leaves_iff.mp hl).1).mem_iff t).mpr ht
  · rw [lineOf, ← List.getLast_eq_getLastD (List.cons_ne_nil l t), hlast]

/-- A line is that of a vertex. -/
theorem WellFormed.mem_keys_of_mem_outline (h : g.WellFormed) {x : Nat × Key} (hx : x ∈ g.outline) :
    x.2 ∈ g.keys := by
  rw [h.outline_eq] at hx
  obtain ⟨l, hl, hx⟩ := List.mem_flatMap.mp hx
  obtain ⟨t, ht, rfl⟩ := List.mem_map.mp hx
  refine h.mem_keys_of_trail (mem_leaves_iff.mp hl).1 (h.mem_trailsFrom.mp ht).2 _ ?_
  rw [lineOf, ← List.getLast_eq_getLastD (List.cons_ne_nil l t)]
  exact List.getLast_mem _

/-! ### The recursion without a bound -/

/-- The calls in the first list, carried out one after the other, print the lines in the
second. A call for a vertex prints it, and then calls its predecessors in order, a level
deeper. There are such lines exactly if the recursion ends. -/
inductive Unfolds (g : Graph α) : List (Nat × Key) → List (Nat × Key) → Prop where
  | done : Unfolds g [] []
  | absent {d : Nat} {k : Key} {calls lines : List (Nat × Key)} (hk : k ∉ g.keys)
      (rest : Unfolds g calls lines) : Unfolds g ((d, k) :: calls) lines
  | print {d : Nat} {k : Key} {calls lines : List (Nat × Key)} (hk : k ∈ g.keys)
      (rest : Unfolds g ((g.preds k).map (fun p => (d + 1, p)) ++ calls) lines) :
      Unfolds g ((d, k) :: calls) ((d, k) :: lines)

namespace Unfolds

variable {calls lines lines' : List (Nat × Key)}

/-- The recursion prints one list of lines. -/
theorem unique (h : g.Unfolds calls lines) (h' : g.Unfolds calls lines') : lines = lines' := by
  induction h generalizing lines' with
  | done =>
    cases h'
    rfl
  | absent hk _ ih =>
    cases h' with
    | absent _ rest => exact ih rest
    | print hk' _ => exact absurd hk' hk
  | print hk _ ih =>
    cases h' with
    | absent hk' _ => exact absurd hk hk'
    | print _ rest => rw [ih rest]

/-- Calls of one level, each of which ends. -/
theorem flatMap {f : Key → List (Nat × Key)} (h : g.Unfolds calls lines) : ∀ {ks : List Key},
    (∀ k ∈ ks, ∀ calls lines, g.Unfolds calls lines → g.Unfolds ((d, k) :: calls) (f k ++ lines)) →
    g.Unfolds (ks.map (fun k => (d, k)) ++ calls) (ks.flatMap f ++ lines)
  | [], _ => h
  | k :: ks, hks => by
    obtain ⟨hk, hks⟩ := List.forall_mem_cons.mp hks
    rw [List.flatMap_cons, List.append_assoc]
    exact hk _ _ (h.flatMap hks)

end Unfolds

/-- A call ends if no path goes further back from its vertex than the bound. -/
theorem WellFormed.unfolds_outlineFrom (h : g.WellFormed) : ∀ (n : Nat) {d : Nat} {k : Key}, k ∈ g.keys →
    (∀ t, g.Trail k t → t.length < n) → ∀ calls lines, g.Unfolds calls lines →
    g.Unfolds ((d, k) :: calls) (g.outlineFrom n d k ++ lines)
  | 0, _, _, _, hn, _, _, _ => absurd (hn [] trail_nil) (Nat.lt_irrefl 0)
  | n + 1, d, k, hk, hn, calls, lines, hrest => by
    rw [outlineFrom, if_pos (contains_iff.mpr hk)]
    refine .print hk (hrest.flatMap fun p hp => ?_)
    have hedge : g.Edge p k := (h.mirror p k).mpr hp
    refine h.unfolds_outlineFrom n (h.mem_keys_of_edge hedge).1 fun t ht => ?_
    exact Nat.lt_of_succ_lt_succ (hn (p :: t) (trail_cons.mpr ⟨hedge, ht⟩))

/-- **The recursion ends, and its lines are the outline.** -/
theorem WellFormed.unfolds_iff (h : g.WellFormed) {lines : List (Nat × Key)} :
    g.Unfolds (g.leaves.map fun l => (0, l)) lines ↔ lines = g.outline := by
  have hends : g.Unfolds (g.leaves.map fun l => (0, l)) g.outline := by
    have hleaf : ∀ l ∈ g.leaves, ∀ calls lines, g.Unfolds calls lines →
        g.Unfolds ((0, l) :: calls) (g.outlineFrom g.size 0 l ++ lines) := by
      intro l hl
      have hk := (mem_leaves_iff.mp hl).1
      exact h.unfolds_outlineFrom g.size hk fun _ => h.length_lt_size hk
    have hall := Unfolds.done.flatMap hleaf
    rwa [List.append_nil, List.append_nil] at hall
  constructor
  · intro hlines
    exact hlines.unique hends
  · rintro rfl
    exact hends

end Graph

/-! ### Plans explained -/

namespace PhasePlan

variable {p : PhasePlan}

/-- The lines of the explanation: operators, each with its depth. -/
def lines (p : PhasePlan) : List (Nat × Operator) :=
  p.graph.outline.filterMap fun l => (p.find? l.2).map fun op => (l.1, op)

/-- A line as text. -/
def written (l : Nat × Operator) : String := String.join (List.replicate l.1 indent) ++ l.2.name

/-- What holds of the explanation of a plan. -/
structure Explained (p : PhasePlan) : Prop where
  text : p.explain = String.intercalate "\n" (p.lines.map written)
  /-- The recursion from the leaves ends, and prints these lines and no others. -/
  ends : ∀ ls, p.graph.Unfolds (p.graph.leaves.map fun l => (0, l)) ls ↔
    ls = p.lines.map fun l => (l.1, l.2.key)
  /-- The leaves are the operators that feed no other, in key order. -/
  leaves : p.graph.leaves.Pairwise (fun a b => Key.compare a b = .lt) ∧
    ∀ l, l ∈ p.graph.leaves ↔ l ∈ p.graph.keys ∧ ∀ x, ¬ p.graph.Edge l x
  /-- Leaf by leaf there is a line for each path to the leaf, in the order of the paths. -/
  paths : ∃ trails : Key → List (List Key), (∀ l ∈ p.graph.leaves, p.graph.PathsTo l (trails l)) ∧
    (p.lines.map fun l => (l.1, l.2.key)) = p.graph.leaves.flatMap fun l => (trails l).map (Graph.lineOf l)
  /-- What is printed are the operators, all of them. -/
  printed : ∀ op, op ∈ p.operators ↔ ∃ depth, (depth, op) ∈ p.lines

/-- The operators of some lines. -/
theorem Sound.map_key_filterMap (h : p.Sound) : ∀ {ls : List (Nat × Key)}, (∀ l ∈ ls, l.2 ∈ p.graph.keys) →
    let ops := ls.filterMap fun l => (p.find? l.2).map fun op => (l.1, op)
    (ops.map fun l => (l.1, l.2.key)) = ls ∧ ops.map written = ls.map p.explainLine
  | [], _ => ⟨rfl, rfl⟩
  | (d, k) :: ls, hls => by
    obtain ⟨hk, hls⟩ := List.forall_mem_cons.mp hls
    obtain ⟨op, hop⟩ := Graph.mem_keys_iff.mp hk
    have hfind : p.find? k = some op := hop
    have hkey : op.key = k := h.ownKey k op hop
    obtain ⟨ihkeys, ihtext⟩ := h.map_key_filterMap hls
    have hline : p.explainLine (d, k) = written (d, op) := by
      rw [explainLine, hfind]
      rfl
    simp only [List.filterMap_cons, hfind, Option.map_some, List.map_cons, ihkeys, ihtext, hkey, hline, and_self]

theorem Sound.mem_lines (h : p.Sound) {l : Nat × Operator} :
    l ∈ p.lines ↔ (l.1, l.2.key) ∈ p.graph.outline ∧ l.2 ∈ p.operators := by
  rw [lines, List.mem_filterMap, h.mem_operators]
  constructor
  · rintro ⟨⟨d, k⟩, hl, hop⟩
    obtain ⟨op, hfind, rfl⟩ := Option.map_eq_some_iff.mp hop
    obtain rfl : op.key = k := h.ownKey k op hfind
    exact ⟨hl, hfind⟩
  · rintro ⟨hl, hfind⟩
    exact ⟨(l.1, l.2.key), hl, by rw [hfind]; rfl⟩

/-- **Plans are explained path by path.** Whatever operations built a plan, the recursion
that explains it ends. It prints leaf by leaf a line for each path from an operator to the
leaf, as deep as the path is long and each path before those that go on from it, and every
operator at least once. -/
theorem explained_applyAll (edits : List PlanEdit) : (empty.applyAll edits).Explained := by
  have h : (empty.applyAll edits).Sound := sound_applyAll edits
  have hg := h.wellFormed
  obtain ⟨hkeys, htext⟩ := h.map_key_filterMap fun _ hl => hg.mem_keys_of_mem_outline hl
  refine ⟨?_, fun ls => ?_, ⟨?_, fun l => Graph.mem_leaves_iff⟩, ?_, fun op => ?_⟩
  · rw [explain, ← htext]
    rfl
  · rw [hg.unfolds_iff, ← hkeys]
    rfl
  · exact (OrderedMap.pairwise_keys _).filter _
  · exact ⟨_, fun l hl => hg.pathsTo_trailsFrom (Graph.mem_leaves_iff.mp hl).1, hkeys.trans hg.outline_eq⟩
  · constructor
    · intro hop
      obtain ⟨d, hd⟩ := hg.exists_mem_outline (Graph.mem_keys_iff.mpr ⟨op, h.mem_operators.mp hop⟩)
      exact ⟨d, h.mem_lines.mpr ⟨hd, hop⟩⟩
    · rintro ⟨d, hd⟩
      exact (h.mem_lines.mp hd).2

-- a load that feeds both filters before a union comes up once for each
example : (empty.applyAll [.add ⟨⟨"s", 1⟩, .load ⟨"input", "reader"⟩⟩, .add ⟨⟨"s", 2⟩, .filter "x > 0"⟩,
    .add ⟨⟨"s", 3⟩, .filter "x < 0"⟩, .connect ⟨"s", 1⟩ ⟨"s", 2⟩, .connect ⟨"s", 1⟩ ⟨"s", 3⟩,
    .addAsLeaf ⟨⟨"s", 4⟩, .union⟩]).graph.outline =
    [(0, ⟨"s", 4⟩), (1, ⟨"s", 2⟩), (2, ⟨"s", 1⟩), (1, ⟨"s", 3⟩), (2, ⟨"s", 1⟩)] := by cbv

end PhasePlan
end MapReduce
