/-
# The topological order is the least linear extension

A linear extension of a graph lists every vertex once, the start of every edge
before its end. The topological order of a well-formed graph is one
(`WellFormed.linearExtension_topological`), and the least of all when they are
compared key by key (`WellFormed.topological_isLE`): whatever another extension
takes first waits for nothing either, so it is not below the least vertex that
waits for nothing; and if it is that vertex, the same holds of the rest.

The order is built with as many steps as there are vertices. More steps would take
nothing more (`WellFormed.takeReady_eq`), so the number of steps cuts nothing off.

The loop lowers a counter per edge. `Graph.takeReady?` is that loop with a check in
front: it gives up where a counter of zero would be lowered. On a well-formed graph it
never does (`WellFormed.takeReady?_eq`), since a successor of the vertex that is taken
still waits for it.

Key definitions: `Graph.LinearExtension`, `Graph.takeReady?`.
Key theorems: `Graph.WellFormed.linearExtension_topological`,
`Graph.WellFormed.topological_isLE`, `Graph.WellFormed.takeReady_eq`,
`Graph.WellFormed.takeReady?_eq`.
-/
import MapReduce.Proofs.GraphOrder

namespace MapReduce

/-- In a list without repetition no two members stand in both orders. -/
theorem not_sublist_swap {α : Type} {a b : α} : ∀ {l : List α}, l.Nodup → [a, b].Sublist l →
    ¬ [b, a].Sublist l
  | [], _, h, _ => by simp at h
  | x :: l, hnd, hab, hba => by
    obtain ⟨hx, hl⟩ := List.nodup_cons.mp hnd
    have hmem : ∀ {c d : α}, [c, d].Sublist l → d ∈ l := fun h => h.subset (by simp)
    cases hab with
    | cons _ hab =>
      cases hba with
      | cons _ hba => exact not_sublist_swap hl hab hba
      | cons_cons _ _ => exact hx (hmem hab)
    | cons_cons _ hab =>
      cases hba with
      | cons _ hba => exact hx (hmem hba)
      | cons_cons _ hba => exact hx (List.singleton_sublist.mp hba)

namespace Graph

variable {α : Type} {g : Graph α} {l left order order' : List Key}

/-- Every vertex is listed once, the start of every edge before its end. -/
structure LinearExtension (g : Graph α) (l : List Key) : Prop where
  perm : l.Perm g.keys
  forward : ∀ a b, g.Edge a b → [a, b].Sublist l

namespace LinearExtension

theorem nodup (h : g.LinearExtension l) : l.Nodup := h.perm.nodup_iff.mpr g.nodup_keys

/-- No edge goes back. -/
theorem pairwise (h : g.LinearExtension l) : l.Pairwise (fun a b => ¬ g.Edge b a) := by
  rw [List.pairwise_iff_forall_sublist]
  intro a b hab hedge
  exact not_sublist_swap h.nodup hab (h.forward b a hedge)

end LinearExtension

theorem WellFormed.linearExtension_topological (hg : g.WellFormed) : g.LinearExtension g.topological := by
  refine ⟨hg.perm_topological, fun a b hab => ?_⟩
  have hb : b ∈ g.topological := hg.perm_topological.mem_iff.mpr (hg.mem_keys_of_edge hab).2
  obtain ⟨pre, post, ho⟩ := List.append_of_mem hb
  have ha : a ∈ pre := hg.mem_before_of_leads (.single hab) ho
  rw [ho]
  exact (List.singleton_sublist.mpr ha).append (List.singleton_sublist.mpr List.mem_cons_self)

/-- **A schedule is not above any other order of its vertices without an edge
back.** -/
theorem Scheduled.isLE (h : g.Scheduled left order) (hg : g.WellFormed) (hl : l.Perm left)
    (hback : l.Pairwise (fun a b => ¬ g.Edge b a)) : (List.compareLex Key.compare order l).isLE := by
  induction h generalizing l with
  | nil =>
    rw [hl.eq_nil]
    rfl
  | @cons left order k mem free least rest ih =>
    cases l with
    | nil => exact absurd (hl.mem_iff.mpr mem) List.not_mem_nil
    | cons x l =>
      obtain ⟨hfirst, hlater⟩ := List.pairwise_cons.mp hback
      have hfree : ∀ p ∈ g.preds x, p ∉ left := by
        intro p hp hpl
        have hedge : g.Edge p x := (hg.mirror p x).mpr hp
        rcases List.mem_cons.mp (hl.mem_iff.mpr hpl) with rfl | hpl
        · exact hg.acyclic p (.single hedge)
        · exact hfirst p hpl hedge
      have hkx := least x (hl.mem_iff.mp List.mem_cons_self) hfree
      rw [List.compareLex]
      cases hcmp : Key.compare k x with
      | lt => rfl
      | gt => rw [hcmp] at hkx; exact hkx
      | eq =>
        -- both take the same vertex first, and the rest is compared
        obtain rfl : k = x := Std.LawfulEqCmp.eq_of_compare hcmp
        exact ih (by simpa using hl.erase k) hlater

/-- **The topological order is the least linear extension.** -/
theorem WellFormed.topological_isLE (hg : g.WellFormed) (h : g.LinearExtension l) :
    (List.compareLex Key.compare g.topological l).isLE :=
  hg.scheduled_topological.isLE hg h.perm h.pairwise

/-! ### The number of steps -/

/-- There is one schedule. -/
theorem Scheduled.unique (h : g.Scheduled left order) (h' : g.Scheduled left order') : order = order' := by
  induction h generalizing order' with
  | nil =>
    cases h' with
    | nil => rfl
    | cons mem _ _ _ => exact absurd mem List.not_mem_nil
  | @cons left order k mem free least _ ih =>
    cases h' with
    | nil => exact absurd mem List.not_mem_nil
    | @cons _ _ k' mem' free' least' rest' =>
      have hle := least k' mem' free'
      have hge := least' k mem free
      obtain rfl : k = k' := Std.LawfulEqCmp.eq_of_compare (Std.OrientedCmp.isLE_antisymm hle hge)
      rw [ih rest']

/-- No vertex is left when as many were taken as there are. -/
theorem WellFormed.takeReady_eq (hg : g.WellFormed) {n : Nat} (hn : g.size ≤ n) :
    g.takeReady n g.frontier = g.topological := by
  have hlen : g.keys.length ≤ n := g.length_keys ▸ hn
  exact (hg.scheduled_takeReady (Frontier.tracks_frontier hg) hlen).unique hg.scheduled_topological

end Graph

/-! ### Counters that are checked -/

namespace Frontier

variable {f : Frontier} {k : Key}

/-- One predecessor of `k` has been taken. There is no answer if `k` waited for
none. -/
def release? (f : Frontier) (k : Key) : Option Frontier :=
  match f.waiting.find? k with
  | some 0 => none
  | _ => some (f.release k)

/-- `k` is taken, and is no predecessor to wait for any more. -/
def take? (f : Frontier) (k : Key) (succs : List Key) : Option Frontier :=
  succs.foldlM release? ⟨f.waiting, f.ready.erase k⟩

theorem release?_eq {n : Nat} (h : f.waiting.find? k = some (n + 1)) :
    f.release? k = some (f.release k) := by
  unfold release?
  rw [h]
  rfl

theorem foldlM_release? : ∀ {ks : List Key} {f : Frontier}, ks.Nodup →
    (∀ k ∈ ks, ∃ n, f.waiting.find? k = some (n + 1)) →
    ks.foldlM release? f = some (ks.foldl release f)
  | [], _, _, _ => rfl
  | k :: ks, f, hnd, hpos => by
    obtain ⟨hk, hks⟩ := List.nodup_cons.mp hnd
    obtain ⟨n, hn⟩ := hpos k List.mem_cons_self
    have hpos' := waits_release hn hk fun y hy => hpos y (List.mem_cons_of_mem k hy)
    rw [List.foldlM_cons, release?_eq hn, List.foldl_cons]
    exact foldlM_release? hks hpos'

end Frontier

namespace Graph

variable {α : Type} {g : Graph α}

/-- Takes up to `n` vertices, each the least that is ready. There is no answer
if a vertex that waits for none is released. -/
def takeReady? (g : Graph α) : Nat → Frontier → Option (List Key)
  | 0, _ => some []
  | n + 1, f =>
    match f.ready.elements with
    | [] => some []
    | k :: _ => do
      let rest ← f.take? k (g.succs k)
      return k :: (← takeReady? g n rest)

/-- **No counter goes below zero**, however far the loop is taken. -/
theorem WellFormed.takeReady?_eq (hg : g.WellFormed) : ∀ (n : Nat) {left : List Key} {f : Frontier},
    f.Tracks g left → g.takeReady? n f = some (g.takeReady n f)
  | 0, _, _, _ => rfl
  | n + 1, left, f, h => by
    unfold takeReady? takeReady
    cases hready : f.ready.elements with
    | nil => rfl
    | cons k ks =>
      have hk : k ∈ f.ready.elements := hready ▸ List.mem_cons_self
      have hleft : k ∈ left := ((h.ready k).mp hk).1
      have htake : f.take? k (g.succs k) = some (f.take k (g.succs k)) :=
        Frontier.foldlM_release? (g.nodup_succs k) fun s hs => h.waiting_succ hg hleft hs
      have ih := hg.takeReady?_eq n (h.take hg hk)
      simp [htake, ih]

end Graph

end MapReduce
