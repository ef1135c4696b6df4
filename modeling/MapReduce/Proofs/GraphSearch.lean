/-
# What a search of a graph finds

`Graph.explore` keeps the vertices it has not seen and a list of those it still
has to visit. What it returns is closed: it holds what it was asked to visit, and
with a vertex every end of a step from it, as long as these were not seen before
(`mem_explore_of_todo`, `mem_explore_of_next`). Everything in it is reached by
steps from where the search began (`walk_of_mem_explore`). So over a list of
vertices that no step leaves, the search finds exactly what can be reached
(`mem_explore_iff`).

Key definitions: `Graph.Edge`, `Graph.Leads`, `Graph.Joined`.
Key theorems: `mem_explore_iff`, `nodup_explore`.
-/
import Mathlib
import MapReduce.Graph.Basic

namespace MapReduce
namespace Graph

variable {α : Type}

/-- There is an edge from `a` to `b`. -/
def Edge (g : Graph α) (a b : Key) : Prop := b ∈ g.succs a

/-- There is a directed path from `a` to `b`, of one edge or more. -/
def Leads (g : Graph α) : Key → Key → Prop := Relation.TransGen g.Edge

/-- There is a path from `a` to `b`, of any length, over edges in either
direction. -/
def Joined (g : Graph α) : Key → Key → Prop :=
  Relation.ReflTransGen (fun x y => g.Edge x y ∨ g.Edge y x)

section

variable {next : Key → List Key}

theorem explore_cons_of_mem {unseen rest : List Key} {k : Key} (h : k ∈ unseen) :
    explore next unseen (k :: rest) = k :: explore next (unseen.erase k) (next k ++ rest) := by
  rw [explore, if_pos h]

theorem explore_cons_of_not_mem {unseen rest : List Key} {k : Key} (h : k ∉ unseen) :
    explore next unseen (k :: rest) = explore next unseen rest := by
  rw [explore, if_neg h]

/-- A search finds vertices that were not seen. -/
theorem mem_unseen_of_mem_explore {unseen todo : List Key} {x : Key}
    (h : x ∈ explore next unseen todo) : x ∈ unseen := by
  induction unseen, todo using explore.induct next with
  | case1 unseen => simp [explore] at h
  | case2 unseen k rest hk ih =>
    rw [explore_cons_of_mem hk] at h
    rcases List.mem_cons.mp h with rfl | h
    · exact hk
    · exact List.mem_of_mem_erase (ih h)
  | case3 unseen k rest hk ih =>
    rw [explore_cons_of_not_mem hk] at h
    exact ih h

/-- A search finds no vertex twice. -/
theorem nodup_explore {unseen todo : List Key} (h : unseen.Nodup) :
    (explore next unseen todo).Nodup := by
  induction unseen, todo using explore.induct next with
  | case1 unseen => simp [explore]
  | case2 unseen k rest hk ih =>
    rw [explore_cons_of_mem hk]
    refine List.nodup_cons.mpr ⟨fun hmem => ?_, ih (h.erase k)⟩
    exact h.not_mem_erase (mem_unseen_of_mem_explore hmem)
  | case3 unseen k rest hk ih =>
    rw [explore_cons_of_not_mem hk]
    exact ih h

/-- What a search finds is reached by steps from where it began. -/
theorem walk_of_mem_explore {unseen todo : List Key} {x : Key} (h : x ∈ explore next unseen todo) :
    ∃ t ∈ todo, Relation.ReflTransGen (fun a b => b ∈ next a) t x := by
  induction unseen, todo using explore.induct next with
  | case1 unseen => simp [explore] at h
  | case2 unseen k rest hk ih =>
    rw [explore_cons_of_mem hk] at h
    rcases List.mem_cons.mp h with rfl | h
    · exact ⟨x, List.mem_cons_self, .refl⟩
    · obtain ⟨t, ht, hw⟩ := ih h
      rcases List.mem_append.mp ht with ht | ht
      · exact ⟨k, List.mem_cons_self, .head ht hw⟩
      · exact ⟨t, List.mem_cons_of_mem k ht, hw⟩
  | case3 unseen k rest hk ih =>
    rw [explore_cons_of_not_mem hk] at h
    obtain ⟨t, ht, hw⟩ := ih h
    exact ⟨t, List.mem_cons_of_mem k ht, hw⟩

/-- A search finds what it has to visit. -/
theorem mem_explore_of_todo {unseen todo : List Key} {x : Key} (ht : x ∈ todo) (hx : x ∈ unseen) :
    x ∈ explore next unseen todo := by
  induction unseen, todo using explore.induct next with
  | case1 unseen => simp at ht
  | case2 unseen k rest hk ih =>
    rw [explore_cons_of_mem hk]
    by_cases hxk : x = k
    · exact hxk ▸ List.mem_cons_self
    · have hrest : x ∈ rest := (List.mem_cons.mp ht).resolve_left hxk
      exact List.mem_cons_of_mem k
        (ih (List.mem_append_right _ hrest) ((List.mem_erase_of_ne hxk).mpr hx))
  | case3 unseen k rest hk ih =>
    rw [explore_cons_of_not_mem hk]
    have hxk : x ≠ k := fun e => hk (e ▸ hx)
    exact ih ((List.mem_cons.mp ht).resolve_left hxk) hx

/-- A search finds the end of every step from what it finds. -/
theorem mem_explore_of_next {unseen todo : List Key} {x y : Key}
    (hx : x ∈ explore next unseen todo) (hy : y ∈ next x) (hu : y ∈ unseen) :
    y ∈ explore next unseen todo := by
  induction unseen, todo using explore.induct next with
  | case1 unseen => simp [explore] at hx
  | case2 unseen k rest hk ih =>
    rw [explore_cons_of_mem hk] at hx ⊢
    by_cases hyk : y = k
    · exact hyk ▸ List.mem_cons_self
    · have hu' : y ∈ unseen.erase k := (List.mem_erase_of_ne hyk).mpr hu
      refine List.mem_cons_of_mem k ?_
      rcases List.mem_cons.mp hx with rfl | hx
      · exact mem_explore_of_todo (List.mem_append_left _ hy) hu'
      · exact ih hx hu'
  | case3 unseen k rest hk ih =>
    rw [explore_cons_of_not_mem hk] at hx ⊢
    exact ih hx hu

/-- **A search finds exactly what can be reached**, if no step leaves the
vertices it may visit. -/
theorem mem_explore_iff {unseen : List Key} {k x : Key}
    (hnext : ∀ a ∈ unseen, ∀ b ∈ next a, b ∈ unseen) (hk : k ∈ unseen) :
    x ∈ explore next unseen [k] ↔ Relation.ReflTransGen (fun a b => b ∈ next a) k x := by
  constructor
  · intro h
    obtain ⟨t, ht, hw⟩ := walk_of_mem_explore h
    rwa [List.mem_singleton.mp ht] at hw
  · intro h
    induction h with
    | refl => exact mem_explore_of_todo List.mem_cons_self hk
    | tail _ hstep ih =>
      exact mem_explore_of_next ih hstep (hnext _ (mem_unseen_of_mem_explore ih) _ hstep)

end

end Graph
end MapReduce
