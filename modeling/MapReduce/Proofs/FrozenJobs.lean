/-
# Which drafts become jobs

Freezing checks the shape of all three plans. For the plans that a draft can have
most of that cannot fail: their edges pass (`PhasePlan.Sound.checkEdges_eq_ok`),
and an acyclic plan with at most one leaf hangs together, since every operator
leads to that leaf (`Graph.WellFormed.joined_of_leaves_le_one`). What remains is
`Draft.Complete`. A phase that was closed has at most one leaf ever after, so of a
draft whose phases were closed only the combine plan and the annotations matter.

Key definitions: `PhasePlan.Converges`, `Draft.Complete`, `Draft.ClosedIn`.
Key theorems: `Draft.Sound.freeze_eq_ok_iff`, `Draft.ClosedIn.leafCount_le`,
`Draft.freeze_accepts`.
-/
import MapReduce.Proofs.DraftLatches
import MapReduce.Proofs.Outcome

namespace MapReduce

namespace PhasePlan

variable {p : PhasePlan}

/-- Any two operators are joined by edges, whichever way they point. -/
def Connected (p : PhasePlan) : Prop :=
  ∀ a ∈ p.graph.keys, ∀ b ∈ p.graph.keys, p.graph.Joined a b

/-- There are no operators, or they are acyclic and all lead to the only leaf. -/
def Converges (p : PhasePlan) : Prop :=
  p.graph.keys = [] ∨
    (∀ k, ¬ p.graph.Leads k k) ∧
      ∃ leaf, p.graph.leaves = [leaf] ∧
        ∀ k ∈ p.graph.keys, Relation.ReflTransGen p.graph.Edge k leaf

theorem Sound.validate_eq_ok_iff (h : p.Sound) : p.validate = .ok () ↔ p.Connected := by
  rw [Connected, ← h.wellFormed.isConnected_iff, validate, h.checkEdges_eq_ok]
  cases p.graph.isConnected with
  | true => exact ⟨fun _ => rfl, fun _ => rfl⟩
  | false => exact ⟨nofun, nofun⟩

theorem Sound.connected_of_leafCount_le (h : p.Sound) (hl : p.leafCount ≤ 1) : p.Connected :=
  fun _ ha _ hb => h.wellFormed.joined_of_leaves_le_one hl ha hb

theorem Sound.converges_of_leafCount_le (h : p.Sound) (hl : p.leafCount ≤ 1) : p.Converges := by
  by_cases hne : p.graph.keys = []
  · exact .inl hne
  · obtain ⟨k, hk⟩ := List.exists_mem_of_ne_nil _ hne
    obtain ⟨leaf, hleaf, _⟩ := h.wellFormed.exists_leaf hk
    have hlen : p.graph.leaves.length = 1 := Nat.le_antisymm hl (List.length_pos_of_mem hleaf)
    obtain ⟨l, hone⟩ := List.length_eq_one_iff.mp hlen
    refine .inr ⟨h.wellFormed.acyclic, l, hone, fun x hx => ?_⟩
    obtain ⟨l', hl', hpath⟩ := h.wellFormed.exists_leaf hx
    rw [hone, List.mem_singleton] at hl'
    exact hl' ▸ hpath

end PhasePlan

namespace Draft

variable {d : Draft}

/-- The job that a draft describes. -/
def job (d : Draft) : Job := ⟨d.key, d.mapPlan, d.combinePlan, d.reducePlan, d.annotations⟩

/-- What a draft must meet to become a job. -/
structure Complete (d : Draft) : Prop where
  isSet : ∀ latch, d.isSet latch = true
  leaves : ∀ latch : Latch, (d.plan latch.phase).leafCount ≤ 1
  combine : d.combinePlan.Connected
  annotations : d.annotations.validate = .ok ()

/-- Along the phases of the latches only the number of leaves is checked. -/
theorem Sound.checkPlan_phase_eq_ok_iff (h : d.Sound) (latch : Latch) :
    d.checkPlan latch.phase = .ok () ↔ (d.plan latch.phase).leafCount ≤ 1 := by
  have hphase : latch.phase ≠ .combine := by cases latch <;> decide
  unfold checkPlan
  by_cases hmany : 1 < (d.plan latch.phase).leafCount
  · rw [if_pos ⟨hphase, hmany⟩]
    exact ⟨nofun, fun hl => absurd hmany (Nat.not_lt.mpr hl)⟩
  · have hl := Nat.not_lt.mp hmany
    rw [if_neg fun hc => hmany hc.2, (h latch.phase).validate_eq_ok_iff]
    exact ⟨fun _ => hl, fun _ => (h latch.phase).connected_of_leafCount_le hl⟩

theorem Sound.checkPlan_combine_eq_ok_iff (h : d.Sound) :
    d.checkPlan .combine = .ok () ↔ d.combinePlan.Connected := by
  rw [checkPlan, if_neg fun hc => hc.1 rfl]
  exact (h .combine).validate_eq_ok_iff

/-- **Freezing is exact**: it takes the complete drafts, and gives the job that
the draft describes. -/
theorem Sound.freeze_eq_ok_iff (h : d.Sound) {j : Job} :
    d.freeze = .ok j ↔ d.Complete ∧ j = d.job := by
  have hmap := h.checkPlan_phase_eq_ok_iff .map
  have hreduce := h.checkPlan_phase_eq_ok_iff .reduce
  have hcombine := h.checkPlan_combine_eq_ok_iff
  by_cases hset : d.mapDone = true ∧ d.reduceDone = true
  · have hlatches : ∀ latch, d.isSet latch = true := by
      intro latch
      cases latch
      · exact hset.1
      · exact hset.2
    unfold freeze
    rw [hset.1, hset.2]
    change (d.checkPlan Latch.map.phase >>= fun _ => d.checkPlan .combine >>= fun _ =>
      d.checkPlan Latch.reduce.phase >>= fun _ => d.annotations.validate >>= fun _ =>
        Except.ok d.job) = .ok j ↔ _
    simp only [bind_unit_eq_ok_iff, hmap, hreduce, hcombine, Except.ok.injEq]
    constructor
    · rintro ⟨hm, hc, hr, ha, rfl⟩
      refine ⟨⟨hlatches, fun latch => ?_, hc, ha⟩, rfl⟩
      cases latch
      · exact hm
      · exact hr
    · rintro ⟨hd, rfl⟩
      exact ⟨hd.leaves .map, hd.combine, hd.leaves .reduce, hd.annotations, rfl⟩
  · constructor
    · intro hf
      have hopen : (!d.mapDone || !d.reduceDone) = true := by
        cases hm : d.mapDone <;> cases hr : d.reduceDone <;> simp_all
      rw [freeze, if_pos hopen] at hf
      cases hf
    · rintro ⟨hd, _⟩
      exact absurd ⟨hd.isSet .map, hd.isSet .reduce⟩ hset

/-- A run on a new draft sets the latch by closing its phase. -/
def ClosedIn (key : Key) (actions : List Action) (latch : Latch) : Prop :=
  ∃ before a after merging, actions = before ++ a :: after ∧
    Action.closes a = some (latch, merging) ∧
    ((create key).run before).isSet latch = false ∧
    ((create key).run (before ++ [a])).isSet latch = true

/-- A phase that was closed is closed for good, with at most one leaf. -/
theorem ClosedIn.leafCount_le {key : Key} {actions : List Action} {latch : Latch}
    (h : ClosedIn key actions latch) :
    ((create key).run actions).isSet latch = true ∧
      (((create key).run actions).plan latch.phase).leafCount ≤ 1 := by
  obtain ⟨before, a, after, merging, rfl, ha, hunset, hset⟩ := h
  have hsound : ((create key).run before).Sound := (sound_create key).run before
  have hstep : (create key).run (before ++ [a]) = (((create key).run before).step a).1 := by
    rw [run, List.foldl_append]
    rfl
  have hrest : (create key).run (before ++ a :: after) =
      ((create key).run (before ++ [a])).run after := by
    rw [run, run, run, ← List.foldl_append, List.append_assoc, List.singleton_append]
  have hsound' : ((create key).run (before ++ [a])).Sound := (sound_create key).run _
  have hlatch : ((create key).run (before ++ [a])).isSet latch.phase.latch = true := by
    rw [latch_phase]
    exact hset
  obtain ⟨q, hq, hclosed⟩ := hsound.merges_of_step ha hunset (hstep ▸ hset)
  rw [hrest]
  refine ⟨hsound'.isSet_run hset after, ?_⟩
  rw [hsound'.plan_run hlatch after, hstep, hclosed, plan_set, plan_withPlan, if_pos rfl]
  exact hq.leafCount_le

/-- **What freezing takes.** A draft whose phases were closed becomes a job
exactly if its combine plan hangs together and its annotations are valid. Any
draft that becomes a job, however its latches were set, has a map and a reduce plan
without operators or with one leaf that all others lead to, and nothing about it
changes. -/
theorem freeze_accepts (key : Key) (actions : List Action) :
    let d := (create key).run actions
    ((∀ latch, ClosedIn key actions latch) →
        ((∃ j, d.freeze = .ok j) ↔ d.combinePlan.Connected ∧ d.annotations.validate = .ok ())) ∧
      ∀ j, d.freeze = .ok j →
        j.mapPlan.Converges ∧ j.reducePlan.Converges ∧
          j = ⟨key, d.mapPlan, d.combinePlan, d.reducePlan, d.annotations⟩ := by
  intro d
  have h : d.Sound := (sound_create key).run actions
  have hkey : d.key = key := (sound_create key).key_run actions
  refine ⟨fun hclosed => ⟨?_, ?_⟩, fun j hj => ?_⟩
  · rintro ⟨j, hj⟩
    have hd := (h.freeze_eq_ok_iff.mp hj).1
    exact ⟨hd.combine, hd.annotations⟩
  · rintro ⟨hcombine, hann⟩
    have hd : d.Complete := ⟨fun latch => (hclosed latch).leafCount_le.1,
      fun latch => (hclosed latch).leafCount_le.2, hcombine, hann⟩
    exact ⟨d.job, h.freeze_eq_ok_iff.mpr ⟨hd, rfl⟩⟩
  · obtain ⟨hd, rfl⟩ := h.freeze_eq_ok_iff.mp hj
    refine ⟨(h .map).converges_of_leafCount_le (hd.leaves .map),
      (h .reduce).converges_of_leafCount_le (hd.leaves .reduce), ?_⟩
    rw [job, hkey]

/-- Two loads, merged by closing the map phase, and no reduce phase. -/
def twoLoads : List Action :=
  [.edit .map (.add ⟨⟨"s", 1⟩, .load ⟨"left", "reader"⟩⟩),
    .edit .map (.add ⟨⟨"s", 2⟩, .load ⟨"right", "reader"⟩⟩),
    .closeMap .severalLeaves true (KeyMint.empty.reserve "s" 2),
    .closeReduce true KeyMint.empty]

theorem twoLoads_closedIn (latch : Latch) : ClosedIn ⟨"s", 9⟩ twoLoads latch := by
  cases latch with
  | map => exact ⟨twoLoads.take 2, _, twoLoads.drop 3, _, rfl, rfl, by cbv, by cbv⟩
  | reduce => exact ⟨twoLoads.take 3, _, [], _, rfl, rfl, by cbv, by cbv⟩

theorem freeze_accepts_two_loads :
    (∀ latch, ClosedIn ⟨"s", 9⟩ twoLoads latch) ∧
      ∃ j, ((create ⟨"s", 9⟩).run twoLoads).freeze = .ok j ∧ j.mapPlan.Converges := by
  have hall := freeze_accepts ⟨"s", 9⟩ twoLoads
  have hkeys : ((create ⟨"s", 9⟩).run twoLoads).combinePlan.graph.keys = [] := by cbv
  have hcombine : ((create ⟨"s", 9⟩).run twoLoads).combinePlan.Connected := by
    intro a ha
    rw [hkeys] at ha
    cases ha
  have hann : ((create ⟨"s", 9⟩).run twoLoads).annotations.validate = .ok () := by cbv
  obtain ⟨j, hj⟩ := (hall.1 twoLoads_closedIn).mpr ⟨hcombine, hann⟩
  exact ⟨twoLoads_closedIn, j, hj, (hall.2 j hj).1⟩

end Draft
end MapReduce
