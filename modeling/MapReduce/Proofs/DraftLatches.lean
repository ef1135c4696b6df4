/-
# The latches of a draft

`Draft.Action` lists the operations on a draft; one that can mint a key carries a
mint of its own, so that nothing is assumed about the keys it hands out. What a
step can do is said once (`Sound.step_cases`): it changes nothing, or it makes one
of the moves of `Draft.Moves`. That latches stay set and closed plans stay as they
are is read off the moves and carried along a run.

Closing a phase either leaves its plan alone or makes a union its only leaf
(`Merging.Merges`). It is refused only if the plan needs a union and its key is
taken (`Draft.HasRoom`).

Key definitions: `Draft.Action`, `Draft.step`, `Draft.run`, `Draft.Moves`,
`Merging.Merges`, `Draft.HasRoom`.
Key theorems: `Draft.Sound.step_cases`, `Draft.Moves.plan_eq`,
`Draft.latch_discipline`.
-/
import MapReduce.Job.Draft
import MapReduce.Proofs.PlanInvariant

namespace MapReduce

/-! ### What closing makes of a plan -/

/-- `q` is the plan `p` after its phase is closed: the same if it has few leaves,
and else with a union as its only leaf. -/
inductive Merging.Merges (m : Merging) (p : PhasePlan) : PhasePlan → Prop
  | few (few : p.leafCount < m.threshold) : m.Merges p p
  | union {u : Operator} {q : PhasePlan} (kind : u.kind = .union) (gains : p.GainsLeaf u q) :
    m.Merges p q

theorem PhasePlan.GainsLeaf.find?_eq {p q : PhasePlan} {op : Operator} (h : p.GainsLeaf op q) :
    q.find? op.key = some op := by
  rw [find?, Graph.label?, h.nodes, OrderedMap.insert, OrderedMap.find?_upsert_eq]
  exact if_pos rfl

namespace Merging.Merges

variable {m : Merging} {p q : PhasePlan}

theorem gains (h : m.Merges p q) : q = p ∨ ∃ u : Operator, u.kind = .union ∧ p.GainsLeaf u q := by
  cases h with
  | few _ => exact .inl rfl
  | union kind gains => exact .inr ⟨_, kind, gains⟩

theorem leafCount_le (h : m.Merges p q) : q.leafCount ≤ 1 := by
  cases h with
  | few few =>
    have hm : m.threshold ≤ 2 := by cases m <;> decide
    omega
  | union _ gains => rw [PhasePlan.leafCount, gains.leaves, List.length_singleton]

/-- Where any leaf is enough, a plan with operators ends in a union. -/
theorem union_of_anyLeaf (h : Merging.anyLeaf.Merges p q) (hp : p.Sound) (hne : p.graph.keys ≠ []) :
    ∃ u : Operator, u.kind = .union ∧ q.find? u.key = some u ∧ q.graph.leaves = [u.key] := by
  cases h with
  | few few =>
    obtain ⟨k, hk⟩ := List.exists_mem_of_ne_nil _ hne
    obtain ⟨l, hl, _⟩ := hp.wellFormed.exists_leaf hk
    have hpos : 0 < p.leafCount := List.length_pos_of_mem hl
    exact absurd few (Nat.not_lt.mpr hpos)
  | union kind gains => exact ⟨_, kind, gains.find?_eq, gains.leaves⟩

end Merging.Merges

namespace Draft

/-- An operation on a draft. -/
inductive Action where
  | edit (phase : Phase) (change : PlanEdit)
  | setMapDone (done : Bool)
  | closeMap (merging : Merging) (done : Bool) (mint : KeyMint)
  | closeReduce (done : Bool) (mint : KeyMint)
  | annotate (f : Annotations → Annotations)

/-- The latch that an operation sets by closing its phase, and how it merges. -/
def Action.closes : Action → Option (Latch × Merging)
  | .closeMap merging _ _ => some (.map, merging)
  | .closeReduce _ _ => some (.reduce, .severalLeaves)
  | _ => none

/-- The draft that an operation leaves behind, and its error if it has one. -/
def step (d : Draft) : Action → Draft × Except Failure Unit
  | .edit phase change =>
    match d.edit phase (fun p => p.apply change) with
    | (d', .ok r) => (d', r)
    | (d', .error e) => (d', .error e)
  | .setMapDone done => d.setMapDone done
  | .closeMap merging done mint =>
    let r := d.closeMap merging done mint
    (r.1, r.2.2)
  | .closeReduce done mint =>
    let r := d.closeReduce done mint
    (r.1, r.2.2)
  | .annotate f => (d.annotate f, .ok ())

/-- The draft after several operations, those that fail included. -/
def run (d : Draft) (actions : List Action) : Draft := actions.foldl (fun d a => (d.step a).1) d

/-- All three plans are sound. -/
def Sound (d : Draft) : Prop := ∀ phase, (d.plan phase).Sound

/-- If closing the phase takes a union, its key is not taken. -/
def HasRoom (d : Draft) (latch : Latch) (merging : Merging) (mint : KeyMint) : Prop :=
  merging.threshold ≤ (d.plan latch.phase).leafCount →
    (mint.nextKey d.key.scope).1 ∉ (d.plan latch.phase).graph.keys

/-- The changes that an operation can make. -/
inductive Moves (d : Draft) : Action → Draft → Prop
  | edit {phase : Phase} {change : PlanEdit} (unset : d.isSet phase.latch = false) :
    Moves d (.edit phase change) (d.withPlan phase ((d.plan phase).apply change).1)
  | setMapDone : Moves d (.setMapDone true) (d.set .map)
  | close {a : Action} {latch : Latch} {merging : Merging} {q : PhasePlan}
    (closes : a.closes = some (latch, merging)) (unset : d.isSet latch = false)
    (merges : merging.Merges (d.plan latch.phase) q) (sound : q.Sound) :
    Moves d a ((d.withPlan latch.phase q).set latch)
  | annotate (f : Annotations → Annotations) : Moves d (.annotate f) (d.annotate f)

variable {d d' : Draft} {a : Action}

/-! ### Parts of a draft -/

@[simp] theorem withPlan_plan (d : Draft) (phase : Phase) : d.withPlan phase (d.plan phase) = d := by
  cases phase <;> rfl

theorem plan_withPlan (d : Draft) (phase phase' : Phase) (q : PhasePlan) :
    (d.withPlan phase q).plan phase' = if phase' = phase then q else d.plan phase' := by
  cases phase <;> cases phase' <;> rfl

@[simp] theorem isSet_withPlan (d : Draft) (phase : Phase) (q : PhasePlan) (latch : Latch) :
    (d.withPlan phase q).isSet latch = d.isSet latch := by
  cases phase <;> rfl

@[simp] theorem key_withPlan (d : Draft) (phase : Phase) (q : PhasePlan) :
    (d.withPlan phase q).key = d.key := by
  cases phase <;> rfl

@[simp] theorem plan_set (d : Draft) (latch : Latch) (phase : Phase) :
    (d.set latch).plan phase = d.plan phase := by
  cases latch <;> cases phase <;> rfl

theorem isSet_set (d : Draft) (latch latch' : Latch) :
    (d.set latch).isSet latch' = (decide (latch' = latch) || d.isSet latch') := by
  cases latch <;> cases latch' <;> rfl

@[simp] theorem key_set (d : Draft) (latch : Latch) : (d.set latch).key = d.key := by
  cases latch <;> rfl

@[simp] theorem plan_annotate (d : Draft) (f : Annotations → Annotations) (phase : Phase) :
    (d.annotate f).plan phase = d.plan phase := by
  cases phase <;> rfl

@[simp] theorem isSet_annotate (d : Draft) (f : Annotations → Annotations) (latch : Latch) :
    (d.annotate f).isSet latch = d.isSet latch := by
  cases latch <;> rfl

theorem latch_phase (latch : Latch) : latch.phase.latch = latch := by
  cases latch <;> rfl

/-! ### What a step does -/

theorem mergeLeaves_of_le {merging : Merging} {phase : Phase}
    (hmany : merging.threshold ≤ (d.plan phase).leafCount) (mint : KeyMint) :
    d.mergeLeaves merging phase mint =
      (d.withPlan phase ((d.plan phase).addAsLeaf ⟨(mint.nextKey d.key.scope).1, .union⟩).1,
        (mint.nextKey d.key.scope).2,
        ((d.plan phase).addAsLeaf ⟨(mint.nextKey d.key.scope).1, .union⟩).2) := by
  rw [mergeLeaves, if_pos hmany]

/-- Merging leaves draws a union under them, where there are enough. -/
theorem Sound.mergeLeaves_of_room (h : d.Sound) {latch : Latch} {merging : Merging} {mint : KeyMint}
    (hroom : d.HasRoom latch merging mint) :
    ∃ q mint', merging.Merges (d.plan latch.phase) q ∧ q.Sound ∧
      d.mergeLeaves merging latch.phase mint = (d.withPlan latch.phase q, mint', .ok ()) := by
  by_cases hmany : merging.threshold ≤ (d.plan latch.phase).leafCount
  · have hkey : (⟨(mint.nextKey d.key.scope).1, .union⟩ : Operator).key ∉
        (d.plan latch.phase).graph.keys := hroom hmany
    obtain ⟨hok, hgains, hsound⟩ := (h latch.phase).addAsLeaf hkey
    refine ⟨_, (mint.nextKey d.key.scope).2, .union rfl hgains, hsound, ?_⟩
    rw [mergeLeaves_of_le hmany, hok]
  · refine ⟨d.plan latch.phase, mint, .few (Nat.lt_of_not_le hmany), h latch.phase, ?_⟩
    rw [mergeLeaves, if_neg hmany, withPlan_plan]

/-- A union whose key is taken is refused, and the plan stays as it is. -/
theorem Sound.mergeLeaves_of_not_room (h : d.Sound) {latch : Latch} {merging : Merging}
    {mint : KeyMint} (hroom : ¬ d.HasRoom latch merging mint) :
    ∃ mint' e, d.mergeLeaves merging latch.phase mint = (d, mint', .error e) := by
  unfold HasRoom at hroom
  push Not at hroom
  obtain ⟨hmany, htaken⟩ := hroom
  have hkey : (⟨(mint.nextKey d.key.scope).1, .union⟩ : Operator).key ∈
      (d.plan latch.phase).graph.keys := htaken
  have hadd := (h latch.phase).addAsLeaf_of_mem hkey
  have hmerge := mergeLeaves_of_le hmany mint
  rw [hadd, withPlan_plan] at hmerge
  exact ⟨_, _, hmerge⟩

theorem Sound.close_of_room (h : d.Sound) {latch : Latch} {merging : Merging} {mint : KeyMint}
    (hunset : d.isSet latch = false) (hroom : d.HasRoom latch merging mint) :
    ∃ q mint', merging.Merges (d.plan latch.phase) q ∧ q.Sound ∧
      d.close latch merging true mint = ((d.withPlan latch.phase q).set latch, mint', .ok ()) := by
  obtain ⟨q, mint', hq, hsound, hmerge⟩ := h.mergeLeaves_of_room hroom
  refine ⟨q, mint', hq, hsound, ?_⟩
  simp [close, checkLatch, hunset, hmerge]

theorem Sound.close_of_not_room (h : d.Sound) {latch : Latch} {merging : Merging} {mint : KeyMint}
    (hunset : d.isSet latch = false) (hroom : ¬ d.HasRoom latch merging mint) :
    ∃ mint' e, d.close latch merging true mint = (d, mint', .error e) := by
  obtain ⟨mint', e, hmerge⟩ := h.mergeLeaves_of_not_room hroom
  refine ⟨mint', e, ?_⟩
  simp [close, checkLatch, hunset, hmerge]

/-- Closing sets an unset latch exactly if there is room for the union. -/
theorem Sound.isSet_close_iff (h : d.Sound) {latch : Latch} {merging : Merging} {mint : KeyMint}
    (hunset : d.isSet latch = false) :
    (d.close latch merging true mint).1.isSet latch = true ↔ d.HasRoom latch merging mint := by
  by_cases hroom : d.HasRoom latch merging mint
  · obtain ⟨q, mint', _, _, hclose⟩ := h.close_of_room hunset hroom
    simp [hclose, hroom, isSet_set]
  · obtain ⟨mint', e, hclose⟩ := h.close_of_not_room hunset hroom
    simp [hclose, hroom, hunset]

/-- Without `done`, or once the latch is set, closing changes nothing. -/
theorem close_of_idle {latch : Latch} {merging : Merging} {done : Bool} {mint : KeyMint}
    (hidle : done = false ∨ d.isSet latch = true) : (d.close latch merging done mint).1 = d := by
  unfold close
  split
  · rfl
  · have hskip : (!done || d.isSet latch) = true := by
      rcases hidle with h | h <;> simp [h]
    rw [if_pos hskip]

theorem Sound.close_cases (h : d.Sound) {latch : Latch} {merging : Merging}
    (ha : a.closes = some (latch, merging)) (done : Bool) (mint : KeyMint) :
    (d.close latch merging done mint).1 = d ∨
      (d.close latch merging done mint).2.2 = .ok () ∧
        d.Moves a (d.close latch merging done mint).1 := by
  by_cases hidle : done = false ∨ d.isSet latch = true
  · exact .inl (close_of_idle hidle)
  · push Not at hidle
    obtain ⟨hdone, hset⟩ := hidle
    have hdone' : done = true := Bool.eq_true_of_not_eq_false hdone
    have hunset : d.isSet latch = false := Bool.eq_false_of_not_eq_true hset
    subst hdone'
    by_cases hroom : d.HasRoom latch merging mint
    · obtain ⟨q, mint', hq, hsound, hclose⟩ := h.close_of_room hunset hroom
      rw [hclose]
      exact .inr ⟨rfl, .close ha hunset hq hsound⟩
    · obtain ⟨mint', e, hclose⟩ := h.close_of_not_room hunset hroom
      rw [hclose]
      exact .inl rfl

/-- A set latch is not taken back, and an unset one stays unset. -/
theorem setMapDone_false (d : Draft) : (d.setMapDone false).1 = d := by
  obtain ⟨key, mapPlan, combinePlan, reducePlan, mapDone, reduceDone, annotations⟩ := d
  cases mapDone <;> rfl

/-- **What a step can do**: nothing, or succeed with one of the moves. -/
theorem Sound.step_cases (h : d.Sound) (a : Action) :
    (d.step a).1 = d ∨ (d.step a).2 = .ok () ∧ d.Moves a (d.step a).1 := by
  cases a with
  | edit phase change =>
    by_cases hset : d.isSet phase.latch = true
    · exact .inl (by simp [step, Draft.edit, hset])
    · have hunset : d.isSet phase.latch = false := Bool.eq_false_of_not_eq_true hset
      have hstep : d.step (.edit phase change) =
          (d.withPlan phase ((d.plan phase).apply change).1, ((d.plan phase).apply change).2) := by
        simp [step, Draft.edit, hunset]
      rw [hstep]
      cases hr : ((d.plan phase).apply change).2 with
      | ok _ => exact .inr ⟨rfl, .edit hunset⟩
      | error e =>
        left
        change d.withPlan phase ((d.plan phase).apply change).1 = d
        rw [(h phase).apply_error hr, withPlan_plan]
  | setMapDone done =>
    cases done with
    | true =>
      have hstep : d.step (.setMapDone true) = (d.set .map, .ok ()) := by
        simp [step, Draft.setMapDone, checkLatch, Draft.set]
      rw [hstep]
      exact .inr ⟨rfl, .setMapDone⟩
    | false => exact .inl d.setMapDone_false
  | closeMap merging done mint => exact h.close_cases rfl done mint
  | closeReduce done mint => exact h.close_cases rfl done mint
  | annotate f => exact .inr ⟨rfl, .annotate f⟩

/-- A step that fails leaves the draft as it was. -/
theorem Sound.step_error (h : d.Sound) {err : Failure} (herr : (d.step a).2 = .error err) :
    (d.step a).1 = d := by
  rcases h.step_cases a with hsame | ⟨hok, _⟩
  · exact hsame
  · rw [hok] at herr
    cases herr

/-! ### What every move keeps -/

namespace Moves

theorem sound (h : d.Sound) (hm : d.Moves a d') : d'.Sound := by
  intro phase
  cases hm with
  | @edit phase' change _ =>
    rw [plan_withPlan]
    split
    · exact (h phase').apply change
    · exact h phase
  | setMapDone =>
    rw [plan_set]
    exact h phase
  | close _ _ _ hq =>
    rw [plan_set, plan_withPlan]
    split
    · exact hq
    · exact h phase
  | annotate f =>
    rw [plan_annotate]
    exact h phase

theorem isSet_of_isSet (hm : d.Moves a d') {latch : Latch} (hset : d.isSet latch = true) :
    d'.isSet latch = true := by
  cases hm with
  | edit _ => simpa using hset
  | setMapDone => simp [isSet_set, hset]
  | close _ _ _ _ => simp [isSet_set, hset]
  | annotate f => simpa using hset

/-- A plan whose latch is set stays as it is. -/
theorem plan_eq (hm : d.Moves a d') {phase : Phase} (hset : d.isSet phase.latch = true) :
    d'.plan phase = d.plan phase := by
  cases hm with
  | edit unset =>
    rw [plan_withPlan, if_neg]
    rintro rfl
    rw [unset] at hset
    cases hset
  | setMapDone => exact plan_set d .map phase
  | @close _ latch _ _ _ unset _ _ =>
    rw [plan_set, plan_withPlan, if_neg]
    rintro rfl
    rw [latch_phase, unset] at hset
    cases hset
  | annotate f => exact plan_annotate d f phase

theorem key_eq (hm : d.Moves a d') : d'.key = d.key := by
  cases hm with
  | edit _ => exact key_withPlan _ _ _
  | setMapDone => exact key_set _ _
  | close _ _ _ _ => rw [key_set, key_withPlan]
  | annotate f => rfl

end Moves

/-! ### Runs -/

/-- What the moves of sound drafts keep, runs keep. -/
theorem Sound.run_induction {P : Draft → Prop} (h : d.Sound) (hd : P d)
    (hstep : ∀ d a d', d.Sound → d.Moves a d' → P d → P d') (actions : List Action) :
    (d.run actions).Sound ∧ P (d.run actions) := by
  induction actions generalizing d with
  | nil => exact ⟨h, hd⟩
  | cons a actions ih =>
    rcases h.step_cases a with hsame | ⟨_, hm⟩
    · have hrun : d.run (a :: actions) = d.run actions := by
        rw [run, List.foldl_cons, hsame, run]
      rw [hrun]
      exact ih h hd
    · exact ih (hm.sound h) (hstep d a _ h hm hd)

theorem Sound.run (h : d.Sound) (actions : List Action) : (d.run actions).Sound :=
  (h.run_induction (P := fun _ => True) trivial (fun _ _ _ _ _ _ => trivial) actions).1

theorem Sound.isSet_run (h : d.Sound) {latch : Latch} (hset : d.isSet latch = true)
    (actions : List Action) : (d.run actions).isSet latch = true :=
  (h.run_induction (P := fun d' => d'.isSet latch = true) hset
    (fun _ _ _ _ hm => hm.isSet_of_isSet) actions).2

theorem Sound.plan_run (h : d.Sound) {phase : Phase} (hset : d.isSet phase.latch = true)
    (actions : List Action) : (d.run actions).plan phase = d.plan phase := by
  have hrun := h.run_induction
    (P := fun d' => d'.isSet phase.latch = true ∧ d'.plan phase = d.plan phase) ⟨hset, rfl⟩
    (fun _ _ _ _ hm hp => ⟨hm.isSet_of_isSet hp.1, (hm.plan_eq hp.1).trans hp.2⟩) actions
  exact hrun.2.2

theorem Sound.key_run (h : d.Sound) (actions : List Action) : (d.run actions).key = d.key :=
  (h.run_induction (P := fun d' => d'.key = d.key) rfl
    (fun _ _ _ _ hm hp => hm.key_eq.trans hp) actions).2

theorem sound_create (key : Key) : (create key).Sound := by
  intro phase
  cases phase <;> exact PhasePlan.sound_empty

/-- A latch that an operation sets by closing its phase leaves the plan merged,
and the rest of the draft as it was. -/
theorem Sound.merges_of_step (h : d.Sound) {latch : Latch} {merging : Merging}
    (ha : a.closes = some (latch, merging)) (hunset : d.isSet latch = false)
    (hset : (d.step a).1.isSet latch = true) :
    ∃ q, merging.Merges (d.plan latch.phase) q ∧
      (d.step a).1 = (d.withPlan latch.phase q).set latch := by
  rcases h.step_cases a with hsame | ⟨_, hm⟩
  · rw [hsame, hunset] at hset
    cases hset
  · generalize (d.step a).1 = d' at hm
    cases hm with
    | @close _ latch' merging' q closes _ merges _ =>
      obtain ⟨rfl, rfl⟩ := Prod.mk.inj (Option.some.inj (closes.symm.trans ha))
      exact ⟨q, merges, rfl⟩
    | edit _ => cases ha
    | setMapDone => cases ha
    | annotate f => cases ha

/-- **The latches of a draft.** After any operations on a new draft, and whatever
follows, a latch that is set stays set and the plans behind it stay as they are. A
step that fails changes nothing. A step that sets a latch by closing its phase
changes only that latch and its plan: the plan gains at most a union under a new
key and has at most one leaf, and where any leaf is enough and there are
operators, its one leaf is a union. Closing succeeds whenever the key of the union
is not taken. -/
theorem latch_discipline (key : Key) (actions : List Action) :
    let d := (create key).run actions
    (∀ later latch, d.isSet latch = true → (d.run later).isSet latch = true) ∧
      (∀ later phase, d.isSet phase.latch = true → (d.run later).plan phase = d.plan phase) ∧
      (∀ a err, (d.step a).2 = .error err → (d.step a).1 = d) ∧
      (∀ a latch merging, a.closes = some (latch, merging) → d.isSet latch = false →
        (d.step a).1.isSet latch = true →
          let p := d.plan latch.phase
          ∃ q, (d.step a).1 = (d.withPlan latch.phase q).set latch ∧
            (q = p ∨ ∃ u : Operator, u.kind = .union ∧ p.GainsLeaf u q) ∧
            q.leafCount ≤ 1 ∧
            (merging = .anyLeaf → p.graph.keys ≠ [] →
              ∃ u : Operator, u.kind = .union ∧ q.find? u.key = some u ∧
                q.graph.leaves = [u.key])) ∧
      ∀ latch merging mint, d.isSet latch = false →
        ((d.close latch merging true mint).1.isSet latch = true ↔ d.HasRoom latch merging mint) := by
  intro d
  have h : d.Sound := (sound_create key).run actions
  refine ⟨fun later latch hset => h.isSet_run hset later,
    fun later phase hset => h.plan_run hset later, fun a err => h.step_error,
    fun a latch merging ha hunset hset => ?_, fun latch merging mint => h.isSet_close_iff⟩
  obtain ⟨q, hq, hstep⟩ := h.merges_of_step ha hunset hset
  refine ⟨q, hstep, hq.gains, hq.leafCount_le, ?_⟩
  rintro rfl hne
  exact hq.union_of_anyLeaf (h latch.phase) hne

end Draft
end MapReduce
