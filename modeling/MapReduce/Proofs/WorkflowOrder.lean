/-
# The order of a workflow

A workflow is built by adding jobs and making one depend on another. An operation
does what it says if it can be admitted, and else fails and changes nothing
(`Workflow.Sound.apply_cases`): a job needs a new key, a dependency two jobs of the
workflow and no path back. So every workflow that can be built is a well-formed
graph, with each job under its own key (`Workflow.sound_applyAll`).

For such a workflow the submission order is the least linear extension of its
graph, and a walk shows the jobs in that order, or in its reverse, up to the first
that the visitor refuses (`walked_visitAll`). What depends on a job is found by a queue
that starts with its successors and never looks whether it meets the job itself; that it
does not follows from the graph being acyclic (`Workflow.Sound.mem_dependents_iff_ne`).

Key definitions: `WorkflowEdit`, `Workflow.Sound`, `Workflow.Admits`,
`Workflow.Gains`, `Accepts`, `Walked`, `Workflow.Ordered`.
Key theorems: `Workflow.sound_applyAll`, `Workflow.Sound.apply_cases`,
`walked_visitAll`, `Workflow.ordered_applyAll`.
-/
import MapReduce.Proofs.LeastOrder
import MapReduce.Proofs.Worklists
import MapReduce.Workflow

namespace MapReduce

/-! ### Building a workflow -/

/-- An operation on a workflow. -/
inductive WorkflowEdit where
  | add (j : Job)
  | connect (a b : Key)

namespace Workflow

variable {w w' : Workflow} {a b k x : Key}

/-- The workflow that an operation leaves behind, and its error if it has one. -/
def apply (w : Workflow) : WorkflowEdit → Workflow × Except Failure Unit
  | .add j => w.add j
  | .connect a b => w.connect a b

/-- The workflow after several operations, those that fail included. -/
def applyAll (w : Workflow) (edits : List WorkflowEdit) : Workflow :=
  edits.foldl (fun w e => (w.apply e).1) w

/-- The graph is well formed, and each job is stored under its own key. -/
abbrev Sound (w : Workflow) : Prop := w.graph.Keyed Job.key

theorem Sound.apply (h : w.Sound) (e : WorkflowEdit) : (w.apply e).1.Sound := by
  cases e with
  | add j =>
    rw [Workflow.apply, add]
    split
    · exact h
    · exact Graph.Keyed.place h j
  | connect a b =>
    cases hg : w.graph.connect a b with
    | ok g =>
      rw [Workflow.apply, Workflow.connect, hg]
      exact Graph.Keyed.connect h hg
    | error fault =>
      rw [Workflow.apply, Workflow.connect, hg]
      cases fault <;> exact h

/-- Every workflow that can be built is sound. -/
theorem sound_applyAll (edits : List WorkflowEdit) : (empty.applyAll edits).Sound := by
  have hrun : ∀ (edits : List WorkflowEdit) {w : Workflow}, w.Sound → (w.applyAll edits).Sound := by
    intro edits
    induction edits with
    | nil => exact fun h => h
    | cons e edits ih => exact fun h => ih (h.apply e)
  exact hrun edits Graph.Keyed.empty

/-! ### What an operation does -/

/-- The operation can be carried out: the key of a new job is free, and a
dependency joins two jobs without closing a cycle. -/
def Admits (w : Workflow) : WorkflowEdit → Prop
  | .add j => j.key ∉ w.graph.keys
  | .connect a b => a ∈ w.graph.keys ∧ b ∈ w.graph.keys ∧ a ≠ b ∧ ¬ w.graph.Leads b a

/-- The jobs and edges of `w'` are those of `w` and what the operation adds. -/
def Gains (w : Workflow) : WorkflowEdit → Workflow → Prop
  | .add j, w' => (∀ k, w'.find? k = if k = j.key then some j else w.find? k) ∧
      ∀ x y, w'.graph.Edge x y ↔ w.graph.Edge x y
  | .connect a b, w' => (∀ k, w'.find? k = w.find? k) ∧
      ∀ x y, w'.graph.Edge x y ↔ w.graph.Edge x y ∨ x = a ∧ y = b

/-- **An operation is carried out if it can be**, and else fails and changes
nothing. -/
theorem Sound.apply_cases (h : w.Sound) (e : WorkflowEdit) :
    (w.Admits e ∧ ∃ w', w.apply e = (w', .ok ()) ∧ w.Gains e w') ∨
      (¬ w.Admits e ∧ ∃ err, w.apply e = (w, .error err)) := by
  cases e with
  | add j =>
    by_cases hj : j.key ∈ w.graph.keys
    · rw [Workflow.apply, add, if_pos (Graph.contains_iff.mpr hj)]
      exact .inr ⟨not_not.mpr hj, _, rfl⟩
    · rw [Workflow.apply, add, if_neg fun hc => hj (Graph.contains_iff.mp hc)]
      refine .inl ⟨hj, _, rfl, fun k => ?_, fun x y => Iff.rfl⟩
      exact w.graph.nodes.find?_upsert_eq j.key k _
  | connect a b =>
    have hiff : ∀ g, w.graph.connect a b = .ok g ↔ w.Admits (.connect a b) ∧ g = w.graph.link a b :=
      fun _ => h.wellFormed.connect_eq_ok_iff
    rw [Workflow.apply, Workflow.connect]
    cases hg : w.graph.connect a b with
    | ok g =>
      obtain ⟨hadmits, rfl⟩ := (hiff g).mp hg
      exact .inl ⟨hadmits, _, rfl, fun _ => rfl, fun x y => Graph.edge_link⟩
    | error fault =>
      have hno : ¬ w.Admits (.connect a b) := by
        intro hadmits
        rw [(hiff _).mpr ⟨hadmits, rfl⟩] at hg
        cases hg
      cases fault <;> exact .inr ⟨hno, _, rfl⟩

/-! ### The order and the dependents -/

theorem Sound.submissionOrder_eq (h : w.Sound) : w.submissionOrder = .ok w.graph.topological := by
  have hlen := h.wellFormed.length_topological
  simp [submissionOrder, hlen]

theorem mem_dependents_iff : b ∈ w.dependents a ↔ w.graph.Leads a b := Graph.mem_descendants_iff

/-- No job depends on itself. -/
theorem Sound.mem_dependents_iff_ne (h : w.Sound) :
    x ∈ w.dependents k ↔ x ≠ k ∧ w.graph.Leads k x := by
  rw [mem_dependents_iff]
  exact ⟨fun hl => ⟨(h.wellFormed.ne_of_leads hl).symm, hl⟩, fun hl => hl.2⟩

theorem pairwise_dependents (w : Workflow) (k : Key) :
    (w.dependents k).Pairwise (fun a b => Key.compare a b = .lt) :=
  OrderedMap.pairwise_keys _

/-- The jobs under some keys of a workflow. -/
theorem Sound.map_key_jobs (h : w.Sound) {ks : List Key} (hks : ∀ k ∈ ks, k ∈ w.graph.keys) :
    (ks.filterMap w.find?).map Job.key = ks :=
  Graph.Keyed.map_key_filterMap h hks

end Workflow

/-! ### Walks -/

section

variable {σ : Type} (visit : σ → Job → σ × Except Failure Unit)

/-- The visitor accepts the jobs one after the other, and stands at `s'` then. -/
def Accepts : σ → List Job → σ → Prop
  | s, [], s' => s' = s
  | s, j :: js, s' => ∃ t, visit s j = (t, .ok ()) ∧ Accepts t js s'

/-- How a walk over `jobs` ends: with all of them accepted, or with the first that
is refused, and its error. -/
inductive Walked (s : σ) (jobs : List Job) : σ × Except Failure Unit → Prop
  | done {s' : σ} (accepts : Accepts visit s jobs s') : Walked s jobs (s', .ok ())
  | stopped {seen rest : List Job} {j : Job} {t s' : σ} {e : Failure} (split : jobs = seen ++ j :: rest)
    (accepts : Accepts visit s seen t) (refuses : visit t j = (s', .error e)) : Walked s jobs (s', .error e)

variable {visit}

/-- A job that is accepted goes before the rest of the walk. -/
theorem Walked.cons {s t : σ} {j : Job} {js : List Job} {r : σ × Except Failure Unit}
    (hj : visit s j = (t, .ok ())) (h : Walked visit t js r) : Walked visit s (j :: js) r := by
  cases h with
  | done accepts => exact .done ⟨t, hj, accepts⟩
  | @stopped seen rest _ _ _ _ split accepts refuses =>
    have hsplit : j :: js = (j :: seen) ++ _ :: rest := congrArg (j :: ·) split
    exact .stopped hsplit ⟨t, hj, accepts⟩ refuses

/-- **A walk goes on until a job is refused.** -/
theorem walked_visitAll : ∀ (s : σ) (jobs : List Job),
    Walked visit s jobs (Workflow.visitAll visit s jobs)
  | s, [] => .done rfl
  | s, j :: js => by
    rw [Workflow.visitAll]
    split
    · rename_i t _ hj
      exact (walked_visitAll t js).cons hj
    · rename_i t e hj
      have hsplit : j :: js = [] ++ j :: js := rfl
      exact .stopped hsplit rfl hj

end

/-! ### The whole workflow -/

/-- What holds of the order of a workflow. -/
structure Workflow.Ordered (w : Workflow) : Prop where
  /-- Operations that cannot be carried out change nothing. -/
  apply_cases : ∀ e, (w.Admits e ∧ ∃ w', w.apply e = (w', .ok ()) ∧ w.Gains e w') ∨
    (¬ w.Admits e ∧ ∃ err, w.apply e = (w, .error err))
  /-- The indexes of edges have records for jobs of the workflow only. -/
  recorded : OrderedMap.keys w.graph.outgoing ⊆ w.graph.keys ∧ OrderedMap.keys w.graph.incoming ⊆ w.graph.keys
  /-- The indexes of edges mirror each other. -/
  mirror : ∀ a b, b ∈ w.graph.succs a ↔ a ∈ w.graph.preds b
  /-- Edges join jobs of the workflow. -/
  ends : ∀ a b, w.graph.Edge a b → a ∈ w.graph.keys ∧ b ∈ w.graph.keys
  acyclic : ∀ k, ¬ w.graph.Leads k k
  /-- A way back is found by the worklist that is searched for one. -/
  search : ∀ a ∈ w.graph.keys, ∀ b, w.graph.reaches a b = w.graph.pathFound a b
  /-- The submission order is the least linear extension. It is complete: more
  steps of the loop that builds it would take nothing more. -/
  order : ∃ order, w.submissionOrder = .ok order ∧ w.graph.LinearExtension order ∧
    (∀ l, w.graph.LinearExtension l → (List.compareLex Key.compare order l).isLE) ∧
    ∀ n, w.graph.size ≤ n → w.graph.takeReady n w.graph.frontier = order
  /-- No counter of that loop goes below zero. -/
  counters : ∀ n, w.graph.takeReady? n w.graph.frontier = some (w.graph.takeReady n w.graph.frontier)
  /-- A walk shows the jobs in submission order or in its reverse. -/
  walk : ∃ jobs, w.submissionOrder = .ok (jobs.map Job.key) ∧
    (∀ j ∈ jobs, w.find? j.key = some j) ∧
    ∀ {σ : Type} (visit : σ → Job → σ × Except Failure Unit) (s : σ),
      Walked visit s jobs (w.walk .dependency visit s) ∧
        Walked visit s jobs.reverse (w.walk .reverse visit s)
  /-- The dependents of a job are the other jobs that it leads to, in key order. -/
  dependents : ∀ k, (w.dependents k).Pairwise (fun a b => Key.compare a b = .lt) ∧
    (∀ x ∈ w.dependents k, x ∈ w.graph.keys) ∧ ∀ x, x ∈ w.dependents k ↔ x ≠ k ∧ w.graph.Leads k x

/-- **Workflows are ordered.** Whatever jobs are added and connected, in whatever
order and with whatever failures between: the graph is acyclic, the submission
order is its least linear extension and is found without a counter below zero, walks
follow it up to the first error, and the dependents of a job are what it leads to. -/
theorem Workflow.ordered_applyAll (edits : List WorkflowEdit) :
    (Workflow.empty.applyAll edits).Ordered := by
  have h : (Workflow.empty.applyAll edits).Sound := Workflow.sound_applyAll edits
  generalize Workflow.empty.applyAll edits = w at h ⊢
  have hg := h.wellFormed
  have hkeys : (w.graph.topological.filterMap w.find?).map Job.key = w.graph.topological :=
    h.map_key_jobs fun k hk => hg.perm_topological.mem_iff.mp hk
  refine ⟨h.apply_cases, ⟨hg.outgoing_subset, hg.incoming_subset⟩, hg.mirror, fun a b => hg.mem_keys_of_edge,
    hg.acyclic, fun a ha b => hg.reaches_eq_pathFound ha b, ?_, fun n => ?_, ?_, fun k => ?_⟩
  · exact ⟨_, h.submissionOrder_eq, hg.linearExtension_topological, fun l => hg.topological_isLE,
      fun n => hg.takeReady_eq⟩
  · exact hg.takeReady?_eq n (Frontier.tracks_frontier hg)
  · refine ⟨w.graph.topological.filterMap w.find?, by rw [hkeys, h.submissionOrder_eq], ?_, ?_⟩
    · intro j hj
      obtain ⟨k, _, hk⟩ := List.mem_filterMap.mp hj
      rwa [h.ownKey k j hk]
    · intro σ visit s
      rw [← List.filterMap_reverse]
      simp only [Workflow.walk, Workflow.walkKeys, h.submissionOrder_eq, Except.map]
      exact ⟨walked_visitAll s _, walked_visitAll s _⟩
  · refine ⟨w.pairwise_dependents k, fun x hx => ?_, fun x => h.mem_dependents_iff_ne⟩
    exact (hg.mem_keys_of_leads (Workflow.mem_dependents_iff.mp hx)).2

end MapReduce
