/-
# Searches by worklist

Before an edge is added a search looks for a way back from its end to its start, another
counts the vertices that hang together with the first, and a third collects what a vertex
leads to. All keep a list of vertices to visit. A vertex is entered there each time it is
met and is looked up among the seen ones only when its turn comes, so the list holds
repetitions and can grow. `Search` is such a loop taken step by step: the first visits what
was entered last and stops at its target, the others what was entered first until nothing
is pending.

A vertex that has been seen enters nothing again, so over a whole search no more is
entered than the indexes record, and each step takes one entry away. This bounds the
steps on any graph, well formed or not (`Search.step_run_eq_none`). What a search has
seen and has still to visit is closed under its steps, and is reached from its starts
(`Search.Holds`); when it stops it has therefore found exactly what can be reached
(`Search.hit_iff`, `Search.Holds.mem_seen_iff`). On a well-formed graph the first two
answer as `Graph.reaches` and `Graph.isConnected` do. The third starts at the successors of
a vertex and is `Graph.flood` step by step, so on any graph the descendants of a vertex are
what it leads to (`Graph.mem_descendants_iff`), the vertex itself among them if it is on a
cycle.

Key definitions: `Worklist`, `Search`, `Search.step`, `Search.run`, `Search.Holds`,
`Graph.pathSearch`, `Graph.linkSearch`, `Graph.floodSearch`.
Key theorems: `Search.step_run_eq_none`, `Search.hit_iff`, `Search.Holds.mem_seen_iff`,
`Graph.WellFormed.reaches_eq_pathFound`, `Graph.WellFormed.isConnected_eq_allLinked`,
`Graph.holds_flood`, `Graph.mem_descendants_iff`, `PhasePlan.searches_exact`.
-/
import MapReduce.Proofs.PlanInvariant

namespace MapReduce

/-- A search under way: the vertices that were visited, and those to visit, the next one
first. -/
structure Worklist where
  seen : List Key
  pending : List Key

/-- A search: where its steps lead, how what is met joins what is pending, and where it
stops. -/
structure Search where
  next : Key → List Key
  goal : Key → Bool
  enter : List Key → List Key → List Key
  perm_enter : ∀ new pending, (enter new pending).Perm (new ++ pending)

namespace Search

variable {s : Search} {w w' : Worklist} {start k : Key} {known starts : List Key}

/-- The next vertex is visited. There is no step if no vertex is pending, or the next one
is a goal. -/
def step (s : Search) : Worklist → Option Worklist
  | ⟨_, []⟩ => none
  | ⟨seen, k :: rest⟩ =>
    if s.goal k then none
    else if k ∈ seen then some ⟨seen, rest⟩
    else some ⟨k :: seen, s.enter (s.next k) rest⟩

/-- The search after at most `n` steps. -/
def run (s : Search) : Nat → Worklist → Worklist
  | 0, w => w
  | n + 1, w =>
    match s.step w with
    | some w' => run s n w'
    | none => w

/-- A search that has visited nothing yet. -/
def begin (start : Key) : Worklist := ⟨[], [start]⟩

/-- The search from `start` has stopped after at most `n` steps. -/
def StopsWithin (s : Search) (n : Nat) (start : Key) : Prop := s.step (s.run n (begin start)) = none

/-- A step passes over a vertex that was seen, or marks one and enters what follows. -/
theorem step_eq_some_iff : s.step w = some w' ↔ ∃ k rest, w.pending = k :: rest ∧ s.goal k = false ∧
    (k ∈ w.seen ∧ w' = ⟨w.seen, rest⟩ ∨ k ∉ w.seen ∧ w' = ⟨k :: w.seen, s.enter (s.next k) rest⟩) := by
  obtain ⟨seen, pending⟩ := w
  cases pending with
  | nil => simp [step]
  | cons k rest =>
    by_cases hgoal : s.goal k = true
    · simp [step, hgoal]
    · by_cases hk : k ∈ seen
      · simp [step, hgoal, hk, eq_comm (b := w')]
      · simp [step, hgoal, hk, eq_comm (b := w')]

theorem step_eq_none_iff : s.step w = none ↔
    w.pending = [] ∨ ∃ k rest, w.pending = k :: rest ∧ s.goal k = true := by
  obtain ⟨seen, pending⟩ := w
  cases pending with
  | nil => simp [step]
  | cons k rest =>
    by_cases hgoal : s.goal k = true
    · simp [step, hgoal]
    · by_cases hk : k ∈ seen <;> simp [step, hgoal, hk]

/-- What every step keeps holds at the end. -/
theorem run_induction {P : Worklist → Prop} (hstep : ∀ w w', P w → s.step w = some w' → P w') :
    ∀ (n : Nat) {w : Worklist}, P w → P (s.run n w)
  | 0, _, h => h
  | n + 1, w, h => by
    unfold run
    cases hw : s.step w with
    | none => exact h
    | some w' => exact run_induction hstep n (hstep w w' h hw)

/-! ### The number of steps -/

/-- How many entries the vertices of `known` can still make. -/
def outstanding (s : Search) (known seen : List Key) : Nat :=
  ((known.filter (· ∉ seen)).map fun k => (s.next k).length).sum

/-- The entries that are pending, and those that can still be made. -/
def weight (s : Search) (known : List Key) (w : Worklist) : Nat :=
  w.pending.length + s.outstanding known w.seen

/-- A vertex that is marked makes its entries once. -/
theorem outstanding_cons (hknown : known.Nodup) (hnext : ∀ k, k ∉ known → s.next k = []) {seen : List Key}
    (hk : k ∉ seen) : s.outstanding known (k :: seen) + (s.next k).length = s.outstanding known seen := by
  have hfilter : known.filter (· ∉ k :: seen) = (known.filter (· ∉ seen)).erase k := by
    rw [(hknown.filter _).erase_eq_filter, List.filter_filter]
    refine List.filter_congr fun x _ => Bool.eq_iff_iff.mpr ?_
    simp
  by_cases hmem : k ∈ known
  · have hleft : k ∈ known.filter (· ∉ seen) := by simp [hmem, hk]
    rw [outstanding, outstanding, hfilter, Nat.add_comm]
    exact List.sum_map_erase (fun x => (s.next x).length) hleft
  · have hleft : k ∉ known.filter (· ∉ seen) := fun h => hmem (List.mem_of_mem_filter h)
    rw [outstanding, outstanding, hfilter, List.erase_of_not_mem hleft, hnext k hmem]
    rfl

theorem weight_lt_of_step (hknown : known.Nodup) (hnext : ∀ k, k ∉ known → s.next k = [])
    (h : s.step w = some w') : s.weight known w' < s.weight known w := by
  obtain ⟨k, rest, hpending, _, ⟨_, rfl⟩ | ⟨hk, rfl⟩⟩ := step_eq_some_iff.mp h
  · simp [weight, hpending]
  · have hentries := outstanding_cons hknown hnext hk
    have hlength := (s.perm_enter (s.next k) rest).length_eq
    rw [List.length_append] at hlength
    simp only [weight, hpending, List.length_cons]
    omega

/-- **A search ends**, after no more steps than there are entries to make. -/
theorem step_run_eq_none (hknown : known.Nodup) (hnext : ∀ k, k ∉ known → s.next k = []) :
    ∀ {n : Nat} {w : Worklist}, s.weight known w ≤ n → s.step (s.run n w) = none
  | 0, w, h => by
    have hlength : w.pending.length = 0 := Nat.eq_zero_of_add_eq_zero_right (Nat.le_zero.mp h)
    exact step_eq_none_iff.mpr (.inl (List.eq_nil_of_length_eq_zero hlength))
  | n + 1, w, h => by
    unfold run
    cases hw : s.step w with
    | none => exact hw
    | some w' =>
      have hlt := weight_lt_of_step hknown hnext hw
      exact step_run_eq_none hknown hnext (by omega)

/-! ### What is found -/

/-- Steps lead from one of `starts` to `k`. -/
def Reached (s : Search) (starts : List Key) (k : Key) : Prop :=
  ∃ t ∈ starts, Relation.ReflTransGen (fun a b => b ∈ s.next a) t k

/-- What holds of a search from `starts` after any steps. -/
structure Holds (s : Search) (starts : List Key) (w : Worklist) : Prop where
  nodup : w.seen.Nodup
  starts_mem : ∀ t ∈ starts, t ∈ w.seen ∨ t ∈ w.pending
  closed : ∀ a ∈ w.seen, ∀ b ∈ s.next a, b ∈ w.seen ∨ b ∈ w.pending
  reached : ∀ k, k ∈ w.seen ∨ k ∈ w.pending → s.Reached starts k
  missed : ∀ k ∈ w.seen, s.goal k = false

theorem holds_start (s : Search) (starts : List Key) : s.Holds starts ⟨[], starts⟩ where
  nodup := .nil
  starts_mem _ ht := .inr ht
  closed := by simp
  reached k hk := ⟨k, by simpa using hk, .refl⟩
  missed := by simp

theorem holds_begin (s : Search) (start : Key) : s.Holds [start] (begin start) := s.holds_start [start]

namespace Holds

theorem step (h : s.Holds starts w) (hw : s.step w = some w') : s.Holds starts w' := by
  obtain ⟨k, rest, hpending, hgoal, ⟨hk, rfl⟩ | ⟨hk, rfl⟩⟩ := step_eq_some_iff.mp hw
  · -- what was pending is pending still, or was seen
    have hkept : ∀ x, x ∈ w.seen ∨ x ∈ w.pending → x ∈ w.seen ∨ x ∈ rest := by
      intro x hx
      rw [hpending, List.mem_cons] at hx
      rcases hx with hx | rfl | hx
      · exact .inl hx
      · exact .inl hk
      · exact .inr hx
    refine ⟨h.nodup, fun t ht => hkept _ (h.starts_mem t ht), fun a ha b hb => hkept _ (h.closed a ha b hb),
      fun x hx => ?_, h.missed⟩
    refine h.reached x (hx.imp_right fun hx => ?_)
    rw [hpending]
    exact List.mem_cons_of_mem k hx
  · have hmem : ∀ x, x ∈ s.enter (s.next k) rest ↔ x ∈ s.next k ∨ x ∈ rest := by
      intro x
      rw [(s.perm_enter (s.next k) rest).mem_iff, List.mem_append]
    have hkept : ∀ x, x ∈ w.seen ∨ x ∈ w.pending → x ∈ k :: w.seen ∨ x ∈ s.enter (s.next k) rest := by
      intro x hx
      rw [hpending, List.mem_cons] at hx
      rw [hmem, List.mem_cons]
      tauto
    obtain ⟨t, ht, hkreached⟩ := h.reached k (.inr (hpending ▸ List.mem_cons_self))
    refine ⟨List.nodup_cons.mpr ⟨hk, h.nodup⟩, fun t ht => hkept _ (h.starts_mem t ht), fun a ha b hb => ?_,
      fun x hx => ?_, ?_⟩
    · rcases List.mem_cons.mp ha with rfl | ha
      · exact .inr ((hmem b).mpr (.inl hb))
      · exact hkept _ (h.closed a ha b hb)
    · rw [hmem, List.mem_cons] at hx
      rcases hx with (rfl | hx) | hx | hx
      · exact ⟨t, ht, hkreached⟩
      · exact h.reached x (.inl hx)
      · exact ⟨t, ht, hkreached.tail hx⟩
      · exact h.reached x (.inr (hpending ▸ List.mem_cons_of_mem k hx))
    · exact List.forall_mem_cons.mpr ⟨hgoal, h.missed⟩

theorem run (h : s.Holds starts w) (n : Nat) : s.Holds starts (s.run n w) :=
  run_induction (fun _ _ => Holds.step) n h

/-- With nothing pending, what was seen is what can be reached. -/
theorem mem_seen_iff (h : s.Holds starts w) (hdone : w.pending = []) : k ∈ w.seen ↔ s.Reached starts k := by
  have hseen : ∀ x, x ∈ w.seen ∨ x ∈ w.pending → x ∈ w.seen := by simp [hdone]
  refine ⟨fun hk => h.reached k (.inl hk), ?_⟩
  rintro ⟨t, ht, hk⟩
  induction hk with
  | refl => exact hseen _ (h.starts_mem t ht)
  | tail _ hstep ih => exact hseen _ (h.closed _ ih _ hstep)

end Holds

/-- Whether a search has come upon a goal. -/
def hit (s : Search) (w : Worklist) : Bool := w.pending.head?.any s.goal

/-- **A search that has stopped has come upon a goal exactly if one can be reached.** -/
theorem hit_iff (h : s.Holds starts w) (hstop : s.step w = none) :
    s.hit w = true ↔ ∃ k, s.goal k = true ∧ s.Reached starts k := by
  rcases step_eq_none_iff.mp hstop with hdone | ⟨k, rest, hpending, hgoal⟩
  · constructor
    · intro hhit
      simp [hit, hdone] at hhit
    · rintro ⟨k, hgoal, hk⟩
      have hmissed := h.missed k ((h.mem_seen_iff hdone).mpr hk)
      rw [hgoal] at hmissed
      cases hmissed
  · have hhit : s.hit w = true := by simp [hit, hpending, hgoal]
    exact iff_of_true hhit ⟨k, hgoal, h.reached k (.inr (hpending ▸ List.mem_cons_self))⟩

/-- From one start. -/
theorem reached_singleton : s.Reached [start] k ↔ Relation.ReflTransGen (fun a b => b ∈ s.next a) start k := by
  simp [Reached]

end Search

open Search

/-! ### The searches of a graph -/

theorem EdgeIndex.ends_eq_nil (e : EdgeIndex) {k : Key} (h : k ∉ OrderedMap.keys e) : e.ends k = [] :=
  List.eq_nil_iff_forall_not_mem.mpr fun _ hx => h (e.mem_keys_of_mem_ends hx)

namespace Graph

variable {α : Type} {g : Graph α} {a b : Key} {s : Search}

/-- The search for a directed path to `target`. What was entered last is visited first. -/
def pathSearch (g : Graph α) (target : Key) : Search where
  next := g.succs
  goal k := k == target
  enter new pending := new.reverse ++ pending
  perm_enter new pending := (List.reverse_perm new).append_right pending

/-- The search for all that edges join, whatever their direction. What was entered first is
visited first. -/
def linkSearch (g : Graph α) : Search where
  next k := g.succs k ++ g.preds k
  goal _ := false
  enter new pending := pending ++ new
  perm_enter _ _ := List.perm_append_comm

/-- The keys that have a record in one of the indexes. -/
def recorded (g : Graph α) : List Key := (OrderedMap.keys g.outgoing ++ OrderedMap.keys g.incoming).dedup

/-- One entry for the start of a search, and one for each end of a step in the records. -/
def entries (g : Graph α) (s : Search) : Nat := 1 + (g.recorded.map fun k => (s.next k).length).sum

/-- **A search along edges ends on every graph**, after at most one step per entry. -/
theorem stopsWithin_entries (hs : ∀ k, s.next k ⊆ g.succs k ++ g.preds k) (start : Key) :
    s.StopsWithin (g.entries s) start := by
  have hnodup : g.recorded.Nodup := List.nodup_dedup _
  refine step_run_eq_none hnodup (fun k hk => ?_) (le_of_eq ?_)
  · rw [recorded, List.mem_dedup, List.mem_append, not_or] at hk
    have hnone : g.succs k ++ g.preds k = [] := by
      rw [succs, preds, g.outgoing.ends_eq_nil hk.1, g.incoming.ends_eq_nil hk.2, List.append_nil]
    exact List.subset_nil.mp (hnone ▸ hs k)
  · simp [weight, outstanding, begin, entries]

theorem pathSearch_stops (g : Graph α) (start target : Key) :
    (g.pathSearch target).StopsWithin (g.entries (g.pathSearch target)) start :=
  stopsWithin_entries (fun _ => List.subset_append_left _ _) start

theorem linkSearch_stops (g : Graph α) (start : Key) : g.linkSearch.StopsWithin (g.entries g.linkSearch) start :=
  stopsWithin_entries (fun _ => List.Subset.refl _) start

/-- Whether the search from `a` comes upon `b`. -/
def pathFound (g : Graph α) (a b : Key) : Bool :=
  (g.pathSearch b).hit ((g.pathSearch b).run (g.entries (g.pathSearch b)) (begin a))

/-- Whether the search from the first vertex sees as many as there are. -/
def allLinked (g : Graph α) : Bool :=
  match g.keys with
  | [] => true
  | k :: _ => (g.linkSearch.run (g.entries g.linkSearch) (begin k)).seen.length == g.size

/-- On any graph the search finds a directed path if there is one. -/
theorem pathFound_iff : g.pathFound a b = true ↔ Relation.ReflTransGen g.Edge a b := by
  rw [pathFound, hit_iff ((holds_begin _ a).run _) (g.pathSearch_stops a b)]
  simp only [reached_singleton, pathSearch, beq_iff_eq, exists_eq_left]
  rfl

theorem WellFormed.reaches_eq_pathFound (h : g.WellFormed) (ha : a ∈ g.keys) (b : Key) :
    g.reaches a b = g.pathFound a b := by
  rw [Bool.eq_iff_iff, pathFound_iff, reaches, decide_eq_true_iff, h.mem_explore_iff ha,
    Relation.reflTransGen_iff_eq_or_transGen]
  rfl

theorem WellFormed.isConnected_eq_allLinked (h : g.WellFormed) : g.isConnected = g.allLinked := by
  unfold isConnected allLinked
  cases hkeys : g.keys with
  | nil => rfl
  | cons k ks =>
    have hk : k ∈ g.keys := hkeys ▸ List.mem_cons_self
    have hholds := (holds_begin g.linkSearch k).run (g.entries g.linkSearch)
    have hdone : (g.linkSearch.run (g.entries g.linkSearch) (begin k)).pending = [] := by
      rcases step_eq_none_iff.mp (g.linkSearch_stops k) with hdone | ⟨_, _, _, hgoal⟩
      · exact hdone
      · cases hgoal
    -- both lists hold what is joined to the first vertex, each once
    have hperm : (explore (fun x => g.succs x ++ g.preds x) g.keys [k]).Perm
        (g.linkSearch.run (g.entries g.linkSearch) (begin k)).seen := by
      rw [List.perm_ext_iff_of_nodup (nodup_explore g.nodup_keys) hholds.nodup]
      intro x
      rw [h.mem_explore_iff_joined hk, hholds.mem_seen_iff hdone, reached_singleton]
      simp only [linkSearch, h.mem_succs_append_preds]
      rfl
    rw [hkeys] at hperm
    exact congrArg (· == g.size) hperm.length_eq

/-- The search for all that edges lead to. What was entered first is visited first. -/
def floodSearch (g : Graph α) : Search where
  next := g.succs
  goal _ := false
  enter new pending := pending ++ new
  perm_enter _ _ := List.perm_append_comm

/-- **A queue is worked off by the steps of a search**, and at the end it has found what the
search has seen. -/
theorem holds_flood {starts : List Key} (found : KeySet) (queue : List Key) : ∀ {seen : List Key},
    (∀ x, found.contains x = true ↔ x ∈ seen) → g.floodSearch.Holds starts ⟨seen, queue⟩ →
    ∃ seen', g.floodSearch.Holds starts ⟨seen', []⟩ ∧ ∀ x, x ∈ (g.flood found queue).elements ↔ x ∈ seen' := by
  induction found, queue using flood.induct g with
  | case1 found =>
    intro seen hseen h
    refine ⟨seen, h, fun x => ?_⟩
    rw [flood, ← hseen, OrderedMap.contains_iff]
    rfl
  | case2 found k rest hk ih =>
    intro seen hseen h
    rw [flood, if_pos hk]
    have hstep : g.floodSearch.step ⟨seen, k :: rest⟩ = some ⟨seen, rest⟩ :=
      step_eq_some_iff.mpr ⟨k, rest, rfl, rfl, .inl ⟨(hseen k).mp hk, rfl⟩⟩
    exact ih hseen (h.step hstep)
  | case3 found k rest hk ih =>
    intro seen hseen h
    rw [flood, if_neg hk]
    have hstep : g.floodSearch.step ⟨seen, k :: rest⟩ = some ⟨k :: seen, rest ++ g.succs k⟩ :=
      step_eq_some_iff.mpr ⟨k, rest, rfl, rfl, .inr ⟨fun hmem => hk ((hseen k).mpr hmem), rfl⟩⟩
    refine ih (fun x => ?_) (h.step hstep)
    rw [OrderedMap.contains_iff, List.mem_cons, ← hseen, OrderedMap.contains_iff]
    exact found.mem_add

/-- **The descendants of a vertex are what it leads to**, on any graph. -/
theorem mem_descendants_iff : b ∈ g.descendants a ↔ g.Leads a b := by
  have hnone : ∀ x, (OrderedMap.empty : KeySet).contains x = true ↔ x ∈ ([] : List Key) := by
    intro x
    rw [OrderedMap.contains_iff]
    rfl
  obtain ⟨seen, hholds, hmem⟩ := holds_flood OrderedMap.empty (g.succs a) hnone (holds_start g.floodSearch (g.succs a))
  calc b ∈ g.descendants a
    _ ↔ b ∈ seen := hmem b
    _ ↔ ∃ t, g.Edge a t ∧ Relation.ReflTransGen g.Edge t b := hholds.mem_seen_iff rfl
    _ ↔ g.Leads a b := Relation.TransGen.head'_iff.symm

/-- An edge closes a cycle exactly if it is a loop or there is a way back. -/
theorem WellFormed.acyclic_link_iff (h : g.WellFormed) (ha : a ∈ g.keys) (hb : b ∈ g.keys) :
    (∀ k, ¬ (g.link a b).Leads k k) ↔ a ≠ b ∧ ¬ g.Leads b a := by
  constructor
  · intro hacyclic
    have hab : (g.link a b).Edge a b := edge_link.mpr (.inr ⟨rfl, rfl⟩)
    refine ⟨fun he => hacyclic a (.single (he ▸ hab)), fun hl => hacyclic a ?_⟩
    exact .head hab (hl.mono fun _ _ he => edge_link.mpr (.inl he))
  · rintro ⟨hne, hl⟩
    exact (h.link ha hb hne hl).acyclic

end Graph

/-! ### The searches of a plan -/

namespace PhasePlan

variable {p : PhasePlan} {a b : Key}

theorem Sound.connect_eq_ok_iff (h : p.Sound) : (p.connect a b).2 = .ok () ↔
    a ∈ p.graph.keys ∧ b ∈ p.graph.keys ∧ a ≠ b ∧ ¬ p.graph.Leads b a := by
  constructor
  · intro hok
    rcases p.connect_cases a b with ⟨g, hg, _⟩ | ⟨e, he⟩
    · exact (h.wellFormed.connect_eq_ok_iff.mp hg).1
    · rw [he] at hok
      cases hok
  · rintro ⟨ha, hb, hne, hback⟩
    rw [connect_eq_link h.wellFormed ha hb hne hback]

/-- What holds of the searches of a plan. -/
structure SearchedExactly (p : PhasePlan) : Prop where
  /-- An edge is accepted exactly if both operators are there and no path leads back. -/
  connect : ∀ a b, (p.connect a b).2 = .ok () ↔
    a ∈ p.graph.keys ∧ b ∈ p.graph.keys ∧ a ≠ b ∧ ¬ p.graph.Leads b a
  /-- Between operators of the plan, those are the edges that close no cycle. -/
  acyclic : ∀ a ∈ p.graph.keys, ∀ b ∈ p.graph.keys,
    (p.connect a b).2 = .ok () ↔ ∀ k, ¬ (p.graph.link a b).Leads k k
  /-- The plan is connected exactly if a path of edges joins any two operators. -/
  isConnected : p.graph.isConnected = true ↔ ∀ a ∈ p.graph.keys, ∀ b ∈ p.graph.keys, p.graph.Joined a b
  /-- The answers are those of the worklists. -/
  worklists : (∀ a ∈ p.graph.keys, ∀ b, p.graph.reaches a b = p.graph.pathFound a b) ∧
    p.graph.isConnected = p.graph.allLinked

/-- **The searches of a plan are exact, and end on every graph.** Whatever operations built
a plan, an edge is refused exactly if an end is missing or it would close a cycle, and the
plan is connected exactly if any two operators are joined. The worklists that decide this
stop on any graph at all, after at most one step for the start and for each end of an edge
in the records. -/
theorem searches_exact (edits : List PlanEdit) (g : Graph Operator) :
    (empty.applyAll edits).SearchedExactly ∧
      (∀ start target, (g.pathSearch target).StopsWithin (g.entries (g.pathSearch target)) start) ∧
      ∀ start, g.linkSearch.StopsWithin (g.entries g.linkSearch) start := by
  have h : (empty.applyAll edits).Sound := sound_applyAll edits
  have hg := h.wellFormed
  refine ⟨⟨fun a b => h.connect_eq_ok_iff, fun a ha b hb => ?_, hg.isConnected_iff, ?_, hg.isConnected_eq_allLinked⟩,
    g.pathSearch_stops, g.linkSearch_stops⟩
  · rw [h.connect_eq_ok_iff, hg.acyclic_link_iff ha hb]
    exact ⟨fun hok => hok.2.2, fun hfree => ⟨ha, hb, hfree⟩⟩
  · exact fun a ha b => hg.reaches_eq_pathFound ha b

end PhasePlan
end MapReduce
