/-
# What a shuffle delivers

Rows are pushed one after the other, some of them in vain. `Shuffle.reached`
says which reducers a push reaches, `Shuffle.routed` which rows of a list of
pushes reach a given reducer, and `Shuffle.finish_pushAll` that a finished
shuffle is nothing else: for every reducer that a row reached, in order, the
sorted rows that reached it.

This holds for every partitioner. What a partitioner is good for is then a
statement about `routed`; if it goes by the keys alone, a reducer gets the rows
whose keys name it (`Shuffle.routed_of_sendsTo`).

Key definitions: `Shuffle.pushAll`, `Shuffle.reached`, `Shuffle.routed`,
`Shuffle.contents`, `Partitioner.SendsTo`.
Key theorems: `Shuffle.contents_push`, `Shuffle.contents_pushAll`,
`Shuffle.routed_of_sendsTo`, `Shuffle.finish_pushAll`,
`Shuffle.flatMap_finish_pushAll`.
-/
import MapReduce.Proofs.OrderedMap
import MapReduce.Shuffle.Basic

namespace MapReduce

/-- Every row goes to one reducer, which exists and is named by the key alone. -/
def Partitioner.SendsTo (p : Partitioner) (f : Tuple → Nat) : Prop :=
  ∀ input key seq, p.route input key seq = .ok [f key] ∧ f key < p.parallelism

namespace Shuffle

/-- Sends rows one after the other, and keeps the answer to each. -/
def pushAll (p : Partitioner) : Shuffle → List ShuffledRow → Shuffle × List (Except ExecError Unit)
  | s, [] => (s, [])
  | s, row :: rest =>
    ((pushAll p (s.push p row).1 rest).1, (s.push p row).2 :: (pushAll p (s.push p row).1 rest).2)

/-- The reducers that a row reaches if it is sent next: none if it fails. -/
def reached (p : Partitioner) (s : Shuffle) (row : ShuffledRow) : List Nat :=
  match p.route row.input row.key (s.sentOf row.input) with
  | .error _ => []
  | .ok targets =>
    match targets.find? (fun r => decide (p.parallelism ≤ r)) with
    | some _ => []
    | none => targets

/-- The rows of a list of pushes that reach a reducer, in order: each as often as
the reducer is among its targets. -/
def routed (p : Partitioner) (r : Nat) : Shuffle → List ShuffledRow → List ShuffledRow
  | _, [] => []
  | s, row :: rest => List.replicate ((s.reached p row).count r) row ++ routed p r (s.push p row).1 rest

/-- The rows of a reducer, in the order they came. -/
def contents (s : Shuffle) (r : Nat) : List ShuffledRow := (s.buckets.find? r).getD []

/-- Rows in the order in which a reducer sees them. -/
def sortRows (rows : List ShuffledRow) : List ShuffledRow :=
  rows.mergeSort (fun a b => (rowOrder a b).isLE)

/-! ### One push -/

theorem push_buckets (p : Partitioner) (s : Shuffle) (row : ShuffledRow) :
    (s.push p row).1.buckets = (s.reached p row).foldl (deliver row) s.buckets := by
  cases ht : p.route row.input row.key (s.sentOf row.input) with
  | error e => simp [push, reached, ht]
  | ok targets =>
    cases hf : targets.find? (fun r => decide (p.parallelism ≤ r)) with
    | none => simp [push, reached, ht, hf]
    | some r => simp [push, reached, ht, hf]

theorem lt_of_mem_reached {p : Partitioner} {s : Shuffle} {row : ShuffledRow} {r : Nat}
    (h : r ∈ s.reached p row) : r < p.parallelism := by
  unfold reached at h
  split at h
  · cases h
  · split at h
    · cases h
    · rename_i hf
      have := List.find?_eq_none.mp hf r h
      simpa using this

/-- A row whose targets all exist reaches them, and its push succeeds. -/
theorem reached_of_route {p : Partitioner} {s : Shuffle} {row : ShuffledRow} {targets : List Nat}
    (h : p.route row.input row.key (s.sentOf row.input) = .ok targets)
    (hlt : ∀ r ∈ targets, r < p.parallelism) :
    s.reached p row = targets ∧ (s.push p row).2 = .ok () := by
  have hf : targets.find? (fun r => decide (p.parallelism ≤ r)) = none := by
    rw [List.find?_eq_none]
    intro r hr
    simpa using hlt r hr
  simp [reached, push, h, hf]

/-- A push counts its row unless the partitioner fails. -/
theorem sentOf_push (p : Partitioner) (s : Shuffle) (row : ShuffledRow) (i : Nat) :
    (s.push p row).1.sentOf i =
      s.sentOf i + if i = row.input ∧ (p.route row.input row.key (s.sentOf row.input)).isOk then 1 else 0 := by
  have hsent : ∀ b, (⟨s.sent.insert row.input (s.sentOf row.input + 1), b⟩ : Shuffle).sentOf i =
      s.sentOf i + if i = row.input then 1 else 0 := by
    intro b
    simp only [sentOf, OrderedMap.find?_insert, Nat.compare_eq_eq]
    by_cases hi : i = row.input <;> simp [hi]
  unfold push
  split
  · rename_i e he
    simp [he, Except.isOk, Except.toBool]
  · rename_i targets ht
    split <;> simp [ht, hsent, Except.isOk, Except.toBool]

theorem find?_deliver (row : ShuffledRow) (b : NatMap (List ShuffledRow)) (t r : Nat) :
    (deliver row b t).find? r = if r = t then some ((b.find? t).getD [] ++ [row]) else b.find? r := by
  simp only [deliver, OrderedMap.find?_upsert, Nat.compare_eq_eq]

theorem getD_foldl_deliver (row : ShuffledRow) (r : Nat) : ∀ (ts : List Nat) (b : NatMap (List ShuffledRow)),
    ((ts.foldl (deliver row) b).find? r).getD [] = (b.find? r).getD [] ++ List.replicate (ts.count r) row
  | [], b => by simp
  | t :: ts, b => by
    rw [List.foldl_cons, getD_foldl_deliver row r ts, find?_deliver]
    by_cases h : r = t
    · subst h
      simp [List.replicate_succ]
    · rw [if_neg h, List.count_cons_of_ne (Ne.symm h)]

/-- **A push adds its row to the reducers it reaches**, once for each time it is
sent there, and changes no other. -/
theorem contents_push (p : Partitioner) (s : Shuffle) (row : ShuffledRow) (r : Nat) :
    (s.push p row).1.contents r = s.contents r ++ List.replicate ((s.reached p row).count r) row := by
  unfold contents
  rw [push_buckets, getD_foldl_deliver]

/-! ### Many pushes -/

theorem contents_pushAll (p : Partitioner) (r : Nat) : ∀ (s : Shuffle) (rows : List ShuffledRow),
    (pushAll p s rows).1.contents r = s.contents r ++ routed p r s rows
  | s, [] => by simp [pushAll, routed]
  | s, row :: rest => by
    rw [pushAll, routed, contents_pushAll p r _ rest, contents_push, List.append_assoc]

theorem mem_of_mem_routed {p : Partitioner} {r : Nat} {x : ShuffledRow} : ∀ {s : Shuffle}
    {rows : List ShuffledRow}, x ∈ routed p r s rows → x ∈ rows
  | _, row :: rest, h => by
    rw [routed, List.mem_append] at h
    rcases h with h | h
    · rw [List.eq_of_mem_replicate h]
      exact List.mem_cons_self
    · exact List.mem_cons_of_mem _ (mem_of_mem_routed h)

/-- What every shuffle keeps: its reducers exist, and each of them has a row. -/
def Filled (n : Nat) (s : Shuffle) : Prop := ∀ e ∈ s.buckets.entries, e.1 < n ∧ e.2 ≠ []

theorem filled_empty (n : Nat) : Filled n empty := fun _ h => nomatch h

theorem filled_push {p : Partitioner} {s : Shuffle} (h : Filled p.parallelism s) (row : ShuffledRow) :
    Filled p.parallelism (s.push p row).1 := by
  have hfold : ∀ (ts : List Nat) (b : NatMap (List ShuffledRow)), (∀ t ∈ ts, t < p.parallelism) →
      (∀ e ∈ b.entries, e.1 < p.parallelism ∧ e.2 ≠ []) →
      ∀ e ∈ (ts.foldl (deliver row) b).entries, e.1 < p.parallelism ∧ e.2 ≠ [] := by
    intro ts
    induction ts with
    | nil => exact fun b _ hb => hb
    | cons t ts ih =>
      intro b hts hb
      refine ih _ (fun x hx => hts x (List.mem_cons_of_mem _ hx)) ?_
      rintro ⟨r, rows⟩ he
      rw [OrderedMap.mem_entries_iff, find?_deliver] at he
      split at he
      · rename_i hr
        refine ⟨hr ▸ hts t List.mem_cons_self, ?_⟩
        obtain rfl := Option.some.inj he
        simp
      · exact hb _ (OrderedMap.mem_entries_iff _ |>.mpr he)
  unfold Filled
  rw [push_buckets]
  exact hfold _ _ (fun _ ht => lt_of_mem_reached ht) h

theorem filled_pushAll {p : Partitioner} : ∀ {s : Shuffle} (rows : List ShuffledRow),
    Filled p.parallelism s → Filled p.parallelism (pushAll p s rows).1
  | _, [], h => h
  | _, row :: rest, h => filled_pushAll rest (filled_push h row)

/-! ### Rows that go by their keys -/

section

variable {p : Partitioner} {f : Tuple → Nat}

theorem reached_of_sendsTo (h : p.SendsTo f) (s : Shuffle) (row : ShuffledRow) :
    s.reached p row = [f row.key] ∧ (s.push p row).2 = .ok () := by
  obtain ⟨hroute, hlt⟩ := h row.input row.key (s.sentOf row.input)
  refine reached_of_route hroute fun r hr => ?_
  rwa [List.mem_singleton.mp hr]

theorem pushAll_of_sendsTo (h : p.SendsTo f) : ∀ (s : Shuffle) (rows : List ShuffledRow),
    (pushAll p s rows).2 = rows.map fun _ => .ok ()
  | _, [] => rfl
  | s, row :: rest => by
    rw [pushAll, (reached_of_sendsTo h s row).2, pushAll_of_sendsTo h _ rest, List.map_cons]

/-- A reducer gets the rows whose keys name it, in order. -/
theorem routed_of_sendsTo (h : p.SendsTo f) (r : Nat) : ∀ (s : Shuffle) (rows : List ShuffledRow),
    routed p r s rows = rows.filter fun row => f row.key == r
  | _, [] => rfl
  | s, row :: rest => by
    rw [routed, (reached_of_sendsTo h s row).1, routed_of_sendsTo h r _ rest, List.count_singleton]
    by_cases hr : f row.key = r <;> simp [hr]

end

/-! ### The finished shuffle -/

/-- A map whose keys are below `n` lists what it finds below `n`. -/
theorem entries_eq_filterMap_range {α : Type} {n : Nat} (m : NatMap α) (h : ∀ e ∈ m.entries, e.1 < n) :
    m.entries = (List.range n).filterMap (fun r => (m.find? r).map (fun v => (r, v))) := by
  have hsorted : ((List.range n).filterMap (fun r => (m.find? r).map (fun v => (r, v)))).Pairwise
      (fun a b => a.1 < b.1) := by
    rw [List.pairwise_filterMap]
    refine List.pairwise_lt_range.imp ?_
    intro a b hab x hx y hy
    obtain ⟨_, _, rfl⟩ := Option.map_eq_some_iff.mp hx
    obtain ⟨_, _, rfl⟩ := Option.map_eq_some_iff.mp hy
    exact hab
  have hmem : ∀ e, e ∈ m.entries ↔
      e ∈ (List.range n).filterMap (fun r => (m.find? r).map (fun v => (r, v))) := by
    rintro ⟨r, v⟩
    rw [List.mem_filterMap]
    constructor
    · intro he
      exact ⟨r, List.mem_range.mpr (h _ he), by rw [m.mem_entries_iff.mp he]; rfl⟩
    · rintro ⟨r', _, hr⟩
      obtain ⟨v', hv, heq⟩ := Option.map_eq_some_iff.mp hr
      cases heq
      exact m.mem_entries_iff.mpr hv
  have hperm := (List.perm_ext_iff_of_nodup m.nodup_entries
    (hsorted.imp fun hab e => by rw [e] at hab; exact lt_irrefl _ hab)).mpr hmem
  refine hperm.eq_of_pairwise ?_ (m.sorted.imp Nat.compare_eq_lt.mp) hsorted
  intro a b _ _ hab hba
  exact absurd hab (Nat.lt_asymm hba)

theorem finish_eq {n : Nat} {s : Shuffle} (h : Filled n s) :
    s.finish = (List.range n).filterMap (fun r =>
      if s.contents r = [] then none else some (r, sortRows (s.contents r))) := by
  have hmap : s.finish = s.buckets.entries.map (fun e => (e.1, sortRows e.2)) := rfl
  rw [hmap, entries_eq_filterMap_range s.buckets fun e he => (h e he).1, List.map_filterMap]
  refine List.filterMap_congr fun r _ => ?_
  unfold contents
  cases hr : s.buckets.find? r with
  | none => simp
  | some rows =>
    have hne := (h _ (s.buckets.mem_entries_iff.mpr hr)).2
    simp only [Option.map_some, Option.getD_some, if_neg hne]

/-- **A finished shuffle is what was routed.** It lists, for every reducer that a
row reached, the sorted rows that reached it. -/
theorem finish_pushAll (p : Partitioner) (rows : List ShuffledRow) :
    (pushAll p empty rows).1.finish = (List.range p.parallelism).filterMap (fun r =>
      if routed p r empty rows = [] then none else some (r, sortRows (routed p r empty rows))) := by
  rw [finish_eq (filled_pushAll rows (filled_empty p.parallelism))]
  refine List.filterMap_congr fun r _ => ?_
  rw [contents_pushAll]
  rfl

/-- The rows of the reducers in a row, first to last or last to first. -/
theorem flatMap_finish_pushAll (p : Partitioner) (rows : List ShuffledRow) (forward : Bool) :
    (if forward then (pushAll p empty rows).1.finish else (pushAll p empty rows).1.finish.reverse).flatMap Prod.snd =
      (if forward then List.range p.parallelism else (List.range p.parallelism).reverse).flatMap
        fun r => sortRows (routed p r empty rows) := by
  have hpieces : ∀ rs : List Nat, (rs.filterMap fun r =>
      if routed p r empty rows = [] then none else some (r, sortRows (routed p r empty rows))).flatMap Prod.snd =
        rs.flatMap fun r => sortRows (routed p r empty rows) := by
    intro rs
    induction rs with
    | nil => rfl
    | cons r rs ih =>
      rw [List.flatMap_cons, ← ih]
      by_cases he : routed p r empty rows = []
      · simp [he, sortRows]
      · simp [he]
  rw [finish_pushAll]
  cases forward with
  | true => exact hpieces _
  | false =>
    rw [if_neg Bool.false_ne_true, if_neg Bool.false_ne_true, ← List.filterMap_reverse]
    exact hpieces _

end Shuffle
end MapReduce
