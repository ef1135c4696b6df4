/-
# Partial results

Rows can be summed up in parts, each part under a key and by the calls' values on
it (`Partial`). Single rows are such parts, and so are the rows of a key; parts of
two lists of rows are, beside each other, parts of both. Calls that read their own
results, each in its own column, sum them up as they do the rows behind them
(`summary_overPlaces`), so the group-by of partial results is the group-by of the
rows (`groupBy_partial`), wherever they were cut.

Key definitions: `overPlaces`, `Partial`.
Key theorems: `summary_overPlaces`, `Partial.append`, `groupBy_partial`,
`readable_partial`.
-/
import MapReduce.Proofs.GroupedRun

namespace MapReduce

/-! ### Reading results column by column -/

/-- The call, reading another column. -/
abbrev Slot.at (s : Slot) (column : Nat) : Slot := ⟨column, s.function, .fresh⟩

/-- The calls, each reading the column at its own place. -/
def overPlaces (slots : List Slot) : List Slot := slots.mapIdx (fun i s => s.at i)

theorem Slot.reads_at {s : Slot} {i : Nat} {w : Tuple} {x : Option s.function.Value}
    (h : w.fields[i]? = some (s.function.scalar x)) : (s.at i).reads w = true ∧ (s.at i).cell w = x := by
  have hproject : (s.at i).project w = .ok ⟨[s.function.scalar x]⟩ := by
    rw [Slot.project, Tuple.field, h]
  have hentry := s.function.entry_scalar x
  refine ⟨?_, ?_⟩
  · rw [Slot.reads, hproject]
    show (s.function.entry ⟨[s.function.scalar x]⟩).isOk = true
    rw [hentry]
    rfl
  · rw [Slot.cell, hproject]
    show (s.function.entry ⟨[s.function.scalar x]⟩).toOption.join = x
    rw [hentry]
    rfl

theorem getElem?_summary {slots : List Slot} {i : Nat} {s : Slot} (h : slots[i]? = some s) (vs : List Tuple) :
    (summary slots vs).fields[i]? = some (s.function.scalar (s.function.fold (vs.filterMap s.cell))) := by
  show (slots.map (fun s => s.result vs))[i]? = _
  rw [List.getElem?_map, h]
  rfl

/-- **The calls sum up their own results as they do the rows behind them.** -/
theorem summary_overPlaces {slots : List Slot} (he : ∀ s ∈ slots, s.function.Exact) (vss : List (List Tuple)) :
    summary (overPlaces slots) (vss.map (summary slots)) = summary slots vss.flatten := by
  refine congrArg Tuple.mk (List.ext_getElem? fun i => ?_)
  rw [overPlaces, List.getElem?_map, List.getElem?_map, List.getElem?_mapIdx]
  cases hs : slots[i]? with
  | none => rfl
  | some s =>
    refine congrArg some ?_
    have hcell : ∀ vs, (s.at i).cell (summary slots vs) = s.function.fold (vs.filterMap s.cell) :=
      fun vs => (Slot.reads_at (getElem?_summary hs vs)).2
    show s.function.scalar (s.function.fold ((vss.map (summary slots)).filterMap (s.at i).cell)) =
      s.function.scalar (s.function.fold (vss.flatten.filterMap s.cell))
    congr 1
    calc s.function.fold ((vss.map (summary slots)).filterMap (s.at i).cell)
        = s.function.fold ((vss.map (fun vs => vs.filterMap s.cell)).filterMap s.function.fold) := by
          rw [List.filterMap_map, List.filterMap_map]
          exact congrArg _ (List.filterMap_congr fun vs _ => hcell vs)
      _ = s.function.fold (vss.flatten.filterMap s.cell) := by
          rw [Aggregate.fold_filterMap_fold (he s (List.mem_of_getElem? hs)), List.filterMap_flatten]

/-! ### Partial results -/

/-- Results of rows that were summed up in parts. -/
def Partial (slots : List Slot) (rows out : List Row) : Prop :=
  ∃ groups : List (Tuple × List Tuple), (∀ g ∈ groups, g.2 ≠ []) ∧
    gather (scatter groups) = gather rows ∧ out = groups.map (fun g => (g.1, summary slots g.2))

section

variable {slots : List Slot} {rows out rows' out' : List Row}

theorem partial_singles (slots : List Slot) (rows : List Row) :
    Partial slots rows (rows.map (fun r => (r.1, summary slots [r.2]))) := by
  refine ⟨rows.map (fun r => (r.1, [r.2])), ?_, ?_, ?_⟩
  · intro g hg
    obtain ⟨r, _, rfl⟩ := List.mem_map.mp hg
    exact List.cons_ne_nil _ _
  · rw [scatter, List.flatMap_map]
    exact congrArg gather (List.flatMap_pure_eq_map _ _ |>.trans (List.map_id rows))
  · rw [List.map_map]
    rfl

theorem partial_groupBy (slots : List Slot) (rows : List Row) : Partial slots rows (groupBy slots rows) := by
  refine ⟨(gather rows).entries, ?_, gather_scatter_entries rows, rfl⟩
  intro g hg hnil
  have hitem := (gather rows).item?_of_mem hg
  rw [item?_gather] at hitem
  cases hr : rowsWith g.1 rows with
  | nil => rw [hr] at hitem; cases hitem
  | cons r rest =>
    rw [hr] at hitem
    have hsnd := congrArg Prod.snd (Option.some.inj hitem)
    rw [hnil] at hsnd
    cases hsnd

theorem Partial.append (h : Partial slots rows out) (h' : Partial slots rows' out') :
    Partial slots (rows ++ rows') (out ++ out') := by
  obtain ⟨groups, hne, hgather, rfl⟩ := h
  obtain ⟨groups', hne', hgather', rfl⟩ := h'
  refine ⟨groups ++ groups', ?_, ?_, List.map_append.symm⟩
  · intro g hg
    rcases List.mem_append.mp hg with hg | hg
    · exact hne g hg
    · exact hne' g hg
  · refine OrderedMap.ext_item? fun k => ?_
    rw [scatter, List.flatMap_append, item?_gather_append, item?_gather_append, ← hgather, ← hgather']
    rfl

/-- **Combining partial results gives the group-by of all rows.** -/
theorem groupBy_partial (he : ∀ s ∈ slots, s.function.Exact) (h : Partial slots rows out) :
    groupBy (overPlaces slots) out = groupBy slots rows := by
  obtain ⟨groups, hne, hgather, rfl⟩ := h
  have hmaps : (gather (groups.map (fun g => (g.1, summary slots g.2)))).mapValues
        (fun _ => summary (overPlaces slots)) = (gather rows).mapValues (fun _ => summary slots) := by
    refine OrderedMap.ext_item? fun k => ?_
    have hne' : ∀ g ∈ rowsWith k groups, g.2 ≠ [] := fun g hg => hne g (List.mem_of_mem_filter hg)
    rw [OrderedMap.item?_mapValues, OrderedMap.item?_mapValues, ← hgather, item?_gather, item?_gather,
      rowsWith_map, itemOf_map, rowsWith_scatter, itemOf_scatter hne', Option.map_map, Option.map_map]
    refine congrArg (Option.map · _) (funext fun e => ?_)
    exact congrArg (e.1, ·) (summary_overPlaces he e.2)
  exact congrArg OrderedMap.entries hmaps

theorem readable_partial (h : Partial slots rows out) : readable (overPlaces slots) out = true := by
  obtain ⟨groups, _, _, rfl⟩ := h
  refine List.all_eq_true.mpr fun r hr => List.all_eq_true.mpr fun s hs => ?_
  obtain ⟨g, _, rfl⟩ := List.mem_map.mp hr
  obtain ⟨i, hi, rfl⟩ := List.mem_mapIdx.mp hs
  exact (Slot.reads_at (getElem?_summary (List.getElem?_eq_getElem hi) g.2)).1

end

end MapReduce
