/-
# Group-by in waves

The waves of a group-by compute what one pass does. The first wave sums up single
rows, the second the rows of a key in a split, and any further one what the waves
before it left: all of these are partial results, and the last wave takes them to
the group-by of all rows.

How splits are combined is a tree (`WaveTree`): splits beside each other, with
middle waves over any part of them. Whatever the tree, its waves succeed exactly
if every call can read every row (`WaveTree.yields_finish`), which is when one
pass over all rows does.

Key definitions: `Registry.slots`, `Registry.callable`, `WaveTree`,
`WaveTree.finish`, `threePhases`.
Key theorems: `yields_runTask_grouped`, `WaveTree.yields_run`,
`threePhases_eq_onePass`.
-/
import MapReduce.Proofs.PartialResults
import MapReduce.Pipeline

namespace MapReduce

/-! ### Tasks -/

namespace Registry

/-- The calls of known functions, before any row. -/
def slots (r : Registry) (calls : List AggCall) : List Slot :=
  calls.filterMap (fun c => (r.find? c.function).map (fun f => ⟨c.column.toNat, f, .fresh⟩))

/-- Whether a task can be made for the calls: there is one, and all functions are
known. -/
def callable (r : Registry) (calls : List AggCall) : Bool :=
  !(calls.map AggCall.function).isEmpty && (calls.map AggCall.function).all (fun n => (r.find? n).isSome)

theorem callable_congr (r : Registry) {calls calls' : List AggCall}
    (h : calls.map AggCall.function = calls'.map AggCall.function) : r.callable calls = r.callable calls' := by
  rw [callable, h, callable]

theorem yields_slots (r : Registry) : ∀ calls : List AggCall,
    Yields (calls.mapM (Task.slotOf r)) ((calls.map AggCall.function).all (fun n => (r.find? n).isSome))
      (r.slots calls)
  | [] => rfl
  | c :: calls => by
    rw [List.mapM_cons, List.map_cons, List.all_cons, slots]
    cases hf : r.find? c.function with
    | none =>
      have hslot : Task.slotOf r c = .error (Task.unknownFunction c.function) := by rw [Task.slotOf, hf]
      rw [hslot]
      rfl
    | some f =>
      have hslot : Task.slotOf r c = .ok ⟨c.column.toNat, f, .fresh⟩ := by rw [Task.slotOf, hf]
      rw [hslot, List.filterMap_cons_some (by rw [hf]; rfl)]
      exact (yields_slots r calls).map (_ :: ·)

theorem map_cleared_slots (r : Registry) (calls : List AggCall) :
    (r.slots calls).map Slot.cleared = r.slots calls := by
  rw [slots, List.map_filterMap]
  refine List.filterMap_congr fun c _ => ?_
  cases r.find? c.function <;> rfl

end Registry

/-- The rows of a new task: it is made, and run. -/
theorem map_fst_runTask (r : Registry) (calls : List AggCall) (chunk : Nat) (rows : List Row) :
    (runTask r calls chunk rows).map Prod.fst = Task.create r calls chunk >>= fun t => (t.run rows).1 := by
  unfold runTask
  cases Task.create r calls chunk with
  | error e => rfl
  | ok t =>
    simp only [bind, Except.bind]
    cases (t.run rows).1 <;> rfl

section

variable {r : Registry} {calls : List AggCall} {st : Stage} (hstage : ∀ c ∈ calls, c.stage = st) (chunk : Nat)
include hstage

/-- A task is made exactly if its calls can be called. -/
theorem yields_create :
    Yields (Task.create r calls chunk) (r.callable calls) ⟨Mode.ofStage chunk st, r.slots calls, ⟨0, 0, 0⟩⟩ := by
  cases calls with
  | nil => rfl
  | cons first rest =>
    have hfirst : first.stage = st := hstage first List.mem_cons_self
    have hfind : (first :: rest).find? (fun c => c.stage != st) = none := by
      rw [List.find?_eq_none]
      intro c hc
      rw [hstage c hc, bne_self_eq_false]
      exact Bool.false_ne_true
    unfold Task.create
    simp only [hfirst, hfind]
    exact (r.yields_slots (first :: rest)).map fun slots => (⟨Mode.ofStage chunk st, slots, ⟨0, 0, 0⟩⟩ : Task)

/-- A new task yields what its run yields. -/
theorem yields_runTask {rows out : List Row} {p : Bool}
    (hrun : Yields ((⟨Mode.ofStage chunk st, r.slots calls, ⟨0, 0, 0⟩⟩ : Task).run rows).1 p out) :
    Yields ((runTask r calls chunk rows).map Prod.fst) (r.callable calls && p) out := by
  rw [map_fst_runTask]
  exact (yields_create hstage chunk).bind hrun

theorem yields_runTask_initial (hst : st = .initial) (he : ∀ s ∈ r.slots calls, s.function.Exact) (rows : List Row) :
    Yields ((runTask r calls chunk rows).map Prod.fst) (r.callable calls && readable (r.slots calls) rows)
      (rows.map (fun x => (x.1, summary (r.slots calls) [x.2]))) := by
  subst hst
  refine yields_runTask hstage chunk ?_
  have hrun : ((⟨Mode.ofStage chunk .initial, r.slots calls, ⟨0, 0, 0⟩⟩ : Task).run rows).1 =
      (runInitial ((r.slots calls).map Slot.cleared) rows).2 := rfl
  rw [hrun, r.map_cleared_slots]
  exact yields_runInitial he rows

theorem yields_runTask_grouped (hst : st ≠ .initial) (he : ∀ s ∈ r.slots calls, s.function.Exact) (rows : List Row) :
    Yields ((runTask r calls chunk (sortByKey Prod.fst rows)).map Prod.fst)
      (r.callable calls && readable (r.slots calls) rows) (groupBy (r.slots calls) rows) := by
  have hmode : Mode.ofStage chunk st ≠ .initial := by
    cases st with
    | initial => exact absurd rfl hst
    | _ => exact fun h => nomatch h
  have hread : readable (r.slots calls) rows = readable (r.slots calls) (sortByKey Prod.fst rows) :=
    (List.mergeSort_perm rows _).symm.all_eq
  have hgroup : groupBy (r.slots calls) rows = groupBy (r.slots calls) (sortByKey Prod.fst rows) := by
    rw [groupBy, groupBy, gather_sortByKey]
  refine yields_runTask hstage chunk ?_
  have hrun : ((⟨Mode.ofStage chunk st, r.slots calls, ⟨0, 0, 0⟩⟩ : Task).run (sortByKey Prod.fst rows)).1 =
      (runGrouped (Mode.ofStage chunk st) ((r.slots calls).map (fun s => ⟨s.cleared, []⟩)) none
        (sortByKey Prod.fst rows)).result := by
    simp only [Task.run, if_neg hmode, List.map_map]
    rfl
  rw [hrun, hread, hgroup]
  exact yields_runGrouped hmode he (keysSorted_sortByKey rows)

end

/-! ### Calls of a stage -/

theorem stage_atStage (st : Stage) (calls : List AggCall) : ∀ c ∈ atStage st calls, c.stage = st := by
  intro c hc
  obtain ⟨c', _, rfl⟩ := List.mem_map.mp hc
  rfl

theorem stage_overColumns (st : Stage) (calls : List AggCall) : ∀ c ∈ overColumns st calls, c.stage = st := by
  intro c hc
  obtain ⟨i, hi, rfl⟩ := List.mem_mapIdx.mp hc
  rfl

theorem function_atStage (st : Stage) (calls : List AggCall) :
    (atStage st calls).map AggCall.function = calls.map AggCall.function := by
  rw [atStage, List.map_map]
  rfl

theorem function_overColumns (st : Stage) (calls : List AggCall) :
    (overColumns st calls).map AggCall.function = calls.map AggCall.function := by
  refine List.ext_getElem? fun i => ?_
  rw [List.getElem?_map, overColumns, List.getElem?_mapIdx, List.getElem?_map]
  cases calls[i]? <;> rfl

theorem slots_atStage (r : Registry) (st : Stage) (calls : List AggCall) :
    r.slots (atStage st calls) = r.slots calls := by
  rw [Registry.slots, atStage, List.filterMap_map]
  rfl

theorem slots_mapIdx (r : Registry) (st : Stage) : ∀ (calls : List AggCall) (k : Nat),
    calls.length + k ≤ 2 ^ 64 → (calls.map AggCall.function).all (fun n => (r.find? n).isSome) = true →
    r.slots (calls.mapIdx (fun i c => ⟨c.function, st, UInt64.ofNat (i + k)⟩)) =
      (r.slots calls).mapIdx (fun i s => s.at (i + k))
  | [], _, _, _ => rfl
  | c :: calls, k, hlen, hk => by
    rw [List.map_cons, List.all_cons, Bool.and_eq_true] at hk
    rw [List.length_cons] at hlen
    obtain ⟨f, hf⟩ := Option.isSome_iff_exists.mp hk.1
    have hword : (UInt64.ofNat (0 + k)).toNat = k := by
      rw [Nat.zero_add]
      exact UInt64.toNat_ofNat_of_lt' (show k < 2 ^ 64 by omega)
    have ih := slots_mapIdx r st calls (k + 1) (by omega) hk.2
    have hshift : ∀ i, i + (k + 1) = i + 1 + k := fun i => by omega
    simp only [hshift] at ih
    rw [List.mapIdx_cons, Registry.slots, Registry.slots, List.filterMap_cons_some (by rw [hf]; rfl),
      List.filterMap_cons_some (by rw [hf]; rfl), List.mapIdx_cons, hword, Nat.zero_add]
    exact congrArg (_ :: ·) ih

/-- The calls over columns read, each, the column at its own place. -/
theorem slots_overColumns {r : Registry} {calls : List AggCall} (hlen : calls.length ≤ 2 ^ 64)
    (hc : r.callable calls = true) (st : Stage) : r.slots (overColumns st calls) = overPlaces (r.slots calls) :=
  slots_mapIdx r st calls 0 hlen (Bool.and_eq_true_iff.mp hc).2

/-! ### Trees of waves -/

/-- How the rows of splits are combined. -/
inductive WaveTree where
  | empty
  /-- The first two waves on a split. -/
  | split (rows : List Row)
  /-- The results of one tree, followed by those of another. -/
  | beside (a b : WaveTree)
  /-- A further middle wave. -/
  | again (t : WaveTree)

/-- A middle or last wave over results, which are sorted by key first. -/
def laterWave (stage : Stage) (r : Registry) (calls : List AggCall) (chunk : Nat) (rows : List Row) :
    Except ExecError (List Row) :=
  (runTask r (overColumns stage calls) chunk (sortByKey Prod.fst rows)).map Prod.fst

/-- The first two waves on a split, as a middle wave after the first. -/
theorem combineSplit_eq (r : Registry) (calls : List AggCall) (chunk : Nat) (rows : List Row) :
    combineSplit r calls chunk rows =
      (runTask r (atStage .initial calls) chunk rows).map Prod.fst >>= laterWave .intermediate r calls chunk := by
  unfold combineSplit laterWave
  cases runTask r (atStage .initial calls) chunk rows with
  | error e => rfl
  | ok first =>
    show (runTask r (overColumns .intermediate calls) chunk (sortByKey Prod.fst first.1) >>= _) =
      (runTask r (overColumns .intermediate calls) chunk (sortByKey Prod.fst first.1)).map Prod.fst
    cases runTask r (overColumns .intermediate calls) chunk (sortByKey Prod.fst first.1) <;> rfl

namespace WaveTree

/-- The rows of the splits, in order. -/
def rows : WaveTree → List Row
  | .empty => []
  | .split rows => rows
  | .beside a b => a.rows ++ b.rows
  | .again t => t.rows

/-- The results of the waves before the last. -/
def run (r : Registry) (calls : List AggCall) (chunk : Nat) : WaveTree → Except ExecError (List Row)
  | .empty => .ok []
  | .split rows => combineSplit r calls chunk rows
  | .beside a b => do return (← a.run r calls chunk) ++ (← b.run r calls chunk)
  | .again t => do laterWave .intermediate r calls chunk (← t.run r calls chunk)

/-- The results of all waves. -/
def finish (r : Registry) (calls : List AggCall) (chunk : Nat) (t : WaveTree) : Except ExecError (List Row) := do
  laterWave .final r calls chunk (← t.run r calls chunk)

end WaveTree

/-- The three waves: the first two on each split, the last on all their results. -/
def threePhases (r : Registry) (calls : List AggCall) (chunk : Nat) (splits : List (List Row)) :
    Except ExecError (List Row) := do
  laterWave .final r calls chunk (← splits.mapM (combineSplit r calls chunk)).flatten

section

variable {r : Registry} {calls : List AggCall} (he : ∀ c ∈ calls, ∀ f, r.find? c.function = some f → f.Exact)
include he

theorem exact_slots : ∀ s ∈ r.slots calls, s.function.Exact := by
  intro s hs
  obtain ⟨c, hc, hslot⟩ := List.mem_filterMap.mp hs
  obtain ⟨f, hf, rfl⟩ := Option.map_eq_some_iff.mp hslot
  exact he c hc f hf

/-- One pass succeeds exactly if there are calls, all are known, and they can read
every row. -/
theorem yields_onePass (chunk : Nat) (splits : List (List Row)) :
    Yields ((onePass r calls chunk splits).map Prod.fst)
      (r.callable calls && readable (r.slots calls) splits.flatten) (groupBy (r.slots calls) splits.flatten) := by
  have hrun := yields_runTask_grouped (r := r) (stage_atStage .whole calls) chunk (fun h => nomatch h)
    (by rw [slots_atStage]; exact exact_slots he) splits.flatten
  rwa [slots_atStage, r.callable_congr (function_atStage .whole calls)] at hrun

variable (hlen : calls.length ≤ 2 ^ 64) (hc : r.callable calls = true) (chunk : Nat)
include hlen hc

/-- A later wave over partial results succeeds, and gives the group-by. -/
theorem yields_laterWave (stage : Stage) (hst : stage ≠ .initial) {rows out : List Row}
    (h : Partial (r.slots calls) rows out) :
    Yields (laterWave stage r calls chunk out) true (groupBy (r.slots calls) rows) := by
  have hslots := slots_overColumns hlen hc stage
  have hexact : ∀ s ∈ r.slots (overColumns stage calls), s.function.Exact := by
    intro s hs
    rw [hslots] at hs
    obtain ⟨i, hi, rfl⟩ := List.mem_mapIdx.mp hs
    exact exact_slots he (r.slots calls)[i] (List.getElem_mem hi)
  have hrun := yields_runTask_grouped (stage_overColumns stage calls) chunk hst hexact out
  rw [r.callable_congr (function_overColumns stage calls), hc, hslots, readable_partial h,
    groupBy_partial (exact_slots he) h] at hrun
  exact hrun

/-- The first two waves on a split. -/
theorem yields_combineSplit (rows : List Row) :
    Yields (combineSplit r calls chunk rows) (readable (r.slots calls) rows) (groupBy (r.slots calls) rows) := by
  have hfirst := yields_runTask_initial (r := r) (stage_atStage .initial calls) chunk rfl
    (by rw [slots_atStage]; exact exact_slots he) rows
  rw [slots_atStage, r.callable_congr (function_atStage .initial calls), hc, Bool.true_and] at hfirst
  have hsecond := yields_laterWave he hlen hc chunk .intermediate (fun h => nomatch h)
    (partial_singles (r.slots calls) rows)
  rw [combineSplit_eq, ← Bool.and_true (readable (r.slots calls) rows)]
  exact hfirst.bind hsecond

/-- **The waves of a tree give partial results of its rows**, exactly if the calls
can read every row. -/
theorem WaveTree.yields_run : ∀ t : WaveTree, ∃ out,
    Yields (t.run r calls chunk) (readable (r.slots calls) t.rows) out ∧ Partial (r.slots calls) t.rows out
  | .empty => ⟨[], rfl, partial_singles (r.slots calls) []⟩
  | .split rows => ⟨_, yields_combineSplit he hlen hc chunk rows, partial_groupBy (r.slots calls) rows⟩
  | .beside a b => by
    obtain ⟨outA, hA, hpartA⟩ := yields_run a
    obtain ⟨outB, hB, hpartB⟩ := yields_run b
    refine ⟨outA ++ outB, ?_, hpartA.append hpartB⟩
    have hread : readable (r.slots calls) (a.rows ++ b.rows) =
        (readable (r.slots calls) a.rows && readable (r.slots calls) b.rows) := List.all_append
    rw [WaveTree.rows, hread]
    exact hA.bind (hB.map (outA ++ ·))
  | .again t => by
    obtain ⟨out, hout, hpart⟩ := yields_run t
    refine ⟨groupBy (r.slots calls) t.rows, ?_, partial_groupBy (r.slots calls) t.rows⟩
    rw [WaveTree.rows, ← Bool.and_true (readable (r.slots calls) t.rows)]
    exact hout.bind (yields_laterWave he hlen hc chunk .intermediate (fun h => nomatch h) hpart)

theorem WaveTree.yields_finish (t : WaveTree) :
    Yields (t.finish r calls chunk) (readable (r.slots calls) t.rows) (groupBy (r.slots calls) t.rows) := by
  obtain ⟨out, hout, hpart⟩ := WaveTree.yields_run he hlen hc chunk t
  rw [← Bool.and_true (readable (r.slots calls) t.rows)]
  exact hout.bind (yields_laterWave he hlen hc chunk .final (fun h => nomatch h) hpart)

end

/-- The tree of splits beside each other. -/
def WaveTree.ofSplits : List (List Row) → WaveTree
  | [] => .empty
  | rows :: splits => .beside (.split rows) (ofSplits splits)

theorem WaveTree.rows_ofSplits : ∀ splits : List (List Row), (ofSplits splits).rows = splits.flatten
  | [] => rfl
  | rows :: splits => congrArg (rows ++ ·) (rows_ofSplits splits)

theorem WaveTree.run_ofSplits (r : Registry) (calls : List AggCall) (chunk : Nat) : ∀ splits : List (List Row),
    (ofSplits splits).run r calls chunk = (splits.mapM (combineSplit r calls chunk)).map List.flatten
  | [] => rfl
  | rows :: splits => by
    rw [ofSplits, WaveTree.run, WaveTree.run, run_ofSplits r calls chunk splits, List.mapM_cons]
    cases combineSplit r calls chunk rows with
    | error e => rfl
    | ok out => cases splits.mapM (combineSplit r calls chunk) <;> rfl

/-- The three waves are those of the tree of splits. -/
theorem threePhases_eq_finish (r : Registry) (calls : List AggCall) (chunk : Nat) (splits : List (List Row)) :
    threePhases r calls chunk splits = (WaveTree.ofSplits splits).finish r calls chunk := by
  unfold threePhases WaveTree.finish
  rw [WaveTree.run_ofSplits]
  cases splits.mapM (combineSplit r calls chunk) <;> rfl

/-- Calls that no task can be made for fail in the last wave, if not before. -/
theorem WaveTree.yields_finish_of_not_callable {r : Registry} {calls : List AggCall}
    (hc : r.callable calls = false) (chunk : Nat) (t : WaveTree) (out : List Row) :
    Yields (t.finish r calls chunk) false out := by
  unfold WaveTree.finish
  cases t.run r calls chunk with
  | error e => rfl
  | ok rows =>
    have hcreate := yields_create (r := r) (stage_overColumns .final calls) chunk
    rw [r.callable_congr (function_overColumns .final calls), hc] at hcreate
    obtain ⟨e, herror⟩ := hcreate.eq_error
    show Yields (laterWave .final r calls chunk rows) false out
    rw [laterWave, runTask, herror]
    rfl

theorem WaveTree.toOption_finish {r : Registry} {calls : List AggCall}
    (he : ∀ c ∈ calls, ∀ f, r.find? c.function = some f → f.Exact) (hlen : calls.length ≤ 2 ^ 64)
    (chunk chunk' : Nat) (t : WaveTree) (splits : List (List Row)) (hrows : t.rows = splits.flatten) :
    (t.finish r calls chunk).toOption = ((onePass r calls chunk' splits).map Prod.fst).toOption := by
  have hpass := yields_onePass he chunk' splits
  cases hc : r.callable calls with
  | true =>
    have hfinish := WaveTree.yields_finish he hlen hc chunk t
    rw [hc, Bool.true_and] at hpass
    rw [hrows] at hfinish
    exact hfinish.trans hpass.symm
  | false =>
    rw [hc, Bool.false_and] at hpass
    exact (WaveTree.yields_finish_of_not_callable hc chunk t _).trans hpass.symm

/-- **The waves of a group-by give what one pass does.** Take calls of greatest
and least values and of integer sums, no more than there are column numbers, and
rows in splits. One pass over the sorted
rows of all splits succeeds exactly if there are calls, all are known and they can
read every row, and gives the group-by of the rows. The three waves succeed
exactly if it does, whatever the chunk lengths, and then give the same rows;
further middle waves, over any parts of the results, do not change this. -/
theorem threePhases_eq_onePass {r : Registry} {calls : List AggCall}
    (he : ∀ c ∈ calls, ∀ f, r.find? c.function = some f → f.Exact) (hlen : calls.length ≤ 2 ^ 64)
    (chunk chunk' : Nat) (splits : List (List Row)) :
    Yields ((onePass r calls chunk' splits).map Prod.fst)
        (r.callable calls && readable (r.slots calls) splits.flatten) (groupBy (r.slots calls) splits.flatten) ∧
      (threePhases r calls chunk splits).toOption = ((onePass r calls chunk' splits).map Prod.fst).toOption ∧
      ∀ t : WaveTree, t.rows = splits.flatten →
        (t.finish r calls chunk).toOption = ((onePass r calls chunk' splits).map Prod.fst).toOption := by
  refine ⟨yields_onePass he chunk' splits, ?_, ?_⟩
  · rw [threePhases_eq_finish]
    exact WaveTree.toOption_finish he hlen chunk chunk' _ splits (WaveTree.rows_ofSplits splits)
  · intro t ht
    exact WaveTree.toOption_finish he hlen chunk chunk' t splits ht

/-- Two splits that share a key, with an empty one between them: a null, an
integer among the longs and a NaN among the reals. -/
theorem threePhases_eq_onePass_two_keys :
    let key : Int64 → Tuple := fun n => ⟨[.long n]⟩
    let calls : List AggCall := [⟨"LongSum", .whole, 0⟩, ⟨"DoubleMax", .whole, 1⟩]
    let left : List Row := [(key 2, ⟨[.long 5, .null]⟩), (key 1, ⟨[.int 3, .double ⟨0x3ff0000000000000⟩]⟩)]
    let right : List Row := [(key 1, ⟨[.long 4, .double ⟨0x7ff8000000000001⟩]⟩), (key 2, ⟨[.null, .null]⟩)]
    let rows : List Row := [(key 1, ⟨[.long 7, .double ⟨0x7ff8000000000001⟩]⟩), (key 2, ⟨[.long 5, .null]⟩)]
    (threePhases .builtin calls 4 [left, [], right]).toOption = some rows ∧
      (WaveTree.finish .builtin calls 4
        (.again (.beside (.again (.split left)) (.split right)))).toOption = some rows := by
  intro key calls left right rows
  have he : ∀ c ∈ calls, ∀ f, Registry.builtin.find? c.function = some f → f.Exact := by
    intro c hc f hf
    have hsum : Registry.builtin.find? "LongSum" = some ⟨.long, .sum⟩ := by decide +kernel
    have hmax : Registry.builtin.find? "DoubleMax" = some ⟨.double, .max⟩ := by decide +kernel
    simp only [calls, List.mem_cons, List.not_mem_nil, or_false] at hc
    rcases hc with rfl | rfl
    · rw [hsum] at hf
      cases hf
      decide
    · rw [hmax] at hf
      cases hf
      decide
  obtain ⟨hpass, hthree, htree⟩ := threePhases_eq_onePass he (by decide) 4 1 [left, [], right]
  have hread : (Registry.builtin.callable calls &&
      readable (Registry.builtin.slots calls) [left, [], right].flatten) = true := by decide +kernel
  have hrows : groupBy (Registry.builtin.slots calls) [left, [], right].flatten = rows := by decide +kernel
  rw [hread, hrows] at hpass
  exact ⟨hthree.trans hpass, (htree _ rfl).trans hpass⟩

end MapReduce
