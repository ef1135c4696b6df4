/-
# Group-by in waves, with a shuffle before the last

`threeWaves` is the group-by as it runs. The results of the first two waves are sent to
reducers by the hash of their keys, split after split into one shuffle, and each reducer
applies the last wave to its rows. Sending by hash never fails, so the shuffle holds the
results of all splits in their order (`combineSplits_byHash`), and what is left is the last
wave on every bucket (`threeWaves_eq`).

If equal keys have equal hashes, the reducers together give what the last wave gives on all
results at once (`toOption_reduceBuckets`). So the waves with a shuffle are those of the
tree in which the splits stand beside each other, whatever functions are called
(`threeWaves_eq_finish`), and where the waves of a tree give what one pass does, so do they
(`threeWaves_eq_onePass`). The hash has to respect the keys of the input rows only, because
no wave makes a new key (`key_of_combineSplit`).

Key definitions: `Waves.rows`.
Key theorems: `threeWaves_eq`, `mapM_reduceBucket_eq_ok_iff`, `toOption_reduceBuckets`,
`key_of_combineSplit`, `threeWaves_eq_finish`, `threeWaves_eq_onePass`.
-/
import MapReduce.Proofs.GroupedTask
import MapReduce.Proofs.ParallelGroups

namespace MapReduce

/-! ### Into the shuffle -/

theorem Shuffle.pushAll_append (p : Partitioner) : ∀ (s : Shuffle) (rows rows' : List ShuffledRow),
    (pushAll p s (rows ++ rows')).1 = (pushAll p (pushAll p s rows).1 rows').1
  | _, [], _ => rfl
  | s, row :: rows, rows' => pushAll_append p (s.push p row).1 rows rows'

/-- Rows that are sent by the hash of their keys are all taken. -/
theorem pushRows_byHash (n : Nat) : ∀ (s : Shuffle) (rows : List Row),
    pushRows (.byHash n) s rows = .ok (Shuffle.pushAll (.byHash n) s (asInput 0 rows)).1
  | _, [] => rfl
  | s, (key, value) :: rows => by
    have hsent := (Shuffle.reached_of_sendsTo (Shuffle.sendsTo_byHash n) s ⟨key, 0, value⟩).2
    rw [pushRows, ← Prod.eta (s.push (.byHash n) ⟨key, 0, value⟩), hsent]
    exact pushRows_byHash n (s.push (.byHash n) ⟨key, 0, value⟩).1 rows

section

variable (r : Registry) (calls : List AggCall) (chunk n : Nat)

/-- The shuffle holds the results of the splits, one after the other. -/
theorem combineSplits_byHash : ∀ (s : Shuffle) (splits : List (List Row)),
    combineSplits r calls chunk (.byHash n) s splits =
      (splits.mapM (combineSplit r calls chunk)).map fun combined =>
        (combined, (Shuffle.pushAll (.byHash n) s (asInput 0 combined.flatten)).1)
  | _, [] => rfl
  | s, split :: splits => by
    rw [combineSplits, List.mapM_cons]
    cases combineSplit r calls chunk split with
    | error e => rfl
    | ok rows =>
      simp only [bind, Except.bind, pushRows_byHash, combineSplits_byHash]
      cases splits.mapM (combineSplit r calls chunk) with
      | error e => rfl
      | ok combined =>
        have hpushed : asInput 0 (rows :: combined).flatten = asInput 0 rows ++ asInput 0 combined.flatten :=
          List.map_append
        simp only [Except.map, pure, Except.pure, hpushed, Shuffle.pushAll_append]

/-- **The waves as they run**: the first two on each split, and the last on each bucket of
their results. -/
theorem threeWaves_eq (splits : List (List Row)) :
    threeWaves r calls chunk n splits =
      splits.mapM (combineSplit r calls chunk) >>= fun combined =>
        ((hashBuckets n 0 combined.flatten).mapM (reduceBucket r calls chunk)).map (Waves.mk combined) := by
  unfold threeWaves
  rw [combineSplits_byHash]
  cases splits.mapM (combineSplit r calls chunk) with
  | error e => rfl
  | ok combined =>
    show ((hashBuckets n 0 combined.flatten).mapM (reduceBucket r calls chunk) >>= _) =
      ((hashBuckets n 0 combined.flatten).mapM (reduceBucket r calls chunk)).map (Waves.mk combined)
    cases (hashBuckets n 0 combined.flatten).mapM (reduceBucket r calls chunk) <;> rfl

end

/-! ### The last wave on all reducers -/

section

variable {r : Registry} {calls : List AggCall} {chunk : Nat} {t : Task}

theorem reduceBucket_of_create (ht : Task.create r (overColumns .final calls) chunk = .ok t)
    (bucket : Nat × List ShuffledRow) :
    reduceBucket r calls chunk bucket = (t.run (taskRows bucket.2)).1.map (Prod.mk bucket.1) := by
  have hrun := map_fst_runTask r (overColumns .final calls) chunk (taskRows bucket.2)
  rw [ht] at hrun
  have hreduce : reduceBucket r calls chunk bucket =
      ((runTask r (overColumns .final calls) chunk (taskRows bucket.2)).map Prod.fst).map (Prod.mk bucket.1) := by
    show (runTask r (overColumns .final calls) chunk (taskRows bucket.2) >>= _) = _
    cases runTask r (overColumns .final calls) chunk (taskRows bucket.2) <;> rfl
  rw [hreduce, hrun]
  rfl

theorem laterWave_of_create (ht : Task.create r (overColumns .final calls) chunk = .ok t) (rows : List Row) :
    laterWave .final r calls chunk rows = (t.run (sortByKey Prod.fst rows)).1 := by
  rw [laterWave, map_fst_runTask, ht]
  rfl

/-- The last wave succeeds exactly if it does on every reducer. -/
theorem mapM_reduceBucket_eq_ok_iff (ht : Task.create r (overColumns .final calls) chunk = .ok t) :
    ∀ (buckets : List (Nat × List ShuffledRow)) (outs : List (Nat × List Row)),
      buckets.mapM (reduceBucket r calls chunk) = .ok outs ↔
        reduceAll t buckets = outs.map fun o => (o.1, .ok o.2)
  | [], outs => by
    cases outs <;> simp [reduceAll, pure, Except.pure]
  | bucket :: buckets, outs => by
    have ih := mapM_reduceBucket_eq_ok_iff ht buckets
    rw [List.mapM_cons, reduceBucket_of_create ht]
    constructor
    · intro h
      obtain ⟨first, hfirst, hrest⟩ := ok_of_bind h
      obtain ⟨rest, houts, hend⟩ := ok_of_bind hrest
      obtain ⟨out, hrun, rfl⟩ := ok_of_map hfirst
      cases hend
      rw [reduceAll, List.map_cons, hrun]
      exact congrArg (_ :: ·) ((ih rest).mp houts)
    · intro h
      cases outs with
      | nil => cases h
      | cons o outs =>
        obtain ⟨hfirst, hrest⟩ := List.cons.inj h
        obtain ⟨hreducer, hrun⟩ := Prod.mk.inj hfirst
        rw [hrun, (ih outs).mpr hrest, hreducer]
        rfl

/-- **The reducers' last waves are one last wave.** They all succeed exactly if it does on
the rows of all buckets, and then their rows together, in the order of their keys, are its
rows. -/
theorem toOption_reduceBuckets (hc : r.callable calls = true) {rows : List Row}
    (hhash : ∀ a ∈ rows, ∀ b ∈ rows, a.1.sameKey b.1 = true → a.1.hash = b.1.hash) (chunk n : Nat) :
    (((hashBuckets n 0 rows).mapM (reduceBucket r calls chunk)).map fun outs =>
        sortByKey Prod.fst (outs.flatMap Prod.snd)).toOption =
      (laterWave .final r calls chunk rows).toOption := by
  have hcreate := yields_create (r := r) (stage_overColumns .final calls) chunk
  rw [r.callable_congr (function_overColumns .final calls), hc] at hcreate
  have ht := hcreate.eq_ok
  have hm := mode_of_create ht fun c hmem => by rw [stage_overColumns .final calls c hmem]; decide
  rw [laterWave_of_create ht]
  generalize (⟨Mode.ofStage chunk .final, r.slots (overColumns .final calls), ⟨0, 0, 0⟩⟩ : Task) = t at ht hm ⊢
  cases hrun : (t.run (sortByKey Prod.fst rows)).1 with
  | ok out =>
    obtain ⟨hok, rfl⟩ := (run_sortByKey_eq_ok_iff hm out).mp hrun
    rw [(mapM_reduceBucket_eq_ok_iff ht _ _).mpr (reduceAll_of_ok hhash n 0 hm hok)]
    exact congrArg some (sortByKey_of_perm (perm_reducerRows t.mode t.slots rows n)
      (pairwise_keyRows t.mode t.slots rows))
  | error e =>
    cases houts : (hashBuckets n 0 rows).mapM (reduceBucket r calls chunk) with
    | error e' => rfl
    | ok outs =>
      -- reducers that all succeed leave no group on which the one task could fail
      have hall : ∀ o ∈ reduceAll t (hashBuckets n 0 rows), ∃ out, o.2 = .ok out := by
        rw [(mapM_reduceBucket_eq_ok_iff ht _ _).mp houts]
        intro o ho
        obtain ⟨b, _, rfl⟩ := List.mem_map.mp ho
        exact ⟨b.2, rfl⟩
      have hone := (run_sortByKey_eq_ok_iff hm _).mpr
        ⟨fun g hg => isSome_of_reduceAll hhash n 0 hm hall hg, rfl⟩
      rw [hrun] at hone
      cases hone

end

/-! ### The keys of results -/

theorem keys_runInitial {slots : List Slot} : ∀ {rows out : List Row}, (runInitial slots rows).2 = .ok out →
    out.map Prod.fst = rows.map Prod.fst
  | [], _, h => by
    cases h
    rfl
  | (key, value) :: rows, out, h => by
    rw [runInitial] at h
    dsimp only at h
    split at h
    · cases h
    · obtain ⟨rest, hrest, rfl⟩ := ok_of_map h
      rw [List.map_cons, keys_runInitial hrest, List.map_cons]

/-- A grouped task gives keys of its rows. -/
theorem key_of_run {t : Task} (hm : t.mode ≠ .initial) {rows out : List Row}
    (h : (t.run (sortByKey Prod.fst rows)).1 = .ok out) : ∀ o ∈ out, ∃ row ∈ rows, row.1 = o.1 := by
  obtain ⟨_, rfl⟩ := (run_sortByKey_eq_ok_iff hm out).mp h
  intro o ho
  obtain ⟨g, hg, hrow⟩ := List.mem_filterMap.mp ho
  obtain ⟨row, hhead, hkey⟩ := Option.map_eq_some_iff.mp (rowsWith_of_mem_gather hg).1
  exact ⟨row, (List.mem_filter.mp (List.mem_of_head? hhead)).1, hkey.trans (keyRow?_fst hrow).symm⟩

section

variable {r : Registry} {calls : List AggCall} {chunk : Nat}

/-- Calls that have worked on a split can be called. -/
theorem callable_of_combineSplit {rows out : List Row} (h : combineSplit r calls chunk rows = .ok out) :
    r.callable calls = true := by
  rw [combineSplit_eq, map_fst_runTask] at h
  obtain ⟨first, hfirst, _⟩ := ok_of_bind h
  obtain ⟨t, ht, _⟩ := ok_of_bind hfirst
  rw [← r.callable_congr (function_atStage .initial calls)]
  exact ((yields_create (stage_atStage .initial calls) chunk).eq_ok_iff.mp ht).1

/-- **The first two waves make no new key.** -/
theorem key_of_combineSplit {rows out : List Row} (h : combineSplit r calls chunk rows = .ok out) :
    ∀ o ∈ out, ∃ row ∈ rows, row.1 = o.1 := by
  rw [combineSplit_eq, map_fst_runTask] at h
  obtain ⟨first, hfirst, hsecond⟩ := ok_of_bind h
  obtain ⟨t, ht, hinitial⟩ := ok_of_bind hfirst
  rw [laterWave, map_fst_runTask] at hsecond
  obtain ⟨t', ht', hgrouped⟩ := ok_of_bind hsecond
  have hm := mode_of_create ht' fun c hmem => by rw [stage_overColumns .intermediate calls c hmem]; decide
  obtain ⟨_, rfl⟩ := (yields_create (stage_atStage .initial calls) chunk).eq_ok_iff.mp ht
  have hkeys : first.map Prod.fst = rows.map Prod.fst := keys_runInitial hinitial
  intro o ho
  obtain ⟨row, hrow, hkey⟩ := key_of_run hm hgrouped o ho
  have hmem : o.1 ∈ rows.map Prod.fst := by
    rw [← hkeys, ← hkey]
    exact List.mem_map_of_mem hrow
  exact List.mem_map.mp hmem

theorem key_of_combined : ∀ {splits combined : List (List Row)},
    splits.mapM (combineSplit r calls chunk) = .ok combined →
    ∀ o ∈ combined.flatten, ∃ row ∈ splits.flatten, row.1 = o.1
  | [], _, h, o, ho => by
    cases h
    cases ho
  | split :: splits, combined, h, o, ho => by
    rw [List.mapM_cons] at h
    obtain ⟨rows, hrows, hrest⟩ := ok_of_bind h
    obtain ⟨more, hmore, hend⟩ := ok_of_bind hrest
    cases hend
    rw [List.flatten_cons, List.mem_append] at ho
    rcases ho with ho | ho
    · obtain ⟨row, hrow, hkey⟩ := key_of_combineSplit hrows o ho
      exact ⟨row, List.mem_append_left _ hrow, hkey⟩
    · obtain ⟨row, hrow, hkey⟩ := key_of_combined hmore o ho
      exact ⟨row, List.mem_append_right _ hrow, hkey⟩

end

/-! ### The whole group-by -/

/-- The rows of all reducers, in the order of their keys. -/
def Waves.rows (w : Waves) : List Row := sortByKey Prod.fst (w.reduced.flatMap Prod.snd)

section

variable {r : Registry} {calls : List AggCall} {splits : List (List Row)}
  (hcalls : splits = [] → r.callable calls = true)
  (hhash : ∀ a ∈ splits.flatten, ∀ b ∈ splits.flatten, a.1.sameKey b.1 = true → a.1.hash = b.1.hash)
include hcalls hhash

/-- **The waves with a shuffle are those of the tree of splits**, on any number of reducers
and whatever functions are called: they succeed exactly if the waves of the tree do, and
then the reducers' rows together are its rows. Without splits no task is ever made, so the
calls have to be such that one could be. -/
theorem threeWaves_eq_finish (chunk n : Nat) :
    ((threeWaves r calls chunk n splits).map Waves.rows).toOption =
      ((WaveTree.ofSplits splits).finish r calls chunk).toOption := by
  rw [threeWaves_eq, WaveTree.finish, WaveTree.run_ofSplits]
  cases hcombined : splits.mapM (combineSplit r calls chunk) with
  | error e => rfl
  | ok combined =>
    have hc : r.callable calls = true := by
      cases splits with
      | nil => exact hcalls rfl
      | cons split splits =>
        rw [List.mapM_cons] at hcombined
        obtain ⟨rows, hrows, _⟩ := ok_of_bind hcombined
        exact callable_of_combineSplit hrows
    have hhash' : ∀ a ∈ combined.flatten, ∀ b ∈ combined.flatten,
        a.1.sameKey b.1 = true → a.1.hash = b.1.hash := by
      intro a ha b hb hab
      obtain ⟨row, hrow, hkey⟩ := key_of_combined hcombined a ha
      obtain ⟨row', hrow', hkey'⟩ := key_of_combined hcombined b hb
      rw [← hkey, ← hkey'] at hab ⊢
      exact hhash row hrow row' hrow' hab
    calc ((((hashBuckets n 0 combined.flatten).mapM (reduceBucket r calls chunk)).map
          (Waves.mk combined)).map Waves.rows).toOption
        = (((hashBuckets n 0 combined.flatten).mapM (reduceBucket r calls chunk)).map fun outs =>
            sortByKey Prod.fst (outs.flatMap Prod.snd)).toOption := by
          cases (hashBuckets n 0 combined.flatten).mapM (reduceBucket r calls chunk) <;> rfl
      _ = (laterWave .final r calls chunk combined.flatten).toOption := toOption_reduceBuckets hc hhash' chunk n

/-- **The waves with a shuffle give what one pass does**, for calls of greatest and least
values and of integer sums. -/
theorem threeWaves_eq_onePass (he : ∀ c ∈ calls, ∀ f, r.find? c.function = some f → f.Exact)
    (hlen : calls.length ≤ 2 ^ 64) (chunk chunk' n : Nat) :
    ((threeWaves r calls chunk n splits).map Waves.rows).toOption =
      ((onePass r calls chunk' splits).map Prod.fst).toOption :=
  (threeWaves_eq_finish hcalls hhash chunk n).trans
    (WaveTree.toOption_finish he hlen chunk chunk' _ splits (WaveTree.rows_ofSplits splits))

end

end MapReduce
