/-
# Group-by does not depend on the number of reducers

Rows go to reducers by the hash of their keys, each reducer sorts its rows, and a
task of its own works on them. If keys that compare equal have equal hashes, all
rows of a key meet at one reducer, in the order they came. A task gives every key
the row of its own values (`toOption_runGrouped`), so the reducers together give
the rows of one task over all rows, each once and to the last bit.

Nothing is assumed about the functions that are called: what matters is that the
values of a key are cut into chunks the same way wherever the key is worked on.

Key definitions: `asInput`, `reduceAll`.
Key theorems: `Shuffle.routed_byHash`, `gather_filter`, `reduceAll_eq_single`.
-/
import MapReduce.Proofs.KeyRuns
import MapReduce.Proofs.Shuffle

namespace MapReduce

/-! ### Rows sent by the hash of their keys -/

/-- Rows as they are sent, all of one input. -/
def asInput (input : Nat) (rows : List Row) : List ShuffledRow := rows.map fun r => ⟨r.1, input, r.2⟩

/-- The rows of a reducer, as its task sees them. -/
def taskRows (rows : List ShuffledRow) : List Row := rows.map fun r => (r.key, r.value)

/-- The reducer of a key. -/
def reducerOf (n : Nat) (key : Tuple) : Nat := key.hash % max 1 n

theorem reducerOf_lt (n : Nat) (key : Tuple) : reducerOf n key < max 1 n :=
  Nat.mod_lt _ (Nat.lt_of_lt_of_le Nat.zero_lt_one (Nat.le_max_left 1 n))

namespace Shuffle

theorem sendsTo_byHash (n : Nat) : (Partitioner.byHash n).SendsTo (reducerOf n) :=
  fun _ key _ => ⟨rfl, reducerOf_lt n key⟩

theorem pushAll_byHash (n : Nat) (s : Shuffle) (rows : List ShuffledRow) :
    ∀ answer ∈ (pushAll (.byHash n) s rows).2, answer = .ok () := by
  rw [pushAll_of_sendsTo (sendsTo_byHash n)]
  intro answer h
  exact (List.mem_map.mp h).choose_spec.2.symm

/-- A reducer gets the rows whose keys have its hash, in order. -/
theorem routed_byHash (n r : Nat) (s : Shuffle) (rows : List ShuffledRow) :
    routed (.byHash n) r s rows = rows.filter fun row => reducerOf n row.key == r :=
  routed_of_sendsTo (sendsTo_byHash n) r s rows

end Shuffle

theorem taskRows_sortRows (input : Nat) (rows : List Row) :
    taskRows (Shuffle.sortRows (asInput input rows)) = sortByKey Prod.fst rows := by
  have hback : taskRows (asInput input rows) = rows := by
    rw [taskRows, asInput, List.map_map]
    exact List.map_id rows
  have horder : ∀ a ∈ asInput input rows, ∀ b ∈ asInput input rows,
      (Shuffle.rowOrder a b).isLE = (a.key.compare b.key).isLE := by
    intro a ha b hb
    obtain ⟨x, _, rfl⟩ := List.mem_map.mp ha
    obtain ⟨y, _, rfl⟩ := List.mem_map.mp hb
    rw [Shuffle.rowOrder]
    cases x.1.compare y.1 <;> simp [Ordering.then]
  have hsort : taskRows (Shuffle.sortRows (asInput input rows)) =
      (taskRows (asInput input rows)).mergeSort fun a b => (a.1.compare b.1).isLE :=
    List.map_mergeSort horder
  rw [hsort, hback]
  rfl

/-! ### The groups of a reducer -/

theorem OrderedMap.item?_filter {κ ν : Type} {cmp : κ → κ → Ordering} [Std.TransCmp cmp]
    (p : κ → ν → Bool) (m : OrderedMap κ cmp ν) (k : κ) :
    (m.filter p).item? k = (m.item? k).filter fun e => p e.1 e.2 := by
  refine Option.ext fun e => ?_
  have hmem : e ∈ (m.filter p).entries ↔ e ∈ m.entries ∧ p e.1 e.2 = true := List.mem_filter
  rw [OrderedMap.item?_eq_some_iff, hmem, Option.filter_eq_some_iff, OrderedMap.item?_eq_some_iff]
  tauto

/-- **Rows that are chosen by their keys keep their groups**, if the choice does not
tell equal keys apart. -/
theorem gather_filter {α : Type} {rows : List (Tuple × α)} {p : Tuple → Bool}
    (hp : ∀ a ∈ rows, ∀ b ∈ rows, a.1.sameKey b.1 = true → p a.1 = p b.1) :
    gather (rows.filter fun r => p r.1) = (gather rows).filter fun k _ => p k := by
  refine OrderedMap.ext_item? fun k => ?_
  have hswap : rowsWith k (rows.filter fun r => p r.1) = (rowsWith k rows).filter fun r => p r.1 := by
    rw [rowsWith, rowsWith, List.filter_filter, List.filter_filter]
    exact List.filter_congr fun r _ => Bool.and_comm _ _
  rw [item?_gather, OrderedMap.item?_filter, item?_gather, hswap]
  cases hrows : rowsWith k rows with
  | nil => rfl
  | cons r rest =>
    -- all rows of the key are chosen as the first of them is
    have hsame : ∀ x ∈ r :: rest, p x.1 = p r.1 := by
      intro x hx
      have hmem : ∀ y ∈ r :: rest, y ∈ rows ∧ k.sameKey y.1 = true := by
        rw [← hrows]
        exact fun y hy => List.mem_filter.mp hy
      obtain ⟨hxr, hkx⟩ := hmem x hx
      obtain ⟨hrr, hkr⟩ := hmem r List.mem_cons_self
      refine hp x hxr r hrr ?_
      rw [Tuple.sameKey_iff] at hkx hkr ⊢
      exact Std.TransCmp.eq_trans (Std.OrientedCmp.eq_symm hkx) hkr
    cases hpr : p r.1 with
    | true =>
      have hall : (r :: rest).filter (fun x => p x.1) = r :: rest :=
        List.filter_eq_self.mpr fun x hx => (hsame x hx).trans hpr
      rw [hall]
      simp [itemOf, Option.filter, hpr]
    | false =>
      have hnone : (r :: rest).filter (fun x => p x.1) = [] :=
        List.filter_eq_nil_iff.mpr fun x hx => by rw [hsame x hx, hpr]; decide
      rw [hnone]
      simp [itemOf, Option.filter, hpr]

/-! ### One task and many -/

/-- A list is what is picked from it for each number, up to order. -/
theorem perm_flatMap_filter {α : Type} (f : α → Nat) (l : List α) : ∀ n,
    ((List.range n).flatMap fun r => l.filter fun a => f a == r).Perm (l.filter fun a => decide (f a < n))
  | 0 => by simp
  | n + 1 => by
    have hsplit := List.filter_append_perm (fun a => decide (f a < n)) (l.filter fun a => decide (f a < n + 1))
    rw [List.filter_filter, List.filter_filter] at hsplit
    have hlow : (l.filter fun a => decide (f a < n) && decide (f a < n + 1)) =
        l.filter fun a => decide (f a < n) :=
      List.filter_congr fun a _ => by simp; omega
    have hlast : (l.filter fun a => !decide (f a < n) && decide (f a < n + 1)) = l.filter fun a => f a == n :=
      List.filter_congr fun a _ => by rw [Bool.eq_iff_iff]; simp; omega
    rw [hlow, hlast] at hsplit
    rw [List.range_succ, List.flatMap_append, List.flatMap_singleton]
    exact ((perm_flatMap_filter f l n).append_right _).trans hsplit

/-- Rows with different keys are put in the order of their keys. -/
theorem sortByKey_of_perm {α : Type} {l l' : List (Tuple × α)} (hp : l.Perm l')
    (hs : l'.Pairwise fun a b => a.1.compare b.1 = .lt) : sortByKey Prod.fst l = l' := by
  have hperm : (sortByKey Prod.fst l).Perm l' := (List.mergeSort_perm l _).trans hp
  have hsorted : (sortByKey Prod.fst l).Pairwise fun a b => (a.1.compare b.1).isLE = true :=
    List.pairwise_map.mp (keysSorted_sortByKey l)
  have hsorted' : l'.Pairwise fun a b => (a.1.compare b.1).isLE = true :=
    hs.imp fun h => by rw [h]; rfl
  refine hperm.eq_of_pairwise (fun a b ha hb hab hba => ?_) hsorted hsorted'
  exact OrderedMap.eq_of_mem_entries ⟨l', hs⟩ (hperm.mem_iff.mp ha) hb
    (Std.OrientedCmp.isLE_antisymm hab hba)

/-- The reducers' rows, after all rows of one input were sent by hash. -/
def hashBuckets (n input : Nat) (rows : List Row) : List (Nat × List ShuffledRow) :=
  (Shuffle.pushAll (.byHash n) .empty (asInput input rows)).1.finish

/-- What reducers compute, each with a task of its own. -/
def reduceAll (t : Task) (buckets : List (Nat × List ShuffledRow)) :
    List (Nat × Except ExecError (List Row)) :=
  buckets.map fun b => (b.1, (t.run (taskRows b.2)).1)

/-- The groups that a reducer works on. -/
def groupsOf (n r : Nat) (rows : List Row) : List (Tuple × List Tuple) :=
  (gather rows).entries.filter fun g => reducerOf n g.1 == r

theorem keyRow?_fst {mode : Mode} {slots : List Slot} {g : Tuple × List Tuple} {row : Row}
    (h : keyRow? mode slots g = some row) : row.1 = g.1 := by
  obtain ⟨fields, _, rfl⟩ := Option.map_eq_some_iff.mp h
  rfl

theorem eq_ok_of_toOption {ε α : Type} {x : Except ε α} {a : α} (h : x.toOption = some a) : x = .ok a := by
  cases x with
  | error e => cases h
  | ok b => exact congrArg Except.ok (Option.some.inj h)

section

variable {rows : List Row}
  (hhash : ∀ a ∈ rows, ∀ b ∈ rows, a.1.sameKey b.1 = true → a.1.hash = b.1.hash) (n input : Nat)

theorem routed_asInput (r : Nat) (rows : List Row) :
    Shuffle.routed (.byHash n) r .empty (asInput input rows) =
      asInput input (rows.filter fun row => reducerOf n row.1 == r) := by
  rw [Shuffle.routed_byHash, asInput, asInput, List.filter_map]
  rfl

include hhash

/-- The rows of a reducer have its groups. -/
theorem gather_bucket (r : Nat) :
    (gather (rows.filter fun row => reducerOf n row.1 == r)).entries = groupsOf n r rows := by
  have hgather : gather (rows.filter fun row => reducerOf n row.1 == r) =
      (gather rows).filter fun k _ => reducerOf n k == r := by
    refine @gather_filter _ rows (fun k => reducerOf n k == r) fun a ha b hb hab => ?_
    rw [reducerOf, reducerOf, hhash a ha b hb hab]
  rw [hgather]
  rfl

/-- A reducer without rows has no groups, and only such a one. -/
theorem groupsOf_eq_nil_iff (r : Nat) :
    groupsOf n r rows = [] ↔ Shuffle.routed (.byHash n) r .empty (asInput input rows) = [] := by
  rw [routed_asInput, ← gather_bucket hhash, asInput, List.map_eq_nil_iff]
  constructor
  · intro h
    by_contra hne
    obtain ⟨row, hrow⟩ := List.exists_mem_of_ne_nil _ hne
    have hitem := item?_gather (rows.filter fun row => reducerOf n row.1 == r) row.1
    have hmem : row ∈ rowsWith row.1 (rows.filter fun row => reducerOf n row.1 == r) :=
      List.mem_filter.mpr ⟨hrow, Tuple.sameKey_iff.mpr Std.ReflCmp.compare_self⟩
    rw [OrderedMap.item?, h] at hitem
    cases hrows : rowsWith row.1 (rows.filter fun row => reducerOf n row.1 == r) with
    | nil =>
      rw [hrows] at hmem
      cases hmem
    | cons x xs =>
      rw [hrows] at hitem
      cases hitem
  · intro h
    rw [h]
    rfl

variable {t : Task} (hm : t.mode ≠ .initial)
include hm

omit hhash in
/-- A task on sorted rows, by the groups of its rows. -/
theorem toOption_run_sortByKey (rows : List Row) :
    (t.run (sortByKey Prod.fst rows)).1.toOption =
      (gather rows).entries.mapM (keyRow? t.mode t.slots) := by
  rw [Task.run_eq_runGrouped hm, toOption_runGrouped hm (keysSorted_sortByKey rows), gather_sortByKey]

/-- A reducer's task succeeds exactly if the calls succeed on its groups. -/
theorem toOption_run_bucket (r : Nat) :
    (t.run (taskRows (Shuffle.sortRows
        (Shuffle.routed (.byHash n) r .empty (asInput input rows))))).1.toOption =
      (groupsOf n r rows).mapM (keyRow? t.mode t.slots) := by
  rw [routed_asInput, taskRows_sortRows, toOption_run_sortByKey hm, gather_bucket hhash]

/-- If a task succeeds on all rows, every reducer gives the rows of its groups. -/
theorem reduceAll_of_ok (hok : ∀ g ∈ (gather rows).entries, (keyRow? t.mode t.slots g).isSome = true) :
    reduceAll t (hashBuckets n input rows) =
      ((List.range (max 1 n)).filterMap fun r =>
        if groupsOf n r rows = [] then none
        else some (r, (groupsOf n r rows).filterMap (keyRow? t.mode t.slots))).map
        fun o => (o.1, .ok o.2) := by
  rw [reduceAll, hashBuckets, Shuffle.finish_pushAll, List.map_filterMap, List.map_filterMap]
  refine List.filterMap_congr fun r _ => ?_
  have hrun := toOption_run_bucket hhash n input hm r
  have hall : ((groupsOf n r rows).all fun g => (keyRow? t.mode t.slots g).isSome) = true :=
    List.all_eq_true.mpr fun g hg => hok g (List.mem_filter.mp hg).1
  rw [mapM_option, if_pos hall] at hrun
  by_cases hnil : groupsOf n r rows = []
  · rw [if_pos hnil, if_pos ((groupsOf_eq_nil_iff hhash n input r).mp hnil)]
    rfl
  · rw [if_neg hnil, if_neg fun h => hnil ((groupsOf_eq_nil_iff hhash n input r).mpr h),
      Option.map_some, Option.map_some, eq_ok_of_toOption hrun]

omit hhash in
/-- A task succeeds on sorted rows exactly if the calls succeed on every group. -/
theorem run_sortByKey_eq_ok_iff (out : List Row) : (t.run (sortByKey Prod.fst rows)).1 = .ok out ↔
    (∀ g ∈ (gather rows).entries, (keyRow? t.mode t.slots g).isSome = true) ∧
      out = (gather rows).entries.filterMap (keyRow? t.mode t.slots) := by
  have hrun := toOption_run_sortByKey hm rows
  rw [mapM_option] at hrun
  constructor
  · intro h
    rw [h] at hrun
    split at hrun
    · rename_i hall
      exact ⟨List.all_eq_true.mp hall, Option.some.inj hrun⟩
    · cases hrun
  · rintro ⟨hok, rfl⟩
    rw [if_pos (List.all_eq_true.mpr hok)] at hrun
    exact eq_ok_of_toOption hrun

/-- If every reducer succeeds, so do the calls on every group. -/
theorem isSome_of_reduceAll
    (h : ∀ o ∈ reduceAll t (hashBuckets n input rows), ∃ out, o.2 = .ok out)
    {g : Tuple × List Tuple} (hg : g ∈ (gather rows).entries) :
    (keyRow? t.mode t.slots g).isSome = true := by
  have hmem : g ∈ groupsOf n (reducerOf n g.1) rows := List.mem_filter.mpr ⟨hg, beq_self_eq_true _⟩
  have hne : Shuffle.routed (.byHash n) (reducerOf n g.1) .empty (asInput input rows) ≠ [] := by
    rw [Ne, ← groupsOf_eq_nil_iff hhash n input]
    exact List.ne_nil_of_mem hmem
  have hbucket : (reducerOf n g.1, Shuffle.sortRows (Shuffle.routed (.byHash n) (reducerOf n g.1) .empty
      (asInput input rows))) ∈ hashBuckets n input rows := by
    rw [hashBuckets, Shuffle.finish_pushAll, List.mem_filterMap]
    exact ⟨reducerOf n g.1, List.mem_range.mpr (reducerOf_lt n g.1), if_neg hne⟩
  obtain ⟨out, hout⟩ := h _ (List.mem_map_of_mem hbucket)
  have hrun := toOption_run_bucket hhash n input hm (reducerOf n g.1)
  dsimp only at hout
  rw [hout, mapM_option] at hrun
  split at hrun
  · rename_i hall
    exact List.all_eq_true.mp hall g hmem
  · cases hrun

end

/-! ### The union of the reducers' rows -/

/-- Every group is worked on by one reducer. -/
theorem perm_groupsOf (n : Nat) (rows : List Row) :
    ((List.range (max 1 n)).flatMap fun r => groupsOf n r rows).Perm (gather rows).entries := by
  have hall : ((gather rows).entries.filter fun g => decide (reducerOf n g.1 < max 1 n)) =
      (gather rows).entries :=
    List.filter_eq_self.mpr fun g _ => decide_eq_true (reducerOf_lt n g.1)
  have hperm := perm_flatMap_filter (fun g : Tuple × List Tuple => reducerOf n g.1) (gather rows).entries (max 1 n)
  rwa [hall] at hperm

section

variable (mode : Mode) (slots : List Slot) (rows : List Row)

/-- The rows of all reducers are those of all groups. -/
theorem perm_reducerRows (n : Nat) :
    (((List.range (max 1 n)).filterMap fun r =>
      if groupsOf n r rows = [] then none
      else some (r, (groupsOf n r rows).filterMap (keyRow? mode slots))).flatMap Prod.snd).Perm
      ((gather rows).entries.filterMap (keyRow? mode slots)) := by
  have hunion : ((List.range (max 1 n)).filterMap fun r =>
      if groupsOf n r rows = [] then none
      else some (r, (groupsOf n r rows).filterMap (keyRow? mode slots))).flatMap Prod.snd =
      ((List.range (max 1 n)).flatMap fun r => groupsOf n r rows).filterMap (keyRow? mode slots) := by
    rw [List.filterMap_eq_flatMap_toList, List.flatMap_assoc, List.filterMap_flatMap]
    refine List.flatMap_congr fun r _ => ?_
    by_cases hnil : groupsOf n r rows = []
    · rw [if_pos hnil, hnil]
      rfl
    · rw [if_neg hnil]
      exact List.append_nil _
  rw [hunion]
  exact (perm_groupsOf n rows).filterMap _

/-- The rows of groups are in the order of their keys, which all differ. -/
theorem pairwise_keyRows :
    ((gather rows).entries.filterMap (keyRow? mode slots)).Pairwise fun a b => a.1.compare b.1 = .lt := by
  refine List.pairwise_filterMap.mpr ((gather rows).sorted.imp fun {g g'} hlt a ha b hb => ?_)
  rw [keyRow?_fst ha, keyRow?_fst hb]
  exact hlt

/-- The rows of groups have every key once. -/
theorem countP_keyRows (hok : ∀ g ∈ (gather rows).entries, (keyRow? mode slots g).isSome = true)
    {row : Row} (hrow : row ∈ rows) :
    ((gather rows).entries.filterMap (keyRow? mode slots)).countP (fun o => row.1.sameKey o.1) = 1 := by
  have hgroups : rowsWith row.1 (gather rows).entries = ((gather rows).item? row.1).toList :=
    (gather rows).filter_entries row.1
  have hmem : row ∈ rowsWith row.1 rows :=
    List.mem_filter.mpr ⟨hrow, Tuple.sameKey_iff.mpr Std.ReflCmp.compare_self⟩
  have hone : (rowsWith row.1 (gather rows).entries).length = 1 := by
    rw [hgroups, item?_gather]
    cases hrows : rowsWith row.1 rows with
    | nil =>
      rw [hrows] at hmem
      cases hmem
    | cons x xs => rfl
  rw [List.countP_filterMap, ← hone, rowsWith, ← List.countP_eq_length_filter]
  refine List.countP_congr fun g hg => ?_
  obtain ⟨out, hout⟩ := Option.isSome_iff_exists.mp (hok g hg)
  rw [hout, Option.map_some, Option.getD_some, keyRow?_fst hout]

end

/-- A task whose calls are not of the initial stage works on groups. -/
theorem mode_of_create {registry : Registry} {calls : List AggCall} {chunk : Nat} {t : Task}
    (ht : Task.create registry calls chunk = .ok t) (hstage : ∀ c ∈ calls, c.stage ≠ .initial) :
    t.mode ≠ .initial := by
  cases calls with
  | nil => cases ht
  | cons first rest =>
    unfold Task.create at ht
    dsimp only at ht
    split at ht
    · cases ht
    · obtain ⟨slots, _, hok⟩ := ok_of_bind ht
      cases hok
      have hfirst := hstage first List.mem_cons_self
      show Mode.ofStage chunk first.stage ≠ .initial
      cases hst : first.stage with
      | initial => exact absurd hst hfirst
      | _ => nofun

/-- **Group-by does not depend on the number of reducers.** Rows of one input are
sent by the hash of their keys, and a task of its own works on the rows of each
reducer. All rows are sent; every reducer's task succeeds exactly if one task
succeeds on all rows, sorted by key; and then the reducers' rows together, in the
order of their keys, are the rows of that one task, and the key of every row that
was sent is among them once. -/
theorem reduceAll_eq_single {registry : Registry} {calls : List AggCall} {chunk : Nat} {t : Task}
    (ht : Task.create registry calls chunk = .ok t) (hstage : ∀ c ∈ calls, c.stage ≠ .initial)
    {rows : List Row}
    (hhash : ∀ a ∈ rows, ∀ b ∈ rows, a.1.sameKey b.1 = true → a.1.hash = b.1.hash) (n input : Nat) :
    (∀ answer ∈ (Shuffle.pushAll (.byHash n) .empty (asInput input rows)).2, answer = .ok ()) ∧
      ((∀ o ∈ reduceAll t (hashBuckets n input rows), ∃ out, o.2 = .ok out) ↔
        ∃ out, (t.run (sortByKey Prod.fst rows)).1 = .ok out) ∧
      ∀ out, (t.run (sortByKey Prod.fst rows)).1 = .ok out →
        ∃ outs : List (Nat × List Row),
          reduceAll t (hashBuckets n input rows) = outs.map (fun o => (o.1, .ok o.2)) ∧
          sortByKey Prod.fst (outs.flatMap Prod.snd) = out ∧
          ∀ row ∈ rows, (outs.flatMap Prod.snd).countP (fun o => row.1.sameKey o.1) = 1 := by
  have hm := mode_of_create ht hstage
  have hsingle := @run_sortByKey_eq_ok_iff rows t hm
  refine ⟨Shuffle.pushAll_byHash n _ _, ⟨fun h => ?_, ?_⟩, fun out hout => ?_⟩
  · exact ⟨_, (hsingle _).mpr ⟨fun g hg => isSome_of_reduceAll hhash n input hm h hg, rfl⟩⟩
  · rintro ⟨out, hout⟩ o ho
    rw [reduceAll_of_ok hhash n input hm ((hsingle out).mp hout).1] at ho
    obtain ⟨b, _, rfl⟩ := List.mem_map.mp ho
    exact ⟨b.2, rfl⟩
  · obtain ⟨hok, rfl⟩ := (hsingle out).mp hout
    have hperm := perm_reducerRows t.mode t.slots rows n
    refine ⟨_, reduceAll_of_ok hhash n input hm hok, ?_, fun row hrow => ?_⟩
    · exact sortByKey_of_perm hperm (pairwise_keyRows t.mode t.slots rows)
    · rw [hperm.countP_eq]
      exact countP_keyRows t.mode t.slots rows hok hrow

/-- Real numbers under two keys, of which one comes back after the other. -/
def realRows : List Row :=
  [(⟨[.long 1]⟩, ⟨[.double ⟨0x3fb999999999999a⟩]⟩), (⟨[.long 2]⟩, ⟨[.double ⟨0x3ff0000000000000⟩]⟩),
    (⟨[.long 1]⟩, ⟨[.double ⟨0x3fc999999999999a⟩]⟩), (⟨[.long 1]⟩, ⟨[.double ⟨0x3fd3333333333333⟩]⟩)]

/-- A task that sums real numbers in chunks of two. -/
def realSum : Task := ⟨.accumulate 2, [⟨0, ⟨.double, .sum⟩, .fresh⟩], ⟨0, 0, 0⟩⟩

theorem create_realSum : Task.create .builtin [⟨"DoubleSum", .whole, 0⟩] 2 = .ok realSum := by cbv

theorem sortByKey_realRows : sortByKey Prod.fst realRows =
    [(⟨[.long 1]⟩, ⟨[.double ⟨0x3fb999999999999a⟩]⟩), (⟨[.long 1]⟩, ⟨[.double ⟨0x3fc999999999999a⟩]⟩),
      (⟨[.long 1]⟩, ⟨[.double ⟨0x3fd3333333333333⟩]⟩), (⟨[.long 2]⟩, ⟨[.double ⟨0x3ff0000000000000⟩]⟩)] := by
  cbv

theorem run_realRows : (realSum.run (sortByKey Prod.fst realRows)).1 =
    .ok [(⟨[.long 1]⟩, ⟨[.double ⟨0x3fe3333333333334⟩]⟩), (⟨[.long 2]⟩, ⟨[.double ⟨0x3ff0000000000000⟩]⟩)] := by
  refine eq_ok_of_toOption ?_
  rw [sortByKey_realRows]
  decide +kernel

/-- The sum of a tenth, two tenths and three tenths has the same last bit on three
reducers as on one. -/
theorem reduceAll_eq_single_realRows :
    Task.create .builtin [⟨"DoubleSum", .whole, 0⟩] 2 = .ok realSum ∧
      ∃ outs : List (Nat × List Row),
        reduceAll realSum (hashBuckets 3 0 realRows) = outs.map (fun o => (o.1, .ok o.2)) ∧
        sortByKey Prod.fst (outs.flatMap Prod.snd) =
          [(⟨[.long 1]⟩, ⟨[.double ⟨0x3fe3333333333334⟩]⟩), (⟨[.long 2]⟩, ⟨[.double ⟨0x3ff0000000000000⟩]⟩)] ∧
        ∀ row ∈ realRows, (outs.flatMap Prod.snd).countP (fun o => row.1.sameKey o.1) = 1 := by
  have hkeys : ∀ a ∈ realRows, ∀ b ∈ realRows, a.1.sameKey b.1 = true → a.1 = b.1 := by decide
  have hhash : ∀ a ∈ realRows, ∀ b ∈ realRows, a.1.sameKey b.1 = true → a.1.hash = b.1.hash :=
    fun a ha b hb hab => by rw [hkeys a ha b hb hab]
  obtain ⟨_, _, hout⟩ := reduceAll_eq_single create_realSum (by decide) hhash 3 0
  exact ⟨create_realSum, hout _ run_realRows⟩

end MapReduce
