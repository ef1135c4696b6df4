/-
# Gathering the values of each key

`gather` collects the values of every key, in order, under the first of the keys
that compare equal. What a key gets depends on its own rows only
(`item?_gather`), so a stable sort does not change it (`gather_sortByKey`); and
the values of sorted rows are gathered by looking at neighbours, one run of equal
keys after the other (`entries_gather`).

There is one stable sort, whatever the comparison: a sorted list is determined by the
items that each key has in it, in their order (`eq_of_sorted_of_alike`).

Key definitions: `gather`, `scatter`, `runs`, `alike`, `itemsWith`.
Key theorems: `item?_gather`, `alike_mergeSort`, `eq_of_sorted_of_alike`,
`gather_sortByKey`, `gather_scatter_entries`, `entries_gather`.
-/
import MapReduce.Proofs.OrderedMap
import MapReduce.Value.Tuple

namespace MapReduce

variable {α : Type}

/-- The map with the value of a row added to those of its key. -/
def collect (m : TupleMap (List α)) (row : Tuple × α) : TupleMap (List α) :=
  m.upsert row.1 (fun old => old.getD [] ++ [row.2])

/-- The values of every key, in order. -/
def gather (rows : List (Tuple × α)) : TupleMap (List α) := rows.foldl collect OrderedMap.empty

/-- The rows of a key. -/
def rowsWith (k : Tuple) (rows : List (Tuple × α)) : List (Tuple × α) :=
  rows.filter (fun r => k.sameKey r.1)

/-- The values of rows of one key, under the first key. -/
def itemOf : List (Tuple × α) → Option (Tuple × List α)
  | [] => none
  | r :: rows => some (r.1, r.2 :: rows.map Prod.snd)

/-- What two lists of rows hold for a key, together. -/
def joinItems : Option (Tuple × List α) → Option (Tuple × List α) → Option (Tuple × List α) :=
  Option.merge (fun a b => (a.1, a.2 ++ b.2))

theorem Tuple.sameKey_iff {a b : Tuple} : a.sameKey b = true ↔ a.compare b = .eq := beq_iff_eq

theorem Tuple.sameKey_comm (a b : Tuple) : a.sameKey b = b.sameKey a := by
  rw [Bool.eq_iff_iff, sameKey_iff, sameKey_iff]
  exact Std.OrientedCmp.eq_comm

/-! ### The item of a key -/

theorem rowsWith_append (k : Tuple) (a b : List (Tuple × α)) :
    rowsWith k (a ++ b) = rowsWith k a ++ rowsWith k b := List.filter_append a b

theorem joinItems_assoc (a b c : Option (Tuple × List α)) :
    joinItems (joinItems a b) c = joinItems a (joinItems b c) := by
  cases a <;> cases b <;> cases c <;> simp [joinItems, Option.merge]

theorem itemOf_append : ∀ a b : List (Tuple × α), itemOf (a ++ b) = joinItems (itemOf a) (itemOf b)
  | [], b => by cases b <;> rfl
  | r :: a, [] => by simp [itemOf, joinItems]
  | r :: a, r' :: b => by simp [itemOf, joinItems, Option.merge]

theorem item?_collect (m : TupleMap (List α)) (row : Tuple × α) (k : Tuple) :
    (collect m row).item? k =
      if k.sameKey row.1 then joinItems (m.item? k) (itemOf [row]) else m.item? k := by
  rw [collect, OrderedMap.item?_upsert]
  by_cases hk : k.compare row.1 = .eq
  · rw [if_pos hk, if_pos (Tuple.sameKey_iff.mpr hk), m.item?_congr hk]
    cases m.item? row.1 <;> rfl
  · rw [if_neg hk, if_neg (mt Tuple.sameKey_iff.mp hk)]

theorem item?_foldl_collect (k : Tuple) : ∀ (rows : List (Tuple × α)) (m : TupleMap (List α)),
    (rows.foldl collect m).item? k = joinItems (m.item? k) (itemOf (rowsWith k rows))
  | [], m => by cases h : m.item? k <;> simp [rowsWith, itemOf, joinItems, h]
  | row :: rows, m => by
    rw [List.foldl_cons, item?_foldl_collect k rows, item?_collect]
    by_cases hk : k.sameKey row.1 = true
    · have hcons : rowsWith k (row :: rows) = [row] ++ rowsWith k rows := List.filter_cons_of_pos hk
      rw [if_pos hk, hcons, itemOf_append, joinItems_assoc]
    · have hcons : rowsWith k (row :: rows) = rowsWith k rows := List.filter_cons_of_neg hk
      rw [if_neg hk, hcons]

/-- **What is gathered for a key depends on its rows only.** -/
theorem item?_gather (rows : List (Tuple × α)) (k : Tuple) :
    (gather rows).item? k = itemOf (rowsWith k rows) := by
  rw [gather, item?_foldl_collect]
  cases itemOf (rowsWith k rows) <;> rfl

theorem item?_gather_append (a b : List (Tuple × α)) (k : Tuple) :
    (gather (a ++ b)).item? k = joinItems ((gather a).item? k) ((gather b).item? k) := by
  rw [item?_gather, item?_gather, item?_gather, ← itemOf_append, rowsWith_append]

/-! ### Sorting -/

section

variable {κ : Type} (cmp : κ → κ → Ordering) (key : α → κ)

/-- The items whose keys compare equal to `k`. -/
def alike (k : κ) (l : List α) : List α := l.filter fun a => cmp k (key a) == .eq

theorem alike_cons_of_eq {k : κ} {a : α} (h : cmp k (key a) = .eq) (l : List α) :
    alike cmp key k (a :: l) = a :: alike cmp key k l := List.filter_cons_of_pos (beq_iff_eq.mpr h)

theorem alike_cons_of_ne {k : κ} {a : α} (h : cmp k (key a) ≠ .eq) (l : List α) :
    alike cmp key k (a :: l) = alike cmp key k l := List.filter_cons_of_neg (mt beq_iff_eq.mp h)

variable [Std.TransCmp cmp]

theorem isLE_total_of_cmp (k k' : κ) : ((cmp k k').isLE || (cmp k' k).isLE) = true := by
  have hswap : cmp k' k = (cmp k k').swap := Std.OrientedCmp.eq_swap
  rw [hswap]
  cases cmp k k' <;> rfl

theorem pairwise_mergeSort_of_cmp (l : List α) :
    (l.mergeSort fun a b => (cmp (key a) (key b)).isLE).Pairwise
      fun a b => (cmp (key a) (key b)).isLE = true :=
  List.pairwise_mergeSort (fun _ _ _ => Std.TransCmp.isLE_trans) (fun _ _ => isLE_total_of_cmp cmp _ _) l

/-- A stable sort keeps the items of every key in order. -/
theorem alike_mergeSort (k : κ) (l : List α) :
    alike cmp key k (l.mergeSort fun a b => (cmp (key a) (key b)).isLE) = alike cmp key k l := by
  have hequal : (alike cmp key k l).Pairwise (fun a b => (cmp (key a) (key b)).isLE = true) := by
    refine List.pairwise_of_forall_mem_list fun a ha b hb => ?_
    have hka : cmp k (key a) = .eq := beq_iff_eq.mp (List.mem_filter.mp ha).2
    have hkb : cmp k (key b) = .eq := beq_iff_eq.mp (List.mem_filter.mp hb).2
    rw [← Std.TransCmp.congr_left hka, hkb]
    rfl
  have hsub : (alike cmp key k l).Sublist (l.mergeSort fun a b => (cmp (key a) (key b)).isLE) := by
    refine List.sublist_mergeSort ?_ ?_ hequal List.filter_sublist
    · exact fun a b c => Std.TransCmp.isLE_trans
    · exact fun a b => isLE_total_of_cmp cmp (key a) (key b)
  have hfilter := hsub.filter (fun a => cmp k (key a) == .eq)
  rw [alike, List.filter_filter] at hfilter
  simp only [Bool.and_self] at hfilter
  exact (hfilter.eq_of_length ((List.mergeSort_perm l _).filter _).length_eq.symm).symm

/-- The first item of a sorted list is not above an item that the list also holds. -/
theorem isLE_head_of_alike {a b : α} {l l' : List α}
    (hl : (a :: l).Pairwise fun x y => (cmp (key x) (key y)).isLE = true)
    (h : alike cmp key (key b) (a :: l) = alike cmp key (key b) (b :: l')) :
    (cmp (key a) (key b)).isLE = true := by
  rw [alike_cons_of_eq cmp key (a := b) Std.ReflCmp.compare_self] at h
  have hmem : b ∈ a :: l := List.mem_of_mem_filter (h ▸ List.mem_cons_self)
  rcases List.mem_cons.mp hmem with rfl | hmem
  · exact Std.ReflCmp.isLE_rfl
  · exact (List.pairwise_cons.mp hl).1 b hmem

/-- **There is one stable sort.** Two sorted lists that hold the same items of every
key, in the same order, are equal. -/
theorem eq_of_sorted_of_alike : ∀ {l l' : List α},
    (l.Pairwise fun a b => (cmp (key a) (key b)).isLE = true) →
    (l'.Pairwise fun a b => (cmp (key a) (key b)).isLE = true) →
    (∀ k, alike cmp key k l = alike cmp key k l') → l = l'
  | [], [], _, _, _ => rfl
  | [], b :: l', _, _, h => by
    have hb := h (key b)
    rw [alike_cons_of_eq cmp key Std.ReflCmp.compare_self] at hb
    cases hb
  | a :: l, [], _, _, h => by
    have ha := h (key a)
    rw [alike_cons_of_eq cmp key Std.ReflCmp.compare_self] at ha
    cases ha
  | a :: l, b :: l', hl, hl', h => by
    -- neither head is above the other, so both lead the items of one key
    have hsame : cmp (key a) (key b) = .eq :=
      Std.OrientedCmp.isLE_antisymm (isLE_head_of_alike cmp key hl (h (key b)))
        (isLE_head_of_alike cmp key hl' (h (key a)).symm)
    have hhead := h (key a)
    rw [alike_cons_of_eq cmp key Std.ReflCmp.compare_self, alike_cons_of_eq cmp key hsame] at hhead
    obtain rfl : a = b := (List.cons.inj hhead).1
    refine congrArg (a :: ·) (eq_of_sorted_of_alike hl.of_cons hl'.of_cons fun k => ?_)
    have hk := h k
    by_cases hka : cmp k (key a) = .eq
    · rw [alike_cons_of_eq cmp key hka, alike_cons_of_eq cmp key hka] at hk
      exact (List.cons.inj hk).2
    · rwa [alike_cons_of_ne cmp key hka, alike_cons_of_ne cmp key hka] at hk

end

section

variable (key : α → Tuple)

/-- The items with a key. -/
def itemsWith (k : Tuple) (l : List α) : List α := l.filter fun a => k.sameKey (key a)

theorem pairwise_sortByKey (l : List α) :
    (sortByKey key l).Pairwise fun a b => ((key a).compare (key b)).isLE = true :=
  pairwise_mergeSort_of_cmp Tuple.compare key l

theorem itemsWith_sortByKey (k : Tuple) (l : List α) :
    itemsWith key k (sortByKey key l) = itemsWith key k l :=
  alike_mergeSort Tuple.compare key k l

theorem eq_of_sorted_of_itemsWith {l l' : List α}
    (h : l.Pairwise fun a b => ((key a).compare (key b)).isLE = true)
    (h' : l'.Pairwise fun a b => ((key a).compare (key b)).isLE = true)
    (hitems : ∀ k, itemsWith key k l = itemsWith key k l') : l = l' :=
  eq_of_sorted_of_alike Tuple.compare key h h' hitems

end

/-- A stable sort keeps the rows of every key in order. -/
theorem rowsWith_sortByKey (k : Tuple) (rows : List (Tuple × α)) :
    rowsWith k (sortByKey Prod.fst rows) = rowsWith k rows := itemsWith_sortByKey Prod.fst k rows

/-- **A stable sort does not change what is gathered.** -/
theorem gather_sortByKey (rows : List (Tuple × α)) : gather (sortByKey Prod.fst rows) = gather rows :=
  OrderedMap.ext_item? fun k => by rw [item?_gather, item?_gather, rowsWith_sortByKey]

/-! ### Scattering -/

/-- The rows of gathered values. -/
def scatter (groups : List (Tuple × List α)) : List (Tuple × α) :=
  groups.flatMap (fun g => g.2.map (fun v => (g.1, v)))

theorem rowsWith_scatter (k : Tuple) : ∀ groups : List (Tuple × List α),
    rowsWith k (scatter groups) = scatter (rowsWith k groups)
  | [] => rfl
  | g :: groups => by
    have hcons : scatter (g :: groups) = g.2.map (fun v => (g.1, v)) ++ scatter groups := rfl
    rw [hcons, rowsWith_append, rowsWith_scatter k groups]
    by_cases hk : k.sameKey g.1 = true
    · have hall : rowsWith k (g.2.map (fun v => (g.1, v))) = g.2.map (fun v => (g.1, v)) :=
        List.filter_eq_self.mpr fun r hr => by
          obtain ⟨v, _, rfl⟩ := List.mem_map.mp hr
          exact hk
      have hpos : rowsWith k (g :: groups) = g :: rowsWith k groups := List.filter_cons_of_pos hk
      rw [hall, hpos]
      rfl
    · have hnone : rowsWith k (g.2.map (fun v => (g.1, v))) = [] :=
        List.filter_eq_nil_iff.mpr fun r hr => by
          obtain ⟨v, _, rfl⟩ := List.mem_map.mp hr
          exact hk
      have hneg : rowsWith k (g :: groups) = rowsWith k groups := List.filter_cons_of_neg hk
      rw [hnone, hneg]
      rfl

theorem rowsWith_map {β : Type} (k : Tuple) (f : α → β) (rows : List (Tuple × α)) :
    rowsWith k (rows.map (fun r => (r.1, f r.2))) = (rowsWith k rows).map (fun r => (r.1, f r.2)) :=
  List.filter_map

theorem itemOf_map {β : Type} (f : α → β) : ∀ rows : List (Tuple × α),
    itemOf (rows.map (fun r => (r.1, f r.2))) = (itemOf rows).map (fun e => (e.1, e.2.map f))
  | [] => rfl
  | r :: rows => by simp [itemOf]

theorem map_snd_scatter : ∀ groups : List (Tuple × List α),
    (scatter groups).map Prod.snd = (groups.map Prod.snd).flatten
  | [] => rfl
  | g :: groups => by
    have hcons : scatter (g :: groups) = g.2.map (fun v => (g.1, v)) ++ scatter groups := rfl
    rw [hcons, List.map_append, map_snd_scatter groups, List.map_map, List.map_cons, List.flatten_cons]
    exact congrArg (· ++ _) (List.map_id g.2)

/-- Groups that are not empty give, scattered, the values of all of them. -/
theorem itemOf_scatter : ∀ {groups : List (Tuple × List α)}, (∀ g ∈ groups, g.2 ≠ []) →
    itemOf (scatter groups) = (itemOf groups).map (fun e => (e.1, e.2.flatten))
  | [], _ => rfl
  | (k, vs) :: groups, h => by
    cases vs with
    | nil => exact absurd rfl (h _ List.mem_cons_self)
    | cons v vs =>
      have hcons : scatter ((k, v :: vs) :: groups) = (k, v) :: (vs.map (fun v => (k, v)) ++ scatter groups) := rfl
      rw [hcons]
      simp [itemOf, map_snd_scatter]

/-- Gathering what was gathered and scattered changes nothing. -/
theorem gather_scatter_entries (rows : List (Tuple × α)) : gather (scatter (gather rows).entries) = gather rows :=
  OrderedMap.ext_item? fun k => by
    have hentries : rowsWith k (gather rows).entries = ((gather rows).item? k).toList :=
      (gather rows).filter_entries k
    rw [item?_gather, rowsWith_scatter, hentries, item?_gather]
    cases rowsWith k rows with
    | nil => rfl
    | cons r rest => simp [itemOf, scatter]

/-! ### Sorted rows -/

/-- The runs of equal keys, where `held` are the values of the key so far. -/
def runsFrom (key : Tuple) (held : List α) : List (Tuple × α) → List (Tuple × List α)
  | [] => [(key, held)]
  | (k, v) :: rows =>
    if key.sameKey k then runsFrom key (held ++ [v]) rows else (key, held) :: runsFrom k [v] rows

/-- The runs of equal keys, each with its values. -/
def runs : List (Tuple × α) → List (Tuple × List α)
  | [] => []
  | (k, v) :: rows => runsFrom k [v] rows

/-- Keys in order, of which equal ones may follow each other. -/
def KeysSorted (keys : List Tuple) : Prop := keys.Pairwise (fun a b => (a.compare b).isLE = true)

theorem keysSorted_sortByKey (rows : List (Tuple × α)) :
    KeysSorted ((sortByKey Prod.fst rows).map Prod.fst) :=
  List.pairwise_map.mpr (pairwise_sortByKey Prod.fst rows)

theorem entries_foldl_collect : ∀ (rows : List (Tuple × α)) (m : TupleMap (List α))
    (init : List (Tuple × List α)) (key : Tuple) (held : List α), m.entries = init ++ [(key, held)] →
    KeysSorted (key :: rows.map Prod.fst) → (rows.foldl collect m).entries = init ++ runsFrom key held rows
  | [], _, _, _, _, hm, _ => hm
  | (k, v) :: rows, m, init, key, held, hm, hs => by
    obtain ⟨hkey, hrest⟩ := List.pairwise_cons.mp hs
    have hle : (key.compare k).isLE = true := hkey k List.mem_cons_self
    have hinit : ∀ e ∈ init, k.compare e.1 = .gt := by
      intro e he
      have hsorted := m.sorted
      rw [hm, List.pairwise_append] at hsorted
      have hlt : e.1.compare key = .lt := hsorted.2.2 e he _ List.mem_cons_self
      exact Std.OrientedCmp.gt_of_lt (Std.TransCmp.lt_of_lt_of_isLE hlt hle)
    have hcollect : (collect m (k, v)).entries =
        init ++ OrderedMap.upsertEntries Tuple.compare k (fun old => old.getD [] ++ [v]) [(key, held)] := by
      rw [← OrderedMap.upsertEntries_append hinit, ← hm]
      rfl
    rw [List.foldl_cons, runsFrom]
    by_cases hk : key.sameKey k = true
    · -- the value joins those of the last key
      have heq : k.compare key = .eq := Std.OrientedCmp.eq_symm (Tuple.sameKey_iff.mp hk)
      rw [if_pos hk]
      refine entries_foldl_collect rows _ init key (held ++ [v]) ?_ ?_
      · rw [hcollect]
        simp [OrderedMap.upsertEntries, heq]
      · exact List.pairwise_cons.mpr ⟨fun x hx => hkey x (List.mem_cons_of_mem _ hx), hrest.of_cons⟩
    · have hgt : k.compare key = .gt := by
        have hne := mt Tuple.sameKey_iff.mpr hk
        rw [Std.OrientedCmp.gt_iff_lt]
        revert hle hne
        cases key.compare k <;> simp
      rw [if_neg hk, entries_foldl_collect rows _ (init ++ [(key, held)]) k [v] ?_ hrest, List.append_assoc,
        List.singleton_append]
      rw [hcollect]
      simp [OrderedMap.upsertEntries, hgt]

/-- **The values of sorted rows are gathered run by run.** -/
theorem entries_gather {rows : List (Tuple × α)} (h : KeysSorted (rows.map Prod.fst)) :
    (gather rows).entries = runs rows := by
  cases rows with
  | nil => rfl
  | cons row rows => exact entries_foldl_collect rows _ [] row.1 [row.2] rfl h

end MapReduce
