/-
# Look-ups in ordered maps

An ordered map may identify keys that differ, so what a map holds for a key is
an item: the key it is stored under, and the value. `OrderedMap.item?` reads
it, `item?_upsert` says what an update does to every item, and two maps with
the same item for every key are equal (`ext_item?`). With these three nothing
has to look at the sorted list again. Where equal keys are the same, an item is
its value, and look-ups alone say what a map is (`ext_find?`).

Key definitions: `OrderedMap.item?`.
Key theorems: `OrderedMap.item?_eq_some_iff`, `OrderedMap.item?_upsert`,
`OrderedMap.ext_item?`, `OrderedMap.ext_find?`, `OrderedMap.keys_eq_of_mem_iff`.
-/
import Mathlib
import MapReduce.OrderedMap

namespace MapReduce
namespace OrderedMap

variable {κ ν ω : Type} {cmp : κ → κ → Ordering}

/-- The item of `k`: the key it is stored under, and its value. -/
def item? (m : OrderedMap κ cmp ν) (k : κ) : Option (κ × ν) :=
  m.entries.find? (fun e => cmp k e.1 == .eq)

theorem find?_eq_item? (m : OrderedMap κ cmp ν) (k : κ) : m.find? k = (m.item? k).map (·.2) := rfl

theorem item?_mapValues (f : κ → ν → ω) (m : OrderedMap κ cmp ν) (k : κ) :
    (m.mapValues f).item? k = (m.item? k).map (fun e => (e.1, f e.1 e.2)) := by
  simp [item?, mapValues, List.find?_map]

theorem keys_mapValues (f : κ → ν → ω) (m : OrderedMap κ cmp ν) : (m.mapValues f).keys = m.keys := by
  simp [mapValues, keys]

theorem keys_modify (m : OrderedMap κ cmp ν) (k : κ) (f : ν → ν) : (m.modify k f).keys = m.keys :=
  m.keys_mapValues _

/-- The keys stand in increasing order. -/
theorem pairwise_keys (m : OrderedMap κ cmp ν) : m.keys.Pairwise (fun a b => cmp a b = .lt) :=
  List.pairwise_map.mpr m.sorted

/-- An update passes the entries below its key. -/
theorem upsertEntries_append {k : κ} {f : Option ν → ν} : ∀ {l l' : List (κ × ν)},
    (∀ e ∈ l, cmp k e.1 = .gt) → upsertEntries cmp k f (l ++ l') = l ++ upsertEntries cmp k f l'
  | [], _, _ => rfl
  | e :: l, l', h => by
    rw [List.cons_append, upsertEntries, h e List.mem_cons_self]
    simp only [List.cons_append]
    rw [upsertEntries_append fun x hx => h x (List.mem_cons_of_mem _ hx)]

variable [Std.TransCmp cmp]

/-- Keys that compare equal have one item. -/
theorem item?_congr (m : OrderedMap κ cmp ν) {k k' : κ} (h : cmp k k' = .eq) :
    m.item? k = m.item? k' := by
  unfold item?
  congr 1
  funext e
  rw [Std.TransCmp.congr_left h]

theorem find?_congr (m : OrderedMap κ cmp ν) {k k' : κ} (h : cmp k k' = .eq) :
    m.find? k = m.find? k' := by
  rw [find?_eq_item?, find?_eq_item?, m.item?_congr h]

/-- Two entries whose keys compare equal are one. -/
theorem eq_of_mem_entries (m : OrderedMap κ cmp ν) {a b : κ × ν} (ha : a ∈ m.entries)
    (hb : b ∈ m.entries) (h : cmp a.1 b.1 = .eq) : a = b := by
  have hlt : m.entries.Pairwise (fun a b => cmp a.1 b.1 = .eq → a = b) :=
    m.sorted.imp fun hab heq => by rw [heq] at hab; cases hab
  have hgt : m.entries.Pairwise (flip fun a b => cmp a.1 b.1 = .eq → a = b) :=
    m.sorted.imp fun hab heq => by rw [Std.OrientedCmp.eq_symm heq] at hab; cases hab
  exact List.Pairwise.forall_of_forall_of_flip (fun _ _ _ => rfl) hlt hgt ha hb h

/-- The item of a key is the entry whose own key compares equal to it. -/
theorem item?_eq_some_iff (m : OrderedMap κ cmp ν) {k : κ} {e : κ × ν} :
    m.item? k = some e ↔ e ∈ m.entries ∧ cmp k e.1 = .eq := by
  constructor
  · intro h
    have hk := List.find?_some h
    exact ⟨List.mem_of_find?_eq_some h, by simpa using hk⟩
  · rintro ⟨he, hk⟩
    cases hf : m.item? k with
    | none =>
      have := List.find?_eq_none.mp hf e he
      simp [hk] at this
    | some e' =>
      have he' := List.mem_of_find?_eq_some hf
      have hk' : cmp k e'.1 = .eq := by simpa using List.find?_some hf
      rw [m.eq_of_mem_entries he' he (Std.TransCmp.eq_trans (Std.OrientedCmp.eq_symm hk') hk)]

theorem item?_of_mem (m : OrderedMap κ cmp ν) {e : κ × ν} (h : e ∈ m.entries) :
    m.item? e.1 = some e :=
  m.item?_eq_some_iff.mpr ⟨h, Std.ReflCmp.compare_self⟩

/-- The item of `k` after an update: it keeps the key it has. -/
def updated (k : κ) (f : Option ν → ν) : Option (κ × ν) → κ × ν
  | none => (k, f none)
  | some e => (e.1, f (some e.2))

/-- No entry of a list that starts above `k` belongs to `k`. -/
theorem find?_eq_none_of_lt {k : κ} {e : κ × ν} {l : List (κ × ν)} (h : cmp k e.1 = .lt)
    (hs : (e :: l).Pairwise (fun a b => cmp a.1 b.1 = .lt)) :
    (e :: l).find? (fun x => cmp k x.1 == .eq) = none := by
  rw [List.find?_eq_none]
  intro x hx
  have hk : cmp k x.1 = .lt := by
    rcases List.mem_cons.mp hx with rfl | hx
    · exact h
    · exact Std.TransCmp.lt_trans h (List.rel_of_pairwise_cons hs hx)
  simp [hk]

/-- The entries after that of `k` do not belong to it. -/
theorem find?_eq_none_of_eq {k : κ} {e : κ × ν} {l : List (κ × ν)} (h : cmp k e.1 = .eq)
    (hs : (e :: l).Pairwise (fun a b => cmp a.1 b.1 = .lt)) :
    l.find? (fun x => cmp k x.1 == .eq) = none := by
  rw [List.find?_eq_none]
  intro x hx
  have hk : cmp k x.1 = .lt := Std.TransCmp.congr_left h ▸ List.rel_of_pairwise_cons hs hx
  simp [hk]

/-- An update changes the item of the keys that compare equal to its own, and no
other. -/
theorem find?_upsertEntries (k k' : κ) (f : Option ν → ν) : ∀ {l : List (κ × ν)},
    l.Pairwise (fun a b => cmp a.1 b.1 = .lt) →
    (upsertEntries cmp k f l).find? (fun e => cmp k' e.1 == .eq) =
      if cmp k' k = .eq then some (updated k f (l.find? (fun e => cmp k e.1 == .eq)))
      else l.find? (fun e => cmp k' e.1 == .eq)
  | [], _ => by by_cases h : cmp k' k = .eq <;> simp [upsertEntries, updated, h]
  | (k₀, v) :: rest, hs => by
    rw [upsertEntries]
    split
    case h_1 hlt =>
      rw [find?_eq_none_of_lt hlt hs]
      by_cases h : cmp k' k = .eq <;> simp [updated, h]
    case h_2 heq =>
      by_cases h : cmp k' k = .eq
      · have h₀ : cmp k' k₀ = .eq := Std.TransCmp.eq_trans h heq
        simp [updated, h, heq, h₀]
      · have h₀ : cmp k' k₀ ≠ .eq := fun e => h (Std.TransCmp.congr_right heq ▸ e)
        simp [h, h₀]
    case h_3 hgt =>
      have ih := find?_upsertEntries k k' f (List.Pairwise.of_cons hs)
      have hk : cmp k k₀ ≠ .eq := by rw [hgt]; decide
      by_cases h₀ : cmp k' k₀ = .eq
      · -- the entry at the front is not the one that is updated
        have h : cmp k' k ≠ .eq := fun e => hk (Std.TransCmp.congr_left e ▸ h₀)
        simp [h, h₀]
      · by_cases h : cmp k' k = .eq <;> simp [h, h₀, hk, ih]

theorem item?_upsert (m : OrderedMap κ cmp ν) (k k' : κ) (f : Option ν → ν) :
    (m.upsert k f).item? k' = if cmp k' k = .eq then some (updated k f (m.item? k)) else m.item? k' :=
  find?_upsertEntries k k' f m.sorted

theorem find?_upsert (m : OrderedMap κ cmp ν) (k k' : κ) (f : Option ν → ν) :
    (m.upsert k f).find? k' = if cmp k' k = .eq then some (f (m.find? k)) else m.find? k' := by
  rw [find?_eq_item?, item?_upsert, find?_eq_item?, find?_eq_item?]
  split
  · cases m.item? k <;> rfl
  · rfl

theorem find?_insert (m : OrderedMap κ cmp ν) (k k' : κ) (v : ν) :
    (m.insert k v).find? k' = if cmp k' k = .eq then some v else m.find? k' :=
  m.find?_upsert k k' _

/-- No entry stands twice in a map. -/
theorem nodup_entries (m : OrderedMap κ cmp ν) : m.entries.Nodup :=
  m.sorted.imp fun {a b} h e => by
    have hb : cmp b.1 b.1 = .eq := Std.ReflCmp.compare_self
    rw [e, hb] at h
    cases h

theorem nodup_keys (m : OrderedMap κ cmp ν) : m.keys.Nodup :=
  m.pairwise_keys.imp fun {a b} h e => by
    have hb : cmp b b = .eq := Std.ReflCmp.compare_self
    rw [e, hb] at h
    cases h

/-- Maps with the same item for every key are equal. -/
theorem ext_item? {m n : OrderedMap κ cmp ν} (h : ∀ k, m.item? k = n.item? k) : m = n := by
  have hmem : ∀ e, e ∈ m.entries ↔ e ∈ n.entries := by
    intro e
    constructor
    · intro he
      exact (n.item?_eq_some_iff.mp (h e.1 ▸ m.item?_of_mem he)).1
    · intro he
      exact (m.item?_eq_some_iff.mp ((h e.1).symm ▸ n.item?_of_mem he)).1
  have hperm : m.entries.Perm n.entries :=
    (List.perm_ext_iff_of_nodup m.nodup_entries n.nodup_entries).mpr hmem
  refine ext (hperm.eq_of_pairwise ?_ m.sorted n.sorted)
  intro a b _ _ hab hba
  exact absurd hba (Std.OrientedCmp.not_lt_of_lt hab)

/-- Maps with the same keys list them alike. -/
theorem keys_eq_of_mem_iff {m : OrderedMap κ cmp ν} {n : OrderedMap κ cmp ω}
    (h : ∀ k, k ∈ m.keys ↔ k ∈ n.keys) : m.keys = n.keys := by
  refine ((List.perm_ext_iff_of_nodup m.nodup_keys n.nodup_keys).mpr h).eq_of_pairwise ?_
    m.pairwise_keys n.pairwise_keys
  intro a b _ _ hab hba
  exact absurd hba (Std.OrientedCmp.not_lt_of_lt hab)

/-- The entries that belong to a key are its one item. -/
theorem filter_entries (m : OrderedMap κ cmp ν) (k : κ) :
    m.entries.filter (fun e => cmp k e.1 == .eq) = (m.item? k).toList := by
  have hnd : (m.entries.filter (fun e => cmp k e.1 == .eq)).Nodup := m.nodup_entries.filter _
  cases he : m.item? k with
  | none => exact List.filter_eq_nil_iff.mpr (List.find?_eq_none.mp he)
  | some e =>
    refine List.perm_singleton.mp ((List.perm_ext_iff_of_nodup hnd (List.nodup_singleton e)).mpr ?_)
    intro x
    rw [List.mem_filter, beq_iff_eq, ← m.item?_eq_some_iff, he, List.mem_singleton, Option.some_inj,
      eq_comm]

/-- Sorted lists with the same value for every key have the same length, and at each
place keys that compare equal and one value. -/
theorem forall₂_of_find?_eq : ∀ {l l' : List (κ × ν)},
    l.Pairwise (fun a b => cmp a.1 b.1 = .lt) → l'.Pairwise (fun a b => cmp a.1 b.1 = .lt) →
    (∀ k, (l.find? fun e => cmp k e.1 == .eq).map Prod.snd =
      (l'.find? fun e => cmp k e.1 == .eq).map Prod.snd) →
    List.Forall₂ (fun a b => cmp a.1 b.1 = .eq ∧ a.2 = b.2) l l'
  | [], [], _, _, _ => .nil
  | [], b :: l', _, _, h => by
    have hb := h b.1
    simp [Std.ReflCmp.compare_self] at hb
  | a :: l, [], _, _, h => by
    have ha := h a.1
    simp [Std.ReflCmp.compare_self] at ha
  | a :: l, b :: l', hs, hs', h => by
    have hab : cmp a.1 b.1 = .eq := by
      -- a key below the first of a list has no value in it
      cases hc : cmp a.1 b.1 with
      | eq => rfl
      | lt =>
        have ha := h a.1
        rw [find?_eq_none_of_lt hc hs'] at ha
        simp [Std.ReflCmp.compare_self] at ha
      | gt =>
        have hb := h b.1
        rw [find?_eq_none_of_lt (Std.OrientedCmp.lt_of_gt hc) hs] at hb
        simp [Std.ReflCmp.compare_self] at hb
    have hval : a.2 = b.2 := by
      have ha := h a.1
      simpa [Std.ReflCmp.compare_self, hab] using ha
    refine .cons ⟨hab, hval⟩ (forall₂_of_find?_eq hs.of_cons hs'.of_cons fun k => ?_)
    by_cases hk : cmp k a.1 = .eq
    · rw [find?_eq_none_of_eq hk hs, find?_eq_none_of_eq (Std.TransCmp.eq_trans hk hab) hs']
    · have hkb : cmp k b.1 ≠ .eq := Std.TransCmp.congr_right hab ▸ hk
      simpa [hk, hkb] using h k

/-! ### Where equal keys are the same -/

section Lawful

variable [Std.LawfulEqCmp cmp]

/-- A map holds exactly the entries it finds. -/
theorem mem_entries_iff (m : OrderedMap κ cmp ν) {k : κ} {v : ν} :
    (k, v) ∈ m.entries ↔ m.find? k = some v := by
  rw [find?_eq_item?, Option.map_eq_some_iff]
  constructor
  · intro h
    exact ⟨(k, v), m.item?_of_mem h, rfl⟩
  · rintro ⟨⟨k', v'⟩, he, rfl⟩
    obtain ⟨hm, hk⟩ := m.item?_eq_some_iff.mp he
    rwa [Std.LawfulEqCmp.eq_of_compare hk]

/-- A map is what it finds for every key. -/
theorem ext_find? {m n : OrderedMap κ cmp ν} (h : ∀ k, m.find? k = n.find? k) : m = n := by
  refine ext_item? fun k => ?_
  have hitem : ∀ x : OrderedMap κ cmp ν, x.item? k = (x.find? k).map (fun v => (k, v)) := by
    intro x
    cases hx : x.item? k with
    | none => simp [find?_eq_item?, hx]
    | some e =>
      have hk : k = e.1 := Std.LawfulEqCmp.eq_of_compare (x.item?_eq_some_iff.mp hx).2
      rw [find?_eq_item?, hx, hk]
      rfl
  rw [hitem m, hitem n, h k]

theorem mem_keys_iff (m : OrderedMap κ cmp ν) {k : κ} : k ∈ m.keys ↔ ∃ v, m.find? k = some v := by
  simp only [keys, List.mem_map, Prod.exists, exists_and_right, exists_eq_right, m.mem_entries_iff]

theorem contains_iff (m : OrderedMap κ cmp ν) {k : κ} : m.contains k = true ↔ k ∈ m.keys := by
  rw [mem_keys_iff, contains, Option.isSome_iff_exists]

theorem find?_eq_none_iff (m : OrderedMap κ cmp ν) {k : κ} : m.find? k = none ↔ k ∉ m.keys := by
  rw [mem_keys_iff, Option.eq_none_iff_forall_ne_some, not_exists]

theorem find?_mapValues (f : κ → ν → ω) (m : OrderedMap κ cmp ν) (k : κ) :
    (m.mapValues f).find? k = (m.find? k).map (f k) := by
  rw [find?_eq_item?, find?_eq_item?, item?_mapValues]
  cases hx : m.item? k with
  | none => rfl
  | some e =>
    have hk : k = e.1 := Std.LawfulEqCmp.eq_of_compare (m.item?_eq_some_iff.mp hx).2
    simp [hk]

theorem mem_keys_filter (p : κ → ν → Bool) (m : OrderedMap κ cmp ν) {k : κ} :
    k ∈ (m.filter p).keys ↔ ∃ v, m.find? k = some v ∧ p k v = true := by
  simp only [mem_keys_iff, ← mem_entries_iff, filter, List.mem_filter]

variable [DecidableEq κ]

theorem find?_upsert_eq (m : OrderedMap κ cmp ν) (k k' : κ) (f : Option ν → ν) :
    (m.upsert k f).find? k' = if k' = k then some (f (m.find? k)) else m.find? k' := by
  rw [find?_upsert]
  simp only [Std.LawfulEqCmp.compare_eq_iff_eq]

theorem find?_modify (m : OrderedMap κ cmp ν) (k k' : κ) (f : ν → ν) :
    (m.modify k f).find? k' = if k' = k then (m.find? k).map f else m.find? k' := by
  rw [modify, find?_mapValues]
  by_cases h : k' = k
  · subst h
    simp
  · have h' : cmp k k' ≠ .eq := fun e => h (Std.LawfulEqCmp.eq_of_compare e).symm
    simp [h, h']

theorem find?_erase (m : OrderedMap κ cmp ν) (k k' : κ) :
    (m.erase k).find? k' = if k' = k then none else m.find? k' := by
  refine Option.ext fun v => ?_
  rw [← mem_entries_iff, erase, List.mem_filter]
  by_cases h : k' = k
  · subst h
    simp
  · have h' : cmp k k' ≠ .eq := fun e => h (Std.LawfulEqCmp.eq_of_compare e).symm
    simp [h, h', mem_entries_iff]

theorem mem_keys_upsert (m : OrderedMap κ cmp ν) {k k' : κ} {f : Option ν → ν} :
    k' ∈ (m.upsert k f).keys ↔ k' = k ∨ k' ∈ m.keys := by
  rw [mem_keys_iff, mem_keys_iff, find?_upsert_eq]
  by_cases h : k' = k <;> simp [h]

theorem mem_keys_erase (m : OrderedMap κ cmp ν) {k k' : κ} :
    k' ∈ (m.erase k).keys ↔ k' ≠ k ∧ k' ∈ m.keys := by
  rw [mem_keys_iff, mem_keys_iff, find?_erase]
  by_cases h : k' = k <;> simp [h]

end Lawful
end OrderedMap

/-! ### Sets -/

namespace OrderedSet

variable {κ : Type} {cmp : κ → κ → Ordering} [Std.TransCmp cmp] [Std.LawfulEqCmp cmp] [DecidableEq κ]

theorem mem_add (s : OrderedSet κ cmp) {k k' : κ} : k' ∈ (s.add k).elements ↔ k' = k ∨ k' ∈ s.elements :=
  OrderedMap.mem_keys_upsert s

theorem mem_erase (s : OrderedSet κ cmp) {k k' : κ} :
    k' ∈ OrderedSet.elements (s.erase k) ↔ k' ≠ k ∧ k' ∈ s.elements :=
  OrderedMap.mem_keys_erase s

end OrderedSet
end MapReduce
