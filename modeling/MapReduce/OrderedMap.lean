/-
# Finite maps in key order

An `OrderedMap` is a finite map whose entries are a list in strictly
increasing key order under a comparison `cmp`. Everything the planner prints
or hashes lists its maps in key order, so the order is part of the type: two
maps over an order with structural equality are equal as soon as they hold
the same entries.

`cmp` may identify keys that differ (a tuple order that ignores the sign of
zero does). `upsert` then keeps the key that is already there, so the first
representative of a class of equal keys is the one that is shown.

Key definitions: `OrderedMap`, `OrderedMap.find?`, `OrderedMap.upsert`,
`OrderedMap.insert`, `OrderedMap.erase`, `OrderedMap.filter`,
`OrderedMap.mapValues`, `OrderedSet`.
Key theorems: `OrderedMap.pairwise_upsertEntries`, `OrderedMap.contains_upsert_self`,
`OrderedMap.contains_upsert_of_contains`.
-/
namespace MapReduce

/-- A finite map, kept as its entries in strictly increasing key order. -/
structure OrderedMap (κ : Type) (cmp : κ → κ → Ordering) (ν : Type) where
  entries : List (κ × ν)
  sorted : entries.Pairwise (fun a b => cmp a.1 b.1 = .lt)

namespace OrderedMap

variable {κ ν ω : Type} {cmp : κ → κ → Ordering}

/-- The entries with `k` set to `f` of its old value. An entry that compares
equal to `k` keeps its own key. -/
def upsertEntries (cmp : κ → κ → Ordering) (k : κ) (f : Option ν → ν) : List (κ × ν) → List (κ × ν)
  | [] => [(k, f none)]
  | (k', v) :: rest =>
    match cmp k k' with
    | .lt => (k, f none) :: (k', v) :: rest
    | .eq => (k', f (some v)) :: rest
    | .gt => (k', v) :: upsertEntries cmp k f rest

/-- Every key after an update is the updated key or was there before. -/
theorem key_of_mem_upsertEntries {k : κ} {f : Option ν → ν} {p : κ × ν} : ∀ {l : List (κ × ν)},
    p ∈ upsertEntries cmp k f l → p.1 = k ∨ ∃ q ∈ l, q.1 = p.1
  | [], h => by simp only [upsertEntries, List.mem_singleton] at h; simp [h]
  | (k', v) :: rest, h => by
    rw [upsertEntries] at h
    split at h
    · rcases List.mem_cons.mp h with rfl | h
      · exact .inl rfl
      · exact .inr ⟨p, h, rfl⟩
    · rcases List.mem_cons.mp h with rfl | h
      · exact .inr ⟨(k', v), List.mem_cons_self, rfl⟩
      · exact .inr ⟨p, List.mem_cons_of_mem _ h, rfl⟩
    · rcases List.mem_cons.mp h with rfl | h
      · exact .inr ⟨(k', v), List.mem_cons_self, rfl⟩
      · rcases key_of_mem_upsertEntries h with h | ⟨q, hq, e⟩
        · exact .inl h
        · exact .inr ⟨q, List.mem_cons_of_mem _ hq, e⟩

/-- An update keeps the entries in strictly increasing key order. -/
theorem pairwise_upsertEntries [Std.TransCmp cmp] (k : κ) (f : Option ν → ν) : ∀ {l : List (κ × ν)},
    l.Pairwise (fun a b => cmp a.1 b.1 = .lt) →
    (upsertEntries cmp k f l).Pairwise (fun a b => cmp a.1 b.1 = .lt)
  | [], _ => by simp [upsertEntries]
  | (k', v) :: rest, h => by
    rw [List.pairwise_cons] at h
    rw [upsertEntries]
    split
    case h_1 hlt =>
      refine List.pairwise_cons.mpr ⟨fun q hq => ?_, List.pairwise_cons.mpr h⟩
      rcases List.mem_cons.mp hq with rfl | hq
      · exact hlt
      · exact Std.TransCmp.lt_trans hlt (h.1 q hq)
    case h_2 => exact List.pairwise_cons.mpr h
    case h_3 hgt =>
      refine List.pairwise_cons.mpr ⟨fun q hq => ?_, pairwise_upsertEntries k f h.2⟩
      rcases key_of_mem_upsertEntries hq with e | ⟨r, hr, e⟩
      · rw [e]; exact Std.OrientedCmp.lt_of_gt hgt
      · rw [← e]; exact h.1 r hr

/-- An update leaves every key where it was. -/
theorem exists_mem_upsertEntries {k : κ} {f : Option ν → ν} {p : κ × ν} : ∀ {l : List (κ × ν)},
    p ∈ l → ∃ q ∈ upsertEntries cmp k f l, q.1 = p.1
  | (k', v) :: rest, h => by
    rw [upsertEntries]
    split
    · exact ⟨p, List.mem_cons_of_mem _ h, rfl⟩
    · rcases List.mem_cons.mp h with rfl | h
      · exact ⟨(k', f (some v)), List.mem_cons_self, rfl⟩
      · exact ⟨p, List.mem_cons_of_mem _ h, rfl⟩
    · rcases List.mem_cons.mp h with rfl | h
      · exact ⟨(k', v), List.mem_cons_self, rfl⟩
      · obtain ⟨q, hq, e⟩ := exists_mem_upsertEntries h
        exact ⟨q, List.mem_cons_of_mem _ hq, e⟩

/-- After an update there is an entry for its key. -/
theorem exists_eq_upsertEntries [Std.TransCmp cmp] (k : κ) (f : Option ν → ν) : ∀ l : List (κ × ν),
    ∃ q ∈ upsertEntries cmp k f l, cmp k q.1 = .eq
  | [] => ⟨(k, f none), List.mem_cons_self, Std.ReflCmp.compare_self⟩
  | (k', v) :: rest => by
    rw [upsertEntries]
    split
    · exact ⟨(k, f none), List.mem_cons_self, Std.ReflCmp.compare_self⟩
    case h_2 heq => exact ⟨(k', f (some v)), List.mem_cons_self, heq⟩
    · obtain ⟨q, hq, e⟩ := exists_eq_upsertEntries k f rest
      exact ⟨q, List.mem_cons_of_mem _ hq, e⟩

/-- The map without entries. -/
def empty : OrderedMap κ cmp ν := ⟨[], List.Pairwise.nil⟩

instance : Inhabited (OrderedMap κ cmp ν) := ⟨empty⟩

/-- The value stored for `k`. -/
def find? (m : OrderedMap κ cmp ν) (k : κ) : Option ν :=
  (m.entries.find? (fun e => cmp k e.1 == .eq)).map (·.2)

/-- Whether `k` has a value. -/
def contains (m : OrderedMap κ cmp ν) (k : κ) : Bool :=
  (m.find? k).isSome

/-- Sets the value of `k` to `f` of the old one, keeping a key that is there. -/
def upsert [Std.TransCmp cmp] (m : OrderedMap κ cmp ν) (k : κ) (f : Option ν → ν) :
    OrderedMap κ cmp ν :=
  ⟨upsertEntries cmp k f m.entries, pairwise_upsertEntries k f m.sorted⟩

theorem contains_eq_true_iff (m : OrderedMap κ cmp ν) {k : κ} :
    m.contains k = true ↔ ∃ e ∈ m.entries, cmp k e.1 = .eq := by
  simp [contains, find?, List.find?_isSome]

theorem contains_upsert_self [Std.TransCmp cmp] (m : OrderedMap κ cmp ν) (k : κ) (f : Option ν → ν) :
    (m.upsert k f).contains k = true :=
  (contains_eq_true_iff _).mpr (exists_eq_upsertEntries k f m.entries)

theorem contains_upsert_of_contains [Std.TransCmp cmp] (m : OrderedMap κ cmp ν) {k k' : κ}
    {f : Option ν → ν} (h : m.contains k' = true) : (m.upsert k f).contains k' = true := by
  obtain ⟨e, he, heq⟩ := m.contains_eq_true_iff.mp h
  obtain ⟨q, hq, hqe⟩ : ∃ q ∈ upsertEntries cmp k f m.entries, q.1 = e.1 := exists_mem_upsertEntries he
  exact (contains_eq_true_iff _).mpr ⟨q, hq, hqe ▸ heq⟩

/-- Sets the value of `k`, keeping a key that is there. -/
def insert [Std.TransCmp cmp] (m : OrderedMap κ cmp ν) (k : κ) (v : ν) : OrderedMap κ cmp ν :=
  m.upsert k (fun _ => v)

/-- The map without `k`. -/
def erase (m : OrderedMap κ cmp ν) (k : κ) : OrderedMap κ cmp ν :=
  ⟨m.entries.filter (fun e => cmp k e.1 != .eq), m.sorted.filter _⟩

/-- The entries that pass a test. -/
def filter (p : κ → ν → Bool) (m : OrderedMap κ cmp ν) : OrderedMap κ cmp ν :=
  ⟨m.entries.filter (fun e => p e.1 e.2), m.sorted.filter _⟩

/-- Each value replaced by `f` of its key and value. -/
def mapValues (f : κ → ν → ω) (m : OrderedMap κ cmp ν) : OrderedMap κ cmp ω :=
  ⟨m.entries.map (fun e => (e.1, f e.1 e.2)), List.pairwise_map.mpr m.sorted⟩

/-- The value of `k`, if there is one, replaced by `f` of it. -/
def modify (m : OrderedMap κ cmp ν) (k : κ) (f : ν → ν) : OrderedMap κ cmp ν :=
  m.mapValues (fun k' v => if cmp k k' = .eq then f v else v)

/-- The keys, in order. -/
def keys (m : OrderedMap κ cmp ν) : List κ :=
  m.entries.map (·.1)

/-- The values, in key order. -/
def values (m : OrderedMap κ cmp ν) : List ν :=
  m.entries.map (·.2)

/-- The number of keys. -/
def size (m : OrderedMap κ cmp ν) : Nat :=
  m.entries.length

/-- Whether there is no key. -/
def isEmpty (m : OrderedMap κ cmp ν) : Bool :=
  m.entries.isEmpty

/-- The map of a list of entries, a later one replacing an earlier value. -/
def ofList [Std.TransCmp cmp] (l : List (κ × ν)) : OrderedMap κ cmp ν :=
  l.foldl (fun m e => m.insert e.1 e.2) empty

/-- Maps with the same entries are equal. -/
@[ext]
theorem ext {m n : OrderedMap κ cmp ν} (h : m.entries = n.entries) : m = n := by
  cases m; cases n; cases h; rfl

instance [DecidableEq κ] [DecidableEq ν] : DecidableEq (OrderedMap κ cmp ν) :=
  fun _ _ => decidable_of_iff _ ⟨ext, congrArg entries⟩

end OrderedMap

/-- A finite set, kept as its elements in strictly increasing order. -/
abbrev OrderedSet (κ : Type) (cmp : κ → κ → Ordering) := OrderedMap κ cmp Unit

namespace OrderedSet

variable {κ : Type} {cmp : κ → κ → Ordering}

/-- The set with `k` added. -/
def add [Std.TransCmp cmp] (s : OrderedSet κ cmp) (k : κ) : OrderedSet κ cmp :=
  OrderedMap.insert s k ()

/-- The elements, in order. -/
def elements (s : OrderedSet κ cmp) : List κ :=
  OrderedMap.keys s

end OrderedSet

end MapReduce
