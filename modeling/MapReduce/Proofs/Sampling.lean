/-
# Samples of rows

A sample is known by the rows that it counts (`KeySample.Describes`): for each key how
many of them have it, under the first of their keys, and how many rows and bytes they
are. Recording a row adds it to those rows (`Describes.record`), and merging two samples
appends them (`Describes.merge`), since what two samples hold for a key is added up
(`item?_merge`).

Where every row was recorded, the estimates are the counts (`Describes.estimate_eq`).

A sampler keeps the rows at the positions that its stride divides (`describes_sampled`).
If the stride divides the length of a list, the positions after the list are counted as
if they started anew (`kept_append`). So the samples of two inputs merge into that of
both, one after the other.

Merged either way, two samples count the same for every key, though not always under the
same one of the keys that compare equal: `KeySample.Same` looks past that.

Key definitions: `keyCount`, `KeySample.itemIn`, `KeySample.Describes`, `kept`, `sampled`,
`KeySample.Same`.
Key theorems: `KeySample.item?_merge`, `describes_sampled`, `kept_append`,
`merge_sampled_append`.
-/
import MapReduce.Proofs.Gather
import MapReduce.Skew.Sample
import MapReduce.Task

namespace MapReduce

/-- The number of rows with a key. -/
def keyCount (rows : List Row) (key : Tuple) : Nat := rows.countP (fun r => r.1.sameKey key)

attribute [ext] KeySample

namespace KeySample

variable {s t : KeySample} {rows rows' : List Row} {n m : Nat}

/-! ### What is counted for a key -/

/-- What two samples count for a key, together. It stays under the first key. -/
def addItems : Option (Tuple × Nat) → Option (Tuple × Nat) → Option (Tuple × Nat) :=
  Option.merge (fun a b => (a.1, a.2 + b.2))

theorem addItems_none (a : Option (Tuple × Nat)) : addItems a none = a := by
  cases a <;> rfl

theorem addItems_assoc (a b c : Option (Tuple × Nat)) :
    addItems (addItems a b) c = addItems a (addItems b c) := by
  cases a <;> cases b <;> cases c <;> simp [addItems, Option.merge, Nat.add_assoc]

/-- The numbers add up either way. -/
theorem map_snd_addItems_comm (a b : Option (Tuple × Nat)) :
    (addItems a b).map Prod.snd = (addItems b a).map Prod.snd := by
  cases a <;> cases b <;> simp [addItems, Option.merge, Nat.add_comm]

theorem item?_addCount (counts : TupleMap Nat) (key k : Tuple) (n : Nat) :
    (addCount counts key n).item? k =
      if k.compare key = .eq then addItems (counts.item? k) (some (key, n)) else counts.item? k := by
  rw [addCount, OrderedMap.item?_upsert]
  split
  · rename_i hk
    rw [counts.item?_congr hk]
    cases counts.item? key <;> simp [OrderedMap.updated, addItems, Option.merge]
  · rfl

/-- Entries of different keys are added to the counts one by one. -/
theorem item?_foldl_addCount (k : Tuple) : ∀ {es : List (Tuple × Nat)} (counts : TupleMap Nat),
    es.Pairwise (fun a b => a.1.compare b.1 = .lt) →
    (es.foldl (fun c e => addCount c e.1 e.2) counts).item? k =
      addItems (counts.item? k) (es.find? fun e => k.compare e.1 == .eq)
  | [], counts, _ => (addItems_none _).symm
  | e :: es, counts, hs => by
    rw [List.foldl_cons, item?_foldl_addCount k (addCount counts e.1 e.2) hs.of_cons, item?_addCount]
    by_cases hk : k.compare e.1 = .eq
    · rw [if_pos hk, OrderedMap.find?_eq_none_of_eq hk hs, addItems_none]
      simp [hk]
    · rw [if_neg hk]
      simp [hk]

/-- **Merged samples add up for every key.** -/
theorem item?_merge (s t : KeySample) (k : Tuple) :
    (s.merge t).counts.item? k = addItems (s.counts.item? k) (t.counts.item? k) :=
  item?_foldl_addCount k s.counts t.counts.sorted

/-- What rows count for a key: how many have it, under the key of the first that
does. -/
def itemIn (rows : List Row) (k : Tuple) : Option (Tuple × Nat) :=
  (rows.find? fun r => r.1.sameKey k).map fun r => (r.1, keyCount rows k)

theorem keyCount_eq_zero_iff {k : Tuple} :
    keyCount rows k = 0 ↔ (rows.find? fun r => r.1.sameKey k) = none := by
  rw [keyCount, List.countP_eq_zero, List.find?_eq_none]

theorem itemIn_append (rows rows' : List Row) (k : Tuple) :
    itemIn (rows ++ rows') k = addItems (itemIn rows k) (itemIn rows' k) := by
  have hcount : keyCount (rows ++ rows') k = keyCount rows k + keyCount rows' k := List.countP_append
  unfold itemIn
  rw [hcount, List.find?_append]
  cases hr : rows.find? fun r => r.1.sameKey k with
  | none =>
    rw [keyCount_eq_zero_iff.mpr hr, Nat.zero_add, Option.none_or]
    cases rows'.find? fun r => r.1.sameKey k <;> rfl
  | some r =>
    cases hr' : rows'.find? fun r => r.1.sameKey k with
    | none =>
      rw [keyCount_eq_zero_iff.mpr hr', Nat.add_zero]
      rfl
    | some r' => rfl

theorem itemIn_singleton (row : Row) (k : Tuple) :
    itemIn [row] k = if k.compare row.1 = .eq then some (row.1, 1) else none := by
  have hsame : row.1.sameKey k = true ↔ k.compare row.1 = .eq := by
    rw [Tuple.sameKey_comm, Tuple.sameKey_iff]
  by_cases hk : k.compare row.1 = .eq
  · simp [itemIn, keyCount, hsame.mpr hk, hk]
  · simp [itemIn, mt hsame.mp hk, hk]

/-! ### Samples by the rows they count -/

/-- The sample of `total` rows that counts `rows` of them. -/
structure Describes (s : KeySample) (rows : List Row) (total : Nat) : Prop where
  items : ∀ k, s.counts.item? k = itemIn rows k
  sampledRows : s.sampledRows = rows.length
  sampledBytes : s.sampledBytes = (rows.map fun r => r.2.sizeEstimate).sum
  totalRows : s.totalRows = total

theorem describes_empty : empty.Describes [] 0 := ⟨fun _ => rfl, rfl, rfl, rfl⟩

namespace Describes

/-- The rows leave nothing open. -/
theorem unique (h : s.Describes rows n) (h' : t.Describes rows n) : s = t := by
  apply KeySample.ext
  · exact OrderedMap.ext_item? fun k => (h.items k).trans (h'.items k).symm
  · exact h.sampledRows.trans h'.sampledRows.symm
  · exact h.sampledBytes.trans h'.sampledBytes.symm
  · exact h.totalRows.trans h'.totalRows.symm

theorem find? (h : s.Describes rows n) (k : Tuple) :
    s.counts.find? k = if keyCount rows k = 0 then none else some (keyCount rows k) := by
  rw [OrderedMap.find?_eq_item?, h.items, itemIn]
  split
  · rename_i h0
    rw [keyCount_eq_zero_iff.mp h0]
    rfl
  · rename_i h0
    obtain ⟨r, hr⟩ := Option.ne_none_iff_exists'.mp (mt keyCount_eq_zero_iff.mpr h0)
    rw [hr]
    rfl

/-- A row that is seen only. -/
theorem pass (h : s.Describes rows n) : { s with totalRows := s.totalRows + 1 }.Describes rows (n + 1) :=
  ⟨h.items, h.sampledRows, h.sampledBytes, congrArg (· + 1) h.totalRows⟩

/-- A row that is recorded. -/
theorem record (h : s.Describes rows n) (row : Row) :
    (s.record row.1 row.2.sizeEstimate).Describes (rows ++ [row]) n := by
  refine ⟨fun k => ?_, ?_, ?_, h.totalRows⟩
  · rw [KeySample.record, item?_addCount, itemIn_append, itemIn_singleton, h.items]
    split
    · rfl
    · exact (addItems_none _).symm
  · rw [List.length_append, ← h.sampledRows]
    rfl
  · rw [List.map_append, List.sum_append, ← h.sampledBytes]
    rfl

theorem merge (h : s.Describes rows n) (h' : t.Describes rows' m) :
    (s.merge t).Describes (rows ++ rows') (n + m) := by
  refine ⟨fun k => ?_, ?_, ?_, ?_⟩
  · rw [item?_merge, itemIn_append, h.items, h'.items]
  · rw [List.length_append, ← h.sampledRows, ← h'.sampledRows]
    rfl
  · rw [List.map_append, List.sum_append, ← h.sampledBytes, ← h'.sampledBytes]
    rfl
  · rw [← h.totalRows, ← h'.totalRows]
    rfl

end Describes

/-! ### Rows estimated -/

theorem ceilDiv_eq (a b : Nat) : ceilDiv a b = a ⌈/⌉ b := by
  rw [ceilDiv, Nat.ceilDiv_eq_add_pred_div]
  cases b with
  | zero => rw [Nat.div_zero, Nat.div_zero]
  | succ b => rfl

theorem ceilDiv_le_iff {a b q : Nat} (hb : 0 < b) : ceilDiv a b ≤ q ↔ a ≤ q * b := by
  rw [ceilDiv_eq, ceilDiv_le_iff_le_mul hb, Nat.mul_comm]

/-- One reducer holds as many rows as its budget. -/
theorem ceilDiv_le_one_iff {rows budget : Nat} (hb : 0 < budget) : ceilDiv rows budget ≤ 1 ↔ rows ≤ budget := by
  rw [ceilDiv_le_iff hb, Nat.one_mul]

theorem one_lt_ceilDiv_iff {rows budget : Nat} (hb : 0 < budget) : 1 < ceilDiv rows budget ↔ budget < rows :=
  lt_iff_lt_of_le_iff_le (ceilDiv_le_one_iff hb)

theorem ceilDiv_eq_div_add {a b : Nat} (hb : 0 < b) : ceilDiv a b = a / b + if a % b = 0 then 0 else 1 := by
  have hlt := Nat.mod_lt a hb
  have hround : (a % b + (b - 1)) / b = if a % b = 0 then 0 else 1 := by
    split
    · exact Nat.div_eq_of_lt (by omega)
    · exact Nat.div_eq_of_lt_le (by omega) (by omega)
  calc ceilDiv a b = (b * (a / b) + (a % b + (b - 1))) / b := by
        rw [ceilDiv, ← Nat.add_assoc, Nat.div_add_mod]
    _ = a / b + (a % b + (b - 1)) / b := Nat.mul_add_div hb _ _
    _ = a / b + if a % b = 0 then 0 else 1 := by rw [hround]

/-- If every row was recorded, the rows of a key are as many as were counted. -/
theorem Describes.estimate_eq (h : s.Describes rows rows.length) (k : Tuple) :
    s.estimate k = keyCount rows k := by
  rw [estimate, h.find?]
  by_cases h0 : keyCount rows k = 0
  · rw [if_pos h0, h0]
    rfl
  · have hle : keyCount rows k ≤ rows.length := List.countP_le_length
    have hpos : 0 < rows.length := by omega
    rw [if_neg h0, Option.map_some, Option.getD_some, scale, h.sampledRows, h.totalRows, if_neg (by omega),
      ceilDiv_eq, Nat.mul_comm]
    exact smul_ceilDiv hpos _

end KeySample

/-! ### Samplers -/

/-- The rows at the positions that `stride` divides, the first of which is `n`. -/
def keptFrom (stride n : Nat) (rows : List Row) : List Row :=
  ((rows.zipIdx n).filter fun r => stride ∣ r.2).map Prod.fst

/-- The rows at the positions that the stride divides. Zero stands for one. -/
def kept (stride : Nat) (rows : List Row) : List Row := keptFrom (max 1 stride) 0 rows

/-- The sample of a sampler that has seen the rows. -/
def sampled (stride : Nat) (rows : List Row) : KeySample :=
  ((Sampler.create stride).observeAll rows).sample

section

variable {stride n : Nat} {rows : List Row} {s : Sampler}

theorem keptFrom_cons (row : Row) (rows : List Row) : keptFrom stride n (row :: rows) =
    (if stride ∣ n then [row] else []) ++ keptFrom stride (n + 1) rows := by
  by_cases h : stride ∣ n <;> simp [keptFrom, List.zipIdx_cons, h]

theorem keptFrom_append (a b : List Row) :
    keptFrom stride n (a ++ b) = keptFrom stride n a ++ keptFrom stride (n + a.length) b := by
  simp [keptFrom, List.zipIdx_append]

/-- Positions that differ by a multiple of the stride are kept alike. -/
theorem keptFrom_add {m : Nat} (hm : stride ∣ m) : ∀ (rows : List Row) (n : Nat),
    keptFrom stride (m + n) rows = keptFrom stride n rows
  | [], _ => rfl
  | row :: rows, n => by
    rw [keptFrom_cons, keptFrom_cons, Nat.add_assoc, keptFrom_add hm rows (n + 1)]
    simp only [Nat.dvd_add_right hm]

theorem kept_sublist (stride : Nat) (rows : List Row) : (kept stride rows).Sublist rows := by
  have h := (List.filter_sublist (p := fun r => max 1 stride ∣ r.2) (l := rows.zipIdx)).map Prod.fst
  rwa [List.zipIdx_map_fst] at h

/-- The first row is kept. -/
theorem eq_nil_of_kept_eq_nil (h : kept stride rows = []) : rows = [] := by
  cases rows with
  | nil => rfl
  | cons row rows =>
    rw [kept, keptFrom_cons, if_pos (Nat.dvd_zero _)] at h
    cases h

/-- Every row is kept by a stride of one. -/
theorem kept_one (rows : List Row) : kept 1 rows = rows := by
  simp [kept, keptFrom]

/-- After a multiple of the stride positions count as if they started anew. -/
theorem kept_append {a : List Row} (h : max 1 stride ∣ a.length) (b : List Row) :
    kept stride (a ++ b) = kept stride a ++ kept stride b := by
  rw [kept, keptFrom_append, Nat.zero_add]
  exact congrArg _ (keptFrom_add h b 0)

/-- A sampler records a row if the stride divides its position. -/
theorem describes_observe (h : s.sample.Describes rows n) (row : Row) :
    (s.observe row.1 row.2).sample.Describes
      (rows ++ if s.stride ∣ s.seen then [row] else []) (n + 1) := by
  unfold Sampler.observe
  simp only [← Nat.dvd_iff_mod_eq_zero]
  split
  · exact h.pass.record row
  · rw [List.append_nil]
    exact h.pass

/-- What a sampler has recorded after more rows. -/
theorem describes_observeAll : ∀ (more : List Row) {rows : List Row} {n : Nat} {s : Sampler},
    s.sample.Describes rows n →
    (s.observeAll more).sample.Describes (rows ++ keptFrom s.stride s.seen more) (n + more.length)
  | [], rows, n, s, h => by
    simpa [keptFrom, Sampler.observeAll] using h
  | row :: more, rows, n, s, h => by
    have ih := describes_observeAll more (describes_observe h row)
    rw [List.append_assoc, Nat.add_assoc, Nat.add_comm 1] at ih
    rw [keptFrom_cons]
    exact ih

/-- **A sample counts the rows at the positions that the stride divides.** -/
theorem describes_sampled (stride : Nat) (rows : List Row) :
    (sampled stride rows).Describes (kept stride rows) rows.length := by
  have h := describes_observeAll rows (s := Sampler.create stride) KeySample.describes_empty
  rwa [List.nil_append, Nat.zero_add] at h

end

/-! ### Samples merged -/

namespace KeySample

/-- Samples are equal if their entries are, one by one; keys that compare equal are one
key. -/
structure Same (s t : KeySample) : Prop where
  counts : List.Forall₂ (fun a b => a.1.sameKey b.1 = true ∧ a.2 = b.2) s.counts.entries t.counts.entries
  sampledRows : s.sampledRows = t.sampledRows
  sampledBytes : s.sampledBytes = t.sampledBytes
  totalRows : s.totalRows = t.totalRows

theorem same_merge_comm (s t : KeySample) : (s.merge t).Same (t.merge s) := by
  refine ⟨?_, Nat.add_comm _ _, Nat.add_comm _ _, Nat.add_comm _ _⟩
  have hfind : ∀ k, (s.merge t).counts.find? k = (t.merge s).counts.find? k := by
    intro k
    rw [OrderedMap.find?_eq_item?, OrderedMap.find?_eq_item?, item?_merge, item?_merge]
    exact map_snd_addItems_comm _ _
  refine (OrderedMap.forall₂_of_find?_eq (s.merge t).counts.sorted (t.merge s).counts.sorted hfind).imp ?_
  rintro a b ⟨hkey, hcount⟩
  exact ⟨Tuple.sameKey_iff.mpr hkey, hcount⟩

-- of two zeros the one that came first stays
example : ∃ s t : KeySample, s.merge t ≠ t.merge s :=
  ⟨sampled 1 [(⟨[.double (Ieee.zero false)]⟩, ⟨[]⟩)], sampled 1 [(⟨[.double (Ieee.zero true)]⟩, ⟨[]⟩)],
    by decide⟩

theorem merge_assoc (s t u : KeySample) : (s.merge t).merge u = s.merge (t.merge u) := by
  apply KeySample.ext
  · refine OrderedMap.ext_item? fun k => ?_
    rw [item?_merge, item?_merge, item?_merge, item?_merge, addItems_assoc]
  · exact Nat.add_assoc _ _ _
  · exact Nat.add_assoc _ _ _
  · exact Nat.add_assoc _ _ _

/-- **Sampling and merging commute with concatenation.** A sample counts exactly the
rows at the positions that the stride divides. If the stride divides the length of the
first input, the samples of two inputs merge into the sample of one after the other.
Merging any samples is associative, and commutative up to the choice among keys that
compare equal. -/
theorem merge_sampled_append (stride : Nat) (a b : List Row) (s t u : KeySample) :
    (sampled stride a).Describes (kept stride a) a.length ∧
      (max 1 stride ∣ a.length → (sampled stride a).merge (sampled stride b) = sampled stride (a ++ b)) ∧
      (s.merge t).Same (t.merge s) ∧ (s.merge t).merge u = s.merge (t.merge u) := by
  refine ⟨describes_sampled stride a, fun h => ?_, same_merge_comm s t, merge_assoc s t u⟩
  have hmerged := (describes_sampled stride a).merge (describes_sampled stride b)
  rw [← kept_append h, ← List.length_append] at hmerged
  exact hmerged.unique (describes_sampled stride (a ++ b))

/-- Both zeros in the first input and one of them again in the second, every second row
recorded. -/
theorem merge_sampled_append_zeros :
    let a : List Row := [(⟨[.double (Ieee.zero true)]⟩, ⟨[]⟩), (⟨[.double (Ieee.zero false)]⟩, ⟨[]⟩)]
    let b : List Row := [(⟨[.double (Ieee.zero false)]⟩, ⟨[]⟩)]
    max 1 2 ∣ a.length ∧ (sampled 2 a).merge (sampled 2 b) = sampled 2 (a ++ b) :=
  ⟨by decide, (merge_sampled_append 2 _ _ empty empty empty).2.1 (by decide)⟩

end KeySample
end MapReduce
