/-
# Estimates from samples

A key's share of a sample is scaled up to the rows of the whole input, and rounded up. The
samples are those of samplers, each with a stride of its own, merged in any order
(`SampleTree`). Recording a row adds one to the counts and merging adds the counts up
(`KeySample.AddsUp`), so no count is above the number of recorded rows and no estimate above
the number of all rows (`KeySample.scale_le_totalRows`). A sampler records its first row,
so rows are recorded wherever there are any. Each estimate is rounded up by less than one
row, so together they miss the number of rows by less than one per key
(`KeySample.sum_scale_bounds`).

Counts are words of 64 bits. Scaling multiplies and divides in 128 bits and cuts the
result back to 64 (`KeySample.scaleWord?`). As estimates stay below the number of rows,
nothing is cut off (`KeySample.comes_scaleWord`).

Key definitions: `SampleTree`, `KeySample.AddsUp`, `KeySample.scaleWord?`,
`KeySample.SoundEstimates`.
Key theorems: `KeySample.scale_le_totalRows`, `KeySample.sum_scale_bounds`,
`KeySample.comes_scaleWord`, `SampleTree.soundEstimates_sample`.
-/
import MapReduce.Proofs.Sampling
import MapReduce.Proofs.WordRouting

namespace MapReduce

/-! ### Counts add up -/

namespace KeySample

variable {s t : KeySample} {c : Nat}

/-- The counts are those of the recorded rows. -/
def AddsUp (s : KeySample) : Prop := s.counts.values.sum = s.sampledRows

theorem sum_upsertEntries (key : Tuple) (n : Nat) : ∀ l : List (Tuple × Nat),
    ((OrderedMap.upsertEntries Tuple.compare key (fun old => old.getD 0 + n) l).map Prod.snd).sum =
      (l.map Prod.snd).sum + n
  | [] => by simp [OrderedMap.upsertEntries]
  | (k, v) :: l => by
    have ih := sum_upsertEntries key n l
    unfold OrderedMap.upsertEntries
    cases key.compare k with
    | lt =>
      simp only [List.map_cons, List.sum_cons, Option.getD_none]
      omega
    | eq =>
      simp only [List.map_cons, List.sum_cons, Option.getD_some]
      omega
    | gt =>
      simp only [List.map_cons, List.sum_cons, ih]
      omega

theorem sum_addCount (counts : TupleMap Nat) (key : Tuple) (n : Nat) :
    (addCount counts key n).values.sum = counts.values.sum + n :=
  sum_upsertEntries key n counts.entries

theorem sum_foldl_addCount : ∀ (es : List (Tuple × Nat)) (counts : TupleMap Nat),
    (es.foldl (fun c e => addCount c e.1 e.2) counts).values.sum = counts.values.sum + (es.map Prod.snd).sum
  | [], _ => rfl
  | e :: es, counts => by
    rw [List.foldl_cons, sum_foldl_addCount es, sum_addCount, List.map_cons, List.sum_cons, Nat.add_assoc]

namespace AddsUp

theorem record (h : s.AddsUp) (key : Tuple) (bytes : Nat) : (s.record key bytes).AddsUp :=
  (sum_addCount s.counts key 1).trans (congrArg (· + 1) h)

theorem merge (h : s.AddsUp) (h' : t.AddsUp) : (s.merge t).AddsUp :=
  (sum_foldl_addCount t.counts.entries s.counts).trans (congrArg₂ (· + ·) h h')

theorem observe {s : Sampler} (h : s.sample.AddsUp) (key row : Tuple) : (s.observe key row).sample.AddsUp := by
  have hseen : { s.sample with totalRows := s.sample.totalRows + 1 }.AddsUp := h
  unfold Sampler.observe
  dsimp only
  split
  · exact hseen.record key row.sizeEstimate
  · exact hseen

theorem observeAll : ∀ (rows : List Row) {s : Sampler}, s.sample.AddsUp → (s.observeAll rows).sample.AddsUp
  | [], _, h => h
  | row :: rows, _, h => observeAll rows (h.observe row.1 row.2)

theorem count_le (h : s.AddsUp) (hc : c ∈ s.counts.values) : c ≤ s.sampledRows :=
  h ▸ List.le_sum_of_mem hc

end AddsUp

theorem addsUp_sampled (stride : Nat) (rows : List Row) : (sampled stride rows).AddsUp :=
  AddsUp.observeAll rows rfl

/-! ### Scaling up -/

theorem scale_le_totalRows (hc : c ≤ s.sampledRows) : s.scale c ≤ s.totalRows := by
  unfold scale
  split
  · exact Nat.zero_le _
  · rw [ceilDiv_le_iff (by omega), Nat.mul_comm s.totalRows]
    exact Nat.mul_le_mul_right _ hc

/-- An estimate is rounded up by less than one row. -/
theorem scale_bounds (hs : 0 < s.sampledRows) (c : Nat) :
    c * s.totalRows ≤ s.scale c * s.sampledRows ∧
      s.scale c * s.sampledRows ≤ c * s.totalRows + s.sampledRows := by
  rw [scale, if_neg (by omega)]
  constructor
  · exact (ceilDiv_le_iff hs).mp (Nat.le_refl _)
  · calc ceilDiv (c * s.totalRows) s.sampledRows * s.sampledRows
        ≤ c * s.totalRows + (s.sampledRows - 1) := Nat.div_mul_le_self _ _
      _ ≤ c * s.totalRows + s.sampledRows := by omega

/-- Together the estimates are rounded up by less than one row per count. -/
theorem sum_scale_bounds (hs : 0 < s.sampledRows) : ∀ cs : List Nat,
    cs.sum * s.totalRows ≤ (cs.map s.scale).sum * s.sampledRows ∧
      (cs.map s.scale).sum * s.sampledRows ≤ cs.sum * s.totalRows + cs.length * s.sampledRows
  | [] => by simp
  | c :: cs => by
    obtain ⟨hlow, hhigh⟩ := scale_bounds hs c
    obtain ⟨ihlow, ihhigh⟩ := sum_scale_bounds hs cs
    simp only [List.map_cons, List.sum_cons, List.length_cons, Nat.add_mul, Nat.one_mul]
    omega

/-- The estimates of the keys, in order, are the counts scaled up. -/
theorem map_estimate_keys (s : KeySample) : s.counts.keys.map s.estimate = s.counts.values.map s.scale := by
  rw [OrderedMap.keys, OrderedMap.values, List.map_map, List.map_map]
  refine List.map_congr_left fun e he => ?_
  have hfind : s.counts.find? e.1 = some e.2 := by
    rw [OrderedMap.find?_eq_item?, s.counts.item?_of_mem he, Option.map_some]
  rw [Function.comp_apply, estimate, hfind]
  rfl

namespace AddsUp

theorem estimate_le (h : s.AddsUp) (k : Tuple) : s.estimate k ≤ s.totalRows := by
  unfold estimate
  cases hfind : s.counts.find? k with
  | none => exact Nat.zero_le _
  | some c =>
    obtain ⟨e, hitem, rfl⟩ := Option.map_eq_some_iff.mp hfind
    have he : e ∈ s.counts.entries := (s.counts.item?_eq_some_iff.mp hitem).1
    exact scale_le_totalRows (h.count_le (List.mem_map_of_mem he))

/-- Over all keys the estimates add up to the rows, and at most one more per key. -/
theorem sum_estimates (h : s.AddsUp) (hempty : s.sampledRows = 0 → s.totalRows = 0) :
    s.totalRows ≤ (s.counts.keys.map s.estimate).sum ∧
      (s.counts.keys.map s.estimate).sum ≤ s.totalRows + s.counts.size := by
  rw [map_estimate_keys]
  rcases Nat.eq_zero_or_pos s.sampledRows with h0 | hpos
  · have hscale : s.scale = fun _ => 0 := funext fun c => if_pos h0
    simp [hempty h0, hscale]
  · obtain ⟨hlow, hhigh⟩ := sum_scale_bounds hpos s.counts.values
    have hsum : s.counts.values.sum = s.sampledRows := h
    have hlength : s.counts.values.length = s.counts.size := List.length_map _
    rw [hsum, Nat.mul_comm s.sampledRows] at hlow hhigh
    rw [hlength, ← Nat.add_mul] at hhigh
    exact ⟨Nat.le_of_mul_le_mul_right hlow hpos, Nat.le_of_mul_le_mul_right hhigh hpos⟩

end AddsUp
end KeySample

/-! ### Scaling in words -/

namespace Words

/-- A product that fits. -/
def product? {w : Nat} (a b : BitVec w) : Option (BitVec w) :=
  if a.toNat * b.toNat < 2 ^ w then some (a * b) else none

/-- A quotient, rounded up; there is none by zero. -/
def ceilQuotient? {w : Nat} (a b : BitVec w) : Option (BitVec w) :=
  if b = 0 then none else if a % b = 0 then some (a / b) else sum? (a / b) 1

/-- A word cut to another width, if no bit is lost. -/
def cut? {w : Nat} (v : Nat) (a : BitVec w) : Option (BitVec v) :=
  if a.toNat < 2 ^ v then some (a.setWidth v) else none

theorem comes_product {w : Nat} {a b : BitVec w} (h : a.toNat * b.toNat < 2 ^ w) :
    Comes (product? a b) (a.toNat * b.toNat) := by
  rw [product?, if_pos h]
  exact comes_some (BitVec.toNat_mul_of_lt h)

theorem comes_ceilQuotient {a b : BitVec 128} (hb : 0 < b.toNat) :
    Comes (ceilQuotient? a b) (KeySample.ceilDiv a.toNat b.toNat) := by
  have hne : b ≠ 0 := by
    rintro rfl
    simp at hb
  have hmod : a % b = 0 ↔ a.toNat % b.toNat = 0 := by
    rw [← BitVec.toNat_umod]
    exact BitVec.toNat_inj.symm
  rw [ceilQuotient?, if_neg hne, KeySample.ceilDiv_eq_div_add hb]
  by_cases h : a % b = 0
  · rw [if_pos h, if_pos (hmod.mp h)]
    exact comes_some BitVec.toNat_udiv
  · rw [if_neg h, if_neg (mt hmod.mpr h)]
    -- a quotient with a remainder is below the dividend
    have hlt : a.toNat / b.toNat + 1 < 2 ^ 128 := by
      have hrem : 0 < a.toNat % b.toNat := Nat.pos_of_ne_zero (mt hmod.mpr h)
      have hle : a.toNat / b.toNat ≤ b.toNat * (a.toNat / b.toNat) := Nat.le_mul_of_pos_left _ hb
      have hsplit := Nat.div_add_mod a.toNat b.toNat
      have := a.isLt
      omega
    have hsum := comes_sum (a := a / b) (b := 1) (by rwa [BitVec.toNat_udiv])
    rwa [BitVec.toNat_udiv] at hsum

theorem comes_cut {w v : Nat} {a : BitVec w} (h : a.toNat < 2 ^ v) : Comes (cut? v a) a.toNat := by
  rw [cut?, if_pos h]
  exact comes_some (toNat_setWidth_of_lt h)

end Words

open Words

namespace KeySample

/-- What `count` rows of a sample stand for, in words. -/
def scaleWord? (sampled total count : BitVec 64) : Option (BitVec 64) :=
  if sampled = 0 then some 0
  else do
    let product ← product? (count.setWidth 128) (total.setWidth 128)
    let quotient ← ceilQuotient? product (sampled.setWidth 128)
    cut? 64 quotient

/-- **No step of scaling goes wrong.** -/
theorem comes_scaleWord {s : KeySample} {c : Nat} (hc : c ≤ s.sampledRows) (hs : s.sampledRows ≤ s.totalRows)
    (ht : s.totalRows < 2 ^ 64) :
    Comes (scaleWord? (.ofNat 64 s.sampledRows) (.ofNat 64 s.totalRows) (.ofNat 64 c)) (s.scale c) := by
  have hword : ∀ n, n ≤ s.totalRows → (BitVec.ofNat 64 n).toNat = n := by
    intro n hn
    rw [BitVec.toNat_ofNat, Nat.mod_eq_of_lt (by omega)]
  have hwide : ∀ n, n ≤ s.totalRows → ((BitVec.ofNat 64 n).setWidth 128).toNat = n := by
    intro n hn
    rw [toNat_setWidth_of_lt (by rw [hword n hn]; omega), hword n hn]
  unfold scaleWord? scale
  by_cases h0 : s.sampledRows = 0
  · rw [if_pos h0, if_pos (by rw [h0]; rfl)]
    exact comes_some rfl
  · have hne : BitVec.ofNat 64 s.sampledRows ≠ 0 := by
      intro h
      have := congrArg BitVec.toNat h
      rw [hword _ hs] at this
      exact h0 this
    have hproduct : c * s.totalRows < 2 ^ 128 := by
      calc c * s.totalRows < 2 ^ 64 * 2 ^ 64 := Nat.mul_lt_mul'' (by omega) ht
        _ = 2 ^ 128 := by norm_num
    have hfits : ceilDiv (c * s.totalRows) s.sampledRows < 2 ^ 64 := by
      have hle := scale_le_totalRows hc
      rw [scale, if_neg h0] at hle
      omega
    rw [if_neg h0, if_neg hne]
    refine (comes_product ?_).bind fun product hp => ?_
    · rwa [hwide c (by omega), hwide _ (Nat.le_refl _)]
    rw [hwide c (by omega), hwide _ (Nat.le_refl _)] at hp
    refine (comes_ceilQuotient ?_).bind fun quotient hq => ?_
    · rw [hwide _ hs]
      omega
    rw [hwide _ hs, hp] at hq
    rw [← hq] at hfits ⊢
    exact comes_cut hfits

/-- What holds of the estimates from a sample of `rows`. -/
structure SoundEstimates (s : KeySample) (rows : List Row) : Prop where
  totalRows : s.totalRows = rows.length
  /-- The counts are those of the recorded rows, which are some of all rows. -/
  counts : s.counts.values.sum = s.sampledRows ∧ s.sampledRows ≤ s.totalRows
  /-- Rows are recorded if there are any. -/
  recorded : s.sampledRows = 0 → s.totalRows = 0
  /-- A count scaled up is a word, and is computed in words without loss. -/
  words : ∀ c ∈ s.counts.values, s.scale c < 2 ^ 64 ∧
    Comes (scaleWord? (.ofNat 64 s.sampledRows) (.ofNat 64 s.totalRows) (.ofNat 64 c)) (s.scale c)
  estimate_le : ∀ k, s.estimate k ≤ s.totalRows
  /-- Over all keys the estimates add up to the number of rows, and at most one more per key. -/
  sum_estimates : s.totalRows ≤ (s.counts.keys.map s.estimate).sum ∧
    (s.counts.keys.map s.estimate).sum ≤ s.totalRows + s.counts.size
  /-- If every row was recorded, a key has as many rows as are estimated. -/
  exact : s.sampledRows = s.totalRows → ∀ k, s.estimate k = keyCount rows k

end KeySample

/-! ### Samples merged in any order -/

/-- Samples of rows, each by a stride of its own, merged two by two. -/
inductive SampleTree where
  | sampler (stride : Nat) (rows : List Row)
  | merge (left right : SampleTree)

namespace SampleTree

/-- The merged sample. -/
def sample : SampleTree → KeySample
  | sampler stride rows => sampled stride rows
  | merge left right => left.sample.merge right.sample

/-- All rows that were seen. -/
def rows : SampleTree → List Row
  | sampler _ rows => rows
  | merge left right => left.rows ++ right.rows

/-- The rows that were recorded. -/
def recorded : SampleTree → List Row
  | sampler stride rows => kept stride rows
  | merge left right => left.recorded ++ right.recorded

theorem describes_sample : ∀ t : SampleTree, t.sample.Describes t.recorded t.rows.length
  | sampler stride rows => describes_sampled stride rows
  | merge left right => by
    rw [rows, List.length_append]
    exact (describes_sample left).merge (describes_sample right)

theorem addsUp_sample : ∀ t : SampleTree, t.sample.AddsUp
  | sampler stride rows => KeySample.addsUp_sampled stride rows
  | merge left right => (addsUp_sample left).merge (addsUp_sample right)

theorem recorded_sublist : ∀ t : SampleTree, t.recorded.Sublist t.rows
  | sampler stride rows => kept_sublist stride rows
  | merge left right => (recorded_sublist left).append (recorded_sublist right)

/-- A sampler records its first row, so nothing is recorded only of nothing. -/
theorem rows_eq_nil : ∀ {t : SampleTree}, t.recorded = [] → t.rows = []
  | sampler stride rows, h => eq_nil_of_kept_eq_nil h
  | merge left right, h => by
    obtain ⟨hl, hr⟩ := List.append_eq_nil_iff.mp h
    rw [rows, rows_eq_nil hl, rows_eq_nil hr, List.append_nil]

/-- **Estimates are sound and fit.** However samples of fewer than `2 ^ 64` rows in all were
taken and merged, the counts are those of the recorded rows, no estimate is above the
number of rows nor loses a bit in its computation, and over all keys the estimates add up
to the number of rows and at most one more per key. If every row was recorded, they are
exact. -/
theorem soundEstimates_sample (t : SampleTree) (ht : t.rows.length < 2 ^ 64) :
    t.sample.SoundEstimates t.rows := by
  have hdescribes := t.describes_sample
  have hadds := t.addsUp_sample
  have hle : t.sample.sampledRows ≤ t.sample.totalRows := by
    rw [hdescribes.sampledRows, hdescribes.totalRows]
    exact t.recorded_sublist.length_le
  have htotal : t.sample.totalRows < 2 ^ 64 := hdescribes.totalRows ▸ ht
  have hempty : t.sample.sampledRows = 0 → t.sample.totalRows = 0 := by
    rw [hdescribes.sampledRows, hdescribes.totalRows, List.length_eq_zero_iff, List.length_eq_zero_iff]
    exact rows_eq_nil
  refine ⟨hdescribes.totalRows, ⟨hadds, hle⟩, hempty, fun c hc => ?_, fun k => ?_, ?_, fun hall k => ?_⟩
  · have hscale := KeySample.scale_le_totalRows (hadds.count_le hc)
    exact ⟨by omega, KeySample.comes_scaleWord (hadds.count_le hc) hle htotal⟩
  · exact hadds.estimate_le k
  · exact hadds.sum_estimates hempty
  · have hrows : t.recorded = t.rows := by
      refine t.recorded_sublist.eq_of_length ?_
      rw [← hdescribes.sampledRows, ← hdescribes.totalRows, hall]
    rw [hrows] at hdescribes
    exact hdescribes.estimate_eq k

/-- Strides of two and three that pass over the second of three keys, and a sample without
rows. -/
theorem soundEstimates_sample_strides :
    let row : Int64 → Row := fun n => (⟨[.long n]⟩, ⟨[.long n, .text "row"]⟩)
    let t : SampleTree := .merge (.sampler 2 [row 1, row 2, row 1])
      (.merge (.sampler 0 []) (.sampler 3 [row 3, row 2, row 2, row 3]))
    t.rows.length < 2 ^ 64 ∧ t.sample.SoundEstimates t.rows := by
  intro row t
  have ht : t.rows.length < 2 ^ 64 := by decide
  exact ⟨ht, soundEstimates_sample t ht⟩

end SampleTree
end MapReduce
