/-
# Routing in machine words

Rows are routed with numbers of 32 and 64 bits: remainders, one sum that goes around
the end of the reducers, and differences where an order descends. Such arithmetic can
go wrong where that of natural numbers cannot: a divisor is zero, a difference falls
below zero, a sum does not fit, a narrower word drops bits. `WordRouting` carries out
the routing in words, without any check of its own, and stops where a step goes wrong.

What was checked when a partitioner was made is enough for every step
(`WordRouting.computes_byHash`, `WordRouting.computes_bySkew`,
`WordRouting.computes_byRange`): no step stops, and the words are the numbers that the
partitioner gives. Bounds must be fewer than 2^32 - 1, since the number of reducers is
a word.

Key definitions: `Words.rem?`, `Words.sum?`, `Words.diff?`, `WordRouting`,
`WordRouting.Computes`.
Key theorems: `PartitionEntry.comes_reducerWord`, `WordRouting.computes_byHash`,
`WordRouting.computes_bySkew`, `WordRouting.computes_byRange`.
-/
import MapReduce.Proofs.RangeRouting
import MapReduce.Proofs.Router

namespace MapReduce

/-! ### Steps that can go wrong -/

namespace Words

variable {v w n m : Nat}

/-- A remainder; there is none by zero. -/
def rem? (a b : BitVec w) : Option (BitVec w) := if b = 0 then none else some (a % b)

/-- A sum that fits. -/
def sum? (a b : BitVec w) : Option (BitVec w) := if a.toNat + b.toNat < 2 ^ w then some (a + b) else none

/-- A difference that is not below zero. -/
def diff? (a b : BitVec w) : Option (BitVec w) := if b.toNat ≤ a.toNat then some (a - b) else none

/-- The word, or one in place of zero. -/
def atLeastOne (a : BitVec w) : BitVec w := if a = 0 then 1 else a

/-- A computation goes well, and its word is the number. -/
def Comes (x : Option (BitVec w)) (n : Nat) : Prop := x.map BitVec.toNat = some n

theorem comes_some {a : BitVec w} (h : a.toNat = n) : Comes (some a) n := congrArg some h

/-- One step after the other. -/
theorem Comes.bind {x : Option (BitVec v)} {f : BitVec v → Option (BitVec w)} (hx : Comes x n)
    (hf : ∀ a : BitVec v, a.toNat = n → Comes (f a) m) : Comes (x >>= f) m := by
  obtain ⟨a, rfl, ha⟩ := Option.map_eq_some_iff.mp hx
  exact hf a ha

theorem comes_rem {a b : BitVec w} (hb : 0 < b.toNat) : Comes (rem? a b) (a.toNat % b.toNat) := by
  have hne : b ≠ 0 := by
    rintro rfl
    simp at hb
  rw [rem?, if_neg hne]
  exact comes_some BitVec.toNat_umod

theorem comes_sum {a b : BitVec w} (h : a.toNat + b.toNat < 2 ^ w) : Comes (sum? a b) (a.toNat + b.toNat) := by
  rw [sum?, if_pos h]
  exact comes_some (BitVec.toNat_add_of_lt h)

theorem comes_diff {a b : BitVec w} (h : b.toNat ≤ a.toNat) : Comes (diff? a b) (a.toNat - b.toNat) := by
  rw [diff?, if_pos h]
  exact comes_some (BitVec.toNat_sub_of_le h)

/-- A word of another width is the same number, if that fits. -/
theorem toNat_setWidth_of_lt {a : BitVec v} (h : a.toNat < 2 ^ w) : (a.setWidth w).toNat = a.toNat := by
  rw [BitVec.toNat_setWidth, Nat.mod_eq_of_lt h]

theorem toNat_widen (a : BitVec 32) : (a.setWidth 64).toNat = a.toNat :=
  toNat_setWidth_of_lt (Nat.lt_trans a.isLt (by norm_num))

theorem toNat_atLeastOne (a : BitVec 32) : (atLeastOne a).toNat = max 1 a.toNat := by
  unfold atLeastOne
  split
  · rename_i h
    rw [h]
    rfl
  · rename_i h
    have hne : a.toNat ≠ 0 := fun h0 => h (BitVec.eq_of_toNat_eq h0)
    omega

/-- The words of a list, one by one. -/
theorem map_mapM {α : Type} {f : α → Option (BitVec w)} {g : α → Nat} : ∀ {l : List α},
    (∀ a ∈ l, Comes (f a) (g a)) → (l.mapM f).map (List.map BitVec.toNat) = some (l.map g)
  | [], _ => rfl
  | a :: l, h => by
    obtain ⟨b, hb, hba⟩ := Option.map_eq_some_iff.mp (h a List.mem_cons_self)
    obtain ⟨bs, hbs, hbsl⟩ := Option.map_eq_some_iff.mp (map_mapM fun x hx => h x (List.mem_cons_of_mem a hx))
    rw [List.mapM_cons, hb, hbs]
    exact congrArg some (congrArg₂ List.cons hba hbsl)

end Words

open Words

/-! ### The hash of a key -/

theorem ofLittleEndian_lt : ∀ bs : Bytes, ofLittleEndian bs < 256 ^ bs.length
  | [] => Nat.one_pos
  | b :: bs => by
    have hb := b.toNat_lt
    have ih := ofLittleEndian_lt bs
    rw [ofLittleEndian, List.length_cons, pow_succ]
    omega

/-- The hash of a key is a word. -/
theorem Tuple.hash_lt (key : Tuple) : key.hash < 2 ^ 64 := by
  have hlow := ofLittleEndian_lt ((Digest.of key.encode).bytes.toList.take 8)
  have hlength : ((Digest.of key.encode).bytes.toList.take 8).length = 8 := by simp
  rw [hlength] at hlow
  exact Nat.lt_of_lt_of_eq hlow (by norm_num)

/-- The reducer of a key by its hash. -/
def hashWord? (reducers : BitVec 32) (key : Tuple) : Option (BitVec 32) := do
  let r ← rem? (BitVec.ofNat 64 key.hash) (reducers.setWidth 64)
  return r.setWidth 32

theorem comes_hashWord {reducers : BitVec 32} (h : 0 < reducers.toNat) (key : Tuple) :
    Comes (hashWord? reducers key) (key.hash % reducers.toNat) := by
  have hhash : (BitVec.ofNat 64 key.hash).toNat = key.hash := by
    rw [BitVec.toNat_ofNat, Nat.mod_eq_of_lt key.hash_lt]
  have hrem : Comes (rem? (BitVec.ofNat 64 key.hash) (reducers.setWidth 64)) (key.hash % reducers.toNat) := by
    have hstep := comes_rem (a := BitVec.ofNat 64 key.hash) (b := reducers.setWidth 64) (by rwa [toNat_widen])
    rwa [hhash, toNat_widen] at hstep
  refine hrem.bind fun r hr => comes_some ?_
  have hlt : r.toNat < 2 ^ 32 := hr ▸ Nat.lt_trans (Nat.mod_lt _ h) reducers.isLt
  rw [toNat_setWidth_of_lt hlt, hr]

/-! ### The reducers of a skewed key -/

/-- The reducer of a slot. -/
def PartitionEntry.reducerWord? (e : PartitionEntry) (slot reducers : BitVec 32) : Option (BitVec 32) := do
  let offset ← rem? slot (atLeastOne e.partitions.toBitVec)
  let place ← sum? (e.firstReducer.toBitVec.setWidth 64) (offset.setWidth 64)
  let r ← rem? place ((atLeastOne reducers).setWidth 64)
  return r.setWidth 32

/-- **No step of finding the reducer of a slot goes wrong**, whatever the entry. -/
theorem PartitionEntry.comes_reducerWord (e : PartitionEntry) (slot reducers : BitVec 32) :
    Comes (e.reducerWord? slot reducers) (e.reducer slot.toNat reducers.toNat) := by
  have hpartitions := toNat_atLeastOne e.partitions.toBitVec
  have hreducers : ((atLeastOne reducers).setWidth 64).toNat = max 1 reducers.toNat := by
    rw [toNat_widen, toNat_atLeastOne]
  have hfirst := e.firstReducer.toBitVec.isLt
  refine (comes_rem (by omega)).bind fun offset hoffset => ?_
  have hsum : (e.firstReducer.toBitVec.setWidth 64).toNat + (offset.setWidth 64).toNat < 2 ^ 64 := by
    rw [toNat_widen, toNat_widen]
    have := offset.isLt
    omega
  refine (comes_sum hsum).bind fun place hplace => ?_
  refine (comes_rem (by omega)).bind fun r hr => comes_some ?_
  rw [hplace, toNat_widen, toNat_widen, hoffset, hpartitions, hreducers] at hr
  have hlt : r.toNat < 2 ^ 32 := by
    have hmod := Nat.mod_lt (e.firstReducer.toBitVec.toNat + slot.toNat % max 1 e.partitions.toBitVec.toNat)
      (show 0 < max 1 reducers.toNat by omega)
    have := reducers.isLt
    omega
  rw [toNat_setWidth_of_lt hlt, hr]
  rfl

namespace PartitionMap

/-- The reducer of row `seq` of the skewed input. -/
def skewedWord? (m : PartitionMap) (key : Tuple) (seq : BitVec 64) : Option (BitVec 32) :=
  match m.find? key with
  | some e => do
    let slot ← rem? seq (e.partitions.toBitVec.setWidth 64)
    e.reducerWord? (slot.setWidth 32) m.parallelism.toBitVec
  | none => hashWord? m.parallelism.toBitVec key

/-- The reducers of a row of the other input. -/
def probeWords? (m : PartitionMap) (key : Tuple) : Option (List (BitVec 32)) :=
  match m.find? key with
  | some e => (List.range e.partitions.toNat).mapM fun slot =>
      e.reducerWord? (BitVec.ofNat 32 slot) m.parallelism.toBitVec
  | none => (hashWord? m.parallelism.toBitVec key).map fun r => [r]

end PartitionMap

namespace Router

theorem comes_skewedWord (r : Router) (key : Tuple) (seq : BitVec 64) :
    Comes (r.map.skewedWord? key seq) (r.routeSkewed key seq.toNat) := by
  cases he : r.map.find? key with
  | some e =>
    simp only [PartitionMap.skewedWord?, routeSkewed, he]
    have hpos : 0 < e.partitions.toNat := (fits he).1
    have hwide : (e.partitions.toBitVec.setWidth 64).toNat = e.partitions.toNat := toNat_widen _
    refine (comes_rem (by rwa [hwide])).bind fun slot hslot => ?_
    rw [hwide] at hslot
    have hlt : slot.toNat < 2 ^ 32 := hslot ▸ Nat.lt_trans (Nat.mod_lt _ hpos) e.partitions.toNat_lt
    have hreducer := e.comes_reducerWord (slot.setWidth 32) r.map.parallelism.toBitVec
    rwa [toNat_setWidth_of_lt hlt, hslot] at hreducer
  | none =>
    simp only [PartitionMap.skewedWord?, routeSkewed, he]
    exact comes_hashWord r.parallelism_pos key

theorem map_probeWords (r : Router) (key : Tuple) :
    (r.map.probeWords? key).map (List.map BitVec.toNat) = some (r.routeProbe key) := by
  cases he : r.map.find? key with
  | some e =>
    simp only [PartitionMap.probeWords?, routeProbe, he]
    refine map_mapM fun slot hslot => ?_
    have hlt : slot < 2 ^ 32 := Nat.lt_trans (List.mem_range.mp hslot) e.partitions.toNat_lt
    have hreducer := e.comes_reducerWord (BitVec.ofNat 32 slot) r.map.parallelism.toBitVec
    rwa [BitVec.toNat_ofNat, Nat.mod_eq_of_lt hlt] at hreducer
  | none =>
    simp only [PartitionMap.probeWords?, routeProbe, he]
    obtain ⟨word, hword, hvalue⟩ := Option.map_eq_some_iff.mp (comes_hashWord r.parallelism_pos key)
    rw [hword]
    exact congrArg (fun n => some [n]) hvalue

end Router

/-! ### The three ways to route -/

/-- A skewed join has no third input. -/
theorem Partitioner.route_bySkew_of_two_le (r : Router) {input : Nat} (h : 2 ≤ input) (key : Tuple) (seq : Nat) :
    (Partitioner.bySkew r).route input key seq =
      .error (routingError ("skewed join has two inputs, got input index " ++ Nat.repr input)) := by
  obtain ⟨n, rfl⟩ := Nat.exists_eq_add_of_le' h
  rfl

/-- Routing in words: a step that goes wrong leaves no result. -/
structure WordRouting where
  parallelism : Option (BitVec 32)
  route : (input : BitVec 8) → (key : Tuple) → (seq : BitVec 64) → Option (Except ExecError (List (BitVec 32)))

namespace WordRouting

/-- Routing in words goes well, and gives the numbers of the partitioner. -/
structure Computes (r : WordRouting) (p : Partitioner) : Prop where
  parallelism : Comes r.parallelism p.parallelism
  route : ∀ input key seq, (r.route input key seq).map (Except.map (List.map BitVec.toNat)) =
    some (p.route input.toNat key seq.toNat)

/-- By the hash of the key. -/
def byHash (reducers : BitVec 32) : WordRouting where
  parallelism := some (atLeastOne reducers)
  route _ key _ := (hashWord? (atLeastOne reducers) key).map fun r => .ok [r]

/-- As a skewed join needs. -/
def bySkew (m : PartitionMap) : WordRouting where
  parallelism := some m.parallelism.toBitVec
  route input key seq :=
    if input = 0 then (m.skewedWord? key seq).map fun r => .ok [r]
    else if input = 1 then (m.probeWords? key).map .ok
    else some (.error (routingError ("skewed join has two inputs, got input index " ++ Nat.repr input.toNat)))

/-- The number of the ranges. -/
def ranges? (q : Quantiles) : Option (BitVec 32) := sum? (BitVec.ofNat 32 q.boundaries.length) 1

/-- The range counted from the last one. -/
def mirrored? (q : Quantiles) (range : BitVec 32) : Option (BitVec 32) := do
  let reducers ← ranges? q
  let last ← diff? reducers 1
  diff? last range

/-- By the range of the key. -/
def byRange (q : Quantiles) (ascending : Bool) : WordRouting where
  parallelism := ranges? q
  route _ key _ :=
    let range := BitVec.ofNat 32 (q.rangeOf key)
    (if ascending then some range else mirrored? q range).map fun r => .ok [r]

/-- A single word, as the list of reducers. -/
theorem map_ok {x : Option (BitVec 32)} {n : Nat} (h : Comes x n) :
    (x.map fun r => (.ok [r] : Except ExecError (List (BitVec 32)))).map (Except.map (List.map BitVec.toNat)) =
      some (.ok [n]) := by
  obtain ⟨word, rfl, hword⟩ := Option.map_eq_some_iff.mp h
  rw [← hword]
  rfl

theorem computes_byHash {n : Nat} (h : n < 2 ^ 32) : (byHash (BitVec.ofNat 32 n)).Computes (.byHash n) := by
  have hn : (atLeastOne (BitVec.ofNat 32 n)).toNat = max 1 n := by
    rw [toNat_atLeastOne, BitVec.toNat_ofNat, Nat.mod_eq_of_lt h]
  refine ⟨comes_some hn, fun input key seq => map_ok ?_⟩
  rw [← hn]
  exact comes_hashWord (by omega) key

theorem computes_bySkew (r : Router) : (bySkew r.map).Computes (.bySkew r) := by
  refine ⟨comes_some rfl, fun input key seq => ?_⟩
  by_cases h0 : input = 0
  · subst h0
    exact map_ok (r.comes_skewedWord key seq)
  · by_cases h1 : input = 1
    · subst h1
      obtain ⟨words, hwords, hvalues⟩ := Option.map_eq_some_iff.mp (r.map_probeWords key)
      show ((r.map.probeWords? key).map .ok).map (Except.map (List.map BitVec.toNat)) = some (.ok (r.routeProbe key))
      rw [hwords, ← hvalues]
      rfl
    · have htwo : 2 ≤ input.toNat := by
        have hne0 : input.toNat ≠ 0 := fun h => h0 (BitVec.eq_of_toNat_eq h)
        have hne1 : input.toNat ≠ 1 := fun h => h1 (BitVec.eq_of_toNat_eq h)
        omega
      rw [Partitioner.route_bySkew_of_two_le r htwo, bySkew]
      simp only [if_neg h0, if_neg h1]
      rfl

theorem computes_byRange {q : Quantiles} {ascending : Bool} {p : Partitioner}
    (h : Partitioner.byRange q ascending = .ok p) (hfew : q.boundaries.length < 2 ^ 32 - 1) :
    (byRange q ascending).Computes p := by
  obtain ⟨hsorted, rfl⟩ := Partitioner.byRange_eq_ok_iff.mp h
  have hlength : (BitVec.ofNat 32 q.boundaries.length).toNat = q.boundaries.length := by
    rw [BitVec.toNat_ofNat, Nat.mod_eq_of_lt (by omega)]
  have hranges : Comes (ranges? q) (q.boundaries.length + 1) := by
    have hstep := comes_sum (a := BitVec.ofNat 32 q.boundaries.length) (b := 1) (by rw [hlength]; simp; omega)
    rwa [hlength] at hstep
  refine ⟨hranges, fun input key seq => ?_⟩
  have hle := Quantiles.rangeOf_le hsorted key
  have hrange : (BitVec.ofNat 32 (q.rangeOf key)).toNat = q.rangeOf key := by
    rw [BitVec.toNat_ofNat, Nat.mod_eq_of_lt (by omega)]
  cases ascending with
  | true => exact map_ok (comes_some hrange)
  | false =>
    refine map_ok (hranges.bind fun reducers hreducers => ?_)
    have hone : (1 : BitVec 32).toNat = 1 := rfl
    refine (comes_diff (by omega)).bind fun last hlast => ?_
    have hdiff := comes_diff (a := last) (b := BitVec.ofNat 32 (q.rangeOf key)) (by omega)
    rwa [hlast, hreducers, hrange, hone, Nat.add_sub_cancel] at hdiff

end WordRouting
end MapReduce
