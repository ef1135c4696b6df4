/-
# Stored partition maps

A partition map is written as the list of its entries, with a digest of their
compact form. Everything in an entry is read back as it was written, except a
real number in a key: it is read as `Scalar.reread?` says, which can be another
number, or none. So the file of a map is read as its entries after one trip
through a document (`PartitionFile.decode_pretty`), and the digest decides. If
every real number in the keys survives, the digests agree and the map is the one
that was written (`PartitionMap.same_ofEntries_entries`: the entries come in key
order, so a map made of them has each in its place). If not, the entries that
were read differ in the document, and the file is refused, unless two different
documents share a digest.

Key definitions: `Scalar.reread?`, `Scalar.Durable`, `PartitionEntry.reread?`.
Key theorems: `Scalar.durable_double_iff`, `Scalar.durable_double_of_exact`,
`PartitionFile.decode_pretty`, `PartitionMap.same_ofEntries_entries`,
`readPartitionMap_stored`.
-/
import MapReduce.Proofs.PartitionPlan
import MapReduce.Proofs.RealReading
import MapReduce.Proofs.Records
import MapReduce.Skew.PartitionFile

namespace MapReduce

/-! ### Lists through a document -/

/-- Items that are read as others are also written as others. -/
theorem eq_of_mapM_of_map_eq {α β : Type} {g : α → Option α} {enc : α → β}
    (h : ∀ a b, g a = some b → enc b = enc a → b = a) : ∀ {l l' : List α},
    l.mapM g = some l' → l'.map enc = l.map enc → l' = l
  | [], l', hl, _ => by simpa using hl.symm
  | a :: l, l', hl, he => by
    rw [List.mapM_cons] at hl
    obtain ⟨b, hb, hl⟩ := Option.bind_eq_some_iff.mp hl
    obtain ⟨bs, hbs, hl⟩ := Option.bind_eq_some_iff.mp hl
    cases hl
    rw [List.map_cons, List.map_cons, List.cons.injEq] at he
    rw [h a b hb he.1, eq_of_mapM_of_map_eq h hbs he.2]

/-! ### Scalars -/

namespace Scalar

/-- What a scalar is read as after it was written: a real number as its literal
is read, any other scalar as it is. -/
def reread? : Scalar → Option Scalar
  | .float x => (Json.asSingle? (Json.ofReal x)).map .float
  | .double x => (Json.asDouble? (Json.ofReal x)).map .double
  | s => some s

/-- A scalar that a document keeps. -/
def Durable (s : Scalar) : Prop := s.reread? = some s

instance (s : Scalar) : Decidable s.Durable := inferInstanceAs (Decidable (_ = _))

theorem legible_toJson (s : Scalar) : s.toJson.Legible := by
  have h32 : ∀ n : Int32, (Json.int n.toInt).Legible := fun n => by
    have := n.le_toInt
    have := n.toInt_lt
    exact .int ⟨by norm_num; omega, by norm_num; omega⟩
  have h64 : ∀ n : Int64, (Json.int n.toInt).Legible := fun n => by
    have := n.le_toInt
    have := n.toInt_lt
    exact .int ⟨by norm_num; omega, by norm_num; omega⟩
  have hfloat : ∀ x : Float32Bits, (Json.ofReal x).Legible := Json.legible_ofReal (by decide) (by decide)
  have hdouble : ∀ x : Float64Bits, (Json.ofReal x).Legible := Json.legible_ofReal (by decide) (by decide)
  cases s <;> simp [toJson, h32, h64, hfloat, hdouble]

theorem ofJson?_toJson (s : Scalar) : ofJson? s.toJson = s.reread? := by
  cases s with
  | null => simp [toJson, ofJson?, Json.noPayload, reread?]
  | bool b => simp [toJson, ofJson?, ofPayload?, reread?]
  | int n =>
    have := n.le_toInt
    have := n.toInt_lt
    have hread : Json.asInt? (signedBounds 32).1 (signedBounds 32).2 (.int n.toInt) = some n.toInt :=
      if_pos ⟨by simp [signedBounds]; omega, by simp [signedBounds]; omega⟩
    simp [toJson, ofJson?, ofPayload?, reread?, hread]
  | long n =>
    have := n.le_toInt
    have := n.toInt_lt
    have hread : Json.asInt? (signedBounds 64).1 (signedBounds 64).2 (.int n.toInt) = some n.toInt :=
      if_pos ⟨by simp [signedBounds]; omega, by simp [signedBounds]; omega⟩
    simp [toJson, ofJson?, ofPayload?, reread?, hread]
  | float x => simp [toJson, ofJson?, ofPayload?, reread?]
  | double x => simp [toJson, ofJson?, ofPayload?, reread?]
  | text s => simp [toJson, ofJson?, ofPayload?, reread?]
  | bytes bs =>
    have hread : Json.asList? Json.asUInt8? (Json.ofList (fun b : UInt8 => Json.nat b.toNat) bs) =
        some bs := Json.asList?_ofList fun b _ => Json.asUInt8?_toNat b
    simp [toJson, ofJson?, ofPayload?, reread?, hread]

/-- A real number of 64 bits is kept exactly if its literal is read as the nearest
number. -/
theorem durable_double_iff (x : Float64Bits) : (Scalar.double x).Durable ↔
    x.magnitude < Format.double.infinite ∧ (x.numeral (Json.realLayout Format.double)).scaled? =
      some ((x.numeral (Json.realLayout Format.double)).nearest Format.double) := by
  rw [← Json.asDouble?_ofReal_iff, Durable, reread?, Option.map_eq_some_iff]
  constructor
  · rintro ⟨y, hy, hxy⟩
    rw [hy, Scalar.double.inj hxy]
  · intro h
    exact ⟨x, h, rfl⟩

/-- It is kept in particular if its literal is short. -/
theorem durable_double_of_exact {x : Float64Bits} (hx : x.magnitude < Format.double.infinite)
    {n : Numeral} (hn : x.numeral (Json.realLayout Format.double) = n)
    (hdigits : digitsValue (n.whole ++ n.fraction) < 2 ^ 53)
    (hscale : (n.exponent - n.fraction.length).natAbs ≤ 22) : (Scalar.double x).Durable := by
  rw [Durable, reread?, Json.asDouble?_ofReal_of_exact hx hn hdigits hscale]
  rfl

-- `2 ^ 53 - 1` is written as `9007199254740991.0`, 17 digits, and read as its neighbour.
example : (Scalar.double ⟨0x433fffffffffffff⟩).reread? = some (.double ⟨0x433ffffffffffffe⟩) := by
  decide +kernel

/-- A scalar that is read as another one is written differently from it. -/
theorem eq_of_reread {s s' : Scalar} (h : s.reread? = some s') (he : s'.toJson = s.toJson) :
    s' = s := by
  have hpayload : ∀ {name : String} {j j' : Json},
      Json.alternative name j = Json.alternative name j' → j = j' := by
    intro name j j' h
    simpa [Json.alternative, Json.record] using h
  cases s with
  | float x =>
    obtain ⟨y, hy, rfl⟩ := Option.map_eq_some_iff.mp h
    have hx : Json.ofReal x ≠ .null := fun h0 => by rw [h0] at hy; cases hy
    rw [Json.ofReal_inj (by decide) hx (hpayload he).symm]
  | double x =>
    obtain ⟨y, hy, rfl⟩ := Option.map_eq_some_iff.mp h
    have hx : Json.ofReal x ≠ .null := fun h0 => by rw [h0] at hy; cases hy
    rw [Json.ofReal_inj (by decide) hx (hpayload he).symm]
  | null => exact (Option.some.inj h).symm
  | bool b => exact (Option.some.inj h).symm
  | int n => exact (Option.some.inj h).symm
  | long n => exact (Option.some.inj h).symm
  | text t => exact (Option.some.inj h).symm
  | bytes bs => exact (Option.some.inj h).symm

end Scalar

/-! ### Keys -/

namespace Tuple

/-- What a tuple is read as after it was written. -/
def reread? (t : Tuple) : Option Tuple := (t.fields.mapM Scalar.reread?).map Tuple.mk

/-- A tuple that a document keeps: each of its scalars is kept. -/
def Durable (t : Tuple) : Prop := ∀ s ∈ t.fields, s.Durable

instance (t : Tuple) : Decidable t.Durable := inferInstanceAs (Decidable (∀ s ∈ t.fields, s.Durable))

theorem legible_toJson (t : Tuple) : t.toJson.Legible :=
  Json.legible_ofList.mpr fun s _ => s.legible_toJson

theorem ofJson?_toJson (t : Tuple) : ofJson? t.toJson = t.reread? := by
  rw [ofJson?, toJson, Json.asList?_ofList_eq_mapM, reread?]
  simp only [Scalar.ofJson?_toJson]

theorem reread?_eq_self {t : Tuple} : t.reread? = some t ↔ t.Durable := by
  have hmk : t.reread? = some t ↔ t.fields.mapM Scalar.reread? = some t.fields := by
    rw [reread?, Option.map_eq_some_iff]
    exact ⟨fun ⟨fs, hfs, he⟩ => by rw [hfs, ← he], fun h => ⟨_, h, rfl⟩⟩
  rw [hmk]
  exact mapM_eq_some_self

theorem eq_of_reread {t t' : Tuple} (h : t.reread? = some t') (he : t'.toJson = t.toJson) : t' = t := by
  obtain ⟨fs, hfs, rfl⟩ := Option.map_eq_some_iff.mp h
  rw [eq_of_mapM_of_map_eq (fun _ _ => Scalar.eq_of_reread) hfs (Json.arr.inj he)]

end Tuple

/-! ### Entries -/

namespace PartitionEntry

/-- What an entry is read as after it was written. -/
def reread? (e : PartitionEntry) : Option PartitionEntry :=
  e.key.reread?.map fun key => { e with key := key }

theorem legible_toJson (e : PartitionEntry) : e.toJson.Legible := by
  simp [toJson, e.key.legible_toJson]

theorem ofJson?_toJson (e : PartitionEntry) : ofJson? e.toJson = e.reread? := by
  have hfields : Json.fields? ["key", "partitions", "first_reducer"] e.toJson =
      some [some e.key.toJson, some (Json.nat e.partitions.toNat),
        some (Json.nat e.firstReducer.toNat)] := Json.fields?_record (by decide) rfl
  simp only [ofJson?, hfields, Option.bind_eq_bind, Option.bind_some, Json.required?_some,
    Json.asUInt32?_toNat, e.key.ofJson?_toJson, reread?]
  cases e.key.reread? <;> rfl

theorem reread?_eq_self {e : PartitionEntry} : e.reread? = some e ↔ e.key.Durable := by
  rw [← Tuple.reread?_eq_self, reread?, Option.map_eq_some_iff]
  constructor
  · rintro ⟨key, hkey, he⟩
    rw [hkey, ← he]
  · intro h
    exact ⟨e.key, h, rfl⟩

theorem eq_of_reread {e e' : PartitionEntry} (h : e.reread? = some e') (he : e'.toJson = e.toJson) :
    e' = e := by
  obtain ⟨key, hkey, rfl⟩ := Option.map_eq_some_iff.mp h
  have hjson : key.toJson = e.key.toJson := by
    simpa [toJson, Json.record] using he
  rw [Tuple.eq_of_reread hkey hjson]

end PartitionEntry

/-! ### Files -/

namespace PartitionFile

/-- The entries in the compact form that the digest is taken of. -/
def compactEntries (entries : List PartitionEntry) : Bytes :=
  (Json.ofList PartitionEntry.toJson entries).compact

theorem legible_entries (entries : List PartitionEntry) :
    (Json.ofList PartitionEntry.toJson entries).Legible :=
  Json.legible_ofList.mpr fun e _ => e.legible_toJson

/-- Entries that are read as others have another compact form. -/
theorem eq_of_compactEntries {es es' : List PartitionEntry}
    (h : es.mapM PartitionEntry.reread? = some es') (hc : compactEntries es' = compactEntries es) :
    es' = es := by
  have hjson := Json.eq_of_write_eq false (legible_entries es') (legible_entries es) hc
  exact eq_of_mapM_of_map_eq (fun _ _ => PartitionEntry.eq_of_reread) h (Json.arr.inj hjson)

/-- **A file is read as its entries are**, and then checked. -/
theorem decode_pretty (path : String) (f : PartitionFile) : decode path f.toJson.pretty =
    (f.entries.mapM PartitionEntry.reread?).elim (.error .document)
      fun es => toMap path { f with entries := es } := by
  have hlegible : f.toJson.Legible := by
    simp [toJson, PartitionEntry.legible_toJson]
  have hparse : Json.parse f.toJson.pretty = some f.toJson := Json.parse_write true hlegible
  have hfields : Json.fields? ["version", "parallelism", "digest", "entries"] f.toJson =
      some [some (Json.nat f.version.toNat), some (Json.nat f.parallelism.toNat),
        some (Json.text f.digest), some (Json.ofList PartitionEntry.toJson f.entries)] :=
    Json.fields?_record (by decide) rfl
  have hread : ofJson? f.toJson =
      (f.entries.mapM PartitionEntry.reread?).map fun es => { f with entries := es } := by
    simp only [ofJson?, hfields, Option.bind_eq_bind, Option.bind_some, Json.required?_some,
      Json.asUInt32?_toNat, Json.asText?_text, Json.asList?_ofList_eq_mapM,
      PartitionEntry.ofJson?_toJson]
    cases f.entries.mapM PartitionEntry.reread? <;> rfl
  unfold decode
  rw [hparse, Option.bind_some, hread]
  cases f.entries.mapM PartitionEntry.reread? <;> rfl

/-- A file with the entries of another map is refused, unless they share the
digest. -/
theorem toMap_ofMap (path : String) (m : PartitionMap) (es : List PartitionEntry) :
    toMap path { ofMap m with entries := es } =
      if digestOf es = digestOf m.entries then .ok (.ofEntries m.parallelism es)
      else .error (.digest path) := by
  unfold toMap ofMap
  dsimp only
  rw [if_neg (not_not.mpr rfl), ite_not]

end PartitionFile

/-! ### Maps -/

theorem OrderedMap.mem_upsertEntries {κ ν : Type} {cmp : κ → κ → Ordering} [Std.ReflCmp cmp] {k : κ}
    {v : ν} {p : κ × ν} : ∀ {l : List (κ × ν)}, p ∈ upsertEntries cmp k (fun _ => v) l →
    p ∈ l ∨ cmp k p.1 = .eq ∧ p.2 = v
  | [], h => by
    rw [upsertEntries, List.mem_singleton] at h
    exact .inr (h ▸ ⟨Std.ReflCmp.compare_self, rfl⟩)
  | (k', v') :: rest, h => by
    rw [upsertEntries] at h
    split at h
    · rcases List.mem_cons.mp h with rfl | h
      · exact .inr ⟨Std.ReflCmp.compare_self, rfl⟩
      · exact .inl h
    · rename_i heq
      rcases List.mem_cons.mp h with rfl | h
      · exact .inr ⟨heq, rfl⟩
      · exact .inl (List.mem_cons_of_mem _ h)
    · rcases List.mem_cons.mp h with rfl | h
      · exact .inl List.mem_cons_self
      · exact (mem_upsertEntries h).imp_left (List.mem_cons_of_mem _)

namespace PartitionMap

/-- Every entry stands under its own key, or one that compares equal to it. -/
def Keyed (m : PartitionMap) : Prop := ∀ p ∈ m.spread.entries, p.2.key.compare p.1 = .eq

theorem Keyed.insert {m : PartitionMap} (h : m.Keyed) (e : PartitionEntry) : (m.insert e).Keyed := by
  intro p hp
  rcases OrderedMap.mem_upsertEntries hp with hp | ⟨hk, rfl⟩
  · exact h p hp
  · exact hk

theorem keyed_foldl_insert : ∀ (es : List PartitionEntry) {m : PartitionMap}, m.Keyed →
    (es.foldl PartitionMap.insert m).Keyed
  | [], _, h => h
  | e :: es, _, h => keyed_foldl_insert es (h.insert e)

theorem keyed_ofEntries (n : UInt32) (es : List PartitionEntry) : (ofEntries n es).Keyed :=
  keyed_foldl_insert es fun _ h => nomatch h

/-- The entries of a map come in the order of their own keys. -/
theorem Keyed.pairwise_entries {m : PartitionMap} (h : m.Keyed) :
    m.entries.Pairwise fun a b => a.key.compare b.key = .lt := by
  refine List.pairwise_map.mpr (m.spread.sorted.imp_of_mem fun {a b} ha hb hlt => ?_)
  rw [Std.TransCmp.congr_left (h a ha), Std.TransCmp.congr_right (h b hb)]
  exact hlt

theorem sameEntries_map : ∀ {l : List (Tuple × PartitionEntry)},
    (∀ p ∈ l, p.2.key.compare p.1 = .eq) →
    sameEntries l (l.map fun p => (p.2.key, p.2)) = true
  | [], _ => rfl
  | p :: l, h => by
    have hkey : p.1.sameKey p.2.key = true :=
      Tuple.sameKey_iff.mpr (Std.OrientedCmp.eq_symm (h p List.mem_cons_self))
    have hself : p.2.same p.2 = true := by
      simp [PartitionEntry.same, Tuple.sameKey_iff.mpr Std.ReflCmp.compare_self]
    rw [List.map_cons, sameEntries, hkey, hself,
      sameEntries_map fun q hq => h q (List.mem_cons_of_mem p hq)]
    rfl

/-- **A map made of a map's entries is the same map.** -/
theorem same_ofEntries_entries {m : PartitionMap} (h : m.Keyed) :
    m.same (ofEntries m.parallelism m.entries) = true ∧
      (ofEntries m.parallelism m.entries).entries = m.entries := by
  refine ⟨?_, entries_ofEntries m.parallelism h.pairwise_entries⟩
  rw [same, parallelism_ofEntries, spread_ofEntries m.parallelism h.pairwise_entries, beq_self_eq_true,
    Bool.true_and, entries, OrderedMap.values, List.map_map]
  exact sameEntries_map h

end PartitionMap

/-! ### Storage -/

/-- What is read from the path a map was stored at. -/
theorem readPartitionMap_write (files : FileTable) (path : String) (m : PartitionMap) :
    readPartitionMap (writePartitionMap (.memory files) path m).1.read path =
      (m.entries.mapM PartitionEntry.reread?).elim (.error (.storage .document)) fun es =>
        if PartitionFile.digestOf es = PartitionFile.digestOf m.entries then
          .ok (.ofEntries m.parallelism es)
        else .error (.storage (.digest path)) := by
  have hread : (writePartitionMap (.memory files) path m).1.read path =
      .ok (PartitionFile.ofMap m).toJson.pretty := by
    have hfind : (files.insert path (PartitionFile.ofMap m).toJson.pretty).find? path =
        some (PartitionFile.ofMap m).toJson.pretty := by
      rw [OrderedMap.find?_insert, if_pos Std.ReflCmp.compare_self]
    unfold writePartitionMap Storage.write Storage.read
    dsimp only
    rw [hfind]
  unfold readPartitionMap
  rw [hread]
  show (PartitionFile.decode path _).mapError _ = _
  have hentries : (PartitionFile.ofMap m).entries = m.entries := rfl
  rw [PartitionFile.decode_pretty, hentries]
  cases m.entries.mapM PartitionEntry.reread? with
  | none => rfl
  | some es =>
    rw [Option.elim_some, Option.elim_some, PartitionFile.toMap_ofMap]
    split <;> rfl

/-- A stored map is read back from its entries, if its keys survive a document. -/
theorem readPartitionMap_of_durable (files : FileTable) (path : String) {m : PartitionMap}
    (h : ∀ e ∈ m.entries, e.key.Durable) :
    readPartitionMap (writePartitionMap (.memory files) path m).1.read path =
      .ok (.ofEntries m.parallelism m.entries) := by
  have hself : m.entries.mapM PartitionEntry.reread? = some m.entries :=
    mapM_eq_some_self.mpr fun e he => PartitionEntry.reread?_eq_self.mpr (h e he)
  rw [readPartitionMap_write, hself, Option.elim_some, if_pos rfl]

/-- **A stored map is read back as it was written exactly if its keys survive a
document.** A key survives unless it holds a real number whose literal is read as
another number, or not at all. A map with such a key is stored, but its file is
refused: as a document, or, unless the digests collide, for its digest. -/
theorem readPartitionMap_stored (parallelism : UInt32) (entries : List PartitionEntry)
    (files : FileTable) (path : String) :
    let m := PartitionMap.ofEntries parallelism entries
    let stored := writePartitionMap (.memory files) path m
    let read := readPartitionMap stored.1.read path
    stored.2 = .ok (PartitionFile.digestOf m.entries) ∧
      ((∀ e ∈ m.entries, e.key.Durable) →
        ∃ m', read = .ok m' ∧ m.same m' = true ∧ m'.entries = m.entries) ∧
      ((∃ e ∈ m.entries, ¬e.key.Durable) →
        read = .error (.storage .document) ∨ read = .error (.storage (.digest path)) ∨
        ∃ es, m.entries.mapM PartitionEntry.reread? = some es ∧
          PartitionFile.compactEntries es ≠ PartitionFile.compactEntries m.entries ∧
          PartitionFile.digestOf es = PartitionFile.digestOf m.entries) := by
  intro m stored read
  have hread : read = _ := readPartitionMap_write files path m
  have hparallel : m.parallelism = parallelism := PartitionMap.parallelism_ofEntries _ _
  refine ⟨rfl, fun hdurable => ?_, fun ⟨e, he, hlost⟩ => ?_⟩
  · have hself : m.entries.mapM PartitionEntry.reread? = some m.entries :=
      mapM_eq_some_self.mpr fun e he => PartitionEntry.reread?_eq_self.mpr (hdurable e he)
    rw [hself, Option.elim_some, if_pos rfl] at hread
    exact ⟨_, hread, PartitionMap.same_ofEntries_entries (PartitionMap.keyed_ofEntries _ _)⟩
  · cases hes : m.entries.mapM PartitionEntry.reread? with
    | none =>
      rw [hes] at hread
      exact .inl hread
    | some es =>
      rw [hes, Option.elim_some] at hread
      by_cases hdigest : PartitionFile.digestOf es = PartitionFile.digestOf m.entries
      · refine .inr (.inr ⟨es, rfl, fun hcompact => hlost ?_, hdigest⟩)
        rw [PartitionFile.eq_of_compactEntries hes hcompact] at hes
        exact PartitionEntry.reread?_eq_self.mp (mapM_eq_some_self.mp hes e he)
      · rw [if_neg hdigest] at hread
        exact .inr (.inl hread)

/-- A map with real numbers, texts, bytes and the least integer in its keys. -/
def mixedKeys : PartitionMap :=
  .ofEntries 3 [⟨⟨[.double ⟨0x3fb999999999999a⟩, .text "a\"b\n"]⟩, 2, 0⟩,
    ⟨⟨[.float ⟨0x3f000000⟩, .bytes [0, 255]]⟩, 3, 1⟩, ⟨⟨[.long (-9223372036854775808), .null]⟩, 2, 2⟩]

theorem readPartitionMap_stored_mixedKeys : (∀ e ∈ mixedKeys.entries, e.key.Durable) ∧
    ∃ m', readPartitionMap (writePartitionMap .inMemory "p" mixedKeys).1.read "p" = .ok m' ∧
      mixedKeys.same m' = true ∧ m'.entries = mixedKeys.entries := by
  have hdurable : ∀ e ∈ mixedKeys.entries, e.key.Durable := by decide +kernel
  exact ⟨hdurable, (readPartitionMap_stored 3 _ OrderedMap.empty "p").2.1 hdurable⟩

/-- A key that holds an infinity is stored and cannot be read. -/
theorem readPartitionMap_infinite_key :
    let m := PartitionMap.ofEntries 2 [⟨⟨[.double (Ieee.infinity false)]⟩, 2, 0⟩]
    let stored := writePartitionMap .inMemory "p" m
    stored.2 = .ok (PartitionFile.digestOf m.entries) ∧
      readPartitionMap stored.1.read "p" = .error (.storage .document) := by
  intro m stored
  have hlost : m.entries.mapM PartitionEntry.reread? = none := by decide +kernel
  have hread := readPartitionMap_write OrderedMap.empty "p" m
  rw [hlost] at hread
  exact ⟨rfl, hread⟩

end MapReduce
