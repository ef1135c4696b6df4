/-
# Records read back

What a document says about keys, files, aggregate calls, operators, manifests and
annotations is what was put into it: each `toJson` gives a legible document
(`legible_toJson`), and `ofJson?` reads it as the same value (`ofJson?_toJson`).
Both are read off the parts. A record with different field names finds each field
once (`Json.fields?_record`), an alternative finds its name and payload
(`Json.variant?_alternative`), and a list or an optional value is read back if its
items are. Absence is written as null, so the items of an optional value must not
be.

A manifest is such a record, with every number in it a word, so its file reads
back as the manifest, whatever the job's texts and operators are.

Key theorems: `Json.fields?_record`, `Json.asList?_ofList`,
`Json.asOption?_ofOption`, `OpKind.ofJson?_toJson`, `Annotations.ofJson?_toJson`,
`JobManifest.read?_document`, `JobManifest.read?_document_of`.
-/
import MapReduce.Job.Manifest
import MapReduce.Proofs.Documents

namespace MapReduce

theorem mapM_eq_some_self {α : Type} {g : α → Option α} : ∀ {l : List α},
    l.mapM g = some l ↔ ∀ a ∈ l, g a = some a
  | [] => by simp
  | a :: l => by
    rw [List.forall_mem_cons, ← mapM_eq_some_self, List.mapM_cons]
    cases hg : g a with
    | none => simp
    | some b =>
      cases hl : l.mapM g with
      | none => simp
      | some l' => simp

namespace Json

/-! ### Leaves -/

theorem wholeRange_of_lt {n : Nat} (h : n < Nat.pow 2 64) : WholeRange n :=
  ⟨by have : (0 : Int) ≤ (Nat.pow 2 63 : Nat) := Int.natCast_nonneg _
      omega, by exact_mod_cast h⟩

theorem legible_nat {n : Nat} (h : n < Nat.pow 2 64) : (nat n).Legible := .int (wholeRange_of_lt h)

@[simp] theorem legible_bool (b : Bool) : (Json.bool b).Legible := .bool b

@[simp] theorem legible_text (s : String) : (text s).Legible := .str (isText_utf8 s)

@[simp] theorem legible_uint8 (w : UInt8) : (nat w.toNat).Legible :=
  legible_nat (Nat.lt_trans w.toNat_lt (by decide))

@[simp] theorem legible_uint32 (w : UInt32) : (nat w.toNat).Legible :=
  legible_nat (Nat.lt_trans w.toNat_lt (by decide))

@[simp] theorem legible_uint64 (w : UInt64) : (nat w.toNat).Legible := legible_nat w.toNat_lt

@[simp] theorem asText?_text (s : String) : asText? (text s) = some s := text?_utf8 s

@[simp] theorem asBool?_bool (b : Bool) : asBool? (.bool b) = some b := rfl

theorem asWord?_nat {n m : Nat} (h : m < Nat.pow 2 n) : asWord? n (nat m) = some m := if_pos h

@[simp] theorem asUInt8?_toNat (w : UInt8) : asUInt8? (nat w.toNat) = some w := by
  simp [asUInt8?, asWord?_nat w.toNat_lt]

@[simp] theorem asUInt32?_toNat (w : UInt32) : asUInt32? (nat w.toNat) = some w := by
  simp [asUInt32?, asWord?_nat w.toNat_lt]

@[simp] theorem asUInt64?_toNat (w : UInt64) : asUInt64? (nat w.toNat) = some w := by
  simp [asUInt64?, asWord?_nat w.toNat_lt]

/-! ### Lists and optional values -/

section

variable {α : Type} {enc : α → Json} {dec : Json → Option α}

@[simp] theorem legible_ofList {l : List α} : (ofList enc l).Legible ↔ ∀ a ∈ l, (enc a).Legible := by
  constructor
  · intro h a ha
    cases h with
    | arr all => exact all _ (List.mem_map_of_mem ha)
  · intro h
    refine .arr fun j hj => ?_
    obtain ⟨a, ha, rfl⟩ := List.mem_map.1 hj
    exact h a ha

/-- A list is read item by item. -/
theorem asList?_ofList_eq_mapM (enc : α → Json) (dec : Json → Option α) (l : List α) :
    asList? dec (ofList enc l) = l.mapM fun a => dec (enc a) := by
  rw [ofList, asList?]
  induction l with
  | nil => rfl
  | cons a l ih => rw [List.map_cons, List.mapM_cons, List.mapM_cons, ih]

/-- A list is read back if its items are. -/
theorem asList?_ofList {l : List α} (h : ∀ a ∈ l, dec (enc a) = some a) :
    asList? dec (ofList enc l) = some l := by
  rw [asList?_ofList_eq_mapM]
  exact mapM_eq_some_self.mpr h

@[simp] theorem legible_ofOption {o : Option α} :
    (ofOption enc o).Legible ↔ ∀ a ∈ o, (enc a).Legible := by
  cases o with
  | none => simp [ofOption, Legible.null]
  | some a => simp [ofOption]

/-- An optional value is read back if no value is written as null. -/
theorem asOption?_ofOption {o : Option α} (hn : ∀ a, enc a ≠ .null) (h : ∀ a, dec (enc a) = some a) :
    asOption? dec (ofOption enc o) = some o := by
  cases o with
  | none => rfl
  | some a =>
    rw [ofOption, asOption?.eq_2 _ _ (hn a), h a]
    rfl

theorem optional?_ofOption {o : Option α} (hn : ∀ a, enc a ≠ .null) (h : ∀ a, dec (enc a) = some a) :
    optional? dec (some (ofOption enc o)) = some o := asOption?_ofOption hn h

@[simp] theorem required?_some (j : Json) : required? dec (some j) = dec j := rfl

end

/-! ### Records and alternatives -/

@[simp] theorem legible_record {fields : List (String × Json)} :
    (record fields).Legible ↔ ∀ p ∈ fields, p.2.Legible := by
  constructor
  · intro h p hp
    cases h with
    | obj _ all => exact all _ (List.mem_map_of_mem hp)
  · intro h
    refine .obj (fun f hf => ?_) fun f hf => ?_
    · obtain ⟨p, -, rfl⟩ := List.mem_map.1 hf
      exact isText_utf8 p.1
    · obtain ⟨p, hp, rfl⟩ := List.mem_map.1 hf
      exact h p hp

/-- A field that stands among fields of different names is found. -/
theorem field?_of_mem {named : List (String × Json)} (hn : (named.map Prod.fst).Nodup)
    {p : String × Json} (hp : p ∈ named) : field? named p.1 = some (some p.2) := by
  have hfilter : named.filter (fun q => q.1 == p.1) = [p] := by
    induction named with
    | nil => cases hp
    | cons q named ih =>
      rw [List.map_cons, List.nodup_cons] at hn
      rcases List.mem_cons.1 hp with rfl | hp
      · have hrest : ∀ q ∈ named, ¬ (q.1 == p.1) = true := fun q hq heq =>
          hn.1 (eq_of_beq heq ▸ List.mem_map_of_mem hq)
        rw [List.filter_cons_of_pos (by simp), List.filter_eq_nil_iff.2 hrest]
      · have hne : ¬ (q.1 == p.1) = true := fun heq =>
          hn.1 (eq_of_beq heq ▸ List.mem_map_of_mem hp)
        rw [List.filter_cons, if_neg hne, ih hn.2 hp]
  rw [field?, hfilter]

theorem mapM_field? {named : List (String × Json)} : ∀ {fields : List (String × Json)},
    (∀ p ∈ fields, field? named p.1 = some (some p.2)) →
    (fields.map Prod.fst).mapM (field? named) = some (fields.map fun p => some p.2)
  | [], _ => rfl
  | p :: fields, h => by
    have hfields := mapM_field? fun q hq => h q (List.mem_cons_of_mem p hq)
    simp [List.mapM_cons, h p List.mem_cons_self, hfields]

/-- **The fields of a record are found**, in their order, if their names differ. -/
theorem fields?_record {names : List String} {fields : List (String × Json)} (hn : names.Nodup)
    (hnames : fields.map Prod.fst = names) :
    fields? names (record fields) = some (fields.map fun p => some p.2) := by
  subst hnames
  have hnamed : ∀ l : List (String × Json),
      (l.map fun p => (utf8 p.1, p.2)).mapM (fun p => (text? p.1).map fun k => (k, p.2)) = some l := by
    intro l
    induction l with
    | nil => rfl
    | cons p l ih => simp [List.mapM_cons, text?_utf8, ih]
  rw [record, fields?, hnamed]
  exact mapM_field? fun p hp => field?_of_mem hn hp

@[simp] theorem legible_alternative {name : String} {j : Json} :
    (alternative name j).Legible ↔ j.Legible := by
  simp [alternative]

@[simp] theorem variant?_text (name : String) : variant? (text name) = some (name, none) := by
  simp [variant?, text, text?_utf8]

@[simp] theorem variant?_alternative (name : String) (j : Json) :
    variant? (alternative name j) = some (name, some j) := by
  simp [variant?, alternative, record, text?_utf8]

end Json

/-! ### Names -/

theorem find?_of_injective {α : Type} {name : α → String} (hname : ∀ a b, name a = name b → a = b)
    {a : α} {l : List α} (ha : a ∈ l) : l.find? (fun b => name b == name a) = some a := by
  rw [List.find?_eq_some_iff_append]
  obtain ⟨before, after, rfl, hnot⟩ := List.eq_append_cons_of_mem ha
  refine ⟨beq_self_eq_true _, before, after, rfl, fun b hb => ?_⟩
  simp only [Bool.not_eq_true', beq_eq_false_iff_ne]
  intro heq
  exact hnot (hname b a heq ▸ hb)

namespace DataType

theorem tag_inj (a b : DataType) (h : a.tag = b.tag) : a = b := by
  cases a <;> cases b <;> first | rfl | simp [tag] at h

@[simp] theorem legible_toJson (t : DataType) : t.toJson.Legible := Json.legible_text _

@[simp] theorem ofJson?_toJson (t : DataType) : ofJson? t.toJson = some t := by
  have hall : t ∈ all := by cases t <;> decide
  rw [ofJson?, toJson, Json.variant?_text]
  exact find?_of_injective tag_inj hall

end DataType

namespace Stage

theorem name_inj (a b : Stage) (h : a.name = b.name) : a = b := by
  cases a <;> cases b <;> first | rfl | simp [name] at h

@[simp] theorem legible_toJson (s : Stage) : s.toJson.Legible := Json.legible_text _

@[simp] theorem ofJson?_toJson (s : Stage) : ofJson? s.toJson = some s := by
  have hall : s ∈ [whole, initial, intermediate, final] := by cases s <;> decide
  rw [ofJson?, toJson, Json.variant?_text]
  exact find?_of_injective name_inj hall

end Stage

/-! ### Operators -/

namespace Key

@[simp] theorem legible_toJson (k : Key) : k.toJson.Legible := by simp [toJson]

@[simp] theorem ofJson?_toJson (k : Key) : ofJson? k.toJson = some k := by
  have hfields : Json.fields? ["scope", "id"] k.toJson =
      some [some (Json.text k.scope), some (Json.nat k.id.toNat)] := Json.fields?_record (by decide) rfl
  simp [ofJson?, hfields]

end Key

namespace FileSpec

@[simp] theorem legible_toJson (f : FileSpec) : f.toJson.Legible := by simp [toJson]

@[simp] theorem ofJson?_toJson (f : FileSpec) : ofJson? f.toJson = some f := by
  have hfields : Json.fields? ["path", "func"] f.toJson =
      some [some (Json.text f.path), some (Json.text f.func)] := Json.fields?_record (by decide) rfl
  simp [ofJson?, hfields]

theorem toJson_ne_null (f : FileSpec) : f.toJson ≠ .null := nofun

end FileSpec

namespace AggCall

@[simp] theorem legible_toJson (c : AggCall) : c.toJson.Legible := by simp [toJson]

@[simp] theorem ofJson?_toJson (c : AggCall) : ofJson? c.toJson = some c := by
  have hfields : Json.fields? ["function", "stage", "column"] c.toJson =
      some [some (Json.text c.function), some c.stage.toJson, some (Json.nat c.column.toNat)] :=
    Json.fields?_record (by decide) rfl
  simp [ofJson?, hfields]

end AggCall

namespace OpKind

@[simp] theorem legible_textList (l : List String) : (textList l).Legible := by simp [textList]

@[simp] theorem legible_columnList (l : List UInt64) : (columnList l).Legible := by simp [columnList]

@[simp] theorem asTexts?_textList (l : List String) : asTexts? (textList l) = some l :=
  Json.asList?_ofList fun s _ => Json.asText?_text s

@[simp] theorem asColumns?_columnList (l : List UInt64) : asColumns? (columnList l) = some l :=
  Json.asList?_ofList fun w _ => Json.asUInt64?_toNat w

theorem oneField?_record {α : Type} (name : String) (f : Json → Option α) (j : Json) :
    oneField? name f (.record [(name, j)]) = f j := by
  have hfields : Json.fields? [name] (.record [(name, j)]) = some [some j] :=
    Json.fields?_record (by simp) rfl
  simp [oneField?, hfields]

theorem twoFields?_record {α β : Type} {name name' : String} (hne : name ≠ name')
    (f : Json → Option α) (g : Json → Option β) (j j' : Json) :
    twoFields? name f name' g (.record [(name, j), (name', j')]) =
      (f j).bind fun a => (g j').map fun b => (a, b) := by
  have hfields : Json.fields? [name, name'] (.record [(name, j), (name', j')]) =
      some [some j, some j'] := Json.fields?_record (by simp [hne]) rfl
  cases hf : f j <;> cases hg : g j' <;> simp [twoFields?, hfields, hf, hg]

theorem forEach?_record (projections : List String) (aggregates : List AggCall) (udfs : List String) :
    forEach? (.record [("projections", textList projections),
      ("aggregates", Json.ofList AggCall.toJson aggregates), ("udfs", textList udfs)]) =
      some (.forEach projections aggregates udfs) := by
  have hfields : Json.fields? ["projections", "aggregates", "udfs"]
      (.record [("projections", textList projections),
        ("aggregates", Json.ofList AggCall.toJson aggregates), ("udfs", textList udfs)]) =
      some [some (textList projections), some (Json.ofList AggCall.toJson aggregates),
        some (textList udfs)] := Json.fields?_record (by decide) rfl
  have haggregates : Json.asList? AggCall.ofJson? (Json.ofList AggCall.toJson aggregates) =
      some aggregates := Json.asList?_ofList fun c _ => c.ofJson?_toJson
  simp [forEach?, hfields, haggregates]

@[simp] theorem legible_toJson (k : OpKind) : k.toJson.Legible := by
  cases k <;> simp [toJson]

/-- An operator's kind under a name with a payload. -/
theorem ofJson?_alternative {name : String} (j : Json) (hg : name ≠ "GlobalRearrange")
    (hu : name ≠ "Union") : ofJson? (Json.alternative name j) = ofPayload? name j := by
  simp [ofJson?, hg, hu]

@[simp] theorem ofJson?_toJson (k : OpKind) : ofJson? k.toJson = some k := by
  cases k with
  | globalRearrange => simp [toJson, ofJson?, Json.noPayload]
  | union => simp [toJson, ofJson?, Json.noPayload]
  | forEach projections aggregates udfs =>
    rw [toJson, ofJson?_alternative _ (by decide) (by decide)]
    exact forEach?_record projections aggregates udfs
  | sort columns ascending =>
    have hascending : Json.asList? Json.asBool? (Json.ofList Json.bool ascending) = some ascending :=
      Json.asList?_ofList fun b _ => Json.asBool?_bool b
    rw [toJson, ofJson?_alternative _ (by decide) (by decide)]
    simp [ofPayload?, twoFields?_record, hascending]
  | _ =>
    rw [toJson, ofJson?_alternative _ (by decide) (by decide)]
    simp [ofPayload?, oneField?_record, twoFields?_record]

end OpKind

namespace Operator

@[simp] theorem legible_toJson (op : Operator) : op.toJson.Legible := by simp [toJson]

@[simp] theorem ofJson?_toJson (op : Operator) : ofJson? op.toJson = some op := by
  have hfields : Json.fields? ["key", "kind"] op.toJson = some [some op.key.toJson, some op.kind.toJson] :=
    Json.fields?_record (by decide) rfl
  simp [ofJson?, hfields]

end Operator

namespace PhaseManifest

theorem legible_edgeToJson (e : Key × Key) : (edgeToJson e).Legible := .arr (by simp)

theorem edgeOfJson?_edgeToJson (e : Key × Key) : edgeOfJson? (edgeToJson e) = some e := by
  simp [edgeOfJson?, edgeToJson]

@[simp] theorem legible_toJson (m : PhaseManifest) : m.toJson.Legible := by
  simp [toJson, legible_edgeToJson]

@[simp] theorem ofJson?_toJson (m : PhaseManifest) : ofJson? m.toJson = some m := by
  have hfields : Json.fields? ["operators", "edges"] m.toJson =
      some [some (Json.ofList Operator.toJson m.operators), some (Json.ofList edgeToJson m.edges)] :=
    Json.fields?_record (by decide) rfl
  have hoperators : Json.asList? Operator.ofJson? (Json.ofList Operator.toJson m.operators) =
      some m.operators := Json.asList?_ofList fun op _ => op.ofJson?_toJson
  have hedges : Json.asList? edgeOfJson? (Json.ofList edgeToJson m.edges) = some m.edges :=
    Json.asList?_ofList fun e _ => edgeOfJson?_edgeToJson e
  simp [ofJson?, hfields, hoperators, hedges]

end PhaseManifest

/-! ### Annotations -/

namespace Annotations

theorem optional?_order (o : Option (List Bool)) :
    Json.optional? (Json.asList? Json.asBool?) (some (Json.ofOption (Json.ofList Json.bool) o)) = some o :=
  Json.optional?_ofOption (fun _ => nofun) fun _ => Json.asList?_ofList fun b _ => Json.asBool?_bool b

theorem optional?_count (o : Option UInt64) :
    Json.optional? Json.asUInt64? (some (Json.ofOption (fun n : UInt64 => Json.nat n.toNat) o)) = some o :=
  Json.optional?_ofOption (fun _ => nofun) Json.asUInt64?_toNat

theorem optional?_parallelism (o : Option UInt32) :
    Json.optional? Json.asUInt32? (some (Json.ofOption (fun n : UInt32 => Json.nat n.toNat) o)) = some o :=
  Json.optional?_ofOption (fun _ => nofun) Json.asUInt32?_toNat

theorem optional?_path (o : Option String) :
    Json.optional? Json.asText? (some (Json.ofOption Json.text o)) = some o :=
  Json.optional?_ofOption (fun _ => nofun) Json.asText?_text

theorem asList?_replicated (l : List (Option FileSpec)) :
    Json.asList? (Json.asOption? FileSpec.ofJson?) (Json.ofList (Json.ofOption FileSpec.toJson) l) =
      some l :=
  Json.asList?_ofList fun _ _ => Json.asOption?_ofOption FileSpec.toJson_ne_null FileSpec.ofJson?_toJson

theorem asList?_texts (l : List String) :
    Json.asList? Json.asText? (Json.ofList Json.text l) = some l :=
  Json.asList?_ofList fun s _ => Json.asText?_text s

@[simp] theorem legible_toJson (a : Annotations) : a.toJson.Legible := by
  simp [toJson, fieldNames, fieldValues]

@[simp] theorem ofJson?_toJson (a : Annotations) : ofJson? a.toJson = some a := by
  have hfields : Json.fields? fieldNames a.toJson = some (a.fieldValues.map some) :=
    Json.fields?_record (by decide) rfl
  rw [ofJson?, hfields, Option.bind_eq_bind, Option.bind_some, fieldValues]
  simp only [List.map_cons, List.map_nil, Json.required?_some, DataType.ofJson?_toJson,
    Json.asBool?_bool, optional?_order, optional?_count, optional?_path, asList?_replicated,
    optional?_parallelism, asList?_texts]
  rfl

end Annotations

namespace Digest

@[simp] theorem legible_toJson (d : Digest) : d.toJson.Legible := by simp [toJson]

@[simp] theorem ofJson?_toJson (d : Digest) : ofJson? d.toJson = some d := by
  have hbytes : Json.asList? Json.asUInt8? d.toJson = some d.bytes.toList :=
    Json.asList?_ofList fun b _ => Json.asUInt8?_toNat b
  simp only [ofJson?, hbytes, Option.bind_eq_bind, Option.bind_some, Vector.length_toList, ↓reduceDIte]
  rfl

end Digest

/-! ### Manifests -/

namespace JobManifest

@[simp] theorem legible_toJson (m : JobManifest) : m.toJson.Legible := by simp [toJson]

@[simp] theorem ofJson?_toJson (m : JobManifest) : ofJson? m.toJson = some m := by
  have hfields : Json.fields? ["key", "name", "engine_version", "annotations", "map", "combine",
      "reduce", "digest"] m.toJson = some [some m.key.toJson, some (Json.text m.name),
        some (Json.text m.engineVersion), some m.annotations.toJson, some m.map.toJson,
        some m.combine.toJson, some m.reduce.toJson, some m.digest.toJson] :=
    Json.fields?_record (by decide) rfl
  simp [ofJson?, hfields]

/-- A manifest is read back from its file. -/
theorem read?_document (m : JobManifest) : read? m.document = some m := by
  rw [read?, document, Json.pretty, Json.parse_write true m.legible_toJson]
  exact m.ofJson?_toJson

/-- **The manifest of a job survives its file**: whatever operators, annotations
and texts the job has, the file is a text, and reading it gives the manifest that
was written. -/
theorem read?_document_of (j : Job) :
    ∃ s : String, (of j).document = utf8 s ∧ read? (utf8 s) = some (of j) := by
  obtain ⟨s, hs⟩ := (of j).legible_toJson.isText_write true 0
  refine ⟨s, hs.symm, ?_⟩
  rw [hs]
  exact read?_document (of j)

end JobManifest

end MapReduce
