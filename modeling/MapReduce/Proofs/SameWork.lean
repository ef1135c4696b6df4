/-
# Equal digests, equal work

The digest of a job is that of the compact document of its annotations and its
three phases. Two layers have to lose nothing. The document can be read again, so
it tells apart what is written in it (`Json.eq_of_write_eq`, `ofJson?_toJson`). And
a sound plan can be recovered from its manifest: the operators listed are those
stored, under their own keys (`mem_operators_of`), the edges listed are those
recorded (`mem_edges_of`), and operators and edges together are the whole plan,
since both indexes have a record for each operator and mirror each other
(`Graph.WellFormed.ext`).

A job that was frozen has sound plans, so for two such jobs what is hashed is the
same exactly if their work is. The keys of the jobs are not in it.

Key theorems: `Graph.WellFormed.ext`, `PhaseManifest.eq_of_of_eq`,
`JobManifest.workOf_compact_eq_iff`.
-/
import MapReduce.Proofs.FrozenJobs
import MapReduce.Proofs.Records

namespace MapReduce

/-! ### Graphs by their vertices and edges -/

theorem OrderedSet.ext_elements {s t : KeySet} (h : ∀ k, k ∈ s.elements ↔ k ∈ t.elements) : s = t := by
  refine OrderedMap.ext_find? fun k => ?_
  by_cases hk : k ∈ s.elements
  · obtain ⟨_, hs⟩ := (OrderedMap.mem_keys_iff s).mp hk
    obtain ⟨_, ht⟩ := (OrderedMap.mem_keys_iff t).mp ((h k).mp hk)
    rw [hs, ht]
  · rw [(OrderedMap.find?_eq_none_iff s).mpr hk,
      (OrderedMap.find?_eq_none_iff t).mpr fun ht => hk ((h k).mpr ht)]

/-- An index is known by the keys it has a record for and by the ends of each. -/
theorem EdgeIndex.ext_ends {e e' : EdgeIndex} (hkeys : OrderedMap.keys e = OrderedMap.keys e')
    (h : ∀ a b, b ∈ e.ends a ↔ b ∈ e'.ends a) : e = e' := by
  refine OrderedMap.ext_find? fun a => ?_
  by_cases ha : a ∈ OrderedMap.keys e
  · obtain ⟨s, hs⟩ := (OrderedMap.mem_keys_iff e).mp ha
    obtain ⟨t, ht⟩ := (OrderedMap.mem_keys_iff e').mp (hkeys ▸ ha)
    have hst : s = t := by
      refine OrderedSet.ext_elements fun b => ?_
      have hab := h a b
      rwa [EdgeIndex.ends, EdgeIndex.ends, hs, ht] at hab
    rw [hs, ht, hst]
  · rw [(OrderedMap.find?_eq_none_iff e).mpr ha,
      (OrderedMap.find?_eq_none_iff e').mpr fun ha' => ha (hkeys ▸ ha')]

/-- A well-formed graph with a record for every vertex is known by its vertices and its
edges. -/
theorem Graph.WellFormed.ext {α : Type} {g g' : Graph α} (hg : g.WellFormed) (hg' : g'.WellFormed)
    (hi : g.Indexed) (hi' : g'.Indexed) (hnodes : g.nodes = g'.nodes)
    (hedges : ∀ a b, g.Edge a b ↔ g'.Edge a b) : g = g' := by
  have hkeys : g.keys = g'.keys := congrArg OrderedMap.keys hnodes
  have hout : g.outgoing = g'.outgoing :=
    EdgeIndex.ext_ends (hi.outgoing_keys.trans (hkeys.trans hi'.outgoing_keys.symm)) hedges
  have hin : g.incoming = g'.incoming := by
    refine EdgeIndex.ext_ends (hi.incoming_keys.trans (hkeys.trans hi'.incoming_keys.symm)) fun b a => ?_
    calc a ∈ g.incoming.ends b
      _ ↔ g.Edge a b := (hg.mirror a b).symm
      _ ↔ g'.Edge a b := hedges a b
      _ ↔ a ∈ g'.incoming.ends b := hg'.mirror a b
  cases g
  cases g'
  simp_all only

/-! ### Plans by their manifests -/

/-- A sound plan is known by its operators and its edges. -/
theorem PhasePlan.Sound.ext {p q : PhasePlan} (hp : p.Sound) (hq : q.Sound)
    (hops : ∀ op : Operator, p.find? op.key = some op ↔ q.find? op.key = some op)
    (hedges : ∀ a b, p.graph.Edge a b ↔ q.graph.Edge a b) : p = q := by
  have hfind : ∀ k op, p.find? k = some op ↔ q.find? k = some op := by
    intro k op
    constructor
    · intro h
      have hkey : op.key = k := hp.ownKey k op h
      exact hkey ▸ (hops op).mp (hkey ▸ h)
    · intro h
      have hkey : op.key = k := hq.ownKey k op h
      exact hkey ▸ (hops op).mpr (hkey ▸ h)
  have hnodes : p.graph.nodes = q.graph.nodes :=
    OrderedMap.ext_find? fun k => Option.ext fun op => hfind k op
  have hgraph := hp.wellFormed.ext hq.wellFormed hp.indexed hq.indexed hnodes hedges
  cases p
  cases q
  exact congrArg PhasePlan.mk hgraph

namespace PhaseManifest

variable {p q : PhasePlan}

/-- The operators of a manifest are those of the plan. -/
theorem mem_operators_of (h : p.Sound) {op : Operator} :
    op ∈ (of p).operators ↔ p.find? op.key = some op := by
  rw [of, List.mem_filterMap]
  constructor
  · rintro ⟨k, _, hk⟩
    rw [h.ownKey k op hk]
    exact hk
  · intro hop
    have hkey : op.key ∈ p.graph.keys := Graph.mem_keys_iff.mpr ⟨op, hop⟩
    exact ⟨op.key, h.wellFormed.perm_topological.mem_iff.mpr hkey, hop⟩

/-- The edges of a manifest are those of the plan. -/
theorem mem_edges_of (h : p.Sound) {a b : Key} : (a, b) ∈ (of p).edges ↔ p.graph.Edge a b := by
  rw [of, List.mem_flatMap]
  constructor
  · rintro ⟨k, _, hk⟩
    obtain ⟨l, hl, heq⟩ := List.mem_map.mp hk
    obtain ⟨rfl, rfl⟩ := Prod.mk.inj heq
    exact hl
  · intro he
    have hkey := (h.wellFormed.mem_keys_of_edge he).1
    exact ⟨a, h.wellFormed.perm_topological.mem_iff.mpr hkey, List.mem_map_of_mem he⟩

/-- **A sound plan is recovered from its manifest.** -/
theorem eq_of_of_eq (hp : p.Sound) (hq : q.Sound) (h : of p = of q) : p = q := by
  refine hp.ext hq (fun op => ?_) fun a b => ?_
  · rw [← mem_operators_of hp, ← mem_operators_of hq, h]
  · rw [← mem_edges_of hp, ← mem_edges_of hq, h]

theorem toJson_inj {m m' : PhaseManifest} (h : m.toJson = m'.toJson) : m = m' := by
  have hread := congrArg ofJson? h
  rwa [ofJson?_toJson, ofJson?_toJson, Option.some.injEq] at hread

end PhaseManifest

/-! ### Jobs by what is hashed -/

theorem Annotations.toJson_inj {a a' : Annotations} (h : a.toJson = a'.toJson) : a = a' := by
  have hread := congrArg Annotations.ofJson? h
  rwa [Annotations.ofJson?_toJson, Annotations.ofJson?_toJson, Option.some.injEq] at hread

theorem Draft.Complete.annotate {d : Draft} (h : d.Complete) {f : Annotations → Annotations}
    (hf : (f d.annotations).validate = .ok ()) : (d.annotate f).Complete where
  isSet latch := by
    rw [Draft.isSet_annotate]
    exact h.isSet latch
  leaves latch := by
    rw [Draft.plan_annotate]
    exact h.leaves latch
  combine := h.combine
  annotations := hf

namespace JobManifest

theorem legible_workOf (j : Job) : (workOf j).Legible := by
  simp [workOf, work]

/-- The parts of a job that its digest covers. -/
theorem workOf_inj {a b : Job} (h : workOf a = workOf b) :
    a.annotations = b.annotations ∧ PhaseManifest.of a.mapPlan = .of b.mapPlan ∧
      PhaseManifest.of a.combinePlan = .of b.combinePlan ∧
      PhaseManifest.of a.reducePlan = .of b.reducePlan := by
  simp only [workOf, work, Json.record, List.map_cons, List.map_nil, Json.obj.injEq, List.cons.injEq,
    Prod.mk.injEq, true_and, and_true] at h
  obtain ⟨hann, hmap, hcombine, hreduce⟩ := h
  exact ⟨Annotations.toJson_inj hann, PhaseManifest.toJson_inj hmap, PhaseManifest.toJson_inj hcombine,
    PhaseManifest.toJson_inj hreduce⟩

/-- The plans of a frozen job are sound. -/
theorem sound_of_freeze {key : Key} {actions : List Draft.Action} {j : Job}
    (h : ((Draft.create key).run actions).freeze = .ok j) :
    j.mapPlan.Sound ∧ j.combinePlan.Sound ∧ j.reducePlan.Sound := by
  have hsound := (Draft.sound_create key).run actions
  obtain ⟨_, rfl⟩ := hsound.freeze_eq_ok_iff.mp h
  exact ⟨hsound .map, hsound .combine, hsound .reduce⟩

/-- **Equal digests mean equal work.** The digest of a job is that of the compact
document of its work. For two jobs that were frozen, however their drafts were
built, these documents are the same bytes exactly if the annotations and the
plans of all phases are equal; the key of a job has no part in them. -/
theorem workOf_compact_eq_iff {key key' : Key} {actions actions' : List Draft.Action} {a b : Job}
    (ha : ((Draft.create key).run actions).freeze = .ok a)
    (hb : ((Draft.create key').run actions').freeze = .ok b) :
    (of a).digest = .of (workOf a).compact ∧ (of b).digest = .of (workOf b).compact ∧
      ((workOf a).compact = (workOf b).compact ↔
        a.annotations = b.annotations ∧ a.mapPlan = b.mapPlan ∧ a.combinePlan = b.combinePlan ∧
          a.reducePlan = b.reducePlan) ∧
      ∀ k, (workOf { a with key := k }).compact = (workOf a).compact := by
  obtain ⟨hmap, hcombine, hreduce⟩ := sound_of_freeze ha
  obtain ⟨hmap', hcombine', hreduce'⟩ := sound_of_freeze hb
  refine ⟨rfl, rfl, ⟨fun h => ?_, fun h => ?_⟩, fun _ => rfl⟩
  · have hwork := Json.eq_of_write_eq false (legible_workOf a) (legible_workOf b) h
    obtain ⟨hann, hm, hc, hr⟩ := workOf_inj hwork
    exact ⟨hann, PhaseManifest.eq_of_of_eq hmap hmap' hm, PhaseManifest.eq_of_of_eq hcombine hcombine' hc,
      PhaseManifest.eq_of_of_eq hreduce hreduce' hr⟩
  · obtain ⟨hann, hm, hc, hr⟩ := h
    rw [workOf, workOf, hann, hm, hc, hr]

theorem complete_twoLoads : ((Draft.create ⟨"s", 9⟩).run Draft.twoLoads).Complete where
  isSet latch := by cases latch <;> cbv
  leaves latch := by cases latch <;> cbv
  combine := by
    have hkeys : ((Draft.create ⟨"s", 9⟩).run Draft.twoLoads).combinePlan.graph.keys = [] := by cbv
    intro a ha
    rw [hkeys] at ha
    cases ha
  annotations := by cbv

/-- A limit shows in what is hashed; another key of the job does not. -/
theorem workOf_compact_ne_of_limit :
    ∃ a b, ((Draft.create ⟨"s", 9⟩).run Draft.twoLoads).freeze = .ok a ∧
      ((Draft.create ⟨"s", 9⟩).run
        (Draft.twoLoads ++ [.annotate fun x => { x with limit := some 3 }])).freeze = .ok b ∧
      (workOf a).compact ≠ (workOf b).compact ∧
      (workOf { a with key := ⟨"t", 1⟩ }).compact = (workOf a).compact := by
  have hsound := (Draft.sound_create ⟨"s", 9⟩).run Draft.twoLoads
  have hann : ((Draft.create ⟨"s", 9⟩).run Draft.twoLoads).annotations = {} := by cbv
  have hlimited : ((Draft.create ⟨"s", 9⟩).run
      (Draft.twoLoads ++ [.annotate fun x => { x with limit := some 3 }])) =
      ((Draft.create ⟨"s", 9⟩).run Draft.twoLoads).annotate fun x => { x with limit := some 3 } := by
    rw [Draft.run, List.foldl_append]
    rfl
  have ha := hsound.freeze_eq_ok_iff.mpr ⟨complete_twoLoads, rfl⟩
  have hb := ((Draft.sound_create ⟨"s", 9⟩).run
    (Draft.twoLoads ++ [.annotate fun x => { x with limit := some 3 }])).freeze_eq_ok_iff.mpr
    ⟨hlimited ▸ complete_twoLoads.annotate (hann ▸ by cbv), rfl⟩
  obtain ⟨_, _, hiff, hkey⟩ := workOf_compact_eq_iff ha hb
  refine ⟨_, _, ha, hb, fun h => ?_, hkey ⟨"t", 1⟩⟩
  have hlimit := congrArg Annotations.limit (hiff.mp h).1
  rw [hlimited] at hlimit
  change ((Draft.create ⟨"s", 9⟩).run Draft.twoLoads).annotations.limit = some 3 at hlimit
  rw [hann] at hlimit
  cases hlimit

end JobManifest
end MapReduce
