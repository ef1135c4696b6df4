/-
# An accepted plan can always be routed by

A plan is checked twice: when it is made, no key may need more reducers than there
are; and when rows are sent, the router also refuses a map without reducers, an entry
without reducers, and one that starts beyond the last. For a map that was made from a
sample the two checks agree, since its entries need at least two reducers and start
at one that exists (`exists_ofMap_plannedMap_iff`).

The router only reads where the entries of a map lie, so it also takes a map that was
stored and read again, if that is the same map (`routingFault?_of_same`). A job that
was frozen as a skewed join names a partition file
(`Annotations.exists_partitionFile`), so with the stored map of an accepted plan
it gets its partitioner, and no row of its two inputs is refused
(`planSkewedJoin_routable`).

Key theorems: `exists_ofMap_plannedMap_iff`, `routingFault?_of_same`,
`skewPartitioner_of_sound`, `planSkewedJoin_routable`.
-/
import MapReduce.Proofs.FrozenJobs
import MapReduce.Proofs.PartitionFiles
import MapReduce.Proofs.SkewedJoin

namespace MapReduce

/-! ### Two checks of a plan -/

theorem Router.exists_ofMap_iff (m : PartitionMap) :
    (∃ r, Router.ofMap m = .ok r) ↔ m.routingFault? = none := by
  constructor
  · rintro ⟨r, hr⟩
    unfold Router.ofMap at hr
    split at hr
    · cases hr
    · assumption
  · exact fun h => ⟨_, Router.ofMap_of_sound h⟩

/-- **The check of a plan and the check of its router agree.** -/
theorem exists_ofMap_plannedMap_iff (s : KeySample) {b : Nat} {n : UInt32} (hn : 0 < n.toNat) :
    (∃ r, Router.ofMap (plannedMap s b n) = .ok r) ↔
      (plannedMap s b n).checkParallelism n.toNat = .ok () := by
  rw [Router.exists_ofMap_iff, routingFault?_plannedMap hn, PartitionMap.checkParallelism_eq_ok_iff]

/-! ### The same map, read again -/

namespace PartitionMap

variable {m m' : PartitionMap}

/-- The entries of the same maps lie on the same reducers. -/
theorem exists_mem_of_sameEntries {q : Tuple × PartitionEntry} : ∀ {l l' : List (Tuple × PartitionEntry)},
    sameEntries l l' = true → q ∈ l' →
      ∃ p ∈ l, p.2.partitions = q.2.partitions ∧ p.2.firstReducer = q.2.firstReducer
  | [], [], _, hq => nomatch hq
  | a :: l, b :: l', h, hq => by
    simp only [sameEntries, PartitionEntry.same, Bool.and_eq_true, beq_iff_eq] at h
    obtain ⟨⟨_, ⟨_, hparts⟩, hfirst⟩, hrest⟩ := h
    rcases List.mem_cons.mp hq with rfl | hq
    · exact ⟨a, List.mem_cons_self, hparts, hfirst⟩
    · obtain ⟨p, hp, heq⟩ := exists_mem_of_sameEntries hrest hq
      exact ⟨p, List.mem_cons_of_mem a hp, heq⟩

theorem parallelism_of_same (h : m.same m' = true) : m'.parallelism = m.parallelism := by
  simp only [same, Bool.and_eq_true, beq_iff_eq] at h
  exact h.1.symm

/-- A map that is the same as one that can be routed by can be routed by. -/
theorem routingFault?_of_same (h : m.same m' = true) (hm : m.routingFault? = none) :
    m'.routingFault? = none := by
  have hparallel := parallelism_of_same h
  rw [sound_iff] at hm ⊢
  rw [hparallel]
  refine ⟨hm.1, fun e he => ?_⟩
  obtain ⟨q, hq, rfl⟩ := List.mem_map.mp he
  simp only [same, Bool.and_eq_true] at h
  obtain ⟨p, hp, hparts, hfirst⟩ := exists_mem_of_sameEntries h.2 hq
  have hfits := hm.2 p.2 (List.mem_map_of_mem hp)
  rw [PartitionEntry.Fits, hparts, hfirst] at hfits
  exact hfits

end PartitionMap

/-! ### The partitioner of a job -/

/-- A job that wants as many reducers as a map has gets the partitioner of the map,
if that can be routed by. -/
theorem skewPartitioner_of_sound (j : Job) (path : String) {m : PartitionMap} (h : m.routingFault? = none) :
    skewPartitioner j path m.parallelism.toNat m = .ok (.bySkew ⟨m, h⟩) := by
  have hcheck : m.checkParallelism m.parallelism.toNat = .ok () :=
    (m.checkParallelism_eq_ok_iff _).mpr fun e he => ((m.sound_iff.mp h).2 e he).2.1
  unfold skewPartitioner
  rw [if_neg (not_not.mpr rfl), hcheck, Router.ofMap_of_sound h]
  rfl

/-- Annotations that pass their checks have a partition file if they ask for a skewed
join. -/
theorem Annotations.exists_partitionFile {a : Annotations} (h : a.validate = .ok ())
    (hskew : a.skewedJoin = true) : ∃ path, a.partitionFile = some path := by
  cases hfile : a.partitionFile with
  | some path => exact ⟨path, rfl⟩
  | none =>
    have hflag : (a.skewedJoin != a.isSkewedJoin) = true := by
      rw [isSkewedJoin, hskew, hfile]
      rfl
    rw [validate, check, if_pos hflag] at h
    cases h

/-- What is frozen has passed the checks of its annotations. -/
theorem Draft.validate_of_freeze {d : Draft} {j : Job} (h : d.freeze = .ok j) :
    j.annotations.validate = .ok () := by
  unfold freeze at h
  split at h
  · cases h
  · obtain ⟨_, _, h⟩ := ok_of_bind h
    obtain ⟨_, _, h⟩ := ok_of_bind h
    obtain ⟨_, _, h⟩ := ok_of_bind h
    obtain ⟨_, hann, h⟩ := ok_of_bind h
    cases h
    exact hann

/-- **Planning and routing agree.** A map that was made from a sample passes the check
of its plan exactly if there is a router for it. So an accepted plan has a router, and
so has every map that is the same: a job that was frozen as a skewed join, whose
partition file is read as such a map and that wants the planned number of reducers,
gets the partitioner of a skewed join over that many reducers, and no row of its two
inputs is refused, in whatever order they are sent. -/
theorem planSkewedJoin_routable (s : KeySample) (c : Settings) (n : UInt32) (m : PartitionMap) :
    (PartitionMap.generate s c n = .ok m →
      (m.checkParallelism n.toNat = .ok () ↔ ∃ r, Router.ofMap m = .ok r)) ∧
    (planSkewedJoin s c 2 n = .ok m →
      (∃ r, Router.ofMap m = .ok r) ∧
      ∀ (d : Draft) (j : Job), d.freeze = .ok j → j.annotations.skewedJoin = true →
        ∃ path, j.annotations.partitionFile = some path ∧
          ∀ (read : String → Except Failure Bytes) (settings : Settings) (stored : PartitionMap),
            readPartitionMap read path = .ok stored → m.same stored = true →
            j.parallelism settings = n.toNat →
            ∃ r, Router.ofMap stored = .ok r ∧ partitionerFor j read settings = .ok (.bySkew r) ∧
              (Partitioner.bySkew r).parallelism = n.toNat ∧
              ∀ left right rows, Interleaved left right rows →
                (Shuffle.pushAll (.bySkew r) .empty rows).2 = rows.map fun _ => .ok ()) := by
  constructor
  · intro hgenerate
    obtain ⟨hn, rfl⟩ := PartitionMap.generate_inv hgenerate
    exact (exists_ofMap_plannedMap_iff s hn).symm
  · intro hplan
    have hsound := routingFault?_of_plan hplan
    refine ⟨⟨_, Router.ofMap_of_sound hsound⟩, fun d j hfreeze hskew => ?_⟩
    obtain ⟨path, hpath⟩ := Annotations.exists_partitionFile (Draft.validate_of_freeze hfreeze) hskew
    refine ⟨path, hpath, fun read settings stored hread hsame hwant => ?_⟩
    have hstored := PartitionMap.routingFault?_of_same hsame hsound
    have hparallel : stored.parallelism.toNat = n.toNat := by
      obtain ⟨_, rfl, _⟩ := planSkewedJoin_inv hplan
      rw [PartitionMap.parallelism_of_same hsame, parallelism_plannedMap]
    refine ⟨⟨stored, hstored⟩, Router.ofMap_of_sound hstored, ?_, hparallel, fun left right rows hrows =>
      pushAll_interleaved _ hrows _⟩
    unfold partitionerFor
    rw [hpath, hwant, ← hparallel]
    simp only [hread]
    exact skewPartitioner_of_sound j path hstored

/-- Three rows of one key, one of them on a reducer: two reducers are refused by both
checks, and with three the stored plan serves a frozen job. -/
theorem planSkewedJoin_routable_three :
    let s := sampleAll (List.replicate 3 (⟨[.long 7]⟩, ⟨[]⟩))
    let c : Settings := { Settings.default with maxTuples := 1 }
    let narrow : PartitionMap := .ofEntries 2 [⟨⟨[.long 7]⟩, 3, 0⟩]
    let m : PartitionMap := .ofEntries 3 [⟨⟨[.long 7]⟩, 3, 0⟩]
    let d := (Draft.create ⟨"s", 9⟩).run [.closeMap .severalLeaves true KeyMint.empty,
      .closeReduce true KeyMint.empty, .annotate fun a =>
        { a with skewedJoin := true, partitionFile := some "p", requestedParallelism := some 3 }]
    (PartitionMap.generate s c 2 = .ok narrow ∧ narrow.checkParallelism 2 ≠ .ok () ∧
      ¬∃ r, Router.ofMap narrow = .ok r) ∧
    planSkewedJoin s c 2 3 = .ok m ∧ d.freeze = .ok d.job ∧
      ∃ r, partitionerFor d.job (writePartitionMap .inMemory "p" m).1.read c = .ok (.bySkew r) ∧
        (Partitioner.bySkew r).parallelism = 3 := by
  intro s c narrow m d
  have hnarrow : PartitionMap.generate s c 2 = .ok narrow := by decide +kernel
  have hcheck : narrow.checkParallelism 2 ≠ .ok () := by decide +kernel
  have hplan : planSkewedJoin s c 2 3 = .ok m := by decide +kernel
  have hfreeze : d.freeze = .ok d.job := by cbv
  have hdurable : ∀ e ∈ m.entries, e.key.Durable := by decide +kernel
  have hself : m.entries.mapM PartitionEntry.reread? = some m.entries :=
    mapM_eq_some_self.mpr fun e he => PartitionEntry.reread?_eq_self.mpr (hdurable e he)
  have hread := readPartitionMap_write OrderedMap.empty "p" m
  rw [hself, Option.elim_some, if_pos rfl] at hread
  obtain ⟨path, hpath, hall⟩ := ((planSkewedJoin_routable s c 3 m).2 hplan).2 d d.job hfreeze rfl
  cases hpath
  obtain ⟨r, _, hr, hparallel, _⟩ := hall _ c _ hread (by decide +kernel) rfl
  exact ⟨⟨hnarrow, hcheck, fun h => hcheck (((planSkewedJoin_routable s c 2 narrow).1 hnarrow).mpr h)⟩,
    hplan, hfreeze, r, hr, hparallel⟩

end MapReduce
