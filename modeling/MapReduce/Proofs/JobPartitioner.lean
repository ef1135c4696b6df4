/-
# The partitioner of a job

A job gets its partitioner in one of three ways (`partitionerFor_eq_ok_iff`): from a
stored partition map, if it names a partition file; from stored bounds, if it sorts
globally; and by hash otherwise. Each way checks something else, in files that anyone
may have written, and each time the checks are enough: there is a reducer, every row
goes to some reducers that exist, to none of them twice, and the arithmetic of words
that finds them goes through (`partitionerFor_total`). Only a third input of a skewed
join is refused.

The three ways also take the number of reducers from different places. By hash and by a
partition map it is the number the job requests. The bounds are not compared with it:
there are always as many reducers as ranges (`partitionerFor_parallelism`).

Key definitions: `Job.RoutesBy`, `Partitioner.Serves`, `Partitioner.Total`,
`Job.wordRouting`.
Key theorems: `partitionerFor_eq_ok_iff`, `Quantiles.read_write`,
`partitionerFor_total`, `partitionerFor_parallelism`.
-/
import MapReduce.Proofs.ParallelGroups
import MapReduce.Proofs.PlannedRouting
import MapReduce.Proofs.WordRouting

namespace MapReduce

/-! ### Three ways to a partitioner -/

/-- Whether the first column of the sort order ascends. -/
def Job.firstAscends (j : Job) : Bool := (j.annotations.sortOrder.bind List.head?).getD true

/-- The bounds that a job routes by: it is no skewed join, it sorts globally, and they
are stored where it says. -/
structure Job.RoutesBy (j : Job) (read : String → Except Failure Bytes) (q : Quantiles) : Prop where
  notSkewed : j.annotations.partitionFile = none
  sorts : j.annotations.globalSort = true
  stored : ∃ path, j.annotations.quantileFile = some path ∧ Quantiles.read read path = .ok q

theorem Job.RoutesBy.unique {j : Job} {read : String → Except Failure Bytes} {q q' : Quantiles}
    (h : j.RoutesBy read q) (h' : j.RoutesBy read q') : q = q' := by
  obtain ⟨path, hpath, hq⟩ := h.stored
  obtain ⟨path', hpath', hq'⟩ := h'.stored
  obtain rfl : path = path' := Option.some.inj (hpath.symm.trans hpath')
  exact Except.ok.inj (hq.symm.trans hq')

/-- A job, with what is stored and the settings, is served by a partitioner. -/
inductive Partitioner.Serves (j : Job) (read : String → Except Failure Bytes) (c : Settings) :
    Partitioner → Prop where
  | bySkew {path : String} (r : Router) : j.annotations.partitionFile = some path →
      readPartitionMap read path = .ok r.map → r.parallelism = j.parallelism c → Serves j read c (.bySkew r)
  | byRange {q : Quantiles} {p : Partitioner} : j.RoutesBy read q →
      Partitioner.byRange q j.firstAscends = .ok p → Serves j read c p
  | byHash : j.annotations.partitionFile = none → j.annotations.globalSort = false →
      Serves j read c (.byHash (j.parallelism c))

theorem skewPartitioner_of_ne (j : Job) (path : String) {requested : Nat} {m : PartitionMap}
    (h : m.parallelism.toNat ≠ requested) : skewPartitioner j path requested m =
      .error (.validation (.otherParallelism j.key path m.parallelism.toNat requested)) := by
  rw [skewPartitioner, if_pos h]
  rfl

/-- A stored map gives a partitioner exactly if it was made for as many reducers as are
requested and can be routed by. -/
theorem skewPartitioner_eq_ok_iff {j : Job} {path : String} {requested : Nat} {m : PartitionMap}
    {p : Partitioner} : skewPartitioner j path requested m = .ok p ↔
      ∃ r : Router, r.map = m ∧ r.parallelism = requested ∧ p = .bySkew r := by
  constructor
  · intro h
    by_cases hn : m.parallelism.toNat = requested
    · rw [skewPartitioner, if_neg (not_not.mpr hn)] at h
      obtain ⟨_, _, h⟩ := ok_of_bind h
      obtain ⟨r, hr, h⟩ := ok_of_bind h
      have hsound := (Router.exists_ofMap_iff m).mp ⟨r, mapError_eq_ok_iff.mp hr⟩
      rw [Router.ofMap_of_sound hsound] at hr
      cases hr
      exact ⟨⟨m, hsound⟩, rfl, hn, (Except.ok.inj h).symm⟩
    · rw [skewPartitioner_of_ne j path hn] at h
      cases h
  · rintro ⟨r, rfl, rfl, rfl⟩
    exact skewPartitioner_of_sound j path r.sound

/-- **What serves a job.** -/
theorem partitionerFor_eq_ok_iff {j : Job} {read : String → Except Failure Bytes} {c : Settings}
    {p : Partitioner} : partitionerFor j read c = .ok p ↔ Partitioner.Serves j read c p := by
  constructor
  · intro h
    unfold partitionerFor at h
    split at h
    · rename_i path hpath
      obtain ⟨m, hm, h⟩ := ok_of_bind h
      obtain ⟨r, rfl, hr, rfl⟩ := skewPartitioner_eq_ok_iff.mp h
      exact .bySkew r hpath hm hr
    · rename_i hfile
      split at h
      · rename_i hsort
        split at h
        · cases h
        · rename_i path hpath
          obtain ⟨q, hq, h⟩ := ok_of_bind h
          exact .byRange ⟨hfile, hsort, path, hpath, hq⟩ (mapError_eq_ok_iff.mp h)
      · rename_i hsort
        cases h
        exact .byHash hfile (Bool.not_eq_true _ ▸ hsort)
  · intro h
    unfold partitionerFor
    cases h with
    | bySkew r hpath hm hr =>
      rw [hpath]
      simp only [hm]
      exact skewPartitioner_eq_ok_iff.mpr ⟨r, rfl, hr, rfl⟩
    | byRange hroutes hp =>
      obtain ⟨path, hpath, hq⟩ := hroutes.stored
      rw [hroutes.notSkewed, hroutes.sorts, hpath]
      simp only [hq]
      exact mapError_eq_ok_iff.mpr hp
    | byHash hfile hsort =>
      rw [hfile, hsort]
      rfl

/-- Bounds in ascending order are always taken. -/
theorem Job.RoutesBy.partitionerFor_eq {j : Job} {read : String → Except Failure Bytes} {q : Quantiles}
    (h : j.RoutesBy read q) (hsorted : KeysSorted q.boundaries) (c : Settings) :
    partitionerFor j read c =
      .ok ⟨q.boundaries.length + 1, fun _ key _ => .ok [q.reducerOf j.firstAscends key]⟩ :=
  partitionerFor_eq_ok_iff.mpr (.byRange h (Partitioner.byRange_eq_ok_iff.mpr ⟨hsorted, rfl⟩))

/-! ### Stored bounds -/

namespace Quantiles

theorem ofJson?_toJson (q : Quantiles) : ofJson? q.toJson = (q.boundaries.mapM Tuple.reread?).map Quantiles.mk := by
  have hfields : Json.fields? ["boundaries"] q.toJson = some [some (Json.ofList Tuple.toJson q.boundaries)] :=
    Json.fields?_record (by decide) rfl
  simp only [ofJson?, hfields, Option.bind_eq_bind, Option.bind_some, Json.required?_some,
    Json.asList?_ofList_eq_mapM, Tuple.ofJson?_toJson]
  cases q.boundaries.mapM Tuple.reread? <;> rfl

/-- **Stored bounds are read back as the tuples in them are.** -/
theorem read_write (files : FileTable) (path : String) (q : Quantiles) :
    Quantiles.read (q.write (.memory files) path).1.read path =
      (q.boundaries.mapM Tuple.reread?).elim (.error (.storage .document)) fun bounds => .ok ⟨bounds⟩ := by
  have hread : (q.write (.memory files) path).1.read path = .ok q.toJson.compact := by
    have hfind : (files.insert path q.toJson.compact).find? path = some q.toJson.compact := by
      rw [OrderedMap.find?_insert, if_pos Std.ReflCmp.compare_self]
    unfold Quantiles.write Storage.write Storage.read
    dsimp only
    rw [hfind]
  have hlegible : q.toJson.Legible := by simp [toJson, Tuple.legible_toJson]
  have hvalue : (Json.parse q.toJson.compact).bind ofJson? = (q.boundaries.mapM Tuple.reread?).map Quantiles.mk := by
    have hparse : Json.parse q.toJson.compact = some q.toJson := Json.parse_write false hlegible
    rw [hparse, Option.bind_some, ofJson?_toJson]
  unfold Quantiles.read
  simp only [hread]
  cases hbounds : q.boundaries.mapM Tuple.reread? with
  | none =>
    rw [hbounds] at hvalue
    simp only [bind, Except.bind, hvalue]
    rfl
  | some bounds =>
    rw [hbounds] at hvalue
    simp only [bind, Except.bind, hvalue]
    rfl

/-- Bounds whose real numbers survive a document are read back. -/
theorem read_of_durable (files : FileTable) (path : String) {q : Quantiles} (h : ∀ b ∈ q.boundaries, b.Durable) :
    Quantiles.read (q.write (.memory files) path).1.read path = .ok q := by
  have hself : q.boundaries.mapM Tuple.reread? = some q.boundaries :=
    mapM_eq_some_self.mpr fun b hb => Tuple.reread?_eq_self.mpr (h b hb)
  rw [read_write, hself, Option.elim_some]

end Quantiles

/-! ### Every row that is taken goes to reducers that exist -/

namespace Partitioner

/-- There is a reducer; every row goes to some reducers, all of which exist, and to none
of them twice, except for the rows of refused inputs, which cannot be routed. -/
structure Total (p : Partitioner) (refused : Nat → Prop) : Prop where
  one_le : 1 ≤ p.parallelism
  takes : ∀ input key seq, ¬refused input → ∃ reducers, p.route input key seq = .ok reducers ∧
    reducers ≠ [] ∧ reducers.Nodup ∧ ∀ r ∈ reducers, r < p.parallelism
  refuses : ∀ input key seq, refused input → ∃ e, p.route input key seq = .error e ∧
    e.code = 2107 ∧ e.text = "skewed join has two inputs, got input index " ++ Nat.repr input

theorem SendsTo.total {p : Partitioner} {f : Tuple → Nat} (h : p.SendsTo f) : p.Total fun _ => False := by
  refine ⟨Nat.lt_of_le_of_lt (Nat.zero_le _) (h 0 ⟨[]⟩ 0).2, fun input key seq _ => ?_, fun _ _ _ => nofun⟩
  refine ⟨[f key], (h input key seq).1, List.cons_ne_nil _ _, List.nodup_singleton _, fun r hr => ?_⟩
  rw [List.mem_singleton.mp hr]
  exact (h input key seq).2

theorem total_bySkew (r : Router) : (bySkew r).Total fun input => 2 ≤ input := by
  refine ⟨r.parallelism_pos, fun input key seq hinput => ?_,
    fun input key seq hinput => ⟨_, route_bySkew_of_two_le r hinput key seq, rfl, rfl⟩⟩
  have hmem := r.routeSkewed_mem_routeProbe key seq
  have hinput : input < 2 := Nat.lt_of_not_le hinput
  interval_cases input
  · refine ⟨[r.routeSkewed key seq], rfl, List.cons_ne_nil _ _, List.nodup_singleton _, fun t ht => ?_⟩
    rw [List.mem_singleton.mp ht]
    exact Router.lt_of_mem_routeProbe hmem
  · exact ⟨r.routeProbe key, rfl, List.ne_nil_of_mem hmem, r.nodup_routeProbe key,
      fun t => Router.lt_of_mem_routeProbe⟩

end Partitioner

/-- A push never meets a reducer that does not exist. -/
theorem Shuffle.push_ne_outOfRange {p : Partitioner} {refused : Nat → Prop} (h : p.Total refused) (s : Shuffle)
    (row : ShuffledRow) (reducer n : Nat) : (s.push p row).2 ≠ .error (Shuffle.outOfRange reducer n) := by
  intro hpush
  by_cases hinput : refused row.input
  · obtain ⟨e, hroute, _, htext⟩ := h.refuses row.input row.key (s.sentOf row.input) hinput
    simp only [Shuffle.push, hroute, Except.error.injEq] at hpush
    -- the two texts already differ in their first letters
    have hletters := congrArg (fun t => t.toList.head?) (hpush ▸ htext)
    simp [Shuffle.outOfRange, routingError] at hletters
  · obtain ⟨reducers, hroute, _, _, hlt⟩ := h.takes row.input row.key (s.sentOf row.input) hinput
    rw [(Shuffle.reached_of_route hroute hlt).2] at hpush
    cases hpush

/-- Routing in words by what a job names, before anything of it is checked. -/
def Job.wordRouting (j : Job) (read : String → Except Failure Bytes) (c : Settings) :
    Except Failure WordRouting :=
  match j.annotations.partitionFile with
  | some path => (readPartitionMap read path).map .bySkew
  | none =>
    if j.annotations.globalSort then
      match j.annotations.quantileFile with
      | none => .error (.validation (.noQuantileFile j.key))
      | some path => (Quantiles.read read path).map (.byRange · j.firstAscends)
    else .ok (.byHash (BitVec.ofNat 32 (j.parallelism c)))

theorem Job.parallelism_lt (j : Job) {c : Settings} (h : c.parallelism < 2 ^ 32) : j.parallelism c < 2 ^ 32 := by
  unfold parallelism
  cases j.annotations.requestedParallelism with
  | none => exact h
  | some n => exact n.toNat_lt

namespace Partitioner.Serves

variable {j : Job} {read : String → Except Failure Bytes} {c : Settings} {p : Partitioner}

theorem total (h : Serves j read c p) :
    p.Total fun input => j.annotations.partitionFile.isSome = true ∧ 2 ≤ input := by
  cases h with
  | bySkew r hpath hm hr => simpa [hpath] using total_bySkew r
  | byRange hroutes hp => simpa [hroutes.notSkewed] using (sendsTo_byRange hp).total
  | byHash hfile hsort => simpa [hfile] using (Shuffle.sendsTo_byHash (j.parallelism c)).total

theorem exists_wordRouting (h : Serves j read c p) (hwords : c.parallelism < 2 ^ 32)
    (hfew : ∀ q, j.RoutesBy read q → q.boundaries.length < 2 ^ 32 - 1) :
    ∃ w, j.wordRouting read c = .ok w ∧ w.Computes p := by
  unfold Job.wordRouting
  cases h with
  | bySkew r hpath hm hr =>
    rw [hpath]
    simp only [hm]
    exact ⟨_, rfl, WordRouting.computes_bySkew r⟩
  | byRange hroutes hp =>
    obtain ⟨path, hpath, hq⟩ := hroutes.stored
    rw [hroutes.notSkewed, hroutes.sorts, hpath]
    simp only [hq]
    exact ⟨_, rfl, WordRouting.computes_byRange hp (hfew _ hroutes)⟩
  | byHash hfile hsort =>
    rw [hfile, hsort]
    exact ⟨_, rfl, WordRouting.computes_byHash (j.parallelism_lt hwords)⟩

end Partitioner.Serves

/-- **A partitioner that a job gets takes every row.** Whatever is stored and set:
there is a reducer, every row goes to some reducers that exist, to none of them twice,
and only a skewed join refuses rows, those of a third input or a later one. So a push
never meets a reducer that does not exist; and in words, as long as the numbers of the
settings and of the ranges are words, nothing is divided by zero and no sum or difference
leaves its word. -/
theorem partitionerFor_total {j : Job} {read : String → Except Failure Bytes} {c : Settings} {p : Partitioner}
    (hp : partitionerFor j read c = .ok p) :
    (p.Total fun input => j.annotations.partitionFile.isSome = true ∧ 2 ≤ input) ∧
    (∀ (s : Shuffle) row reducer n, (s.push p row).2 ≠ .error (Shuffle.outOfRange reducer n)) ∧
    (c.parallelism < 2 ^ 32 → (∀ q, j.RoutesBy read q → q.boundaries.length < 2 ^ 32 - 1) →
      ∃ w, j.wordRouting read c = .ok w ∧ w.Computes p) := by
  have hserves := partitionerFor_eq_ok_iff.mp hp
  exact ⟨hserves.total, Shuffle.push_ne_outOfRange hserves.total, hserves.exists_wordRouting⟩

/-- A draft without operators whose phases are closed. -/
def Draft.closedWith (f : Annotations → Annotations) : Draft :=
  (Draft.create ⟨"s", 9⟩).run [.closeMap .severalLeaves true KeyMint.empty, .closeReduce true KeyMint.empty,
    .annotate f]

/-- A key whose two reducers lie around the end: a skewed join with its map takes the
rows of two inputs and refuses a third. A job by hash has a reducer even where the
settings say zero. -/
theorem partitionerFor_total_aroundTheEnd :
    let key : Tuple := ⟨[.long 7]⟩
    let m : PartitionMap := .ofEntries 3 [⟨key, 2, 2⟩]
    let c : Settings := { Settings.default with parallelism := 0 }
    let joining := Draft.closedWith fun a =>
      { a with skewedJoin := true, partitionFile := some "p", requestedParallelism := some 3 }
    let grouping := Draft.closedWith id
    let read := (writePartitionMap .inMemory "p" m).1.read
    joining.freeze = .ok joining.job ∧ grouping.freeze = .ok grouping.job ∧
    (∃ p w, partitionerFor joining.job read c = .ok p ∧ p.route 1 key 0 = .ok [2, 0] ∧
      (∃ e, p.route 2 key 0 = .error e ∧ e.code = 2107) ∧
      (∀ row, (Shuffle.empty.push p row).2 ≠ .error (Shuffle.outOfRange 3 3)) ∧
      joining.job.wordRouting read c = .ok w ∧
      (w.route 1 key 0).map (Except.map (List.map BitVec.toNat)) = some (.ok [2, 0])) ∧
    ∃ p, partitionerFor grouping.job read c = .ok p ∧ 1 ≤ p.parallelism := by
  intro key m c joining grouping read
  have hdurable : ∀ e ∈ m.entries, e.key.Durable := by decide +kernel
  have hread : readPartitionMap read "p" = .ok m := readPartitionMap_of_durable OrderedMap.empty "p" hdurable
  obtain ⟨hsound, hroute⟩ : ∃ h : m.routingFault? = none,
      (Partitioner.bySkew ⟨m, h⟩).route 1 key 0 = .ok [2, 0] := by decide +kernel
  have hserved : partitionerFor joining.job read c = .ok (.bySkew ⟨m, hsound⟩) :=
    partitionerFor_eq_ok_iff.mpr (.bySkew ⟨m, hsound⟩ rfl hread rfl)
  obtain ⟨htotal, hpush, hwords⟩ := partitionerFor_total hserved
  obtain ⟨w, hw, hcomputes⟩ := hwords (by decide) fun q hq => nomatch hq.notSkewed
  obtain ⟨e, he, hcode, _⟩ := htotal.refuses 2 key 0 ⟨rfl, le_rfl⟩
  have hhash : partitionerFor grouping.job read c = .ok (.byHash 0) := rfl
  exact ⟨by cbv, by cbv, ⟨_, w, hserved, hroute, ⟨e, he, hcode⟩,
    fun row => hpush _ row 3 3, hw, hroute ▸ hcomputes.route 1 key 0⟩,
    ⟨_, hhash, (partitionerFor_total hhash).1.one_le⟩⟩

/-! ### The number of reducers -/

/-- Annotations that pass their checks do not ask for no reducers. -/
theorem Annotations.requestedParallelism_ne_zero {a : Annotations} (h : a.validate = .ok ()) :
    a.requestedParallelism ≠ some 0 := by
  intro hzero
  have hcheck : a.check = .ok () := mapError_eq_ok_iff.mp h
  unfold check at hcheck
  -- the number of reducers is looked at last
  obtain ⟨_, hcheck⟩ := ok_of_guard hcheck
  obtain ⟨_, hcheck⟩ := ok_of_guard hcheck
  obtain ⟨_, hcheck⟩ := ok_of_guard hcheck
  obtain ⟨_, hcheck⟩ := ok_of_guard hcheck
  obtain ⟨_, hcheck⟩ := ok_of_guard hcheck
  obtain ⟨_, _, hcheck⟩ := ok_of_bind hcheck
  rw [hzero] at hcheck
  cases hcheck

theorem Job.parallelism_of_requested {j : Job} {n : UInt32} (h : j.annotations.requestedParallelism = some n)
    (c : Settings) : j.parallelism c = n.toNat := by
  rw [parallelism, h]
  rfl

/-- By ranges there are as many reducers as ranges, and otherwise as many as the job
has, and one at least. -/
theorem Partitioner.Serves.parallelism_eq {j : Job} {read : String → Except Failure Bytes} {c : Settings}
    {p : Partitioner} (h : Serves j read c p) :
    (∃ q, j.RoutesBy read q ∧ p.parallelism = q.boundaries.length + 1) ∨
      (∀ q, ¬j.RoutesBy read q) ∧ p.parallelism = max 1 (j.parallelism c) := by
  cases h with
  | bySkew r hpath hm hr =>
    refine .inr ⟨fun q hq => ?_, ?_⟩
    · rw [hq.notSkewed] at hpath
      cases hpath
    · rw [← hr, Nat.max_eq_right r.parallelism_pos]
      rfl
  | byRange hroutes hp =>
    refine .inl ⟨_, hroutes, ?_⟩
    rw [(byRange_eq_ok_iff.mp hp).2]
  | byHash hfile hsort =>
    refine .inr ⟨fun q hq => ?_, rfl⟩
    rw [hq.sorts] at hsort
    cases hsort

/-- **The number of reducers a job gets.** A frozen job that requests a number of
reducers gets that many, unless it routes by bounds that are not one fewer: any bounds
in ascending order are taken, and there are as many reducers as ranges. A partition map
for another number is refused. -/
theorem partitionerFor_parallelism {d : Draft} {j : Job} (hfreeze : d.freeze = .ok j) {n : UInt32}
    (hn : j.annotations.requestedParallelism = some n) (read : String → Except Failure Bytes) (c : Settings) :
    (∀ p, partitionerFor j read c = .ok p →
      (p.parallelism = n.toNat ↔ ∀ q, j.RoutesBy read q → q.boundaries.length + 1 = n.toNat)) ∧
    (∀ q, j.RoutesBy read q → KeysSorted q.boundaries →
      ∃ p, partitionerFor j read c = .ok p ∧ p.parallelism = q.boundaries.length + 1) ∧
    (∀ path m, j.annotations.partitionFile = some path → readPartitionMap read path = .ok m → m.parallelism ≠ n →
      partitionerFor j read c =
        .error (.validation (.otherParallelism j.key path m.parallelism.toNat n.toNat))) := by
  have hwant : j.parallelism c = n.toNat := Job.parallelism_of_requested hn c
  refine ⟨fun p hp => ?_, fun q hq hsorted => ?_, fun path m hpath hm hne => ?_⟩
  · rcases (partitionerFor_eq_ok_iff.mp hp).parallelism_eq with ⟨q, hq, hranges⟩ | ⟨hnone, hjob⟩
    · rw [hranges]
      exact ⟨fun h q' hq' => hq'.unique hq ▸ h, fun h => h q hq⟩
    · have hpos : n.toNat ≠ 0 := fun h => by
        have hzero : n = 0 := UInt32.toNat_inj.mp h
        exact Annotations.requestedParallelism_ne_zero (Draft.validate_of_freeze hfreeze) (hzero ▸ hn)
      rw [hwant, Nat.max_eq_right (Nat.pos_of_ne_zero hpos)] at hjob
      exact ⟨fun _ q hq => absurd hq (hnone q), fun _ => hjob⟩
  · exact ⟨_, hq.partitionerFor_eq hsorted c, rfl⟩
  · unfold partitionerFor
    rw [hpath, hwant]
    simp only [hm]
    exact skewPartitioner_of_ne j path fun h => hne (UInt32.toNat_inj.mp h)

/-- Two bounds for three reducers are taken, and a map for three is refused by a job that
wants four. -/
theorem partitionerFor_parallelism_three :
    let q : Quantiles := ⟨[⟨[.long 10]⟩, ⟨[.long 20]⟩]⟩
    let m : PartitionMap := .ofEntries 3 [⟨⟨[.long 7]⟩, 2, 2⟩]
    let sorting := Draft.closedWith fun a =>
      { a with globalSort := true, quantileFile := some "q", requestedParallelism := some 3 }
    let joining := Draft.closedWith fun a =>
      { a with skewedJoin := true, partitionFile := some "p", requestedParallelism := some 4 }
    sorting.freeze = .ok sorting.job ∧ joining.freeze = .ok joining.job ∧
    (∃ p, partitionerFor sorting.job (q.write .inMemory "q").1.read Settings.default = .ok p ∧ p.parallelism = 3) ∧
    partitionerFor joining.job (writePartitionMap .inMemory "p" m).1.read Settings.default =
      .error (.validation (.otherParallelism ⟨"s", 9⟩ "p" 3 4)) := by
  intro q m sorting joining
  have hsorting : sorting.freeze = .ok sorting.job := by cbv
  have hjoining : joining.freeze = .ok joining.job := by cbv
  have hbounds : ∀ b ∈ q.boundaries, b.Durable := by decide +kernel
  have hkeys : ∀ e ∈ m.entries, e.key.Durable := by decide +kernel
  have hq := Quantiles.read_of_durable OrderedMap.empty "q" hbounds
  have hm : readPartitionMap (writePartitionMap .inMemory "p" m).1.read "p" = .ok m :=
    readPartitionMap_of_durable OrderedMap.empty "p" hkeys
  have hsorted : KeysSorted q.boundaries := (Quantiles.ascending_iff _).mp (by decide +kernel)
  have hranges := (partitionerFor_parallelism hsorting rfl _ Settings.default).2.1 q ⟨rfl, rfl, "q", rfl, hq⟩ hsorted
  have hrefused := (partitionerFor_parallelism hjoining rfl _ Settings.default).2.2 "p" m rfl hm (by decide)
  exact ⟨hsorting, hjoining, hranges, hrefused⟩

/-- One bound makes two reducers for a job that wants five. -/
theorem partitionerFor_two_of_five :
    let q : Quantiles := ⟨[⟨[.long 10]⟩]⟩
    let d := Draft.closedWith fun a =>
      { a with globalSort := true, quantileFile := some "q", requestedParallelism := some 5 }
    d.freeze = .ok d.job ∧ d.job.annotations.requestedParallelism = some 5 ∧
      ∃ p, partitionerFor d.job (q.write .inMemory "q").1.read Settings.default = .ok p ∧ p.parallelism = 2 := by
  intro q d
  have hbounds : ∀ b ∈ q.boundaries, b.Durable := by decide +kernel
  have hroutes : d.job.RoutesBy (q.write .inMemory "q").1.read q :=
    ⟨rfl, rfl, "q", rfl, Quantiles.read_of_durable OrderedMap.empty "q" hbounds⟩
  have hsorted : KeysSorted q.boundaries := (Quantiles.ascending_iff _).mp (by decide +kernel)
  exact ⟨by cbv, rfl, _, hroutes.partitionerFor_eq hsorted _, rfl⟩

end MapReduce
