/-
# Launches skip what depends on a failure

Every workflow that can be built is a well-formed graph (`Workflow.sound_applyAll`),
so the submission order has every job, producers first. `Submitted` says job by job
what a launch does: a job is skipped if a job that failed so far leads to it, with
the first of these as its cause, and is tried otherwise (`submitted_submitAll`).
The map of blocked jobs is how a launch keeps the causes at hand (`find?_block`).

The causes are those of the whole report, since what leads to a job stands before
it in the order (`Workflow.Sound.cause?_eq`). So when a job is tried, no job that
leads to it has failed. None of them was skipped either: what caused that would
lead to the job as well.

Key definitions: `LaunchReport.cause?`, `Submitted`, `Safe`.
Key theorems: `submitted_submitAll`, `Submitted.outcome`, `Submitted.free`,
`launch_safe`.
-/
import MapReduce.Proofs.Attempts
import MapReduce.Proofs.WorkflowOrder

namespace MapReduce

/-! ### Causes -/

namespace LaunchReport

/-- The first failed job on which a job depends. -/
def cause? (r : LaunchReport) (w : Workflow) (k : Key) : Option Key :=
  r.failed.find? (fun f => decide (k ∈ w.dependents f))

variable {outs outs' : List (Key × Outcome)} {w : Workflow} {k x : Key} {o : Outcome}

theorem failed_append : (mk (outs ++ outs')).failed = (mk outs).failed ++ (mk outs').failed := by
  simp [failed]

theorem mem_failed_iff {f : Key} : f ∈ (mk outs).failed ↔ ∃ o, (f, o) ∈ outs ∧ o.isFailure = true := by
  simp [failed]

theorem mem_keys_of_mem_failed {f : Key} (h : f ∈ (mk outs).failed) : f ∈ outs.map Prod.fst := by
  obtain ⟨o, ho, _⟩ := mem_failed_iff.mp h
  exact List.mem_map_of_mem ho

theorem cause?_append :
    (mk (outs ++ outs')).cause? w k = ((mk outs).cause? w k).or ((mk outs').cause? w k) := by
  rw [cause?, failed_append, List.find?_append]
  rfl

theorem cause?_singleton : (mk [(k, o)]).cause? w x =
    if o.isFailure ∧ x ∈ w.dependents k then some k else none := by
  cases ho : o.isFailure with
  | true => by_cases hx : x ∈ w.dependents k <;> simp [cause?, failed, ho, hx]
  | false => simp [cause?, failed, ho]

theorem cause?_eq_none_iff : (mk outs).cause? w k = none ↔
    ∀ f ∈ (mk outs).failed, ¬ w.graph.Leads f k := by
  rw [cause?, List.find?_eq_none]
  refine forall₂_congr fun f _ => ?_
  rw [decide_eq_true_iff, Workflow.mem_dependents_iff]

/-- The cause is the first failed job that leads to `k`. -/
theorem of_cause?_eq_some {c : Key} (hc : (mk outs).cause? w k = some c) :
    ∃ pre post, (mk outs).failed = pre ++ c :: post ∧ w.graph.Leads c k ∧
      ∀ f ∈ pre, ¬ w.graph.Leads f k := by
  obtain ⟨hck, pre, post, hfailed, hpre⟩ := List.find?_eq_some_iff_append.mp hc
  refine ⟨pre, post, hfailed, Workflow.mem_dependents_iff.mp (of_decide_eq_true hck), fun f hf => ?_⟩
  have hno := hpre f hf
  rwa [Bool.not_eq_true', decide_eq_false_iff_not, Workflow.mem_dependents_iff] at hno

end LaunchReport

/-- A job that is blocked keeps its cause, and the others that depend on the
failed job get it as their cause. -/
theorem find?_block (w : Workflow) (blocked : KeyMap Key) (k x : Key) :
    (block w blocked k).find? x =
      (blocked.find? x).or (if x ∈ w.dependents k then some k else none) := by
  have hfold : ∀ (ds : List Key) (b : KeyMap Key),
      (ds.foldl (fun b d => b.upsert d (fun old => old.getD k)) b).find? x =
        (b.find? x).or (if x ∈ ds then some k else none) := by
    intro ds
    induction ds with
    | nil => simp
    | cons d ds ih =>
      intro b
      rw [List.foldl_cons, ih, OrderedMap.find?_upsert_eq]
      by_cases hxd : x = d
      · subst hxd
        cases b.find? x <;> simp
      · simp [hxd]
  exact hfold (w.dependents k) blocked

/-! ### Job by job -/

/-- What a launch does with the jobs `ks` after the outcomes `done`: the outcomes
and the attempts, in order. -/
inductive Submitted (w : Workflow) (limit : Nat) :
    List (Key × Outcome) → List Key → List (Key × Outcome) → AttemptLog → Prop
  | nil {done : List (Key × Outcome)} : Submitted w limit done [] [] []
  | skip {done outs : List (Key × Outcome)} {k cause : Key} {ks : List Key} {log : AttemptLog}
    (hcause : (LaunchReport.mk done).cause? w k = some cause)
    (rest : Submitted w limit (done ++ [(k, .skipped cause)]) ks outs log) :
    Submitted w limit done (k :: ks) ((k, .skipped cause) :: outs) log
  | run {done outs : List (Key × Outcome)} {k : Key} {o : Outcome} {ks : List Key} {log : AttemptLog}
    {rs : List (Except Failure Unit)} (hfree : (LaunchReport.mk done).cause? w k = none)
    (tried : Tried limit rs o) (rest : Submitted w limit (done ++ [(k, o)]) ks outs log) :
    Submitted w limit done (k :: ks) ((k, o) :: outs) (rs.map (Prod.mk k) ++ log)

/-- **A launch does with each job what `Submitted` says**, and finds every job.
The induction carries that a job is blocked exactly if it has a cause so far. -/
theorem submitted_submitAll {σ : Type} {w : Workflow} (hw : w.Sound) (maxAttempts : Nat)
    (e : Engine σ) : ∀ (ks : List Key) {done : List (Key × Outcome)} {blocked : KeyMap Key} (s : σ)
      (log : AttemptLog), (∀ k ∈ ks, k ∈ w.graph.keys) →
        (∀ x, blocked.find? x = (LaunchReport.mk done).cause? w x) →
          ∃ s' outs new, submitAll w maxAttempts (recorded e) (s, log) blocked ks =
            ((s', log ++ new), .ok outs) ∧ Submitted w (max 1 maxAttempts) done ks outs new
  | [], _, _, s, log, _, _ => ⟨s, [], [], by rw [submitAll, List.append_nil], .nil⟩
  | k :: ks, done, blocked, s, log, hks, hblocked => by
    have hks' : ∀ x ∈ ks, x ∈ w.graph.keys := fun x hx => hks x (List.mem_cons_of_mem k hx)
    cases hb : blocked.find? k with
    | some cause =>
      have hcause : (LaunchReport.mk done).cause? w k = some cause := (hblocked k).symm.trans hb
      have hblocked' : ∀ x, blocked.find? x =
          (LaunchReport.mk (done ++ [(k, .skipped cause)])).cause? w x := by
        intro x
        rw [LaunchReport.cause?_append, LaunchReport.cause?_singleton, ← hblocked x]
        simp [Outcome.isFailure]
      obtain ⟨s', outs, new, hrun, hsub⟩ :=
        submitted_submitAll hw maxAttempts e ks s log hks' hblocked'
      refine ⟨s', (k, .skipped cause) :: outs, new, ?_, .skip hcause hsub⟩
      rw [submitAll_of_blocked hb, hrun]
      rfl
    | none =>
      have hfree : (LaunchReport.mk done).cause? w k = none := (hblocked k).symm.trans hb
      obtain ⟨j, hj⟩ := Graph.mem_keys_iff.mp (hks k List.mem_cons_self)
      have hkey : j.key = k := hw.ownKey k j hj
      have hlimit : ([] : List (Except Failure Unit)).length + (maxAttempts - 1) + 1 =
          max 1 maxAttempts := by
        rw [List.length_nil]
        omega
      obtain ⟨s₁, rs, o, hattempt, htried⟩ :=
        tried_attempt e j (JobManifest.of j) (maxAttempts - 1) s log (fun r hr => by cases hr) hlimit
      rw [hkey] at hattempt
      have hblocked' : ∀ x, (if o.isSuccess then blocked else block w blocked k).find? x =
          (LaunchReport.mk (done ++ [(k, o)])).cause? w x := by
        intro x
        have hfail := htried.isFailure_eq
        rw [LaunchReport.cause?_append, LaunchReport.cause?_singleton, ← hblocked x]
        cases ho : o.isSuccess with
        | true => simp [hfail, ho]
        | false => simp [hfail, ho, find?_block]
      obtain ⟨s', outs, new, hrun, hsub⟩ := submitted_submitAll hw maxAttempts e ks s₁
        (log ++ rs.map (Prod.mk k)) hks' hblocked'
      refine ⟨s', (k, o) :: outs, rs.map (Prod.mk k) ++ new, ?_, .run hfree htried hsub⟩
      rw [submitAll_of_free hb hj hattempt, hrun, List.append_assoc]
      rfl

/-! ### What follows for each job -/

/-- What follows a part without `x` up to an `x`. -/
theorem eq_append_of_not_mem {α : Type} {l l' before after : List α} {x : α} (hx : x ∉ l)
    (h : l ++ l' = before ++ x :: after) :
    ∃ before', before = l ++ before' ∧ l' = before' ++ x :: after := by
  rcases List.append_eq_append_iff.mp h with ⟨before', hb, hl⟩ | ⟨rest, hl, hr⟩
  · exact ⟨before', hb, hl⟩
  · cases rest with
    | nil => exact ⟨[], by simpa using hl.symm, by simpa using hr.symm⟩
    | cons y rest =>
      obtain ⟨rfl, _⟩ := List.cons.inj hr
      exact absurd (hl ▸ by simp) hx

namespace Submitted

variable {w : Workflow} {limit : Nat} {done outs pre post : List (Key × Outcome)} {ks : List Key}
  {log before after : AttemptLog} {k : Key} {o : Outcome}

theorem keys_eq (h : Submitted w limit done ks outs log) : outs.map Prod.fst = ks := by
  induction h with
  | nil => rfl
  | skip _ _ ih => rw [List.map_cons, ih]
  | run _ _ _ ih => rw [List.map_cons, ih]

theorem mem_keys_of_mem_log (h : Submitted w limit done ks outs log) {r : Except Failure Unit}
    (hr : (k, r) ∈ log) : k ∈ ks := by
  induction h with
  | nil => cases hr
  | skip _ _ ih => exact List.mem_cons_of_mem _ (ih hr)
  | run _ _ _ ih =>
    rcases List.mem_append.mp hr with hr | hr
    · obtain ⟨_, _, heq⟩ := List.mem_map.mp hr
      exact (Prod.mk.inj heq).1 ▸ List.mem_cons_self
    · exact List.mem_cons_of_mem _ (ih hr)

/-- The outcome of a job: it is skipped for the first cause so far and never
tried, or it has no cause and all attempts at it are accounted for. -/
theorem outcome (h : Submitted w limit done ks outs log) (hnd : ks.Nodup)
    (ho : outs = pre ++ (k, o) :: post) :
    (∃ c, o = .skipped c ∧ (LaunchReport.mk (done ++ pre)).cause? w k = some c ∧
        resultsOf log k = []) ∨
      (LaunchReport.mk (done ++ pre)).cause? w k = none ∧ Tried limit (resultsOf log k) o := by
  induction h generalizing pre with
  | nil => simp at ho
  | @skip done outs x cause ks log hcause rest ih =>
    cases pre with
    | nil =>
      obtain ⟨hx, _⟩ := List.cons.inj ho
      obtain ⟨rfl, rfl⟩ := Prod.mk.inj hx
      rw [List.append_nil]
      refine .inl ⟨cause, rfl, hcause, resultsOf_eq_nil_iff.mpr fun r hr => ?_⟩
      exact (List.nodup_cons.mp hnd).1 (rest.mem_keys_of_mem_log hr)
    | cons y pre =>
      obtain ⟨rfl, ho'⟩ := List.cons.inj ho
      have := ih (List.nodup_cons.mp hnd).2 ho'
      rwa [List.append_assoc] at this
  | @run done outs x o' ks log rs hfree tried rest ih =>
    have hx : resultsOf log x = [] := resultsOf_eq_nil_iff.mpr fun r hr =>
      (List.nodup_cons.mp hnd).1 (rest.mem_keys_of_mem_log hr)
    rw [resultsOf_append]
    cases pre with
    | nil =>
      obtain ⟨hx', _⟩ := List.cons.inj ho
      obtain ⟨rfl, rfl⟩ := Prod.mk.inj hx'
      rw [List.append_nil, resultsOf_map_self, hx, List.append_nil]
      exact .inr ⟨hfree, tried⟩
    | cons y pre =>
      obtain ⟨rfl, ho'⟩ := List.cons.inj ho
      -- the job is another one, so the attempts at the first are not its own
      have hk : k ∈ ks := by
        rw [← rest.keys_eq, ho']
        simp
      have hkx : x ≠ k := fun hxk => (List.nodup_cons.mp hnd).1 (hxk ▸ hk)
      have := ih (List.nodup_cons.mp hnd).2 ho'
      have hnone : resultsOf (rs.map (Prod.mk x)) k = [] := resultsOf_eq_nil_iff.mpr (by simp [hkx])
      rw [hnone, List.nil_append]
      rwa [List.append_assoc] at this

/-- When a job is tried it has no cause, and the jobs before it that succeed have
done so. -/
theorem free (h : Submitted w limit done ks outs log) {r : Except Failure Unit}
    (hl : log = before ++ (k, r) :: after) :
    ∃ pre o post, outs = pre ++ (k, o) :: post ∧
      (LaunchReport.mk (done ++ pre)).cause? w k = none ∧
      ∀ a n, (a, .succeeded n) ∈ pre → (a, .ok ()) ∈ before := by
  induction h generalizing before with
  | nil => simp at hl
  | @skip done outs x cause ks log hcause rest ih =>
    obtain ⟨pre, o, post, ho, hfree, hdone⟩ := ih hl
    refine ⟨(x, .skipped cause) :: pre, o, post, by rw [ho, List.cons_append], ?_, ?_⟩
    · rwa [List.append_assoc] at hfree
    · intro a n ha
      rcases List.mem_cons.mp ha with ha | ha
      · cases ha
      · exact hdone a n ha
  | @run done outs x o' ks log rs hfree tried rest ih =>
    by_cases hkx : k = x
    · subst hkx
      exact ⟨[], o', outs, rfl, by rwa [List.append_nil], fun a n ha => by cases ha⟩
    · -- the attempt is a later one, so those at the first job all come before it
      obtain ⟨before', rfl, hlog⟩ := eq_append_of_not_mem (by simp [Ne.symm hkx]) hl
      obtain ⟨pre, o, post, ho, hfree', hdone⟩ := ih hlog
      refine ⟨(x, o') :: pre, o, post, by rw [ho, List.cons_append], ?_, ?_⟩
      · rwa [List.append_assoc] at hfree'
      · intro a n ha
        rcases List.mem_cons.mp ha with ha | ha
        · obtain ⟨rfl, hn⟩ := Prod.mk.inj ha
          refine List.mem_append_left _ (List.mem_map_of_mem ?_)
          exact tried.mem_ok hn.symm
        · exact List.mem_append_right _ (hdone a n ha)

end Submitted

/-! ### The whole launch -/

/-- The outcomes of a launch and the attempts it made. -/
structure Safe (w : Workflow) (limit : Nat) (order : List Key) (attempts : AttemptLog)
    (report : LaunchReport) : Prop where
  /-- There is one outcome for each job, in submission order. -/
  keys : report.outcomes.map Prod.fst = order
  /-- A job is skipped exactly if a job failed that leads to it. -/
  skipped_iff : ∀ k o, (k, o) ∈ report.outcomes →
    ((∃ c, o = .skipped c) ↔ ∃ f ∈ report.failed, w.graph.Leads f k)
  /-- The cause is the first of them. -/
  cause : ∀ k c, (k, .skipped c) ∈ report.outcomes →
    ∃ pre post, report.failed = pre ++ c :: post ∧ w.graph.Leads c k ∧
      ∀ f ∈ pre, ¬ w.graph.Leads f k
  /-- A job that is skipped is never tried. -/
  untried : ∀ k c, (k, .skipped c) ∈ report.outcomes → ∀ r, (k, r) ∉ attempts
  /-- When a job is tried, all jobs that lead to it have succeeded. -/
  producers : ∀ before k r after, attempts = before ++ (k, r) :: after →
    ∀ a, w.graph.Leads a k →
      (a, .ok ()) ∈ before ∧ ∃ n, (a, .succeeded n) ∈ report.outcomes
  /-- The attempts at a job that is not skipped. -/
  tried : ∀ k o, (k, o) ∈ report.outcomes → (∀ c, o ≠ .skipped c) →
    Tried limit (resultsOf attempts k) o

namespace Workflow.Sound

variable {w : Workflow} {limit : Nat} {outs pre post : List (Key × Outcome)} {log : AttemptLog}
  {k : Key} {o : Outcome}

variable (hw : w.Sound) (hkeys : outs.map Prod.fst = w.graph.topological)
include hw hkeys

theorem nodup_outs : (outs.map Prod.fst).Nodup := by
  rw [hkeys]
  exact hw.wellFormed.perm_topological.nodup_iff.mpr (Graph.nodup_keys _)

/-- What leads to a job has its outcome before it. -/
theorem mem_before (ho : outs = pre ++ (k, o) :: post) {a : Key} (hl : w.graph.Leads a k) :
    a ∈ pre.map Prod.fst := by
  have horder : w.graph.topological = pre.map Prod.fst ++ k :: post.map Prod.fst := by
    rw [← hkeys, ho, List.map_append, List.map_cons]
  exact hw.wellFormed.mem_before_of_leads hl horder

/-- The causes so far are those of the whole report. -/
theorem cause?_eq (ho : outs = pre ++ (k, o) :: post) :
    (LaunchReport.mk outs).cause? w k = (LaunchReport.mk pre).cause? w k := by
  have hnd := nodup_outs hw hkeys
  have hlate : (LaunchReport.mk ((k, o) :: post)).cause? w k = none := by
    refine LaunchReport.cause?_eq_none_iff.mpr fun f hf hl => ?_
    have hbefore := mem_before hw hkeys ho hl
    rw [ho, List.map_append] at hnd
    exact List.disjoint_of_nodup_append hnd hbefore (LaunchReport.mem_keys_of_mem_failed hf)
  rw [ho, LaunchReport.cause?_append, hlate, Option.or_none]

/-- The outcome of a job, with its cause taken from the whole report. -/
theorem outcome_cases (h : Submitted w limit [] w.graph.topological outs log) (hko : (k, o) ∈ outs) :
    (∃ c, o = .skipped c ∧ (LaunchReport.mk outs).cause? w k = some c ∧ resultsOf log k = []) ∨
      (LaunchReport.mk outs).cause? w k = none ∧ Tried limit (resultsOf log k) o := by
  obtain ⟨pre, post, ho⟩ := List.append_of_mem hko
  have hcase := h.outcome (hkeys ▸ nodup_outs hw hkeys) ho
  rwa [List.nil_append, ← cause?_eq hw hkeys ho] at hcase

/-- When a job is tried, all jobs that lead to it have succeeded. One that failed
would be a cause, and so would be the cause of one that was skipped. -/
theorem producers_succeeded (h : Submitted w limit [] w.graph.topological outs log)
    {before after : AttemptLog} {r : Except Failure Unit} (hl : log = before ++ (k, r) :: after)
    {a : Key} (hlead : w.graph.Leads a k) :
    (a, .ok ()) ∈ before ∧ ∃ n, (a, .succeeded n) ∈ outs := by
  obtain ⟨pre, o, post, ho, hfree, hdone⟩ := h.free hl
  rw [List.nil_append, ← cause?_eq hw hkeys ho, LaunchReport.cause?_eq_none_iff] at hfree
  obtain ⟨⟨x, oa⟩, hmem, rfl⟩ := List.mem_map.mp (mem_before hw hkeys ho hlead)
  have hmem' : (x, oa) ∈ outs := ho ▸ List.mem_append_left _ hmem
  rcases outcome_cases hw hkeys h hmem' with ⟨c, _, hc, _⟩ | ⟨_, htried⟩
  · obtain ⟨_, _, hfailed, hcx, _⟩ := LaunchReport.of_cause?_eq_some hc
    exact absurd (hcx.trans hlead) (hfree c (hfailed ▸ by simp))
  · rcases htried.succeeded_or_failed with ⟨n, rfl⟩ | hfail
    · exact ⟨hdone x n hmem, n, hmem'⟩
    · exact absurd hlead (hfree x (LaunchReport.mem_failed_iff.mpr ⟨oa, hmem', hfail⟩))

theorem safe (h : Submitted w limit [] w.graph.topological outs log) :
    Safe w limit w.graph.topological log ⟨outs⟩ := by
  refine ⟨hkeys, fun k o hko => ?_, fun k c hkc => ?_, fun k c hkc r hr => ?_,
    fun before k r after hl a hlead => ?_, fun k o hko hns => ?_⟩
  · have hnone : (LaunchReport.mk outs).cause? w k = none ↔ _ := LaunchReport.cause?_eq_none_iff
    rcases outcome_cases hw hkeys h hko with ⟨c, rfl, hc, _⟩ | ⟨hfree, htried⟩
    · refine ⟨fun _ => ?_, fun _ => ⟨c, rfl⟩⟩
      by_contra hno
      push Not at hno
      rw [hnone.mpr hno] at hc
      cases hc
    · constructor
      · rintro ⟨c, rfl⟩
        exact absurd rfl (htried.ne_skipped c)
      · rintro ⟨f, hf, hl⟩
        exact absurd hl (hnone.mp hfree f hf)
  · rcases outcome_cases hw hkeys h hkc with ⟨c', hcc, hc, _⟩ | ⟨_, htried⟩
    · cases hcc
      exact LaunchReport.of_cause?_eq_some hc
    · exact absurd rfl (htried.ne_skipped c)
  · rcases outcome_cases hw hkeys h hkc with ⟨c', _, _, hnil⟩ | ⟨_, htried⟩
    · exact resultsOf_eq_nil_iff.mp hnil r hr
    · exact absurd rfl (htried.ne_skipped c)
  · exact producers_succeeded hw hkeys h hl hlead
  · rcases outcome_cases hw hkeys h hko with ⟨c, rfl, _, _⟩ | ⟨_, htried⟩
    · exact absurd rfl (hns c)
    · exact htried

end Workflow.Sound

/-- **Launches are safe.** Whatever workflow was built, whatever the engine does,
whichever failpoints are armed and however many attempts are allowed: the launch
gives a report on all jobs in submission order, and `Safe` holds of it and of the
attempts that were made. Noting the attempts changes neither the report nor the
engine, and the engine is given exactly those whose failpoint is not armed. -/
theorem launch_safe {σ : Type} (edits : List WorkflowEdit) (maxAttempts : Nat) (armed : String)
    (engine : Engine σ) (s : σ) :
    let w := Workflow.empty.applyAll edits
    ∃ order s' report attempts,
      w.submissionOrder = .ok order ∧ order.Perm w.graph.keys ∧
        launch w maxAttempts armed engine s = (s', .ok report) ∧
        submitJobs w maxAttempts (recorded (guarded armed engine)) (s, []) =
          ((s', attempts), .ok report) ∧
        launch w maxAttempts armed (recorded engine) (s, []) =
          ((s', attempts.filter (fun a => passes armed a.1)), .ok report) ∧
        Safe w (max 1 maxAttempts) order attempts report := by
  intro w
  have hw : w.Sound := Workflow.sound_applyAll edits
  have horder := hw.submissionOrder_eq
  have hperm := hw.wellFormed.perm_topological
  have hnone : ∀ x, (OrderedMap.empty : KeyMap Key).find? x = (LaunchReport.mk []).cause? w x :=
    fun x => rfl
  obtain ⟨s', outs, attempts, hrun, hsub⟩ := submitted_submitAll hw maxAttempts
    (guarded armed engine) w.graph.topological s [] (fun k hk => hperm.mem_iff.mp hk) hnone
  have hjobs : submitJobs w maxAttempts (recorded (guarded armed engine)) (s, []) =
      ((s', attempts), .ok ⟨outs⟩) := by
    rw [submitJobs_of_ok horder, hrun]
    rfl
  obtain ⟨hstate, hreport⟩ :=
    (simulates_recorded (guarded armed engine)).submitJobs w maxAttempts
      (s := (s, [])) (t := s) rfl
  obtain ⟨hcalls, hreport'⟩ :=
    (simulates_guarded_recorded armed engine).submitJobs w maxAttempts
      (s := (s, [])) (t := (s, [])) rfl
  rw [hjobs] at hstate hreport hcalls hreport'
  refine ⟨w.graph.topological, s', ⟨outs⟩, attempts, horder, hperm, ?_, hjobs, ?_,
    hw.safe hsub.keys_eq hsub⟩
  · exact Prod.ext hstate.symm hreport.symm
  · exact Prod.ext hcalls hreport'.symm

end MapReduce
