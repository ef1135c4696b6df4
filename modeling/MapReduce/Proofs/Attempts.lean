/-
# Attempts at jobs

A launch shows itself only through the engine. `recorded` makes an engine keep a
log of the jobs it is given and of their results; since a launch knows nothing of
the engine's state, the log changes nothing else (`Simulates.submitJobs`).

Recorded outside the failpoints, the log has every attempt. Recorded behind them,
it has those that reached the engine, which are the attempts at jobs whose
failpoint is not armed (`simulates_guarded_recorded`). What the attempts at one
job look like is said by `Tried`.

Key definitions: `recorded`, `Simulates`, `passes`, `Tried`.
Key theorems: `Simulates.submitJobs`, `simulates_guarded_recorded`,
`tried_attempt`.
-/
import Mathlib
import MapReduce.Launch

namespace MapReduce

variable {σ τ : Type} {e : Engine σ} {j : Job} {m : JobManifest} {left made : Nat} {s : σ}
  {err : Failure}

/-- The jobs that an engine was given and the results, in order. -/
abbrev AttemptLog := List (Key × Except Failure Unit)

/-- The engine with a log. -/
def recorded (e : Engine σ) : Engine (σ × AttemptLog) := fun t j m =>
  (((e t.1 j m).1, t.2 ++ [(j.key, (e t.1 j m).2)]), (e t.1 j m).2)

/-- The results of the attempts at a job. -/
def resultsOf (log : AttemptLog) (k : Key) : List (Except Failure Unit) :=
  (log.filter (fun a => a.1 = k)).map Prod.snd

theorem resultsOf_map_self (k : Key) (rs : List (Except Failure Unit)) :
    resultsOf (rs.map (Prod.mk k)) k = rs := by
  induction rs with
  | nil => rfl
  | cons r rs ih =>
    rw [resultsOf] at ih
    simp [resultsOf, ih]

theorem resultsOf_append (log log' : AttemptLog) (k : Key) :
    resultsOf (log ++ log') k = resultsOf log k ++ resultsOf log' k := by
  simp [resultsOf]

theorem resultsOf_eq_nil_iff {log : AttemptLog} {k : Key} :
    resultsOf log k = [] ↔ ∀ r, (k, r) ∉ log := by
  simp only [resultsOf, List.map_eq_nil_iff, List.filter_eq_nil_iff, decide_eq_true_eq]
  exact ⟨fun h r hr => h (k, r) hr rfl, fun h a ha hk => h a.2 (hk ▸ ha)⟩

/-- Whether the failpoint of a job lets it through to the engine. -/
def passes (armed : String) (k : Key) : Bool := (failpoint armed ("submit:" ++ k.display)).isOk

/-! ### One attempt -/

theorem attempt_of_ok (h : (e s j m).2 = .ok ()) :
    attempt e j m left made s = ((e s j m).1, .succeeded (made + 1)) := by
  unfold attempt
  rw [← Prod.eta (e s j m), h]

theorem attempt_of_final (h : (e s j m).2 = .error err) (hf : left = 0 ∨ isRetryable err = false) :
    attempt e j m left made s = ((e s j m).1, .failed err.message (made + 1)) := by
  unfold attempt
  rw [← Prod.eta (e s j m), h]
  cases left with
  | zero => rfl
  | succ left =>
    have hr : isRetryable err = false := hf.resolve_left (Nat.succ_ne_zero left)
    simp [hr]

theorem attempt_of_retry (h : (e s j m).2 = .error err) (hr : isRetryable err = true) :
    attempt e j m (left + 1) made s = attempt e j m left (made + 1) (e s j m).1 := by
  rw [attempt, ← Prod.eta (e s j m), h]
  simp [hr]

/-- An attempt that is not the last leaves more to be made. -/
theorem exists_retry (hf : ¬ (left = 0 ∨ isRetryable err = false)) :
    ∃ left', left = left' + 1 ∧ isRetryable err = true := by
  push Not at hf
  obtain ⟨left', hleft⟩ := Nat.exists_eq_succ_of_ne_zero hf.1
  exact ⟨left', hleft, Bool.eq_true_of_not_eq_false hf.2⟩

/-! ### One job of a launch -/

variable {w : Workflow} {maxAttempts : Nat} {blocked : KeyMap Key} {k : Key} {ks : List Key}

theorem submitAll_of_blocked {cause : Key} (h : blocked.find? k = some cause) :
    submitAll w maxAttempts e s blocked (k :: ks) =
      ((submitAll w maxAttempts e s blocked ks).1,
        (submitAll w maxAttempts e s blocked ks).2.map ((k, .skipped cause) :: ·)) := by
  rw [submitAll, h]

theorem submitAll_of_missing (h : blocked.find? k = none) (hj : w.find? k = none) :
    submitAll w maxAttempts e s blocked (k :: ks) =
      (s, .error (.invariant ("job " ++ k.display ++ " missing from plan"))) := by
  rw [submitAll, h, hj]

theorem submitAll_of_free {s' : σ} {o : Outcome} (h : blocked.find? k = none) (hj : w.find? k = some j)
    (ha : attempt e j (JobManifest.of j) (maxAttempts - 1) 0 s = (s', o)) :
    submitAll w maxAttempts e s blocked (k :: ks) =
      ((submitAll w maxAttempts e s' (if o.isSuccess then blocked else block w blocked k) ks).1,
        (submitAll w maxAttempts e s' (if o.isSuccess then blocked else block w blocked k) ks).2.map
          ((k, o) :: ·)) := by
  rw [submitAll, h, hj]
  simp only [ha]

theorem submitJobs_of_ok {order : List Key} (h : w.submissionOrder = .ok order) :
    submitJobs w maxAttempts e s =
      ((submitAll w maxAttempts e s OrderedMap.empty order).1,
        (submitAll w maxAttempts e s OrderedMap.empty order).2.map LaunchReport.mk) := by
  rw [submitJobs, h]

/-! ### Engines that answer alike -/

/-- On related states the engines answer alike, and leave related states. -/
def Simulates (r : σ → τ → Prop) (e : Engine σ) (f : Engine τ) : Prop :=
  ∀ s t j m, r s t → r (e s j m).1 (f t j m).1 ∧ (e s j m).2 = (f t j m).2

namespace Simulates

variable {r : σ → τ → Prop} {f : Engine τ}

theorem attempt (h : Simulates r e f) (j : Job) (m : JobManifest) (left : Nat) :
    ∀ (made : Nat) {s : σ} {t : τ}, r s t →
      r (attempt e j m left made s).1 (MapReduce.attempt f j m left made t).1 ∧
        (MapReduce.attempt e j m left made s).2 = (MapReduce.attempt f j m left made t).2 := by
  induction left using Nat.strong_induction_on with
  | _ left ih =>
    intro made s t hst
    obtain ⟨hr, ha⟩ := h s t j m hst
    cases hres : (e s j m).2 with
    | ok u =>
      rw [attempt_of_ok hres, attempt_of_ok (ha ▸ hres)]
      exact ⟨hr, rfl⟩
    | error err =>
      by_cases hf : left = 0 ∨ isRetryable err = false
      · rw [attempt_of_final hres hf, attempt_of_final (ha ▸ hres) hf]
        exact ⟨hr, rfl⟩
      · obtain ⟨left, rfl, hretry⟩ := exists_retry hf
        rw [attempt_of_retry hres hretry, attempt_of_retry (ha ▸ hres) hretry]
        exact ih left (Nat.lt_succ_self left) (made + 1) hr

theorem submitAll (h : Simulates r e f) (w : Workflow) (maxAttempts : Nat) : ∀ (ks : List Key)
    (blocked : KeyMap Key) {s : σ} {t : τ}, r s t →
      r (submitAll w maxAttempts e s blocked ks).1 (MapReduce.submitAll w maxAttempts f t blocked ks).1 ∧
        (MapReduce.submitAll w maxAttempts e s blocked ks).2 =
          (MapReduce.submitAll w maxAttempts f t blocked ks).2
  | [], _, _, _, hst => ⟨hst, rfl⟩
  | k :: ks, blocked, s, t, hst => by
    cases hb : blocked.find? k with
    | some cause =>
      obtain ⟨hr, ho⟩ := submitAll h w maxAttempts ks blocked hst
      rw [submitAll_of_blocked hb, submitAll_of_blocked hb, ho]
      exact ⟨hr, rfl⟩
    | none =>
      cases hj : w.find? k with
      | none =>
        rw [submitAll_of_missing hb hj, submitAll_of_missing hb hj]
        exact ⟨hst, rfl⟩
      | some j =>
        obtain ⟨hr, ho⟩ := h.attempt j (JobManifest.of j) (maxAttempts - 1) 0 hst
        rw [submitAll_of_free hb hj rfl, submitAll_of_free hb hj rfl, ho]
        obtain ⟨hr', ho'⟩ := submitAll h w maxAttempts ks _ hr
        rw [ho']
        exact ⟨hr', rfl⟩

/-- **A launch cannot tell apart engines that answer alike.** -/
theorem submitJobs (h : Simulates r e f) (w : Workflow) (maxAttempts : Nat) {s : σ} {t : τ}
    (hst : r s t) :
    r (submitJobs w maxAttempts e s).1 (MapReduce.submitJobs w maxAttempts f t).1 ∧
      (MapReduce.submitJobs w maxAttempts e s).2 = (MapReduce.submitJobs w maxAttempts f t).2 := by
  cases horder : w.submissionOrder with
  | error err =>
    rw [MapReduce.submitJobs, MapReduce.submitJobs, horder]
    exact ⟨hst, rfl⟩
  | ok order =>
    obtain ⟨hr, ho⟩ := h.submitAll w maxAttempts order OrderedMap.empty hst
    rw [submitJobs_of_ok horder, submitJobs_of_ok horder, ho]
    exact ⟨hr, rfl⟩

end Simulates

/-- A log changes nothing. -/
theorem simulates_recorded (e : Engine σ) :
    Simulates (fun (t : σ × AttemptLog) s => t.1 = s) (recorded e) e := by
  rintro t s j m rfl
  exact ⟨rfl, rfl⟩

/-- The engine is given the jobs that pass their failpoints. -/
theorem simulates_guarded_recorded (armed : String) (e : Engine σ) :
    Simulates (fun (t u : σ × AttemptLog) => u = (t.1, t.2.filter (fun a => passes armed a.1)))
      (recorded (guarded armed e)) (guarded armed (recorded e)) := by
  rintro ⟨s, log⟩ u j m rfl
  unfold recorded guarded
  cases hp : failpoint armed ("submit:" ++ j.key.display) with
  | error err =>
    have hpass : passes armed j.key = false := by
      rw [passes, hp]
      rfl
    simp [hpass]
  | ok v =>
    have hpass : passes armed j.key = true := by
      rw [passes, hp]
      rfl
    simp [hpass]

/-! ### All attempts at a job -/

/-- A failure on the engine's side. -/
def IsRemote (r : Except Failure Unit) : Prop :=
  ∃ x : ExecError, r = .error (.exec x) ∧ x.origin = .remote

theorem isRetryable_iff : isRetryable err = true ↔ IsRemote (.error err) := by
  cases err with
  | exec x => simp [isRetryable, IsRemote]
  | _ => simp [isRetryable, IsRemote]

/-- The results of the attempts at a job, of which there may be `limit`, and what
becomes of it: all but the last are failures on the engine's side, and the last is
a success, a failure of another kind, or the last there may be. -/
inductive Tried (limit : Nat) : List (Except Failure Unit) → Outcome → Prop
  | succeeded {retried : List (Except Failure Unit)} (remote : ∀ r ∈ retried, IsRemote r)
    (within : retried.length + 1 ≤ limit) :
    Tried limit (retried ++ [.ok ()]) (.succeeded (retried.length + 1))
  | failed {retried : List (Except Failure Unit)} {err : Failure} (remote : ∀ r ∈ retried, IsRemote r)
    (within : retried.length + 1 ≤ limit)
    (final : ¬ IsRemote (.error err) ∨ retried.length + 1 = limit) :
    Tried limit (retried ++ [.error err]) (.failed err.message (retried.length + 1))

namespace Tried

variable {limit : Nat} {rs : List (Except Failure Unit)} {o : Outcome}

theorem succeeded_or_failed (h : Tried limit rs o) : (∃ n, o = .succeeded n) ∨ o.isFailure = true := by
  cases h with
  | succeeded _ _ => exact .inl ⟨_, rfl⟩
  | failed _ _ _ => exact .inr rfl

theorem isFailure_eq (h : Tried limit rs o) : o.isFailure = !o.isSuccess := by
  cases h <;> rfl

theorem ne_skipped (h : Tried limit rs o) (c : Key) : o ≠ .skipped c := by
  rintro rfl
  cases h

/-- A job that succeeds has an attempt that does. -/
theorem mem_ok (h : Tried limit rs o) {n : Nat} (ho : o = .succeeded n) : .ok () ∈ rs := by
  cases h with
  | succeeded _ _ => simp
  | failed _ _ _ => cases ho

end Tried

/-- The attempts at a job, after `made` that failed on the engine's side. -/
theorem tried_attempt (e : Engine σ) (j : Job) (m : JobManifest) {limit : Nat} (left : Nat) :
    ∀ {retried : List (Except Failure Unit)} (s : σ) (log : AttemptLog),
      (∀ r ∈ retried, IsRemote r) → retried.length + left + 1 = limit →
        ∃ s' rs o, attempt (recorded e) j m left retried.length (s, log) =
          ((s', log ++ rs.map (Prod.mk j.key)), o) ∧ Tried limit (retried ++ rs) o := by
  induction left using Nat.strong_induction_on with
  | _ left ih =>
    intro retried s log hremote hlimit
    have hwithin : retried.length + 1 ≤ limit := by omega
    cases hres : (e s j m).2 with
    | ok u =>
      have hrec : (recorded e (s, log) j m).2 = .ok () := hres
      refine ⟨(e s j m).1, [.ok ()], _, ?_, .succeeded hremote hwithin⟩
      rw [attempt_of_ok hrec, recorded, hres]
      rfl
    | error err =>
      have hrec : (recorded e (s, log) j m).2 = .error err := hres
      by_cases hf : left = 0 ∨ isRetryable err = false
      · have hfinal : ¬ IsRemote (.error err) ∨ retried.length + 1 = limit := by
          rcases hf with rfl | hf
          · exact .inr hlimit
          · left
            rw [← isRetryable_iff, hf]
            exact Bool.false_ne_true
        refine ⟨(e s j m).1, [.error err], _, ?_, .failed hremote hwithin hfinal⟩
        rw [attempt_of_final hrec hf, recorded, hres]
        rfl
      · -- one more attempt, with this failure among those before it
        obtain ⟨left, rfl, hretry⟩ := exists_retry hf
        have hremote' : ∀ r ∈ retried ++ [.error err], IsRemote r := by
          intro r hr
          rcases List.mem_append.mp hr with hr | hr
          · exact hremote r hr
          · rw [List.mem_singleton.mp hr]
            exact isRetryable_iff.mp hretry
        have hlimit' : (retried ++ [Except.error err]).length + left + 1 = limit := by
          rw [List.length_append, List.length_singleton]
          omega
        obtain ⟨s', rs, o, hrest, htried⟩ := ih left (Nat.lt_succ_self left) (e s j m).1
          (log ++ [(j.key, .error err)]) hremote' hlimit'
        refine ⟨s', .error err :: rs, o, ?_, ?_⟩
        · rw [attempt_of_retry hrec hretry, recorded, hres]
          rw [List.length_append, List.length_singleton] at hrest
          rw [hrest, List.append_assoc]
          rfl
        · rwa [List.append_assoc] at htried

end MapReduce
