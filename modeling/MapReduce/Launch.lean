/-
# Launching a workflow

Jobs are submitted one after the other. A failure on the engine's side is tried
again, up to a number of attempts; any other failure, and the last of these,
fails the job, and every job that depends on it is skipped with the job as its
cause. Jobs that do not depend on a failed one still run.

The engine is a function on a state of its own, so that nothing is assumed of
what it does. A failpoint that is armed makes an attempt fail before it reaches
the engine.

Key definitions: `failpoint`, `Engine`, `guarded`, `Outcome`, `attempt`,
`submitAll`, `launch`.
-/
import MapReduce.Job.Manifest
import MapReduce.Text.Blank
import MapReduce.Workflow

namespace MapReduce

/-- The number of errors raised by failpoints. -/
def failpointCode : Nat := 9999

/-- Fails if the name is one of the comma-separated names in `armed`. -/
def failpoint (armed name : String) : Except ExecError Unit :=
  if (splitAt ',' armed).any (fun p => trimBlank p == name) then
    .error ⟨failpointCode, .remote, "failpoint triggered: " ++ name, none⟩
  else .ok ()

/-- What runs jobs: a step of a state for each submission. -/
abbrev Engine (σ : Type) := σ → Job → JobManifest → σ × Except Failure Unit

/-- What became of a job. -/
inductive Outcome where
  | succeeded (attempts : Nat)
  | failed (error : String) (attempts : Nat)
  | skipped (cause : Key)
deriving DecidableEq

namespace Outcome

/-- Whether the job succeeded. -/
def isSuccess : Outcome → Bool
  | .succeeded _ => true
  | _ => false

/-- Whether the job was submitted and failed. -/
def isFailure : Outcome → Bool
  | .failed _ _ => true
  | _ => false

end Outcome

/-- The outcome of every job, in submission order. -/
structure LaunchReport where
  outcomes : List (Key × Outcome)
deriving DecidableEq

namespace LaunchReport

/-- The outcome of a job. -/
def outcome? (r : LaunchReport) (k : Key) : Option Outcome :=
  (r.outcomes.find? (fun p => p.1 == k)).map (·.2)

/-- Whether every job succeeded. -/
def allSucceeded (r : LaunchReport) : Bool := r.outcomes.all (fun p => p.2.isSuccess)

/-- The jobs that failed. -/
def failed (r : LaunchReport) : List Key := (r.outcomes.filter (fun p => p.2.isFailure)).map (·.1)

end LaunchReport

/-- Whether a failure may pass if the job is tried again. -/
def isRetryable : Failure → Bool
  | .exec e => e.origin == .remote
  | _ => false

/-- An engine behind the failpoint of each job. -/
def guarded {σ : Type} (armed : String) (engine : Engine σ) : Engine σ := fun s j m =>
  match failpoint armed ("submit:" ++ j.key.display) with
  | .error e => (s, .error (.exec e))
  | .ok _ => engine s j m

/-- Tries a job after `made` attempts, with up to `left` more after this one. -/
def attempt {σ : Type} (engine : Engine σ) (j : Job) (m : JobManifest) :
    (left made : Nat) → σ → σ × Outcome
  | left, made, s =>
    match engine s j m with
    | (s', .ok _) => (s', .succeeded (made + 1))
    | (s', .error e) =>
      match left with
      | 0 => (s', .failed e.message (made + 1))
      | left' + 1 =>
        if isRetryable e then attempt engine j m left' (made + 1) s'
        else (s', .failed e.message (made + 1))

/-- Blocks the dependents of a failed job; a job keeps its first cause. -/
def block (w : Workflow) (blocked : KeyMap Key) (k : Key) : KeyMap Key :=
  (w.dependents k).foldl (fun b d => b.upsert d (fun old => old.getD k)) blocked

/-- Submits the jobs `keys` in order, unless they are blocked. A job is tried at
least once. -/
def submitAll {σ : Type} (w : Workflow) (maxAttempts : Nat) (engine : Engine σ) :
    σ → KeyMap Key → List Key → σ × Except Failure (List (Key × Outcome))
  | s, _, [] => (s, .ok [])
  | s, blocked, k :: ks =>
    match blocked.find? k with
    | some cause =>
      let r := submitAll w maxAttempts engine s blocked ks
      (r.1, r.2.map ((k, .skipped cause) :: ·))
    | none =>
      match w.find? k with
      | none => (s, .error (.invariant ("job " ++ k.display ++ " missing from plan")))
      | some j =>
        let (s', o) := attempt engine j (JobManifest.of j) (maxAttempts - 1) 0 s
        let blocked' := if o.isSuccess then blocked else block w blocked k
        let r := submitAll w maxAttempts engine s' blocked' ks
        (r.1, r.2.map ((k, o) :: ·))

/-- The number of attempts where nothing is said. -/
def defaultAttempts : Nat := 1

/-- Submits every job of a workflow to an engine. -/
def submitJobs {σ : Type} (w : Workflow) (maxAttempts : Nat) (engine : Engine σ) (s : σ) :
    σ × Except Failure LaunchReport :=
  match w.submissionOrder with
  | .error e => (s, .error e)
  | .ok order =>
    let r := submitAll w maxAttempts engine s OrderedMap.empty order
    (r.1, r.2.map LaunchReport.mk)

/-- Submits every job of a workflow to an engine behind its failpoints. -/
def launch {σ : Type} (w : Workflow) (maxAttempts : Nat) (armed : String) (engine : Engine σ)
    (s : σ) : σ × Except Failure LaunchReport :=
  submitJobs w maxAttempts (guarded armed engine) s

end MapReduce
