/-
# Accumulators over a history of calls

Calls come to an accumulator in any order: chunks that it takes or refuses,
requests for its value, cleanups. What it answered tells which chunks it has taken
since its last cleanup (`Accumulator.taken`). Its running value is the combination
of these chunks one after the other: this holds of a fresh accumulator, every call
keeps it (`Holds.call`), and so it holds after every history (`Holds.serve`).

A chunk is refused with the error that its bag has on its own, whatever came
before it. So a bag that is fed in chunks meets the error of the whole bag first
(`firstError?_serve`).

Key definitions: `Accumulator.serve`, `Accumulator.taken`, `Accumulator.Holds`,
`Accumulator.Faithful`.
Key theorems: `Accumulator.Holds.call`, `Accumulator.Holds.serve`,
`Accumulator.firstError?_serve`, `Accumulator.faithful_serve`.
-/
import MapReduce.Proofs.AggregateLaws

namespace MapReduce

theorem Aggregate.finalValue_eq_error_iff {f : Aggregate} {b : Bag} {e : ExecError} :
    f.finalValue b = .error e ↔ f.reduce b = .error e := by
  unfold finalValue
  cases f.reduce b <;> simp [Except.map]

namespace Accumulator

variable {f : Aggregate} {a : Accumulator f} {chunk : Bag} {chunks : List Bag}

/-! ### Histories -/

/-- The accumulator after several calls, and each call with its reply. -/
def serve (a : Accumulator f) : List Call → Accumulator f × List (Call × Reply)
  | [] => (a, [])
  | c :: cs => (((a.call c).1.serve cs).1, (c, (a.call c).2) :: ((a.call c).1.serve cs).2)

/-- The chunks taken since the last cleanup, with one more call. -/
def note (chunks : List Bag) : Call × Reply → List Bag
  | (.accumulate chunk, .done) => chunks ++ [chunk]
  | (.cleanup, _) => []
  | _ => chunks

/-- The chunks that were taken since the last cleanup, in order. -/
def taken (log : List (Call × Reply)) : List Bag := log.foldl note []

/-- The error in a reply. -/
def Reply.error? : Reply → Option ExecError
  | .failed e => some e
  | _ => none

/-- The first error that was met. -/
def firstError? (log : List (Call × Reply)) : Option ExecError := log.findSome? (fun entry => entry.2.error?)

/-! ### One call -/

theorem call_of_ok {x : Option f.Value} (h : f.reduce chunk = .ok x) :
    a.call (.accumulate chunk) = (x.elim a a.absorb, .done) := by
  rw [call, accumulate, h]
  cases x <;> rfl

theorem call_of_error {e : ExecError} (h : f.reduce chunk = .error e) :
    a.call (.accumulate chunk) = (a, .failed e) := by
  rw [call, accumulate, h]
  rfl

/-- The running value is that of the chunks, and the flag says whether there is
one. -/
structure Holds (a : Accumulator f) (chunks : List Bag) : Prop where
  reduce : f.reduce chunks.flatten = .ok a.running
  saw : a.sawNonNull = a.running.isSome

theorem holds_fresh : (fresh : Accumulator f).Holds [] := ⟨rfl, rfl⟩

theorem Holds.finalValue_eq (h : a.Holds chunks) : f.finalValue chunks.flatten = .ok a.value := by
  unfold Aggregate.finalValue
  rw [h.reduce]
  rfl

/-- **Every call keeps account of the chunks taken.** -/
theorem Holds.call (hf : f.Exact) (h : a.Holds chunks) (c : Call) :
    (a.call c).1.Holds (note chunks (c, (a.call c).2)) := by
  cases c with
  | accumulate chunk =>
    cases hr : f.reduce chunk with
    | error e =>
      rw [call_of_error hr]
      exact h
    | ok x =>
      rw [call_of_ok hr]
      refine ⟨?_, ?_⟩
      · calc f.reduce (chunks ++ [chunk]).flatten
            = f.reduce (chunks.flatten ++ chunk) := by simp
          _ = .ok (f.joined a.running x) := by
            rw [Aggregate.reduce_append hf, h.reduce, hr]
            rfl
          _ = .ok (x.elim a a.absorb).running := by rw [running_elim hf]
      · cases x with
        | none => exact h.saw
        | some x => rfl
  | value => exact h
  | cleanup => exact holds_fresh

/-- **A history keeps account of the chunks taken.** -/
theorem Holds.serve (hf : f.Exact) : ∀ (calls : List Call) {a : Accumulator f} {chunks : List Bag},
    a.Holds chunks → (a.serve calls).1.Holds ((a.serve calls).2.foldl note chunks)
  | [], _, _, h => h
  | c :: calls, _, _, h => Holds.serve hf calls (h.call hf c)

/-! ### Refused chunks -/

theorem call_failed_iff {e : ExecError} :
    (a.call (.accumulate chunk)).2 = .failed e ↔ f.finalValue chunk = .error e := by
  rw [Aggregate.finalValue_eq_error_iff]
  cases hr : f.reduce chunk with
  | error e' => simp [call_of_error hr]
  | ok x => simp [call_of_ok hr]

theorem call_of_failed {e : ExecError} (h : (a.call (.accumulate chunk)).2 = .failed e) :
    (a.call (.accumulate chunk)).1 = a := by
  rw [call_failed_iff, Aggregate.finalValue_eq_error_iff] at h
  rw [call_of_error h]

/-- **A bag fed in chunks meets the error of the whole bag first**, and none if
the bag has a value. -/
theorem firstError?_serve (hf : f.Exact) {e : ExecError} : ∀ (bags : List Bag) (a : Accumulator f),
    firstError? (a.serve (bags.map .accumulate)).2 = some e ↔ f.finalValue bags.flatten = .error e
  | [], a => ⟨nofun, nofun⟩
  | b :: bags, a => by
    rw [Aggregate.finalValue_eq_error_iff, List.flatten_cons, Aggregate.reduce_append hf, List.map_cons]
    cases hr : f.reduce b with
    | error e' =>
      -- the first chunk is refused, and its error is the first of the bag
      simp [serve, call_of_error hr, firstError?, Reply.error?, bind, Except.bind]
    | ok x =>
      have ih := firstError?_serve hf (e := e) bags (x.elim a a.absorb)
      rw [Aggregate.finalValue_eq_error_iff] at ih
      have hfirst : firstError? (a.serve (.accumulate b :: bags.map .accumulate)).2 =
          firstError? ((x.elim a a.absorb).serve (bags.map .accumulate)).2 := by
        simp [serve, call_of_ok hr, firstError?, Reply.error?]
      rw [hfirst, ih]
      cases f.reduce bags.flatten <;> simp [bind, Except.bind, pure, Except.pure]

/-! ### The protocol -/

/-- What an accumulator that has taken `chunks` since its last cleanup does. -/
structure Faithful (a : Accumulator f) (chunks : List Bag) : Prop where
  /-- It gives the value of the chunks, one after the other. -/
  value : ∃ v, a.call .value = (a, .value v) ∧ f.finalValue chunks.flatten = .ok v
  /-- The value is null exactly if the chunks have no number. -/
  null_iff : a.value = .null ↔ ∀ t ∈ chunks.flatten, t.field 0 = .ok .null
  /-- The flag is set exactly if there is a running value. -/
  saw_iff : a.sawNonNull = true ↔ ∃ x, a.running = some x
  /-- A chunk is refused exactly if it has no value, with the same error. -/
  refused_iff : ∀ chunk e, (a.call (.accumulate chunk)).2 = .failed e ↔ f.finalValue chunk = .error e
  /-- A chunk that is refused changes nothing. -/
  unchanged : ∀ chunk e, (a.call (.accumulate chunk)).2 = .failed e → (a.call (.accumulate chunk)).1 = a
  /-- A bag that is fed in chunks meets its own error first, and no other. -/
  fed_iff : ∀ (bags : List Bag) (e : ExecError),
    firstError? (a.serve (bags.map .accumulate)).2 = some e ↔ f.finalValue bags.flatten = .error e

/-- **Accumulators keep their protocol.** After every history of calls on a fresh
accumulator of the greatest or the least of any kind of numbers, or of a sum of
integers: its value is the one-pass value of the chunks that it has taken since
its last cleanup, a refused chunk changes nothing, and errors are those of the
one-pass value. -/
theorem faithful_serve (hf : f.Exact) (calls : List Call) :
    ((fresh : Accumulator f).serve calls).1.Faithful (taken ((fresh : Accumulator f).serve calls).2) := by
  have h : ((fresh : Accumulator f).serve calls).1.Holds (taken ((fresh : Accumulator f).serve calls).2) :=
    Holds.serve hf calls holds_fresh
  refine ⟨⟨_, rfl, h.finalValue_eq⟩, ?_, ?_, fun _ _ => call_failed_iff, fun _ _ => call_of_failed, ?_⟩
  · rw [← Aggregate.finalValue_eq_null_iff (f := f), h.finalValue_eq, Except.ok.injEq]
  · rw [h.saw, Option.isSome_iff_exists]
  · exact fun bags e => firstError?_serve hf bags _

/-- The greatest number, a chunk with a bad value, a row without fields, an empty
chunk and a number more: the sum wraps, and the bad chunks leave no trace. -/
def wrappingCalls : List Call :=
  [.accumulate [⟨[.long 7]⟩], .cleanup, .accumulate [⟨[.long Int64.maxValue]⟩, ⟨[.null]⟩],
    .accumulate [⟨[.int 1]⟩, ⟨[.text "x"]⟩], .value, .accumulate [⟨[]⟩], .accumulate [],
    .accumulate [⟨[.int 1]⟩]]

theorem faithful_serve_wrapping :
    let f : Aggregate := ⟨.long, .sum⟩
    let served := (fresh : Accumulator f).serve wrappingCalls
    f.Exact ∧ served.1.Faithful (taken served.2) ∧
      taken served.2 = [[⟨[.long Int64.maxValue]⟩, ⟨[.null]⟩], [], [⟨[.int 1]⟩]] ∧
      served.1.value = .long Int64.minValue :=
  ⟨by decide, faithful_serve (by decide) wrappingCalls, by decide, by decide⟩

end Accumulator
end MapReduce
