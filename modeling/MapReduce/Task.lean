/-
# Aggregate tasks

A task evaluates aggregate calls over rows of a key and a value. The initial
stage maps every row by itself. The other stages take rows that are sorted by
key and give one row per key: the middle and final waves combine the values of a
key at its end, and the one-pass stage feeds them to accumulators in chunks.

A `Lane` is a call at work: its accumulator, and the values that it has not
handed on yet. A run that fails leaves the accumulators and counters as they
stand; the next run starts by clearing both.

A run asks three things of an accumulator: to take a chunk, to tell the value of what
it has taken, and to forget it. So it is written over any `Receiver` that can do these,
and tasks are made with accumulators.

Key definitions: `Receiver`, `Task`, `Task.create`, `Task.run`, `Lane.take`,
`Lane.finish`, `runGrouped`.
-/
import MapReduce.Aggregate.Accumulator

namespace MapReduce

/-- A key and its value. -/
abbrev Row := Tuple × Tuple

/-- How a task treats its rows. -/
inductive Mode where
  | initial
  | intermediate
  | final
  /-- Values go to accumulators in chunks of this length. -/
  | accumulate (chunk : Nat)
deriving DecidableEq

namespace Mode

/-- The mode for a stage. A chunk holds at least one value. -/
def ofStage (chunk : Nat) : Stage → Mode
  | .initial => .initial
  | .intermediate => .intermediate
  | .final => .final
  | .whole => .accumulate (max chunk 1)

/-- The mode as text. -/
def display : Mode → String
  | .initial => "initial"
  | .intermediate => "intermediate"
  | .final => "final"
  | .accumulate chunk => "accumulate(" ++ Nat.repr chunk ++ ")"

end Mode

/-- What a run has counted. -/
structure Stats where
  rowsIn : Nat
  rowsOut : Nat
  chunks : Nat
deriving DecidableEq

/-- What can stand behind the calls of a task. -/
class Receiver (ρ : Aggregate → Type) where
  /-- Takes a chunk. -/
  accumulate {f : Aggregate} (a : ρ f) (chunk : Bag) : Except ExecError (ρ f)
  /-- Tells the value of what was taken, and what it is itself after that. -/
  value {f : Aggregate} (a : ρ f) : Scalar × ρ f
  /-- Forgets what was taken. -/
  cleanup {f : Aggregate} (a : ρ f) : ρ f

instance : Receiver Accumulator where
  accumulate := Accumulator.accumulate
  value a := (a.value, a)
  cleanup _ := .fresh

variable {ρ : Aggregate → Type} [Receiver ρ]

/-- A call: the column it reads, its function, and the function's accumulator. -/
structure Slot (ρ : Aggregate → Type := Accumulator) where
  column : Nat
  function : Aggregate
  accumulator : ρ function

namespace Slot

/-- The slot with an accumulator that has forgotten what it took. -/
def cleared (s : Slot ρ) : Slot ρ := ⟨s.column, s.function, Receiver.cleanup s.accumulator⟩

/-- The value a call reads from a row. -/
def project (s : Slot ρ) (value : Tuple) : Except ExecError Tuple :=
  match value.field s.column with
  | .ok v => .ok ⟨[v]⟩
  | .error e => .error (ExecError.classify ("input of " ++ s.function.name) (.other e.message))

end Slot

/-- The first field of a tuple, null if it has none. -/
def firstField (t : Tuple) : Scalar := t.fields.head?.getD .null

/-- A call at work, with the values it has not handed on. -/
structure Lane (ρ : Aggregate → Type := Accumulator) where
  slot : Slot ρ
  pending : Bag

namespace Lane

/-- Hands the pending values to the accumulator. -/
def flush (l : Lane ρ) (pending : Bag) : Except ExecError (Lane ρ) := do
  let a ← Receiver.accumulate l.slot.accumulator pending
  return ⟨⟨l.slot.column, l.slot.function, a⟩, []⟩

/-- Reads the value of what was handed on, then has it forgotten. -/
def close (l : Lane ρ) : Lane ρ × Scalar :=
  let answer := Receiver.value l.slot.accumulator
  (⟨⟨l.slot.column, l.slot.function, Receiver.cleanup answer.2⟩, []⟩, answer.1)

/-- Takes the value of a row, and counts a chunk that is full. -/
def take (mode : Mode) (value : Tuple) (l : Lane ρ) : Except ExecError (Lane ρ × Nat × Unit) := do
  let pending := l.pending ++ [← l.slot.project value]
  match mode with
  | .accumulate chunk =>
    if chunk ≤ pending.length then return (← l.flush pending, 1, ())
    else return (⟨l.slot, pending⟩, 0, ())
  | _ => return (⟨l.slot, pending⟩, 0, ())

/-- Ends a key: its result, and the lane ready for the next key. -/
def finish (mode : Mode) (l : Lane ρ) : Except ExecError (Lane ρ × Nat × Scalar) := do
  match mode with
  | .initial => return (⟨l.slot, []⟩, 0, .null)
  | .intermediate =>
    return (⟨l.slot, []⟩, 0, firstField (← l.slot.function.intermediate l.pending))
  | .final => return (⟨l.slot, []⟩, 0, ← l.slot.function.finalValue l.pending)
  | .accumulate _ =>
    if l.pending.isEmpty then return (l.close.1, 0, l.close.2)
    else
      let l' ← l.flush l.pending
      return (l'.close.1, 1, l'.close.2)

end Lane

/-- What a pass over the lanes did: the lanes after it, the chunks it counted,
and its results or the first error. -/
structure Sweep (α : Type) (ρ : Aggregate → Type := Accumulator) where
  lanes : List (Lane ρ)
  chunks : Nat
  result : Except ExecError (List α)

/-- Passes over the lanes in order. An error leaves its lane and the ones after
it as they were. -/
def sweep {α : Type} (f : Lane ρ → Except ExecError (Lane ρ × Nat × α)) : List (Lane ρ) → Sweep α ρ
  | [] => ⟨[], 0, .ok []⟩
  | l :: ls =>
    match f l with
    | .error e => ⟨l :: ls, 0, .error e⟩
    | .ok (l', n, a) =>
      let s := sweep f ls
      ⟨l' :: s.lanes, n + s.chunks, s.result.map (a :: ·)⟩

/-- What a run did: the lanes after it, its counters, and its rows or the first
error. -/
structure Report (ρ : Aggregate → Type := Accumulator) where
  lanes : List (Lane ρ)
  rowsIn : Nat
  chunks : Nat
  result : Except ExecError (List Row)

/-- Ends the run of a key. -/
def finishKey (mode : Mode) (lanes : List (Lane ρ)) (key : Tuple) : Report ρ :=
  let s := sweep (Lane.finish mode) lanes
  ⟨s.lanes, 0, s.chunks, s.result.map (fun fields => [(key, ⟨fields⟩)])⟩

/-- A key that comes after a greater one. -/
def unsorted (key previous : Tuple) : ExecError :=
  ⟨ExecError.unsortedCode, .input, "key " ++ key.shown ++ " arrived after " ++ previous.shown, none⟩

/-- Meets the key of a row: the key that the row belongs to, and what ending the
key before it did. -/
def meetKey (mode : Mode) (lanes : List (Lane ρ)) (current : Option Tuple) (key : Tuple) :
    Tuple × Report ρ :=
  match current with
  | none => (key, ⟨lanes, 0, 0, .ok []⟩)
  | some previous =>
    if previous.sameKey key then (previous, ⟨lanes, 0, 0, .ok []⟩)
    else if key.before previous then (previous, ⟨lanes, 0, 0, .error (unsorted key previous)⟩)
    else (key, finishKey mode lanes previous)

/-- Runs the lanes over rows sorted by key, inside the run of the key `current`. -/
def runGrouped (mode : Mode) (lanes : List (Lane ρ)) (current : Option Tuple) : List Row → Report ρ
  | [] =>
    match current with
    | none => ⟨lanes, 0, 0, .ok []⟩
    | some key => finishKey mode lanes key
  | (key, value) :: rest =>
    let (key', met) := meetKey mode lanes current key
    match met.result with
    | .error e => ⟨met.lanes, 1, met.chunks, .error e⟩
    | .ok done =>
      let taken := sweep (Lane.take mode value) met.lanes
      match taken.result with
      | .error e => ⟨taken.lanes, 1, met.chunks + taken.chunks, .error e⟩
      | .ok _ =>
        let r := runGrouped mode taken.lanes (some key') rest
        ⟨r.lanes, 1 + r.rowsIn, met.chunks + taken.chunks + r.chunks, r.result.map (done ++ ·)⟩

/-- Maps each row by itself; also counts the rows that were looked at. -/
def runInitial (slots : List (Slot ρ)) : List Row → Nat × Except ExecError (List Row)
  | [] => (0, .ok [])
  | (key, value) :: rest =>
    let fields := slots.mapM (fun s => do
      return firstField (← s.function.initial [← s.project value]))
    match fields with
    | .error e => (1, .error e)
    | .ok fs =>
      let r := runInitial slots rest
      (1 + r.1, r.2.map ((key, ⟨fs⟩) :: ·))

/-- A task: its calls, and what its last run counted. -/
structure Task (ρ : Aggregate → Type := Accumulator) where
  mode : Mode
  slots : List (Slot ρ)
  stats : Stats

namespace Task

/-- The chunk length where nothing is said. -/
def defaultChunk : Nat := 1024

/-- A task needs a call. -/
def noCalls : ExecError :=
  ⟨ExecError.aggregateCode, .bug, "aggregate task without aggregate calls", none⟩

/-- The calls of a task are of one stage. -/
def mixedStages (first other : Stage) : ExecError :=
  ⟨ExecError.aggregateCode, .bug,
    "mixed aggregate stages in one task: " ++ first.name ++ " and " ++ other.name, none⟩

/-- A task calls functions that are registered. -/
def unknownFunction (name : String) : ExecError :=
  ⟨ExecError.unknownFunctionCode, .user, "unknown aggregate function " ++ name, none⟩

/-- The slot of a call. -/
def slotOf (registry : Registry) (c : AggCall) : Except ExecError Slot :=
  match registry.find? c.function with
  | some f => .ok ⟨c.column.toNat, f, Accumulator.fresh⟩
  | none => .error (unknownFunction c.function)

/-- The task for calls of one stage. -/
def create (registry : Registry) (calls : List AggCall) (chunk : Nat) : Except ExecError Task :=
  match calls with
  | [] => .error noCalls
  | first :: _ =>
    match calls.find? (fun c => c.stage != first.stage) with
    | some other => .error (mixedStages first.stage other.stage)
    | none => do
      let slots ← calls.mapM (slotOf registry)
      return ⟨Mode.ofStage chunk first.stage, slots, ⟨0, 0, 0⟩⟩

/-- Runs the task over rows. Rows that come out are counted only if the run
succeeds. -/
def run (t : Task ρ) (rows : List Row) : Except ExecError (List Row) × Task ρ :=
  let slots := t.slots.map Slot.cleared
  let report : Report ρ :=
    if t.mode = .initial then
      let r := runInitial slots rows
      ⟨slots.map (fun s => ⟨s, []⟩), r.1, 0, r.2⟩
    else runGrouped t.mode (slots.map (fun s => ⟨s, []⟩)) none rows
  let rowsOut := match report.result with
    | .ok out => out.length
    | .error _ => 0
  (report.result, ⟨t.mode, report.lanes.map Lane.slot, ⟨report.rowsIn, rowsOut, report.chunks⟩⟩)

end Task

end MapReduce
