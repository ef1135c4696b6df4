/-
# A task that is run again

A task keeps its accumulators and counters from one run to the next, and a run that
fails leaves them as they stand: some calls may have taken the row that failed and
others not, and the values of an unfinished key are still in them. None of this is
seen by the next run. A run keeps the setup of a task, its mode and its calls with
their accumulators set aside (`Task.setup_run`), wherever it ends, and what a run
does depends on the setup alone (`Task.run_eq_of_setup`). So after any history of
runs a task does what a new one does (`Task.run_after`).

The setup is kept lane by lane. A pass over the lanes may stop in the middle, with
the lanes before that place moved on and the others not; `cleared_sweep` is the one
place where this is looked at. A run is passes one after the other, and may stop
between them (`passes_runGrouped`).

Key definitions: `Task.setup`, `Task.after`.
Key theorems: `cleared_sweep`, `passes_runGrouped`, `Task.run_eq_of_setup`,
`Task.setup_run`, `Task.run_after`.
-/
import MapReduce.Proofs.KeyRuns

namespace MapReduce

/-! ### What a lane keeps -/

/-- The calls of lanes, without what they have taken. -/
def clearedSlots (lanes : List Lane) : List Slot := lanes.map fun l => l.slot.cleared

/-- Ending a key keeps the call. -/
theorem Lane.cleared_of_finish {mode : Mode} {l l' : Lane} {n : Nat} {x : Scalar}
    (h : l.finish mode = .ok (l', n, x)) : l'.slot.cleared = l.slot.cleared := by
  cases mode with
  | initial =>
    cases h
    rfl
  | intermediate =>
    obtain ⟨t, _, hl⟩ := ok_of_bind h
    cases hl
    rfl
  | final =>
    obtain ⟨y, _, hl⟩ := ok_of_bind h
    cases hl
    rfl
  | accumulate chunk =>
    simp only [finish] at h
    split at h
    · cases h
      rfl
    · obtain ⟨m, hflush, hl⟩ := ok_of_bind h
      have hcall : m.slot.cleared = l.slot.cleared := cleared_of_flush hflush
      cases hl
      exact hcall

/-- **A pass over lanes keeps their calls**, also if it stops at an error. -/
theorem cleared_sweep {α : Type} {f : Lane → Except ExecError (Lane × Nat × α)}
    (hf : ∀ {l l' n a}, f l = .ok (l', n, a) → l'.slot.cleared = l.slot.cleared) :
    ∀ lanes : List Lane, clearedSlots (sweep f lanes).lanes = clearedSlots lanes
  | [] => rfl
  | l :: lanes => by
    cases hl : f l with
    | error e => simp only [sweep, hl]
    | ok r =>
      obtain ⟨l', n, a⟩ := r
      have hcons : (sweep f (l :: lanes)).lanes = l' :: (sweep f lanes).lanes := by simp only [sweep, hl]
      rw [hcons, clearedSlots, clearedSlots, List.map_cons, List.map_cons, hf hl]
      exact congrArg _ (cleared_sweep hf lanes)

/-- **What passes over lanes do, a run does**, wherever it ends. `R` is between lanes, the
chunks that are counted, and the lanes after it. -/
theorem passes_runGrouped {ρ : Aggregate → Type} [Receiver ρ] {mode : Mode}
    {R : List (Lane ρ) → Nat → List (Lane ρ) → Prop} (hrefl : ∀ lanes, R lanes 0 lanes)
    (htrans : ∀ {a b c m n}, R a m b → R b n c → R a (m + n) c)
    (htake : ∀ v lanes, R lanes (sweep (Lane.take mode v) lanes).chunks (sweep (Lane.take mode v) lanes).lanes)
    (hfinish : ∀ lanes, R lanes (sweep (Lane.finish mode) lanes).chunks (sweep (Lane.finish mode) lanes).lanes) :
    ∀ (rows : List Row) (lanes : List (Lane ρ)) (current : Option Tuple),
      R lanes (runGrouped mode lanes current rows).chunks (runGrouped mode lanes current rows).lanes
  | [], lanes, current => by
    cases current with
    | none => exact hrefl lanes
    | some key => exact hfinish lanes
  | (key, v) :: rows, lanes, current => by
    -- a new key ends the one before; else nothing is done yet
    have hmet : R lanes (meetKey mode lanes current key).2.chunks (meetKey mode lanes current key).2.lanes := by
      cases current with
      | none => exact hrefl lanes
      | some previous =>
        unfold meetKey
        dsimp only
        split
        · exact hrefl lanes
        · split
          · exact hrefl lanes
          · exact hfinish lanes
    have htaken := htrans hmet (htake v (meetKey mode lanes current key).2.lanes)
    unfold runGrouped
    dsimp only
    split
    · exact hmet
    · split
      · exact htaken
      · exact htrans htaken (passes_runGrouped hrefl htrans htake hfinish rows _ _)

/-- A run keeps the calls of its lanes. -/
theorem cleared_runGrouped (mode : Mode) (rows : List Row) (lanes : List Lane) (current : Option Tuple) :
    clearedSlots (runGrouped mode lanes current rows).lanes = clearedSlots lanes := by
  refine passes_runGrouped (R := fun a _ b => clearedSlots b = clearedSlots a) ?_ ?_ ?_ ?_ rows lanes current
  · exact fun _ => rfl
  · exact fun h h' => h'.trans h
  · exact fun v lanes => cleared_sweep (fun h => (Lane.slot_of_take h).1) lanes
  · exact fun lanes => cleared_sweep Lane.cleared_of_finish lanes

/-! ### Tasks -/

namespace Task

/-- What a task was made for: its mode and its calls, before any row. -/
def setup (t : Task) : Mode × List Slot := (t.mode, t.slots.map Slot.cleared)

/-- The task after runs over inputs, of which any may fail. -/
def after (t : Task) (history : List (List Row)) : Task := history.foldl (fun t rows => (t.run rows).2) t

/-- A run sees nothing of a task but its setup. -/
theorem run_eq_of_setup {t t' : Task} (h : t.setup = t'.setup) (rows : List Row) : t.run rows = t'.run rows := by
  obtain ⟨hmode, hslots⟩ := Prod.mk.inj h
  unfold run
  rw [hmode, hslots]

/-- **A run keeps the setup of its task**, whether it succeeds or fails. -/
theorem setup_run (t : Task) (rows : List Row) : (t.run rows).2.setup = t.setup := by
  have hstart : clearedSlots ((t.slots.map Slot.cleared).map fun s => ⟨s, []⟩) = t.slots.map Slot.cleared := by
    rw [clearedSlots, List.map_map, List.map_map]
    rfl
  refine Prod.ext rfl ?_
  show (t.run rows).2.slots.map Slot.cleared = t.slots.map Slot.cleared
  rw [← hstart]
  by_cases hm : t.mode = .initial
  · simp only [run, if_pos hm]
    exact List.map_map
  · simp only [run, if_neg hm]
    rw [← cleared_runGrouped t.mode rows _ none]
    exact List.map_map

theorem setup_after (t : Task) (history : List (List Row)) : (t.after history).setup = t.setup := by
  induction history generalizing t with
  | nil => rfl
  | cons rows history ih => exact (ih (t.run rows).2).trans (t.setup_run rows)

/-- **A task that is run again starts from scratch.** A task is made for calls and
run over any history of inputs, on each of which it may succeed, or fail at any row
and any call. The next run gives the rows or the error that it gives on a task that
was just made for the same calls, and leaves the same counters and accumulators. -/
theorem run_after (registry : Registry) (calls : List AggCall) (chunk : Nat) (history : List (List Row))
    (rows : List Row) :
    (Task.create registry calls chunk).map (fun t => (t.after history).run rows) =
      (Task.create registry calls chunk).map (fun t => t.run rows) := by
  cases Task.create registry calls chunk with
  | error e => rfl
  | ok t => exact congrArg Except.ok (run_eq_of_setup (t.setup_after history) rows)

/-- A run that fails in the second call leaves what the first one has taken of the
row, and counts its chunk. -/
example :
    let failed := (⟨.accumulate 1, [⟨0, ⟨.long, .sum⟩, .fresh⟩, ⟨0, ⟨.int, .max⟩, .fresh⟩], ⟨0, 0, 0⟩⟩ : Task).run
      [(⟨[]⟩, ⟨[.int 3]⟩), (⟨[]⟩, ⟨[.long 4]⟩)]
    failed.2.slots.map (fun s => s.accumulator.value) = [.long 7, .int 3] ∧
      failed.2.stats = ⟨2, 0, 3⟩ := by
  decide +kernel

end Task

end MapReduce
