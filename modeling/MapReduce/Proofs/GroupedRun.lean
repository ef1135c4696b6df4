/-
# What a task computes

A call reads a number, or null, from every row; `Slot.result` is its value on a
list of rows, without stages, chunks and lanes. A lane holds rows (`Lane.Holds`)
if the combination of what its accumulator has taken and what is pending is the
combination of those rows. Taking a row keeps this, whatever the chunk length, and
ending a key gives the value of the rows it held.

A row that cannot be read fails at once or leaves its lane stuck (`Lane.Stuck`),
and a stuck lane fails when its key ends. So a task succeeds on sorted rows exactly
if all of them can be read, and then gives every key with the value of its rows
(`yields_runGrouped`); the initial stage does so row by row
(`yields_runInitial`).

Key definitions: `Slot.reads`, `Slot.result`, `summary`, `groupBy`, `Lane.Holds`,
`Lane.Stuck`.
Key theorems: `Lane.Holds.take`, `Lane.Holds.finish`, `yields_runGrouped`,
`yields_runInitial`.
-/
import MapReduce.Proofs.AggregateLaws
import MapReduce.Proofs.Gather
import MapReduce.Task

namespace MapReduce

/-! ### The value of a call -/

namespace Slot

/-- Whether a call can read a row. -/
def reads (s : Slot) (v : Tuple) : Bool :=
  match s.project v with
  | .ok t => s.function.reads t
  | .error _ => false

/-- The number that a call reads from a row, if there is one. -/
def cell (s : Slot) (v : Tuple) : Option s.function.Value :=
  match s.project v with
  | .ok t => s.function.number t
  | .error _ => none

/-- The value of a call on rows. -/
def result (s : Slot) (vs : List Tuple) : Scalar := s.function.scalar (s.function.fold (vs.filterMap s.cell))

theorem project_of_reads {s : Slot} {v : Tuple} (h : s.reads v = true) :
    ∃ t, s.project v = .ok t ∧ s.function.reads t = true ∧ s.cell v = s.function.number t := by
  unfold reads at h
  unfold cell
  cases hp : s.project v with
  | error e => rw [hp] at h; cases h
  | ok t => rw [hp] at h; exact ⟨t, rfl, h, rfl⟩

end Slot

/-- The row that calls give for rows of one key. -/
def summary (slots : List Slot) (vs : List Tuple) : Tuple := ⟨slots.map (fun s => s.result vs)⟩

/-- Whether every call can read every row. -/
def readable (slots : List Slot) (rows : List Row) : Bool := rows.all (fun r => slots.all (fun s => s.reads r.2))

/-- The rows of each key, summed up. -/
def groupBy (slots : List Slot) (rows : List Row) : List Row :=
  (gather rows).entries.map (fun g => (g.1, summary slots g.2))

/-- Whether values go to the accumulator before their key ends. -/
def Mode.chunked : Mode → Bool
  | .accumulate _ => true
  | _ => false

/-! ### Lanes -/

namespace Lane

/-- The lane is the call's, and has taken the rows. -/
def Holds (mode : Mode) (s : Slot) (vs : List Tuple) (l : Lane) : Prop :=
  ∃ (a : Accumulator s.function) (done : List s.function.Value),
    l.slot = ⟨s.column, s.function, a⟩ ∧ a.running = s.function.fold done ∧
    l.pending.all s.function.reads = true ∧
    done ++ l.pending.filterMap s.function.number = vs.filterMap s.cell ∧
    (mode.chunked = false → done = [])

/-- A pending value cannot be read. -/
def Stuck (l : Lane) : Prop := l.pending.all l.slot.function.reads = false

/-- Taking the row fails, or leaves the lane stuck. -/
def Jams (mode : Mode) (v : Tuple) (l : Lane) : Prop :=
  (∃ e, l.take mode v = .error e) ∨ ∃ l' n, l.take mode v = .ok (l', n, ()) ∧ l'.Stuck

variable {mode : Mode} {s : Slot} {vs : List Tuple} {v t : Tuple} {l : Lane}

theorem holds_cleared (mode : Mode) (s : Slot) : Holds mode s [] ⟨s.cleared, []⟩ :=
  ⟨.fresh, [], rfl, rfl, rfl, rfl, fun _ => rfl⟩

/-- The lane after pending values that can be read are handed on. -/
def flushed (l : Lane) (b : Bag) : Lane := ⟨⟨l.slot.column, l.slot.function, l.slot.accumulator.fed b⟩, []⟩

theorem yields_flush (l : Lane) (b : Bag) : Yields (l.flush b) (b.all l.slot.function.reads) (l.flushed b) :=
  (l.slot.accumulator.yields_accumulate b).map fun a => (⟨⟨l.slot.column, l.slot.function, a⟩, []⟩ : Lane)

/-- A lane takes a row: it flushes if the chunk is full, and else keeps it. -/
theorem take_eq (mode : Mode) (hp : l.slot.project v = .ok t) :
    (∃ chunk, mode = .accumulate chunk ∧
      l.take mode v = (l.flush (l.pending ++ [t])).map (fun l' => (l', 1, ()))) ∨
    l.take mode v = .ok (⟨l.slot, l.pending ++ [t]⟩, 0, ()) := by
  unfold take
  rw [hp]
  cases mode with
  | accumulate chunk =>
    by_cases hc : chunk ≤ (l.pending ++ [t]).length
    · left
      refine ⟨chunk, rfl, ?_⟩
      simp only [bind, Except.bind, if_pos hc]
      cases l.flush (l.pending ++ [t]) <;> rfl
    · right
      simp only [bind, Except.bind, if_neg hc]
      rfl
  | _ => exact .inr rfl

/-- **Taking a row keeps what a lane holds**, and adds the row. -/
theorem Holds.take (he : s.function.Exact) (h : Holds mode s vs l) (hv : s.reads v = true) :
    ∃ l' n, l.take mode v = .ok (l', n, ()) ∧ Holds mode s (vs ++ [v]) l' := by
  obtain ⟨slot, pending⟩ := l
  obtain ⟨a, done, hslot, hrun, hreads, hdone, hmode⟩ := h
  obtain ⟨t, ht, htr, hcell⟩ := Slot.project_of_reads hv
  subst hslot
  have hreads' : (pending ++ [t]).all s.function.reads = true := by
    rw [List.all_append, hreads, List.all_cons, htr]
    rfl
  have hdone' : done ++ (pending ++ [t]).filterMap s.function.number = (vs ++ [v]).filterMap s.cell := by
    rw [List.filterMap_append, List.filterMap_append, ← List.append_assoc, hdone]
    simp only [List.filterMap_cons, hcell]
    rfl
  rcases take_eq mode (l := ⟨⟨s.column, s.function, a⟩, pending⟩) ht with ⟨chunk, hc, htake⟩ | htake
  · -- a full chunk: what was pending counts as done
    have hflush := yields_flush ⟨⟨s.column, s.function, a⟩, pending⟩ (pending ++ [t])
    rw [show (pending ++ [t]).all (Slot.mk s.column s.function a).function.reads = true from hreads'] at hflush
    refine ⟨_, _, by rw [htake, hflush.eq_ok]; rfl, a.fed (pending ++ [t]),
      done ++ (pending ++ [t]).filterMap s.function.number, rfl, ?_, rfl, ?_, ?_⟩
    · rw [Accumulator.running_fed he, Aggregate.fold_append he, ← hrun]
    · rw [hdone']
      exact List.append_nil _
    · rw [hc]
      exact fun h => nomatch h
  · exact ⟨_, _, htake, a, done, rfl, hrun, hreads', hdone', hmode⟩

/-- **Ending a key gives the value of the rows it held**, and empties the lane. -/
theorem Holds.finish (he : s.function.Exact) (hm : mode ≠ .initial) (h : Holds mode s vs l) :
    ∃ l' n, l.finish mode = .ok (l', n, s.result vs) ∧ Holds mode s [] l' := by
  obtain ⟨slot, pending⟩ := l
  obtain ⟨a, done, hslot, hrun, hreads, hdone, hmode⟩ := h
  subst hslot
  have hreduce := s.function.yields_reduce pending
  rw [show pending.all s.function.reads = true from hreads] at hreduce
  -- without chunks nothing was handed on, and the pending values are those of all rows
  have hkept : mode.chunked = false →
      s.function.reduce pending = .ok (s.function.fold (vs.filterMap s.cell)) ∧
        Holds mode s [] ⟨⟨s.column, s.function, a⟩, []⟩ := by
    intro hc
    rw [hmode hc] at hrun hdone
    refine ⟨?_, a, [], rfl, hrun, rfl, rfl, fun _ => rfl⟩
    rw [hreduce.eq_ok, ← hdone]
    rfl
  cases mode with
  | initial => exact absurd rfl hm
  | intermediate =>
    obtain ⟨hr, hl⟩ := hkept rfl
    refine ⟨_, 0, ?_, hl⟩
    simp only [Lane.finish, Aggregate.intermediate, hr]
    rfl
  | final =>
    obtain ⟨hr, hl⟩ := hkept rfl
    refine ⟨_, 0, ?_, hl⟩
    simp only [Lane.finish, Aggregate.finalValue, hr]
    rfl
  | accumulate chunk =>
    refine ⟨⟨s.cleared, []⟩, ?_⟩
    cases pending with
    | nil =>
      refine ⟨0, ?_, holds_cleared _ s⟩
      rw [List.filterMap_nil, List.append_nil] at hdone
      rw [Slot.result, ← hdone, ← hrun]
      rfl
    | cons p ps =>
      have hflush := yields_flush ⟨⟨s.column, s.function, a⟩, p :: ps⟩ (p :: ps)
      rw [show (p :: ps).all (Slot.mk s.column s.function a).function.reads = true from hreads] at hflush
      refine ⟨1, ?_, holds_cleared _ s⟩
      have hvalue : (a.fed (p :: ps)).value = s.result vs := by
        rw [Accumulator.value, Accumulator.running_fed he, Slot.result, ← hdone, Aggregate.fold_append he, ← hrun]
      simp only [Lane.finish, hflush.eq_ok, List.isEmpty_cons]
      rw [← hvalue]
      rfl

theorem jams_of_project (mode : Mode) (hp : l.slot.project v = .ok t)
    (hb : (l.pending ++ [t]).all l.slot.function.reads = false) : l.Jams mode v := by
  rcases take_eq mode hp with ⟨_, _, htake⟩ | htake
  · left
    obtain ⟨e, he⟩ := (hb ▸ l.yields_flush (l.pending ++ [t])).eq_error
    exact ⟨e, by rw [htake, he]; rfl⟩
  · exact .inr ⟨_, _, htake, hb⟩

theorem Stuck.jams (h : l.Stuck) (mode : Mode) (v : Tuple) : l.Jams mode v := by
  cases hp : l.slot.project v with
  | error e => exact .inl ⟨e, by rw [Lane.take, hp]; rfl⟩
  | ok t =>
    refine jams_of_project mode hp ?_
    rw [List.all_append, show l.pending.all l.slot.function.reads = false from h, Bool.false_and]

theorem Stuck.finish (h : l.Stuck) (hm : mode ≠ .initial) : ∃ e, l.finish mode = .error e := by
  obtain ⟨e, he⟩ := (h ▸ l.slot.function.yields_reduce l.pending).eq_error
  cases mode with
  | initial => exact absurd rfl hm
  | intermediate => exact ⟨e, by simp only [Lane.finish, Aggregate.intermediate, he]; rfl⟩
  | final => exact ⟨e, by simp only [Lane.finish, Aggregate.finalValue, he]; rfl⟩
  | accumulate chunk =>
    obtain ⟨e', he'⟩ := (h ▸ l.yields_flush l.pending).eq_error
    have hne : l.pending.isEmpty = false := by
      cases hl : l.pending with
      | nil => rw [Stuck, hl] at h; cases h
      | cons p ps => rfl
    refine ⟨e', ?_⟩
    simp only [Lane.finish, hne, he']
    rfl

/-- A row that cannot be read jams its lane. -/
theorem Holds.jams (h : Holds mode s vs l) (hv : s.reads v = false) : l.Jams mode v := by
  obtain ⟨slot, pending⟩ := l
  obtain ⟨a, done, hslot, _⟩ := h
  subst hslot
  unfold Slot.reads at hv
  cases hp : s.project v with
  | error e =>
    refine .inl ⟨e, ?_⟩
    rw [Lane.take, show Slot.project ⟨s.column, s.function, a⟩ v = .error e from hp]
    rfl
  | ok t =>
    rw [hp] at hv
    refine jams_of_project mode (l := ⟨⟨s.column, s.function, a⟩, pending⟩) hp ?_
    show (pending ++ [t]).all s.function.reads = false
    rw [List.all_append, List.all_cons, show s.function.reads t = false from hv, Bool.false_and, Bool.and_false]

end Lane

/-! ### Passes over the lanes -/

section

variable {α : Type} {f : Lane → Except ExecError (Lane × Nat × α)}

/-- A pass in which every lane succeeds. -/
theorem sweep_ok {R R' : Slot → Lane → Prop} {g : Slot → α} {slots : List Slot} {lanes : List Lane}
    (hf : ∀ s ∈ slots, ∀ l, R s l → ∃ l' n, f l = .ok (l', n, g s) ∧ R' s l')
    (h : List.Forall₂ R slots lanes) :
    (sweep f lanes).result = .ok (slots.map g) ∧ List.Forall₂ R' slots (sweep f lanes).lanes := by
  induction h with
  | nil => exact ⟨rfl, .nil⟩
  | @cons s l slots lanes hl _ ih =>
    obtain ⟨l', n, hfl, hl'⟩ := hf s List.mem_cons_self l hl
    obtain ⟨hresult, hlanes⟩ := ih fun s hs => hf s (List.mem_cons_of_mem _ hs)
    simp only [sweep, hfl, hresult]
    exact ⟨rfl, .cons hl' hlanes⟩

/-- A pass with a lane that does not go on well. -/
theorem sweep_bad {P Q : Lane → Prop}
    (hf : ∀ l, P l → (∃ e, f l = .error e) ∨ ∃ l' n a, f l = .ok (l', n, a) ∧ Q l') :
    ∀ {lanes : List Lane}, (∃ l ∈ lanes, P l) →
      (∃ e, (sweep f lanes).result = .error e) ∨ ∃ l ∈ (sweep f lanes).lanes, Q l
  | l :: ls, ⟨x, hx, hp⟩ => by
    cases hl : f l with
    | error e => exact .inl ⟨e, by simp only [sweep, hl]⟩
    | ok r =>
      obtain ⟨l', n, a⟩ := r
      simp only [sweep, hl]
      rcases List.mem_cons.mp hx with rfl | hx
      · rcases hf x hp with ⟨e, he⟩ | ⟨l'', n', a', he, hq⟩
        · rw [he] at hl
          cases hl
        · rw [he] at hl
          cases hl
          exact .inr ⟨_, List.mem_cons_self, hq⟩
      · rcases sweep_bad hf ⟨x, hx, hp⟩ with ⟨e, he⟩ | ⟨y, hy, hq⟩
        · exact .inl ⟨e, by rw [he]; rfl⟩
        · exact .inr ⟨y, List.mem_cons_of_mem _ hy, hq⟩

end

theorem exists_lane_of_mem {R : Slot → Lane → Prop} {slots : List Slot} {lanes : List Lane}
    (h : List.Forall₂ R slots lanes) {s : Slot} (hs : s ∈ slots) : ∃ l ∈ lanes, R s l := by
  induction h with
  | nil => cases hs
  | @cons s' l _ _ hl _ ih =>
    rcases List.mem_cons.mp hs with rfl | hs
    · exact ⟨l, List.mem_cons_self, hl⟩
    · obtain ⟨l', hl', hr⟩ := ih hs
      exact ⟨l', List.mem_cons_of_mem _ hl', hr⟩

/-! ### Grouped runs -/

section

variable {mode : Mode} {lanes : List Lane}

theorem finishKey_stuck (hm : mode ≠ .initial) (h : ∃ l ∈ lanes, l.Stuck) (key : Tuple) :
    ∃ e, (finishKey mode lanes key).result = .error e := by
  have hbad := sweep_bad (f := Lane.finish mode) (P := Lane.Stuck) (Q := fun _ => False)
    (fun l hl => .inl (hl.finish hm)) h
  rcases hbad with ⟨e, he⟩ | ⟨_, _, hfalse⟩
  · exact ⟨e, by rw [finishKey, he]; rfl⟩
  · exact hfalse.elim

/-- A run inside a key, once the key of the next row was met. -/
theorem runGrouped_cons {current : Option Tuple} {k v key' : Tuple} {met : Report} {done : List Row}
    (hmeet : meetKey mode lanes current k = (key', met)) (hdone : met.result = .ok done) (rows : List Row) :
    (runGrouped mode lanes current ((k, v) :: rows)).result =
      (sweep (Lane.take mode v) met.lanes).result >>= fun _ =>
        (runGrouped mode (sweep (Lane.take mode v) met.lanes).lanes (some key') rows).result.map (done ++ ·) := by
  rw [runGrouped, hmeet]
  simp only [hdone]
  cases (sweep (Lane.take mode v) met.lanes).result <;> rfl

theorem meetKey_same {ρ : Aggregate → Type} [Receiver ρ] {lanes : List (Lane ρ)} {key k : Tuple} (hk : key.sameKey k = true) :
    meetKey mode lanes (some key) k = (key, ⟨lanes, 0, 0, .ok []⟩) := by
  simp only [meetKey, if_pos hk]

/-- A greater key ends the key before it. -/
theorem meetKey_next {ρ : Aggregate → Type} [Receiver ρ] {lanes : List (Lane ρ)} {key k : Tuple}
    (hle : (key.compare k).isLE = true) (hk : ¬ key.sameKey k = true) :
    meetKey mode lanes (some key) k = (k, finishKey mode lanes key) := by
  have hb : ¬ k.before key = true := by
    intro hb
    have hgt : key.compare k = .gt := Std.OrientedCmp.gt_of_lt (beq_iff_eq.mp hb)
    rw [hgt] at hle
    cases hle
  simp only [meetKey, if_neg hk, if_neg hb]

/-- A row that jams a lane fails the run, if a stuck lane does. -/
theorem error_of_jams {v key : Tuple} {rows : List Row} (h : ∃ l ∈ lanes, l.Jams mode v)
    (hrun : ∀ lanes', (∃ l ∈ lanes', l.Stuck) → ∃ e, (runGrouped mode lanes' (some key) rows).result = .error e)
    (done : List Row) :
    ∃ e, ((sweep (Lane.take mode v) lanes).result >>= fun _ =>
      (runGrouped mode (sweep (Lane.take mode v) lanes).lanes (some key) rows).result.map (done ++ ·)) = .error e := by
  have hbad := sweep_bad (f := Lane.take mode v) (P := Lane.Jams mode v) (Q := Lane.Stuck)
    (fun l hl => hl.imp_right fun ⟨l', n, hok, hs⟩ => ⟨l', n, (), hok, hs⟩) h
  rcases hbad with ⟨e, he⟩ | hstuck
  · exact ⟨e, by rw [he]; rfl⟩
  · obtain ⟨e, he⟩ := hrun _ hstuck
    rw [he]
    cases (sweep (Lane.take mode v) lanes).result with
    | error e' => exact ⟨e', rfl⟩
    | ok u => exact ⟨e, rfl⟩

/-- A run with a stuck lane fails. -/
theorem runGrouped_stuck (hm : mode ≠ .initial) : ∀ (rows : List Row) (lanes : List Lane) (key : Tuple),
    (∃ l ∈ lanes, l.Stuck) → ∃ e, (runGrouped mode lanes (some key) rows).result = .error e
  | [], _, key, h => finishKey_stuck hm h key
  | (k, v) :: rows, lanes, key, h => by
    by_cases hk : key.sameKey k = true
    · rw [runGrouped_cons (meetKey_same hk) rfl]
      obtain ⟨l, hl, hstuck⟩ := h
      exact error_of_jams ⟨l, hl, hstuck.jams mode v⟩ (fun lanes' => runGrouped_stuck hm rows lanes' key) []
    · by_cases hb : k.before key = true
      · refine ⟨unsorted k key, ?_⟩
        rw [runGrouped]
        simp only [meetKey, if_neg hk, if_pos hb]
      · obtain ⟨e, he⟩ := finishKey_stuck hm h key
        refine ⟨e, ?_⟩
        rw [runGrouped]
        simp only [meetKey, if_neg hk, if_neg hb, he]

variable {slots : List Slot} (hm : mode ≠ .initial) (he : ∀ s ∈ slots, s.function.Exact)
include hm he

theorem finishKey_holds {vs : List Tuple} (h : List.Forall₂ (fun s l => l.Holds mode s vs) slots lanes)
    (key : Tuple) : (finishKey mode lanes key).result = .ok [(key, summary slots vs)] ∧
      List.Forall₂ (fun s l => l.Holds mode s []) slots (finishKey mode lanes key).lanes := by
  obtain ⟨hresult, hlanes⟩ := sweep_ok (f := Lane.finish mode) (g := fun s => s.result vs)
    (fun s hs l hl => hl.finish (he s hs) hm) h
  exact ⟨by rw [finishKey, hresult]; rfl, hlanes⟩

/-- What follows after a row is taken: the rest of the run, if the row can be
read. -/
theorem yields_taken {v key : Tuple} {vs : List Tuple} {rows done out : List Row}
    (h : List.Forall₂ (fun s l => l.Holds mode s vs) slots lanes)
    (hrest : ∀ lanes', List.Forall₂ (fun s l => l.Holds mode s (vs ++ [v])) slots lanes' →
      Yields (runGrouped mode lanes' (some key) rows).result (readable slots rows) out) :
    Yields ((sweep (Lane.take mode v) lanes).result >>= fun _ =>
        (runGrouped mode (sweep (Lane.take mode v) lanes).lanes (some key) rows).result.map (done ++ ·))
      (slots.all (fun s => s.reads v) && readable slots rows) (done ++ out) := by
  cases hv : slots.all (fun s => s.reads v) with
  | true =>
    have hread : ∀ s ∈ slots, s.reads v = true := List.all_eq_true.mp hv
    obtain ⟨hresult, hlanes⟩ := sweep_ok (f := Lane.take mode v) (g := fun _ => ())
      (fun s hs l hl => hl.take (he s hs) (hread s hs)) h
    rw [hresult, Bool.true_and]
    exact (hrest _ hlanes).map (done ++ ·)
  | false =>
    obtain ⟨s, hs, hread⟩ := List.all_eq_false.mp hv
    obtain ⟨l, hl, hhold⟩ := exists_lane_of_mem h hs
    have hjam : ∃ l ∈ lanes, l.Jams mode v := ⟨l, hl, hhold.jams (Bool.eq_false_iff.mpr hread)⟩
    obtain ⟨e, herror⟩ := error_of_jams hjam (fun lanes' => runGrouped_stuck hm rows lanes' key) done
    exact Yields.of_error herror

/-- A run inside a key whose rows so far are `vs`. -/
theorem yields_runGrouped_some : ∀ (rows : List Row) (lanes : List Lane) (key : Tuple) (vs : List Tuple),
    List.Forall₂ (fun s l => l.Holds mode s vs) slots lanes → KeysSorted (key :: rows.map Prod.fst) →
    Yields (runGrouped mode lanes (some key) rows).result (readable slots rows)
      ((runsFrom key vs rows).map (fun g => (g.1, summary slots g.2)))
  | [], lanes, key, vs, h, _ => congrArg Except.toOption (finishKey_holds hm he h key).1
  | (k, v) :: rows, lanes, key, vs, h, hsorted => by
    obtain ⟨hkey, hrest⟩ := List.pairwise_cons.mp hsorted
    rw [runsFrom]
    by_cases hk : key.sameKey k = true
    · have hsorted' : KeysSorted (key :: rows.map Prod.fst) :=
        List.pairwise_cons.mpr ⟨fun x hx => hkey x (List.mem_cons_of_mem _ hx), hrest.of_cons⟩
      rw [runGrouped_cons (meetKey_same hk) rfl, if_pos hk]
      exact yields_taken hm he h fun lanes' h' =>
        yields_runGrouped_some rows lanes' key (vs ++ [v]) h' hsorted'
    · -- sorted rows never go back, so the key before ends here
      obtain ⟨hdone, hlanes⟩ := finishKey_holds hm he h key
      rw [runGrouped_cons (meetKey_next (hkey k List.mem_cons_self) hk) hdone, if_neg hk]
      exact yields_taken hm he hlanes fun lanes' h' =>
        yields_runGrouped_some rows lanes' k [v] h' hrest

/-- **A task succeeds on sorted rows exactly if it can read them**, and then gives
every key with the values of its calls. -/
theorem yields_runGrouped {rows : List Row} (hsorted : KeysSorted (rows.map Prod.fst)) :
    Yields (runGrouped mode (slots.map (fun s => ⟨s.cleared, []⟩)) none rows).result (readable slots rows)
      (groupBy slots rows) := by
  have hidle : List.Forall₂ (fun s l => l.Holds mode s []) slots
      (slots.map (fun s => (⟨s.cleared, []⟩ : Lane))) :=
    List.forall₂_map_right_iff.mpr (List.forall₂_same.mpr fun s _ => Lane.holds_cleared mode s)
  rw [groupBy, entries_gather hsorted]
  cases rows with
  | nil => rfl
  | cons row rows =>
    obtain ⟨k, v⟩ := row
    have hmeet : meetKey mode (slots.map (fun s => ⟨s.cleared, []⟩)) none k =
        (k, ⟨slots.map (fun s => ⟨s.cleared, []⟩), 0, 0, .ok []⟩) := rfl
    rw [runGrouped_cons hmeet rfl]
    exact yields_taken hm he hidle fun lanes' h' =>
      yields_runGrouped_some hm he rows lanes' k [v] h' hsorted

end

/-! ### The initial stage -/

namespace Aggregate

variable {f : Aggregate} {t : Tuple} {s : Scalar}

theorem entry_of_field (hf : t.field 0 = .ok s) (hs : s ≠ .null) :
    f.entry t = (f.numeric.ofScalar? s).elim (.error (f.badValue s)) (fun x => .ok (some x)) := by
  rw [entry, hf]
  generalize hv : f.numeric.ofScalar? s = o
  cases s with
  | null => exact absurd rfl hs
  | _ => simp only [hv]; cases o <;> rfl

theorem initial_of_field (hf : t.field 0 = .ok s) (hs : s ≠ .null) :
    f.initial [t] = (f.numeric.ofScalar? s).elim
      (.error (ExecError.classify f.context (.other (f.typeMismatch s)))) (fun x => .ok ⟨[f.numeric.toScalar x]⟩) := by
  rw [initial, hf]
  generalize hv : f.numeric.ofScalar? s = o
  cases s with
  | null => exact absurd rfl hs
  | _ => simp only [hv]; cases o <;> rfl

/-- The first wave writes down what is read from a row. -/
theorem yields_initial (f : Aggregate) (t : Tuple) :
    Yields (f.initial [t]) (f.reads t) ⟨[f.scalar (f.number t)]⟩ := by
  cases hf : t.field 0 with
  | error e =>
    simp only [initial, reads, number, entry, hf]
    rfl
  | ok s =>
    by_cases hs : s = .null
    · subst hs
      simp only [initial, reads, number, entry, hf]
      rfl
    · rw [initial_of_field hf hs, reads, number, entry_of_field hf hs]
      cases f.numeric.ofScalar? s <;> rfl

end Aggregate

/-- The value of a call on one row is what it reads from it. -/
theorem Slot.result_singleton {s : Slot} (he : s.function.Exact) (v : Tuple) :
    s.result [v] = s.function.scalar (s.cell v) := by
  unfold Slot.result
  cases hc : s.cell v with
  | none => rw [List.filterMap_cons_none hc]; rfl
  | some x => rw [List.filterMap_cons_some hc, List.filterMap_nil, Aggregate.fold_singleton he]

theorem Slot.yields_firstWave {s : Slot} (he : s.function.Exact) (v : Tuple) :
    Yields (do return firstField (← s.function.initial [← s.project v])) (s.reads v) (s.result [v]) := by
  rw [s.result_singleton he]
  unfold Slot.reads Slot.cell
  cases s.project v with
  | error e => rfl
  | ok t => exact (s.function.yields_initial t).map firstField

/-- **The initial stage sums up every row by itself.** -/
theorem yields_runInitial {slots : List Slot} (he : ∀ s ∈ slots, s.function.Exact) : ∀ rows : List Row,
    Yields (runInitial slots rows).2 (readable slots rows) (rows.map (fun r => (r.1, summary slots [r.2])))
  | [] => rfl
  | (k, v) :: rows => by
    have hrow := Yields.mapM fun s hs => Slot.yields_firstWave (he s hs) v
    have hcons : (runInitial slots ((k, v) :: rows)).2 =
        slots.mapM (fun s => do return firstField (← s.function.initial [← s.project v])) >>= fun fs =>
          (runInitial slots rows).2.map ((k, ⟨fs⟩) :: ·) := by
      rw [runInitial]
      simp only
      split <;> rename_i h <;> rw [h] <;> rfl
    rw [hcons]
    exact hrow.bind ((yields_runInitial he rows).map _)

end MapReduce
