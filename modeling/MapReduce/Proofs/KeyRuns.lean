/-
# A task works key by key

A grouped task goes over sorted rows and gives a row at the end of each run of
equal keys. What it gives for a key depends on the values of that key alone: a
call that ends a key leaves its lane as it was before the first row
(`Lane.finish_fed`), whatever function it calls and however long its chunks are.
So a run succeeds exactly if the calls succeed on the values of every key by
themselves, and its rows are theirs (`toOption_runGrouped`). The chunks of a key
start anew with it, so this holds to the last bit for sums of real numbers, whose
value depends on how they are cut.

The induction is over the rows inside the run of a key: the lanes have taken the
values of the key so far (`Fed`). A lane that fails on some of the values of a key
fails on all of them, which is the case that ends the induction early.

Key definitions: `Lane.feed`, `Slot.valueOn`, `keyRow?`, `Fed`.
Key theorems: `Lane.finish_fed`, `Fed.take`, `Fed.finish`, `toOption_runGrouped`.
-/
import MapReduce.Proofs.GroupedRun

namespace MapReduce

/-! ### One call on the values of one key -/

namespace Lane

/-- A call before any row. -/
def idle {ρ : Aggregate → Type} [Receiver ρ] (s : Slot ρ) : Lane ρ := ⟨s.cleared, []⟩

/-- The lane after values, one after the other. -/
def feed (mode : Mode) (l : Lane) (vs : List Tuple) : Except ExecError Lane :=
  vs.foldlM (fun l v => (l.take mode v).map Prod.fst) l

variable {mode : Mode} {s : Slot} {l l' : Lane} {v : Tuple} {vs ws : List Tuple}

theorem feed_append (mode : Mode) (l : Lane) (vs ws : List Tuple) :
    l.feed mode (vs ++ ws) = l.feed mode vs >>= fun l' => l'.feed mode ws :=
  List.foldlM_append

theorem feed_singleton (mode : Mode) (l : Lane) (v : Tuple) :
    l.feed mode [v] = (l.take mode v).map Prod.fst := by
  unfold feed
  rw [List.foldlM_cons]
  cases l.take mode v <;> rfl

/-- Handing on what is pending keeps the call. -/
theorem cleared_of_flush {b : Bag} (h : l.flush b = .ok l') : l'.slot.cleared = l.slot.cleared := by
  obtain ⟨a, _, hl⟩ := ok_of_bind h
  cases hl
  rfl

/-- Taking a value keeps the call, and its accumulator unless values go to it in
chunks. -/
theorem slot_of_take {n : Nat} {u : Unit} (h : l.take mode v = .ok (l', n, u)) :
    l'.slot.cleared = l.slot.cleared ∧ ((∀ c, mode ≠ .accumulate c) → l'.slot = l.slot) := by
  obtain ⟨t, _, ht⟩ := ok_of_bind h
  cases mode with
  | accumulate chunk =>
    refine ⟨?_, fun hm => absurd rfl (hm chunk)⟩
    simp only at ht
    split at ht
    · obtain ⟨l'', hflush, hl⟩ := ok_of_bind ht
      cases hl
      exact cleared_of_flush hflush
    · cases ht
      rfl
  | _ =>
    cases ht
    exact ⟨rfl, fun _ => rfl⟩

theorem slot_of_feed : ∀ {vs : List Tuple} {l : Lane}, l.feed mode vs = .ok l' →
    l'.slot.cleared = l.slot.cleared ∧ ((∀ c, mode ≠ .accumulate c) → l'.slot = l.slot)
  | [], l, h => by
    cases h
    exact ⟨rfl, fun _ => rfl⟩
  | v :: vs, l, h => by
    have hcons : l.feed mode (v :: vs) = (l.take mode v).map Prod.fst >>= fun l' => l'.feed mode vs :=
      List.foldlM_cons
    rw [hcons] at h
    obtain ⟨m, hmap, hfeed⟩ := ok_of_bind h
    obtain ⟨⟨_, n, u⟩, ht, rfl⟩ := ok_of_map hmap
    obtain ⟨hslot, hkept⟩ := slot_of_feed hfeed
    obtain ⟨hslot', hkept'⟩ := slot_of_take ht
    exact ⟨hslot.trans hslot', fun hm => (hkept hm).trans (hkept' hm)⟩

/-- **Ending a key leaves nothing behind**: the lane is as it was before the first
value. -/
theorem finish_fed {n : Nat} {a : Scalar} (hm : mode ≠ .initial) (hf : (idle s).feed mode vs = .ok l)
    (h : l.finish mode = .ok (l', n, a)) : l' = idle s := by
  obtain ⟨hcleared, hkept⟩ := slot_of_feed hf
  cases mode with
  | initial => exact absurd rfl hm
  | intermediate =>
    obtain ⟨t, _, hl⟩ := ok_of_bind h
    cases hl
    exact congrArg (Lane.mk · []) (hkept fun _ => nofun)
  | final =>
    obtain ⟨t, _, hl⟩ := ok_of_bind h
    cases hl
    exact congrArg (Lane.mk · []) (hkept fun _ => nofun)
  | accumulate chunk =>
    simp only [finish] at h
    split at h
    · cases h
      exact congrArg (Lane.mk · []) hcleared
    · obtain ⟨l'', hflush, hl⟩ := ok_of_bind h
      cases hl
      exact congrArg (Lane.mk · []) ((cleared_of_flush hflush).trans hcleared)

end Lane

/-- The value of a call on the values of one key. -/
def Slot.valueOn (mode : Mode) (s : Slot) (vs : List Tuple) : Except ExecError Scalar :=
  (Lane.idle s).feed mode vs >>= fun l => (l.finish mode).map fun r => r.2.2

/-- The row that calls give for the values of one key, if all of them succeed. -/
def keyRow? (mode : Mode) (slots : List Slot) (g : Tuple × List Tuple) : Option Row :=
  (slots.mapM fun s : Slot => (s.valueOn mode g.2).toOption).map fun fields => (g.1, ⟨fields⟩)

/-! ### All calls together -/

/-- Each lane is its call's, and has taken the values. -/
def Fed (mode : Mode) (slots : List Slot) (vs : List Tuple) (lanes : List Lane) : Prop :=
  List.Forall₂ (fun s l => (Lane.idle s).feed mode vs = .ok l) slots lanes

section

variable {mode : Mode} {slots : List Slot} {vs : List Tuple} {lanes : List Lane}

theorem fed_idle (mode : Mode) (slots : List Slot) : Fed mode slots [] (slots.map Lane.idle) :=
  List.forall₂_map_right_iff.mpr (List.forall₂_same.mpr fun _ _ => rfl)

/-- A pass over lanes in which they take a value: it succeeds, or a call fails on
what it has taken then. -/
theorem Fed.take (h : Fed mode slots vs lanes) (v : Tuple) :
    ((∃ us, (sweep (Lane.take mode v) lanes).result = .ok us) ∧
        Fed mode slots (vs ++ [v]) (sweep (Lane.take mode v) lanes).lanes) ∨
      ((∃ e, (sweep (Lane.take mode v) lanes).result = .error e) ∧
        ∃ s ∈ slots, ∃ e, (Lane.idle s).feed mode (vs ++ [v]) = .error e) := by
  induction h with
  | nil => exact .inl ⟨⟨[], rfl⟩, .nil⟩
  | @cons s l slots lanes hl hrest ih =>
    have hfeed : (Lane.idle s).feed mode (vs ++ [v]) = (l.take mode v).map Prod.fst := by
      rw [Lane.feed_append, hl]
      exact Lane.feed_singleton mode l v
    cases ht : l.take mode v with
    | error e =>
      rw [ht] at hfeed
      refine .inr ⟨⟨e, by simp only [sweep, ht]⟩, s, List.mem_cons_self, e, hfeed⟩
    | ok r =>
      obtain ⟨l', n, u⟩ := r
      rw [ht] at hfeed
      simp only [sweep, ht]
      rcases ih with ⟨⟨us, hus⟩, hfed⟩ | ⟨⟨e, he⟩, s', hs', hfail⟩
      · exact .inl ⟨⟨u :: us, by rw [hus]; rfl⟩, .cons hfeed hfed⟩
      · exact .inr ⟨⟨e, by rw [he]; rfl⟩, s', List.mem_cons_of_mem s hs', hfail⟩

/-- A pass over lanes that ends the key: the values of the calls, and lanes as
before the first row. -/
theorem Fed.sweep_finish (hm : mode ≠ .initial) (h : Fed mode slots vs lanes) :
    (sweep (Lane.finish mode) lanes).result.toOption =
        (slots.mapM fun s : Slot => (s.valueOn mode vs).toOption) ∧
      ((∃ as, (sweep (Lane.finish mode) lanes).result = .ok as) →
        (sweep (Lane.finish mode) lanes).lanes = slots.map Lane.idle) := by
  induction h with
  | nil => exact ⟨rfl, fun _ => rfl⟩
  | @cons s l slots lanes hl hrest ih =>
    have hvalue : s.valueOn mode vs = (l.finish mode).map fun r => r.2.2 := by
      rw [Slot.valueOn, hl]
      rfl
    rw [List.mapM_cons, hvalue]
    cases hf : l.finish mode with
    | error e =>
      simp only [sweep, hf]
      refine ⟨rfl, ?_⟩
      rintro ⟨as, has⟩
      cases has
    | ok r =>
      obtain ⟨l', n, a⟩ := r
      simp only [sweep, hf]
      constructor
      · cases hr : (sweep (Lane.finish mode) lanes).result with
        | error e =>
          rw [hr] at ih
          rw [← ih.1]
          rfl
        | ok as =>
          rw [hr] at ih
          rw [← ih.1]
          rfl
      · rintro ⟨as, has⟩
        obtain ⟨as', has', _⟩ := ok_of_map has
        rw [ih.2 ⟨as', has'⟩, Lane.finish_fed hm hl hf]
        rfl

/-- **The end of a key** gives the row of its values, and starts anew. -/
theorem Fed.finishKey (hm : mode ≠ .initial) (h : Fed mode slots vs lanes) (key : Tuple) :
    (∃ row, keyRow? mode slots (key, vs) = some row ∧ (finishKey mode lanes key).result = .ok [row] ∧
        Fed mode slots [] (finishKey mode lanes key).lanes) ∨
      (keyRow? mode slots (key, vs) = none ∧ ∃ e, (finishKey mode lanes key).result = .error e) := by
  obtain ⟨hvalues, hlanes⟩ := h.sweep_finish hm
  have hresult : (MapReduce.finishKey mode lanes key).result =
      (sweep (Lane.finish mode) lanes).result.map fun fields => [(key, ⟨fields⟩)] := rfl
  rw [keyRow?, ← hvalues, hresult]
  cases hr : (sweep (Lane.finish mode) lanes).result with
  | error e => exact .inr ⟨rfl, e, rfl⟩
  | ok fields =>
    have hidle : (MapReduce.finishKey mode lanes key).lanes = slots.map Lane.idle := hlanes ⟨fields, hr⟩
    exact .inl ⟨(key, ⟨fields⟩), rfl, rfl, hidle ▸ fed_idle mode slots⟩

/-! ### Runs of equal keys -/

theorem keyRow?_of_error {s : Slot} (hs : s ∈ slots) {held : List Tuple} {e : ExecError}
    (h : (Lane.idle s).feed mode held = .error e) (key : Tuple) : keyRow? mode slots (key, held) = none := by
  have hnone : (s.valueOn mode held).toOption.isSome = false := by
    rw [Slot.valueOn, h]
    rfl
  have hall : (slots.all fun s : Slot => (s.valueOn mode held).toOption.isSome) = false :=
    List.all_eq_false.mpr ⟨s, hs, by rw [hnone]; decide⟩
  rw [keyRow?, mapM_option, hall]
  rfl

/-- A call that fails on some values of a key fails on all of them. -/
theorem mapM_runsFrom_of_error {s : Slot} (hs : s ∈ slots) : ∀ (rows : List Row) (key : Tuple)
    {held : List Tuple} {e : ExecError}, (Lane.idle s).feed mode held = .error e →
    (runsFrom key held rows).mapM (keyRow? mode slots) = none
  | [], key, held, e, h => by
    rw [runsFrom, List.mapM_cons, keyRow?_of_error hs h]
    rfl
  | (k, v) :: rows, key, held, e, h => by
    rw [runsFrom]
    by_cases hk : key.sameKey k = true
    · have hmore : (Lane.idle s).feed mode (held ++ [v]) = .error e := by
        rw [Lane.feed_append, h]
        rfl
      rw [if_pos hk]
      exact mapM_runsFrom_of_error hs rows key hmore
    · rw [if_neg hk, List.mapM_cons, keyRow?_of_error hs h]
      rfl

/-- What follows after a row is taken inside the run of its key. -/
theorem Fed.toOption_taken (h : Fed mode slots vs lanes) (v key : Tuple) (rows done : List Row)
    (hrest : ∀ lanes', Fed mode slots (vs ++ [v]) lanes' →
      (runGrouped mode lanes' (some key) rows).result.toOption =
        (runsFrom key (vs ++ [v]) rows).mapM (keyRow? mode slots)) :
    ((sweep (Lane.take mode v) lanes).result >>= fun _ =>
        (runGrouped mode (sweep (Lane.take mode v) lanes).lanes (some key) rows).result.map
          (done ++ ·)).toOption =
      ((runsFrom key (vs ++ [v]) rows).mapM (keyRow? mode slots)).map (done ++ ·) := by
  rcases h.take v with ⟨⟨us, hus⟩, hfed⟩ | ⟨⟨e, he⟩, s, hs, e', hfail⟩
  · rw [hus, ← hrest _ hfed]
    cases (runGrouped mode (sweep (Lane.take mode v) lanes).lanes (some key) rows).result <;> rfl
  · rw [he, mapM_runsFrom_of_error hs rows key hfail]
    rfl

variable (hm : mode ≠ .initial)
include hm

/-- A run inside a key whose values so far are `vs`. -/
theorem toOption_runGrouped_some : ∀ (rows : List Row) (lanes : List Lane) (key : Tuple) (vs : List Tuple),
    Fed mode slots vs lanes → KeysSorted (key :: rows.map Prod.fst) →
    (runGrouped mode lanes (some key) rows).result.toOption =
      (runsFrom key vs rows).mapM (keyRow? mode slots)
  | [], lanes, key, vs, h, _ => by
    have hend : (runGrouped mode lanes (some key) []).result = (finishKey mode lanes key).result := rfl
    rw [hend, runsFrom, List.mapM_cons]
    rcases h.finishKey hm key with ⟨row, hrow, hresult, _⟩ | ⟨hrow, e, he⟩
    · rw [hrow, hresult]
      rfl
    · rw [hrow, he]
      rfl
  | (k, v) :: rows, lanes, key, vs, h, hsorted => by
    obtain ⟨hkey, hrest⟩ := List.pairwise_cons.mp hsorted
    rw [runsFrom]
    by_cases hk : key.sameKey k = true
    · have hsorted' : KeysSorted (key :: rows.map Prod.fst) :=
        List.pairwise_cons.mpr ⟨fun x hx => hkey x (List.mem_cons_of_mem _ hx), hrest.of_cons⟩
      rw [runGrouped_cons (meetKey_same hk) rfl, if_pos hk, h.toOption_taken v key rows []
        fun lanes' h' => toOption_runGrouped_some rows lanes' key (vs ++ [v]) h' hsorted']
      exact Option.map_id'
    · have hmeet : meetKey mode lanes (some key) k = (k, finishKey mode lanes key) :=
        meetKey_next (hkey k List.mem_cons_self) hk
      rw [if_neg hk, List.mapM_cons]
      rcases h.finishKey hm key with ⟨row, hrow, hdone, hidle⟩ | ⟨hrow, e, he⟩
      · rw [runGrouped_cons hmeet hdone, hrow, hidle.toOption_taken v k rows [row]
          fun lanes' h' => toOption_runGrouped_some rows lanes' k [v] h' hrest, List.nil_append]
        cases (runsFrom k [v] rows).mapM (keyRow? mode slots) <;> rfl
      · rw [runGrouped, hmeet, hrow]
        simp only [he]
        rfl

/-- **A task gives every key the row of its own values.** On sorted rows it
succeeds exactly if its calls succeed on the values of each key by themselves. -/
theorem toOption_runGrouped {rows : List Row} (hsorted : KeysSorted (rows.map Prod.fst)) :
    (runGrouped mode (slots.map Lane.idle) none rows).result.toOption =
      (gather rows).entries.mapM (keyRow? mode slots) := by
  rw [entries_gather hsorted]
  cases rows with
  | nil => rfl
  | cons row rows =>
    obtain ⟨k, v⟩ := row
    have hmeet : meetKey mode (slots.map Lane.idle) none k =
        (k, ⟨slots.map Lane.idle, 0, 0, .ok []⟩) := rfl
    rw [runGrouped_cons hmeet rfl, (fed_idle mode slots).toOption_taken v k rows []
      fun lanes' h' => toOption_runGrouped_some hm rows lanes' k [v] h' hsorted]
    exact Option.map_id'

end

/-- A task that is not of the initial stage runs its lanes over the rows. -/
theorem Task.run_eq_runGrouped {ρ : Aggregate → Type} [Receiver ρ] {t : Task ρ} (hm : t.mode ≠ .initial) (rows : List Row) :
    (t.run rows).1 = (runGrouped t.mode (t.slots.map Lane.idle) none rows).result := by
  simp only [Task.run, if_neg hm, List.map_map]
  rfl

end MapReduce
