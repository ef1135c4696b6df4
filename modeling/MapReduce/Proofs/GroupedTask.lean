/-
# A grouped task is a group-by

A task of any stage but the first goes over its rows once. It succeeds exactly if
the keys never go back and every call finds, in every row, a value that it takes;
its rows are then the group-by of its input (`IsGroupBy`), which is said by the
rows alone: one row for each key, in order, under the first of the keys that
compare equal, with the value of each call on the key's own column.

That a run which succeeds has seen sorted keys (`keysSorted_of_runGrouped`) needs
nothing of the calls. If they can read all rows, a run does not fail before the
first key that goes back, and fails there (`sorted_or_goesBack`).

Key definitions: `Numeric.accepts`, `Aggregate.Takes`, `columnOf?`, `IsGroupBy`,
`GoesBack`.
Key theorems: `Slot.finalValue_column`, `keysSorted_of_runGrouped`,
`sorted_or_goesBack`, `Task.run_isGroupBy`.
-/
import MapReduce.Proofs.KeyRuns
import MapReduce.Proofs.Waves

namespace MapReduce

/-! ### What a call takes -/

/-- The types whose values a kind of numbers takes: its own, and a narrower one. -/
def Numeric.accepts : Numeric → DataType → Bool
  | .int, .int32 => true
  | .long, .int32 => true
  | .long, .int64 => true
  | .float, .float32 => true
  | .double, .float32 => true
  | .double, .float64 => true
  | _, _ => false

/-- The row has the column, with null or a value of a type that the function
takes. -/
def Aggregate.Takes (f : Aggregate) (column : Nat) (v : Tuple) : Prop :=
  ∃ x, v.fields[column]? = some x ∧ (x = .null ∨ f.numeric.accepts x.dataType = true)

/-- The bag of a column, if every row has it. -/
def columnOf? (column : Nat) (vs : List Tuple) : Option Bag :=
  vs.mapM fun v => v.fields[column]?.map fun x => ⟨[x]⟩

theorem Numeric.isSome_ofScalar? (n : Numeric) (x : Scalar) :
    (n.ofScalar? x).isSome = n.accepts x.dataType := by
  cases n <;> cases x <;> rfl

theorem Aggregate.reads_single (f : Aggregate) (x : Scalar) :
    f.reads ⟨[x]⟩ = true ↔ x = .null ∨ f.numeric.accepts x.dataType = true := by
  by_cases hx : x = .null
  · subst hx
    exact ⟨fun _ => .inl rfl, fun _ => rfl⟩
  · rw [reads, entry_of_field (t := ⟨[x]⟩) rfl hx, ← f.numeric.isSome_ofScalar?]
    cases f.numeric.ofScalar? x <;> simp [hx, Except.isOk, Except.toBool]

namespace Slot

variable {s : Slot} {v : Tuple} {vs : List Tuple}

theorem toOption_project {ρ : Aggregate → Type} (s : Slot ρ) (v : Tuple) :
    (s.project v).toOption = v.fields[s.column]?.map fun x => ⟨[x]⟩ := by
  unfold project Tuple.field
  cases v.fields[s.column]? <;> rfl

theorem reads_iff : s.reads v = true ↔ s.function.Takes s.column v := by
  have hproject := s.toOption_project v
  unfold reads Aggregate.Takes
  cases hx : v.fields[s.column]? with
  | none =>
    rw [hx] at hproject
    cases hp : s.project v with
    | error e => simp
    | ok t => rw [hp] at hproject; cases hproject
  | some x =>
    rw [hx] at hproject
    cases hp : s.project v with
    | error e => rw [hp] at hproject; cases hproject
    | ok t =>
      rw [hp] at hproject
      cases hproject
      simp [s.function.reads_single x]

/-- The bag of a column holds what the call reads. -/
theorem exists_column : ∀ {vs : List Tuple}, (∀ v ∈ vs, s.reads v = true) →
    ∃ bag, columnOf? s.column vs = some bag ∧ bag.all s.function.reads = true ∧
      bag.filterMap s.function.number = vs.filterMap s.cell
  | [], _ => ⟨[], rfl, rfl, rfl⟩
  | v :: vs, h => by
    obtain ⟨t, hproject, hreads, hcell⟩ := project_of_reads (h v List.mem_cons_self)
    obtain ⟨bag, hbag, hall, hnumbers⟩ := exists_column fun w hw => h w (List.mem_cons_of_mem v hw)
    have hfield : v.fields[s.column]?.map (fun x => (⟨[x]⟩ : Tuple)) = some t := by
      rw [← s.toOption_project v, hproject]
      rfl
    refine ⟨t :: bag, ?_, ?_, ?_⟩
    · rw [columnOf?] at hbag
      rw [columnOf?, List.mapM_cons, hfield, hbag]
      rfl
    · rw [List.all_cons, hreads, hall]
      rfl
    · simp only [List.filterMap_cons, hcell, hnumbers]

/-- **The value of a call is that of its function on its column.** -/
theorem finalValue_column (h : ∀ v ∈ vs, s.reads v = true) :
    ∃ bag, columnOf? s.column vs = some bag ∧ s.function.finalValue bag = .ok (s.result vs) := by
  obtain ⟨bag, hbag, hall, hnumbers⟩ := exists_column h
  have hyields := s.function.yields_finalValue bag
  rw [hall, hnumbers] at hyields
  exact ⟨bag, hbag, hyields.eq_ok⟩

end Slot

/-! ### Calls and slots -/

namespace Registry

variable {r : Registry}

/-- The slots of known calls, one by one. -/
theorem forall₂_slots {P : AggCall → Slot → Prop} : ∀ {calls : List AggCall},
    (∀ c ∈ calls, ∃ f, r.find? c.function = some f ∧ P c ⟨c.column.toNat, f, .fresh⟩) →
    List.Forall₂ P calls (r.slots calls)
  | [], _ => .nil
  | c :: calls, h => by
    obtain ⟨f, hf, hp⟩ := h c List.mem_cons_self
    have hrest := forall₂_slots fun c' hc' => h c' (List.mem_cons_of_mem c hc')
    rw [slots, List.filterMap_cons_some (by rw [hf]; rfl)]
    exact .cons hp hrest

theorem readable_slots_iff {calls : List AggCall} {rows : List Row} :
    readable (r.slots calls) rows = true ↔ ∀ row ∈ rows, ∀ c ∈ calls, ∀ f,
      r.find? c.function = some f → f.Takes c.column.toNat row.2 := by
  simp only [readable, List.all_eq_true, Slot.reads_iff]
  constructor
  · intro h row hrow c hc f hf
    exact h row hrow ⟨c.column.toNat, f, .fresh⟩ (List.mem_filterMap.mpr ⟨c, hc, by rw [hf]; rfl⟩)
  · intro h row hrow s hs
    obtain ⟨c, hc, hslot⟩ := List.mem_filterMap.mp hs
    obtain ⟨f, hf, rfl⟩ := Option.map_eq_some_iff.mp hslot
    exact h row hrow c hc f hf

theorem callable_of_known {calls : List AggCall} (hne : calls ≠ [])
    (h : ∀ c ∈ calls, ∃ f, r.find? c.function = some f) : r.callable calls = true := by
  obtain ⟨c, rest, rfl⟩ := List.exists_cons_of_ne_nil hne
  refine Bool.and_eq_true_iff.mpr ⟨rfl, List.all_eq_true.mpr fun name hname => ?_⟩
  obtain ⟨c', hc', rfl⟩ := List.mem_map.mp hname
  obtain ⟨f, hf⟩ := h c' hc'
  rw [hf]
  rfl

end Registry

/-! ### The group-by of rows -/

/-- The rows are the group-by of the input, for calls of known functions. -/
structure IsGroupBy (r : Registry) (calls : List AggCall) (rows out : List Row) : Prop where
  /-- Every key has one row, and they are in order. -/
  increasing : out.Pairwise fun a b => a.1.compare b.1 = .lt
  /-- No key is left out. -/
  complete : ∀ row ∈ rows, ∃ o ∈ out, o.1.sameKey row.1 = true
  /-- The key is the first of those that compare equal. -/
  first : ∀ o ∈ out, (rowsWith o.1 rows).head?.map Prod.fst = some o.1
  /-- A field is the value of its call on the column of the key's rows. -/
  value : ∀ o ∈ out, List.Forall₂
    (fun c x => ∃ f bag, r.find? c.function = some f ∧
      columnOf? c.column.toNat ((rowsWith o.1 rows).map Prod.snd) = some bag ∧ f.finalValue bag = .ok x)
    calls o.2.fields

theorem rowsWith_of_mem_gather {α : Type} {rows : List (Tuple × α)} {g : Tuple × List α}
    (h : g ∈ (gather rows).entries) :
    (rowsWith g.1 rows).head?.map Prod.fst = some g.1 ∧ (rowsWith g.1 rows).map Prod.snd = g.2 := by
  have hitem := (gather rows).item?_of_mem h
  rw [item?_gather] at hitem
  cases hrows : rowsWith g.1 rows with
  | nil => rw [hrows] at hitem; cases hitem
  | cons r rest =>
    rw [hrows, itemOf, Option.some.injEq] at hitem
    rw [← hitem]
    exact ⟨rfl, rfl⟩

theorem exists_mem_gather {α : Type} {rows : List (Tuple × α)} {row : Tuple × α} (h : row ∈ rows) :
    ∃ g ∈ (gather rows).entries, g.1.sameKey row.1 = true := by
  have hmem : row ∈ rowsWith row.1 rows :=
    List.mem_filter.mpr ⟨h, Tuple.sameKey_iff.mpr Std.ReflCmp.compare_self⟩
  obtain ⟨g, hg⟩ : ∃ g, (gather rows).item? row.1 = some g := by
    rw [item?_gather]
    cases hrows : rowsWith row.1 rows with
    | nil => rw [hrows] at hmem; cases hmem
    | cons r rest => exact ⟨_, rfl⟩
  obtain ⟨hentry, hkey⟩ := (gather rows).item?_eq_some_iff.mp hg
  exact ⟨g, hentry, Tuple.sameKey_iff.mpr (Std.OrientedCmp.eq_symm hkey)⟩

/-- **The rows of a task that can read its input are its group-by.** -/
theorem isGroupBy_groupBy {r : Registry} {calls : List AggCall} {rows : List Row}
    (hknown : ∀ c ∈ calls, ∃ f, r.find? c.function = some f)
    (hread : readable (r.slots calls) rows = true) :
    IsGroupBy r calls rows (groupBy (r.slots calls) rows) where
  increasing := List.pairwise_map.mpr ((gather rows).sorted.imp id)
  complete := fun row hrow => by
    obtain ⟨g, hg, hkey⟩ := exists_mem_gather hrow
    exact ⟨_, List.mem_map_of_mem hg, hkey⟩
  first := fun o ho => by
    obtain ⟨g, hg, rfl⟩ := List.mem_map.mp ho
    exact (rowsWith_of_mem_gather hg).1
  value := fun o ho => by
    obtain ⟨g, hg, rfl⟩ := List.mem_map.mp ho
    refine List.forall₂_map_right_iff.mpr (Registry.forall₂_slots fun c hc => ?_)
    obtain ⟨f, hf⟩ := hknown c hc
    have hcell : ∀ v ∈ g.2, (⟨c.column.toNat, f, .fresh⟩ : Slot).reads v = true := by
      intro v hv
      rw [← (rowsWith_of_mem_gather hg).2] at hv
      obtain ⟨row, hrow, rfl⟩ := List.mem_map.mp hv
      exact Slot.reads_iff.mpr
        (Registry.readable_slots_iff.mp hread row (List.mem_filter.mp hrow).1 c hc f hf)
    obtain ⟨bag, hbag, hvalue⟩ := Slot.finalValue_column hcell
    rw [(rowsWith_of_mem_gather hg).2]
    exact ⟨f, hf, f, bag, hf, hbag, hvalue⟩

/-! ### Keys that go back -/

/-- `k` is the first key that comes after a greater one, which is `p`. -/
def GoesBack (keys : List Tuple) (k p : Tuple) : Prop :=
  ∃ earlier later, keys = earlier ++ k :: later ∧ KeysSorted earlier ∧ p ∈ earlier ∧ k.before p = true

section

variable {a b k p : Tuple} {l : List Tuple}

theorem KeysSorted.cons_of_le (hle : (a.compare b).isLE = true) (h : KeysSorted (b :: l)) :
    KeysSorted (a :: b :: l) := by
  refine List.pairwise_cons.mpr ⟨fun x hx => ?_, h⟩
  rcases List.mem_cons.mp hx with rfl | hx
  · exact hle
  · exact Std.TransCmp.isLE_trans hle ((List.pairwise_cons.mp h).1 x hx)

theorem KeysSorted.congr_head (heq : a.compare b = .eq) (h : KeysSorted (a :: l)) : KeysSorted (b :: l) := by
  obtain ⟨hhead, htail⟩ := List.pairwise_cons.mp h
  refine List.pairwise_cons.mpr ⟨fun x hx => ?_, htail⟩
  rw [← Std.TransCmp.congr_left heq]
  exact hhead x hx

/-- A key that goes back does so with an equal key put in after the first one. -/
theorem GoesBack.insert_equal (heq : a.compare b = .eq) (h : GoesBack (a :: l) k p) :
    GoesBack (a :: b :: l) k p := by
  obtain ⟨earlier, later, hl, hsorted, hp, hback⟩ := h
  cases earlier with
  | nil => cases hp
  | cons x earlier =>
    cases hl
    refine ⟨a :: b :: earlier, later, rfl, (hsorted.congr_head heq).cons_of_le (Ordering.isLE_of_eq_eq heq), ?_, hback⟩
    rcases List.mem_cons.mp hp with rfl | hp
    · exact List.mem_cons_self
    · exact List.mem_cons_of_mem _ (List.mem_cons_of_mem _ hp)

theorem GoesBack.cons_of_le (hle : (a.compare b).isLE = true) (h : GoesBack (b :: l) k p) :
    GoesBack (a :: b :: l) k p := by
  obtain ⟨earlier, later, hl, hsorted, hp, hback⟩ := h
  cases earlier with
  | nil => cases hp
  | cons x earlier =>
    cases hl
    exact ⟨a :: b :: earlier, later, rfl, hsorted.cons_of_le hle, List.mem_cons_of_mem _ hp, hback⟩

end

/-! ### Runs and the order of their keys -/

section

variable {ρ : Aggregate → Type} [Receiver ρ] {mode : Mode} {lanes : List (Lane ρ)} {key k v : Tuple}
  {rows out : List Row}

theorem not_sameKey_of_ne (h : key.compare k ≠ .eq) : ¬ key.sameKey k = true := fun hsame =>
  h (Tuple.sameKey_iff.mp hsame)

theorem before_of_gt (h : key.compare k = .gt) : k.before key = true :=
  beq_iff_eq.mpr (Std.OrientedCmp.lt_of_gt h)

/-- A greater key ends the key before it. -/
theorem meetKey_of_lt (mode : Mode) (lanes : List (Lane ρ)) (h : key.compare k = .lt) :
    meetKey mode lanes (some key) k = (k, finishKey mode lanes key) :=
  meetKey_next (Ordering.isLE_of_eq_lt h) (not_sameKey_of_ne (by rw [h]; decide))

/-- A run fails on a key that goes back. -/
theorem runGrouped_of_gt (mode : Mode) (lanes : List (Lane ρ)) (h : key.compare k = .gt) (v : Tuple)
    (rows : List Row) :
    (runGrouped mode lanes (some key) ((k, v) :: rows)).result = .error (unsorted k key) := by
  have hne : ¬ key.sameKey k = true := not_sameKey_of_ne (by rw [h]; decide)
  have hmeet : meetKey mode lanes (some key) k = (key, ⟨lanes, 0, 0, .error (unsorted k key)⟩) := by
    simp only [meetKey, if_neg hne, if_pos (before_of_gt h)]
  rw [runGrouped, hmeet]

/-- A run that succeeds has ended the key before, if there is a new one, has taken the
row, and went on. -/
theorem ok_of_runGrouped_cons {current : Option Tuple}
    (h : (runGrouped mode lanes current ((k, v) :: rows)).result = .ok out) :
    let met := meetKey mode lanes current k
    let taken := sweep (Lane.take mode v) met.2.lanes
    let rest := runGrouped mode taken.lanes (some met.1) rows
    ∃ done units out', met.2.result = .ok done ∧ taken.result = .ok units ∧ rest.result = .ok out' ∧
      runGrouped mode lanes current ((k, v) :: rows) =
        ⟨rest.lanes, 1 + rest.rowsIn, met.2.chunks + taken.chunks + rest.chunks, .ok (done ++ out')⟩ := by
  rw [runGrouped] at h ⊢
  generalize meetKey mode lanes current k = met at h ⊢
  cases hdone : met.2.result with
  | error e =>
    simp only [hdone] at h
    cases h
  | ok done =>
    cases hunits : (sweep (Lane.take mode v) met.2.lanes).result with
    | error e =>
      simp only [hdone, hunits] at h
      cases h
    | ok units =>
      simp only [hdone, hunits] at h ⊢
      obtain ⟨out', hrest, _⟩ := ok_of_map h
      refine ⟨done, units, out', rfl, rfl, hrest, ?_⟩
      rw [hrest]
      rfl

/-- **A run that succeeds has seen sorted keys**, whatever its calls are. -/
theorem keysSorted_of_runGrouped_some : ∀ (rows : List Row) (lanes : List (Lane ρ)) (key : Tuple)
    (out : List Row), (runGrouped mode lanes (some key) rows).result = .ok out →
    KeysSorted (key :: rows.map Prod.fst)
  | [], _, key, _, _ => List.pairwise_singleton _ key
  | (k, v) :: rows, lanes, key, out, h => by
    cases hc : key.compare k with
    | eq =>
      obtain ⟨_, _, out', _, _, hrest, _⟩ := ok_of_runGrouped_cons h
      rw [meetKey_same (Tuple.sameKey_iff.mpr hc)] at hrest
      have hsorted := keysSorted_of_runGrouped_some rows _ key out' hrest
      exact (hsorted.congr_head hc).cons_of_le (Ordering.isLE_of_eq_eq hc)
    | gt =>
      rw [runGrouped_of_gt mode lanes hc] at h
      cases h
    | lt =>
      obtain ⟨_, _, out', _, _, hrest, _⟩ := ok_of_runGrouped_cons h
      rw [meetKey_of_lt mode lanes hc] at hrest
      exact (keysSorted_of_runGrouped_some rows _ k out' hrest).cons_of_le (Ordering.isLE_of_eq_lt hc)

theorem keysSorted_of_runGrouped (h : (runGrouped mode lanes none rows).result = .ok out) :
    KeysSorted (rows.map Prod.fst) := by
  cases rows with
  | nil => exact .nil
  | cons row rows =>
    obtain ⟨_, _, out', _, _, hrest, _⟩ := ok_of_runGrouped_cons h
    exact keysSorted_of_runGrouped_some rows _ row.1 out' hrest

end

section

variable {mode : Mode} {lanes : List Lane} {key k v : Tuple} {rows out : List Row} {slots : List Slot}
  (hm : mode ≠ .initial) (he : ∀ s ∈ slots, s.function.Exact)

include he in
/-- A row that can be read is taken, and the run fails as its rest does. -/
theorem error_of_rest {current : Option Tuple} {key' : Tuple} {met : Report} {done : List Row}
    {vs : List Tuple} {e : ExecError} (hmeet : meetKey mode lanes current k = (key', met))
    (hdone : met.result = .ok done)
    (hlanes : List.Forall₂ (fun s l => l.Holds mode s vs) slots met.lanes)
    (hv : ∀ s ∈ slots, s.reads v = true)
    (hrest : ∀ lanes', List.Forall₂ (fun s l => l.Holds mode s (vs ++ [v])) slots lanes' →
      (runGrouped mode lanes' (some key') rows).result = .error e) :
    (runGrouped mode lanes current ((k, v) :: rows)).result = .error e := by
  obtain ⟨hresult, htaken⟩ := sweep_ok (f := Lane.take mode v) (g := fun _ => ())
    (fun s hs l hl => hl.take (he s hs) (hv s hs)) hlanes
  rw [runGrouped_cons hmeet hdone, hresult, hrest _ htaken]
  rfl

theorem readable_cons {row : Row} : readable slots (row :: rows) = true ↔
    (∀ s ∈ slots, s.reads row.2 = true) ∧ readable slots rows = true := by
  simp only [readable, List.all_cons, Bool.and_eq_true, List.all_eq_true]

include hm he

/-- A run inside a key, on rows that the calls can read: the keys are sorted, or it
fails on the first that goes back. -/
theorem sorted_or_goesBack_some : ∀ (rows : List Row) (key : Tuple) (vs : List Tuple),
    readable slots rows = true →
    KeysSorted (key :: rows.map Prod.fst) ∨ ∃ k p, GoesBack (key :: rows.map Prod.fst) k p ∧
      ∀ lanes, List.Forall₂ (fun s l => l.Holds mode s vs) slots lanes →
        (runGrouped mode lanes (some key) rows).result = .error (unsorted k p)
  | [], key, _, _ => .inl (List.pairwise_singleton _ key)
  | (k, v) :: rows, key, vs, hread => by
    obtain ⟨hv, hrows⟩ := readable_cons.mp hread
    cases hc : key.compare k with
    | eq =>
      rcases sorted_or_goesBack_some rows key (vs ++ [v]) hrows with hsorted | ⟨k', p, hback, hrun⟩
      · exact .inl ((hsorted.congr_head hc).cons_of_le (Ordering.isLE_of_eq_eq hc))
      · exact .inr ⟨k', p, hback.insert_equal hc, fun lanes hlanes =>
          error_of_rest he (meetKey_same (Tuple.sameKey_iff.mpr hc)) rfl hlanes hv hrun⟩
    | gt =>
      exact .inr ⟨k, key, ⟨[key], rows.map Prod.fst, rfl, List.pairwise_singleton _ key,
        List.mem_singleton_self key, before_of_gt hc⟩, fun lanes _ => runGrouped_of_gt mode lanes hc v rows⟩
    | lt =>
      have hle : (key.compare k).isLE = true := Ordering.isLE_of_eq_lt hc
      rcases sorted_or_goesBack_some rows k [v] hrows with hsorted | ⟨k', p, hback, hrun⟩
      · exact .inl (hsorted.cons_of_le hle)
      · refine .inr ⟨k', p, hback.cons_of_le hle, fun lanes hlanes => ?_⟩
        -- the key before ends well, since its rows could be read
        obtain ⟨hdone, hidle⟩ := finishKey_holds hm he hlanes key
        exact error_of_rest he (meetKey_of_lt mode lanes hc) hdone hidle hv hrun

/-- **On rows that the calls can read, a run fails on the first key that goes
back**, and the keys are sorted if there is none. -/
theorem sorted_or_goesBack (hread : readable slots rows = true) :
    KeysSorted (rows.map Prod.fst) ∨ ∃ k p, GoesBack (rows.map Prod.fst) k p ∧
      (runGrouped mode (slots.map Lane.idle) none rows).result = .error (unsorted k p) := by
  cases rows with
  | nil => exact .inl .nil
  | cons row rows =>
    obtain ⟨k, v⟩ := row
    obtain ⟨hv, hrows⟩ := readable_cons.mp hread
    have hidle : List.Forall₂ (fun s l => l.Holds mode s []) slots (slots.map Lane.idle) :=
      List.forall₂_map_right_iff.mpr (List.forall₂_same.mpr fun s _ => Lane.holds_cleared mode s)
    rcases sorted_or_goesBack_some hm he rows k [v] hrows with hsorted | ⟨k', p, hback, hrun⟩
    · exact .inl hsorted
    · exact .inr ⟨k', p, hback, error_of_rest he rfl rfl hidle hv hrun⟩

end

/-! ### Tasks -/

/-- **A grouped task computes a group-by.** Take calls of one stage but the initial
one, of greatest and least values and of integer sums, over any columns. A task is
made for them, whatever the chunk length. It succeeds exactly if the keys of its
rows are in order and every row has every column that is called, with null or a
value of a type that the call takes; its rows are then the group-by of the input.
If only the order of the keys is at fault, the error says which key went back
first. -/
theorem Task.run_isGroupBy {r : Registry} {calls : List AggCall} {st : Stage} (hne : calls ≠ [])
    (hst : st ≠ .initial) (hstage : ∀ c ∈ calls, c.stage = st)
    (hknown : ∀ c ∈ calls, ∃ f, r.find? c.function = some f ∧ f.Exact) (chunk : Nat) :
    ∃ t, Task.create r calls chunk = .ok t ∧ ∀ rows : List Row,
      let fine := ∀ row ∈ rows, ∀ c ∈ calls, ∀ f, r.find? c.function = some f → f.Takes c.column.toNat row.2
      ((∃ out, (t.run rows).1 = .ok out) ↔ KeysSorted (rows.map Prod.fst) ∧ fine) ∧
      (∀ out, (t.run rows).1 = .ok out → IsGroupBy r calls rows out) ∧
      (fine → ¬ KeysSorted (rows.map Prod.fst) → ∃ e k p, (t.run rows).1 = .error e ∧ e.code = 2108 ∧
        e = unsorted k p ∧ GoesBack (rows.map Prod.fst) k p) := by
  have hfound : ∀ c ∈ calls, ∃ f, r.find? c.function = some f := fun c hc =>
    (hknown c hc).imp fun _ h => h.1
  have hexact : ∀ s ∈ r.slots calls, s.function.Exact := by
    refine exact_slots fun c hc f hf => ?_
    obtain ⟨g, hg, hexact⟩ := hknown c hc
    rw [hf] at hg
    cases hg
    exact hexact
  have hmode : Mode.ofStage chunk st ≠ .initial := by
    cases st with
    | initial => exact absurd rfl hst
    | _ => exact fun h => nomatch h
  have hcreate := yields_create (r := r) hstage chunk
  rw [Registry.callable_of_known hne hfound] at hcreate
  refine ⟨_, hcreate.eq_ok, fun rows => ?_⟩
  intro fine
  have hfine : readable (r.slots calls) rows = true ↔ fine := Registry.readable_slots_iff
  rw [Task.run_eq_runGrouped hmode]
  have hok : ∀ out, (runGrouped (Mode.ofStage chunk st) ((r.slots calls).map Lane.idle) none rows).result =
      .ok out → KeysSorted (rows.map Prod.fst) ∧ fine ∧ out = groupBy (r.slots calls) rows := by
    intro out hout
    have hsorted := keysSorted_of_runGrouped hout
    obtain ⟨hread, hgroup⟩ := (yields_runGrouped hmode hexact hsorted).eq_ok_iff.mp hout
    exact ⟨hsorted, hfine.mp hread, hgroup⟩
  refine ⟨⟨fun ⟨out, hout⟩ => ⟨(hok out hout).1, (hok out hout).2.1⟩, fun ⟨hsorted, hread⟩ => ?_⟩, ?_, ?_⟩
  · exact ⟨_, (yields_runGrouped hmode hexact hsorted).eq_ok_iff.mpr ⟨hfine.mpr hread, rfl⟩⟩
  · intro out hout
    obtain ⟨_, hread, rfl⟩ := hok out hout
    exact isGroupBy_groupBy hfound (hfine.mpr hread)
  · intro hread hunsorted
    rcases sorted_or_goesBack hmode hexact (hfine.mpr hread) with hsorted | ⟨k, p, hback, hrun⟩
    · exact absurd hsorted hunsorted
    · exact ⟨_, k, p, hrun, rfl, rfl, hback⟩

/-- A sum over the second column and a maximum over the first. -/
def sumAndMax : List AggCall := [⟨"LongSum", .whole, 1⟩, ⟨"DoubleMax", .whole, 0⟩]

/-- Rows under the two zeros, which are one key, and under a text. -/
def zeroKeyRows : List Row :=
  [(⟨[.double (Ieee.zero true)]⟩, ⟨[.double ⟨0x3ff0000000000000⟩, .long 9223372036854775807]⟩),
    (⟨[.double (Ieee.zero false)]⟩, ⟨[.null, .int 3]⟩),
    (⟨[.double (Ieee.zero false)]⟩, ⟨[.double ⟨0x7ff8000000000000⟩, .null]⟩),
    (⟨[.text "a"]⟩, ⟨[.float ⟨0x3f800000⟩, .long 5]⟩)]

/-- The zeros are summed up as one key, in chunks of two; from the last row to the
first, the keys go back. -/
theorem Task.run_isGroupBy_zeros : ∃ t, Task.create .builtin sumAndMax 2 = .ok t ∧
    (∃ out, (t.run zeroKeyRows).1 = .ok out ∧ IsGroupBy .builtin sumAndMax zeroKeyRows out) ∧
    ∃ e, (t.run zeroKeyRows.reverse).1 = .error e ∧ e.code = 2108 := by
  have hsum : Registry.builtin.find? "LongSum" = some ⟨.long, .sum⟩ := by decide +kernel
  have hmax : Registry.builtin.find? "DoubleMax" = some ⟨.double, .max⟩ := by decide +kernel
  have hknown : ∀ c ∈ sumAndMax, ∃ f, Registry.builtin.find? c.function = some f ∧ f.Exact := by
    simp only [sumAndMax, List.forall_mem_cons]
    exact ⟨⟨_, hsum, by decide⟩, ⟨_, hmax, by decide⟩, nofun⟩
  have hread : ∀ rows ∈ [zeroKeyRows, zeroKeyRows.reverse],
      readable (Registry.builtin.slots sumAndMax) rows = true := by decide +kernel
  obtain ⟨t, ht, hrun⟩ := Task.run_isGroupBy (by decide) (by decide : Stage.whole ≠ .initial) (by decide) hknown 2
  refine ⟨t, ht, ?_, ?_⟩
  · obtain ⟨hok, hgroup, _⟩ := hrun zeroKeyRows
    have hsorted : (zeroKeyRows.map Prod.fst).Pairwise fun a b => (a.compare b).isLE = true := by decide
    obtain ⟨out, hout⟩ := hok.mpr ⟨hsorted, Registry.readable_slots_iff.mp (hread _ List.mem_cons_self)⟩
    exact ⟨out, hout, hgroup out hout⟩
  · have hunsorted : ¬ (zeroKeyRows.reverse.map Prod.fst).Pairwise fun a b => (a.compare b).isLE = true := by
      decide
    obtain ⟨e, _, _, he, hcode, _⟩ := (hrun zeroKeyRows.reverse).2.2
      (Registry.readable_slots_iff.mp (hread _ (by simp))) hunsorted
    exact ⟨e, he, hcode⟩

end MapReduce
