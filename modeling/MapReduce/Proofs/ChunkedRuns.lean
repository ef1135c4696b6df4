/-
# What accumulators are handed

A one-pass task hands the values of a key to its accumulators in chunks: inside the
loop when a chunk is full, and at the end of the key what is left. To say which bags
these are, the task is run with accumulators that write down the calls made on them
(`Logged`). The run asks an accumulator for three things only, and a logged one answers
as it does without its log; so the run gives the same rows or the same error, and leaves
the same accumulators and counters (`Task.run_forget`). Wherever it ends, the chunks it
has counted are the bags in the logs (`handed_runGrouped`).

The induction over the rows carries, for each call, the keys that have ended and the
values of the one that has not (`Lane.Records`): the bags handed on are full, and fewer
values than a chunk are pending. So a key whose values fill their last chunk has nothing
left at its end, and its cut is exact either way (`IsCut`).

Key definitions: `IsCut`, `Logged`, `Task.logged`, `KeyCalls`, `Lane.Records`,
`ChunkedRun`.
Key theorems: `IsCut.length_eq`, `runGrouped_forget`, `Task.run_forget`,
`handed_runGrouped`, `Lane.Records.take`, `Lane.Records.finish`, `records_runGrouped`,
`Task.run_chunked`.
-/
import MapReduce.Proofs.GroupedTask
import MapReduce.Proofs.Retries

namespace MapReduce

open Accumulator (Call)

/-! ### Cuts -/

/-- The pieces are the consecutive cut of a list into pieces of length `c`, of which
the last may be shorter and is not empty. -/
structure IsCut {α : Type} (c : Nat) (whole : List α) (pieces : List (List α)) : Prop where
  flatten : pieces.flatten = whole
  full : ∀ p ∈ pieces.dropLast, p.length = c
  last : ∀ p ∈ pieces.getLast?, 0 < p.length ∧ p.length ≤ c

section

variable {α : Type} {c : Nat} {whole rest : List α} {pieces : List (List α)}

theorem length_flatten_full (h : ∀ p ∈ pieces, p.length = c) : pieces.flatten.length = pieces.length * c := by
  rw [List.length_flatten, List.map_congr_left h, List.map_const', List.sum_replicate, smul_eq_mul]

theorem isCut_full (hc : 0 < c) (h : ∀ p ∈ pieces, p.length = c) : IsCut c pieces.flatten pieces where
  flatten := rfl
  full := fun p hp => h p (List.mem_of_mem_dropLast hp)
  last := fun p hp => by
    have hlength := h p (List.mem_of_getLast? hp)
    omega

theorem isCut_rest (hrest : rest ≠ []) (hle : rest.length ≤ c) (h : ∀ p ∈ pieces, p.length = c) :
    IsCut c (pieces.flatten ++ rest) (pieces ++ [rest]) where
  flatten := by simp
  full := fun p hp => h p (by simpa using hp)
  last := fun p hp => by
    obtain rfl : rest = p := by simpa using hp
    exact ⟨List.length_pos_of_ne_nil hrest, hle⟩

/-- **A cut has as many pieces as the rounded-up quotient says.** -/
theorem IsCut.length_eq (hc : 0 < c) (h : IsCut c whole pieces) :
    pieces.length = whole.length ⌈/⌉ c := by
  rcases List.eq_nil_or_concat pieces with rfl | ⟨front, last, rfl⟩
  · rw [← h.flatten]
    exact (zero_ceilDiv c).symm
  · rw [List.concat_eq_append] at h ⊢
    obtain ⟨hpos, hle⟩ := h.last last (by simp)
    have hfront : front.flatten.length = front.length * c :=
      length_flatten_full fun p hp => h.full p (by simpa using hp)
    have hwhole : whole.length = front.length * c + last.length := by
      rw [← h.flatten, List.flatten_append, List.length_append, hfront]
      simp
    have hupper : whole.length ⌈/⌉ c ≤ front.length + 1 := by
      rw [ceilDiv_le_iff_le_mul hc, Nat.mul_add, Nat.mul_comm]
      omega
    have hlower : ¬ whole.length ⌈/⌉ c ≤ front.length := by
      rw [ceilDiv_le_iff_le_mul hc, Nat.mul_comm]
      omega
    rw [List.length_append, List.length_singleton]
    omega

end

/-! ### Columns -/

theorem columnOf?_append_singleton {ρ : Aggregate → Type} {s : Slot ρ} {vs : List Tuple} {v t : Tuple} {values : Bag}
    (h : columnOf? s.column vs = some values) (hv : s.project v = .ok t) :
    columnOf? s.column (vs ++ [v]) = some (values ++ [t]) := by
  have hfield : v.fields[s.column]?.map (fun x => (⟨[x]⟩ : Tuple)) = some t := by
    rw [← s.toOption_project v, hv]
    rfl
  rw [columnOf?] at h
  rw [columnOf?, List.mapM_append, h, List.mapM_cons, hfield]
  rfl

theorem length_of_columnOf? {column : Nat} : ∀ {vs : List Tuple} {values : Bag},
    columnOf? column vs = some values → values.length = vs.length
  | [], values, h => by
    cases h
    rfl
  | v :: vs, values, h => by
    rw [columnOf?, List.mapM_cons] at h
    obtain ⟨t, _, hrest⟩ := Option.bind_eq_some_iff.mp h
    obtain ⟨rest, hvs, hvalues⟩ := Option.bind_eq_some_iff.mp hrest
    cases hvalues
    exact congrArg Nat.succ (length_of_columnOf? hvs)

/-! ### Accumulators with a log -/

/-- An accumulator with the calls that were made on it, in order. -/
structure Logged (f : Aggregate) where
  accumulator : Accumulator f
  log : List Call

/-- A call is made on the accumulator and written down. -/
instance : Receiver Logged where
  accumulate a chunk :=
    (Receiver.accumulate a.accumulator chunk).map fun b => ⟨b, a.log ++ [.accumulate chunk]⟩
  value a := ((Receiver.value a.accumulator).1, ⟨(Receiver.value a.accumulator).2, a.log ++ [.value]⟩)
  cleanup a := ⟨Receiver.cleanup a.accumulator, a.log ++ [.cleanup]⟩

/-- The slot with a log that is empty. -/
def Slot.logged (s : Slot) : Slot Logged := ⟨s.column, s.function, ⟨s.accumulator, []⟩⟩

/-- The task with logs that are empty. -/
def Task.logged (t : Task) : Task Logged := ⟨t.mode, t.slots.map Slot.logged, t.stats⟩

/-- The calls on the accumulator of a slot. -/
def Slot.log (s : Slot Logged) : List Call := s.accumulator.log

/-- The slot without its log. -/
def Slot.forget (s : Slot Logged) : Slot := ⟨s.column, s.function, s.accumulator.accumulator⟩

/-- The lane without its log. -/
def Lane.forget (l : Lane Logged) : Lane := ⟨l.slot.forget, l.pending⟩

/-- What a pass did, without the logs. -/
def Sweep.forget {α : Type} (s : Sweep α Logged) : Sweep α := ⟨s.lanes.map Lane.forget, s.chunks, s.result⟩

/-- What a run did, without the logs. -/
def Report.forget (r : Report Logged) : Report := ⟨r.lanes.map Lane.forget, r.rowsIn, r.chunks, r.result⟩

/-- The task without its logs. -/
def Task.forget (t : Task Logged) : Task := ⟨t.mode, t.slots.map Slot.forget, t.stats⟩

theorem Task.forget_logged (t : Task) : t.logged.forget = t := by
  obtain ⟨mode, slots, stats⟩ := t
  have hslots : (slots.map Slot.logged).map Slot.forget = slots := by
    rw [List.map_map]
    exact List.map_id slots
  exact congrArg (Task.mk mode · stats) hslots

/-! ### A run with logs is the run -/

namespace Lane

variable (l : Lane Logged)

theorem flush_forget (bag : Bag) : l.forget.flush bag = (l.flush bag).map forget := by
  cases h : Receiver.accumulate l.slot.accumulator.accumulator bag with
  | error e =>
    have hlogged : Receiver.accumulate l.slot.accumulator bag = .error e := congrArg (Except.map _) h
    rw [flush, flush, hlogged]
    exact congrArg (· >>= _) h
  | ok a =>
    have hlogged : Receiver.accumulate l.slot.accumulator bag = .ok ⟨a, l.slot.log ++ [.accumulate bag]⟩ :=
      congrArg (Except.map _) h
    rw [flush, flush, hlogged]
    exact congrArg (· >>= _) h

theorem take_forget (mode : Mode) (v : Tuple) :
    l.forget.take mode v = (l.take mode v).map fun r => (r.1.forget, r.2) := by
  have hproject : l.forget.slot.project v = l.slot.project v := rfl
  unfold take
  rw [hproject]
  cases l.slot.project v with
  | error e => rfl
  | ok t =>
    cases mode with
    | accumulate chunk =>
      simp only [bind, Except.bind]
      by_cases hfull : chunk ≤ (l.pending ++ [t]).length
      · rw [if_pos hfull, if_pos (show chunk ≤ (l.forget.pending ++ [t]).length from hfull)]
        rw [show l.forget.pending = l.pending from rfl, l.flush_forget]
        cases l.flush (l.pending ++ [t]) <;> rfl
      · rw [if_neg hfull, if_neg (show ¬ chunk ≤ (l.forget.pending ++ [t]).length from hfull)]
        rfl
    | _ => rfl

theorem finish_forget (mode : Mode) :
    l.forget.finish mode = (l.finish mode).map fun r => (r.1.forget, r.2) := by
  cases mode with
  | initial => rfl
  | intermediate =>
    have hpending : l.forget.slot.function.intermediate l.forget.pending =
        l.slot.function.intermediate l.pending := rfl
    rw [finish, finish, hpending]
    cases l.slot.function.intermediate l.pending <;> rfl
  | final =>
    have hpending : l.forget.slot.function.finalValue l.forget.pending =
        l.slot.function.finalValue l.pending := rfl
    rw [finish, finish, hpending]
    cases l.slot.function.finalValue l.pending <;> rfl
  | accumulate chunk =>
    have hpending : l.forget.pending = l.pending := rfl
    rw [finish, finish, hpending]
    by_cases hempty : l.pending.isEmpty = true
    · rw [if_pos hempty, if_pos hempty]
      rfl
    · rw [if_neg hempty, if_neg hempty, l.flush_forget]
      cases l.flush l.pending <;> rfl

end Lane

/-- A pass over lanes, if each step does without the log what it does with it. -/
theorem sweep_forget {α : Type} {f : Lane → Except ExecError (Lane × Nat × α)}
    {g : Lane Logged → Except ExecError (Lane Logged × Nat × α)}
    (h : ∀ l : Lane Logged, f l.forget = (g l).map fun r => (r.1.forget, r.2)) :
    ∀ lanes : List (Lane Logged), sweep f (lanes.map Lane.forget) = (sweep g lanes).forget
  | [] => rfl
  | l :: lanes => by
    have hl := h l
    rw [List.map_cons, sweep, sweep]
    cases hg : g l with
    | error e =>
      rw [hg] at hl
      simp only [hl, Except.map]
      rfl
    | ok r =>
      rw [hg] at hl
      simp only [hl, Except.map, sweep_forget h lanes]
      rfl

section

variable (mode : Mode) (lanes : List (Lane Logged))

theorem finishKey_forget (key : Tuple) :
    finishKey mode (lanes.map Lane.forget) key = (finishKey mode lanes key).forget := by
  rw [finishKey, sweep_forget fun l => l.finish_forget mode]
  rfl

theorem meetKey_forget (current : Option Tuple) (key : Tuple) :
    meetKey mode (lanes.map Lane.forget) current key =
      ((meetKey mode lanes current key).1, (meetKey mode lanes current key).2.forget) := by
  cases current with
  | none => rfl
  | some previous =>
    unfold meetKey
    by_cases hsame : previous.sameKey key = true
    · simp only [if_pos hsame]
      rfl
    · by_cases hback : key.before previous = true
      · simp only [if_neg hsame, if_pos hback]
        rfl
      · simp only [if_neg hsame, if_neg hback, finishKey_forget]

end

/-- **Logs change nothing in a run.** It gives the same rows or the same error, has counted
the same, and leaves the same lanes, wherever it ends. -/
theorem runGrouped_forget (mode : Mode) : ∀ (rows : List Row) (lanes : List (Lane Logged)) (current : Option Tuple),
    runGrouped mode (lanes.map Lane.forget) current rows = (runGrouped mode lanes current rows).forget
  | [], lanes, current => by
    cases current with
    | none => rfl
    | some key => exact finishKey_forget mode lanes key
  | (key, value) :: rows, lanes, current => by
    rw [runGrouped, runGrouped, meetKey_forget]
    generalize meetKey mode lanes current key = met
    cases hmet : met.2.result with
    | error e =>
      simp only [Report.forget, hmet]
    | ok done =>
      have htaken := sweep_forget (fun l => l.take_forget mode value) met.2.lanes
      simp only [Report.forget, hmet, htaken]
      cases hresult : (sweep (Lane.take mode value) met.2.lanes).result with
      | error e => simp only [Sweep.forget, hresult]
      | ok units =>
        simp only [Sweep.forget, hresult, runGrouped_forget mode rows]
        rfl

theorem runInitial_forget (slots : List (Slot Logged)) : ∀ rows : List Row,
    runInitial (slots.map Slot.forget) rows = runInitial slots rows
  | [] => rfl
  | (key, value) :: rows => by
    rw [runInitial, runInitial, runInitial_forget slots rows, List.mapM_map]
    rfl

/-- **A task with logs runs as it does without.** -/
theorem Task.run_forget (t : Task Logged) (rows : List Row) :
    t.forget.run rows = ((t.run rows).1, (t.run rows).2.forget) := by
  have hcleared : t.forget.slots.map Slot.cleared = (t.slots.map Slot.cleared).map Slot.forget := by
    simp only [forget, List.map_map]
    rfl
  have hlanes : ((t.slots.map Slot.cleared).map Slot.forget).map (fun s => (⟨s, []⟩ : Lane)) =
      ((t.slots.map Slot.cleared).map fun s => (⟨s, []⟩ : Lane Logged)).map Lane.forget := by
    simp only [List.map_map]
    rfl
  have hmode : t.forget.mode = t.mode := rfl
  simp only [run, hcleared, hlanes, hmode]
  by_cases hm : t.mode = .initial
  · simp only [if_pos hm, runInitial_forget]
    simp only [forget, List.map_map]
    rfl
  · simp only [if_neg hm, runGrouped_forget]
    simp only [forget, Report.forget, List.map_map]
    rfl

/-! ### The chunks that are counted -/

/-- Whether a call hands over a bag. -/
def Accumulator.Call.isChunk : Call → Bool
  | .accumulate _ => true
  | _ => false

/-- The bags that were handed over. -/
def Lane.handed (l : Lane Logged) : Nat := l.slot.log.countP Call.isChunk

/-- The bags that were handed over, of all lanes. -/
def totalHanded (lanes : List (Lane Logged)) : Nat := (lanes.map Lane.handed).sum

namespace Lane

variable {mode : Mode} {l l' : Lane Logged} {n : Nat}

theorem of_flush {bag : Bag} (h : l.flush bag = .ok l') :
    l'.slot.column = l.slot.column ∧ l'.pending = [] ∧ l'.slot.log = l.slot.log ++ [.accumulate bag] := by
  obtain ⟨a, hlogged, hl⟩ := ok_of_bind h
  obtain ⟨b, _, rfl⟩ := ok_of_map hlogged
  cases hl
  exact ⟨rfl, rfl, rfl⟩

theorem handed_of_flush {bag : Bag} (h : l.flush bag = .ok l') : l'.handed = l.handed + 1 := by
  rw [handed, (of_flush h).2.2, List.countP_append]
  rfl

theorem log_close (l : Lane Logged) : l.close.1.slot.log = l.slot.log ++ [.value, .cleanup] := by
  have hlog : l.close.1.slot.log = (l.slot.log ++ [.value]) ++ [.cleanup] := rfl
  rw [hlog, List.append_assoc]
  rfl

/-- Reading the value and forgetting hand over no bag. -/
theorem handed_close (l : Lane Logged) : l.close.1.handed = l.handed := by
  rw [handed, log_close, List.countP_append]
  rfl

theorem handed_of_take {v : Tuple} {u : Unit} (h : l.take mode v = .ok (l', n, u)) :
    l'.handed = l.handed + n := by
  obtain ⟨t, _, ht⟩ := ok_of_bind h
  cases mode with
  | accumulate chunk =>
    by_cases hfull : chunk ≤ (l.pending ++ [t]).length
    · simp only [if_pos hfull] at ht
      obtain ⟨m, hflush, hm⟩ := ok_of_bind ht
      cases hm
      exact handed_of_flush hflush
    · simp only [if_neg hfull] at ht
      cases ht
      rfl
  | _ =>
    cases ht
    rfl

theorem handed_of_finish {x : Scalar} (h : l.finish mode = .ok (l', n, x)) : l'.handed = l.handed + n := by
  cases mode with
  | initial =>
    cases h
    rfl
  | intermediate =>
    obtain ⟨t, _, hl⟩ := ok_of_bind h
    cases hl
    rfl
  | final =>
    obtain ⟨y, _, hl⟩ := ok_of_bind h
    cases hl
    rfl
  | accumulate chunk =>
    by_cases hempty : l.pending.isEmpty = true
    · simp only [finish, if_pos hempty] at h
      cases h
      exact l.handed_close
    · simp only [finish, if_neg hempty] at h
      obtain ⟨m, hflush, hm⟩ := ok_of_bind h
      cases hm
      rw [handed_close, handed_of_flush hflush]

end Lane

theorem totalHanded_cons (l : Lane Logged) (lanes : List (Lane Logged)) :
    totalHanded (l :: lanes) = l.handed + totalHanded lanes := List.sum_cons

theorem handed_sweep {α : Type} {f : Lane Logged → Except ExecError (Lane Logged × Nat × α)}
    (hf : ∀ l l' n a, f l = .ok (l', n, a) → l'.handed = l.handed + n) : ∀ lanes : List (Lane Logged),
    totalHanded (sweep f lanes).lanes = totalHanded lanes + (sweep f lanes).chunks
  | [] => rfl
  | l :: lanes => by
    cases hl : f l with
    | error e => simp only [sweep, hl, Nat.add_zero]
    | ok r =>
      obtain ⟨l', n, a⟩ := r
      have ih := handed_sweep hf lanes
      have hn := hf l l' n a hl
      simp only [sweep, hl, totalHanded_cons]
      omega

/-- **The chunks that are counted are the bags that were handed over**, wherever a run
ends. -/
theorem handed_runGrouped (mode : Mode) (rows : List Row) (lanes : List (Lane Logged)) (current : Option Tuple) :
    totalHanded (runGrouped mode lanes current rows).lanes =
      totalHanded lanes + (runGrouped mode lanes current rows).chunks := by
  refine passes_runGrouped (R := fun a n b => totalHanded b = totalHanded a + n) ?_ ?_ ?_ ?_ rows lanes current
  · exact fun _ => rfl
  · intro a b c m n h h'
    rw [h', h, Nat.add_assoc]
  · exact fun v lanes => handed_sweep (fun _ _ _ _ => Lane.handed_of_take) lanes
  · exact fun lanes => handed_sweep (fun _ _ _ _ => Lane.handed_of_finish) lanes

/-! ### What the logs hold -/

/-- The calls for a key: its values as they are cut, then the value is read and all is
forgotten. -/
def KeyCalls (c column : Nat) (vs : List Tuple) (calls : List Call) : Prop :=
  ∃ values pieces, columnOf? column vs = some values ∧ IsCut c values pieces ∧
    calls = pieces.map .accumulate ++ [.value, .cleanup]

namespace Lane

/-- The lane of a call of the column has done with the keys of `ended`, one after the
other, and has taken `vs` of the next key. -/
structure Records (c column : Nat) (ended : List (Tuple × List Tuple)) (vs : List Tuple) (l : Lane Logged) :
    Prop where
  reads : l.slot.column = column
  short : l.pending.length < c
  log : ∃ (parts : List (List Call)) (pieces : List Bag),
    List.Forall₂ (fun g calls => KeyCalls c column g.2 calls) ended parts ∧
      columnOf? column vs = some (pieces.flatten ++ l.pending) ∧ (∀ p ∈ pieces, p.length = c) ∧
      l.slot.log = .cleanup :: parts.flatten ++ pieces.map .accumulate

variable {c column n : Nat} {ended : List (Tuple × List Tuple)} {vs : List Tuple} {l l' : Lane Logged}

theorem records_idle (hc : 0 < c) (s : Slot) : (idle s.logged).Records c s.column [] [] where
  reads := rfl
  short := hc
  log := ⟨[], [], .nil, rfl, nofun, rfl⟩

/-- **Taking a value** keeps the bags full and less than a chunk pending. -/
theorem Records.take {v : Tuple} {u : Unit} (hc : 0 < c) (h : l.Records c column ended vs)
    (ht : l.take (.accumulate c) v = .ok (l', n, u)) : l'.Records c column ended (vs ++ [v]) := by
  obtain ⟨parts, pieces, hparts, hvalues, hfull, hlog⟩ := h.log
  obtain ⟨t, hproject, hrest⟩ := ok_of_bind ht
  have hvalues' : columnOf? column (vs ++ [v]) = some (pieces.flatten ++ (l.pending ++ [t])) := by
    rw [← h.reads] at hvalues ⊢
    rw [columnOf?_append_singleton hvalues hproject, List.append_assoc]
  have hshort := h.short
  by_cases hchunk : c ≤ (l.pending ++ [t]).length
  · simp only [if_pos hchunk] at hrest
    obtain ⟨m, hflush, hm⟩ := ok_of_bind hrest
    cases hm
    obtain ⟨hcolumn, hpending, hlog'⟩ := of_flush hflush
    have hlength : (l.pending ++ [t]).length = c := by
      rw [List.length_append, List.length_singleton] at hchunk ⊢
      omega
    refine ⟨hcolumn.trans h.reads, by rw [hpending]; exact hc, parts, pieces ++ [l.pending ++ [t]], hparts, ?_, ?_, ?_⟩
    · rw [hvalues', hpending]
      simp
    · exact List.forall_mem_append.mpr ⟨hfull, List.forall_mem_singleton.mpr hlength⟩
    · rw [hlog', hlog]
      simp
  · simp only [if_neg hchunk] at hrest
    cases hrest
    exact ⟨h.reads, Nat.lt_of_not_le hchunk, parts, pieces, hparts, hvalues', hfull, hlog⟩

/-- Once the values of a key are cut and handed over, closing the lane ends the key. -/
theorem records_close (hc : 0 < c) {parts : List (List Call)} {values : Bag} {cut : List Bag}
    (hreads : l.slot.column = column)
    (hparts : List.Forall₂ (fun g calls => KeyCalls c column g.2 calls) ended parts)
    (hvalues : columnOf? column vs = some values) (hcut : IsCut c values cut)
    (hlog : l.slot.log = .cleanup :: parts.flatten ++ cut.map .accumulate) (key : Tuple) :
    l.close.1.Records c column (ended ++ [(key, vs)]) [] := by
  refine ⟨hreads, hc, parts ++ [cut.map .accumulate ++ [.value, .cleanup]], [], ?_, rfl, nofun, ?_⟩
  · exact List.rel_append hparts (.cons ⟨values, cut, hvalues, hcut, rfl⟩ .nil)
  · rw [log_close, hlog]
    simp

/-- **Ending a key** closes its calls, and leaves nothing pending: what is left of its values
is one piece more, or the last full chunk was the last piece. -/
theorem Records.finish {x : Scalar} (hc : 0 < c) (h : l.Records c column ended vs)
    (hf : l.finish (.accumulate c) = .ok (l', n, x)) (key : Tuple) :
    l'.Records c column (ended ++ [(key, vs)]) [] := by
  obtain ⟨parts, pieces, hparts, hvalues, hfull, hlog⟩ := h.log
  by_cases hempty : l.pending.isEmpty = true
  · simp only [Lane.finish, if_pos hempty] at hf
    cases hf
    rw [List.isEmpty_iff.mp hempty, List.append_nil] at hvalues
    exact records_close hc h.reads hparts hvalues (isCut_full hc hfull) hlog key
  · simp only [Lane.finish, if_neg hempty] at hf
    obtain ⟨m, hflush, hm⟩ := ok_of_bind hf
    cases hm
    obtain ⟨hcolumn, _, hlog'⟩ := of_flush hflush
    have hrest : l.pending ≠ [] := fun hnil => hempty (List.isEmpty_iff.mpr hnil)
    refine records_close hc (hcolumn.trans h.reads) hparts hvalues (isCut_rest hrest h.short.le hfull) ?_ key
    rw [hlog', hlog]
    simp

/-- The log of a call when all keys have ended. -/
theorem Records.log_eq (hc : 0 < c) (h : l.Records c column ended []) :
    ∃ parts, List.Forall₂ (fun g calls => KeyCalls c column g.2 calls) ended parts ∧
      l.slot.log = .cleanup :: parts.flatten := by
  obtain ⟨parts, pieces, hparts, hvalues, hfull, hlog⟩ := h.log
  have hnil : pieces = [] := by
    cases pieces with
    | nil => rfl
    | cons p rest =>
      have hlength := hfull p List.mem_cons_self
      have hflat : (p :: rest).flatten ++ l.pending = [] := (Option.some.inj hvalues).symm
      simp only [List.flatten_cons, List.append_eq_nil_iff] at hflat
      rw [hflat.1.1, List.length_nil] at hlength
      omega
  rw [hnil] at hlog
  exact ⟨parts, hparts, by simpa using hlog⟩

end Lane

section

variable {c : Nat} {columns : List Nat} {ended : List (Tuple × List Tuple)} {vs : List Tuple}
  {lanes : List (Lane Logged)}

theorem forall₂_sweep {α : Type} {f : Lane Logged → Except ExecError (Lane Logged × Nat × α)}
    {P Q : Nat → Lane Logged → Prop} (hf : ∀ column l l' n a, P column l → f l = .ok (l', n, a) → Q column l')
    {as : List α} (h : List.Forall₂ P columns lanes) (hsweep : (sweep f lanes).result = .ok as) :
    List.Forall₂ Q columns (sweep f lanes).lanes := by
  induction h generalizing as with
  | nil => exact .nil
  | @cons column l columns lanes hl _ ih =>
    cases hfl : f l with
    | error e =>
      simp only [sweep, hfl] at hsweep
      cases hsweep
    | ok r =>
      obtain ⟨l', n, a⟩ := r
      simp only [sweep, hfl] at hsweep ⊢
      obtain ⟨as, hrest, _⟩ := ok_of_map hsweep
      exact .cons (hf column l l' n a hl hfl) (ih hrest)

theorem records_finishKey (hc : 0 < c) {key : Tuple} {out : List Row}
    (h : List.Forall₂ (fun column l => l.Records c column ended vs) columns lanes)
    (hf : (finishKey (.accumulate c) lanes key).result = .ok out) :
    List.Forall₂ (fun column l => l.Records c column (ended ++ [(key, vs)]) []) columns
        (finishKey (.accumulate c) lanes key).lanes ∧ out.map Prod.fst = [key] := by
  obtain ⟨fields, hsweep, rfl⟩ := ok_of_map hf
  exact ⟨forall₂_sweep (fun _ _ _ _ _ hl hfinish => hl.finish hc hfinish key) h hsweep, rfl⟩

/-- A run inside a key whose values so far are `vs`. -/
theorem records_runGrouped_some (hc : 0 < c) : ∀ (rows : List Row) {lanes : List (Lane Logged)} {key : Tuple}
    {ended : List (Tuple × List Tuple)} {vs : List Tuple} {out : List Row},
    List.Forall₂ (fun column l => l.Records c column ended vs) columns lanes →
    (runGrouped (.accumulate c) lanes (some key) rows).result = .ok out →
    List.Forall₂ (fun column l => l.Records c column (ended ++ runsFrom key vs rows) []) columns
        (runGrouped (.accumulate c) lanes (some key) rows).lanes ∧
      out.map Prod.fst = (runsFrom key vs rows).map Prod.fst
  | [], _, _, _, _, _, h, hrun => records_finishKey hc h hrun
  | (k, v) :: rows, lanes, key, ended, vs, out, h, hrun => by
    obtain ⟨done, units, out', hdone, hunits, hrest, hreport⟩ := ok_of_runGrouped_cons hrun
    rw [hreport] at hrun ⊢
    obtain rfl : done ++ out' = out := Except.ok.inj hrun
    clear hreport hrun
    rw [runsFrom]
    by_cases hk : key.sameKey k = true
    · rw [meetKey_same hk] at hdone hunits hrest ⊢
      cases hdone
      rw [if_pos hk]
      exact records_runGrouped_some hc rows
        (forall₂_sweep (fun _ _ _ _ _ hl ht => hl.take hc ht) h hunits) hrest
    · by_cases hb : k.before key = true
      · simp only [meetKey, if_neg hk, if_pos hb] at hdone
        cases hdone
      · have hmeet : meetKey (.accumulate c) lanes (some key) k = (k, finishKey (.accumulate c) lanes key) := by
          simp only [meetKey, if_neg hk, if_neg hb]
        rw [hmeet] at hdone hunits hrest ⊢
        rw [if_neg hk]
        obtain ⟨hended, hkey⟩ := records_finishKey hc h hdone
        obtain ⟨hall, hkeys⟩ := records_runGrouped_some hc rows
          (forall₂_sweep (fun _ _ _ _ _ hl ht => hl.take hc ht) hended hunits) hrest
        rw [List.append_assoc] at hall
        exact ⟨hall, by rw [List.map_append, hkey, hkeys]; rfl⟩

/-- **After a run, the logs hold every key**, one after the other. -/
theorem records_runGrouped (hc : 0 < c) {rows out : List Row}
    (h : List.Forall₂ (fun column l => l.Records c column [] []) columns lanes)
    (hrun : (runGrouped (.accumulate c) lanes none rows).result = .ok out) :
    List.Forall₂ (fun column l => l.Records c column (runs rows) []) columns
        (runGrouped (.accumulate c) lanes none rows).lanes ∧ out.map Prod.fst = (runs rows).map Prod.fst := by
  cases rows with
  | nil =>
    cases hrun
    exact ⟨h, rfl⟩
  | cons row rows =>
    obtain ⟨done, units, out', hdone, hunits, hrest, hreport⟩ := ok_of_runGrouped_cons hrun
    rw [hreport] at hrun ⊢
    obtain rfl : done ++ out' = out := Except.ok.inj hrun
    cases hdone
    exact records_runGrouped_some hc rows (forall₂_sweep (fun _ _ _ _ _ hl ht => hl.take hc ht) h hunits) hrest

end

/-! ### Counting -/

theorem KeyCalls.countP_eq {c column : Nat} {vs : List Tuple} {calls : List Call} (hc : 0 < c)
    (h : KeyCalls c column vs calls) : calls.countP Call.isChunk = vs.length ⌈/⌉ c := by
  obtain ⟨values, pieces, hvalues, hcut, rfl⟩ := h
  have hchunks : (pieces.map Call.accumulate).countP Call.isChunk = pieces.length := by
    rw [List.countP_map]
    exact List.countP_eq_length.mpr fun _ _ => rfl
  rw [List.countP_append, hchunks, hcut.length_eq hc, length_of_columnOf? hvalues]
  rfl

theorem countP_parts {c column : Nat} (hc : 0 < c) {groups : List (Tuple × List Tuple)} {parts : List (List Call)}
    (h : List.Forall₂ (fun g calls => KeyCalls c column g.2 calls) groups parts) :
    parts.flatten.countP Call.isChunk = (groups.map fun g => g.2.length ⌈/⌉ c).sum := by
  induction h with
  | nil => rfl
  | cons hg _ ih => rw [List.flatten_cons, List.countP_append, hg.countP_eq hc, ih, List.map_cons, List.sum_cons]

/-- A call hands over the rounded-up quotients of its keys, together. -/
theorem Lane.Records.handed_eq {c column : Nat} (hc : 0 < c) {groups : List (Tuple × List Tuple)} {l : Lane Logged}
    (h : l.Records c column groups []) : l.handed = (groups.map fun g => g.2.length ⌈/⌉ c).sum := by
  obtain ⟨parts, hparts, hlog⟩ := h.log_eq hc
  rw [handed, hlog, List.countP_cons, countP_parts hc hparts]
  rfl

theorem totalHanded_eq {c : Nat} (hc : 0 < c) {groups : List (Tuple × List Tuple)} {columns : List Nat}
    {lanes : List (Lane Logged)} (h : List.Forall₂ (fun column l => l.Records c column groups []) columns lanes) :
    totalHanded lanes = columns.length * (groups.map fun g => g.2.length ⌈/⌉ c).sum := by
  induction h with
  | nil => exact (Nat.zero_mul _).symm
  | cons hl _ ih =>
    rw [totalHanded_cons, hl.handed_eq hc, ih, List.length_cons, Nat.succ_mul, Nat.add_comm]

/-- A run that succeeds has counted every row. -/
theorem rowsIn_runGrouped {ρ : Aggregate → Type} [Receiver ρ] {mode : Mode} : ∀ {rows : List Row}
    {lanes : List (Lane ρ)} {current : Option Tuple} {out : List Row},
    (runGrouped mode lanes current rows).result = .ok out →
    (runGrouped mode lanes current rows).rowsIn = rows.length
  | [], _, current, _, _ => by
    cases current <;> rfl
  | (k, v) :: rows, lanes, current, out, h => by
    obtain ⟨_, _, out', _, _, hrest, hreport⟩ := ok_of_runGrouped_cons h
    rw [hreport, List.length_cons, Nat.add_comm, ← rowsIn_runGrouped hrest]

theorem sum_length_runsFrom : ∀ (rows : List Row) (key : Tuple) (vs : List Tuple),
    ((runsFrom key vs rows).map fun g => g.2.length).sum = vs.length + rows.length
  | [], _, _ => rfl
  | (k, v) :: rows, key, vs => by
    rw [runsFrom]
    by_cases hk : key.sameKey k = true
    · rw [if_pos hk, sum_length_runsFrom rows, List.length_append, List.length_singleton, List.length_cons]
      omega
    · rw [if_neg hk, List.map_cons, List.sum_cons, sum_length_runsFrom rows, List.length_singleton, List.length_cons,
        Nat.add_comm 1]

theorem sum_length_runs (rows : List Row) : ((runs rows).map fun g => g.2.length).sum = rows.length := by
  cases rows with
  | nil => rfl
  | cons row rows =>
    rw [runs, sum_length_runsFrom, List.length_singleton, List.length_cons, Nat.add_comm]

/-! ### Tasks -/

/-- What a run of calls over rows, in chunks of `c`, has done and counted, if `logs` are
the calls on the accumulators. -/
structure ChunkedRun (c : Nat) (calls : List AggCall) (rows : List Row) (logs : List (List Call))
    (stats : Stats) : Prop where
  /-- The runs of equal keys have different keys, -/
  distinct : (runs rows).Pairwise fun a b => a.1.compare b.1 = .lt
  /-- each has the values of its key, -/
  own : ∀ g ∈ runs rows, (rowsWith g.1 rows).map Prod.snd = g.2
  /-- and no key is left out. -/
  complete : ∀ row ∈ rows, ∃ g ∈ runs rows, g.1.sameKey row.1 = true
  /-- An accumulator is handed its column key by key, each cut by itself. -/
  logs : List.Forall₂ (fun call log => ∃ parts,
    List.Forall₂ (fun g calls => KeyCalls c call.column.toNat g.2 calls) (runs rows) parts ∧
      log = .cleanup :: parts.flatten) calls logs
  rowsIn : stats.rowsIn = ((runs rows).map fun g => g.2.length).sum
  rowsOut : stats.rowsOut = (runs rows).length
  chunks : stats.chunks = calls.length * ((runs rows).map fun g => g.2.length ⌈/⌉ c).sum

theorem Registry.map_column_slots {r : Registry} {calls : List AggCall} (h : r.callable calls = true) :
    (r.slots calls).map Slot.column = calls.map fun call => call.column.toNat := by
  have hknown : ∀ call ∈ calls, (r.find? call.function).isSome = true := by
    intro call hcall
    exact List.all_eq_true.mp (Bool.and_eq_true_iff.mp h).2 _ (List.mem_map_of_mem hcall)
  rw [slots, List.map_filterMap, ← List.filterMap_eq_map]
  refine List.filterMap_congr fun call hcall => ?_
  obtain ⟨f, hf⟩ := Option.isSome_iff_exists.mp (hknown call hcall)
  rw [hf]
  rfl

namespace Task

/-- A grouped run that succeeds, with all that it leaves. -/
theorem run_of_runGrouped {ρ : Aggregate → Type} [Receiver ρ] {t : Task ρ} (hm : t.mode ≠ .initial)
    {rows out : List Row} (h : (runGrouped t.mode (t.slots.map Lane.idle) none rows).result = .ok out) :
    let report := runGrouped t.mode (t.slots.map Lane.idle) none rows
    t.run rows = (.ok out, ⟨t.mode, report.lanes.map Lane.slot, ⟨report.rowsIn, out.length, report.chunks⟩⟩) := by
  have hidle : (t.slots.map Slot.cleared).map (fun s => (⟨s, []⟩ : Lane ρ)) = t.slots.map Lane.idle := List.map_map
  simp only [run, if_neg hm, hidle, h]

/-- A run in chunks that succeeds, of calls over the columns of the task. -/
theorem chunkedRun_of_run {t : Task} {c : Nat} (hm : t.mode = .accumulate c) (hc : 0 < c) {calls : List AggCall}
    (hcolumns : calls.map (fun call => call.column.toNat) = t.slots.map Slot.column) {rows out : List Row}
    (hrun : (t.logged.run rows).1 = .ok out) :
    ChunkedRun c calls rows ((t.logged.run rows).2.slots.map Slot.log) (t.logged.run rows).2.stats := by
  have hgrouped : t.logged.mode ≠ .initial := by
    rw [show t.logged.mode = .accumulate c from hm]
    exact nofun
  have hresult := (t.logged.run_eq_runGrouped hgrouped rows).symm.trans hrun
  rw [run_of_runGrouped hgrouped hresult]
  rw [show t.logged.mode = .accumulate c from hm] at hresult ⊢
  have hstart : List.Forall₂ (fun column l => l.Records c column [] []) (calls.map fun call => call.column.toNat)
      (t.logged.slots.map Lane.idle) := by
    rw [hcolumns, logged, List.map_map, List.forall₂_map_left_iff, List.forall₂_map_right_iff, List.forall₂_same]
    exact fun s _ => Lane.records_idle hc s
  obtain ⟨hrecords, hkeys⟩ := records_runGrouped hc hstart hresult
  have hentries : (gather rows).entries = runs rows := entries_gather (keysSorted_of_runGrouped hresult)
  exact {
    distinct := hentries ▸ (gather rows).sorted
    own := fun g hg => (rowsWith_of_mem_gather (hentries ▸ hg)).2
    complete := fun row hrow => hentries ▸ exists_mem_gather hrow
    logs := by
      rw [List.forall₂_map_left_iff] at hrecords
      rw [List.map_map]
      exact List.forall₂_map_right_iff.mpr (hrecords.imp fun _ _ h => h.log_eq hc)
    rowsIn := (rowsIn_runGrouped hresult).trans (sum_length_runs rows).symm
    rowsOut := by simpa using congrArg List.length hkeys
    chunks := by
      have hhanded := handed_runGrouped (.accumulate c) rows (t.logged.slots.map Lane.idle) none
      rw [totalHanded_eq hc hrecords, totalHanded_eq hc hstart, List.map_nil, List.sum_nil, Nat.mul_zero,
        Nat.zero_add, List.length_map] at hhanded
      exact hhanded.symm }

/-- **Chunks and counters are exact.** A one-pass task is made for calls, and runs over
rows after any history of runs. If it succeeds, every accumulator was handed the values of
its column key by key, each key cut into pieces of the chunk length with what is left as the
last piece; and the counters are the numbers of rows, of keys and of all pieces. The calls are
those that the run itself makes: with logs it gives the same rows and leaves the same task. -/
theorem run_chunked {registry : Registry} {calls : List AggCall} {chunk : Nat} {t : Task}
    (hstage : ∀ call ∈ calls, call.stage = .whole) (ht : Task.create registry calls chunk = .ok t)
    (history : List (List Row)) {rows out : List Row} (hrun : ((t.after history).run rows).1 = .ok out) :
    let logged := (t.after history).logged.run rows
    logged.1 = .ok out ∧ logged.2.forget = ((t.after history).run rows).2 ∧
      ChunkedRun (max 1 chunk) calls rows (logged.2.slots.map Slot.log) ((t.after history).run rows).2.stats := by
  intro logged
  have hc : 0 < max 1 chunk := Nat.lt_of_lt_of_le Nat.one_pos (Nat.le_max_left 1 chunk)
  have hforget : (t.after history).run rows = (logged.1, logged.2.forget) := by
    rw [← run_forget, forget_logged]
  rw [hforget] at hrun ⊢
  refine ⟨hrun, rfl, ?_⟩
  obtain ⟨hcallable, rfl⟩ := (yields_create hstage chunk).eq_ok_iff.mp ht
  obtain ⟨hmode, hslots⟩ := Prod.mk.inj (setup_after
    ⟨Mode.ofStage chunk .whole, registry.slots calls, ⟨0, 0, 0⟩⟩ history)
  refine chunkedRun_of_run (hmode.trans (congrArg Mode.accumulate (Nat.max_comm chunk 1))) hc ?_ hrun
  -- a run changes no column
  have hcolumns := congrArg (List.map Slot.column) hslots
  rw [List.map_map, List.map_map] at hcolumns
  exact (Registry.map_column_slots hcallable).symm.trans hcolumns.symm

/-- A sum and a greatest value of the one column, in one pass. -/
def sumAndGreatest : List AggCall := [⟨"LongSum", .whole, 0⟩, ⟨"LongMax", .whole, 0⟩]

/-- Four rows of one key, one of the next and two of the last. -/
def sevenRows : List Row :=
  [1, 1, 1, 1, 2, 3, 3].map fun k => (⟨[.long k]⟩, ⟨[.long (k + 5)]⟩)

/-- The task for them in chunks of two. -/
def inTwos : Task := ⟨.accumulate 2, [⟨0, ⟨.long, .sum⟩, .fresh⟩, ⟨0, ⟨.long, .max⟩, .fresh⟩], ⟨0, 0, 0⟩⟩

/-- In chunks of two, the last chunk of the first key is full, that of the second is not,
and that of the third is full when the rows end. The run before this one has failed. -/
theorem run_chunked_twos :
    let again := inTwos.after [sevenRows.reverse]
    let logged := again.logged.run sevenRows
    Task.create .builtin sumAndGreatest 2 = .ok inTwos ∧ (again.run sevenRows).2.stats = ⟨7, 3, 8⟩ ∧
      logged.2.forget = (again.run sevenRows).2 ∧
      ChunkedRun 2 sumAndGreatest sevenRows (logged.2.slots.map Slot.log) (again.run sevenRows).2.stats := by
  intro again logged
  have hcreate : Task.create .builtin sumAndGreatest 2 = .ok inTwos := by cbv
  have hrun : (again.run sevenRows).1 = .ok [(⟨[.long 1]⟩, ⟨[.long 24, .long 6]⟩),
      (⟨[.long 2]⟩, ⟨[.long 7, .long 7]⟩), (⟨[.long 3]⟩, ⟨[.long 16, .long 8]⟩)] := by cbv
  have hstats : (again.run sevenRows).2.stats = ⟨7, 3, 8⟩ := by cbv
  have hagain : inTwos.after [sevenRows.reverse] = again := rfl
  obtain ⟨_, hforget, hchunked⟩ := run_chunked (by decide) hcreate [sevenRows.reverse] hrun
  rw [hagain] at hforget hchunked
  exact ⟨hcreate, hstats, hforget, hchunked⟩

end Task

end MapReduce
