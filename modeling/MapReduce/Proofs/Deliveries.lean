/-
# What becomes of every row that is pushed

A shuffle keeps a counter for each input and a list for each reducer. Here the same is
said without them, from the list of the rows alone. Every row is offered to the
partitioner under a number: how many earlier rows of its input the partitioner
answered, whether they then reached a reducer or not (`Offer`, `offers`). The
answer decides the push. A row whose targets all exist is put in the inbox of each,
as often as it is named; any other row is in no inbox (`inbox`).

The counters are the numbers of the offers (`Tallied`), and one push keeps them so
(`Tallied.push`). The bucket of a reducer is its inbox, sorted: by key, then by input,
and as it was where both agree (`StablySorted`). There is one such list
(`stablySorted_iff`), so `Delivers` says all that a shuffle does.

Key definitions: `Offer`, `Shuffle.offers`, `Shuffle.inbox`, `Shuffle.StablySorted`,
`Shuffle.Delivers`.
Key theorems: `Shuffle.stablySorted_iff`, `Shuffle.Tallied.push`,
`Shuffle.routed_eq_inbox`, `Shuffle.delivers_offers`.
-/
import MapReduce.Proofs.Gather
import MapReduce.Proofs.Shuffle

namespace MapReduce

/-- A row as the partitioner sees it: with the number that is passed for it. -/
structure Offer where
  row : ShuffledRow
  seq : Nat

namespace Offer

variable (p : Partitioner)

/-- What the partitioner says to an offer. -/
def answer (o : Offer) : Except ExecError (List Nat) := p.route o.row.input o.row.key o.seq

/-- Whether an offer counts for an input: it comes from there and was answered. -/
def countsFor (input : Nat) (o : Offer) : Bool := o.row.input == input && (o.answer p).isOk

/-- The targets of the row, if it has some and all of them exist. -/
def targets? (o : Offer) : Option (List Nat) :=
  (o.answer p).toOption.filter fun targets => targets.all fun r => decide (r < p.parallelism)

end Offer

namespace Shuffle

/-- The offer of a row that is pushed after the offers `before`. -/
def nextOffer (p : Partitioner) (before : List Offer) (row : ShuffledRow) : Offer :=
  ⟨row, before.countP (Offer.countsFor p row.input)⟩

/-- The offers of rows that are pushed after the offers `before`. -/
def offersFrom (p : Partitioner) (before : List Offer) : List ShuffledRow → List Offer
  | [] => []
  | row :: rest =>
    nextOffer p before row :: offersFrom p (before ++ [nextOffer p before row]) rest

/-- The offers of rows, each under the number of earlier ones that count for its
input. -/
def offers (p : Partitioner) (rows : List ShuffledRow) : List Offer := offersFrom p [] rows

/-- The rows offered that go to a reducer, in order: each once per occurrence of the
reducer among its targets. -/
def inbox (p : Partitioner) (offers : List Offer) (r : Nat) : List ShuffledRow :=
  offers.flatMap fun o => List.replicate (((o.targets? p).getD []).count r) o.row

/-- `sorted` has the rows of `rows` by key and then by input; rows that agree in both
are as they were. -/
structure StablySorted (rows sorted : List ShuffledRow) : Prop where
  perm : sorted.Perm rows
  ordered : sorted.Pairwise fun a b =>
    a.key.compare b.key = .lt ∨ a.key.compare b.key = .eq ∧ a.input ≤ b.input
  stable : ∀ (key : Tuple) (input : Nat), sorted.filter (fun row => key.sameKey row.key && input == row.input) =
    rows.filter fun row => key.sameKey row.key && input == row.input

/-! ### The order of a bucket -/

theorem rowOrder_isLE_iff {a b : ShuffledRow} : (rowOrder a b).isLE = true ↔
    a.key.compare b.key = .lt ∨ a.key.compare b.key = .eq ∧ a.input ≤ b.input := by
  unfold rowOrder
  cases a.key.compare b.key <;> simp [Ordering.then, Nat.isLE_compare]

theorem rowOrder_eq_iff {a b : ShuffledRow} :
    rowOrder a b = .eq ↔ a.key.compare b.key = .eq ∧ a.input = b.input := by
  rw [rowOrder, Ordering.then_eq_eq, Nat.compare_eq_eq]

instance : Std.TransCmp rowOrder where
  eq_swap := fun {a b} => by
    have hkey : a.key.compare b.key = (b.key.compare a.key).swap := Std.OrientedCmp.eq_swap
    rw [rowOrder, rowOrder, Ordering.swap_then, ← hkey, Nat.compare_swap]
  isLE_trans := fun {a b c} hab hbc => by
    rw [rowOrder_isLE_iff] at hab hbc ⊢
    rcases hab with hab | ⟨hab, hi⟩
    · left
      rcases hbc with hbc | ⟨hbc, _⟩
      · exact Std.TransCmp.lt_trans hab hbc
      · rwa [← Std.TransCmp.congr_right hbc]
    · rw [Std.TransCmp.congr_left hab]
      rcases hbc with hbc | ⟨hbc, hj⟩
      · exact .inl hbc
      · exact .inr ⟨hbc, hi.trans hj⟩

theorem alike_rowOrder (row : ShuffledRow) (rows : List ShuffledRow) : alike rowOrder id row rows =
    rows.filter fun x => row.key.sameKey x.key && row.input == x.input := by
  refine List.filter_congr fun x _ => ?_
  rw [Bool.eq_iff_iff, beq_iff_eq, id, rowOrder_eq_iff, Bool.and_eq_true, Tuple.sameKey_iff, beq_iff_eq]

/-- **A bucket can be sorted in one way**, which is the one it is sorted in. -/
theorem stablySorted_iff {rows sorted : List ShuffledRow} :
    StablySorted rows sorted ↔ sorted = sortRows rows := by
  have hordered : (sortRows rows).Pairwise fun a b => (rowOrder a b).isLE = true :=
    pairwise_mergeSort_of_cmp rowOrder id rows
  have hstable : ∀ row, alike rowOrder id row (sortRows rows) = alike rowOrder id row rows :=
    fun row => alike_mergeSort rowOrder id row rows
  constructor
  · intro h
    refine eq_of_sorted_of_alike rowOrder id (h.ordered.imp rowOrder_isLE_iff.mpr) hordered fun row => ?_
    rw [hstable, alike_rowOrder, alike_rowOrder]
    exact h.stable row.key row.input
  · rintro rfl
    refine ⟨List.mergeSort_perm rows _, hordered.imp rowOrder_isLE_iff.mp, fun key input => ?_⟩
    have hrow := hstable ⟨key, input, ⟨[]⟩⟩
    rwa [alike_rowOrder, alike_rowOrder] at hrow

/-! ### One push -/

/-- What the push of a row does if its offer comes next. -/
structure Handles (p : Partitioner) (s : Shuffle) (o : Offer) : Prop where
  /-- The partitioner is asked under the number of the offer. -/
  seq : s.sentOf o.row.input = o.seq
  /-- If it fails, so does the push. -/
  unanswered : ∀ e, o.answer p = .error e → (s.push p o.row).2 = .error e
  /-- The push succeeds exactly if there are targets and all of them exist. -/
  ok_iff : (s.push p o.row).2 = .ok () ↔ (o.targets? p).isSome
  /-- A push that fails adds no row to any bucket. -/
  error : ∀ e, (s.push p o.row).2 = .error e → (s.push p o.row).1.buckets = s.buckets

variable {p : Partitioner} {s : Shuffle} {o : Offer} {before : List Offer}

theorem targets?_eq_some_iff {targets : List Nat} : o.targets? p = some targets ↔
    o.answer p = .ok targets ∧ ∀ r ∈ targets, r < p.parallelism := by
  unfold Offer.targets?
  cases o.answer p <;> simp [Except.toOption, Option.filter_eq_some_iff]

/-- A push ends in one of three ways: the partitioner fails, or it names a reducer that
does not exist, or the row reaches its targets. -/
theorem push_cases (h : s.sentOf o.row.input = o.seq) :
    (∃ e, o.answer p = .error e ∧ s.reached p o.row = [] ∧ s.push p o.row = (s, .error e)) ∨
    (∃ targets r sent, o.answer p = .ok targets ∧ r ∈ targets ∧ p.parallelism ≤ r ∧ s.reached p o.row = [] ∧
      s.push p o.row = (⟨sent, s.buckets⟩, .error (outOfRange r p.parallelism))) ∨
    (∃ targets, o.targets? p = some targets ∧ s.reached p o.row = targets ∧ (s.push p o.row).2 = .ok ()) := by
  have hroute : p.route o.row.input o.row.key (s.sentOf o.row.input) = o.answer p := by rw [h, Offer.answer]
  unfold push reached
  rw [hroute]
  cases ha : o.answer p with
  | error e => exact .inl ⟨e, rfl, rfl, rfl⟩
  | ok targets =>
    cases hf : targets.find? (fun r => decide (p.parallelism ≤ r)) with
    | some r =>
      have hr : decide (p.parallelism ≤ r) = true := List.find?_some (p := fun r => decide (p.parallelism ≤ r)) hf
      refine .inr (.inl ⟨targets, r, s.sent.insert o.row.input (s.sentOf o.row.input + 1), rfl,
        List.mem_of_find?_eq_some hf, of_decide_eq_true hr, ?_⟩)
      simp only [hf, and_self]
    | none =>
      have hall : ∀ r ∈ targets, r < p.parallelism := fun r hr => by simpa using List.find?_eq_none.mp hf r hr
      refine .inr (.inr ⟨targets, targets?_eq_some_iff.mpr ⟨ha, hall⟩, ?_⟩)
      simp only [hf, and_self]

theorem targets?_eq_none_of_error {e : ExecError} (h : o.answer p = .error e) : o.targets? p = none := by
  rw [Offer.targets?, h]
  rfl

theorem targets?_eq_none_of_le {targets : List Nat} {r : Nat} (h : o.answer p = .ok targets)
    (hr : r ∈ targets) (hle : p.parallelism ≤ r) : o.targets? p = none := by
  rw [Option.eq_none_iff_forall_ne_some]
  intro ts hts
  obtain ⟨hts, hlt⟩ := targets?_eq_some_iff.mp hts
  obtain rfl : targets = ts := Except.ok.inj (h.symm.trans hts)
  exact absurd (hlt r hr) (Nat.not_lt.mpr hle)

theorem reached_eq_targets (h : s.sentOf o.row.input = o.seq) :
    s.reached p o.row = (o.targets? p).getD [] := by
  rcases push_cases (p := p) h with ⟨e, ha, hreached, _⟩ | ⟨targets, r, _, ha, hr, hle, hreached, _⟩ |
    ⟨targets, ht, hreached, _⟩
  · rw [hreached, targets?_eq_none_of_error ha, Option.getD_none]
  · rw [hreached, targets?_eq_none_of_le ha hr hle, Option.getD_none]
  · rw [hreached, ht, Option.getD_some]

theorem handles_of_seq (h : s.sentOf o.row.input = o.seq) : Handles p s o := by
  rcases push_cases (p := p) h with ⟨e, ha, _, hpush⟩ | ⟨targets, r, sent, ha, hr, hle, _, hpush⟩ |
    ⟨targets, ht, _, hok⟩
  · refine ⟨h, fun e' he => ?_, ?_, fun _ _ => by rw [hpush]⟩
    · rw [hpush, Except.error.inj (ha.symm.trans he)]
    · simp [hpush, targets?_eq_none_of_error ha]
  · refine ⟨h, fun e' he => ?_, ?_, fun _ _ => by rw [hpush]⟩
    · rw [ha] at he
      cases he
    · simp [hpush, targets?_eq_none_of_le ha hr hle]
  · refine ⟨h, fun e he => ?_, ?_, fun e he => ?_⟩
    · rw [(targets?_eq_some_iff.mp ht).1] at he
      cases he
    · simp [hok, ht]
    · rw [hok] at he
      cases he

/-! ### The counters -/

/-- The counters of a shuffle after the offers `before`. -/
def Tallied (p : Partitioner) (before : List Offer) (s : Shuffle) : Prop :=
  ∀ input, s.sentOf input = before.countP (Offer.countsFor p input)

theorem tallied_empty (p : Partitioner) : Tallied p [] empty := fun _ => rfl

theorem Tallied.handles (h : Tallied p before s) (row : ShuffledRow) : Handles p s (nextOffer p before row) :=
  handles_of_seq (h row.input)

/-- **A push keeps the counters.** -/
theorem Tallied.push (h : Tallied p before s) (row : ShuffledRow) :
    Tallied p (before ++ [nextOffer p before row]) (s.push p row).1 := by
  intro input
  have hroute : p.route row.input row.key (s.sentOf row.input) = (nextOffer p before row).answer p := by
    rw [h row.input]
    rfl
  have hcounts : Offer.countsFor p input (nextOffer p before row) = true ↔
      input = row.input ∧ ((nextOffer p before row).answer p).isOk := by
    rw [Offer.countsFor, Bool.and_eq_true, beq_iff_eq, eq_comm]
    rfl
  rw [sentOf_push, h input, hroute, List.countP_append, List.countP_singleton]
  exact congrArg _ (if_congr hcounts.symm rfl rfl)

/-! ### All pushes -/

variable {rows : List ShuffledRow}

theorem map_row_offersFrom : ∀ (before : List Offer) (rows : List ShuffledRow),
    (offersFrom p before rows).map Offer.row = rows
  | _, [] => rfl
  | _, row :: rest => congrArg (row :: ·) (map_row_offersFrom _ rest)

/-- Every offer is the next one after those before it, and finds the counters so. -/
theorem Tallied.offer (h : Tallied p before s) {pre post : List Offer}
    (hsplit : offersFrom p before rows = pre ++ o :: post) :
    o.seq = (before ++ pre).countP (Offer.countsFor p o.row.input) ∧
      Handles p (pushAll p s (pre.map Offer.row)).1 o := by
  induction rows generalizing before s pre with
  | nil => simp [offersFrom] at hsplit
  | cons row rest ih =>
    cases pre with
    | nil =>
      obtain ⟨rfl, _⟩ := List.cons.inj hsplit
      rw [List.append_nil]
      exact ⟨rfl, h.handles row⟩
    | cons first pre =>
      obtain ⟨rfl, hrest⟩ := List.cons.inj hsplit
      have hlater := ih (h.push row) hrest
      rwa [List.append_assoc] at hlater

/-- **What is routed to a reducer is its inbox.** -/
theorem routed_eq_inbox (r : Nat) (h : Tallied p before s) :
    routed p r s rows = inbox p (offersFrom p before rows) r := by
  induction rows generalizing before s with
  | nil => rfl
  | cons row rest ih =>
    rw [routed, offersFrom, inbox, List.flatMap_cons, ih (h.push row), inbox]
    rw [show s.reached p row = _ from reached_eq_targets (o := nextOffer p before row) (h row.input)]
    rfl

theorem lt_of_mem_inbox {offers : List Offer} {r : Nat} {row : ShuffledRow} (h : row ∈ inbox p offers r) :
    r < p.parallelism := by
  obtain ⟨o, _, hrow⟩ := List.mem_flatMap.mp h
  obtain ⟨hcount, _⟩ := List.mem_replicate.mp hrow
  have hr : r ∈ (o.targets? p).getD [] := List.count_pos_iff.mp (Nat.pos_of_ne_zero hcount)
  cases ht : o.targets? p with
  | none =>
    rw [ht] at hr
    cases hr
  | some targets =>
    rw [ht] at hr
    exact (targets?_eq_some_iff.mp ht).2 r hr

theorem mem_finish_pushAll {r : Nat} {sorted : List ShuffledRow} :
    (r, sorted) ∈ (pushAll p empty rows).1.finish ↔
      inbox p (offersFrom p [] rows) r ≠ [] ∧ sorted = sortRows (inbox p (offersFrom p [] rows) r) := by
  rw [finish_pushAll, List.mem_filterMap]
  simp only [routed_eq_inbox _ (tallied_empty p)]
  constructor
  · rintro ⟨r', _, hr⟩
    by_cases hne : inbox p (offersFrom p [] rows) r' = []
    · rw [if_pos hne] at hr
      cases hr
    · rw [if_neg hne] at hr
      cases hr
      exact ⟨hne, rfl⟩
  · rintro ⟨hne, rfl⟩
    obtain ⟨row, hrow⟩ := List.exists_mem_of_ne_nil _ hne
    exact ⟨r, List.mem_range.mpr (lt_of_mem_inbox hrow), if_neg hne⟩

/-- How a list of pushes went, where `offers` says what the partitioner was asked. -/
structure Delivers (p : Partitioner) (rows : List ShuffledRow) (offers : List Offer) : Prop where
  /-- Every row is offered once, in order. -/
  rows_eq : offers.map Offer.row = rows
  /-- The number of an offer is that of the earlier offers of its input that were
  answered. -/
  seq : ∀ pre o post, offers = pre ++ o :: post →
    o.seq = pre.countP fun x => x.row.input == o.row.input && (x.answer p).isOk
  /-- Every push goes as its offer says, whatever came before. -/
  push : ∀ pre o post, offers = pre ++ o :: post → Handles p (pushAll p empty (pre.map Offer.row)).1 o
  /-- The bucket of a reducer is what it was sent, sorted; there is none if that is
  nothing. -/
  finish : ∀ r sorted, (r, sorted) ∈ (pushAll p empty rows).1.finish ↔
    inbox p offers r ≠ [] ∧ StablySorted (inbox p offers r) sorted
  /-- A reducer has one bucket, and they are in order. -/
  ascending : (pushAll p empty rows).1.finish.Pairwise fun a b => a.1 < b.1

/-- **A shuffle neither loses nor invents rows.** -/
theorem delivers_offers (p : Partitioner) (rows : List ShuffledRow) : Delivers p rows (offers p rows) where
  rows_eq := map_row_offersFrom [] rows
  seq _ _ _ hsplit := ((tallied_empty p).offer hsplit).1
  push _ _ _ hsplit := ((tallied_empty p).offer hsplit).2
  finish r sorted := by
    rw [stablySorted_iff, mem_finish_pushAll]
    rfl
  ascending := (OrderedMap.sorted _).imp Nat.compare_eq_lt.mp

end Shuffle
end MapReduce
