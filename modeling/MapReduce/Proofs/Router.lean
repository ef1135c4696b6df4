/-
# Where a skewed join sends its rows

A map that can be routed by gives every spread key a window of consecutive
reducers, counted around the end, that is no longer than there are reducers
(`PartitionMap.sound_iff`). So the reducers of a window are distinct and exist,
and a row of the skewed input always lands inside the window to which the rows
of the other input are copied (`Router.routeSkewed_mem_routeProbe`), whatever
its number is.

Key theorems: `PartitionMap.sound_iff`, `Router.nodup_routeProbe`,
`Router.routeSkewed_mem_routeProbe`, `Router.routeProbe_congr`.
-/
import MapReduce.Proofs.OrderedMap
import MapReduce.Skew.Router

namespace MapReduce

/-- An entry whose reducers are among the first `n`, each at most once. -/
def PartitionEntry.Fits (n : Nat) (e : PartitionEntry) : Prop :=
  0 < e.partitions.toNat ∧ e.partitions.toNat ≤ n ∧ e.firstReducer.toNat < n

/-- A map can be routed by if there is a reducer and every entry fits. -/
theorem PartitionMap.sound_iff (m : PartitionMap) :
    m.routingFault? = none ↔
      0 < m.parallelism.toNat ∧ ∀ e ∈ m.entries, e.Fits m.parallelism.toNat := by
  have hzero : ∀ x : UInt32, (x == 0) = decide (x.toNat = 0) := fun x => by
    rw [Bool.eq_iff_iff, beq_iff_eq, decide_eq_true_iff, ← UInt32.toNat_inj]
    rfl
  unfold routingFault?
  by_cases hp : m.parallelism.toNat = 0
  · simp [hp]
  · simp only [hp, if_false, Nat.pos_of_ne_zero hp, true_and]
    constructor
    · intro h e he
      split at h
      · cases h
      · rename_i hn
        split at h
        · cases h
        · rename_i hf
          have h1 := List.find?_eq_none.mp hn e he
          have h2 := List.find?_eq_none.mp hf e he
          simp only [hzero, Bool.or_eq_true, decide_eq_true_eq, not_or, not_lt, not_le] at h1 h2
          exact ⟨Nat.pos_of_ne_zero h1.1, h1.2, h2⟩
    · intro h
      have hn : m.entries.find? (fun e =>
          e.partitions == 0 || decide (m.parallelism.toNat < e.partitions.toNat)) = none := by
        rw [List.find?_eq_none]
        intro e he
        obtain ⟨h1, h2, _⟩ := h e he
        simp only [hzero, Bool.or_eq_true, decide_eq_true_eq]
        omega
      have hf : m.entries.find? (fun e => decide (m.parallelism.toNat ≤ e.firstReducer.toNat)) = none := by
        rw [List.find?_eq_none]
        intro e he
        obtain ⟨_, _, h3⟩ := h e he
        simpa using h3
      rw [hn]
      simp only [hf]

theorem PartitionMap.mem_entries_of_find? {m : PartitionMap} {key : Tuple} {e : PartitionEntry}
    (h : m.find? key = some e) : e ∈ m.entries := by
  obtain ⟨x, hx, rfl⟩ := Option.map_eq_some_iff.mp h
  exact List.mem_map_of_mem (List.mem_of_find?_eq_some hx)

namespace PartitionEntry

variable {e : PartitionEntry} {n : Nat}

theorem reducer_eq (h : e.Fits n) {slot : Nat} (hs : slot < e.partitions.toNat) :
    e.reducer slot n = (e.firstReducer.toNat + slot) % n := by
  obtain ⟨h1, h2, h3⟩ := h
  unfold reducer
  rw [Nat.max_eq_right h1, Nat.max_eq_right (by omega), Nat.mod_eq_of_lt hs]

theorem reducer_lt (h : e.Fits n) (slot : Nat) : e.reducer slot n < n := by
  obtain ⟨h1, h2, h3⟩ := h
  unfold reducer
  rw [Nat.max_eq_right (by omega : 1 ≤ n)]
  exact Nat.mod_lt _ (by omega)

/-- The slots of an entry that fits have different reducers. -/
theorem reducer_inj (h : e.Fits n) {i j : Nat} (hi : i < e.partitions.toNat)
    (hj : j < e.partitions.toNat) (hij : e.reducer i n = e.reducer j n) : i = j := by
  rw [reducer_eq h hi, reducer_eq h hj] at hij
  obtain ⟨h1, h2, h3⟩ := h
  have hmod : i ≡ j [MOD n] := Nat.ModEq.add_left_cancel' e.firstReducer.toNat hij
  exact hmod.eq_of_lt_of_lt (by omega) (by omega)

theorem nodup_reducers (h : e.Fits n) : (e.reducers n).Nodup :=
  List.nodup_range.map_on fun _ hi _ hj =>
    reducer_inj h (List.mem_range.mp hi) (List.mem_range.mp hj)

end PartitionEntry

namespace Router

/-- A map without a fault is accepted. -/
theorem ofMap_of_sound {m : PartitionMap} (h : m.routingFault? = none) : Router.ofMap m = .ok ⟨m, h⟩ := by
  unfold ofMap
  split
  · rename_i e he
    rw [h] at he
    cases he
  · rfl

theorem parallelism_pos (r : Router) : 0 < r.parallelism := (r.map.sound_iff.mp r.sound).1

theorem fits {r : Router} {key : Tuple} {e : PartitionEntry} (h : r.map.find? key = some e) :
    e.Fits r.parallelism :=
  (r.map.sound_iff.mp r.sound).2 e (PartitionMap.mem_entries_of_find? h)

theorem nodup_routeProbe (r : Router) (key : Tuple) : (r.routeProbe key).Nodup := by
  unfold routeProbe
  split
  · rename_i e he
    exact PartitionEntry.nodup_reducers (fits he)
  · exact List.nodup_singleton _

theorem lt_of_mem_routeProbe {r : Router} {key : Tuple} {t : Nat} (h : t ∈ r.routeProbe key) :
    t < r.parallelism := by
  unfold routeProbe at h
  split at h
  · rename_i e he
    obtain ⟨slot, _, rfl⟩ := List.mem_map.mp h
    exact PartitionEntry.reducer_lt (fits he) slot
  · rw [List.mem_singleton.mp h]
    exact Nat.mod_lt _ r.parallelism_pos

/-- **A row of the skewed input lands where the other input is copied to**,
whatever its number. -/
theorem routeSkewed_mem_routeProbe (r : Router) (key : Tuple) (seq : Nat) :
    r.routeSkewed key seq ∈ r.routeProbe key := by
  unfold routeSkewed routeProbe
  split
  · rename_i e he
    exact List.mem_map_of_mem (List.mem_range.mpr (Nat.mod_lt _ (fits he).1))
  · exact List.mem_singleton_self _

/-- Equal keys with one hash go to the same reducers. -/
theorem routeProbe_congr (r : Router) {a b : Tuple} (h : a.compare b = .eq) (hh : a.hash = b.hash) :
    r.routeProbe a = r.routeProbe b := by
  have hf : r.map.find? a = r.map.find? b := r.map.spread.find?_congr h
  unfold routeProbe defaultReducer
  rw [hf, hh]

end Router
end MapReduce
