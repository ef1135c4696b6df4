/-
# Outcomes of computations that can fail

Which error a computation ends with does not matter for what it computes. `Yields`
says that a computation succeeds exactly under a condition, and then with a given
value; it composes like the computations do.

Key definitions: `Yields`.
Key theorems: `Yields.bind`, `Yields.mapM`, `ok_of_bind`, `ok_of_guard`,
`mapError_eq_ok_iff`, `mapM_option`.
-/
import Mathlib

namespace MapReduce

variable {ε α β : Type}

/-- A computation that succeeds does so step by step. -/
theorem ok_of_bind {x : Except ε α} {f : α → Except ε β} {b : β} (h : x >>= f = .ok b) :
    ∃ a, x = .ok a ∧ f a = .ok b := by
  cases x with
  | error e => cases h
  | ok a => exact ⟨a, rfl, h⟩

theorem ok_of_map {x : Except ε α} {f : α → β} {b : β} (h : x.map f = .ok b) :
    ∃ a, x = .ok a ∧ f a = b := by
  cases x with
  | error e => cases h
  | ok a => exact ⟨a, rfl, Except.ok.inj h⟩

/-- Another name for the error does not change what succeeds. -/
theorem mapError_eq_ok_iff {ε' : Type} {x : Except ε α} {f : ε → ε'} {a : α} :
    x.mapError f = .ok a ↔ x = .ok a := by
  cases x with
  | error e => exact ⟨nofun, nofun⟩
  | ok b => exact ⟨fun h => congrArg Except.ok (Except.ok.inj h), fun h => congrArg Except.ok (Except.ok.inj h)⟩

/-- A computation that succeeds has passed its checks. -/
theorem ok_of_guard {p : Prop} [Decidable p] {e : ε} {f : Unit → Except ε β} {b : β}
    (h : (if p then throw e >>= f else f ()) = .ok b) : ¬p ∧ f () = .ok b := by
  by_cases hp : p
  · rw [if_pos hp] at h
    cases h
  · exact ⟨hp, by rwa [if_neg hp] at h⟩

/-- A check before a computation. -/
theorem bind_unit_eq_ok_iff {x : Except ε Unit} {y : Except ε β} {b : β} :
    (x >>= fun _ => y) = .ok b ↔ x = .ok () ∧ y = .ok b := by
  cases x with
  | error e => exact ⟨nofun, fun h => nomatch h.1⟩
  | ok u => exact ⟨fun h => ⟨rfl, h⟩, fun h => h.2⟩

/-- A list of optional values is there if each of them is. -/
theorem mapM_option (f : α → Option β) : ∀ l : List α,
    l.mapM f = if l.all (fun a => (f a).isSome) then some (l.filterMap f) else none
  | [] => rfl
  | a :: l => by
    rw [List.mapM_cons, mapM_option f l, List.all_cons]
    cases ha : f a with
    | none => rfl
    | some b =>
      rw [List.filterMap_cons_some ha, Option.isSome_some, Bool.true_and]
      split <;> rfl

/-- The computation succeeds exactly if the condition holds, and then with the
given value. -/
def Yields (x : Except ε α) (p : Bool) (a : α) : Prop := x.toOption = if p then some a else none

namespace Yields

variable {x : Except ε α} {p q : Bool} {a : α} {b : β}

theorem eq_ok (h : Yields x true a) : x = .ok a := by
  cases x with
  | error e => cases h
  | ok a' => exact congrArg Except.ok (Option.some.inj h)

theorem eq_error (h : Yields x false a) : ∃ e, x = .error e := by
  cases x with
  | error e => exact ⟨e, rfl⟩
  | ok a' => cases h

theorem of_error {e : ε} (h : x = .error e) : Yields x false a := by
  rw [h]
  rfl

theorem eq_ok_iff (h : Yields x p a) {a' : α} : x = .ok a' ↔ p = true ∧ a' = a := by
  cases p with
  | true => simp [h.eq_ok, eq_comm]
  | false =>
    obtain ⟨e, he⟩ := h.eq_error
    simp [he]

theorem exists_error_iff (h : Yields x p a) : (∃ e, x = .error e) ↔ p = false := by
  cases p with
  | true => simp [h.eq_ok]
  | false => simp [h.eq_error]

/-- One computation after the other. -/
theorem bind {f : α → Except ε β} (hx : Yields x p a) (hf : Yields (f a) q b) : Yields (x >>= f) (p && q) b := by
  cases p with
  | true => rwa [hx.eq_ok, Bool.true_and]
  | false =>
    obtain ⟨e, he⟩ := hx.eq_error
    exact of_error (e := e) (by rw [he]; rfl)

theorem map (f : α → β) (hx : Yields x p a) : Yields (x.map f) p (f a) := by
  cases p with
  | true => rw [hx.eq_ok]; rfl
  | false =>
    obtain ⟨e, he⟩ := hx.eq_error
    exact of_error (e := e) (by rw [he]; rfl)

/-- A list of computations succeeds exactly if each of them does. -/
theorem mapM {f : α → Except ε β} {p : α → Bool} {g : α → β} : ∀ {l : List α},
    (∀ a ∈ l, Yields (f a) (p a) (g a)) → Yields (l.mapM f) (l.all p) (l.map g)
  | [], _ => rfl
  | a :: l, h => by
    have hl := mapM fun b hb => h b (List.mem_cons_of_mem a hb)
    rw [List.mapM_cons, List.all_cons]
    exact (h a List.mem_cons_self).bind (hl.map (g a :: ·))

end Yields
end MapReduce
