/-
# Minted keys are fresh

A mint is asked for numbers and keys of scopes, and told which numbers are taken, in any
order. All that a call sees of the mint is the next number of its own scope, and all that
it changes is that number (`KeyMint.reply_call`, `KeyMint.peek_call`). The next number only
grows and is above every number that was handed out or reserved, so along every history of
calls the numbers of a scope are fresh (`KeyMint.Fresh`), and what a scope hands out does
not depend on the calls for other scopes (`KeyMint.filter_serve`).

Numbers are words of 64 bits. As long as every number that is handed out or reserved is
below the greatest word, the next number of a scope is a word, too (`KeyMint.Fits`).

The text of a key is its scope and its number around a hyphen. A scope may hold hyphens and
digits itself, but a number holds no hyphen, so the last one is where the scope ends, and
no two keys have one text (`Key.display_inj`).

Key definitions: `KeyMint.Call`, `KeyMint.serve`, `KeyMint.Fits`, `KeyMint.Fresh`.
Key theorems: `KeyMint.peek_call`, `KeyMint.Fits.fresh_serve`, `KeyMint.filter_serve`,
`Key.display_inj`, `KeyMint.mints_fresh`.
-/
import MapReduce.Launch
import MapReduce.Proofs.OrderedMap

namespace MapReduce

/-! ### Texts of keys -/

/-- Texts around a separator that the last of them does not hold are told apart. -/
theorem append_separator_inj {sep : Char} {a b d e : List Char} (hd : sep ∉ d) (he : sep ∉ e)
    (h : a ++ sep :: d = b ++ sep :: e) : a = b ∧ d = e := by
  rcases List.append_eq_append_iff.mp h with ⟨mid, rfl, hmid⟩ | ⟨mid, rfl, hmid⟩
  · -- what `b` has more than `a` would put its separator into `d`
    cases mid with
    | nil => exact ⟨(List.append_nil a).symm, (List.cons.inj hmid).2⟩
    | cons c mid =>
      refine absurd ?_ hd
      rw [(List.cons.inj hmid).2]
      exact List.mem_append_right mid List.mem_cons_self
  · cases mid with
    | nil => exact ⟨List.append_nil b, (List.cons.inj hmid).2.symm⟩
    | cons c mid =>
      refine absurd ?_ he
      rw [(List.cons.inj hmid).2]
      exact List.mem_append_right mid List.mem_cons_self

theorem hyphen_notMem_repr (n : Nat) : '-' ∉ (Nat.repr n).toList := by
  intro h
  rw [Nat.toList_repr] at h
  exact absurd (Nat.isDigit_of_mem_toDigits (by decide) (by decide) h) (by decide)

namespace Key

/-- **No two keys have one text.** -/
theorem display_inj {k k' : Key} : k.display = k'.display ↔ k = k' := by
  refine ⟨fun h => ?_, fun h => by rw [h]⟩
  have htext : ∀ k : Key, k.display.toList = k.scope.toList ++ '-' :: (Nat.repr k.id.toNat).toList := by
    intro k
    rw [display, String.toList_append, String.toList_append, List.append_assoc]
    rfl
  have hlist := congrArg String.toList h
  rw [htext, htext] at hlist
  obtain ⟨hscope, hid⟩ := append_separator_inj (hyphen_notMem_repr _) (hyphen_notMem_repr _) hlist
  obtain ⟨scope, id⟩ := k
  obtain ⟨scope', id'⟩ := k'
  rw [String.toList_inj] at hscope hid
  rw [Nat.repr_inj, UInt64.toNat_inj] at hid
  exact congrArg₂ mk hscope hid

end Key

namespace KeyMint

/-! ### Calls -/

/-- A call on a mint. -/
inductive Call where
  | nextId (scope : String)
  | nextKey (scope : String)
  /-- Says that the numbers up to `id` are taken. -/
  | reserve (scope : String) (id : UInt64)

/-- What a call is answered. -/
inductive Reply where
  | id (n : Nat)
  | key (k : Key)
  | done

/-- The scope that a call is for. -/
def Call.scope : Call → String
  | .nextId scope => scope
  | .nextKey scope => scope
  | .reserve scope _ => scope

/-- The key that was handed out. -/
def Reply.key? : Reply → Option Key
  | .key k => some k
  | _ => none

/-- The number that was handed out, by itself or in a key. -/
def Reply.minted? : Reply → Option Nat
  | .id n => some n
  | .key k => some k.id.toNat
  | .done => none

/-- The number up to which a call reserves. -/
def Call.reserved? : Call → Option Nat
  | .reserve _ id => some id.toNat
  | _ => none

/-- The number that a call has taken: one that was handed out or reserved. -/
def taken? (e : Call × Reply) : Option Nat := e.2.minted?.or e.1.reserved?

/-- Answers a call. -/
def call (m : KeyMint) : Call → KeyMint × Reply
  | .nextId scope => ((m.nextId scope).2, .id (m.nextId scope).1)
  | .nextKey scope => ((m.nextKey scope).2, .key (m.nextKey scope).1)
  | .reserve scope id => (m.reserve scope id.toNat, .done)

/-- The mint after several calls, and each call with its reply. -/
def serve (m : KeyMint) : List Call → KeyMint × List (Call × Reply)
  | [] => (m, [])
  | c :: cs => (((m.call c).1.serve cs).1, (c, (m.call c).2) :: ((m.call c).1.serve cs).2)

/-- The next number of a scope after a call for it, from the one before. -/
def Call.advance (n : Nat) : Call → Nat
  | .nextId _ => n + 1
  | .nextKey _ => n + 1
  | .reserve _ id => max n (id.toNat + 1)

/-- The reply to a call, from the next number of its scope. -/
def Call.answer (n : Nat) : Call → Reply
  | .nextId _ => .id n
  | .nextKey scope => .key ⟨scope, UInt64.ofNat n⟩
  | .reserve _ _ => .done

variable {m : KeyMint} {c : Call}

theorem reply_call (m : KeyMint) (c : Call) : (m.call c).2 = c.answer (m.peek c.scope) := by
  cases c <;> rfl

theorem peek_insert (m : KeyMint) (scope scope' : String) (n : Nat) :
    peek ⟨m.next.insert scope n⟩ scope' = if scope' = scope then n else m.peek scope' := by
  rw [peek, OrderedMap.find?_insert]
  simp only [Std.LawfulEqCmp.compare_eq_iff_eq]
  split <;> rfl

/-- **A call moves the next number of its own scope** and of no other. -/
theorem peek_call (m : KeyMint) (c : Call) (scope : String) :
    (m.call c).1.peek scope = if scope = c.scope then c.advance (m.peek scope) else m.peek scope := by
  by_cases h : scope = c.scope
  · subst h
    cases c <;> exact peek_insert m _ _ _
  · cases c <;> exact (peek_insert m _ _ _).trans (by rw [if_neg h]; exact if_neg h)

theorem Call.le_advance (n : Nat) (c : Call) : n ≤ c.advance n := by
  cases c with
  | reserve => exact Nat.le_max_left _ _
  | _ => exact Nat.le_succ n

theorem peek_le_call (m : KeyMint) (c : Call) (scope : String) : m.peek scope ≤ (m.call c).1.peek scope := by
  rw [peek_call]
  split
  · exact c.le_advance _
  · exact Nat.le_refl _

/-! ### Fresh numbers -/

/-- Every number that was handed out or reserved is below the greatest word. -/
def Bounded (log : List (Call × Reply)) : Prop := ∀ e ∈ log, ∀ n ∈ taken? e, n < 2 ^ 64 - 1

instance : DecidablePred Bounded := fun log =>
  inferInstanceAs (Decidable (∀ e ∈ log, ∀ n ∈ taken? e, n < 2 ^ 64 - 1))

/-- The next number of every scope is a word, and not zero. -/
def Fits (m : KeyMint) : Prop := ∀ scope, 1 ≤ m.peek scope ∧ m.peek scope < 2 ^ 64

theorem fits_empty : empty.Fits := fun _ => ⟨Nat.le_refl 1, Nat.one_lt_two_pow (by decide)⟩

/-- The number that is handed out is the next one of the scope. -/
theorem Fits.minted_eq (h : m.Fits) {n : Nat} (hn : n ∈ (m.call c).2.minted?) : n = m.peek c.scope := by
  rw [reply_call] at hn
  cases c with
  | nextId scope => exact (Option.some.inj hn).symm
  | nextKey scope =>
    rw [← Option.some.inj hn]
    exact UInt64.toNat_ofNat_of_lt' (h scope).2
  | reserve scope id => cases hn

/-- A number that is taken is below the next one from then on. -/
theorem Fits.taken_lt_peek (h : m.Fits) {n : Nat} (hn : n ∈ taken? (c, (m.call c).2)) :
    n < (m.call c).1.peek c.scope := by
  rw [peek_call, if_pos rfl]
  cases c with
  | reserve scope id =>
    obtain rfl : id.toNat = n := Option.some.inj hn
    exact Nat.lt_of_lt_of_le (Nat.lt_succ_self _) (Nat.le_max_right _ _)
  | nextId scope => exact Nat.lt_succ_of_le (Nat.le_of_eq (h.minted_eq hn))
  | nextKey scope => exact Nat.lt_succ_of_le (Nat.le_of_eq (h.minted_eq hn))

/-- **A call keeps the next numbers words**, if the number it takes is small enough. -/
theorem Fits.call (h : m.Fits) (hb : ∀ n ∈ taken? (c, (m.call c).2), n < 2 ^ 64 - 1) : (m.call c).1.Fits := by
  intro scope
  refine ⟨Nat.le_trans (h scope).1 (m.peek_le_call c scope), ?_⟩
  rw [peek_call]
  by_cases hs : scope = c.scope
  · subst hs
    have hpeek := (h c.scope).2
    rw [if_pos rfl]
    cases c with
    | nextId scope =>
      have hid : m.peek scope < 2 ^ 64 - 1 := hb _ rfl
      show m.peek scope + 1 < 2 ^ 64
      omega
    | nextKey scope =>
      have hid : (UInt64.ofNat (m.peek scope)).toNat < 2 ^ 64 - 1 := hb _ rfl
      rw [UInt64.toNat_ofNat_of_lt' (h scope).2] at hid
      show m.peek scope + 1 < 2 ^ 64
      omega
    | reserve scope id =>
      have hid : id.toNat < 2 ^ 64 - 1 := hb _ rfl
      exact Nat.max_lt.mpr ⟨hpeek, by omega⟩
  · rw [if_neg hs]
    exact (h scope).2

theorem Fits.serve : ∀ (calls : List Call) {m : KeyMint}, m.Fits → Bounded (m.serve calls).2 →
    (m.serve calls).1.Fits
  | [], _, h, _ => h
  | _ :: calls, _, h, hb => by
    obtain ⟨hhead, htail⟩ := List.forall_mem_cons.mp hb
    exact Fits.serve calls (h.call hhead) htail

/-- What is handed out later is not below the next number now. -/
theorem Fits.peek_le_minted : ∀ (calls : List Call) {m : KeyMint}, m.Fits → Bounded (m.serve calls).2 →
    ∀ e ∈ (m.serve calls).2, ∀ n ∈ e.2.minted?, m.peek e.1.scope ≤ n
  | [], _, _, _ => nofun
  | c :: calls, m, h, hb => by
    obtain ⟨hhead, htail⟩ := List.forall_mem_cons.mp hb
    refine List.forall_mem_cons.mpr ⟨fun n hn => Nat.le_of_eq (h.minted_eq hn).symm, fun e he n hn => ?_⟩
    exact Nat.le_trans (m.peek_le_call c e.1.scope) (peek_le_minted calls (h.call hhead) htail e he n hn)

/-- The numbers of every scope are fresh along a history of calls. -/
structure Fresh (log : List (Call × Reply)) : Prop where
  /-- A number that is handed out is not zero. -/
  positive : ∀ e ∈ log, ∀ n ∈ e.2.minted?, 1 ≤ n
  /-- It is above those of its scope that were handed out or reserved before. -/
  increasing : log.Pairwise fun e e' => e.1.scope = e'.1.scope →
    ∀ n ∈ taken? e, ∀ n' ∈ e'.2.minted?, n < n'
  /-- A key is of the scope that was asked for. -/
  inScope : ∀ e ∈ log, ∀ k ∈ e.2.key?, k.scope = e.1.scope

theorem scope_of_call {k : Key} (hk : k ∈ (m.call c).2.key?) : k.scope = c.scope := by
  rw [reply_call] at hk
  cases c with
  | nextKey scope =>
    cases hk
    rfl
  | _ => cases hk

/-- **Along every history the numbers are fresh.** -/
theorem Fits.fresh_serve : ∀ (calls : List Call) {m : KeyMint}, m.Fits → Bounded (m.serve calls).2 →
    Fresh (m.serve calls).2
  | [], _, _, _ => ⟨nofun, .nil, nofun⟩
  | c :: calls, m, h, hb => by
    obtain ⟨hhead, htail⟩ := List.forall_mem_cons.mp hb
    have hrest := fresh_serve calls (h.call hhead) htail
    refine ⟨?_, ?_, ?_⟩
    · refine List.forall_mem_cons.mpr ⟨fun n hn => ?_, hrest.positive⟩
      rw [h.minted_eq hn]
      exact (h c.scope).1
    · refine List.pairwise_cons.mpr ⟨fun e he hscope n hn n' hn' => ?_, hrest.increasing⟩
      have hlater := peek_le_minted calls (h.call hhead) htail e he n' hn'
      rw [← hscope] at hlater
      exact Nat.lt_of_lt_of_le (h.taken_lt_peek hn) hlater
    · exact List.forall_mem_cons.mpr ⟨fun k hk => scope_of_call hk, hrest.inScope⟩

theorem mem_minted_of_key {reply : Reply} {k : Key} (h : k ∈ reply.key?) : k.id.toNat ∈ reply.minted? := by
  cases reply with
  | key k' =>
    cases h
    rfl
  | _ => cases h

theorem mem_taken_of_minted {e : Call × Reply} {n : Nat} (h : n ∈ e.2.minted?) : n ∈ taken? e := by
  rw [taken?, Option.mem_def.mp h]
  rfl

/-- No key is handed out twice. -/
theorem Fresh.pairwise_keys {log : List (Call × Reply)} (h : Fresh log) :
    (log.filterMap fun e => e.2.key?).Pairwise (· ≠ ·) := by
  rw [List.pairwise_filterMap]
  refine h.increasing.imp_of_mem fun {e e'} he he' hlt k hk k' hk' heq => ?_
  have hscope : e.1.scope = e'.1.scope := by
    rw [← h.inScope e he k hk, ← h.inScope e' he' k' hk', heq]
  have hids := hlt hscope _ (mem_taken_of_minted (mem_minted_of_key hk)) _ (mem_minted_of_key hk')
  rw [heq] at hids
  exact Nat.lt_irrefl _ hids

/-! ### Other scopes -/

/-- Mints with the same next number of a scope answer the calls for it alike, whatever
calls for other scopes one of them gets in between. -/
theorem filter_serve_of_peek (scope : String) : ∀ (calls : List Call) {m m' : KeyMint},
    m.peek scope = m'.peek scope →
    ((m.serve calls).2.filter fun e => e.1.scope = scope) =
      (m'.serve (calls.filter fun c => c.scope = scope)).2
  | [], _, _, _ => rfl
  | c :: calls, m, m', h => by
    by_cases hs : c.scope = scope
    · have hpeek : (m.call c).1.peek scope = (m'.call c).1.peek scope := by
        rw [peek_call, peek_call, h]
      have hreply : (m.call c).2 = (m'.call c).2 := by
        rw [reply_call, reply_call, hs, h]
      rw [List.filter_cons_of_pos (by simpa using hs), serve, serve, List.filter_cons_of_pos (by simpa using hs),
        filter_serve_of_peek scope calls hpeek, hreply]
    · have hpeek : (m.call c).1.peek scope = m'.peek scope := by
        rw [peek_call, if_neg (Ne.symm hs), h]
      rw [List.filter_cons_of_neg (by simpa using hs), serve, List.filter_cons_of_neg (by simpa using hs),
        filter_serve_of_peek scope calls hpeek]

/-- **What a scope hands out does not depend on other scopes.** -/
theorem filter_serve (m : KeyMint) (calls : List Call) (scope : String) :
    ((m.serve calls).2.filter fun e => e.1.scope = scope) =
      (m.serve (calls.filter fun c => c.scope = scope)).2 :=
  filter_serve_of_peek scope calls rfl

/-! ### Histories -/

/-- What a mint does along a history of calls. -/
structure Sound (calls : List Call) : Prop where
  fresh : Fresh (empty.serve calls).2
  /-- The next number of every scope is still a word. -/
  fits : (empty.serve calls).1.Fits
  /-- The calls for a scope are answered as if there were no others. -/
  isolated : ∀ scope, ((empty.serve calls).2.filter fun e => e.1.scope = scope) =
    (empty.serve (calls.filter fun c => c.scope = scope)).2
  /-- The keys that were handed out have different texts. -/
  texts : ((empty.serve calls).2.filterMap fun e => e.2.key?).Pairwise fun k k' => k.display ≠ k'.display

/-- **Minted keys are fresh, and no two keys have one text.** Along every history of calls
over any scopes, with numbers below the greatest word, the numbers of a scope start at one,
increase, and are above those reserved before; calls for other scopes do not matter. Keys
are told apart by their texts, and so are jobs by the failpoints of their submissions. -/
theorem mints_fresh (calls : List Call) (h : Bounded (empty.serve calls).2) :
    Sound calls ∧ (∀ k k' : Key, k.display = k'.display ↔ k = k') ∧
      ∀ j j' : Job, "submit:" ++ j.key.display = "submit:" ++ j'.key.display ↔ j.key = j'.key := by
  have hfresh : Fresh (empty.serve calls).2 := fits_empty.fresh_serve calls h
  refine ⟨⟨hfresh, fits_empty.serve calls h, filter_serve empty calls, ?_⟩, fun _ _ => Key.display_inj, ?_⟩
  · exact hfresh.pairwise_keys.imp fun hne htext => hne (Key.display_inj.mp htext)
  · intro j j'
    rw [String.append_right_inj, Key.display_inj]

/-- Two scopes of which one is the text of a key of the other, with numbers reserved between. -/
def interleavedCalls : List Call :=
  [.nextKey "a", .nextKey "a-1", .reserve "a" 10, .nextKey "a", .reserve "a" 4, .nextId "a", .nextKey "a-1",
    .reserve "b" 18446744073709551613, .nextKey "b"]

theorem mints_fresh_interleaved :
    Bounded (empty.serve interleavedCalls).2 ∧ Sound interleavedCalls ∧
      ((empty.serve interleavedCalls).2.filterMap fun e => e.2.key?).map Key.display =
        ["a-1", "a-1-1", "a-11", "a-1-2", "b-18446744073709551614"] := by
  have hbounded : Bounded (empty.serve interleavedCalls).2 := by decide +kernel
  exact ⟨hbounded, (mints_fresh interleavedCalls hbounded).1, by decide +kernel⟩

end KeyMint
end MapReduce
