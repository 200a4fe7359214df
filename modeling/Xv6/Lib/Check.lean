import Mathlib.Tactic

/-!
# Checks that stop at the first failure

A check runs in `Except`: it goes through lists and stops with an error as soon as
an element fails. A check that returns has seen every element, and what it has
accumulated on the way is the plain fold over the list.
-/

namespace Xv6.Check

variable {ε α β σ : Type}

/-- A sequence of checks passes if both parts do. -/
theorem bind_eq_ok {x : Except ε α} {f : α → Except ε β} {b : β} :
    x >>= f = .ok b ↔ ∃ a, x = .ok a ∧ f a = .ok b := by
  cases x with
  | ok a =>
      constructor
      · intro returned
        exact ⟨a, rfl, returned⟩
      · rintro ⟨a', same, returned⟩
        cases same
        exact returned
  | error e =>
      constructor
      · intro stopped
        cases stopped
      · rintro ⟨_, impossible, _⟩
        cases impossible

theorem exists_unit {p : Unit → Prop} : (∃ u, p u) ↔ p () :=
  ⟨fun ⟨_, holds⟩ => holds, fun holds => ⟨(), holds⟩⟩

theorem pure_eq_ok {a b : α} : (pure a : Except ε α) = .ok b ↔ b = a :=
  ⟨fun returned => (Except.ok.inj returned).symm, fun same => by rw [same]; rfl⟩

/-- Stop with `e` when the condition holds. -/
def failIf (c : Prop) [Decidable c] (e : ε) : Except ε Unit :=
  if c then throw e else pure ()

theorem failIf_eq_ok {c : Prop} [Decidable c] {e : ε} {u : Unit} :
    failIf c e = .ok u ↔ ¬c := by
  rw [failIf]
  split
  next holds =>
    refine ⟨fun stopped => ?_, fun fails => absurd holds fails⟩
    cases stopped
  next fails => exact ⟨fun _ => fails, fun _ => rfl⟩

theorem forM_eq_ok {xs : List α} {f : α → Except ε Unit} {u : Unit} :
    forM xs f = .ok u ↔ ∀ x ∈ xs, f x = .ok () := by
  induction xs with
  | nil => exact ⟨fun _ _ impossible => absurd impossible List.not_mem_nil, fun _ => rfl⟩
  | cons x xs ih =>
      rw [List.forM_cons, bind_eq_ok, List.forall_mem_cons, ← ih]
      exact ⟨fun ⟨_, first, rest⟩ => ⟨first, rest⟩, fun ⟨first, rest⟩ => ⟨(), first, rest⟩⟩

/-- If each element is accepted whatever the state, the whole list is, and the result is a fold. -/
theorem foldlM_eq_ok {xs : List α} {s s' : σ} {f : σ → α → Except ε σ} {accepts : α → Prop}
    {next : σ → α → σ}
    (step : ∀ x ∈ xs, ∀ s s', f s x = .ok s' ↔ accepts x ∧ s' = next s x) :
    xs.foldlM f s = .ok s' ↔ (∀ x ∈ xs, accepts x) ∧ s' = xs.foldl next s := by
  induction xs generalizing s with
  | nil =>
      rw [List.foldlM_nil, List.foldl_nil]
      constructor
      · intro returned
        cases returned
        exact ⟨fun _ impossible => absurd impossible List.not_mem_nil, rfl⟩
      · rintro ⟨_, rfl⟩
        rfl
  | cons x xs ih =>
      rw [List.foldlM_cons, bind_eq_ok, List.forall_mem_cons, List.foldl_cons]
      have rest := ih (s := next s x) fun y mem => step y (List.mem_cons_of_mem x mem)
      constructor
      · rintro ⟨t, first, more⟩
        rcases (step x List.mem_cons_self s t).mp first with ⟨accepted, rfl⟩
        rcases rest.mp more with ⟨all, result⟩
        exact ⟨⟨accepted, all⟩, result⟩
      · rintro ⟨⟨accepted, all⟩, result⟩
        exact ⟨next s x, (step x List.mem_cons_self s _).mpr ⟨accepted, rfl⟩,
          rest.mpr ⟨all, result⟩⟩

theorem foldlM_unit_eq_ok {xs : List α} {f : Unit → α → Except ε Unit} {s u : Unit} :
    xs.foldlM f s = .ok u ↔ ∀ x ∈ xs, f () x = .ok () := by
  have step : ∀ x ∈ xs, ∀ s s', f s x = .ok s' ↔ f () x = .ok () ∧ s' = () :=
    fun _ _ _ _ => ⟨fun returned => ⟨returned, rfl⟩, fun returned => returned.1⟩
  rw [foldlM_eq_ok step]
  exact ⟨fun all => all.1, fun all => ⟨all, rfl⟩⟩

theorem mapError_eq_ok {δ : Type} {x : Except ε α} {f : ε → δ} {a : α} :
    x.mapError f = .ok a ↔ x = .ok a := by
  cases x with
  | ok a' => simp [Except.mapError]
  | error e => simp [Except.mapError]

/-! ## How a check stops -/

section Stops

variable {x : Except ε α} {f : α → Except ε β} {E : ε → Prop} {e : ε}

/-- If the check stops, it is with one of these errors. -/
def Only (E : ε → Prop) (x : Except ε α) : Prop := ∀ e, x = .error e → E e

theorem Only.ne_error (only : Only E x) (other : ¬E e) : x ≠ .error e :=
  fun stopped => other (only e stopped)

theorem only_pure {a : α} : Only E (pure a : Except ε α) := nofun

theorem only_throw (allowed : E e) : Only E (throw e : Except ε α) := by
  rintro e' ⟨⟩
  exact allowed

theorem only_ok {a : α} (returned : x = .ok a) : Only E x := by
  rw [returned]
  exact only_pure

theorem Only.bind (first : Only E x) (rest : ∀ a, x = .ok a → Only E (f a)) : Only E (x >>= f) := by
  cases x with
  | ok a => exact rest a rfl
  | error e =>
      intro e' stopped
      cases stopped
      exact first e rfl

theorem bind_eq_error : x >>= f = .error e ↔ x = .error e ∨ ∃ a, x = .ok a ∧ f a = .error e := by
  cases x with
  | ok a => simp [bind, Except.bind]
  | error e' => simp [bind, Except.bind]

/-- What stops after a check that cannot stop so. -/
theorem Only.ok_of_bind (only : Only E x) (other : ¬E e) (stopped : x >>= f = .error e) :
    ∃ a, x = .ok a ∧ f a = .error e :=
  (bind_eq_error.mp stopped).resolve_left (only.ne_error other)

theorem only_failIf {c : Prop} [Decidable c] (allowed : c → E e) : Only E (failIf c e) := by
  rw [failIf]
  split
  next holds => exact only_throw (allowed holds)
  next => exact only_pure

theorem only_forM {xs : List α} {f : α → Except ε Unit} (each : ∀ x ∈ xs, Only E (f x)) :
    Only E (forM xs f) := by
  induction xs with
  | nil => exact only_pure
  | cons x xs ih =>
      rw [List.forM_cons]
      rcases List.forall_mem_cons.mp each with ⟨first, rest⟩
      exact first.bind fun _ _ => ih rest

theorem only_foldlM {xs : List α} {f : σ → α → Except ε σ} {s : σ}
    (each : ∀ x ∈ xs, ∀ s, Only E (f s x)) :
    Only E (xs.foldlM f s) := by
  induction xs generalizing s with
  | nil => exact only_pure
  | cons x xs ih =>
      rw [List.foldlM_cons]
      rcases List.forall_mem_cons.mp each with ⟨first, rest⟩
      exact (first s).bind fun _ _ => ih rest

theorem Only.mapError {δ : Type} {E' : δ → Prop} {f : ε → δ} (only : Only E x)
    (mapped : ∀ e, E e → E' (f e)) :
    Only E' (x.mapError f) := by
  cases x with
  | ok a => nofun
  | error e =>
      rintro e' ⟨⟩
      exact mapped e (only e rfl)

/-- What does not return stops. -/
theorem Only.eq_error_iff {x : Except ε α} (only : Only (fun e' => e' = e) x) :
    x = .error e ↔ ∀ a, x ≠ .ok a := by
  cases x with
  | ok a => exact ⟨nofun, fun fails => absurd rfl (fails a)⟩
  | error e' =>
      rw [only e' rfl]
      exact iff_of_true rfl nofun

end Stops

/-! ## Arrays of counters -/

section Tally

variable {w : ℕ}

/-- Every number in the list has its counter incremented. -/
def tally (xs : List ℕ) (array : ℕ → BitVec w) : ℕ → BitVec w :=
  xs.foldl (fun array k => Function.update array k (array k + 1)) array

theorem tally_append {xs ys : List ℕ} {array : ℕ → BitVec w} :
    tally (xs ++ ys) array = tally ys (tally xs array) :=
  List.foldl_append

/-- The counter of `k` counts its occurrences, modulo the word size. -/
theorem tally_apply {xs : List ℕ} {array : ℕ → BitVec w} {k : ℕ} :
    tally xs array k = array k + BitVec.ofNat w (xs.count k) := by
  induction xs generalizing array with
  | nil => simp [tally]
  | cons x xs ih =>
      have step : tally (x :: xs) array = tally xs (Function.update array x (array x + 1)) := rfl
      rw [step, ih]
      by_cases same : x = k
      · subst same
        rw [Function.update_self, List.count_cons_self, BitVec.ofNat_add, BitVec.add_assoc,
          BitVec.add_comm 1]
        rfl
      · rw [Function.update_of_ne (Ne.symm same), List.count_cons_of_ne same]

end Tally

end Xv6.Check
