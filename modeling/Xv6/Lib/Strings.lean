import Mathlib.Data.List.GetD
import Mathlib.Data.List.TakeWhile
import Mathlib.Tactic

/-!
# Strings in memory

A memory gives each address a cell, and a string is a row of cells that ends at the first zero cell.
A slice of a string becomes a string of its own when the cell at its end is set to zero; other cells
that are set to zero do not matter if they lie outside the slice. The operations that take a length
go by the string or by its first cells, whichever is shorter.
-/

namespace Xv6.Strings

variable {α : Type} {mem : ℕ → α} {a : ℕ} {x : α} {xs ys : List α}

/-- The cells from `a` on hold these values. -/
def Holds (mem : ℕ → α) : ℕ → List α → Prop
  | _, [] => True
  | a, x :: xs => mem a = x ∧ Holds mem (a + 1) xs

theorem holds_append : Holds mem a (xs ++ ys) ↔ Holds mem a xs ∧ Holds mem (a + xs.length) ys := by
  induction xs generalizing a with
  | nil => exact (iff_of_eq (true_and _)).symm
  | cons x xs ih =>
      rw [List.cons_append, Holds, Holds, ih, and_assoc, List.length_cons, Nat.add_assoc,
        Nat.add_comm 1]

/-- A cell of the row has one of its values. -/
theorem Holds.mem_of (holds : Holds mem a xs) {b : ℕ} (low : a ≤ b) (high : b < a + xs.length) :
    mem b ∈ xs := by
  induction xs generalizing a with
  | nil => exact absurd high (Nat.not_lt.mpr low)
  | cons x xs ih =>
      rcases low.eq_or_lt with rfl | low
      · rw [holds.1]
        exact List.mem_cons_self
      · rw [List.length_cons] at high
        exact List.mem_cons_of_mem x (ih holds.2 low (by omega))

theorem Holds.congr {mem' : ℕ → α} (holds : Holds mem a xs)
    (same : ∀ b, a ≤ b → b < a + xs.length → mem' b = mem b) : Holds mem' a xs := by
  induction xs generalizing a with
  | nil => trivial
  | cons x xs ih =>
      rw [List.length_cons] at same
      refine ⟨(same a le_rfl (by omega)).trans holds.1, ih holds.2 fun b low high => ?_⟩
      exact same b (by omega) (by omega)

section Zero

variable [Zero α]

/-- There is this string at `a`. -/
structure IsString (mem : ℕ → α) (a : ℕ) (text : List α) : Prop where
  holds : Holds mem a text
  ended : mem (a + text.length) = 0
  nonzero : 0 ∉ text

variable {text text' : List α}

theorem IsString.cons (first : mem a = x) (nonzero : x ≠ 0) (rest : IsString mem (a + 1) text) :
    IsString mem a (x :: text) where
  holds := ⟨first, rest.holds⟩
  ended := by
    rw [List.length_cons, ← Nat.add_assoc, Nat.add_right_comm]
    exact rest.ended
  nonzero := List.not_mem_cons_of_ne_of_not_mem nonzero.symm rest.nonzero

theorem IsString.append (string : IsString mem a (xs ++ text)) :
    Holds mem a xs ∧ IsString mem (a + xs.length) text := by
  rcases holds_append.mp string.holds with ⟨front, back⟩
  refine ⟨front, back, ?_, fun zero => string.nonzero (List.mem_append_right xs zero)⟩
  rw [Nat.add_assoc, ← List.length_append]
  exact string.ended

theorem IsString.tail (string : IsString mem a (x :: text)) : IsString mem (a + 1) text := by
  have parts : IsString mem a ([x] ++ text) := string
  exact parts.append.2

/-- There is one string at an address. -/
theorem IsString.unique (string : IsString mem a text) (string' : IsString mem a text') :
    text = text' := by
  induction text generalizing a text' with
  | nil =>
      cases text' with
      | nil => rfl
      | cons x text' =>
          have first : x = 0 := string'.holds.1.symm.trans string.ended
          exact absurd (first ▸ List.mem_cons_self) string'.nonzero
  | cons x text ih =>
      cases text' with
      | nil =>
          have first : x = 0 := string.holds.1.symm.trans string'.ended
          exact absurd (first ▸ List.mem_cons_self) string.nonzero
      | cons y text' => rw [← string.holds.1, ← string'.holds.1, ih string.tail string'.tail]

/-- The text is zero from its end on. -/
theorem IsString.next (string : IsString mem a text) : mem a = text.headD 0 := by
  cases text with
  | nil => exact string.ended
  | cons x text => exact string.holds.1

/-- A slice becomes a string if the cell at its end, and no cell in it, is set to zero. -/
theorem Holds.terminated {mem' : ℕ → α} (set : ℕ → Prop) (holds : Holds mem a text)
    (nonzero : 0 ∉ text) (zero : ∀ b, set b → mem' b = 0) (same : ∀ b, ¬set b → mem' b = mem b)
    (ended : set (a + text.length)) (apart : ∀ b, set b → b < a ∨ a + text.length ≤ b) :
    IsString mem' a text where
  holds := holds.congr fun b low high => same b fun changed => by
    have := apart b changed
    omega
  ended := zero _ ended
  nonzero := nonzero

end Zero

/-! ## At most so many cells -/

section Bounded

variable [Zero α] [DecidableEq α] {p q : ℕ → α} {n : ℕ} {text : List α}

/-- The string at the start of the memory, cut off after `n` cells. -/
def upTo : ℕ → (ℕ → α) → List α
  | 0, _ => []
  | n + 1, p => if p 0 = 0 then [] else p 0 :: upTo n fun j => p (j + 1)

/-- The `n` cells that a copy of the string consists of: after its end they are zero. -/
def copy : ℕ → (ℕ → α) → List α
  | 0, _ => []
  | n + 1, p => if p 0 = 0 then List.replicate (n + 1) 0 else p 0 :: copy n fun j => p (j + 1)

/-- The difference of two strings in the first of `n` cells where they are not the same. -/
def difference (value : α → ℤ) : ℕ → (ℕ → α) → (ℕ → α) → ℤ
  | 0, _, _ => 0
  | n + 1, p, q =>
      if p 0 ≠ 0 ∧ p 0 = q 0 then difference value n (fun j => p (j + 1)) fun j => q (j + 1)
      else value (p 0) - value (q 0)

/-- A list as memory, with zero cells behind it. -/
abbrev cells (text : List α) : ℕ → α := fun j => text.getD j 0

theorem upTo_congr (same : ∀ j < n, p j = q j) : upTo n p = upTo n q := by
  induction n generalizing p q with
  | zero => rfl
  | succ n ih =>
      rw [upTo, upTo, same 0 (Nat.succ_pos n),
        ih fun j less => same (j + 1) (Nat.succ_lt_succ less)]

/-- The memory holds the string, with a zero cell after it if there is room. -/
theorem upTo_eq_take (holds : ∀ j < n, j < text.length → p j = text.getD j 0) (plain : 0 ∉ text)
    (ends : text.length < n → p text.length = 0) : upTo n p = text.take n := by
  induction n generalizing text p with
  | zero => rfl
  | succ n ih =>
      rw [upTo]
      cases text with
      | nil => exact if_pos (ends (Nat.succ_pos n))
      | cons b text =>
          have head : p 0 = b := holds 0 (Nat.succ_pos n) (Nat.succ_pos _)
          rw [List.mem_cons, not_or] at plain
          rw [head, if_neg (Ne.symm plain.1), List.take_succ_cons]
          refine congrArg (b :: ·) (ih (fun j less inside => ?_) plain.2 fun short => ?_)
          · exact holds (j + 1) (Nat.succ_lt_succ less) (Nat.succ_lt_succ inside)
          · exact ends (Nat.succ_lt_succ short)

theorem upTo_cells (plain : 0 ∉ text) (n : ℕ) : upTo n (cells text) = text.take n :=
  upTo_eq_take (fun _ _ _ => rfl) plain fun _ => List.getD_eq_default text 0 le_rfl

theorem length_copy : (copy n p).length = n := by
  induction n generalizing p with
  | zero => rfl
  | succ n ih =>
      rw [copy]
      split
      · rw [List.length_replicate]
      · rw [List.length_cons, ih]

/-- What has been copied compares equal. -/
theorem upTo_copy : upTo n (cells (copy n p)) = upTo n p := by
  induction n generalizing p with
  | zero => rfl
  | succ n ih =>
      rw [copy, upTo, upTo]
      by_cases stop : p 0 = 0
      · rw [if_pos stop, if_pos stop]
        exact if_pos rfl
      · rw [if_neg stop, if_neg stop]
        have rest : (fun j => cells (p 0 :: copy n fun j => p (j + 1)) (j + 1)) =
            cells (copy n fun j => p (j + 1)) := rfl
        rw [rest, ih]
        exact if_neg stop

/-- There is no difference exactly if the strings agree that far. -/
theorem difference_eq_zero {value : α → ℤ} (injective : Function.Injective value) :
    difference value n p q = 0 ↔ upTo n p = upTo n q := by
  induction n generalizing p q with
  | zero => exact iff_of_true rfl rfl
  | succ n ih =>
      rw [difference, upTo, upTo]
      by_cases stop : p 0 = 0
      · rw [if_neg fun both => both.1 stop, if_pos stop, sub_eq_zero, injective.eq_iff, stop]
        by_cases zero : q 0 = 0
        · rw [if_pos zero, zero]
          exact iff_of_true rfl rfl
        · rw [if_neg zero]
          exact iff_of_false (Ne.symm zero) (List.cons_ne_nil _ _).symm
      · by_cases same : p 0 = q 0
        · rw [if_pos ⟨stop, same⟩, if_neg stop, if_neg (same ▸ stop), ih, same, List.cons.injEq]
          exact (and_iff_right rfl).symm
        · rw [if_neg fun both => same both.2, if_neg stop, sub_eq_zero, injective.eq_iff]
          refine iff_of_false same ?_
          split
          · exact List.cons_ne_nil _ _
          · exact fun equal => same (List.cons.inj equal).1

end Bounded

/-! ## Paths -/

section Paths

variable [Zero α] [DecidableEq α] {slash : α} {path s : List α}

/-- The first element of a path, and the path from the next one on. -/
def element (slash : α) (path : List α) : Option (List α × List α) :=
  let s := path.dropWhile (· = slash)
  if s.headD 0 = 0 then none
  else
    some (s.takeWhile fun b => b ≠ slash ∧ b ≠ 0,
      (s.dropWhile fun b => b ≠ slash ∧ b ≠ 0).dropWhile (· = slash))

/-- Without a zero the slash alone ends an element. -/
theorem span_plain (plain : 0 ∉ s) :
    (s.takeWhile fun b => b ≠ slash ∧ b ≠ 0) = s.takeWhile (· ≠ slash) ∧
      (s.dropWhile fun b => b ≠ slash ∧ b ≠ 0) = s.dropWhile (· ≠ slash) := by
  induction s with
  | nil => exact ⟨rfl, rfl⟩
  | cons b s ih =>
      rw [List.mem_cons, not_or] at plain
      have nonzero : b ≠ 0 := Ne.symm plain.1
      by_cases here : b = slash
      · simp [here]
      · simpa [here, nonzero] using ih plain.2

/-- Nothing but slashes ends a string. -/
theorem element_plain (plain : 0 ∉ path) :
    element slash path =
      if path.dropWhile (· = slash) = [] then none
      else some ((path.dropWhile (· = slash)).takeWhile (· ≠ slash),
        ((path.dropWhile (· = slash)).dropWhile (· ≠ slash)).dropWhile (· = slash)) := by
  have plain' : 0 ∉ path.dropWhile (· = slash) :=
    fun zero => plain ((List.dropWhile_sublist _).subset zero)
  rw [element]
  generalize path.dropWhile (· = slash) = s at plain'
  have ends : s.headD 0 = 0 ↔ s = [] := by
    cases s with
    | nil => exact iff_of_true rfl rfl
    | cons b s => exact iff_of_false (fun zero =>
        plain' (zero ▸ List.mem_cons_self)) (List.cons_ne_nil b s)
  simp only [ends, (span_plain plain').1, (span_plain plain').2]

/-- What is left of the path is shorter. -/
theorem element_shorter {name rest : List α} (taken : element slash path = some (name, rest)) :
    rest.length < path.length := by
  rw [element] at taken
  have skipped := List.length_dropWhile_le (fun b => decide (b = slash)) path
  have begins := List.head?_dropWhile_not (fun b => decide (b = slash)) path
  generalize path.dropWhile (· = slash) = s at taken skipped begins
  split at taken
  next => cases taken
  next more =>
    cases taken
    cases s with
    | nil => exact absurd rfl more
    | cons b s =>
        have plain : b ≠ slash ∧ b ≠ 0 := ⟨by simpa using begins, more⟩
        rw [List.dropWhile_cons, if_pos (decide_eq_true plain)]
        have first := List.length_dropWhile_le (fun b => decide (b = slash))
          (s.dropWhile fun b => b ≠ slash ∧ b ≠ 0)
        have second := List.length_dropWhile_le (fun b => decide (b ≠ slash ∧ b ≠ 0)) s
        rw [List.length_cons] at skipped
        omega

end Paths

end Xv6.Strings
