import Mathlib.Algebra.BigOperators.Group.Finset.Basic
import Mathlib.Algebra.GroupWithZero.Nat
import Mathlib.Order.Interval.Finset.Nat

/-!
# Interleaved contributions

A list of pieces, each of which belongs to an owner: what one owner has contributed is its
pieces in their order. Pieces that are laid out one behind the other occupy disjoint ranges.
-/

namespace Xv6.Shares

variable {α β γ P : Type*} [DecidableEq P]

/-- The elements that owner `p` has contributed, in order. -/
def share (owner : α → P) (part : α → List β) (xs : List α) (p : P) : List β :=
  (xs.filter fun x => owner x = p).flatMap part

section Share

variable {owner : α → P} {part : α → List β} {xs : List α}

theorem share_append_self (x : α) :
    share owner part (xs ++ [x]) (owner x) = share owner part xs (owner x) ++ part x := by
  simp [share, List.filter_append]

theorem share_append_other {x : α} {p : P} (other : owner x ≠ p) :
    share owner part (xs ++ [x]) p = share owner part xs p := by
  simp [share, List.filter_append, other]

theorem share_cons (x : α) (p : P) :
    share owner part (x :: xs) p = (if p = owner x then part x else []) ++
      share owner part xs p := by
  by_cases self : p = owner x
  · simp [share, self]
  · simp [share, self, Ne.symm self]

/-- Together the owners have contributed everything. -/
theorem sum_length_share {owners : Finset P} (all : ∀ x ∈ xs, owner x ∈ owners) :
    ∑ p ∈ owners, (share owner part xs p).length = (xs.map fun x => (part x).length).sum := by
  induction xs with
  | nil => simp [share]
  | cons x xs ih =>
      have rest := ih fun y mem => all y (List.mem_cons_of_mem x mem)
      have first : ∑ p ∈ owners, (if p = owner x then part x else []).length = (part x).length := by
        rw [Finset.sum_eq_single_of_mem (owner x) (all x List.mem_cons_self) fun p _ other => by
          rw [if_neg other]; rfl]
        rw [if_pos rfl]
      simp only [share_cons, List.length_append, Finset.sum_add_distrib, first, rest, List.map_cons,
        List.sum_cons]

/-- Two lists in which every owner has the same share have the same length in all. -/
theorem sum_length_eq {owner' : γ → P} {part' : γ → List β} {ys : List γ}
    (same : ∀ p, share owner part xs p = share owner' part' ys p) :
    (xs.map fun x => (part x).length).sum = (ys.map fun y => (part' y).length).sum := by
  have left : ∀ x ∈ xs, owner x ∈ (xs.map owner ++ ys.map owner').toFinset := by
    intro x mem
    rw [List.mem_toFinset]
    exact List.mem_append_left _ (List.mem_map_of_mem mem)
  have right : ∀ y ∈ ys, owner' y ∈ (xs.map owner ++ ys.map owner').toFinset := by
    intro y mem
    rw [List.mem_toFinset]
    exact List.mem_append_right _ (List.mem_map_of_mem mem)
  rw [← sum_length_share left, ← sum_length_share right]
  exact Finset.sum_congr rfl fun p _ => by rw [same]

end Share

/-! ## Ranges -/

/-- The ranges begin at `start`, each where the one before it ends. -/
def Consecutive (first size : α → ℕ) : ℕ → List α → Prop
  | _, [] => True
  | start, x :: xs => first x = start ∧ Consecutive first size (start + size x) xs

section Consecutive

variable {first size : α → ℕ} {start : ℕ} {xs : List α}

theorem Consecutive.append {x : α} (consecutive : Consecutive first size start xs)
    (next : first x = start + (xs.map size).sum) : Consecutive first size start (xs ++ [x]) := by
  induction xs generalizing start with
  | nil => exact ⟨next, trivial⟩
  | cons y ys ih =>
      refine ⟨consecutive.1, ih consecutive.2 ?_⟩
      rw [next, List.map_cons, List.sum_cons, Nat.add_assoc]

theorem Consecutive.start_le (consecutive : Consecutive first size start xs) {x : α}
    (mem : x ∈ xs) : start ≤ first x := by
  induction xs generalizing start with
  | nil => cases mem
  | cons y ys ih =>
      rcases List.mem_cons.mp mem with rfl | later
      · exact consecutive.1.ge
      · exact (Nat.le_add_right _ _).trans (ih consecutive.2 later)

/-- Consecutive pieces do not overlap. -/
theorem Consecutive.disjoint (consecutive : Consecutive first size start xs) :
    xs.Pairwise fun x y => Disjoint (Finset.Ico (first x) (first x + size x))
      (Finset.Ico (first y) (first y + size y)) := by
  induction xs generalizing start with
  | nil => exact List.Pairwise.nil
  | cons x xs ih =>
      refine List.Pairwise.cons (fun y mem => ?_) (ih consecutive.2)
      rw [consecutive.1]
      exact Finset.Ico_disjoint_Ico_consecutive _ _ _ |>.mono_right
        (Finset.Ico_subset_Ico_left (consecutive.2.start_le mem))

end Consecutive

end Xv6.Shares
