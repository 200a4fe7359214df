import Mathlib.Data.List.Pairwise
import Mathlib.Data.Set.Lattice
import Mathlib.Order.BourbakiWitt
import Mathlib.Order.CompletePartialOrder
import Mathlib.Order.Interval.Set.Disjoint

/-!
# Extents

An extent is a run of units of `u` bytes each. A list of extents is apart if it is in the order of
the addresses and no extent reaches to the next one. An extent can be put into such a list, where it
is joined with the neighbours that it touches, and units can be taken from the end of one of its
extents.
-/

namespace Xv6.Extents

@[ext]
structure Extent where
  lo : ℕ
  size : ℕ
  deriving DecidableEq

variable (u : ℕ)

namespace Extent

/-- The address behind the extent. -/
def hi (x : Extent) : ℕ := x.lo + u * x.size

def bytes (x : Extent) : Set ℕ := Set.Ico x.lo (x.hi u)

theorem lo_le_hi (x : Extent) : x.lo ≤ x.hi u := Nat.le_add_right _ _

end Extent

def covered (xs : List Extent) : Set ℕ := {a | ∃ x ∈ xs, a ∈ x.bytes u}

def Apart (xs : List Extent) : Prop := xs.Pairwise fun x y => x.hi u < y.lo

/-- Put `x` before the extents, none of which begins before its end. -/
def join (x : Extent) : List Extent → List Extent
  | [] => [x]
  | y :: xs => if x.hi u = y.lo then ⟨x.lo, x.size + y.size⟩ :: xs else x :: y :: xs

variable {u} {x y : Extent} {xs ys : List Extent}

theorem covered_nil : covered u [] = ∅ := by
  simp [covered]

theorem covered_cons : covered u (x :: xs) = x.bytes u ∪ covered u xs := by
  ext a
  simp [covered]

theorem covered_append : covered u (xs ++ ys) = covered u xs ∪ covered u ys := by
  ext a
  simp [covered, or_and_right, exists_or]

theorem covered_perm (perm : xs.Perm ys) : covered u xs = covered u ys := by
  ext a
  simp only [covered, Set.mem_ofPred_eq, perm.mem_iff]

theorem hi_add (n : ℕ) : (⟨x.lo, x.size + n⟩ : Extent).hi u = x.hi u + u * n := by
  simp only [Extent.hi, Nat.mul_add, Nat.add_assoc]

/-- Two extents that touch are as good as one. -/
theorem bytes_add (touch : x.hi u = y.lo) :
    (⟨x.lo, x.size + y.size⟩ : Extent).bytes u = x.bytes u ∪ y.bytes u := by
  have end_eq : (⟨x.lo, x.size + y.size⟩ : Extent).hi u = y.hi u := by
    rw [hi_add, touch, Extent.hi]
  rw [Extent.bytes, end_eq, Extent.bytes, Extent.bytes, touch]
  exact (Set.Ico_union_Ico_eq_Ico (touch ▸ x.lo_le_hi u) (y.lo_le_hi u)).symm

/-! ## Putting an extent into a list -/

theorem covered_join : covered u (join u x xs) = x.bytes u ∪ covered u xs := by
  cases xs with
  | nil => exact covered_cons
  | cons y ys =>
      rw [join]
      split
      next touch => rw [covered_cons, covered_cons, bytes_add touch, Set.union_assoc]
      next => rw [covered_cons]

theorem join_eq (x : Extent) (xs : List Extent) :
    ∃ n ys, join u x xs = ⟨x.lo, n⟩ :: ys ∧ x.size ≤ n ∧ ys.Sublist xs := by
  cases xs with
  | nil => exact ⟨x.size, [], rfl, le_rfl, List.Sublist.refl _⟩
  | cons y ys =>
      rw [join]
      split
      · exact ⟨_, ys, rfl, Nat.le_add_right _ _, List.sublist_cons_self y ys⟩
      · exact ⟨x.size, y :: ys, rfl, le_rfl, List.Sublist.refl _⟩

/-- An extent that is joined to the next one stays apart from the others. -/
theorem Apart.join (apart : Apart u xs) (before : ∀ y ∈ xs, x.hi u ≤ y.lo) :
    Apart u (join u x xs) := by
  cases xs with
  | nil => exact List.pairwise_singleton _ _
  | cons y ys =>
      rcases List.pairwise_cons.mp apart with ⟨first, rest⟩
      rw [Extents.join]
      split
      next touch =>
        refine List.pairwise_cons.mpr ⟨fun z mem => ?_, rest⟩
        have end_eq : (⟨x.lo, x.size + y.size⟩ : Extent).hi u = y.hi u := by
          rw [hi_add, touch, Extent.hi]
        rw [end_eq]
        exact first z mem
      next apart' =>
        have gap : x.hi u < y.lo := lt_of_le_of_ne (before y List.mem_cons_self) apart'
        refine List.pairwise_cons.mpr ⟨fun z mem => ?_, apart⟩
        rcases List.mem_cons.mp mem with rfl | later
        · exact gap
        · exact gap.trans_le ((y.lo_le_hi u).trans (first z later).le)

/-- Every extent of the new list begins with an old one. -/
theorem lo_of_mem_join (mem : y ∈ join u x xs) : y.lo = x.lo ∨ ∃ z ∈ xs, y.lo = z.lo := by
  rcases join_eq (u := u) x xs with ⟨n, ys, same, _, sub⟩
  rw [same] at mem
  rcases List.mem_cons.mp mem with rfl | later
  · exact Or.inl rfl
  · exact Or.inr ⟨y, sub.subset later, rfl⟩

theorem length_join (x : Extent) (xs : List Extent) : (join u x xs).length ≤ xs.length + 1 := by
  rcases join_eq (u := u) x xs with ⟨n, ys, same, _, sub⟩
  rw [same]
  exact Nat.succ_le_succ sub.length_le

theorem size_pos_of_mem_join (some : ∀ z ∈ x :: xs, 0 < z.size) (mem : y ∈ join u x xs) :
    0 < y.size := by
  rcases join_eq (u := u) x xs with ⟨n, ys, same, larger, sub⟩
  rw [same] at mem
  rcases List.mem_cons.mp mem with rfl | later
  · exact (some x List.mem_cons_self).trans_le larger
  · exact some y (List.mem_cons_of_mem x (sub.subset later))

/-- Joining makes no extent smaller. -/
theorem exists_join_ge {n : ℕ} (large : ∃ z ∈ x :: xs, n ≤ z.size) :
    ∃ z ∈ join u x xs, n ≤ z.size := by
  cases xs with
  | nil => exact large
  | cons y ys =>
      rw [join]
      split
      · rcases large with ⟨z, mem, le⟩
        rcases List.mem_cons.mp mem with rfl | mem
        · exact ⟨_, List.mem_cons_self, le.trans (Nat.le_add_right _ _)⟩
        · rcases List.mem_cons.mp mem with rfl | mem
          · exact ⟨_, List.mem_cons_self, le.trans (Nat.le_add_left _ _)⟩
          · exact ⟨z, List.mem_cons_of_mem _ mem, le⟩
      · exact large

/-- Put `b` behind `q`. -/
theorem Apart.insert {q b : Extent} (apart : Apart u (xs ++ q :: ys)) (above : q.hi u ≤ b.lo)
    (below : ∀ y ∈ ys, b.hi u ≤ y.lo) : Apart u (xs ++ Extents.join u q (Extents.join u b ys)) := by
  rcases List.pairwise_append.mp apart with ⟨left, right, across⟩
  rcases List.pairwise_cons.mp right with ⟨first, rest⟩
  have behind : ∀ y ∈ Extents.join u b ys, q.hi u ≤ y.lo := by
    intro y mem
    rcases lo_of_mem_join mem with same | ⟨z, old, same⟩
    · rw [same]
      exact above
    · rw [same]
      exact (first z old).le
  refine List.pairwise_append.mpr
    ⟨left, (Apart.join rest below).join behind, fun x mem y mem' => ?_⟩
  have lower : q.lo ≤ y.lo := by
    rcases lo_of_mem_join mem' with same | ⟨z, new, same⟩
    · exact same.ge
    · rw [same]
      exact (q.lo_le_hi u).trans (behind z new)
  exact (across x mem q List.mem_cons_self).trans_le lower

theorem covered_insert {q b : Extent} :
    covered u (xs ++ join u q (join u b ys)) = covered u (xs ++ q :: ys) ∪ b.bytes u := by
  rw [covered_append, covered_join, covered_join, covered_append, covered_cons, Set.union_assoc,
    Set.union_assoc,
    Set.union_comm (b.bytes u)]

/-- An extent that is disjoint from the others has its place among them. -/
theorem exists_split {b : Extent} (apart : Apart u xs) (some : ∀ x ∈ b :: xs, x.lo < x.hi u)
    (disjoint : Disjoint (b.bytes u) (covered u xs)) :
    ∃ before after, xs = before ++ after ∧ (∀ x ∈ before, x.hi u ≤ b.lo) ∧
      ∀ y ∈ after, b.hi u ≤ y.lo := by
  induction xs with
  | nil => exact ⟨[], [], rfl, nofun, nofun⟩
  | cons x xs ih =>
      rcases List.pairwise_cons.mp apart with ⟨later, rest⟩
      rw [covered_cons, Set.disjoint_union_right] at disjoint
      have bSome := some b List.mem_cons_self
      have xSome := some x (List.mem_cons_of_mem b List.mem_cons_self)
      have separate := Set.Ico_disjoint_Ico.mp disjoint.1
      have fewer : ∀ y ∈ b :: xs, y ∈ b :: x :: xs := by
        intro y mem
        rcases List.mem_cons.mp mem with rfl | mem
        · exact List.mem_cons_self
        · exact List.mem_cons_of_mem b (List.mem_cons_of_mem x mem)
      by_cases before : x.hi u ≤ b.lo
      · rcases ih rest (fun y mem => some y (fewer y mem)) disjoint.2
          with ⟨front, back, rfl, left, right⟩
        refine ⟨x :: front, back, rfl, fun y mem => ?_, right⟩
        rcases List.mem_cons.mp mem with rfl | mem
        · exact before
        · exact left y mem
      · refine ⟨[], x :: xs, rfl, nofun, fun y mem => ?_⟩
        have first : b.hi u ≤ x.lo := by omega
        rcases List.mem_cons.mp mem with rfl | mem
        · exact first
        · exact first.trans ((x.lo_le_hi u).trans (later y mem).le)

/-! ## Taking units from an extent -/

/-- An extent that shrinks stays apart from the others. -/
theorem Apart.shrink {n : ℕ} (apart : Apart u (xs ++ x :: ys)) :
    Apart u (xs ++ ⟨x.lo, x.size - n⟩ :: ys) := by
  rcases List.pairwise_append.mp apart with ⟨left, right, across⟩
  rcases List.pairwise_cons.mp right with ⟨first, rest⟩
  have shorter : (⟨x.lo, x.size - n⟩ : Extent).hi u ≤ x.hi u :=
    Nat.add_le_add_left (Nat.mul_le_mul_left u (Nat.sub_le _ _)) _
  refine List.pairwise_append.mpr
    ⟨left, List.pairwise_cons.mpr ⟨fun z mem => shorter.trans_lt (first z mem), rest⟩, ?_⟩
  intro z mem y mem'
  rcases List.mem_cons.mp mem' with rfl | later
  · exact across z mem x List.mem_cons_self
  · exact across z mem y (List.mem_cons_of_mem x later)

theorem Apart.remove (apart : Apart u (xs ++ x :: ys)) : Apart u (xs ++ ys) :=
  apart.sublist (List.Sublist.append_left (List.sublist_cons_self x ys) xs)

/-- An extent, and its last units. -/
theorem bytes_split {n : ℕ} (le : n ≤ x.size) : x.bytes u =
    (⟨x.lo, x.size - n⟩ : Extent).bytes u ∪ (⟨x.lo + u * (x.size - n), n⟩ : Extent).bytes u := by
  rw [← bytes_add (x := ⟨x.lo, x.size - n⟩) (y := ⟨x.lo + u * (x.size - n), n⟩) rfl]
  congr 1
  ext
  · rfl
  · exact (Nat.sub_add_cancel le).symm

theorem covered_subset {a c : ℕ} (within : ∀ x ∈ xs, a ≤ x.lo ∧ x.hi u ≤ c) :
    covered u xs ⊆ Set.Ico a c := by
  rintro b ⟨x, mem, inside⟩
  exact ⟨(within x mem).1.trans inside.1, inside.2.trans_le (within x mem).2⟩

theorem within_of_bytes {a c : ℕ} (some : x.lo < x.hi u) (within : x.bytes u ⊆ Set.Ico a c) :
    a ≤ x.lo ∧ x.hi u ≤ c := by
  have low : x.lo ∈ Set.Ico a c := within ⟨le_rfl, some⟩
  have high : x.hi u - 1 ∈ Set.Ico a c :=
    within ⟨Nat.le_sub_one_of_lt some, Nat.sub_lt (by omega) one_pos⟩
  have := high.2
  exact ⟨low.1, by omega⟩

theorem bytes_subset (mem : x ∈ xs) : x.bytes u ⊆ covered u xs := fun _ inside => ⟨x, mem, inside⟩

theorem disjoint_of_hi_le (le : x.hi u ≤ y.lo) : Disjoint (x.bytes u) (y.bytes u) := by
  rw [Set.disjoint_left]
  intro a inX inY
  exact absurd inX.2 (le.trans inY.1).not_gt

/-- An extent is disjoint from those behind it. -/
theorem Apart.disjoint (apart : Apart u (x :: xs)) : Disjoint (x.bytes u) (covered u xs) := by
  rw [Set.disjoint_left]
  rintro a inX ⟨y, mem, inY⟩
  exact absurd inX.2 ((List.pairwise_cons.mp apart).1 y mem |>.le.trans inY.1).not_gt

theorem covered_middle : covered u (xs ++ x :: ys) = covered u (xs ++ ys) ∪ x.bytes u := by
  rw [covered_append, covered_append, covered_cons, Set.union_assoc, Set.union_comm (x.bytes u)]

theorem Apart.disjoint_middle (apart : Apart u (xs ++ x :: ys)) :
    Disjoint (x.bytes u) (covered u (xs ++ ys)) := by
  rcases List.pairwise_append.mp apart with ⟨_, right, across⟩
  rw [covered_append, Set.disjoint_union_right]
  refine ⟨?_, Apart.disjoint right⟩
  rw [Set.disjoint_left]
  rintro a inX ⟨y, mem, inY⟩
  exact absurd inY.2 ((across y mem x List.mem_cons_self).le.trans inX.1).not_gt

end Xv6.Extents
