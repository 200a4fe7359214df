import Mathlib.Tactic

/-!
# Lines

The parts of a list that end in a separator, and what follows the last separator. Appending to a
list continues the part that was left over.
-/

namespace Xv6.Lines

variable {α : Type} [DecidableEq α] {sep : α} {s t line : List α}

/-- The parts that end in a separator, without it. -/
def lines (sep : α) (s : List α) : List (List α) := (s.splitOnP (· = sep)).dropLast

/-- What follows the last separator. -/
def rest (sep : α) (s : List α) :
    List α := (s.splitOnP (· = sep)).getLast (List.splitOnP_ne_nil _ _)

theorem splitOnP_of_notMem (plain : sep ∉ s) : s.splitOnP (· = sep) = [s] :=
  List.splitOnP_eq_singleton fun _ mem => decide_eq_false fun same => plain (same ▸ mem)

theorem lines_of_notMem (plain : sep ∉ s) : lines sep s = [] := by
  rw [lines, splitOnP_of_notMem plain]
  rfl

theorem rest_of_notMem (plain : sep ∉ s) : rest sep s = s := by
  simp only [rest, splitOnP_of_notMem plain]
  rfl

theorem splitOnP_append_cons (plain : sep ∉ line) (s : List α) :
    (line ++ sep :: s).splitOnP (· = sep) = line :: s.splitOnP (· = sep) :=
  List.splitOnP_append_cons_of_forall_mem
    (fun b mem => decide_eq_false fun same : b = sep => plain (same ▸ mem)) sep
      (decide_eq_true rfl) s

theorem lines_append_cons (plain : sep ∉ line) (s : List α) :
    lines sep (line ++ sep :: s) = line :: lines sep s := by
  rw [lines, splitOnP_append_cons plain, lines]
  exact List.dropLast_cons_of_ne_nil (List.splitOnP_ne_nil _ _)

theorem rest_append_cons (plain : sep ∉ line) (s : List α) :
    rest sep (line ++ sep :: s) = rest sep s := by
  simp only [rest, splitOnP_append_cons plain]
  exact List.getLast_cons (List.splitOnP_ne_nil _ _)

/-- A list has no separator, or it begins with a line. -/
theorem cases_line (sep : α) (s : List α) :
    sep ∉ s ∨ ∃ line t, sep ∉ line ∧ s = line ++ sep :: t := by
  induction s with
  | nil => exact .inl List.not_mem_nil
  | cons b s ih =>
      by_cases here : sep = b
      · subst here
        exact .inr ⟨[], s, List.not_mem_nil, rfl⟩
      · rcases ih with none | ⟨line, t, none, rfl⟩
        · exact .inl (List.not_mem_cons_of_ne_of_not_mem here none)
        · exact .inr ⟨b :: line, t, List.not_mem_cons_of_ne_of_not_mem here none, rfl⟩

/-- Induction on the number of lines. -/
theorem line_induction (sep : α) {P : List α → Prop} (plain : ∀ s, sep ∉ s → P s)
    (cons : ∀ line s, sep ∉ line → P s → P (line ++ sep :: s)) (s : List α) : P s := by
  induction length : s.length using Nat.strong_induction_on generalizing s with
  | _ n ih =>
      rcases cases_line sep s with none | ⟨line, t, none, rfl⟩
      · exact plain s none
      · refine cons line t none (ih t.length ?_ t rfl)
        rw [← length, List.length_append, List.length_cons]
        omega

theorem lines_append (s t : List α) :
    lines sep (s ++ t) = lines sep s ++ lines sep (rest sep s ++ t) := by
  induction s using line_induction sep with
  | plain s none => rw [lines_of_notMem none, rest_of_notMem none, List.nil_append]
  | cons line s none ih =>
      rw [List.append_assoc, List.cons_append, lines_append_cons none, ih, lines_append_cons none,
        rest_append_cons none]
      rfl

theorem sep_notMem_rest (s : List α) : sep ∉ rest sep s := by
  induction s using line_induction sep with
  | plain s none => rwa [rest_of_notMem none]
  | cons line s none ih => rwa [rest_append_cons none]

/-- What comes before a separator does not count for the rest. -/
theorem rest_append (mem : sep ∈ t) (s : List α) : rest sep (s ++ t) = rest sep t := by
  induction s using line_induction sep with
  | plain s none =>
      rcases cases_line sep t with absent | ⟨line, u, absent, rfl⟩
      · exact absurd mem absent
      · have both : sep ∉ s ++ line := fun there => (List.mem_append.mp there).elim none absent
        rw [← List.append_assoc, rest_append_cons both, rest_append_cons absent]
  | cons line s none ih => rw [List.append_assoc, List.cons_append, rest_append_cons none, ih]

/-- The elements of a list are those of its lines, the separators, and the rest. -/
theorem length_lines (sep : α) (s : List α) :
    ((lines sep s).map fun line => line.length + 1).sum + (rest sep s).length = s.length := by
  induction s using line_induction sep with
  | plain s none =>
      rw [lines_of_notMem none, rest_of_notMem none]
      simp
  | cons line s none ih =>
      rw [lines_append_cons none, rest_append_cons none, List.map_cons, List.sum_cons,
        List.length_append,
        List.length_cons]
      omega

end Xv6.Lines
