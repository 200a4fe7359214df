import Mathlib.Tactic

/-!
# Singly linked lists

A list is kept as a pointer to its first node and a link in every node. To append a node,
the code follows the links to the last one and sets that, so that it comes to an end only
if the links do.
-/

namespace Xv6

variable {α : Type*}

/-- From `head` the links lead through the nodes of a list, in their order, and end there. -/
def Chain (next : α → Option α) : Option α → List α → Prop
  | head, [] => head = none
  | head, a :: l => head = some a ∧ Chain next (next a) l

namespace Chain

variable {next next' : α → Option α} {head : Option α} {a b : α} {l : List α}

/-- The nodes that `n` links lead through. -/
def nodes (next : α → Option α) : ℕ → Option α → List α
  | 0, _ => []
  | _, none => []
  | n + 1, some a => a :: nodes next n (next a)

/-- `for(pp = &a->next; *pp; pp = &(*pp)->next)`: the node that has the last link. -/
def last (next : α → Option α) : ℕ → α → Option α
  | 0, _ => none
  | n + 1, a =>
      match next a with
      | none => some a
      | some b => last next n b

/-- Appends `b` to the list; the loop gets `n` turns. -/
def append [DecidableEq α] (next : α → Option α) (n : ℕ) (head : Option α) (b : α) :
    Option (Option α × (α → Option α)) :=
  let next := Function.update next b none
  match head with
  | none => some (some b, next)
  | some a => (last next n a).map fun z => (some a, Function.update next z (some b))

/-- Enough turns collect the whole chain. -/
theorem nodes_eq (chain : Chain next head l) {n : ℕ} (enough : l.length ≤ n) :
    nodes next n head = l := by
  induction l generalizing head n with
  | nil =>
      cases chain
      cases n <;> rfl
  | cons a l ih =>
      rcases chain with ⟨rfl, rest⟩
      cases n with
      | zero => exact absurd enough (Nat.not_succ_le_zero _)
      | succ n => exact congrArg (a :: ·) (ih rest (Nat.le_of_succ_le_succ enough))

theorem congr (chain : Chain next head l) (same : ∀ a ∈ l, next' a = next a) :
    Chain next' head l := by
  induction l generalizing head with
  | nil => exact chain
  | cons a l ih =>
      rcases List.forall_mem_cons.mp same with ⟨first, rest⟩
      refine ⟨chain.1, ?_⟩
      rw [first]
      exact ih chain.2 rest

theorem head_eq (chain : Chain next head l) : head = l.head? := by
  cases l with
  | nil => exact chain
  | cons a l => exact chain.1

theorem ne_nil_of_head (chain : Chain next (some a) l) : l ≠ [] := by
  rintro rfl
  cases chain

/-- The loop ends at the last node. -/
theorem last_eq (chain : Chain next (some a) l) (nonempty : l ≠ []) {n : ℕ}
    (enough : l.length ≤ n) :
    last next n a = some (l.getLast nonempty) := by
  induction l generalizing a n with
  | nil => cases chain
  | cons c l ih =>
      rcases chain with ⟨⟨⟩, rest⟩
      cases n with
      | zero => exact absurd enough (Nat.not_succ_le_zero _)
      | succ n =>
          cases linked : next c with
          | none =>
              have ended : l = [] := by
                cases l with
                | nil => rfl
                | cons d l =>
                    rw [linked] at rest
                    cases rest.1
              subst ended
              simp only [last, linked, List.getLast_singleton]
          | some d =>
              rw [linked] at rest
              simp only [last, linked, ih rest rest.ne_nil_of_head (Nat.le_of_succ_le_succ enough)]
              rw [List.getLast_cons]

/-- A new link from the last node to `b` appends `b`. -/
theorem link [DecidableEq α] (chain : Chain next head l) (nodup : l.Nodup) (nonempty : l ≠ [])
    (fresh : b ∉ l) (ended : next b = none) :
    Chain (Function.update next (l.getLast nonempty) (some b)) head (l ++ [b]) := by
  induction l generalizing head with
  | nil => exact absurd rfl nonempty
  | cons a l ih =>
      rcases chain with ⟨rfl, rest⟩
      refine ⟨rfl, ?_⟩
      cases l with
      | nil =>
          have other : b ≠ a := fun same => fresh (same ▸ List.mem_cons_self)
          rw [List.getLast_singleton, Function.update_self]
          refine ⟨rfl, ?_⟩
          rw [Function.update_of_ne other]
          exact ended
      | cons c l =>
          have more : c :: l ≠ [] := List.cons_ne_nil c l
          have apart : a ≠ (c :: l).getLast more :=
            fun same => (List.nodup_cons.mp nodup).1 (same ▸ List.getLast_mem more)
          rw [List.getLast_cons more, Function.update_of_ne apart]
          exact ih rest (List.nodup_cons.mp nodup).2 more fun mem =>
            fresh (List.mem_cons_of_mem a mem)

/-- Appending a node that is not in the list comes to an end, and does what it says. -/
theorem append_eq [DecidableEq α] (chain : Chain next head l) (nodup : l.Nodup) (fresh : b ∉ l)
    {n : ℕ} (enough : l.length ≤ n) : ∃ head' next', append next n head b = some (head', next') ∧
      Chain next' head' (l ++ [b]) ∧ ∀ a, a ∉ l → a ≠ b → next' a = next a := by
  have cleared : Chain (Function.update next b none) head l :=
    chain.congr fun _ mem => Function.update_of_ne (ne_of_mem_of_not_mem mem fresh) _ _
  cases head with
  | none =>
      have empty : l = [] := by
        cases l with
        | nil => rfl
        | cons a l => cases chain.1
      subst empty
      refine ⟨some b, Function.update next b none, rfl, ⟨rfl, Function.update_self _ _ _⟩, ?_⟩
      exact fun a _ other => Function.update_of_ne other _ _
  | some a =>
      refine ⟨some a, _, ?_, cleared.link nodup chain.ne_nil_of_head fresh
        (Function.update_self _ _ _), ?_⟩
      · simp only [append, cleared.last_eq chain.ne_nil_of_head enough, Option.map_some]
      · intro c outside other
        have apart : c ≠ l.getLast chain.ne_nil_of_head :=
          fun same => outside (same ▸ List.getLast_mem _)
        rw [Function.update_of_ne apart, Function.update_of_ne other]

end Chain

end Xv6
