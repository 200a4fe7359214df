import Mathlib.Tactic

/-!
# Doubly linked lists with a sentinel

The links of a circular list are two functions on nodes. `Path` describes a segment of the
list by the nodes on it, and `Ring` the whole list by the nodes after its sentinel. Relinking
in place is a change to at most four links; its meaning is an operation on the list of nodes.
-/

namespace Xv6.DList

structure Links (α : Type) where
  next : α → α
  prev : α → α

namespace Links

variable {α : Type} {links links' : Links α} {head a b n z : α} {l l₁ l₂ : List α}

/-- From `a` on come the nodes of `l`, then `z`. -/
def Path (links : Links α) : α → List α → α → Prop
  | a, [], z => links.next a = z ∧ links.prev z = a
  | a, b :: l, z => (links.next a = b ∧ links.prev b = a) ∧ Path links b l z

/-- The list visits the nodes of `l` in order and then is back at its sentinel. -/
structure Ring (links : Links α) (head : α) (l : List α) : Prop where
  path : links.Path head l head
  nodup : (head :: l).Nodup

/-- The other direction. -/
def flip (links : Links α) : Links α := ⟨links.prev, links.next⟩

theorem path_append : links.Path a (l₁ ++ b :: l₂) z ↔ links.Path a l₁ b ∧ links.Path b l₂ z := by
  induction l₁ generalizing a with
  | nil => exact Iff.rfl
  | cons c l₁ ih =>
      simp only [List.cons_append, Path, ih, and_assoc]

theorem Path.flip (path : links.Path a l z) : links.flip.Path z l.reverse a := by
  induction l generalizing a with
  | nil => exact path.symm
  | cons b l ih =>
      rw [List.reverse_cons]
      exact path_append.mpr ⟨ih path.2, path.1.symm⟩

theorem Ring.flip (ring : links.Ring head l) : links.flip.Ring head l.reverse where
  path := ring.path.flip
  nodup := by
    rcases List.nodup_cons.mp ring.nodup with ⟨fresh, nodup⟩
    exact List.nodup_cons.mpr ⟨by simpa using fresh, List.nodup_reverse.mpr nodup⟩

theorem Path.congr (path : links.Path a l z) (next : ∀ n ∈ a :: l, links'.next n = links.next n)
    (prev : ∀ n ∈ l ++ [z], links'.prev n = links.prev n) : links'.Path a l z := by
  induction l generalizing a with
  | nil =>
      refine ⟨?_, ?_⟩
      · rw [next a List.mem_cons_self]
        exact path.1
      · rw [prev z List.mem_cons_self]
        exact path.2
  | cons b l ih =>
      refine ⟨⟨?_, ?_⟩, ih path.2 (fun n mem => ?_) fun n mem => ?_⟩
      · rw [next a List.mem_cons_self]
        exact path.1.1
      · rw [prev b List.mem_cons_self]
        exact path.1.2
      · exact next n (List.mem_cons_of_mem _ mem)
      · exact prev n (List.mem_cons_of_mem _ mem)

theorem Path.next_mem (path : links.Path a l z) : links.next a ∈ l ++ [z] := by
  cases l with
  | nil =>
      rw [path.1]
      exact List.mem_cons_self
  | cons b l =>
      rw [path.1.1]
      exact List.mem_cons_self

theorem Path.prev_mem (path : links.Path a l z) : links.prev z ∈ a :: l := by
  have mem : links.prev z ∈ l.reverse ++ [a] := path.flip.next_mem
  simpa [or_comm] using mem

theorem Path.prev_next (path : links.Path a l z) (mem : n ∈ a :: l) :
    links.prev (links.next n) = n := by
  induction l generalizing a with
  | nil =>
      rw [List.mem_singleton.mp mem, path.1, path.2]
  | cons b l ih =>
      rcases List.mem_cons.mp mem with rfl | later
      · rw [path.1.1, path.1.2]
      · exact ih path.2 later

/-! ## Going round the list -/

/-- `k + 1` steps along the path lead to its node `k`. -/
theorem Path.iterate (path : links.Path a l z) (k : ℕ) (inside : k < (l ++ [z]).length) :
    links.next^[k + 1] a = (l ++ [z])[k] := by
  induction l generalizing a k with
  | nil =>
      have zero : k = 0 := by simpa using inside
      subst zero
      exact path.1
  | cons b l ih =>
      rw [Function.iterate_succ_apply, path.1.1]
      cases k with
      | zero => rfl
      | succ k => exact ih path.2 k (by simpa using inside)

theorem Ring.round (ring : links.Ring head l) : links.next^[l.length + 1] head = head := by
  rw [ring.path.iterate l.length (by simp)]
  simp

/-- Every node comes up once. -/
theorem Ring.once (ring : links.Ring head l) (mem : n ∈ l) :
    ∃! k, k < l.length ∧ links.next^[k + 1] head = n := by
  have visit : ∀ k (inside : k < l.length), links.next^[k + 1] head = l[k] := by
    intro k inside
    rw [ring.path.iterate k (by simp; omega), List.getElem_append_left inside]
  rcases List.getElem_of_mem mem with ⟨k, inside, rfl⟩
  refine ⟨k, ⟨inside, visit k inside⟩, fun k' found => ?_⟩
  have same := found.2
  rw [visit k' found.1] at same
  exact (List.nodup_cons.mp ring.nodup).2.getElem_inj_iff.mp same

/-- `for (n = start; n != head; n = step(n)) if (found(n)) return n;`, with a bound on the turns;
the outer `none` stands for a loop that has not ended. -/
def search [DecidableEq α] (step : α → α) (head : α) (found : α → Bool) : ℕ → α → Option (Option α)
  | 0, _ => none
  | turns + 1, n =>
      if n = head then some none
      else if found n then some (some n)
      else search step head found turns (step n)

/-- The search along the ring finds the first node of the list that is wanted. -/
theorem Path.search [DecidableEq α] {found : α → Bool} {turns : ℕ} (path : links.Path a l head)
    (fresh : head ∉ l) (enough : l.length < turns) :
    search links.next head found turns (links.next a) = some (l.find? found) := by
  induction l generalizing a turns with
  | nil =>
      cases turns with
      | zero => cases enough
      | succ turns => rw [Links.search, if_pos path.1, List.find?_nil]
  | cons b l ih =>
      rcases List.ne_and_not_mem_of_not_mem_cons fresh with ⟨other, freshTail⟩
      cases turns with
      | zero => cases enough
      | succ turns =>
          rw [Links.search, path.1.1, if_neg (Ne.symm other)]
          cases is : found b with
          | true => rw [if_pos rfl, List.find?_cons_of_pos is]
          | false =>
              rw [if_neg Bool.false_ne_true,
                List.find?_cons_of_neg (by rw [is]; exact Bool.false_ne_true)]
              exact ih path.2 freshTail (Nat.lt_of_succ_lt_succ enough)

theorem Ring.search [DecidableEq α] {found : α → Bool} {turns : ℕ} (ring : links.Ring head l)
    (enough : l.length < turns) :
    search links.next head found turns (links.next head) = some (l.find? found) :=
  ring.path.search (List.nodup_cons.mp ring.nodup).1 enough

/-! ## Relinking -/

variable [DecidableEq α]

def setNext (links : Links α) (n next : α) : Links α :=
  { links with next := Function.update links.next n next }

def setPrev (links : Links α) (n prev : α) : Links α :=
  { links with prev := Function.update links.prev n prev }

/-- `b->next->prev = b->prev; b->prev->next = b->next;` -/
def unlink (links : Links α) (b : α) : Links α :=
  let links₁ := links.setPrev (links.next b) (links.prev b)
  links₁.setNext (links₁.prev b) (links₁.next b)

/-- `b->next = head->next; b->prev = head; head->next->prev = b; head->next = b;` -/
def pushFront (links : Links α) (head b : α) : Links α :=
  let links₁ := links.setNext b (links.next head)
  let links₂ := links₁.setPrev b head
  let links₃ := links₂.setPrev (links₂.next head) b
  links₃.setNext head b

theorem unlink_eq (other : links.next b ≠ b) : links.unlink b =
    ⟨Function.update links.next (links.prev b) (links.next b),
      Function.update links.prev (links.next b) (links.prev b)⟩ := by
  simp only [unlink, setPrev, setNext, Function.update_of_ne other.symm]

theorem pushFront_eq (other : b ≠ head) : links.pushFront head b =
    ⟨Function.update (Function.update links.next b (links.next head)) head b,
      Function.update (Function.update links.prev b head) (links.next head) b⟩ := by
  simp only [pushFront, setPrev, setNext, Function.update_of_ne other.symm]

/-- `head->prev = head; head->next = head;` -/
theorem ring_empty (links : Links α) (head : α) :
    ((links.setPrev head head).setNext head head).Ring head [] where
  path := ⟨Function.update_self _ _ _, Function.update_self _ _ _⟩
  nodup := List.nodup_singleton _

/-- The two links next to `b` are all that changes. -/
theorem Path.unlink (before : links.Path a l₁ b) (after : links.Path b l₂ z)
    (nodup : (a :: l₁ ++ b :: l₂).Nodup) (fresh : z ∉ l₁ ++ b :: l₂) :
    (links.unlink b).Path a (l₁ ++ l₂) z := by
  have notSelf : links.next b ≠ b := by
    intro self
    have mem := after.next_mem
    rw [self, List.mem_append, List.mem_singleton] at mem
    rcases mem with mem | rfl
    · have nodupTail := (List.nodup_append.mp nodup).2.1
      exact (List.nodup_cons.mp nodupTail).1 mem
    · exact fresh (List.mem_append_right _ List.mem_cons_self)
  rw [unlink_eq notSelf]
  induction l₁ generalizing a with
  | nil =>
      rcases before with ⟨_, prevB⟩
      rw [prevB]
      rw [List.cons_append, List.nil_append, List.nodup_cons, List.nodup_cons] at nodup
      have fresh := List.ne_and_not_mem_of_not_mem_cons fresh
      cases l₂ with
      | nil =>
          rw [after.1]
          exact ⟨Function.update_self _ _ _, Function.update_self _ _ _⟩
      | cons c l =>
          rw [after.1.1]
          refine ⟨⟨Function.update_self _ _ _, Function.update_self _ _ _⟩, ?_⟩
          refine after.2.congr (fun n mem => Function.update_of_ne ?_ _ _)
            fun n mem => Function.update_of_ne ?_ _ _
          · rintro rfl
            exact nodup.1 (List.mem_cons_of_mem _ mem)
          · rintro rfl
            rcases List.mem_append.mp mem with mem | mem
            · exact (List.nodup_cons.mp nodup.2.2).1 mem
            · rw [List.mem_singleton.mp mem] at fresh
              exact fresh.2 List.mem_cons_self
  | cons c l ih =>
      rw [List.cons_append, List.nodup_cons] at nodup
      refine ⟨⟨?_, ?_⟩, ih before.2 nodup.2 (fun mem => fresh (List.mem_cons_of_mem _ mem))⟩
      · refine (Function.update_of_ne ?_ _ _).trans before.1.1
        rintro rfl
        exact nodup.1 (List.mem_append_left _ before.2.prev_mem)
      · refine (Function.update_of_ne ?_ _ _).trans before.1.2
        rintro rfl
        rcases List.mem_append.mp after.next_mem with mem | mem
        · have nodupTail := List.disjoint_of_nodup_append nodup.2
          exact nodupTail List.mem_cons_self (List.mem_cons_of_mem _ mem)
        · rw [List.mem_singleton.mp mem] at fresh
          exact fresh List.mem_cons_self

theorem Ring.unlink (ring : links.Ring head (l₁ ++ b :: l₂)) :
    (links.unlink b).Ring head (l₁ ++ l₂) where
  path := by
    rcases path_append.mp ring.path with ⟨before, after⟩
    exact before.unlink after ring.nodup (List.nodup_cons.mp ring.nodup).1
  nodup := by
    refine ring.nodup.sublist ?_
    exact ((List.sublist_cons_self b l₂).append_left l₁).cons_cons head

/-- A node that is linked in behind the head is the first of the list. -/
theorem Ring.pushFront (ring : links.Ring head l) (fresh : b ∉ head :: l) :
    (links.pushFront head b).Ring head (b :: l) where
  path := by
    rcases List.ne_and_not_mem_of_not_mem_cons fresh with ⟨notHead, notIn⟩
    have nodup := ring.nodup
    rw [pushFront_eq notHead]
    have path := ring.path
    cases l with
    | nil =>
        rcases path with ⟨next, prev⟩
        rw [next]
        refine ⟨⟨Function.update_self _ _ _, ?_⟩, ?_, Function.update_self _ _ _⟩
        · exact (Function.update_of_ne notHead _ _).trans (Function.update_self _ _ _)
        · exact (Function.update_of_ne notHead _ _).trans (Function.update_self _ _ _)
    | cons c l =>
        rcases path with ⟨⟨next, prev⟩, rest⟩
        rcases List.ne_and_not_mem_of_not_mem_cons notIn with ⟨notC, notIn⟩
        rw [List.nodup_cons, List.nodup_cons] at nodup
        rw [next]
        refine ⟨⟨Function.update_self _ _ _, ?_⟩, ⟨?_, Function.update_self _ _ _⟩, ?_⟩
        · exact (Function.update_of_ne notC _ _).trans (Function.update_self _ _ _)
        · exact (Function.update_of_ne notHead _ _).trans (Function.update_self _ _ _)
        · refine rest.congr (fun n mem => ?_) fun n mem => ?_
          · refine (Function.update_of_ne ?_ _ _).trans (Function.update_of_ne ?_ _ _)
            · rintro rfl
              exact nodup.1 mem
            · rintro rfl
              rcases List.mem_cons.mp mem with rfl | mem
              · exact notC rfl
              · exact notIn mem
          · refine (Function.update_of_ne ?_ _ _).trans (Function.update_of_ne ?_ _ _)
            · rintro rfl
              rcases List.mem_append.mp mem with mem | mem
              · exact nodup.2.1 mem
              · rw [List.mem_singleton.mp mem] at nodup
                exact nodup.1 List.mem_cons_self
            · rintro rfl
              rcases List.mem_append.mp mem with mem | mem
              · exact notIn mem
              · exact notHead (List.mem_singleton.mp mem)
  nodup := by
    rcases List.ne_and_not_mem_of_not_mem_cons fresh with ⟨notHead, notIn⟩
    rcases List.nodup_cons.mp ring.nodup with ⟨notHead', nodup⟩
    refine List.nodup_cons.mpr ⟨?_, List.nodup_cons.mpr ⟨notIn, nodup⟩⟩
    rintro (_ | _)
    · exact notHead rfl
    · contradiction

/-- Moving a node to the front. -/
theorem Ring.moveToFront (ring : links.Ring head (l₁ ++ b :: l₂)) :
    ((links.unlink b).pushFront head b).Ring head (b :: (l₁ ++ l₂)) := by
  refine ring.unlink.pushFront fun mem => ?_
  have nodup := ring.nodup
  rw [← List.cons_append] at nodup mem
  have moved := List.perm_middle.nodup_iff.mp nodup
  exact (List.nodup_cons.mp moved).1 mem

end Links

end Xv6.DList
