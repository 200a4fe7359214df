import Mathlib.Tactic

/-!
# Tables with free slots

A finite map may be kept as a table of slots, each of which is free or has a key with its
value. An insertion takes any free slot, or a new one at the end, and a deletion frees a
slot, so that the table is in no order. If no key is in two slots, each of the operations is
the one on maps.
-/

namespace Xv6

/-- A table of slots. -/
abbrev Slots (κ ν : Type) := List (Option (κ × ν))

namespace Slots

variable {κ ν : Type} [DecidableEq κ] {t : Slots κ ν} {s : Option (κ × ν)} {k l : κ} {v : ν} {i : ℕ}

/-- The first slot of a key, and the value in it. -/
def find (k : κ) : Slots κ ν → Option (ℕ × ν)
  | [] => none
  | none :: t => (find k t).map fun r => (r.1 + 1, r.2)
  | some (l, v) :: t => if l = k then some (0, v) else (find k t).map fun r => (r.1 + 1, r.2)

def lookup (t : Slots κ ν) (k : κ) : Option ν := (find k t).map Prod.snd

/-- The first free slot, or else the end of the table. -/
def firstFree : Slots κ ν → ℕ
  | [] => 0
  | none :: _ => 0
  | some _ :: t => firstFree t + 1

/-- Slot `i` gets new contents; the table may grow by one slot. -/
def put : Slots κ ν → ℕ → Option (κ × ν) → Slots κ ν
  | [], _, s => [s]
  | _ :: t, 0, s => s :: t
  | x :: t, i + 1, s => x :: put t i s

/-- The keys in the table. -/
def keys (t : Slots κ ν) : List κ := t.filterMap fun s => s.map Prod.fst

/-- No key is in two slots. -/
def Distinct (t : Slots κ ν) : Prop := (keys t).Nodup

/-- Slot `i` is free, or the table ends before it. -/
def FreeAt (t : Slots κ ν) (i : ℕ) : Prop := ∀ x, t[i]? ≠ some (some x)

omit [DecidableEq κ] in
theorem firstFree_le (t : Slots κ ν) : firstFree t ≤ t.length := by
  induction t with
  | nil => exact le_rfl
  | cons x t ih =>
      cases x with
      | none => exact Nat.zero_le _
      | some x => exact Nat.succ_le_succ ih

omit [DecidableEq κ] in
theorem freeAt_firstFree (t : Slots κ ν) : FreeAt t (firstFree t) := by
  induction t with
  | nil => exact fun x => nofun
  | cons y t ih =>
      cases y with
      | none => exact fun x => nofun
      | some y => exact fun x taken => ih x (by simpa [firstFree] using taken)

omit [DecidableEq κ] in
/-- One slot is replaced, and the others stay. -/
theorem getElem?_put (inside : i ≤ t.length) (j : ℕ) : (put t i s)[j]? = if j = i then some s
      else t[j]? := by
  induction t generalizing i j with
  | nil =>
      rcases Nat.le_zero.mp inside with rfl
      cases j with
      | zero => rfl
      | succ j => rfl
  | cons x t ih =>
      cases i with
      | zero =>
          cases j with
          | zero => rfl
          | succ j => rfl
      | succ i =>
          cases j with
          | zero => rfl
          | succ j =>
              simp only [put, List.getElem?_cons_succ, ih (Nat.le_of_succ_le_succ inside),
                Nat.add_right_cancel_iff]

/-! ## Lookups -/

theorem lookup_none_cons : lookup (none :: t) k = lookup t k := by
  simp [lookup, find, Function.comp_def]

theorem lookup_some_cons {x : κ × ν} : lookup (some x :: t) k = if x.1 = k then some x.2
      else lookup t k := by
  rcases x with ⟨l, v⟩
  simp only [lookup, find]
  split
  · rfl
  · simp [Function.comp_def]

/-- The search fails exactly for the keys that are not there. -/
theorem lookup_eq_none : lookup t k = none ↔ k ∉ keys t := by
  induction t with
  | nil => simp [lookup, find, keys]
  | cons x t ih =>
      cases x with
      | none => rw [lookup_none_cons, ih, keys, keys, List.filterMap_cons_none rfl]
      | some x =>
          change _ ↔ k ∉ x.1 :: keys t
          rw [lookup_some_cons, List.mem_cons, not_or]
          by_cases same : x.1 = k
          · simp [same]
          · rw [if_neg same, ih]
            exact (and_iff_right (Ne.symm same)).symm

/-- The key whose slot has been found is there. -/
theorem getElem?_of_find (found : find k t = some (i, v)) : t[i]? = some (some (k, v)) := by
  induction t generalizing i with
  | nil => cases found
  | cons x t ih =>
      have later : (find k t).map (fun r => (r.1 + 1, r.2)) = some (i, v) →
          (x :: t)[i]? = some (some (k, v)) := by
        intro mapped
        rcases Option.map_eq_some_iff.mp mapped with ⟨⟨j, w⟩, rest, same⟩
        cases same
        exact ih rest
      cases x with
      | none => exact later found
      | some x =>
          rcases x with ⟨l, w⟩
          simp only [find] at found
          split at found
          next same =>
            cases found
            rw [same]
            rfl
          next => exact later found

/-! ## Insertion -/

/-- A finite map with the contents of one more slot. -/
def withSlot (s : Option (κ × ν)) (m : κ → Option ν) : κ → Option ν :=
  s.elim m fun x => Function.update m x.1 (some x.2)

@[simp]
theorem withSlot_none (m : κ → Option ν) : withSlot none m = m := rfl

theorem lookup_cons : lookup (s :: t) = withSlot s (lookup t) := by
  funext k
  cases s with
  | none => exact lookup_none_cons
  | some x =>
      rw [lookup_some_cons]
      by_cases same : k = x.1
      · rw [if_pos same.symm, withSlot, Option.elim_some, same, Function.update_self]
      · rw [if_neg (Ne.symm same), withSlot, Option.elim_some, Function.update_of_ne same]

/-- A free slot has been filled. -/
theorem lookup_put (free : FreeAt t i) (new : ∀ x ∈ s, lookup t x.1 = none) :
    lookup (put t i s) = withSlot s (lookup t) := by
  induction t generalizing i with
  | nil => exact lookup_cons
  | cons y t ih =>
      cases i with
      | zero =>
          cases y with
          | some y => exact absurd rfl (free y)
          | none => rw [put, lookup_cons, lookup_cons (s := none), withSlot_none]
      | succ i =>
          have free' : FreeAt t i := fun x taken => free x taken
          have apart : ∀ x ∈ s, lookup t x.1 = none ∧ ∀ z ∈ y, z.1 ≠ x.1 := by
            intro x mem
            have absent := lookup_eq_none.mp (new x mem)
            cases y with
            | none => exact ⟨lookup_eq_none.mpr absent, nofun⟩
            | some y =>
                rcases not_or.mp (List.mem_cons.not.mp absent) with ⟨other, absent⟩
                refine ⟨lookup_eq_none.mpr absent, fun z is => ?_⟩
                cases is
                exact Ne.symm other
          rw [put, lookup_cons, lookup_cons, ih free' fun x mem => (apart x mem).1]
          cases s with
          | none => rfl
          | some x =>
              cases y with
              | none => rfl
              | some y => exact (Function.update_comm ((apart x rfl).2 y rfl) (some y.2) (some x.2)
                (lookup t)).symm

omit [DecidableEq κ] in
/-- A free slot that is filled adds its key. -/
theorem keys_put (free : FreeAt t i) :
    (keys (put t i s)).Perm ((s.map Prod.fst).toList ++ keys t) := by
  induction t generalizing i with
  | nil =>
      cases s with
      | none => exact .refl _
      | some x => exact .refl _
  | cons y t ih =>
      cases i with
      | zero =>
          cases y with
          | some y => exact absurd rfl (free y)
          | none =>
              cases s with
              | none => exact .refl _
              | some x => exact .refl _
      | succ i =>
          have free' : FreeAt t i := fun x taken => free x taken
          cases y with
          | none => exact ih free'
          | some y => exact ((ih free').cons y.1).trans List.perm_middle.symm

theorem Distinct.put (distinct : Distinct t) (free : FreeAt t i)
    (new : ∀ x ∈ s, lookup t x.1 = none) :
    Distinct (put t i s) := by
  refine (keys_put free).nodup_iff.mpr ?_
  cases s with
  | none => exact distinct
  | some x => exact List.nodup_cons.mpr ⟨lookup_eq_none.mp (new x rfl), distinct⟩

/-! ## Deletion -/

/-- A slot that is freed takes its key along, if no other slot has it. -/
theorem lookup_free (distinct : Distinct t) (found : find k t = some (i, v)) :
    lookup (put t i none) = Function.update (lookup t) k none := by
  induction t generalizing i with
  | nil => cases found
  | cons y t ih =>
      have later : ∀ y : Option (κ × ν), (∀ z ∈ y, z.1 ≠ k) → Distinct t →
          (find k t).map (fun r => (r.1 + 1, r.2)) = some (i, v) →
          lookup (put (y :: t) i none) = Function.update (lookup (y :: t)) k none := by
        intro y other distinct mapped
        rcases Option.map_eq_some_iff.mp mapped with ⟨⟨j, w⟩, rest, same⟩
        cases same
        rw [put, lookup_cons, lookup_cons, ih distinct rest]
        cases y with
        | none => rfl
        | some y => exact (Function.update_comm (other y rfl) (some y.2) none (lookup t)).symm
      cases y with
      | none => exact later none nofun distinct found
      | some y =>
          rcases y with ⟨l, w⟩
          rcases List.nodup_cons.mp distinct with ⟨absent, distinct⟩
          simp only [find] at found
          split at found
          next same =>
            cases found
            subst same
            rw [put, lookup_cons, lookup_cons, withSlot, withSlot, Option.elim_none,
              Option.elim_some, Function.update_idem]
            rw [← lookup_eq_none.mpr absent, Function.update_eq_self]
          next other =>
            refine later (some (l, w)) (fun z is => ?_) distinct found
            cases is
            exact other

omit [DecidableEq κ] in
/-- A slot that is freed adds none. -/
theorem keys_free (inside : i < t.length) : (keys (put t i none)).Sublist (keys t) := by
  induction t generalizing i with
  | nil => cases inside
  | cons y t ih =>
      cases i with
      | zero =>
          cases y with
          | none => exact .refl _
          | some y => exact List.sublist_cons_self _ _
      | succ i =>
          have rest := ih (Nat.lt_of_succ_lt_succ inside)
          cases y with
          | none => exact rest
          | some y => exact rest.cons_cons y.1

omit [DecidableEq κ] in
theorem Distinct.free (distinct : Distinct t) (inside : i < t.length) :
    Distinct (Slots.put t i none) :=
  (keys_free inside).nodup distinct

end Slots

end Xv6
