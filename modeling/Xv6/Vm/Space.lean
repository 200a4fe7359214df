import Xv6.Vm.Map
import Xv6.Vm.Skip

/-!
# Address spaces

`deallocuvm`, `allocuvm`, `freevm` and `setupkvm`. They keep the owners right as long as no
shared page is mapped in the range they work on: `deallocuvm` frees every page it finds
there, and `allocuvm` calls it for its whole range when memory runs out.
-/

namespace Xv6.Vm

open Prog

variable {L : Link} {m m' m'' : Mem} {o o' o'' : ℕ → Owner} {p q t d i v w e n : ℕ}
  {E : Panic → Prop}

/-! ## Deallocation -/

/-- The entries of `q` in a range have been cleared and their pages put on the free list. -/
structure Cleared (L : Link) (q v w : ℕ) (m m' : Mem) (o o' : ℕ → Owner) : Prop where
  edited : Edited L q (Set.Ico v w) m m' o o'
  zero : ∀ v' ∈ Set.Ico v w, m'.pte q v' = 0
  freed : ∀ r, o' r = o r ∨ o' r = .free ∧ ∃ v' ∈ Set.Ico v w, o r = .user q v'
  pushed : ∃ c, m'.freelist = c ++ m.freelist ∧
    c.length = ((Finset.Ico v w).filter fun v' => m.pte q v' ≠ 0).card
  faults : m'.faults = m.faults
  failed : m'.failed = m.failed

namespace Cleared

theorem refl (owned : Owned L m o) (isDir : o q = .dir) (empty : w ≤ v) :
    Cleared L q v w m m o o where
  edited := Edited.refl owned isDir
  zero := by
    intro v' mem
    rw [Set.mem_Ico] at mem
    omega
  freed := fun _ => Or.inl rfl
  pushed := ⟨[], rfl, by simp [Finset.Ico_eq_empty_of_le empty]⟩
  faults := rfl
  failed := rfl

theorem trans (first : Cleared L q v n m m' o o') (second : Cleared L q n w m' m'' o' o'')
    (lower : v ≤ n) (upper : n ≤ w) (inside : w ≤ 2 ^ 20) : Cleared L q v w m m'' o o'' where
  edited := (first.edited.mono (Set.Ico_subset_Ico_right upper)).trans
    (second.edited.mono (Set.Ico_subset_Ico_left lower))
  zero := by
    intro v' mem
    rw [Set.mem_Ico] at mem
    by_cases early : v' < n
    · rw [second.edited.pte v' (by rw [Set.mem_Ico]; omega) (by omega)]
      exact first.zero v' (Set.mem_Ico.mpr ⟨mem.1, early⟩)
    · exact second.zero v' (Set.mem_Ico.mpr ⟨by omega, mem.2⟩)
  freed := by
    intro r
    rcases second.freed r with same | ⟨isFree, v', mem, user⟩
    · rcases first.freed r with same' | ⟨isFree, v', mem, user⟩
      · exact Or.inl (same.trans same')
      · exact Or.inr ⟨same.trans isFree, v', Set.Ico_subset_Ico_right upper mem, user⟩
    · rcases first.freed r with same' | ⟨isFree', _⟩
      · exact Or.inr ⟨isFree, v', Set.Ico_subset_Ico_left lower mem, same' ▸ user⟩
      · rw [isFree'] at user
        cases user
  pushed := by
    rcases first.pushed with ⟨c, list, count⟩
    rcases second.pushed with ⟨c', list', count'⟩
    refine ⟨c' ++ c, by rw [list', list, List.append_assoc], ?_⟩
    have old : ((Finset.Ico n w).filter fun v' => m'.pte q v' ≠ 0) =
        (Finset.Ico n w).filter fun v' => m.pte q v' ≠ 0 := by
      refine Finset.filter_congr fun v' mem => ?_
      rw [Finset.mem_Ico] at mem
      rw [first.edited.pte v' (by rw [Set.mem_Ico]; omega) (by omega)]
    rw [List.length_append, count, count', old, Nat.add_comm,
      ← Finset.Ico_union_Ico_eq_Ico lower upper,
      Finset.filter_union, Finset.card_union_of_disjoint]
    exact Finset.disjoint_filter_filter (Finset.Ico_disjoint_Ico_consecutive v n w)
  faults := second.faults.trans first.faults
  failed := second.failed.trans first.failed

/-- Nothing is mapped in the range. -/
theorem of_zero (owned : Owned L m o) (isDir : o q = .dir)
    (zero : ∀ v' ∈ Set.Ico v w, m.pte q v' = 0) : Cleared L q v w m m o o where
  edited := Edited.refl owned isDir
  zero := zero
  freed := fun _ => Or.inl rfl
  pushed := by
    refine ⟨[], rfl, ?_⟩
    rw [List.length_nil, eq_comm, Finset.card_eq_zero, Finset.filter_eq_empty_iff]
    intro v' mem mapped
    exact mapped (zero v' (by rwa [Finset.mem_Ico] at mem))
  faults := rfl
  failed := rfl

end Cleared

theorem Mem.release_setEntry (other : t ≠ p) :
    (m.release p).setEntry t i e = (m.setEntry t i e).release p := by
  simp only [Mem.release, Mem.setEntry, Mem.fill, Mem.junk, Function.update_of_ne other]
  rw [Function.update_comm other.symm]
  rfl

namespace Cleared

/-- The page behind one entry is freed, and the entry cleared after that. -/
theorem one (owned : Owned L m o) (table : o t = .table q (v / NPTENTRIES)) (inside : v < 2 ^ 20)
    (entry : m.pte q v = m.entry t (v % NPTENTRIES)) (mapped : m.pte q v ≠ 0)
    (user : o (pteAddr (m.pte q v)) = .user q v) :
    ∃ o', Cleared L q v (v + 1) m
      ((m.release (pteAddr (m.pte q v))).setEntry t (v % NPTENTRIES) 0) o o' := by
  have index : v % NPTENTRIES < NPTENTRIES := Nat.mod_lt _ (by decide)
  have place : v = v / NPTENTRIES * NPTENTRIES + v % NPTENTRIES := (Nat.div_add_mod' _ _).symm
  have isDir := (owned.table t q _ table).1
  generalize page : pteAddr (m.pte q v) = r at user ⊢
  have notTable : t ≠ r := by
    rintro rfl
    rw [user] at table
    cases table
  have notDir : q ≠ r := by
    rintro rfl
    rw [user] at isDir
    cases isDir
  have only : ∀ r', o r' = .user q v → r' = r := by
    intro r' user'
    rw [← page, ← (owned.user r' q v user').2.2.2]
  have owner : Function.update o r .temp r = .temp := Function.update_self _ _ _
  have cleared : Owned L (m.setEntry t (v % NPTENTRIES) 0) (Function.update o r .temp) := by
    refine owned.setPte table index (by decide) place ?_ (Or.inl rfl) ?_
    · intro r'
      by_cases same : r' = r
      · subst same
        exact Or.inr ⟨Or.inr user, Or.inl owner⟩
      · exact Or.inl (Function.update_of_ne same _ _)
    · intro r' user'
      by_cases same : r' = r
      · rw [same, owner] at user'
        cases user'
      · rw [Function.update_of_ne same] at user'
        exact absurd (only r' user') same
  have freed := cleared.release (p := r) (by rw [owner]; trivial) (by rw [owner]; simp)
  rw [Function.update_idem] at freed
  have dir : Function.update o r .temp q = .dir := by rw [Function.update_of_ne notDir, isDir]
  have walk : ∀ v' < 2 ^ 20, ((m.setEntry t (v % NPTENTRIES) 0).release r).pte q v' =
      if v' = v then 0 else m.pte q v' := by
    intro v' inside'
    rw [cleared.release_pte (by rw [owner]; trivial) dir inside',
      owned.setEntry_pte table index (by decide) isDir inside', ← place]
    simp
  rw [Mem.release_setEntry notTable]
  refine ⟨Function.update o r .free, ⟨freed, ⟨⟨isDir, ?_, ?_, rfl, id, ?_⟩, ?_⟩, ?_, ?_⟩,
    ?_, ?_, ?_,
    rfl, rfl⟩
  · intro r'
    by_cases same : r' = r
    · subst same
      rw [Function.update_self, user]
      exact Or.inr ⟨rfl, trivial⟩
    · exact Or.inl (Function.update_of_ne same _ _)
  · intro r' _ notMine _
    have notFreed : r' ≠ r := by
      rintro rfl
      rw [user] at notMine
      exact notMine rfl
    have notWritten : r' ≠ t := by
      rintro rfl
      rw [table] at notMine
      exact notMine rfl
    rw [show ((m.setEntry t (v % NPTENTRIES) 0).release r).page r' =
      (m.setEntry t (v % NPTENTRIES) 0).page r' from Mem.fill_page_of_ne notFreed _,
      Mem.setEntry_page_of_ne notWritten]
  · intro tidy
    refine cleared.release_clean ⟨fun k => ?_, tidy.clean⟩ (by rw [owner]; trivial)
      (by rw [owner]; simp)
    rcases tidy.shared k with zero | shared
    · exact Or.inl zero
    · refine Or.inr ?_
      rw [show (m.setEntry t (v % NPTENTRIES) 0).smAddr = m.smAddr from rfl,
        Function.update_of_ne, shared]
      intro same
      rw [same, user] at shared
      cases shared
  · intro r' temp
    by_cases same : r' = r
    · rw [same, Function.update_self] at temp
      cases temp
    · rwa [Function.update_of_ne same] at temp
  · intro v' outside inside'
    rw [walk v' inside', if_neg]
    rw [Set.mem_Ico] at outside
    omega
  · intro d _
    have notTable' : q ≠ t := by
      rintro rfl
      rw [isDir] at table
      cases table
    rw [Mem.release_entry notDir, Mem.entry_setEntry_of_page notTable']
  · intro v' mem
    rw [Set.mem_Ico] at mem
    rw [walk v' (by omega), if_pos (by omega)]
  · intro r'
    by_cases same : r' = r
    · subst same
      exact Or.inr ⟨Function.update_self _ _ _, v, Set.mem_Ico.mpr ⟨le_rfl, by omega⟩, user⟩
    · exact Or.inl (Function.update_of_ne same _ _)
  · refine ⟨[r], rfl, ?_⟩
    rw [Nat.Ico_succ_singleton, Finset.filter_singleton, if_pos mapped]
    rfl

end Cleared

/-- A visit frees the page that is mapped, if the directory owns it. -/
theorem meets_visit_owned (owned : Owned L m o) (isDir : o q = .dir) (inside : v < 2 ^ 20)
    (user : m.pte q v ≠ 0 → o (pteAddr (m.pte q v)) = .user q v) :
    Meets (visit L q v) m E fun _ m' => ∃ o', Cleared L q v (v + 1) m m' o o' := by
  have nothing : m.pte q v = 0 → ∃ o', Cleared L q v (v + 1) m m o o' := by
    intro zero
    refine ⟨o, Cleared.of_zero owned isDir fun x mem => ?_⟩
    rw [Set.mem_Ico] at mem
    rwa [show x = v by omega]
  refine meets_bind (meets_walk owned isDir inside (fun absent _ => ?_) fun t table entry => ?_)
  · exact meets_pure (nothing (Mem.pte_of_none absent))
  · refine (?_ : Meets (deallocPte L _ _) m E _)
    refine meets_bind (meets_get ?_)
    simp only [← entry]
    by_cases mapped : m.pte q v = 0
    · rw [mapped]
      exact meets_pure (nothing mapped)
    · have owner := user mapped
      have known : o (pteAddr (m.pte q v)) ≠ .outside := by
        rw [owner]
        simp
      rw [if_pos (owned.present_of_ne_zero isDir inside mapped), if_neg (owned.page_pos known)]
      refine meets_bind (meets_kfree owned known (meets_modify ?_))
      exact Cleared.one owned table inside entry mapped owner

/-- The visits to `n` pages, if they find only pages that the directory owns. -/
theorem meets_visitAll_owned (owned : Owned L m o) (isDir : o q = .dir) (top : v + n ≤ 2 ^ 20)
    (user : ∀ x ∈ Set.Ico v (v + n), m.pte q x ≠ 0 → o (pteAddr (m.pte q x)) = .user q x) :
    Meets (visitAll L q n v) m E fun _ m' => ∃ o', Cleared L q v (v + n) m m' o o' := by
  induction n generalizing v m o with
  | zero => exact meets_pure ⟨o, Cleared.refl owned isDir le_rfl⟩
  | succ n ih =>
      have first := meets_visit_owned (E := E) owned isDir (by omega)
        (user v (Set.mem_Ico.mpr (by omega)))
      refine first.bind fun _ m' ⟨o', cleared⟩ => ?_
      refine (ih cleared.edited.owned cleared.edited.isDir (by omega) ?_).mono (fun _ => id) ?_
      · intro x mem mapped
        rw [Set.mem_Ico] at mem
        rw [cleared.edited.pte x (by rw [Set.mem_Ico]; omega) (by omega)] at mapped ⊢
        have owner := user x (Set.mem_Ico.mpr (by omega)) mapped
        rcases cleared.freed (pteAddr (m.pte q x)) with same | ⟨_, y, mem', user'⟩
        · rw [same, owner]
        · rw [owner] at user'
          cases user'
          rw [Set.mem_Ico] at mem'
          omega
      · rintro _ m'' ⟨o'', cleared'⟩
        rw [Nat.add_assoc, Nat.add_comm 1 n] at cleared'
        exact ⟨o'', cleared.trans cleared' (by omega) (by omega) top⟩

end Xv6.Vm
