import Xv6.Vm.Uvm

/-!
# Giving pages back

`kfree` on the pages of the running call, and `freevm`, which gives back a whole address
space: the user pages below the shared pages, the page tables and the page directory.
What it leaves out, the pages at the places of the shared pages, stays with the call.
-/

namespace Xv6.Vm

open Prog

variable {L : Link} {m m' m'' : Mem} {o o' o'' o₁ : ℕ → Owner} {p q t d i v n : ℕ}
  {E : Panic → Prop} {T T' : Finset ℕ}

/-! ## Pages that nobody knows of -/

/-- The pages `T` have been put on the free list. -/
structure Released (L : Link) (T : Finset ℕ) (m m' : Mem) (o o' : ℕ → Owner) : Prop where
  owned : Owned L m' o'
  owner : ∀ r, o' r = if r ∈ T then .free else o r
  atom : ∀ r ∈ T, (o r).Atom
  page : ∀ r, r ∉ T → m'.page r = m.page r
  list : ∃ c, m'.freelist = c ++ m.freelist ∧ c.length = T.card
  faults : m'.faults = m.faults
  smAddr : m'.smAddr = m.smAddr
  failed : m'.failed = m.failed
  clean : Tidy m o → m'.misfreed = false

namespace Released

theorem refl (owned : Owned L m o) : Released L ∅ m m o o where
  owned := owned
  owner := fun _ => by simp
  atom := by simp
  page := fun _ _ => rfl
  list := ⟨[], rfl, rfl⟩
  faults := rfl
  smAddr := rfl
  failed := rfl
  clean := fun tidy => tidy.clean

theorem one (owned : Owned L m o) (atom : (o p).Atom) (notFree : o p ≠ .free) :
    Released L {p} m (m.release p) o (Function.update o p .free) where
  owned := owned.release atom notFree
  owner := by
    intro r
    by_cases same : r = p
    · subst same
      simp
    · simp [same]
  atom := by
    intro r mem
    rwa [Finset.mem_singleton.mp mem]
  page := fun r other => Mem.fill_page_of_ne (by simpa using other) _
  list := ⟨[p], rfl, rfl⟩
  faults := rfl
  smAddr := rfl
  failed := rfl
  clean := fun tidy => owned.release_clean tidy atom notFree

theorem of_notMem (released : Released L T m m' o o') {r : ℕ} (other : r ∉ T) : o' r = o r := by
  rw [released.owner, if_neg other]

/-- Pages with another kind of owner stay with it. -/
theorem stays (released : Released L T m m' o o') {r : ℕ} (other : ¬(o r).Atom) : o' r = o r :=
  released.of_notMem fun mem => other (released.atom r mem)

/-- What has been released is tidy. -/
theorem tidy (released : Released L T m m' o o') (tidy : Tidy m o) : Tidy m' o' where
  shared := by
    intro k
    rw [released.smAddr]
    refine (tidy.shared k).imp_right fun owner => ?_
    rw [released.stays, owner]
    rw [owner]
    exact id
  clean := released.clean tidy

theorem trans (first : Released L T m m' o o') (second : Released L T' m' m'' o' o'')
    (disjoint : Disjoint T T') : Released L (T ∪ T') m m'' o o'' where
  owned := second.owned
  owner := by
    intro r
    rw [second.owner, first.owner]
    by_cases late : r ∈ T'
    · simp [late]
    · simp [late]
  atom := by
    intro r mem
    rcases Finset.mem_union.mp mem with early | late
    · exact first.atom r early
    · rw [← first.of_notMem (Finset.disjoint_right.mp disjoint late)]
      exact second.atom r late
  page := by
    intro r other
    rw [Finset.mem_union, not_or] at other
    rw [second.page r other.2, first.page r other.1]
  list := by
    rcases first.list with ⟨c, list, count⟩
    rcases second.list with ⟨c', list', count'⟩
    refine ⟨c' ++ c, by rw [list', list, List.append_assoc], ?_⟩
    rw [List.length_append, count, count', Finset.card_union_of_disjoint disjoint, Nat.add_comm]
  faults := second.faults.trans first.faults
  smAddr := second.smAddr.trans first.smAddr
  failed := second.failed.trans first.failed
  clean := fun tidy => second.clean (first.tidy tidy)

theorem pte (released : Released L T m m' o o') (owned : Owned L m o) (isDir : o q = .dir)
    (inside : v < 2 ^ 20) : m'.pte q v = m.pte q v := by
  refine owned.pte_congr (fun r holds => released.page r fun mem => ?_) isDir inside
  have atom := released.atom r mem
  revert atom holds
  cases o r <;> simp [Owner.Atom, Owner.HoldsEntries]

end Released

/-- `kfree` of a page that only the running call, or one object, knows of. -/
theorem meets_kfree_atom {Q : Unit → Mem → Prop} (owned : Owned L m o) (atom : (o p).Atom)
    (notFree : o p ≠ .free)
    (post : ∀ m' o', Released L {p} m m' o o' → Q () m') : Meets (kfree L p) m E Q := by
  refine meets_kfree owned ?_ (post _ _ (Released.one owned atom notFree))
  intro outside
  rw [outside] at atom
  exact atom

/-! ## Page tables -/

/-- The loop over the page directory gives back the page tables, which no page is mapped by any
more. -/
theorem meets_freeTables {Q : Unit → Mem → Prop} (owned : Owned L m o)
    (notTable : ∀ d, o₁ q ≠ .table q d) (bound : i + n = NPDENTRIES)
    (entries : ∀ d, i ≤ d → d < NPDENTRIES → m.entry q d = 0 ∨ ∃ t, Links (m.entry q d) t ∧
      o₁ t = .table q d) (held : ∀ t d, o₁ t = .table q d → i ≤ d → o t = .temp)
    (post : ∀ m' o' T, Released L T m m' o o' → (∀ t ∈ T, ∃ d, i ≤ d ∧ o₁ t = .table q d) →
      (∀ t d, i ≤ d → d < NPDENTRIES → Links (m.entry q d) t → t ∈ T) → Q () m') :
    Meets (freeTables L q n i) m E Q := by
  induction n generalizing m o i with
  | zero =>
      refine post m o ∅ (Released.refl owned) (fun t none => absurd none (Finset.notMem_empty t)) ?_
      intro t d above below
      omega
  | succ n ih =>
      rw [freeTables]
      refine meets_bind (meets_get ?_)
      rcases entries i le_rfl (by omega) with none | ⟨t, linked, table⟩
      · simp only [none, present_zero, Bool.false_eq_true, if_false]
        refine ih owned (by omega) (fun d after => entries d (by omega))
          (fun t d table after => held t d table (by omega)) fun m' o' T released tables all => ?_
        refine post m' o' T released (fun t mem => ?_) fun t d after inside linked => ?_
        · rcases tables t mem with ⟨d, after, table⟩
          exact ⟨d, by omega, table⟩
        · rcases after.eq_or_lt with rfl | later
          · exact absurd none linked.ne_zero
          · exact all t d later inside linked
      · simp only [linked.1, linked.2, if_true]
        have temp : o t = .temp := held t i table le_rfl
        have atom : (o t).Atom := by
          rw [temp]
          trivial
        refine meets_bind (meets_kfree_atom owned atom (by rw [temp]; nofun) fun m₁ o₂ one => ?_)
        have notDir : q ∉ ({t} : Finset ℕ) := by
          rw [Finset.mem_singleton]
          rintro rfl
          exact notTable i table
        have entry : ∀ d, m₁.entry q d = m.entry q d := fun d => Mem.entry_congr (one.page q notDir)
        refine ih one.owned (by omega) ?_ ?_ ?_
        · intro d after inside
          rw [entry]
          exact entries d (by omega) inside
        · intro t' d table' after
          have other : t' ∉ ({t} : Finset ℕ) := by
            rw [Finset.mem_singleton]
            rintro rfl
            rw [table] at table'
            cases table'
            omega
          rw [one.of_notMem other]
          exact held t' d table' (by omega)
        · intro m' o' T released tables all
          refine post m' o' ({t} ∪ T) (one.trans released ?_) ?_ ?_
          · rw [Finset.disjoint_singleton_left]
            intro again
            rcases tables t again with ⟨d, after, table'⟩
            rw [table] at table'
            cases table'
            omega
          · intro t' mem
            rcases Finset.mem_union.mp mem with first | later
            · rw [Finset.mem_singleton.mp first]
              exact ⟨i, le_rfl, table⟩
            · rcases tables t' later with ⟨d, after, table'⟩
              exact ⟨d, by omega, table'⟩
          · intro t' d after inside linked'
            rcases after.eq_or_lt with rfl | later
            · rw [← linked.unique linked']
              exact Finset.mem_union_left _ (Finset.mem_singleton_self t)
            · refine Finset.mem_union_right _ (all t' d later inside ?_)
              rwa [entry]

/-! ## Address spaces -/

/-- The address space of directory `q` has been given back. -/
structure Freed (L : Link) (q : ℕ) (m m' : Mem) (o o' : ℕ → Owner) : Prop where
  owned : Owned L m' o'
  gone : o' q = .free
  others : ∀ r, ¬Belongs o q r → o' r = o r
  given : ∀ r, Belongs o q r → o' r = .free ∨ o' r = .temp
  pte : ∀ q' v, q' ≠ q → o q' = .dir → v < 2 ^ 20 → m'.pte q' v = m.pte q' v
  page : ∀ r, r ≠ q → ¬Mine q (o r) → o r ≠ .outside → m'.page r = m.page r
  smAddr : m'.smAddr = m.smAddr
  faults : m'.faults = m.faults
  failed : m'.failed = m.failed
  clean : Tidy m o → m'.misfreed = false

/-- Pages of others stay. -/
theorem Freed.stays (freed : Freed L q m m' o o') {r : ℕ} (notMine : ¬Mine q (o r))
    (other : r ≠ q) : o' r = o r := by
  refine freed.others r ?_
  rintro (same | ⟨d, table⟩ | ⟨v, user⟩)
  · exact other same
  · rw [table] at notMine
    exact notMine rfl
  · rw [user] at notMine
    exact notMine rfl

theorem Owned.belongs_of_cleared {w : ℕ} (cleared : Cleared L q v w m m' o o') {r : ℕ}
    (belongs : Belongs o' q r) : Belongs o q r := by
  rcases cleared.freed r with same | ⟨_, v', _, user⟩
  · simpa only [Belongs, same] using belongs
  · exact Or.inr (Or.inr ⟨v', user⟩)

/-- The pages that were mapped are on the free list, and the call holds what is left of `q`. -/
theorem Cleared.freed_of_released {w : ℕ} (cleared : Cleared L q v w m m' o o₁)
    (owned : Owned L m o) (released : Released L (T ∪ {q}) m' m'' (retired .temp o₁ q) o')
    (tables : ∀ t ∈ T, ∃ d, o₁ t = .table q d) : Freed L q m m'' o o' := by
  have isDir := cleared.edited.kept.isDir
  have inTables : ∀ r ∈ T ∪ {q}, Belongs o₁ q r := by
    intro r mem
    rcases Finset.mem_union.mp mem with mem | same
    · exact Or.inr (Or.inl (tables r mem))
    · exact Or.inl (Finset.mem_singleton.mp same)
  have kept : ∀ r, ¬Belongs o₁ q r → o' r = o₁ r := by
    intro r other
    rw [released.of_notMem fun mem => other (inTables r mem), retired_of_not_belongs other]
  have dirs : ∀ r, o r = .dir → r ≠ q → ¬Belongs o₁ q r ∧ o₁ r = .dir := by
    intro r dir other
    have dir' : o₁ r = .dir := cleared.edited.kept.dir_iff.mpr dir
    refine ⟨?_, dir'⟩
    rintro (same | ⟨d, table⟩ | ⟨v', user⟩)
    · exact other same
    · rw [dir'] at table
      cases table
    · rw [dir'] at user
      cases user
  refine ⟨released.owned, ?_, ?_, ?_, ?_, ?_, ?_, ?_, ?_, ?_⟩
  · rw [released.owner, if_pos (Finset.mem_union_right _ (Finset.mem_singleton_self q))]
  · intro r other
    rw [kept r fun belongs => other (Owned.belongs_of_cleared cleared belongs)]
    refine (cleared.freed r).resolve_right ?_
    rintro ⟨_, v', _, user⟩
    exact other (Or.inr (Or.inr ⟨v', user⟩))
  · intro r belongs
    rw [released.owner]
    by_cases mem : r ∈ T ∪ {q}
    · exact Or.inl (if_pos mem)
    · rw [if_neg mem]
      rcases cleared.freed r with same | ⟨isFree, _⟩
      · exact Or.inr (retired_of_belongs (by simpa only [Belongs, same] using belongs))
      · by_cases belongs' : Belongs o₁ q r
        · exact Or.inr (retired_of_belongs belongs')
        · rw [retired_of_not_belongs belongs']
          exact Or.inl isFree
  · intro q' v' other dir inside
    rcases dirs q' dir other with ⟨notMine, dir'⟩
    have owned' := cleared.edited.owned.retire cleared.edited.isDir (x := .temp) trivial nofun
    rw [released.pte owned' (by rw [retired_of_not_belongs notMine, dir']) inside]
    exact cleared.edited.kept.pte owned other dir inside
  · intro r other notMine known
    rw [released.page r, cleared.edited.kept.page r other notMine known]
    intro mem
    rcases inTables r mem with same | ⟨d, table⟩ | ⟨v', user⟩
    · exact other same
    · rw [cleared.edited.kept.same notMine] at table
      rw [table] at notMine
      exact notMine rfl
    · rw [cleared.edited.kept.same notMine] at user
      rw [user] at notMine
      exact notMine rfl
  · exact released.smAddr.trans cleared.edited.kept.smAddr
  · exact released.faults.trans cleared.faults
  · exact released.failed.trans cleared.failed
  · intro tidy
    have tidy' := cleared.edited.kept.tidy tidy
    refine released.clean ⟨fun k => (tidy'.shared k).imp_right fun owner => ?_, tidy'.clean⟩
    rw [retired_of_not_belongs, owner]
    rintro (same | ⟨d, table⟩ | ⟨v', user⟩)
    · rw [same, cleared.edited.isDir] at owner
      cases owner
    · rw [owner] at table
      cases table
    · rw [owner] at user
      cases user

/-- The pages of directory `q` below `top` and its page tables are all on the free list again. -/
def FreedBelow (q top : ℕ) (o o' : ℕ → Owner) : Prop :=
  ∀ r, Belongs o q r → (∀ v, o r = .user q v → v < pages top) → o' r = .free

/-- What both versions of `freevm` do, with their own upper ends of the user pages. -/
theorem meets_free_space {top : ℕ} {Q : Unit → Mem → Prop} (owned : Owned L m o)
    (isDir : o q = .dir) (small : top ≤ KERNBASE) (positive : 0 < top)
    (user : ∀ v ∈ Set.Ico (pages 0) (pages top), m.pte q v ≠ 0 →
      o (pteAddr (m.pte q v)) = .user q v)
    (post : ∀ m' o', Freed L q m m' o o' → FreedBelow q top o o' → Q () m') : Meets (do
      let _ ← deallocuvm L q top 0
      freeTables L q NPDENTRIES 0
      kfree L q) m E Q := by
  refine meets_bind (meets_deallocuvm owned isDir small user ?_ ?_)
  · intro none
    omega
  · intro _ m₁ o₁ cleared
    have dir := cleared.edited.isDir
    have owned₁ := cleared.edited.owned
    have owned₂ := owned₁.retire dir (x := .temp) trivial nofun
    have notTable : ∀ d, o₁ q ≠ .table q d := by
      intro d table
      rw [dir] at table
      cases table
    refine meets_bind (meets_freeTables owned₂ notTable (Nat.zero_add _)
      (fun d _ index => owned₁.pde q d dir index)
      (fun t d table _ => retired_of_belongs (Or.inr (Or.inl ⟨d, table⟩)))
      fun m₂ o₂ T released tables all => ?_)
    have fresh : q ∉ T := by
      intro mem
      rcases tables q mem with ⟨d, _, table⟩
      exact notTable d table
    have temp : o₂ q = .temp := by
      rw [released.of_notMem fresh]
      exact retired_of_belongs (Or.inl rfl)
    refine meets_kfree_atom released.owned (by rw [temp]; trivial) (by rw [temp]; nofun)
      fun m₃ o₃ last => ?_
    have both := released.trans last (Finset.disjoint_singleton_right.mpr fresh)
    refine post m₃ o₃ (cleared.freed_of_released owned both fun t mem => ?_) fun r belongs low => ?_
    · rcases tables t mem with ⟨d, _, table⟩
      exact ⟨d, table⟩
    · rw [both.owner]
      by_cases mem : r ∈ T ∪ {q}
      · exact if_pos mem
      · rw [if_neg mem]
        rcases belongs with rfl | ⟨d, table⟩ | ⟨v, owner⟩
        · exact absurd (Finset.mem_union_right _ (Finset.mem_singleton_self r)) mem
        · have table₁ : o₁ r = .table q d := by
            rcases cleared.freed r with same | ⟨_, v, _, user'⟩
            · rw [same, table]
            · rw [table] at user'
              cases user'
          rcases owned₁.table r q d table₁ with ⟨_, index, linked⟩
          exact absurd (Finset.mem_union_left _ (all r d (Nat.zero_le d) index linked)) mem
        · have free : o₁ r = .free := by
            rcases cleared.freed r with same | ⟨free, _⟩
            · have here := (owned₁.user r q v (same.trans owner)).2.2.1
              rw [cleared.zero v (Set.mem_Ico.mpr ⟨Nat.zero_le v, low v owner⟩)] at here
              cases here
            · exact free
          rw [retired_of_not_belongs, free]
          rintro (same | ⟨d, table⟩ | ⟨v', user'⟩)
          · exact mem (Finset.mem_union_right _ (Finset.mem_singleton.mpr same))
          · rw [free] at table
            cases table
          · rw [free] at user'
            cases user'

/-- `freevm` frees the directory and what belongs to it below the shared pages. -/
theorem meets_freevm {Q : Unit → Mem → Prop} (owned : Owned L m o) (isDir : o q = .dir)
    (post : ∀ m' o', Freed L q m m' o o' → FreedBelow q (KERNBASE - NSHAREPAGE * PGSIZE) o o' →
      Q () m') :
    Meets (freevm L q) m E Q := by
  have known : o q ≠ .outside := by
    rw [isDir]
    nofun
  have size : pages (KERNBASE - NSHAREPAGE * PGSIZE) = USERTOP - NSHAREPAGE := by decide
  refine meets_ite (fun zero => absurd zero (owned.page_pos known)) fun _ => ?_
  refine meets_free_space owned isDir (Nat.sub_le _ _) (by decide) ?_ post
  intro v mem mapped
  rw [size] at mem
  exact owned.user_of_present isDir mem.2 mapped

end Xv6.Vm
