import Xv6.Vm.Alloc

/-!
# Page tables and their owners

`walkpgdir` and `mappages`. A walk that allocates changes no entry; a mapping changes
the entries of its range, which were zero before.
-/

namespace Xv6.Vm

open Prog

variable {L : Link} {m m' m'' : Mem} {o o' o'' : ℕ → Owner} {p q t d i v e n : ℕ}
  {E : Panic → Prop}

/-! ## Walks -/

theorem div_lt_NPDENTRIES (inside : v < 2 ^ 20) : v / NPTENTRIES < NPDENTRIES := by
  simp only [NPTENTRIES, NPDENTRIES]
  omega

/-- A walk that does not allocate. -/
theorem meets_walk {Q : Option (ℕ × ℕ) → Mem → Prop} (owned : Owned L m o) (isDir : o q = .dir)
    (inside : v < 2 ^ 20) (none : m.entry q (v / NPTENTRIES) = 0 → m.pte q v = 0 → Q none m)
    (some : ∀ t, o t = .table q (v / NPTENTRIES) → m.pte q v = m.entry t (v % NPTENTRIES) →
      Q (some (t, v % NPTENTRIES)) m) :
    Meets (walkpgdir q (v * PGSIZE) false) m E Q := by
  unfold walkpgdir
  refine meets_bind (meets_get ?_)
  rw [PDX_page inside, PTX_page]
  rcases owned.pte_cases isDir inside with ⟨absent, zero⟩ | ⟨t, linked, table, eq⟩
  · rw [absent]
    exact none absent zero
  · simp only [linked.1, linked.2, if_true]
    exact some t table eq

/-- Directory `q` has a page table at index `d`; it is one that was there or a new one. -/
structure Linked (L : Link) (q d t : ℕ) (m m' : Mem) (o o' : ℕ → Owner) : Prop where
  owned : Owned L m' o'
  table : o' t = .table q d
  kept : Kept q m m' o o'
  stays : ∀ p, o p ≠ .free → o' p = o p
  pte : ∀ q' v, o q' = .dir → v < 2 ^ 20 → m'.pte q' v = m.pte q' v
  pde : ∀ d', d' ≠ d → m'.entry q d' = m.entry q d'
  drawn : ∀ S, d ∈ S → Drawn S q 0 m m'

/-- A table that is linked is not missing any more. -/
theorem missing_setEntry {S : Finset ℕ} (mem : d ∈ S) (zero : m.entry q d = 0) (nonzero : e ≠ 0)
    (word : e < 2 ^ 32) (index : d < NPTENTRIES) :
    missing S q (m.setEntry q d e) + 1 = missing S q m := by
  have same : (S.filter fun d' => (m.setEntry q d e).entry q d' = 0) =
      (S.filter fun d' => m.entry q d' = 0).erase d := by
    ext d'
    simp only [Finset.mem_filter, Finset.mem_erase]
    by_cases here : d' = d
    · subst here
      rw [Mem.entry_setEntry_self index word]
      simp [nonzero]
    · rw [Mem.entry_setEntry_of_index here]
      simp [here]
  rw [missing, missing, same]
  exact Finset.card_erase_add_one (Finset.mem_filter.mpr ⟨mem, zero⟩)

/-- A fresh page becomes the page table of directory `q` at index `d`. -/
theorem Taken.linked {t : ℕ} (taken : Taken L t m m' o) (isDir : o q = .dir)
    (none : m.entry q d = 0) (index : d < NPDENTRIES) :
    Linked L q d t m ((m'.zero t).setEntry q d (pdeOf t)) o (Function.update o t (.table q d)) := by
  have notDir : q ≠ t := by
    rintro rfl
    rw [taken.free] at isDir
    cases isDir
  have temp : Function.update o t .temp t = .temp := Function.update_self _ _ _
  have dir : Function.update o t .temp q = .dir := by rw [Function.update_of_ne notDir, isDir]
  have zeroed : Owned L (m'.zero t) (Function.update o t .temp) := by
    refine taken.owned.of_kept (fun r holds => ?_) rfl rfl
    apply Mem.fill_page_of_ne
    rintro rfl
    rw [temp] at holds
    exact holds
  have none' : (m'.zero t).entry q d = 0 := by
    rw [Mem.zero, Mem.entry_fill_of_ne notDir, taken.entry, none]
  have zeros : ∀ i, (m'.zero t).entry t i = 0 := fun _ => Mem.entry_zero
  have page : t < 2 ^ 20 := taken.owned.page_lt (by rw [temp]; simp)
  have owner : Function.update (Function.update o t .temp) t (.table q d) =
      Function.update o t (.table q d) := Function.update_idem _ _ _
  have owned := zeroed.linkTable temp zeros dir none' index
  rw [owner] at owned
  refine ⟨owned, Function.update_self _ _ _, ⟨⟨isDir, ?_, ?_, taken.smAddr, ?_, ?_⟩, ?_⟩, ?_, ?_,
    ?_, ?_⟩
  · intro r
    by_cases same : r = t
    · subst same
      rw [Function.update_self, taken.free]
      exact Or.inr ⟨trivial, rfl⟩
    · exact Or.inl (Function.update_of_ne same _ _)
  · intro r other notMine _
    have notTable : r ≠ t := by
      rintro rfl
      rw [taken.free] at notMine
      exact notMine trivial
    rw [Mem.setEntry_page_of_ne other, Mem.zero, Mem.fill_page_of_ne notTable, taken.page]
  · intro failed
    exact taken.failed.trans failed
  · intro tidy
    exact taken.misfreed.trans tidy.clean
  · intro r isTemp
    by_cases same : r = t
    · rw [same, Function.update_self] at isTemp
      cases isTemp
    · rwa [Function.update_of_ne same] at isTemp
  · intro r notFree
    apply Function.update_of_ne
    rintro rfl
    exact notFree taken.free
  · intro q' v isDir' inside
    have dir' : Function.update o t .temp q' = .dir := by
      rw [Function.update_of_ne, isDir']
      rintro rfl
      rw [taken.free] at isDir'
      cases isDir'
    rw [zeroed.link_pte temp zeros dir none' index dir' inside, ← taken.pte]
    refine taken.owned.pte_congr (fun r holds => ?_) dir' inside
    apply Mem.fill_page_of_ne
    rintro rfl
    rw [temp] at holds
    exact holds
  · intro d' other
    rw [Mem.entry_setEntry_of_index other, Mem.zero, Mem.entry_fill_of_ne notDir, taken.entry]
  · intro S mem
    have index' : d < NPTENTRIES := index
    have less := missing_setEntry mem none' (ne_zero_of_present (present_pdeOf t)) (pdeOf_lt page)
      index'
    have same : missing S q (m'.zero t) = missing S q m' := by
      simp only [missing, Mem.zero, Mem.entry_fill_of_ne notDir]
    rcases taken.drawn (q := q) S with ⟨c, allocs, count⟩
    exact ⟨c, ⟨allocs.list, allocs.faults, allocs.fine⟩, by omega⟩

/-- The page table that is missing cannot be allocated. -/
theorem FailsAt.short {S : Finset ℕ} (fails : FailsAt 0 m) (absent : m.entry q d = 0)
    (mem : d ∈ S) :
    Short S q 0 m :=
  ⟨0, Finset.card_pos.mpr ⟨d, Finset.mem_filter.mpr ⟨mem, absent⟩⟩, fails⟩

/-- A walk that allocates a page table where there is none. -/
theorem meets_walk_alloc {Q : Option (ℕ × ℕ) → Mem → Prop} (owned : Owned L m o)
    (isDir : o q = .dir) (inside : v < 2 ^ 20)
    (none : ∀ m', Quiet m m' → m.entry q (v / NPTENTRIES) = 0 → FailsAt 0 m → Q none m')
    (some : ∀ t m' o', Linked L q (v / NPTENTRIES) t m m' o o' →
      Q (some (t, v % NPTENTRIES)) m') :
    Meets (walkpgdir q (v * PGSIZE) true) m E Q := by
  unfold walkpgdir
  refine meets_bind (meets_get ?_)
  rw [PDX_page inside, PTX_page]
  rcases owned.pte_cases isDir inside with ⟨absent, _⟩ | ⟨t, linked, table, _⟩
  · rw [absent]
    refine meets_bind (meets_kalloc owned ?_ ?_)
    · intro m' quiet fails
      refine none m' quiet absent fails
    · intro t m' taken
      exact some t _ _ (taken.linked isDir absent (div_lt_NPDENTRIES inside))
  · simp only [linked.1, linked.2, if_true]
    exact some t m o ⟨owned, table, Kept.refl isDir, fun _ _ => rfl, fun _ _ _ _ => rfl,
      fun _ _ => rfl, fun _ _ => Drawn.refl⟩

/-! ## Mappings -/

/-- The owners are right, and only entries of `q` for the page numbers in `V` have changed. -/
structure Edited (L : Link) (q : ℕ) (V : Set ℕ) (m m' : Mem) (o o' : ℕ → Owner) : Prop where
  owned : Owned L m' o'
  kept : Kept q m m' o o'
  pte : ∀ v, v ∉ V → v < 2 ^ 20 → m'.pte q v = m.pte q v
  pde : ∀ d, (∀ v ∈ V, v / NPTENTRIES ≠ d) → m'.entry q d = m.entry q d

namespace Edited

variable {V W : Set ℕ}

theorem refl (owned : Owned L m o) (isDir : o q = .dir) : Edited L q V m m o o :=
  ⟨owned, Kept.refl isDir, fun _ _ _ => rfl, fun _ _ => rfl⟩

theorem isDir (edited : Edited L q V m m' o o') : o' q = .dir :=
  edited.kept.dir_iff.mpr edited.kept.isDir

theorem mono (edited : Edited L q V m m' o o') (subset : V ⊆ W) : Edited L q W m m' o o' :=
  ⟨edited.owned, edited.kept, fun v outside => edited.pte v fun mem => outside (subset mem),
    fun d none => edited.pde d fun v mem => none v (subset mem)⟩

theorem trans (first : Edited L q V m m' o o') (second : Edited L q V m' m'' o' o'') :
    Edited L q V m m'' o o'' where
  owned := second.owned
  kept := first.kept.trans second.kept
  pte := by
    intro v outside inside
    rw [second.pte v outside inside, first.pte v outside inside]
  pde := fun d none => (second.pde d none).trans (first.pde d none)

theorem of_quiet (owned : Owned L m o) (isDir : o q = .dir) (quiet : Quiet m m') :
    Edited L q V m m' o o :=
  ⟨owned.of_quiet quiet, Kept.of_quiet isDir quiet, fun _ _ _ => quiet.pte, fun _ _ => quiet.entry⟩

end Edited

theorem Linked.edited {V : Set ℕ} (linked : Linked L q (v / NPTENTRIES) t m m' o o') (mem : v ∈ V) :
    Edited L q V m m' o o' :=
  ⟨linked.owned, linked.kept, fun v _ inside => linked.pte q v linked.kept.isDir inside,
    fun d none => linked.pde d (none v mem).symm⟩

/-- No page is owned by an entry that is zero. -/
theorem Owned.not_user (owned : Owned L m o) (zero : m.pte q v = 0) : o p ≠ .user q v := by
  intro user
  have here := (owned.user p q v user).2.2.1
  rw [zero] at here
  cases here

/-- An entry that is written without a change of owners. -/
theorem Owned.edited_setPte (owned : Owned L m o) (table : o t = .table q (v / NPTENTRIES))
    (inside : v < 2 ^ 20) (word : e < 2 ^ 32)
    (others : ∀ r, o' r = o r ∨
      (o r = .temp ∨ o r = .user q v) ∧ (o' r = .temp ∨ o' r = .user q v))
    (temps : ∀ r, o' r = .temp → o r = .temp) (ok : EntryOk m.smAddr o' q v e)
    (only : ∀ r, o' r = .user q v → v < USERTOP ∧ present e = true ∧ pteAddr e = r) :
    Edited L q {v} m (m.setEntry t (v % NPTENTRIES) e) o o' ∧
      (m.setEntry t (v % NPTENTRIES) e).pte q v = e := by
  have index : v % NPTENTRIES < NPTENTRIES := Nat.mod_lt _ (by decide)
  have place : v = v / NPTENTRIES * NPTENTRIES + v % NPTENTRIES := (Nat.div_add_mod' _ _).symm
  have isDir := (owned.table t q _ table).1
  refine ⟨⟨owned.setPte table index word place others ok only,
    ⟨⟨isDir, ?_, ?_, rfl, id, fun tidy => tidy.clean⟩, temps⟩, ?_, ?_⟩, ?_⟩
  · intro r
    rcases others r with same | ⟨was, now⟩
    · exact Or.inl same
    · refine Or.inr ⟨?_, ?_⟩
      · rcases was with temp | user
        · rw [temp]
          trivial
        · rw [user]
          exact rfl
      · rcases now with temp | user
        · rw [temp]
          trivial
        · rw [user]
          exact rfl
  · intro r _ notMine _
    apply Mem.setEntry_page_of_ne
    rintro rfl
    rw [table] at notMine
    exact notMine rfl
  · intro v' other inside'
    rw [owned.setEntry_pte table index word isDir inside', ← place, if_neg]
    rintro ⟨_, same⟩
    exact other same
  · refine fun d _ => Mem.entry_setEntry_of_page ?_
    rintro rfl
    rw [table] at isDir
    cases isDir
  · rw [owned.setEntry_pte table index word isDir inside, ← place]
    exact if_pos ⟨rfl, rfl⟩

/-- An entry that may be written whoever owns the pages: one of the kernel, or of a shared page. -/
structure Placeable (sm : Fin NSHAREPAGE → ℕ) (v e : ℕ) : Prop where
  here : present e = true
  low : v < USERTOP → ∃ k, v = slot k ∧ pteAddr e = sm k ∧ sm k ≠ 0
  high : USERTOP ≤ v → userBit e = false

theorem Placeable.ok (placeable : Placeable m.smAddr v e) : EntryOk m.smAddr o q v e :=
  Or.inr ⟨placeable.here, fun below => Or.inr (placeable.low below), placeable.high⟩

/-- The first step of `mapLoop`, with what it does about its page. -/
theorem meets_mapLoop_step {perm a pa : ℕ} {Q : Bool → Mem → Prop} (owned : Owned L m o)
    (isDir : o q = .dir) (inside : v < 2 ^ 20)
    (remap : m.pte q v ≠ 0 → E .remap)
    (none : ∀ m', Quiet m m' → m.entry q (v / NPTENTRIES) = 0 → FailsAt 0 m → Q false m')
    (some : ∀ t m' o', Linked L q (v / NPTENTRIES) t m m' o o' → m'.pte q v = 0 →
      Meets (mapLoop q perm n (a + PGSIZE) (pa + PGSIZE))
        (m'.setEntry t (v % NPTENTRIES) (pa ||| perm ||| PTE_P)) E Q) (aligned : a = v * PGSIZE) :
    Meets (mapLoop q perm (n + 1) a pa) m E Q := by
  rw [mapLoop, aligned]
  refine meets_bind (meets_walk_alloc owned isDir inside none ?_)
  intro t m' o' linked
  have entry : m'.pte q v = m'.entry t (v % NPTENTRIES) := by
    rw [Mem.pte_of_pde (linked.owned.table t q _ linked.table).2.2]
  have same := linked.pte q v isDir inside
  refine meets_bind (meets_get ?_)
  rw [← entry]
  refine meets_ite (fun here => ?_) (fun absent => ?_)
  · refine meets_throw (remap ?_)
    rw [← same]
    exact ne_zero_of_present here
  · have zero : m'.pte q v = 0 := by
      by_contra mapped
      exact absent (linked.owned.present_of_ne_zero (linked.edited (Set.mem_singleton v)).isDir
        inside mapped)
    have next := some t m' o' linked zero
    rw [aligned] at next
    exact next

theorem Drawn.setEntry {S : Finset ℕ} (drawn : Drawn S q n m m') (other : t ≠ q) :
    Drawn S q n m (m'.setEntry t i e) :=
  drawn.congr rfl rfl fun _ => Mem.entry_setEntry_of_page other.symm

theorem Linked.ne (linked : Linked L q d t m m' o o') : t ≠ q := by
  rintro rfl
  have isDir := linked.kept.dir_iff.mpr linked.kept.isDir
  rw [linked.table] at isDir
  cases isDir

/-- `mappages` goes through the pages of its range. -/
theorem mappages_eq {perm pa : ℕ} (some : 0 < n) (inside : v + n ≤ 2 ^ 20) :
    mappages q (v * PGSIZE) (n * PGSIZE) pa perm = mapLoop q perm n (v * PGSIZE) pa := by
  have first : PGROUNDDOWN (v * PGSIZE) = v * PGSIZE := by
    simp only [PGROUNDDOWN, PGSIZE]
    omega
  have last : PGROUNDDOWN ((v * PGSIZE + n * PGSIZE + 2 ^ 32 - 1) % 2 ^ 32) =
      (v + n - 1) * PGSIZE := by
    simp only [PGROUNDDOWN, PGSIZE]
    omega
  have count : ((v + n - 1) * PGSIZE + 2 ^ 32 - v * PGSIZE) % 2 ^ 32 / PGSIZE + 1 = n := by
    simp only [PGSIZE]
    omega
  rw [mappages, first, last, count]

/-- A range of pages is mapped, to pages whose owners do not change. -/
theorem meets_mapLoop {perm : ℕ} {S : Finset ℕ} {Q : Bool → Mem → Prop} (owned : Owned L m o)
    (isDir : o q = .dir) (inside : v + n ≤ 2 ^ 20) (flags : perm < PGSIZE)
    (physical : p + n ≤ 2 ^ 20) (tables : ∀ j < n, (v + j) / NPTENTRIES ∈ S)
    (place : ∀ j < n, Placeable m.smAddr (v + j) ((p + j) * PGSIZE ||| perm ||| PTE_P))
    (remap : ∀ j < n, m.pte q (v + j) ≠ 0 → E .remap)
    (failure : ∀ m' o', Edited L q (Set.Ico v (v + n)) m m' o o' → m'.failed = true →
      Short S q 0 m → Q false m')
    (success : ∀ m' o', Edited L q (Set.Ico v (v + n)) m m' o o' → Drawn S q 0 m m' →
      (∀ j < n, m'.pte q (v + j) = (p + j) * PGSIZE ||| perm ||| PTE_P) → Q true m') :
    Meets (mapLoop q perm n (v * PGSIZE) (p * PGSIZE)) m E Q := by
  induction n generalizing m o v p with
  | zero =>
      exact success m o (Edited.refl owned isDir) Drawn.refl fun j impossible =>
        absurd impossible (Nat.not_lt_zero j)
  | succ n ih =>
      have first : v ∈ Set.Ico v (v + (n + 1)) := Set.mem_Ico.mpr ⟨le_rfl, by omega⟩
      have rest : Set.Ico (v + 1) (v + 1 + n) ⊆ Set.Ico v (v + (n + 1)) := by
        intro v' mem
        rw [Set.mem_Ico] at mem ⊢
        omega
      have table := tables 0 (by omega)
      have placeable := place 0 (by omega)
      simp only [Nat.add_zero] at table placeable
      refine meets_mapLoop_step owned isDir (by omega)
        (fun mapped => remap 0 (by omega) (by rwa [Nat.add_zero])) ?_ ?_ rfl
      · intro m' quiet absent fails
        exact failure m' o (Edited.of_quiet owned isDir quiet) quiet.failed
          (fails.short absent table)
      · intro t m₁ o₁ linked zero
        have noUser : ∀ r, o₁ r ≠ .user q v := fun r => linked.owned.not_user zero
        have ok : EntryOk m₁.smAddr o₁ q v (p * PGSIZE ||| perm ||| PTE_P) := by
          rw [linked.kept.smAddr]
          exact placeable.ok
        rcases linked.owned.edited_setPte linked.table (by omega) (encode_lt flags (by omega))
          (fun r => Or.inl rfl) (fun r => id) ok (fun r user => absurd user (noUser r)) with
          ⟨edited, written⟩
        have before : Edited L q (Set.Ico v (v + (n + 1))) m _ o o₁ :=
          (linked.edited first).trans (edited.mono (Set.singleton_subset_iff.mpr first))
        have drawn := (linked.drawn S table).setEntry (i := v % NPTENTRIES)
          (e := p * PGSIZE ||| perm ||| PTE_P) linked.ne
        have old : ∀ j < n, (m₁.setEntry t (v % NPTENTRIES) (p * PGSIZE ||| perm ||| PTE_P)).pte q
            (v + 1 + j) = m.pte q (v + 1 + j) := by
          intro j below
          rw [edited.pte _ (by simp only [Set.mem_singleton_iff]; omega) (by omega),
            linked.pte q _ isDir (by omega)]
        rw [show v * PGSIZE + PGSIZE = (v + 1) * PGSIZE by ring,
          show p * PGSIZE + PGSIZE = (p + 1) * PGSIZE by ring]
        refine ih edited.owned edited.isDir (by omega) (by omega) ?_ ?_ ?_ ?_ ?_
        · intro j below
          rw [Nat.add_assoc]
          exact tables (1 + j) (by omega)
        · intro j below
          rw [before.kept.smAddr, Nat.add_assoc, Nat.add_assoc]
          exact place (1 + j) (by omega)
        · intro j below mapped
          rw [old j below, Nat.add_assoc] at mapped
          exact remap (1 + j) (by omega) mapped
        · intro m' o' after failed short
          refine failure m' o' (before.trans (after.mono rest)) failed ?_
          exact Short.of_drawn drawn short
        · intro m' o' after drawn' ptes
          refine success m' o' (before.trans (after.mono rest)) (drawn.trans drawn') ?_
          intro j below
          cases j with
          | zero =>
              rw [Nat.add_zero, Nat.add_zero, after.pte v (by simp) (by omega), written]
          | succ j =>
              rw [show v + (j + 1) = v + 1 + j by omega, show p + (j + 1) = p + 1 + j by omega]
              exact ptes j (by omega)

/-- Pages that are in use and hold no entries are as they were. -/
def Spared (m m' : Mem) (o : ℕ → Owner) :
    Prop := ∀ r, o r ≠ .free → ¬(o r).HoldsEntries → m'.page r = m.page r

/-- A walk takes a page for a table at most. -/
theorem walkpgdir_spared (owned : Owned L m o) (isDir : o q = .dir) (inside : v < 2 ^ 20) :
    Meets (walkpgdir q (v * PGSIZE) true) m (fun _ => True) fun r m' =>
      Spared m m' o ∧ ∀ t i, r = some (t, i) → o t = .free ∨ (o t).HoldsEntries := by
  unfold walkpgdir
  refine meets_bind (meets_get ?_)
  rw [PDX_page inside, PTX_page]
  rcases owned.pte_cases isDir inside with ⟨absent, _⟩ | ⟨t, linked, table, _⟩
  · rw [absent]
    refine meets_bind (meets_kalloc owned ?_ ?_)
    · intro m' quiet _
      exact ⟨fun _ _ _ => by rw [quiet.page], nofun⟩
    · intro t m' taken
      refine meets_bind (meets_modify
        (meets_bind (meets_modify (meets_pure ⟨fun r notFree notEntries => ?_, ?_⟩))))
      · have notTable : r ≠ t := by
          rintro rfl
          exact notFree taken.free
        have notDir : r ≠ q := by
          rintro rfl
          rw [isDir] at notEntries
          exact notEntries trivial
        rw [Mem.setEntry_page_of_ne notDir, Mem.zero, Mem.fill_page_of_ne notTable, taken.page]
      · intro t' i found
        cases found
        exact Or.inl taken.free
  · simp only [linked.1, linked.2, if_true]
    refine meets_pure ⟨fun _ _ _ => rfl, fun t' i found => ?_⟩
    cases found
    rw [table]
    exact Or.inr trivial

theorem mapLoop_spared {perm pa : ℕ} (owned : Owned L m o) (isDir : o q = .dir)
    (inside : v < 2 ^ 20) :
    Meets (mapLoop q perm 1 (v * PGSIZE) pa) m (fun _ => True) fun _ m' => Spared m m' o := by
  rw [mapLoop]
  refine (walkpgdir_spared owned isDir inside).bind fun r m₁ both => ?_
  rcases r with _ | ⟨t, i⟩
  · exact meets_pure both.1
  · refine meets_bind (meets_get
      (meets_ite (fun _ => meets_bind (meets_throw trivial)) fun _ => ?_))
    refine meets_bind (meets_modify (meets_pure fun r notFree notEntries => ?_))
    rw [Mem.setEntry_page_of_ne, both.1 r notFree notEntries]
    rintro rfl
    rcases both.2 r i rfl with free | entries
    · exact notFree free
    · exact notEntries entries

/-- A page of the running call is mapped. -/
theorem meets_map_user {perm : ℕ} {Q : Bool → Mem → Prop} (owned : Owned L m o)
    (isDir : o q = .dir) (below : v < USERTOP) (flags : perm < PGSIZE) (temp : o p = .temp)
    (remap : m.pte q v ≠ 0 → E .remap)
    (failure : ∀ m', Quiet m m' → m.entry q (v / NPTENTRIES) = 0 → FailsAt 0 m → Q false m')
    (success : ∀ m' o', Edited L q {v} m m' o o' → (∀ S, v / NPTENTRIES ∈ S → Drawn S q 0 m m') →
      o' p = .user q v → m'.pte q v = p * PGSIZE ||| perm ||| PTE_P →
      (∀ r, r ≠ p → o r ≠ .free → o' r = o r) → m.pte q v = 0 → Q true m') :
    Meets (mapLoop q perm 1 (v * PGSIZE) (p * PGSIZE)) m E Q := by
  have inside : v < 2 ^ 20 := by
    simp only [USERTOP, KERNBASE, PGSIZE] at below
    omega
  refine meets_mapLoop_step owned isDir inside remap failure ?_ rfl
  intro t m₁ o₁ linked zero
  have temp₁ : o₁ p = .temp := by rw [linked.stays p (by rw [temp]; simp), temp]
  have noUser : ∀ r, o₁ r ≠ .user q v := fun r => linked.owned.not_user zero
  have page : p < 2 ^ 20 := owned.page_lt (by rw [temp]; simp)
  have owner : Function.update o₁ p (.user q v) p = .user q v := Function.update_self _ _ _
  have others : ∀ r, Function.update o₁ p (.user q v) r = o₁ r ∨
      (o₁ r = .temp ∨ o₁ r = .user q v) ∧ (Function.update o₁ p (.user q v) r = .temp ∨
        Function.update o₁ p (.user q v) r = .user q v) := by
    intro r
    by_cases same : r = p
    · subst same
      exact Or.inr ⟨Or.inl temp₁, Or.inr owner⟩
    · exact Or.inl (Function.update_of_ne same _ _)
  have temps : ∀ r, Function.update o₁ p (.user q v) r = .temp → o₁ r = .temp := by
    intro r isTemp
    by_cases same : r = p
    · rw [same, owner] at isTemp
      cases isTemp
    · rwa [Function.update_of_ne same] at isTemp
  have ok : EntryOk m₁.smAddr (Function.update o₁ p (.user q v)) q v
      (p * PGSIZE ||| perm ||| PTE_P) := by
    refine Or.inr ⟨present_encode, fun _ => Or.inl ?_, fun above => absurd above (by omega)⟩
    rw [pteAddr_encode flags, owner]
  have only : ∀ r, Function.update o₁ p (.user q v) r = .user q v → v < USERTOP ∧
      present (p * PGSIZE ||| perm ||| PTE_P) = true ∧
        pteAddr (p * PGSIZE ||| perm ||| PTE_P) = r := by
    intro r user
    by_cases same : r = p
    · rw [same]
      exact ⟨below, present_encode, pteAddr_encode flags⟩
    · rw [Function.update_of_ne same] at user
      exact absurd user (noUser r)
  rcases linked.owned.edited_setPte linked.table inside (encode_lt flags page) others temps ok only
    with ⟨edited, written⟩
  refine success _ _ ((linked.edited (Set.mem_singleton v)).trans edited) ?_ owner written ?_ ?_
  · intro S table
    exact (linked.drawn S table).setEntry linked.ne
  · intro r other notFree
    rw [Function.update_of_ne other, linked.stays r notFree]
  · rw [← linked.pte q v isDir inside, zero]

end Xv6.Vm
