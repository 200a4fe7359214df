import Xv6.Vm.Freevm

/-!
# New address spaces

`setupkvm`: a new page directory with the mappings of the kernel, for which 64 page tables
are needed. A function that makes an address space and gives it up again, or hands it to
its caller, works with free pages only; `Aside` is the frame of such a function.
-/

namespace Xv6.Vm

open Prog

variable {L : Link} {m m' m'' : Mem} {o o' o'' o₁ : ℕ → Owner} {p q t d i v w n : ℕ}
  {E : Panic → Prop} {S T : Finset ℕ}

/-! ## Free pages only -/

/-- Pages that are free, or left over from an address space that was given back. -/
def Owner.Loose : Owner → Prop
  | .free => True
  | .temp => True
  | _ => False

/-- Nothing but loose pages has been used. -/
structure Aside (m m' : Mem) (o o' : ℕ → Owner) : Prop where
  stays : ∀ r, ¬(o r).Loose → o' r = o r
  page : ∀ r, ¬(o r).Loose → o r ≠ .outside → m'.page r = m.page r
  smAddr : m'.smAddr = m.smAddr
  failed : m.failed = true → m'.failed = true
  clean : Tidy m o → m'.misfreed = false

namespace Aside

theorem refl : Aside m m o o where
  stays := fun _ _ => rfl
  page := fun _ _ _ => rfl
  smAddr := rfl
  failed := id
  clean := fun tidy => tidy.clean

/-- What happens aside is tidy. -/
theorem tidy (aside : Aside m m' o o') (tidy : Tidy m o) : Tidy m' o' where
  shared := by
    intro k
    rw [aside.smAddr]
    refine (tidy.shared k).imp_right fun owner => ?_
    rw [aside.stays, owner]
    rw [owner]
    exact id
  clean := aside.clean tidy

theorem trans (first : Aside m m' o o') (second : Aside m' m'' o' o'') : Aside m m'' o o'' where
  stays := by
    intro r settled
    have same := first.stays r settled
    rw [second.stays r (by rwa [same]), same]
  page := by
    intro r settled known
    have same := first.stays r settled
    rw [second.page r (by rwa [same]) (by rwa [same]), first.page r settled known]
  smAddr := second.smAddr.trans first.smAddr
  failed := second.failed ∘ first.failed
  clean := fun tidy => second.clean (first.tidy tidy)

theorem isDir (aside : Aside m m' o o') (isDir : o q = .dir) : o' q = .dir := by
  rw [aside.stays, isDir]
  rw [isDir]
  exact id

theorem pte (aside : Aside m m' o o') (owned : Owned L m o) (isDir : o q = .dir)
    (inside : v < 2 ^ 20) : m'.pte q v = m.pte q v := by
  refine owned.pte_congr (fun r holds => aside.page r ?_ ?_) isDir inside
  · revert holds
    cases o r <;> simp [Owner.Loose, Owner.HoldsEntries]
  · revert holds
    cases o r <;> simp [Owner.HoldsEntries]

theorem of_quiet (quiet : Quiet m m') : Aside m m' o o where
  stays := fun _ _ => rfl
  page := fun _ _ _ => by rw [quiet.page]
  smAddr := quiet.smAddr
  failed := fun _ => quiet.failed
  clean := fun tidy => by rw [quiet.misfreed, tidy.clean]

/-- A page is taken, and written. -/
theorem of_taken {x : Owner} (taken : Taken L p m m' o) (contents : Page) :
    Aside m (m'.fill p contents) o (Function.update o p x) where
  stays := by
    intro r settled
    apply Function.update_of_ne
    rintro rfl
    rw [taken.free] at settled
    exact settled trivial
  page := by
    intro r settled _
    rw [Mem.fill_page_of_ne, taken.page]
    rintro rfl
    rw [taken.free] at settled
    exact settled trivial
  smAddr := taken.smAddr
  failed := fun failed => taken.failed.trans failed
  clean := fun tidy => taken.misfreed.trans tidy.clean

/-- The owners that a directory gives to pages, while it is loose itself. -/
theorem settled (owned : Owned L m o) (loose : (o q).Loose) {r : ℕ} (settled : ¬(o r).Loose) :
    r ≠ q ∧ ¬Mine q (o r) := by
  refine ⟨fun same => settled (same ▸ loose), fun mine => ?_⟩
  cases owner : o r with
  | free | temp =>
      rw [owner] at settled
      exact settled trivial
  | table q' d =>
      rw [owner] at mine
      rw [← show q' = q from mine, (owned.table r q' d owner).1] at loose
      exact loose
  | user q' v =>
      rw [owner] at mine
      rw [← show q' = q from mine, (owned.user r q' v owner).1] at loose
      exact loose
  | outside | dir | kstack | shared | object =>
      rw [owner] at mine
      exact mine

/-- Work on a directory that is new. -/
theorem frame (aside : Aside m m' o o') (owned : Owned L m o) (loose : (o q).Loose)
    (frame : Frame q m' m'' o' o'') : Aside m m'' o o'' where
  stays := by
    intro r settled
    have same := aside.stays r settled
    rw [frame.same, same]
    rw [same]
    exact (Aside.settled owned loose settled).2
  page := by
    intro r settled known
    have same := aside.stays r settled
    have apart := Aside.settled owned loose settled
    rw [frame.page r apart.1 (by rw [same]; exact apart.2) (by rwa [same]),
      aside.page r settled known]
  smAddr := frame.smAddr.trans aside.smAddr
  failed := frame.failed ∘ aside.failed
  clean := fun tidy => frame.clean (aside.tidy tidy)

/-- A directory that was new is given up. -/
theorem freed (aside : Aside m m' o o') (owned : Owned L m o) (loose : (o q).Loose)
    (freed : Freed L q m' m'' o' o'') : Aside m m'' o o'' where
  stays := by
    intro r settled
    have same := aside.stays r settled
    have apart := Aside.settled owned loose settled
    rw [freed.others r, same]
    rintro (eq | ⟨d, table⟩ | ⟨v, user⟩)
    · exact apart.1 eq
    · rw [same] at table
      rw [table] at apart
      exact apart.2 rfl
    · rw [same] at user
      rw [user] at apart
      exact apart.2 rfl
  page := by
    intro r settled known
    have same := aside.stays r settled
    have apart := Aside.settled owned loose settled
    rw [freed.page r apart.1 (by rw [same]; exact apart.2) (by rwa [same]),
      aside.page r settled known]
  smAddr := freed.smAddr.trans aside.smAddr
  failed := fun failed => freed.failed.trans (aside.failed failed)
  clean := fun tidy => freed.clean (aside.tidy tidy)

end Aside

/-! ## The kernel's mappings -/

/-- An entry of `kmap` that maps the `n` pages from `v` on to those from `p` on. -/
structure Kmap.Covers (k : Kmap) (v n p : ℕ) : Prop where
  virt : k.virt = v * PGSIZE
  size : (k.physEnd + 2 ^ 32 - k.physStart) % 2 ^ 32 = n * PGSIZE
  phys : k.physStart = p * PGSIZE
  some : 0 < n
  high : USERTOP ≤ v
  inside : v + n ≤ 2 ^ 20
  physical : p + n ≤ 2 ^ 20
  flags : k.perm < PGSIZE
  noUser : k.perm.testBit 2 = false

/-- Entries for ranges that follow one another, with page tables at the indices `S` and the page
numbers `V` that they map. -/
inductive Covers (S : Finset ℕ) : ℕ → List Kmap → Set ℕ → Prop
  | nil {w : ℕ} : Covers S w [] ∅
  | cons {w v n p : ℕ} {k : Kmap} {rest : List Kmap} {V : Set ℕ} (later : w ≤ v)
    (covers : k.Covers v n p)
      (tables : ∀ j < n, (v + j) / NPTENTRIES ∈ S) (tail : Covers S (v + n) rest V) :
      Covers S w (k :: rest) (Set.Ico v (v + n) ∪ V)

/-- The kernel is mapped, or an allocation has failed. -/
theorem meets_mapKernel {Q : Bool → Mem → Prop} {ks : List Kmap} {V : Set ℕ}
    (covers : Covers S w ks V) (owned : Owned L m o) (isDir : o q = .dir)
    (zero : ∀ v, w ≤ v → v < 2 ^ 20 → m.pte q v = 0)
    (failure : ∀ m' o', Edited L q V m m' o o' → m'.failed = true → Short S q 0 m → Q false m')
    (success : ∀ m' o', Edited L q V m m' o o' → Drawn S q 0 m m' → (∀ v ∈ V, m'.pte q v ≠ 0) →
      Q true m') : Meets (mapKernel q ks) m E Q := by
  induction covers generalizing m o with
  | nil => exact success m o (Edited.refl owned isDir) Drawn.refl fun v none =>
      absurd none (Set.notMem_empty v)
  | @cons w v n p k rest V later covers tables tail ih =>
      rw [mapKernel, covers.virt, covers.size, covers.phys, mappages_eq covers.some covers.inside]
      refine meets_bind (meets_mapLoop (S := S) owned isDir covers.inside covers.flags
        covers.physical tables
        ?_ ?_ ?_ ?_)
      · intro j below
        refine ⟨present_encode, fun low => absurd low ?_, fun _ => userBit_encode covers.noUser⟩
        have := covers.high
        omega
      · intro j below mapped
        have := covers.inside
        exact absurd (zero (v + j) (by omega) (by omega)) mapped
      · intro m' o' edited failed short
        exact failure m' o' (edited.mono Set.subset_union_left) failed short
      · intro m₁ o₁ edited drawn ptes
        have inside := covers.inside
        refine ih edited.owned edited.isDir ?_ ?_ ?_
        · intro v' after below
          rw [edited.pte v' (by rw [Set.mem_Ico]; omega) below]
          exact zero v' (by omega) below
        · intro m' o' edited' failed short
          exact failure m' o' ((edited.mono Set.subset_union_left).trans
            (edited'.mono Set.subset_union_right)) failed (Short.of_drawn drawn short)
        · intro m' o' edited' drawn' mapped
          refine success m' o' ((edited.mono Set.subset_union_left).trans
            (edited'.mono Set.subset_union_right)) (drawn.trans drawn') ?_
          intro v' mem
          by_cases late : v' ∈ V
          · exact mapped v' late
          · have here := mem.resolve_right late
            rw [Set.mem_Ico] at here
            rw [edited'.pte v' late (by omega), show v' = v + (v' - v) by
              omega, ptes (v' - v) (by omega)]
            exact ne_zero_of_present present_encode

/-- The indices of the kernel's page tables. -/
def kernelTables : Finset ℕ := Finset.Ico 512 568 ∪ Finset.Ico 1016 1024

/-- The page numbers that the kernel has mapped. -/
def kernelPages : Set ℕ := Set.Ico USERTOP (USERTOP + LASTPAGE) ∪ Set.Ico (DEVSPACE / PGSIZE)
      (2 ^ 20)

/-- The table of mappings covers the pages of the kernel. -/
theorem covers_kmap (L : Link) : Covers kernelTables USERTOP (kmap L) kernelPages := by
  have text := L.text
  have below := L.ordered.trans L.low
  obtain ⟨c, data⟩ : ∃ c, L.data = c * PGSIZE := ⟨L.data / PGSIZE, by
    have := L.aligned
    simp only [PGSIZE] at *
    omega⟩
  have tables : ∀ v, 512 * NPTENTRIES ≤ v ∧ v < 568 * NPTENTRIES ∨
      1016 * NPTENTRIES ≤ v ∧ v < 1024 * NPTENTRIES → v / NPTENTRIES ∈ kernelTables := by
    intro v range
    simp only [kernelTables, Finset.mem_union, Finset.mem_Ico, NPTENTRIES] at *
    omega
  simp only [EXTMEM, PGSIZE] at text below data
  have io : Kmap.Covers ⟨KERNBASE, 0, EXTMEM, PTE_W⟩ USERTOP 256 0 := by
    constructor <;> decide
  have device : Kmap.Covers ⟨DEVSPACE, DEVSPACE, 0, PTE_W⟩ 0xFE000 0x2000 0xFE000 := by
    constructor <;> decide
  have kernText : Kmap.Covers ⟨KERNLINK, EXTMEM, L.data, 0⟩ (USERTOP + 256) (c - 256) 256 := by
    refine ⟨rfl, ?_, rfl, ?_, by
      decide, ?_, ?_, (show 0 < PGSIZE by decide), (show Nat.testBit 0 2 = false by decide)⟩
    · change (L.data + 2 ^ 32 - 1048576) % 2 ^ 32 = (c - 256) * 4096
      omega
    · omega
    · change 524288 + 256 + (c - 256) ≤ 2 ^ 20
      omega
    · omega
  have kernData : Kmap.Covers ⟨KERNBASE + L.data, L.data, PHYSTOP, PTE_W⟩ (USERTOP + c)
      (LASTPAGE - c) c := by
    refine ⟨?_, ?_, data, ?_, ?_, ?_, ?_, (show PTE_W < PGSIZE by decide),
      (show PTE_W.testBit 2 = false by decide)⟩
    all_goals
      simp only [USERTOP, LASTPAGE, PHYSTOP, KERNBASE, PGSIZE]
      omega
  have covers : Covers kernelTables USERTOP (kmap L) (Set.Ico USERTOP (USERTOP + 256) ∪
      (Set.Ico (USERTOP + 256)
      (USERTOP + 256 + (c - 256)) ∪ (Set.Ico (USERTOP + c) (USERTOP + c + (LASTPAGE - c)) ∪
        (Set.Ico 0xFE000 (0xFE000 + 0x2000) ∪ ∅)))) := by
    refine .cons le_rfl io ?_ (.cons le_rfl kernText ?_
      (.cons ?_ kernData ?_ (.cons ?_ device ?_ .nil)))
    all_goals
      first
      | intro j below
        refine tables _ ?_
        simp only [USERTOP, LASTPAGE, PHYSTOP, KERNBASE, PGSIZE, NPTENTRIES] at below ⊢
        omega
      | simp only [USERTOP, LASTPAGE, PHYSTOP, KERNBASE, PGSIZE]
        omega
  have same : Set.Ico USERTOP (USERTOP + 256) ∪
      (Set.Ico (USERTOP + 256)
        (USERTOP + 256 + (c - 256)) ∪ (Set.Ico (USERTOP + c) (USERTOP + c + (LASTPAGE - c)) ∪
        (Set.Ico 0xFE000 (0xFE000 + 0x2000) ∪ ∅))) = kernelPages := by
    ext v
    simp only [kernelPages, Set.mem_union, Set.mem_Ico, Set.mem_empty_iff_false, or_false, USERTOP,
      LASTPAGE,
      KERNBASE, PHYSTOP, DEVSPACE, PGSIZE]
    constructor
    · intro mem
      omega
    · intro mem
      omega
  rwa [same] at covers

/-! ## `setupkvm` -/

/-- A new page directory `q`, with the kernel's mappings and no others. -/
structure Kvm (L : Link) (q : ℕ) (m m' : Mem) (o o' : ℕ → Owner) : Prop where
  owned : Owned L m' o'
  aside : Aside m m' o o'
  free : o q = .free
  isDir : o' q = .dir
  pde : ∀ d < USERTOP / NPTENTRIES, m'.entry q d = 0
  allocs : Allocs (1 + kernelTables.card) m m'

theorem Kvm.empty (kvm : Kvm L q m m' o o') (below : v < USERTOP) : m'.pte q v = 0 := by
  refine Mem.pte_of_none (kvm.pde _ ?_)
  simp only [USERTOP, KERNBASE, PGSIZE, NPTENTRIES] at *
  omega

/-- A directory with the kernel in it misses no table of it. -/
theorem missing_kernelTables (mapped : ∀ v ∈ kernelPages, m.pte q v ≠ 0) :
    missing kernelTables q m = 0 := by
  rw [missing, Finset.card_eq_zero, Finset.filter_eq_empty_iff]
  intro d mem none
  have page : d * NPTENTRIES ∈ kernelPages := by
    simp only [kernelTables, Finset.mem_union, Finset.mem_Ico] at mem
    simp only [kernelPages, Set.mem_union, Set.mem_Ico, USERTOP, LASTPAGE, KERNBASE, PHYSTOP,
      DEVSPACE, PGSIZE,
      NPTENTRIES]
    omega
  refine mapped _ page (Mem.pte_of_none ?_)
  rwa [Nat.mul_div_cancel _ (by decide)]

/-- Only pages that were free have changed hands, and directory `q` has them. -/
def Lent (q : ℕ) (o o' : ℕ → Owner) : Prop := ∀ r, o' r = o r ∨ o r = .free ∧ Belongs o' q r

/-- No page is in the hands of another call. -/
def Quiescent (o : ℕ → Owner) : Prop := ∀ r, o r ≠ .temp

/-- Pages in the hands of other calls are allocated, whatever they are for. -/
def quiesced (o : ℕ → Owner) (r : ℕ) : Owner := if o r = .temp then .object else o r

theorem quiescent_quiesced : Quiescent (quiesced o) := by
  intro r temp
  rw [quiesced] at temp
  split at temp
  next => cases temp
  next other => exact other temp

theorem quiesced_eq_iff {x : Owner} (notTemp : x ≠ .temp) (notObject : x ≠ .object) {r : ℕ} :
    quiesced o r = x ↔ o r = x := by
  rw [quiesced]
  split
  next temp =>
    rw [temp]
    exact iff_of_false notObject.symm notTemp.symm
  next => exact Iff.rfl

/-- Pages that are about to be used count as objects. -/
theorem Owned.quiesce (owned : Owned L m o) : Owned L m (quiesced o) where
  range := by
    intro r
    rw [← owned.range, Ne, Ne, quiesced_eq_iff (x := .outside) nofun nofun]
  nodup := owned.nodup
  free := by
    intro r
    rw [owned.free, quiesced_eq_iff (x := .free) nofun nofun]
  pde := by
    intro q d isDir index
    rw [quiesced_eq_iff (x := .dir) nofun nofun] at isDir
    refine (owned.pde q d isDir index).imp_right ?_
    rintro ⟨t, linked, table⟩
    exact ⟨t, linked, (quiesced_eq_iff (x := .table q d) nofun nofun).mpr table⟩
  table := by
    intro t q d table
    rw [quiesced_eq_iff (x := .table q d) nofun nofun] at table
    rw [quiesced_eq_iff (x := .dir) nofun nofun]
    exact owned.table t q d table
  entries := by
    intro t q d i table index
    rw [quiesced_eq_iff (x := .table q d) nofun nofun] at table
    refine (owned.entries t q d i table index).imp_right ?_
    rintro ⟨here, low, high⟩
    refine ⟨here, fun below => (low below).imp_left fun user => ?_, high⟩
    rwa [quiesced_eq_iff (x := .user q (d * NPTENTRIES + i)) nofun nofun]
  user := by
    intro p q v user
    rw [quiesced_eq_iff (x := .user q v) nofun nofun] at user
    rw [quiesced_eq_iff (x := .dir) nofun nofun]
    exact owned.user p q v user

/-- To a free page nothing belongs. -/
theorem Owned.not_belongs (owned : Owned L m o) (free : o q = .free) {r : ℕ}
    (notFree : o r ≠ .free) :
    ¬Belongs o q r := by
  rintro (same | ⟨d, table⟩ | ⟨v, user⟩)
  · exact notFree (same ▸ free)
  · have isDir := (owned.table r q d table).1
    rw [free] at isDir
    cases isDir
  · have isDir := (owned.user r q v user).1
    rw [free] at isDir
    cases isDir

namespace Lent

/-- A directory keeps what it has been lent. -/
theorem kept (lent : Lent q o o₁) (owned : Owned L m o) (quiescent : Quiescent o)
    (free : o q = .free) (kept : Kept q m' m'' o₁ o') : Lent q o o' := by
  intro r
  have notTemp : o' r ≠ .temp := by
    intro temp
    have before := kept.temps r temp
    rcases lent r with same | ⟨_, rfl | ⟨d, table⟩ | ⟨v, user⟩⟩
    · exact quiescent r (same.symm.trans before)
    · rw [kept.isDir] at before
      cases before
    · rw [before] at table
      cases table
    · rw [before] at user
      cases user
  rcases kept.owner r with same | ⟨was, now⟩
  · rcases lent r with same' | ⟨isFree, belongs⟩
    · exact Or.inl (same.trans same')
    · exact Or.inr ⟨isFree, by simpa only [Belongs, same] using belongs⟩
  · have isFree : o r = .free := by
      rcases lent r with same' | ⟨isFree, _⟩
      · by_contra notFree
        refine owned.not_belongs free notFree ?_
        rw [same'] at was
        cases owner : o r with
        | free => exact absurd owner notFree
        | temp => exact absurd owner (quiescent r)
        | table q' d =>
            rw [owner] at was
            cases (was : q' = q)
            exact Or.inr (Or.inl ⟨d, owner⟩)
        | user q' v =>
            rw [owner] at was
            cases (was : q' = q)
            exact Or.inr (Or.inr ⟨v, owner⟩)
        | outside | dir | kstack | shared | object =>
            rw [owner] at was
            exact was.elim
      · exact isFree
    cases owner : o' r with
    | free => exact Or.inl isFree.symm
    | temp => exact absurd owner notTemp
    | table q' d =>
        rw [owner] at now
        cases (now : q' = q)
        exact Or.inr ⟨isFree, Or.inr (Or.inl ⟨d, owner⟩)⟩
    | user q' v =>
        rw [owner] at now
        cases (now : q' = q)
        exact Or.inr ⟨isFree, Or.inr (Or.inr ⟨v, owner⟩)⟩
    | outside | dir | kstack | shared | object =>
        rw [owner] at now
        exact now.elim

/-- Nothing else is about to be used. -/
theorem quiescent (lent : Lent q o o') (isDir : o' q = .dir) (quiescent : Quiescent o) :
    Quiescent o' := by
  intro r temp
  rcases lent r with same | ⟨_, rfl | ⟨d, table⟩ | ⟨v, user⟩⟩
  · exact quiescent r (same.symm.trans temp)
  · rw [isDir] at temp
    cases temp
  · rw [table] at temp
    cases temp
  · rw [user] at temp
    cases temp

/-- When the directory gives back all that it has, everything is as it was. -/
theorem returned (lent : Lent q o o₁) (owned : Owned L m o) (free : o q = .free)
    (freed : Freed L q m' m'' o₁ o') (all : ∀ r, Belongs o₁ q r → o' r = .free) (r : ℕ) :
    o' r = o r := by
  by_cases belongs : Belongs o₁ q r
  · rw [all r belongs]
    by_contra notFree
    rcases lent r with same | ⟨isFree, _⟩
    · refine owned.not_belongs free (fun isFree => notFree isFree.symm) ?_
      simpa only [Belongs, same] using belongs
    · exact notFree isFree.symm
  · rw [freed.others r belongs]
    exact (lent r).resolve_right fun both => belongs both.2

end Lent

/-- What both versions of `setupkvm` do, with their own versions of `freevm`. -/
theorem meets_setup_kernel {free : ℕ → MemProg Unit} {Q : Option ℕ → Mem → Prop}
    (owned : Owned L m o) (noPage : ∀ m', Quiet m m' → FailsAt 0 m → Q none m')
    (giveUp : ∀ q m' o', Owned L m' o' → o q = .free → o' q = .dir → Aside m m' o o' →
      (Quiescent o → Lent q o o') → (∀ v < USERTOP, m'.pte q v = 0) → m'.failed = true →
      (∃ k < 1 + kernelTables.card, FailsAt k m) → Meets (free q) m' E fun _ m'' => Q none m'')
    (success : ∀ q m' o', Kvm L q m m' o o' → (Quiescent o → Lent q o o') →
      (∀ d, (∀ v ∈ kernelPages, v / NPTENTRIES ≠ d) → m'.entry q d = 0) → Q (some q) m') : Meets (do
      match ← kalloc with
      | none => return none
      | some pgdir =>
          modify fun m => m.zero pgdir
          if DEVSPACE < KERNBASE + PHYSTOP then
            throw .phystop
          if ← mapKernel pgdir (kmap L) then return some pgdir
          else do
            free pgdir
            return none) m E Q := by
  refine meets_bind (meets_kalloc owned ?_ ?_)
  · exact fun m' quiet fails => noPage m' quiet fails
  · intro q m₁ taken
    have temp : Function.update o q .temp q = .temp := Function.update_self _ _ _
    have zeros : ∀ d, (m₁.zero q).entry q d = 0 := fun _ => Mem.entry_zero
    have zeroed : Owned L (m₁.zero q) (Function.update o q .temp) := by
      refine taken.owned.of_kept (fun r holds => ?_) rfl rfl
      apply Mem.fill_page_of_ne
      rintro rfl
      rw [temp] at holds
      exact holds
    have owned₁ := zeroed.newDir temp zeros
    rw [Function.update_idem] at owned₁
    have isDir : Function.update o q .dir q = .dir := Function.update_self _ _ _
    have aside : Aside m (m₁.zero q) o (Function.update o q .dir) := .of_taken taken _
    have lent : Lent q o (Function.update o q .dir) := by
      intro r
      by_cases same : r = q
      · exact Or.inr ⟨same ▸ taken.free, Or.inl same⟩
      · exact Or.inl (Function.update_of_ne same _ _)
    have loose : (o q).Loose := by
      rw [taken.free]
      trivial
    have one : Allocs 1 m (m₁.zero q) := ⟨taken.allocs.list, taken.allocs.faults, taken.allocs.fine⟩
    have all : missing kernelTables q (m₁.zero q) = kernelTables.card := by
      rw [missing, Finset.filter_true_of_mem fun d _ => zeros d]
    refine meets_bind (meets_modify ?_)
    refine meets_ite (fun high => absurd high (by decide)) fun _ => ?_
    refine meets_bind (meets_mapKernel (covers_kmap L) owned₁ isDir
      (fun v _ _ => Mem.pte_of_none (zeros _)) ?_ ?_)
    · intro m₂ o₂ edited failed short
      have short' : ∃ k < 1 + kernelTables.card, FailsAt k m := by
        rcases short with ⟨k, below, fails⟩
        exact ⟨1 + k, by omega, one.failsAt fails⟩
      refine (giveUp q m₂ o₂ edited.owned taken.free edited.isDir
        (aside.frame owned loose edited.kept.toFrame)
        (fun quiescent => lent.kept owned quiescent taken.free edited.kept) ?_ failed short').bind
        fun _ m₃ done => ?_
      · intro v below
        rw [edited.pte v]
        · exact Mem.pte_of_none (zeros _)
        · simp only [kernelPages, Set.mem_union, Set.mem_Ico, USERTOP, LASTPAGE, KERNBASE, PHYSTOP,
            DEVSPACE, PGSIZE] at *
          omega
        · simp only [USERTOP, KERNBASE, PGSIZE] at below
          omega
      exact meets_pure done
    · intro m₂ o₂ edited drawn mapped
      have holes : ∀ d, (∀ v ∈ kernelPages, v / NPTENTRIES ≠ d) → m₂.entry q d = 0 := by
        intro d hole
        rw [edited.pde d hole, zeros]
      refine meets_pure (success q m₂ o₂
        ⟨edited.owned, aside.frame owned loose edited.kept.toFrame, taken.free,
        edited.isDir, ?_, ?_⟩ (fun quiescent => lent.kept owned quiescent taken.free edited.kept)
        holes)
      · intro d below
        apply holes
        rintro v mem rfl
        simp only [kernelPages, Set.mem_union, Set.mem_Ico, USERTOP, LASTPAGE, KERNBASE, PHYSTOP,
          DEVSPACE, PGSIZE,
          NPTENTRIES] at mem below
        omega
      · rcases drawn with ⟨c, allocs, count⟩
        rw [missing_kernelTables mapped, all] at count
        rw [show 1 + kernelTables.card = 1 + c by omega]
        exact one.trans allocs

/-- `setupkvm` makes a directory with the kernel in it, or an allocation has failed. -/
theorem meets_setupkvm {Q : Option ℕ → Mem → Prop} (owned : Owned L m o)
    (failure : ∀ m' o', Owned L m' o' → Aside m m' o o' → (Quiescent o → o' = o) →
      m'.failed = true → (∃ k < 1 + kernelTables.card, FailsAt k m) → Q none m')
    (success : ∀ q m' o', Kvm L q m m' o o' → (Quiescent o → Lent q o o') → Q (some q) m') :
    Meets (setupkvm L) m E Q := by
  refine meets_setup_kernel owned ?_ ?_ fun q m' o' kvm lent _ => success q m' o' kvm lent
  · intro m' quiet fails
    exact failure m' o (owned.of_quiet quiet) (.of_quiet quiet) (fun _ => rfl) quiet.failed
      ⟨0, by omega, fails⟩
  · intro q m₁ o₁ owned₁ free isDir aside lent empty failed short
    have loose : (o q).Loose := by
      rw [free]
      trivial
    refine meets_freevm owned₁ isDir fun m₂ o₂ freed below => ?_
    refine failure m₂ o₂ freed.owned (aside.freed owned loose freed) (fun quiescent => ?_)
      (freed.failed.trans failed)
      short
    refine funext ((lent quiescent).returned owned free freed fun r belongs =>
      below r belongs fun v user => ?_)
    exact absurd user (owned₁.not_user (empty v (owned₁.user r q v user).2.1))

/-- Page number `v` is not mapped by directory `q`, or to a page of its own. -/
def Private (m : Mem) (o : ℕ → Owner) (q v : ℕ) :
    Prop := m.pte q v = 0 ∨ o (pteAddr (m.pte q v)) = .user q v

/-- A shared page is nobody's own, so the entry at its place stays private when it is not written.
-/
theorem Private.kept {k : Fin NSHAREPAGE} (mine : Private m o q (slot k)) (owned : Owned L m' o')
    (tidy : Tidy m o) (smAddr : m'.smAddr = m.smAddr) (isDir : o' q = .dir)
    (pte : m'.pte q (slot k) = m.pte q (slot k)) :
    Private m' o' q (slot k) := by
  have below := slot_lt k
  have inside : slot k < 2 ^ 20 := by
    simp only [USERTOP, KERNBASE, PGSIZE] at below
    omega
  rcases mine with zero | user
  · exact Or.inl (pte.trans zero)
  · rcases owned.entryOk isDir inside with zero | ⟨_, low, _⟩
    · exact Or.inl zero
    · refine Or.inr ((low below).resolve_right ?_)
      rintro ⟨k', place, page, set⟩
      cases slot_inj place
      rw [smAddr] at page set
      rw [← pte, page, (tidy.shared k).resolve_left set] at user
      cases user

end Xv6.Vm
