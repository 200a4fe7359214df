import Xv6.Vm.Mapped
import Xv6.Vm.Unshared

/-!
# Copying an address space in part2

`copyuvm` of part2 copies all user pages and `freevm` gives all of them back, so that a copy
that fails leaves the free pages as they were, and a copy that succeeds shares nothing with
the original: whatever the two processes write afterwards, neither sees it of the other.
-/

namespace Xv6.Vm

open Prog

variable {L : Link} {m m' m₁ m₂ : Mem} {o o' o₁ o₂ : ℕ → Owner} {p q d v w sz : ℕ}
  {E : Panic → Prop}

namespace Part2

variable (L)

/-- All user pages are freed. -/
def freevm (pgdir : ℕ) : MemProg Unit := do
  if pgdir = 0 then
    throw .freevm
  let _ ← deallocuvm L pgdir KERNBASE 0
  freeTables L pgdir NPDENTRIES 0
  kfree L pgdir

def setupkvm : MemProg (Option ℕ) := do
  match ← kalloc with
  | none => return none
  | some pgdir =>
      modify fun m => m.zero pgdir
      if DEVSPACE < KERNBASE + PHYSTOP then
        throw .phystop
      if ← mapKernel pgdir (kmap L) then return some pgdir
      else do
        freevm L pgdir
        return none

/-- The copy starts at address 0. -/
def copyuvm (pgdir sz : ℕ) : MemProg (Option ℕ) := do
  match ← setupkvm L with
  | none => return none
  | some d =>
      if ← copyLoop L d pgdir sz 0 then return some d
      else do
        freevm L d
        return none

end Part2

/-! ## `freevm` and `setupkvm` -/

/-- `freevm` of part2 frees the directory and what belongs to it. -/
theorem meets_part2_freevm {Q : Unit → Mem → Prop} (owned : Owned L m o) (unshared : m.Unshared)
    (isDir : o q = .dir) (post : ∀ m' o', Freed L q m m' o o' →
      (∀ r, Belongs o q r → o' r = .free) → Q () m') :
    Meets (Part2.freevm L q) m E Q := by
  have known : o q ≠ .outside := by
    rw [isDir]
    nofun
  have size : pages KERNBASE = USERTOP := by decide
  refine meets_ite (fun zero => absurd zero (owned.page_pos known)) fun _ => ?_
  refine meets_free_space owned isDir le_rfl (by decide) ?_ fun m' o' freed all =>
    post m' o' freed fun r belongs => ?_
  · intro v mem mapped
    rw [size] at mem
    exact unshared.user owned isDir mem.2 mapped
  · refine all r belongs fun v user => ?_
    rw [size]
    exact (owned.user r q v user).2.1

/-- What a function that makes a directory leaves when one of its first `n` calls of `kalloc` has
failed: memory as it was, but for the contents of pages that are free. -/
structure GivenBack (L : Link) (n : ℕ) (m m' : Mem) (o : ℕ → Owner) : Prop where
  owned : Owned L m' o
  aside : Aside m m' o o
  failed : m'.failed = true
  short : ∃ k < n, FailsAt k m

/-- A directory under construction gives back what it has. -/
theorem Lent.givenBack {n : ℕ} {Q : Unit → Mem → Prop} (lent : Lent q o o₁) (owned : Owned L m o)
    (unshared : m.Unshared) (free : o q = .free) (aside : Aside m m₁ o o₁) (owned₁ : Owned L m₁ o₁)
    (isDir : o₁ q = .dir) (failed : m₁.failed = true) (short : ∃ k < n, FailsAt k m)
    (post : ∀ m', GivenBack L n m m' o → Q () m') : Meets (Part2.freevm L q) m₁ E Q := by
  have loose : (o q).Loose := by
    rw [free]
    trivial
  refine meets_part2_freevm owned₁ (unshared.of_eq aside.smAddr) isDir fun m' o' freed all => ?_
  have same : o' = o := funext (lent.returned owned free freed all)
  subst same
  exact post m' ⟨freed.owned, aside.freed owned loose freed, freed.failed.trans failed, short⟩

/-- `setupkvm` of part2 makes a directory, or gives everything back. -/
theorem meets_part2_setupkvm {Q : Option ℕ → Mem → Prop} (owned : Owned L m o)
    (unshared : m.Unshared) (quiescent : Quiescent o)
    (failure : ∀ m', GivenBack L (1 + kernelTables.card) m m' o → Q none m')
    (success : ∀ q m' o', Kvm L q m m' o o' → Lent q o o' → Q (some q) m') :
    Meets (Part2.setupkvm L) m E Q := by
  refine meets_setup_kernel owned ?_ ?_ fun q m' o' kvm lent _ =>
    success q m' o' kvm (lent quiescent)
  · exact fun m' quiet fails =>
      failure m' ⟨owned.of_quiet quiet, .of_quiet quiet, quiet.failed, 0, by omega, fails⟩
  · intro q m₁ o₁ owned₁ free isDir aside lent _ failed short
    exact (lent quiescent).givenBack owned unshared free aside owned₁ isDir failed short failure

/-! ## What a process sees -/

/-- The page behind page number `v`, if it is mapped. -/
def Mem.userPage (m : Mem) (q v : ℕ) : Option Page :=
  if present (m.pte q v) then some (m.page (pteAddr (m.pte q v))) else none

/-- A process with directory `q` writes to a page that it has mapped. -/
def UserWrite (q : ℕ) (m m' : Mem) : Prop :=
  ∃ v < USERTOP, ∃ contents, present (m.pte q v) = true ∧ m' = m.fill (pteAddr (m.pte q v)) contents

/-- Whatever the two processes have written, what one writes next is not seen by the other. -/
def Isolated (q d : ℕ) (m : Mem) : Prop :=
  ∀ m₁ m₂, Relation.ReflTransGen (fun a b => UserWrite q a b ∨ UserWrite d a b) m m₁ →
    UserWrite q m₁ m₂ →
    ∀ v < USERTOP, m₂.userPage d v = m₁.userPage d v

/-- A process that writes to its memory changes no page table. -/
theorem UserWrite.owned (write : UserWrite q m m') (owned : Owned L m o) (unshared : m.Unshared)
    (isDir : o q = .dir) :
    Owned L m' o ∧ m'.Unshared ∧ ∀ d v, o d = .dir → v < USERTOP → m'.pte d v = m.pte d v := by
  rcases write with ⟨v, below, contents, here, rfl⟩
  have user := unshared.user owned isDir below (ne_zero_of_present here)
  have kept : ∀ r, (o r).HoldsEntries →
      (m.fill (pteAddr (m.pte q v)) contents).page r = m.page r := by
    intro r holds
    apply Mem.fill_page_of_ne
    rintro rfl
    rw [user] at holds
    exact holds
  exact ⟨owned.of_kept kept rfl rfl, unshared,
    fun d v isDir' below' => owned.pte_congr kept isDir' (inside_of_below below')⟩

/-- Two directories that own their pages are isolated from one another. -/
theorem isolated_of_owned (owned : Owned L m o) (unshared : m.Unshared) (isDir : o q = .dir)
    (isDir' : o d = .dir) (other : q ≠ d) : Isolated q d m := by
  intro m₁ m₂ run write v below
  have kept : Owned L m₁ o ∧ m₁.Unshared := by
    refine Runs.invariant_of_run (I := fun m₁ => Owned L m₁ o ∧ m₁.Unshared)
      (fun a b step both => ?_) run
      ⟨owned, unshared⟩
    rcases step with write | write
    · have after := write.owned both.1 both.2 isDir
      exact ⟨after.1, after.2.1⟩
    · have after := write.owned both.1 both.2 isDir'
      exact ⟨after.1, after.2.1⟩
  have same := (write.owned kept.1 kept.2 isDir).2.2 d v isDir' below
  rcases write with ⟨x, belowX, contents, here, rfl⟩
  rw [Mem.userPage, Mem.userPage, same]
  split
  next mapped =>
    rw [Mem.fill_page_of_ne]
    intro page
    have user := kept.2.user kept.1 isDir' below (ne_zero_of_present mapped)
    rw [page, kept.2.user kept.1 isDir belowX (ne_zero_of_present here)] at user
    cases user
    exact other rfl
  next => rfl

/-! ## `copyuvm` -/

/-- Directory `d` is a new copy of the user pages of `q` below `sz`. -/
structure CopyOf (L : Link) (d q sz : ℕ) (m m' : Mem) : Prop where
  present : ∀ v < pages sz, present (m'.pte d v) = true
  flags : ∀ v < pages sz, pteFlags (m'.pte d v) = pteFlags (m.pte q v)
  fresh : ∀ v < pages sz, pteAddr (m'.pte d v) ∈ m.freelist ∧ pteAddr (m'.pte d v) ∉ m'.freelist
  contents : ∀ v < pages sz, m'.page (pteAddr (m'.pte d v)) = m.page (pteAddr (m.pte q v))
  others : ∀ v < USERTOP, pages sz ≤ v → Vm.present (m'.pte d v) = false
  distinct : ∀ v < pages sz, ∀ w < pages sz, pteAddr (m'.pte d v) = pteAddr (m'.pte d w) → v = w
  apart : ∀ v < pages sz, ∀ w < USERTOP, Vm.present (m.pte q w) = true →
    pteAddr (m'.pte d v) ≠ pteAddr (m.pte q w)
  kernel : ∃ m₁, Part2.setupkvm L m = .ok (some d, m₁) ∧ ∀ v, USERTOP ≤ v → v < 2 ^ 20 →
    m'.pte d v = m₁.pte d v
  parent : ∀ v < 2 ^ 20, m'.pte q v = m.pte q v
  isolated : Isolated q d m' ∧ Isolated d q m'

/-- A process cannot have all of the user address space: there are not so many pages. -/
theorem Owned.pages_lt (owned : Owned L m o) (unshared : m.Unshared) (isDir : o q = .dir)
    (mapped : ∀ v < pages sz, present (m.pte q v) = true) : pages sz < USERTOP := by
  by_contra all
  have user : ∀ v < USERTOP, o (pteAddr (m.pte q v)) = .user q v := fun v below =>
    unshared.user owned isDir below
      (ne_zero_of_present (mapped v (below.trans_le (Nat.not_lt.mp all))))
  have count : (Finset.range USERTOP).card ≤ (Finset.range LASTPAGE).card := by
    refine Finset.card_le_card_of_injOn (fun v => pteAddr (m.pte q v)) (fun v mem => ?_)
      fun v mem w mem' same => ?_
    · have below := Finset.mem_range.mp mem
      refine Finset.mem_coe.mpr (Finset.mem_range.mpr ((owned.range _).mp ?_).2)
      rw [user v below]
      nofun
    · have one := user v (Finset.mem_range.mp mem)
      have two := user w (Finset.mem_range.mp mem')
      simp only at same
      rw [same, two] at one
      cases one
      rfl
  rw [Finset.card_range, Finset.card_range] at count
  exact absurd count (by decide)

theorem le_of_pages_lt (less : pages sz < USERTOP) : sz ≤ KERNBASE := by
  simp only [pages, USERTOP, KERNBASE, PGSIZE] at *
  omega

/-- The flags of an entry that is present are those of its copy. -/
theorem pteFlags_copy {e : ℕ} (here : present e = true) :
    pteFlags (p * PGSIZE ||| pteFlags e ||| PTE_P) = pteFlags e := by
  have odd : pteFlags e ||| PTE_P = pteFlags e := by
    apply Nat.eq_of_testBit_eq
    intro i
    rw [Nat.testBit_or]
    cases i with
    | zero =>
        simp only [present, Nat.testBit_zero, decide_eq_true_eq] at here
        have bit : pteFlags e % 2 = 1 := by
          simp only [pteFlags, PGSIZE]
          omega
        simp [bit]
    | succ i => simp [PTE_P, Nat.testBit_succ]
  have small := pteFlags_lt e
  rw [pte_eq_add small, odd]
  change (p * PGSIZE + pteFlags e) % PGSIZE = pteFlags e
  simp only [PGSIZE] at *
  omega

/-- What the loop of `copyuvm` has made of a new directory. -/
theorem Kvm.copyOf (kvm : Kvm L d m m₁ o o₁) (lent : Lent d o o₁) (owned : Owned L m o)
    (unshared : m.Unshared) (quiescent : Quiescent o) (isDir : o q = .dir)
    (mapped : ∀ v < pages sz, present (m.pte q v) = true) (less : pages sz < USERTOP)
    (made : Part2.setupkvm L m = .ok (some d, m₁))
    (grown : Grown L d 0 (pages sz) (copiedFlags m₁ q) m₁ m₂ o₁ o₂)
    (copies : Copies q d 0 (pages sz) m₁ m₂ o₁) :
    CopyOf L d q sz m m₂ := by
  have inside : ∀ v < pages sz, v < 2 ^ 20 := fun v below => inside_of_below (below.trans less)
  have mem : ∀ v < pages sz, v ∈ Set.Ico 0 (pages sz) :=
    fun v below => Set.mem_Ico.mpr ⟨Nat.zero_le v, below⟩
  have other : q ≠ d := by
    rintro rfl
    have free := kvm.free
    rw [isDir] at free
    cases free
  have isDir₁ := kvm.aside.isDir isDir
  have unshared₁ := unshared.of_eq kvm.aside.smAddr
  have owned₂ := grown.edited.owned
  have unshared₂ : m₂.Unshared := unshared₁.of_eq grown.edited.kept.smAddr
  have isDir₂ : o₂ q = .dir := grown.edited.kept.dir_iff.mpr isDir₁
  have before : ∀ v < 2 ^ 20, m₁.pte q v = m.pte q v :=
    fun v below => kvm.aside.pte owned isDir below
  have user : ∀ v < pages sz, o₂ (pteAddr (m₂.pte d v)) = .user d v :=
    fun v below => grown.user (fun _ => pteFlags_lt _) (mem v below)
  have parentUser : ∀ w < USERTOP, present (m.pte q w) = true →
      o (pteAddr (m.pte q w)) = .user q w :=
    fun w below here => unshared.user owned isDir below (ne_zero_of_present here)
  have free : ∀ v < pages sz, o (pteAddr (m₂.pte d v)) = .free := by
    intro v below
    rcases lent.kept owned quiescent kvm.free grown.edited.kept (pteAddr (m₂.pte d v))
      with same | ⟨isFree, _⟩
    · rw [user v below] at same
      have isDir' := (owned.user _ d v same.symm).1
      rw [kvm.free] at isDir'
      cases isDir'
    · exact isFree
  constructor
  case present => exact fun v below => grown.present (mem v below)
  case flags =>
    intro v below
    rcases grown.mapped v (mem v below) with ⟨p, pte, _⟩
    rw [pte, copiedFlags, before v (inside v below), pteFlags_copy (mapped v below)]
  case fresh =>
    intro v below
    rw [owned.free, owned₂.free, user v below]
    exact ⟨free v below, nofun⟩
  case contents =>
    intro v below
    have own := parentUser v (below.trans less) (mapped v below)
    have own₁ : o₁ (pteAddr (m₁.pte q v)) = .user q v :=
      unshared₁.user kvm.owned isDir₁ (below.trans less)
        (by rw [before v (inside v below)]; exact ne_zero_of_present (mapped v below))
    rw [copies v (mem v below) own₁, before v (inside v below), kvm.aside.page]
    all_goals
      rw [own]
      nofun
  case others =>
    intro v below above
    rw [grown.edited.pte v (fun range => absurd (Set.mem_Ico.mp range).2 (Nat.not_lt.mpr above))
      (inside_of_below below),
      kvm.empty below]
    rfl
  case distinct =>
    intro v below w below' same
    have one := user v below
    rw [same, user w below'] at one
    cases one
    rfl
  case apart =>
    intro v below w below' here same
    have isFree := free v below
    rw [same, parentUser w below' here] at isFree
    cases isFree
  case kernel =>
    refine ⟨m₁, made, fun v above below => grown.edited.pte v (fun range => ?_) below⟩
    exact absurd (Set.mem_Ico.mp range).2 (Nat.not_lt.mpr (less.le.trans above))
  case parent =>
    intro v below
    rw [grown.edited.kept.pte kvm.owned other isDir₁ below, before v below]
  case isolated =>
    exact ⟨isolated_of_owned owned₂ unshared₂ isDir₂ grown.edited.isDir other,
      isolated_of_owned owned₂ unshared₂ grown.edited.isDir isDir₂ other.symm⟩

/-- The calls of `kalloc` in `copyuvm`. -/
def Part2.copyCalls (sz : ℕ) : ℕ :=
  1 + kernelTables.card + (((Finset.range (pages sz)).image (· / NPTENTRIES)).card + pages sz)

/-- `copyuvm` of part2 makes a copy, or gives everything back. -/
theorem meets_part2_copyuvm (owned : Owned L m o) (unshared : m.Unshared) (quiescent : Quiescent o)
    (isDir : o q = .dir) (mapped : ∀ v < pages sz, present (m.pte q v) = true) :
    Meets (Part2.copyuvm L q sz) m (fun _ => False) fun r m' => match r with
      | none => GivenBack L (Part2.copyCalls sz) m m' o
      | some d => CopyOf L d q sz m m' := by
  have less := owned.pages_lt unshared isDir mapped
  have setup : Meets (Part2.setupkvm L) m (fun _ => False) fun r m₁ => match r with
      | none => GivenBack L (1 + kernelTables.card) m m₁ o
      | some d => ∃ o₁, Kvm L d m m₁ o o₁ ∧ Lent d o o₁ :=
    meets_part2_setupkvm owned unshared quiescent (fun _ givenBack => givenBack)
      fun _ _ o₁ kvm lent => ⟨o₁, kvm, lent⟩
  rcases setup.returns fun _ => id with ⟨r, m₁, made, kvm⟩
  refine meets_bind_ok made ?_
  rcases r with _ | d
  · rcases kvm.short with ⟨k, below, fails⟩
    exact meets_pure ⟨kvm.owned, kvm.aside, kvm.failed, k, by rw [Part2.copyCalls]; omega, fails⟩
  · rcases kvm with ⟨o₁, kvm, lent⟩
    have other : q ≠ d := by
      rintro rfl
      have free := kvm.free
      rw [isDir] at free
      cases free
    have inside : ∀ v ∈ Set.Ico 0 (pages sz), v < USERTOP :=
      fun v mem => (Set.mem_Ico.mp mem).2.trans less
    have parent := kvm.aside.isDir isDir
    have start : 0 = 0 * PGSIZE := (Nat.zero_mul _).symm
    change Meets (copyLoop L d q sz 0 >>= _) m₁ _ _
    rw [start]
    refine meets_bind (meets_copyLoop kvm.owned parent other (Grown.refl kvm.owned kvm.isDir)
      (by simp [Copies]) (le_of_pages_lt less) le_rfl (Nat.zero_le _)
      (fun v mem => kvm.empty (inside v mem)) ?_ ?_ ?_)
    · intro v mem none
      rw [kvm.aside.pte owned isDir (inside_of_below (inside v mem))] at none
      exact absurd none (ne_zero_of_present (mapped v (Set.mem_Ico.mp mem).2))
    · intro m₂ o₂ stopped
      have loose : (o d).Loose := by
        rw [kvm.free]
        trivial
      have lent₂ := lent.kept owned quiescent kvm.free stopped.edited.kept
      have short : ∃ k < Part2.copyCalls sz, FailsAt k m := by
        rcases stopped.short ((Finset.range (pages sz)).image (· / NPTENTRIES)) fun v mem =>
          Finset.mem_image_of_mem _ (Finset.mem_range.mpr (Set.mem_Ico.mp mem).2)
            with ⟨k, below, fails⟩
        have atMost : missing ((Finset.range (pages sz)).image (· / NPTENTRIES)) d m₁ ≤ _ :=
          Finset.card_filter_le _ _
        exact ⟨_, by rw [Part2.copyCalls]; omega, kvm.allocs.failsAt fails⟩
      exact meets_bind (lent₂.givenBack owned unshared kvm.free
        (kvm.aside.frame owned loose stopped.edited.kept.toFrame) stopped.edited.owned
        stopped.edited.isDir stopped.failed short fun m' givenBack => meets_pure givenBack)
    · intro m₂ o₂ grown copies
      exact meets_pure (kvm.copyOf lent owned unshared quiescent isDir mapped less made
        grown copies)

/-- `copyuvm` returns a copy, or it returns 0 because a call of `kalloc` has failed, and has
changed neither the parent nor the free pages. -/
theorem copyuvm_copies (owned : Owned L m o) (unshared : m.Unshared) (quiescent : Quiescent o)
    (isDir : o q = .dir) (mapped : ∀ v < pages sz, present (m.pte q v) = true) :
    ∃ r m', Part2.copyuvm L q sz m = .ok (r, m') ∧ match r with
      | none => m'.failed = true ∧ (∀ v < 2 ^ 20, m'.pte q v = m.pte q v) ∧
          ∀ p, p ∈ m'.freelist ↔ p ∈ m.freelist
      | some d => CopyOf L d q sz m m' := by
  rcases (meets_part2_copyuvm owned unshared quiescent isDir mapped).returns fun _ => id
    with ⟨r, m', returned, copied⟩
  refine ⟨r, m', returned, ?_⟩
  rcases r with _ | d
  · refine ⟨copied.failed, fun v below => copied.aside.pte owned isDir below, fun p => ?_⟩
    rw [owned.free, copied.owned.free]
  · exact copied

/-- Where there is memory, a process of one page is copied. -/
theorem copyuvm_copies_one : ∃ (m : Mem) (q d : ℕ) (m' : Mem), m.failed = false ∧
    Part2.copyuvm link q PGSIZE m = .ok (some d, m') ∧ CopyOf link d q PGSIZE m m' := by
  rcases exists_roomy link (le_refl 50000) with ⟨m, o, q, roomy⟩
  have mapped : ∀ v < pages PGSIZE, present (m.pte q v) = true := by
    intro v below
    exact (roomy.exactly v (below.trans (by decide))).mpr below
  rcases copyuvm_copies roomy.owned roomy.unshared roomy.quiescent roomy.isDir mapped
    with ⟨r, m', returned, copied⟩
  rcases r with _ | d
  · have givenBack := (meets_part2_copyuvm roomy.owned roomy.unshared roomy.quiescent roomy.isDir
      mapped).of_ok returned
    rcases givenBack.short with ⟨k, below, fails⟩
    refine absurd fails (roomy.ample.not_failsAt ?_)
    rw [Part2.copyCalls, card_kernelTables] at below
    exact below.trans_le (by decide)
  · exact ⟨m, q, d, m', roomy.failed, returned, copied⟩

end Xv6.Vm
