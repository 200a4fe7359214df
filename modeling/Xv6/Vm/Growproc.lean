import Xv6.Vm.Mapped
import Xv6.Vm.Unshared

/-!
# Growing a process

When `allocuvm` runs out of memory at any of its calls of `kalloc`, the directory maps what it
mapped before, and only the page tables that it has got stay out of the free list. `growproc`
reports what it did, except where a process gives up everything: `deallocuvm` has done it, and
the size 0 that it returns looks like a failure.
-/

namespace Xv6.Vm

open Prog

variable {L : Link} {m m' : Mem} {o o' : ℕ → Owner} {p q v sz : ℕ} {i : Fin NPROC} {s : Kernel}

/-! ## Whether a call of `kalloc` has failed -/

theorem meets_any {α : Type} (program : MemProg α) (m : Mem) :
    Meets program m (fun _ => True) fun _ _ => True :=
  meets_of_ok fun _ _ _ => trivial

/-- An allocation that succeeds has not failed. -/
theorem kalloc_failed (m : Mem) :
    Meets kalloc m (fun _ => True) fun r m' => r ≠ none → m'.failed = m.failed := by
  unfold Meets kalloc
  cases m.faults.headD false with
  | true => exact fun some => absurd rfl some
  | false =>
      cases m.freelist with
      | nil => exact fun some => absurd rfl some
      | cons p rest => exact fun _ => rfl

/-- A walk that succeeds has seen no failure. -/
theorem walkpgdir_failed (q va : ℕ) (alloc : Bool) (m : Mem) :
    Meets (walkpgdir q va alloc) m (fun _ => True) fun r m' => r ≠ none → m'.failed = m.failed := by
  unfold walkpgdir
  refine meets_bind (meets_get (meets_ite (fun _ => meets_pure fun _ => rfl) fun _ => ?_))
  refine meets_ite (fun _ => ?_) fun _ => meets_pure fun some => absurd rfl some
  refine (kalloc_failed m).bind fun r m₁ same => ?_
  cases r with
  | none => exact meets_pure fun some => absurd rfl some
  | some t => exact meets_bind (meets_modify
    (meets_bind (meets_modify (meets_pure fun _ => same nofun))))

theorem mapLoop_failed (q perm n a pa : ℕ) (m : Mem) :
    Meets (mapLoop q perm n a pa) m (fun _ => True) fun r m' => r = true →
      m'.failed = m.failed := by
  induction n generalizing a pa m with
  | zero => exact meets_pure fun _ => rfl
  | succ n ih =>
      rw [mapLoop]
      refine (walkpgdir_failed q a true m).bind fun r m₁ same => ?_
      cases r with
      | none => exact meets_pure (by rintro ⟨⟩)
      | some place =>
          refine meets_bind (meets_get
            (meets_ite (fun _ => meets_bind (meets_throw trivial)) fun _ => ?_))
          refine meets_bind (meets_modify ((ih _ _ _).mono (fun _ => id) fun r m₂ same' done => ?_))
          exact (same' done).trans (same (by rintro ⟨⟩))

theorem mappages_failed (q va size pa perm : ℕ) (m : Mem) :
    Meets (mappages q va size pa perm) m (fun _ => True) fun r m' => r = true →
      m'.failed = m.failed := by
  unfold mappages
  exact mapLoop_failed _ _ _ _ _ _

theorem allocLoop_failed (oldsz newsz a : ℕ) (m : Mem) :
    Meets (allocLoop L q oldsz newsz a) m (fun _ => True) fun r m' => r ≠ 0 →
      m'.failed = m.failed := by
  induction left : newsz - a using Nat.strong_induction_on generalizing a m with
  | _ left' ih =>
      rw [allocLoop]
      refine meets_ite (fun more => ?_) fun _ => meets_pure fun _ => rfl
      refine (kalloc_failed m).bind fun r m₁ same => ?_
      cases r with
      | none => exact (meets_any _ m₁).bind fun _ _ _ => meets_pure fun nonzero =>
          absurd rfl nonzero
      | some p =>
          refine meets_bind (meets_modify
            ((mappages_failed q _ _ _ _ _).bind fun done m₂ same' => ?_))
          refine meets_ite (fun mapped => ?_) fun _ => ?_
          · have before : m₂.failed = m.failed := (same' mapped).trans (same (by rintro ⟨⟩))
            have less : newsz - (a + PGSIZE) < left' := by
              simp only [PGSIZE]
              omega
            refine (ih _ less (a + PGSIZE) m₂ rfl).mono (fun _ => id) fun r m₃ same'' nonzero => ?_
            exact (same'' nonzero).trans before
          · refine (meets_any _ m₂).bind fun _ m₃ _ => (meets_any _ m₃).bind fun _ _ _ => ?_
            exact meets_pure fun nonzero => absurd rfl nonzero

theorem allocuvm_noted (q oldsz newsz : ℕ) (m : Mem) :
    Meets (allocuvm L q oldsz newsz) m (fun _ => True) fun r m' => r ≠ 0 →
      m'.failed = m.failed := by
  refine meets_ite (fun _ => meets_pure fun nonzero => absurd rfl nonzero) fun _ => ?_
  exact meets_ite (fun _ => meets_pure fun _ => rfl) fun _ => allocLoop_failed _ _ _ m

/-! ## `allocuvm` -/

/-- Page `p` has become a page table of directory `q`. -/
def NewTable (q : ℕ) (m m' : Mem) (p : ℕ) : Prop :=
  ∃ d < NPDENTRIES, m.entry q d = 0 ∧ Links (m'.entry q d) p

/-- What a growth that fails leaves: nothing is mapped that was not, and the free pages are those
that have not become page tables. -/
structure Undone (q : ℕ) (m m' : Mem) : Prop where
  ptes : ∀ v < USERTOP, m'.pte q v = m.pte q v
  free : ∀ p, p ∈ m'.freelist ↔ p ∈ m.freelist ∧ ¬NewTable q m m' p

/-- What has been restored is as it was. -/
theorem Restored.undone {w : ℕ} (restored : Restored L q v w m m' o o') (owned : Owned L m o)
    (unshared : m.Unshared) (zero : ∀ x ∈ Set.Ico v w, m.pte q x = 0) : Undone q m m' where
  ptes := by
    intro x below
    by_cases mem : x ∈ Set.Ico v w
    · rw [restored.zero x mem, zero x mem]
    · exact restored.edited.pte x mem (inside_of_below below)
  free := by
    have owned' := restored.edited.owned
    have isDir := restored.edited.kept.isDir
    have isDir' := restored.edited.isDir
    intro p
    rw [owned.free, owned'.free]
    constructor
    · intro free'
      have free : o p = .free := by
        by_contra notFree
        rw [restored.stays p notFree] at free'
        exact notFree free'
      refine ⟨free, ?_⟩
      rintro ⟨d, index, _, linked⟩
      rcases owned'.pde q d isDir' index with none | ⟨t, linked', table⟩
      · exact linked.ne_zero none
      · rw [← linked.unique linked', free'] at table
        cases table
    · rintro ⟨free, notTable⟩
      -- A page that was free is free, a new table, or one of the user pages that are all gone.
      by_contra taken
      rcases restored.edited.kept.owner p with same | ⟨_, mine⟩
      · exact taken (same.trans free)
      · cases owner : o' p with
        | free => exact taken owner
        | temp =>
            have was := restored.edited.kept.temps p owner
            rw [free] at was
            cases was
        | table q' d =>
            rw [owner] at mine
            cases (mine : q' = q)
            rcases owned'.table p q d owner with ⟨_, index, linked⟩
            rcases owned.pde q d isDir index with none | ⟨t, linked', table⟩
            · exact notTable ⟨d, index, none, linked⟩
            · have table' : o' t = .table q d := by
                rw [restored.stays t (by rw [table]; nofun), table]
              have same := linked.unique (owned'.table t q d table').2.2
              rw [← same, free] at table
              cases table
        | user q' x =>
            rw [owner] at mine
            cases (mine : q' = q)
            rcases owned'.user p q x owner with ⟨_, below, here, page⟩
            have inside := inside_of_below below
            by_cases mem : x ∈ Set.Ico v w
            · rw [restored.zero x mem] at here
              cases here
            · rw [restored.edited.pte x mem inside] at here page
              have user := unshared.user owned isDir below (ne_zero_of_present here)
              rw [page, free] at user
              cases user
        | outside | dir | kstack | shared | object =>
            rw [owner] at mine
            exact mine

theorem pages_le_of_PGROUNDUP_le {oldsz : ℕ} (small : oldsz ≤ KERNBASE)
    (above : PGROUNDUP oldsz ≤ v * PGSIZE) :
    pages oldsz ≤ v := by
  rw [PGROUNDUP_eq small] at above
  exact Nat.le_of_mul_le_mul_right above (by decide)

/-- A growth in which a call of `kalloc` fails returns 0 and leaves nothing behind but page tables.
-/
theorem allocuvm_failed {oldsz newsz : ℕ} (owned : Owned L m o) (unshared : m.Unshared)
    (isDir : o q = .dir) (fresh : m.failed = false) (atLeast : oldsz ≤ newsz)
    (small : newsz < KERNBASE)
    (none : ∀ v < USERTOP, PGROUNDUP oldsz ≤ v * PGSIZE → present (m.pte q v) = false) :
    ∃ r m', allocuvm L q oldsz newsz m = .ok (r, m') ∧
      (m'.failed = true → r = 0 ∧ Undone q m m') := by
  have zero : ∀ v ∈ Set.Ico (pages oldsz) (pages newsz), m.pte q v = 0 := by
    intro v mem
    rw [Set.mem_Ico] at mem
    have below : v < USERTOP := mem.2.trans_le (pages_le_usertop small.le)
    by_contra mapped
    have here := owned.present_of_ne_zero isDir (inside_of_below below) mapped
    rw [none v below ?_] at here
    · cases here
    · rw [PGROUNDUP_eq (atLeast.trans small.le)]
      exact Nat.mul_le_mul_right PGSIZE mem.1
  rcases Nat.eq_zero_or_pos newsz with rfl | positive
  · have nothing : allocuvm L q oldsz 0 m = .ok (0, m) := by
      rw [allocuvm, if_neg (by decide), if_neg (Nat.not_lt.mpr atLeast), allocLoop,
        if_neg (Nat.not_lt_zero _)]
      rfl
    refine ⟨0, m, nothing, fun failed => ?_⟩
    rw [fresh] at failed
    cases failed
  · have outcome : Meets (allocuvm L q oldsz newsz) m (fun _ => False) fun r m' =>
        (r ≠ 0 → m'.failed = m.failed) → m'.failed = true → r = 0 ∧ Undone q m m' := by
      refine meets_allocuvm owned isDir (fun _ => zero) ?_ ?_ ?_ ?_
      · exact fun large => absurd small (Nat.not_lt.mpr large)
      · exact fun less => absurd atLeast (Nat.not_le.mpr less)
      · exact fun _ _ m' o' restored _ _ => ⟨rfl, restored.undone owned unshared zero⟩
      · intro _ _ m' o' grown same failed
        rw [same positive.ne', fresh] at failed
        cases failed
    rcases (outcome.and (allocuvm_noted q oldsz newsz m)).returns (fun _ stop => stop.1)
      with ⟨r, m', returned, undone, same⟩
    exact ⟨r, m', returned, undone same⟩

/-- The second of two pages cannot be had. -/
theorem allocuvm_failed_second : ∃ (m : Mem) (q r : ℕ) (m' : Mem),
    allocuvm link q PGSIZE (3 * PGSIZE) m = .ok (r, m') ∧ m'.failed = true ∧ r = 0 ∧
      Undone q m m' := by
  rcases exists_roomy link (Nat.zero_le _) with ⟨m, o, q, roomy⟩
  rcases roomy.withFaults [false, true] with ⟨owned, unshared, exactly⟩
  have fresh : ({ m with faults := [false, true] } : Mem).failed = false := roomy.failed
  generalize faults : ({ m with faults := [false, true] } : Mem) = m₀
    at owned unshared exactly fresh
  have none : ∀ v < USERTOP, PGROUNDUP PGSIZE ≤ v * PGSIZE → present (m₀.pte q v) = false := by
    intro v below above
    have outside := pages_le_of_PGROUNDUP_le (by decide) above
    exact Bool.eq_false_iff.mpr fun here => Nat.not_lt.mpr outside ((exactly v below).mp here)
  have failing : ∃ r m', allocuvm link q PGSIZE (3 * PGSIZE) m₀ = .ok (r, m') ∧
      (m'.failed = true → r = 0 ∧ Undone q m₀ m') :=
    allocuvm_failed owned unshared roomy.isDir fresh (by decide) (by decide) none
  rcases failing with ⟨r, m', returned, undone⟩
  have zero : ∀ v ∈ Set.Ico (pages PGSIZE) (pages (3 * PGSIZE)), m₀.pte q v = 0 := by
    intro v mem
    rw [Set.mem_Ico] at mem
    exact exactly.zero owned roomy.isDir mem.1 (mem.2.trans (by decide))
  -- With both pages there, two calls of `kalloc` would have succeeded.
  have failed : m'.failed = true := by
    refine (meets_allocuvm (E := fun _ => False) (Q := fun _ m' => m'.failed = true) owned
      roomy.isDir
      (fun _ => zero) (fun large => absurd large (by decide)) (fun less => absurd less (by decide))
      (fun _ _ _ _ restored => restored.failed) ?_).of_ok returned
    intro _ _ m' o' grown
    have tables : ∀ v ∈ Set.Ico (pages PGSIZE) (pages (3 * PGSIZE)), v / NPTENTRIES ∈
        ({0} : Finset ℕ) := by
      intro v mem
      rw [Set.mem_Ico, show pages PGSIZE = 1 by decide, show pages (3 * PGSIZE) = 3 by decide]
        at mem
      rw [Finset.mem_singleton, NPTENTRIES]
      omega
    have table : m'.entry q 0 ≠ 0 := by
      intro absent
      have here := grown.present (x := 1) (by rw [Set.mem_Ico]; decide)
      rw [Mem.pte_of_none absent] at here
      cases here
    rcases grown.drawn {0} tables with ⟨c, allocs, count⟩
    rw [show pages (3 * PGSIZE) - pages PGSIZE = 2 by
      decide, missing_singleton, missing_singleton, if_neg table] at count
    have second := allocs.fine 1 (by split_ifs at count; all_goals omega)
    rw [← faults] at second
    cases second
  exact ⟨m₀, q, r, m', returned, failed, undone failed⟩

/-! ## `growproc` -/

/-- What `growproc(n)` has reported in process `i` is what it has done. -/
def Reports (i : Fin NPROC) (n : ℤ) (s : Kernel) (r : Bool) (s' : Kernel) : Prop :=
  if r then
    ((s'.proc i).sz : ℤ) = (s.proc i).sz + n ∧ (s'.proc i).sz < KERNBASE ∧
      UserPages s'.mem (s'.proc i).pgdir (s'.proc i).sz
  else
    (s'.proc i).sz = (s.proc i).sz ∧
      ∀ v < USERTOP, s'.mem.pte (s'.proc i).pgdir v = s.mem.pte (s.proc i).pgdir v

/-- A larger size has the pages of that size. -/
theorem Grown.userPages {newsz : ℕ} {flags : ℕ → ℕ}
    (grown : Grown L q (pages sz) (pages newsz) flags m m' o o') (larger : sz ≤ newsz)
    (exactly : UserPages m q sz) : UserPages m' q newsz := by
  intro v below
  by_cases mem : v ∈ Set.Ico (pages sz) (pages newsz)
  · exact iff_of_true (grown.present mem) (Set.mem_Ico.mp mem).2
  · rw [grown.edited.pte v mem (inside_of_below below), exactly v below]
    have := pages_mono larger
    rw [Set.mem_Ico] at mem
    omega

theorem Cleared.userPages {newsz : ℕ} (cleared : Cleared L q (pages newsz) (pages sz) m m' o o')
    (smaller : newsz ≤ sz) (exactly : UserPages m q sz) : UserPages m' q newsz := by
  intro v below
  by_cases mem : v ∈ Set.Ico (pages newsz) (pages sz)
  · rw [cleared.zero v mem]
    exact iff_of_false nofun (Nat.not_lt.mpr (Set.mem_Ico.mp mem).1)
  · rw [cleared.edited.pte v mem (inside_of_below below), exactly v below]
    have := pages_mono smaller
    rw [Set.mem_Ico] at mem
    omega

section Growproc

variable {n : ℤ} {E : Panic → Prop} {Q : Bool → Kernel → Prop}

/-- The size that `growproc` asks for. -/
theorem target_eq {sz : ℕ} (range : 0 ≤ sz + n) (word : sz + n < 2 ^ 32) :
    (((sz + n) % 2 ^ 32).toNat : ℤ) = sz + n := by
  rw [Int.emod_eq_of_lt range word, Int.toNat_of_nonneg range]

/-- `growproc` is a call of `allocuvm` or `deallocuvm`, and the test of what it returns. -/
theorem meets_growproc (up : n > 0 → Meets (allocuvm L (s.proc i).pgdir (s.proc i).sz
      (((s.proc i).sz + n) % 2 ^ 32).toNat) s.mem E fun sz m' =>
        (sz = 0 → Q false { s with mem := m' }) ∧
          (sz ≠ 0 → Q true ({ s with mem := m' }.setProc i { s.proc i with sz := sz })))
    (down : n < 0 → Meets (deallocuvm L (s.proc i).pgdir (s.proc i).sz
      (((s.proc i).sz + n) % 2 ^ 32).toNat) s.mem E fun sz m' =>
        (sz = 0 → Q false { s with mem := m' }) ∧
          (sz ≠ 0 → Q true ({ s with mem := m' }.setProc i { s.proc i with sz := sz })))
    (stay : n = 0 → Q true (s.setProc i (s.proc i))) : Meets (growproc L i n) s E Q := by
  have rest : ∀ m' sz, n ≠ 0 → (sz = 0 → Q false { s with mem := m' }) →
      (sz ≠ 0 → Q true ({ s with mem := m' }.setProc i { s.proc i with sz := sz })) →
      Meets (if n ≠ 0 ∧ sz = 0 then return false
        else do
          modifyProc i fun p => { p with sz := sz }
          return true : KernelProg Bool) { s with mem := m' } E Q := by
    intro m' sz moved none some
    refine meets_ite (fun both => meets_pure (none both.2)) fun neither => ?_
    exact meets_bind (meets_modify (meets_pure (some fun zero => neither ⟨moved, zero⟩)))
  refine meets_bind (meets_get ?_)
  rcases lt_trichotomy n 0 with negative | zero | positive
  · rw [if_neg (by omega), if_pos negative]
    refine meets_bind (meets_onMem ((down negative).mono (fun _ => id) fun sz m' both => ?_))
    exact rest m' sz negative.ne both.1 both.2
  · rw [if_neg (by omega), if_neg (by omega)]
    refine meets_bind (meets_pure (meets_ite (fun both => absurd zero both.1) fun _ => ?_))
    exact meets_bind (meets_modify (meets_pure (stay zero)))
  · rw [if_pos positive]
    refine meets_bind (meets_onMem ((up positive).mono (fun _ => id) fun sz m' both => ?_))
    exact rest m' sz (ne_of_gt positive) both.1 both.2

variable (owned : Owned L s.mem o) (isDir : o (s.proc i).pgdir = .dir)
  (small : (s.proc i).sz < KERNBASE) (exactly : UserPages s.mem (s.proc i).pgdir (s.proc i).sz)

include owned isDir small exactly

/-- Growing is reported as it is. -/
theorem growproc_up (positive : n > 0) (word : n < 2 ^ 31) :
    Meets (growproc L i n) s E (Reports i n s) := by
  have target : (((s.proc i).sz + n) % 2 ^ 32).toNat = (s.proc i).sz + n := by
    apply target_eq
    · omega
    · simp only [KERNBASE] at small
      omega
  refine meets_growproc (fun _ => ?_) (fun negative => absurd positive (by omega)) fun zero =>
    absurd positive (by omega)
  generalize (((s.proc i).sz + n) % 2 ^ 32).toNat = newsz at target
  have zero : newsz < KERNBASE →
      ∀ v ∈ Set.Ico (pages (s.proc i).sz) (pages newsz), s.mem.pte (s.proc i).pgdir v = 0 := by
    intro below v mem
    rw [Set.mem_Ico] at mem
    exact exactly.zero owned isDir mem.1 (mem.2.trans_le (pages_le_usertop below.le))
  refine meets_allocuvm owned isDir zero ?_ ?_ ?_ ?_
  · exact fun _ => ⟨fun _ => ⟨rfl, fun _ _ => rfl⟩, fun nonzero => absurd rfl nonzero⟩
  · intro less
    omega
  · intro _ below m' o' restored
    refine ⟨fun _ => ⟨rfl, fun v inside => ?_⟩, fun nonzero => absurd rfl nonzero⟩
    by_cases mem : v ∈ Set.Ico (pages (s.proc i).sz) (pages newsz)
    · exact (restored.zero v mem).trans (zero below v mem).symm
    · exact restored.edited.pte v mem (inside_of_below inside)
  · intro larger below m' o' grown
    refine ⟨fun none => by omega, fun _ => ?_⟩
    rw [Reports, if_pos rfl]
    simp only [Kernel.setProc_proc_self]
    exact ⟨target, below, grown.userPages larger exactly⟩

theorem growproc_down (unshared : s.mem.Unshared) (negative : n < 0)
    (some : 0 < (s.proc i).sz + n) :
    Meets (growproc L i n) s E (Reports i n s) := by
  have target : (((s.proc i).sz + n) % 2 ^ 32).toNat = (s.proc i).sz + n := by
    apply target_eq
    · omega
    · simp only [KERNBASE] at small
      omega
  refine meets_growproc (fun positive => absurd negative (by omega)) (fun _ => ?_) fun zero =>
    absurd negative (by omega)
  generalize (((s.proc i).sz + n) % 2 ^ 32).toNat = newsz at target
  refine meets_deallocuvm owned isDir small.le ?_ ?_ ?_
  · intro v mem mapped
    exact unshared.user owned isDir
      ((Set.mem_Ico.mp mem).2.trans_le (pages_le_usertop small.le)) mapped
  · intro larger
    omega
  · intro less m' o' cleared
    refine ⟨fun none => by omega, fun _ => ?_⟩
    rw [Reports, if_pos rfl]
    simp only [Kernel.setProc_proc_self]
    exact ⟨target, less.trans small, cleared.userPages less.le exactly⟩

/-- A process that gives up all its memory is told that it has failed. -/
theorem growproc_all (unshared : s.mem.Unshared) (some : 0 < (s.proc i).sz)
    (all : (s.proc i).sz + n = 0) :
    Meets (growproc L i n) s E fun r s' => ¬Reports i n s r s' := by
  have target : (((s.proc i).sz + n) % 2 ^ 32).toNat = 0 := by
    rw [all]
    rfl
  refine meets_growproc (fun positive => by omega) (fun _ => ?_) fun zero => by omega
  rw [target]
  refine meets_deallocuvm owned isDir small.le ?_ ?_ ?_
  · intro v mem mapped
    exact unshared.user owned isDir
      ((Set.mem_Ico.mp mem).2.trans_le (pages_le_usertop small.le)) mapped
  · intro none
    omega
  · intro _ m' o' cleared
    refine ⟨fun _ reports => ?_, fun nonzero => absurd rfl nonzero⟩
    have first : 0 ∈ Set.Ico (pages 0) (pages (s.proc i).sz) := by
      rw [Set.mem_Ico, pages, pages, PGSIZE]
      omega
    have same : m'.pte (s.proc i).pgdir 0 = s.mem.pte (s.proc i).pgdir 0 := reports.2 0 (by decide)
    rw [cleared.zero 0 first] at same
    exact exactly.ne_zero (Set.mem_Ico.mp first).2 (by decide) same.symm

omit owned isDir exactly in
/-- A process that gives up more than it has keeps all of it, and is told that it has not. -/
theorem growproc_beyond (word : -2 ^ 31 ≤ n) (some : 0 < (s.proc i).sz)
    (beyond : (s.proc i).sz + n < 0) :
    Meets (growproc L i n) s E fun r s' => ¬Reports i n s r s' := by
  refine meets_growproc (fun positive => by omega) (fun _ => ?_) fun zero => by omega
  have large : (s.proc i).sz ≤ (((s.proc i).sz + n) % 2 ^ 32).toNat := by
    simp only [KERNBASE] at small
    omega
  rw [deallocuvm, if_pos large]
  refine meets_pure ⟨fun none reports => ?_, fun _ reports => ?_⟩
  · exact absurd none some.ne'
  · have changed := reports.1
    simp only [Kernel.setProc_proc_self] at changed
    omega

end Growproc

/-- `growproc(n)` does what it reports exactly when it leaves the process some memory. -/
theorem growproc_reports_iff {n : ℤ} (owned : Owned L s.mem o) (unshared : s.mem.Unshared)
    (isDir : o (s.proc i).pgdir = .dir) (some : 0 < (s.proc i).sz)
    (small : (s.proc i).sz < KERNBASE) (exactly : UserPages s.mem (s.proc i).pgdir (s.proc i).sz)
    (word : -2 ^ 31 ≤ n ∧ n < 2 ^ 31) :
    Meets (growproc L i n) s (fun _ => False) (Reports i n s) ↔ 0 < (s.proc i).sz + n := by
  constructor
  · intro reports
    by_contra none
    have wrong : Meets (growproc L i n) s (fun _ => False) fun r s' => ¬Reports i n s r s' := by
      rcases (not_lt.mp none).eq_or_lt with all | beyond
      · exact growproc_all owned isDir small exactly unshared some all
      · exact growproc_beyond small word.1 some beyond
    rcases (reports.and wrong).returns (fun _ stop => stop.1) with ⟨r, s', _, right, notRight⟩
    exact notRight right
  · intro left
    rcases lt_trichotomy n 0 with negative | rfl | positive
    · exact growproc_down owned isDir small exactly unshared negative left
    · refine meets_growproc (fun positive => absurd rfl positive.ne)
        (fun negative => absurd rfl negative.ne) fun _ => ?_
      rw [Reports, if_pos rfl]
      simp only [Kernel.setProc_proc_self]
      exact ⟨(add_zero _).symm, small, exactly⟩
    · exact growproc_up owned isDir small exactly positive word.2

/-- A process of one page, in memory without shared pages. -/
theorem exists_onePage :
    ∃ (o : ℕ → Owner) (s : Kernel), Owned link s.mem o ∧ s.mem.Unshared ∧
      o (s.proc i).pgdir = .dir ∧
    (s.proc i).sz = PGSIZE ∧ UserPages s.mem (s.proc i).pgdir (s.proc i).sz := by
  rcases exists_roomy link (Nat.zero_le _) with ⟨m, o, q, roomy⟩
  refine ⟨o, { Kernel.start with mem := m }.setProc i
    { Kernel.start.proc i with pgdir := q, sz := PGSIZE },
    roomy.owned, roomy.unshared, ?_⟩
  simp only [Kernel.setProc_proc_self]
  exact ⟨roomy.isDir, trivial, roomy.exactly⟩

/-- A process of one page grows by a byte. -/
theorem growproc_reports_onePage :
    ∃ (s : Kernel) (r : Bool) (s' : Kernel), (s.proc 0).sz = PGSIZE ∧
      growproc link 0 1 s = .ok (r, s') ∧
    Reports 0 1 s r s' := by
  rcases exists_onePage (i := 0) with ⟨o, s, owned, unshared, isDir, size, exactly⟩
  have some : 0 < (s.proc 0).sz := by
    rw [size]
    decide
  have small : (s.proc 0).sz < KERNBASE := by
    rw [size]
    decide
  have reports := (growproc_reports_iff owned unshared isDir some small exactly
    ⟨by norm_num, by norm_num⟩).mpr
    (show 0 < ((s.proc 0).sz : ℤ) + 1 by omega)
  rcases reports.returns fun _ => id with ⟨r, s', returned, done⟩
  exact ⟨s, r, s', size, returned, done⟩

/-- A process of one page gives the whole of it back, and is told that it has not. -/
theorem growproc_misreports : ¬∀ (L : Link) (o : ℕ → Owner) (s : Kernel) (i : Fin NPROC) (n : ℤ),
    Owned L s.mem o → s.mem.Unshared → o (s.proc i).pgdir = .dir → 0 < (s.proc i).sz →
      (s.proc i).sz < KERNBASE →
      UserPages s.mem (s.proc i).pgdir (s.proc i).sz → -2 ^ 31 ≤ n ∧ n < 2 ^ 31 →
        ∀ r s', growproc L i n s = .ok (r, s') → Reports i n s r s' := by
  intro always
  rcases exists_onePage (i := 0) with ⟨o, s, owned, unshared, isDir, size, exactly⟩
  have some : 0 < (s.proc 0).sz := by
    rw [size]
    decide
  have small : (s.proc 0).sz < KERNBASE := by
    rw [size]
    decide
  have wrong : Meets (growproc link 0 (-(s.proc 0).sz)) s (fun _ => False) fun r s' =>
      ¬Reports 0 (-(s.proc 0).sz) s r s' :=
    growproc_all owned isDir small exactly unshared some (add_neg_cancel _)
  rcases wrong.returns fun _ => id with ⟨r, s', returned, notReports⟩
  refine notReports (always link o s 0 _ owned unshared isDir some small exactly ?_ r s' returned)
  simp only [KERNBASE] at small
  omega

end Xv6.Vm
