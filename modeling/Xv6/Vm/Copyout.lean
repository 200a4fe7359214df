import Xv6.Vm.Copyuvm

/-!
# Copying out to user addresses

`copyout` goes through the pages of its range in order, around the end of the address space if it
has to, and stops at the first that the user may not access. It does so with -1 where there is a
page table; where there is none, `uva2ka` follows the null pointer that `walkpgdir` returns. The
model stops there. What the kernel would go on to read is the word at address 0 of the running
process, which in part2 is its first instruction.
-/

namespace Xv6.Vm

open Prog

variable {L : Link} {m m' : Mem} {o : ℕ → Owner} {p q v va i j len : ℕ} {bytes : List Byte}
  {E : Panic → Prop}

/-- The user may access page number `v`. -/
def Accessible (m : Mem) (q v : ℕ) : Prop := present (m.pte q v) = true ∧ userBit (m.pte q v) = true

/-- The directory has a page table for page number `v`. -/
def HasTable (m : Mem) (q v : ℕ) : Prop := present (m.entry q (v / NPTENTRIES)) = true

/-- The pages that the user may access are not part of the page table. -/
def Separate (m : Mem) (q : ℕ) : Prop :=
  ∀ v < 2 ^ 20, Accessible m q v → pteAddr (m.pte q v) ≠ q ∧
    ∀ d < NPDENTRIES, present (m.entry q d) = true → pteAddr (m.pte q v) ≠ pteAddr (m.entry q d)

/-- The number of pages that overlap `len` bytes from `va` on. -/
def pageCount (va len : ℕ) : ℕ := if len = 0 then 0 else (va % PGSIZE + len + PGSIZE - 1) / PGSIZE

/-- The page number of the one that comes `i`-th. -/
def nthPage (va i : ℕ) : ℕ := (va / PGSIZE + i) % 2 ^ 20

theorem HasTable.pte (table : HasTable m q v) :
    m.pte q v = m.entry (pteAddr (m.entry q (v / NPTENTRIES))) (v % NPTENTRIES) := if_pos table

theorem pte_of_not_hasTable (noTable : ¬HasTable m q v) : m.pte q v = 0 := if_neg noTable

theorem Accessible.hasTable (accessible : Accessible m q v) : HasTable m q v := by
  by_contra noTable
  rw [Accessible, pte_of_not_hasTable noTable] at accessible
  cases accessible.1

namespace Separate

/-- The user has no access to the kernel's part. -/
theorem below_of_accessible (owned : Owned L m o) (isDir : o q = .dir) (inside : v < 2 ^ 20)
    (accessible : Accessible m q v) : v < USERTOP := by
  by_contra above
  rcases owned.entryOk isDir inside with zero | ⟨_, _, high⟩
  · rw [Accessible, zero] at accessible
    cases accessible.1
  · rw [Accessible, high (Nat.not_lt.mp above)] at accessible
    cases accessible.2

/-- Private pages are no page tables. -/
theorem of_private (owned : Owned L m o) (isDir : o q = .dir)
    (own : ∀ v < USERTOP, Private m o q v) : Separate m q := by
  intro v inside accessible
  have below := below_of_accessible owned isDir inside accessible
  have user : o (pteAddr (m.pte q v)) = .user q v :=
    (own v below).resolve_left (ne_zero_of_present accessible.1)
  constructor
  · intro same
    rw [same, isDir] at user
    cases user
  · intro d index here same
    rcases owned.pde q d isDir index with none | ⟨t, linked, table⟩
    · rw [none] at here
      cases here
    · rw [same, linked.2, table] at user
      cases user

theorem of_owned (owned : Owned L m o) (isDir : o q = .dir) (low : ∀ k, m.smAddr k = 0) :
    Separate m q := by
  refine of_private owned isDir fun v below => ?_
  by_cases zero : m.pte q v = 0
  · exact Or.inl zero
  · exact Or.inr (Mem.Unshared.user low owned isDir below zero)

variable {contents : Page}

theorem entry (separate : Separate m q) (inside : v < 2 ^ 20) (accessible : Accessible m q v)
    {d : ℕ} :
    (m.fill (pteAddr (m.pte q v)) contents).entry q d = m.entry q d :=
  Mem.entry_fill_of_ne (separate v inside accessible).1.symm _

/-- A write to a user page changes no translation. -/
theorem pte (separate : Separate m q) (inside : v < 2 ^ 20) (accessible : Accessible m q v) {w : ℕ}
    (inside' : w < 2 ^ 20) :
    (m.fill (pteAddr (m.pte q v)) contents).pte q w = m.pte q w := by
  have index : w / NPTENTRIES < NPDENTRIES := div_lt_NPDENTRIES inside'
  have same : (m.fill (pteAddr (m.pte q v)) contents).entry q (w / NPTENTRIES) =
      m.entry q (w / NPTENTRIES) :=
    separate.entry inside accessible
  by_cases table : HasTable m q w
  · have table' : HasTable (m.fill (pteAddr (m.pte q v)) contents) q w := by
      rw [HasTable, same]
      exact table
    rw [table'.pte, table.pte, same]
    exact Mem.entry_fill_of_ne ((separate v inside accessible).2 _ index table).symm _
  · have noTable : ¬HasTable (m.fill (pteAddr (m.pte q v)) contents) q w := by
      rw [HasTable, same]
      exact table
    rw [pte_of_not_hasTable table, pte_of_not_hasTable noTable]

theorem accessible_iff (separate : Separate m q) (inside : v < 2 ^ 20)
    (accessible : Accessible m q v) {w : ℕ} (inside' : w < 2 ^ 20) :
    Accessible (m.fill (pteAddr (m.pte q v)) contents) q w ↔ Accessible m q w := by
  rw [Accessible, Accessible, separate.pte inside accessible inside']

theorem fill (separate : Separate m q) (inside : v < 2 ^ 20) (accessible : Accessible m q v) :
    Separate (m.fill (pteAddr (m.pte q v)) contents) q := by
  intro w inside' accessible'
  rw [separate.accessible_iff inside accessible inside'] at accessible'
  rw [separate.pte inside accessible inside']
  refine ⟨(separate w inside' accessible').1, fun d index here => ?_⟩
  rw [separate.entry inside accessible] at here ⊢
  exact (separate w inside' accessible').2 d index here

end Separate

/-! ## One page -/

theorem nthPage_lt : nthPage va i < 2 ^ 20 := Nat.mod_lt _ (by decide)

theorem nthPage_zero (word : va < 2 ^ 32) : nthPage va 0 = va / PGSIZE := by
  simp only [nthPage, PGSIZE]
  omega

/-- The address of the next page. -/
def nextPage (va : ℕ) : ℕ := (PGROUNDDOWN va + PGSIZE) % 2 ^ 32

theorem nextPage_lt : nextPage va < 2 ^ 32 := Nat.mod_lt _ (by decide)

theorem nthPage_next : nthPage (nextPage va) i = nthPage va (i + 1) := by
  simp only [nthPage, nextPage, PGROUNDDOWN, PGSIZE]
  omega

/-- The number of bytes that go to the first page. -/
def firstBytes (va len : ℕ) : ℕ := min (PGSIZE - (va - PGROUNDDOWN va)) len

/-- After the first page there is one page less. -/
theorem pageCount_next (some : len ≠ 0) :
    pageCount va len = pageCount (nextPage va) (len - firstBytes va len) + 1 := by
  have aligned : nextPage va % PGSIZE = 0 := by
    simp only [nextPage, PGROUNDDOWN, PGSIZE]
    omega
  rw [pageCount, pageCount, if_neg some, aligned]
  by_cases rest : len - firstBytes va len = 0
  · rw [if_pos rest]
    simp only [firstBytes, PGROUNDDOWN, PGSIZE] at *
    omega
  · rw [if_neg rest]
    simp only [firstBytes, PGROUNDDOWN, PGSIZE] at *
    omega

/-- What `uva2ka` finds at page number `v`. -/
theorem meets_uva2ka_at {Q : Option ℕ → Mem → Prop} (inside : v < 2 ^ 20)
    (trap : ¬HasTable m q v → E .trap) (none : HasTable m q v → ¬Accessible m q v → Q none m)
    (some : Accessible m q v → Q (some (pteAddr (m.pte q v))) m) :
    Meets (uva2ka q (v * PGSIZE)) m E Q := by
  unfold uva2ka walkpgdir
  rw [PDX_page inside, PTX_page]
  refine meets_bind (meets_bind (meets_get (meets_ite (fun table => ?_) fun noTable => ?_)))
  · refine meets_pure (meets_bind (meets_get ?_))
    rw [← HasTable.pte table]
    exact meets_ite (fun both => meets_pure (some both)) fun neither =>
      meets_pure (none table neither)
  · exact meets_pure (meets_throw (trap noTable))

/-- One turn of the loop of `copyout`. -/
theorem meets_copyout_step {Q : Bool → Mem → Prop} (word : va < 2 ^ 32) (more : bytes.length ≠ 0)
    (trap : ¬HasTable m q (va / PGSIZE) → E .trap)
    (stop : HasTable m q (va / PGSIZE) → ¬Accessible m q (va / PGSIZE) → Q false m)
    (next : Accessible m q (va / PGSIZE) →
      Meets (copyout q (nextPage va) (bytes.drop (firstBytes va bytes.length)))
      (m.fill (pteAddr (m.pte q (va / PGSIZE)))
      (Bytes.move (m.page (pteAddr (m.pte q (va / PGSIZE)))) (va - PGROUNDDOWN va)
      (firstBytes va bytes.length) fun j => bytes.getD j 0)) E Q) :
    Meets (copyout q va bytes) m E Q := by
  have inside : va / PGSIZE < 2 ^ 20 := by
    simp only [PGSIZE]
    omega
  rw [copyout, dif_neg more]
  refine meets_bind (meets_uva2ka_at inside trap (fun table no => meets_pure (stop table no))
    fun accessible => ?_)
  exact meets_bind (meets_modify (next accessible))

/-! ## The whole range -/

/-- Every page that `copyout` comes to has a page table. -/
def NoHole (m : Mem) (q va len : ℕ) : Prop :=
  ∀ i < pageCount va len, (∀ j < i, Accessible m q (nthPage va j)) → HasTable m q (nthPage va i)

/-- Only user pages of the range have been written. -/
structure WroteUser (q va len : ℕ) (m m' : Mem) : Prop where
  rest : m' = { m with page := m'.page }
  page : ∀ p, m'.page p ≠ m.page p → ∃ i < pageCount va len, Accessible m q (nthPage va i) ∧
    pteAddr (m.pte q (nthPage va i)) = p

/-- `copyout` returns, with -1 if it may not write to all of the range, and writes to user pages
only. -/
def CopiesOut (q va : ℕ) (bytes : List Byte) (m : Mem) : Prop :=
  ∃ r m', copyout q va bytes m = .ok (r, m') ∧
    ((∃ i < pageCount va bytes.length, ¬Accessible m q (nthPage va i)) → r = false) ∧
      WroteUser q va bytes.length m m'

/-- The first page is done, and the rest of the range is gone through. -/
theorem WroteUser.step {contents : Page} {rest : ℕ} (separate : Separate m q) (word : va < 2 ^ 32)
    (accessible : Accessible m q (va / PGSIZE))
    (count : pageCount va len = pageCount (nextPage va) rest + 1)
    (wrote : WroteUser q (nextPage va) rest
      (m.fill (pteAddr (m.pte q (va / PGSIZE))) contents) m') :
    WroteUser q va len m m' where
  rest := by
    rw [wrote.rest]
    rfl
  page := by
    have inside : va / PGSIZE < 2 ^ 20 := by
      simp only [PGSIZE]
      omega
    intro p changed
    by_cases later : m'.page p = (m.fill (pteAddr (m.pte q (va / PGSIZE))) contents).page p
    · refine ⟨0, by omega, ?_⟩
      rw [nthPage_zero word]
      refine ⟨accessible, ?_⟩
      by_contra other
      rw [Mem.fill_page_of_ne (Ne.symm other)] at later
      exact changed later
    · rcases wrote.page p later with ⟨i, below, accessible', page⟩
      rw [nthPage_next, separate.accessible_iff inside accessible nthPage_lt] at accessible'
      rw [nthPage_next, separate.pte inside accessible nthPage_lt] at page
      exact ⟨i + 1, by omega, accessible', page⟩

/-- `copyout` traps where a page table is missing, and else stores what it can. -/
theorem meets_copyout (separate : Separate m q) (word : va < 2 ^ 32) :
    Meets (copyout q va bytes) m (fun _ => ¬NoHole m q va bytes.length) fun r m' =>
      NoHole m q va bytes.length ∧
        (r = true ↔ ∀ i < pageCount va bytes.length, Accessible m q (nthPage va i)) ∧
        WroteUser q va bytes.length m m' := by
  induction length : bytes.length using Nat.strong_induction_on generalizing m va bytes with
  | _ len ih =>
      by_cases none : bytes.length = 0
      · have empty : ∀ i, ¬i < pageCount va len := by
          intro i below
          rw [← length, pageCount, if_pos none] at below
          exact Nat.not_lt_zero i below
        rw [copyout, dif_pos none]
        refine meets_pure ⟨fun i below => absurd below (empty i), ?_,
          rfl, fun p changed => absurd rfl changed⟩
        exact iff_of_true rfl fun i below => absurd below (empty i)
      · have inside : va / PGSIZE < 2 ^ 20 := by
          simp only [PGSIZE]
          omega
        have count : pageCount va bytes.length = _ := pageCount_next none
        rw [length] at count
        have first : 0 < pageCount va len := by omega
        have at_zero := nthPage_zero word
        refine meets_copyout_step word none ?_ ?_ ?_
        · intro noTable noHole
          have table := noHole 0 first fun j below => absurd below (Nat.not_lt_zero j)
          rw [at_zero] at table
          exact noTable table
        · intro table notAccessible
          refine ⟨?_, ?_, rfl, fun p changed => absurd rfl changed⟩
          · intro i below before
            cases i with
            | zero => rwa [at_zero]
            | succ i =>
                have here := before 0 (Nat.succ_pos i)
                rw [at_zero] at here
                exact absurd here notAccessible
          · refine iff_of_false (by rintro ⟨⟩) fun all => notAccessible ?_
            have here := all 0 first
            rwa [at_zero] at here
        · intro accessible
          have shorter : (bytes.drop (firstBytes va bytes.length)).length < len := by
            rw [List.length_drop, ← length]
            simp only [firstBytes, PGROUNDDOWN, PGSIZE]
            omega
          have rest : (bytes.drop (firstBytes va bytes.length)).length =
              len - firstBytes va len := by
            rw [List.length_drop, length]
          have later : ∀ {contents : Page} {i : ℕ},
            Accessible (m.fill (pteAddr (m.pte q (va / PGSIZE))) contents) q
              (nthPage (nextPage va) i) ↔ Accessible m q (nthPage va (i + 1)) := by
            intro contents i
            rw [nthPage_next, separate.accessible_iff inside accessible nthPage_lt]
          have table : ∀ {contents : Page} {i : ℕ},
            HasTable (m.fill (pteAddr (m.pte q (va / PGSIZE))) contents) q
              (nthPage (nextPage va) i) ↔ HasTable m q (nthPage va (i + 1)) := by
            intro contents i
            rw [nthPage_next, HasTable, HasTable, separate.entry inside accessible]
          have holes : ∀ {contents : Page}, NoHole
            (m.fill (pteAddr (m.pte q (va / PGSIZE))) contents) q (nextPage va)
              (len - firstBytes va len) ↔ NoHole m q va len := by
            intro contents
            constructor
            · intro noHole i below before
              cases i with
              | zero =>
                  rw [at_zero]
                  exact accessible.hasTable
              | succ i => exact table.mp (noHole i (by omega) fun j less =>
                  later.mpr (before (j + 1) (by omega)))
            · intro noHole i below before
              refine table.mpr (noHole (i + 1) (by omega) fun j less => ?_)
              cases j with
              | zero => rwa [at_zero]
              | succ j => exact later.mp (before j (by omega))
          refine (ih _ shorter (separate.fill inside accessible) nextPage_lt rfl).mono ?_ ?_
          · intro _ hole noHole
            rw [rest, holes] at hole
            exact hole noHole
          · intro r m' outcome
            rw [rest, holes] at outcome
            refine ⟨outcome.1, outcome.2.1.trans ⟨fun all i below => ?_, fun all i below => ?_⟩,
              outcome.2.2.step separate word accessible count⟩
            · cases i with
              | zero => rwa [at_zero]
              | succ i => exact later.mp (all i (by omega))
            · exact later.mpr (all (i + 1) (by omega))

/-- `copyout` is safe exactly when it comes to no page without a page table. -/
theorem copiesOut_iff_noHole (separate : Separate m q) (word : va < 2 ^ 32) :
    CopiesOut q va bytes m ↔ NoHole m q va bytes.length := by
  have outcome : Meets (copyout q va bytes) m _ _ := meets_copyout separate word
  constructor
  · rintro ⟨r, m', returned, _⟩
    exact (outcome.of_ok returned).1
  · intro noHole
    rcases outcome.returns (fun _ hole => hole noHole) with ⟨r, m', returned, _, all, wrote⟩
    refine ⟨r, m', returned, ?_, wrote⟩
    rintro ⟨i, below, notAccessible⟩
    rw [← Bool.not_eq_true, all]
    exact fun every => notAccessible (every i below)

/-- One byte to the first page of the first process. -/
theorem copiesOut_first : ∃ (m : Mem) (q : ℕ), CopiesOut q 0 [1] m := by
  rcases exists_roomy link (Nat.zero_le _) with ⟨m, o, q, roomy⟩
  refine ⟨m, q, (copiesOut_iff_noHole (Separate.of_owned roomy.owned roomy.isDir roomy.unshared)
    (by decide)).mpr ?_⟩
  intro i below _
  have first : i = 0 := by
    have one : pageCount 0 [(1 : Byte)].length = 1 := rfl
    omega
  subst first
  have mapped : m.pte q 0 ≠ 0 := roomy.exactly.ne_zero (by decide) (by decide)
  by_contra noTable
  exact mapped (pte_of_not_hasTable noTable)

/-- The stack pointer of `exec` for an image of three pages and an argument of 33.6 million bytes
lies where the new directory has no page table. -/
theorem copyout_follows_null :
    ¬∀ (m : Mem) (q va : ℕ) (bytes : List Byte), Separate m q → va < 2 ^ 32 →
    CopiesOut q va bytes m := by
  intro always
  have few : 65 ≤ 50000 := by decide
  rcases exists_roomy link few with ⟨m, o, q, roomy⟩
  have made : Meets (Part2.setupkvm link) m (fun _ => False) fun _ m' => ∃ d o', Owned link m' o' ∧
    o' d = .dir ∧
      m'.Unshared ∧ m'.entry d 1015 = 0 := by
    refine meets_setup_kernel roomy.owned ?_ ?_ ?_
    · exact fun m' _ fails => absurd fails (roomy.ample.not_failsAt (by decide))
    · rintro d m' o' _ _ _ _ _ _ _ ⟨k, less, fails⟩
      rw [card_kernelTables] at less
      exact absurd fails (roomy.ample.not_failsAt less)
    · intro d m' o' kvm _ holes
      refine ⟨d, o', kvm.owned, kvm.isDir, roomy.unshared.of_eq kvm.aside.smAddr, holes 1015 ?_⟩
      intro v mem same
      simp only [kernelPages, Set.mem_union, Set.mem_Ico, USERTOP, LASTPAGE, KERNBASE, PHYSTOP,
        DEVSPACE, PGSIZE,
        NPTENTRIES] at mem same
      omega
  rcases made.returns fun _ => id with ⟨_, m', _, d, o', owned, isDir, unshared, hole⟩
  have separate := Separate.of_owned owned isDir unshared
  -- The length of the string, with its end, and the stack pointer that `exec` computes from it.
  obtain ⟨n, long⟩ : ∃ n, n = 0x2004000 := ⟨_, rfl⟩
  obtain ⟨va, below⟩ : ∃ va, va = (3 * PGSIZE + 2 ^ 32 - n % 2 ^ 32) % 2 ^ 32 / 4 * 4 := ⟨_, rfl⟩
  have place : va = 0xFDFFF000 := by
    rw [below, long]
    rfl
  have word : va < 2 ^ 32 := by
    rw [place]
    decide
  have noHole := (copiesOut_iff_noHole separate word).mp
    (always m' d va (List.replicate n 0) separate word)
  have first : 0 < pageCount va (List.replicate n (0 : Byte)).length := by
    rw [List.length_replicate, place, long]
    decide
  have table := noHole 0 first fun j less => absurd less (Nat.not_lt_zero j)
  have index : nthPage va 0 / NPTENTRIES = 1015 := by
    rw [place]
    rfl
  rw [HasTable, index, hole] at table
  cases table

end Xv6.Vm
