import Xv6.Vm.PageTable

/-!
# Entries of page tables

Reading and writing words of pages, and the page number and flags of an entry. `pte`
is what a walk through a page directory finds, with zero where there is no table.
-/

namespace Xv6.Vm

/-! ## Words of pages -/

namespace Mem

variable {m : Mem} {p p' i j e : ℕ}

@[simp]
theorem fill_page_self (contents : Page) : (m.fill p contents).page p = contents :=
  Function.update_self _ _ _

theorem fill_page_of_ne (other : p' ≠ p) (contents : Page) :
    (m.fill p contents).page p' = m.page p' :=
  Function.update_of_ne other _ _

theorem setEntry_page_of_ne (other : p' ≠ p) : (m.setEntry p i e).page p' = m.page p' :=
  fill_page_of_ne other _

theorem entry_congr {m' : Mem} (same : m'.page p = m.page p) : m'.entry p i = m.entry p i := by
  rw [entry, entry, same]

theorem entry_fill_of_ne (other : p' ≠ p) (contents : Page) :
    (m.fill p contents).entry p' i = m.entry p' i :=
  entry_congr (fill_page_of_ne other contents)

theorem entry_setEntry_self (inside : i < NPTENTRIES) (word : e < 2 ^ 32) :
    (m.setEntry p i e).entry p i = e := by
  simp only [entry, setEntry, fill_page_self]
  rw [Bytes.getLE_putLE (by simp only [NPTENTRIES, PGSIZE] at *; omega)]
  exact Nat.mod_eq_of_lt word

theorem entry_setEntry_of_index (other : j ≠ i) :
    (m.setEntry p i e).entry p j = m.entry p j := by
  simp only [entry, setEntry, fill_page_self]
  exact Bytes.getLE_putLE_of_disjoint (by omega)

theorem entry_setEntry_of_page (other : p' ≠ p) :
    (m.setEntry p i e).entry p' j = m.entry p' j :=
  entry_fill_of_ne other _

@[simp]
theorem entry_zero : (m.zero p).entry p i = 0 := by
  have all : ∀ off k, Bytes.getLE (fun _ : Fin PGSIZE => (0 : Byte)) off k = 0 := by
    intro off k
    induction k generalizing off with
    | zero => rfl
    | succ k ih =>
        rw [Bytes.getLE, ih]
        simp [Bytes.get]
  simp only [entry, zero, fill_page_self, all]

end Mem

/-! ## Page number and flags -/

section Encoding

variable {p perm e : ℕ}

/-- The entry that `mappages` writes. -/
theorem pte_eq_add (flags : perm < PGSIZE) :
    p * PGSIZE ||| perm ||| PTE_P = p * PGSIZE + (perm ||| PTE_P) := by
  have small : perm ||| PTE_P < 2 ^ 12 := Nat.or_lt_two_pow flags (by decide)
  rw [Nat.or_assoc, Nat.mul_comm p PGSIZE]
  exact (Nat.two_pow_add_eq_or_of_lt small p).symm

theorem pteAddr_encode (flags : perm < PGSIZE) : pteAddr (p * PGSIZE ||| perm ||| PTE_P) = p := by
  have small : perm ||| PTE_P < PGSIZE := Nat.or_lt_two_pow flags (n := 12) (by decide)
  rw [pte_eq_add flags, pteAddr]
  simp only [PGSIZE] at *
  omega

theorem present_encode : present (p * PGSIZE ||| perm ||| PTE_P) = true := by
  simp [present]

theorem userBit_encode (noUser : perm.testBit 2 = false) :
    userBit (p * PGSIZE ||| perm ||| PTE_P) = false := by
  have high : (p * PGSIZE).testBit 2 = false := by
    rw [show p * PGSIZE = 2 ^ 12 * p from Nat.mul_comm _ _, Nat.testBit_two_pow_mul]
    simp
  simp only [userBit, Nat.testBit_or, high, noUser]
  decide

theorem encode_lt (flags : perm < PGSIZE) (page : p < 2 ^ 20) :
    p * PGSIZE ||| perm ||| PTE_P < 2 ^ 32 := by
  have small : perm ||| PTE_P < PGSIZE := Nat.or_lt_two_pow flags (n := 12) (by decide)
  rw [pte_eq_add flags]
  simp only [PGSIZE] at *
  omega

/-- The directory entry that `walkpgdir` writes. -/
def pdeOf (t : ℕ) : ℕ := t * PGSIZE ||| PTE_P ||| PTE_W ||| PTE_U

theorem pdeOf_eq (t : ℕ) : pdeOf t = t * PGSIZE + 7 := by
  rw [pdeOf, Nat.or_assoc, Nat.or_assoc, Nat.mul_comm t PGSIZE]
  exact (Nat.two_pow_add_eq_or_of_lt (show 7 < 2 ^ 12 by decide) t).symm

@[simp]
theorem pteAddr_pdeOf (t : ℕ) : pteAddr (pdeOf t) = t := by
  rw [pdeOf_eq, pteAddr]
  simp only [PGSIZE]
  omega

@[simp]
theorem present_pdeOf (t : ℕ) : present (pdeOf t) = true := by
  rw [present, pdeOf_eq, Nat.testBit_zero]
  simp only [PGSIZE, decide_eq_true_eq]
  omega

theorem pdeOf_lt {t : ℕ} (page : t < 2 ^ 20) : pdeOf t < 2 ^ 32 := by
  rw [pdeOf_eq]
  simp only [PGSIZE]
  omega

@[simp]
theorem present_zero : present 0 = false := rfl

theorem ne_zero_of_present (here : present e = true) : e ≠ 0 := by
  rintro rfl
  cases here

/-- A directory entry that links page table `t`. A walk looks at nothing else, and the
processor sets other flags when it goes through the entry. -/
def Links (e t : ℕ) : Prop := present e = true ∧ pteAddr e = t

theorem links_pdeOf (t : ℕ) : Links (pdeOf t) t := ⟨present_pdeOf t, pteAddr_pdeOf t⟩

theorem Links.ne_zero {t : ℕ} (links : Links e t) : e ≠ 0 := ne_zero_of_present links.1

theorem Links.unique {t t' : ℕ} (links : Links e t) (links' : Links e t') :
    t = t' := links.2.symm.trans links'.2

end Encoding

/-! ## Walks -/

/-- What a walk finds at page number `v`. -/
def Mem.pte (m : Mem) (q v : ℕ) : ℕ :=
  let e := m.entry q (v / NPTENTRIES)
  if present e then m.entry (pteAddr e) (v % NPTENTRIES) else 0

theorem Mem.pte_of_pde {m : Mem} {q v t : ℕ} (linked : Links (m.entry q (v / NPTENTRIES)) t) :
    m.pte q v = m.entry t (v % NPTENTRIES) := by
  rw [Mem.pte, if_pos linked.1, linked.2]

theorem Mem.pte_of_none {m : Mem} {q v : ℕ} (none : m.entry q (v / NPTENTRIES) = 0) :
    m.pte q v = 0 := by
  rw [Mem.pte, none]
  simp

/-- The number of pages that hold `sz` bytes. -/
def pages (sz : ℕ) : ℕ := (sz + PGSIZE - 1) / PGSIZE

theorem PGROUNDUP_eq {sz : ℕ} (small : sz ≤ KERNBASE) : PGROUNDUP sz = pages sz * PGSIZE := by
  simp only [PGROUNDUP, pages, PGSIZE, KERNBASE] at *
  omega

theorem lt_pages_iff {v sz : ℕ} : v < pages sz ↔ v * PGSIZE < sz := by
  simp only [pages, PGSIZE]
  omega

theorem PDX_page {v : ℕ} (inside : v < 2 ^ 20) : PDX (v * PGSIZE) = v / NPTENTRIES := by
  simp only [PDX, PGSIZE, NPTENTRIES]
  omega

theorem PTX_page (v : ℕ) : PTX (v * PGSIZE) = v % NPTENTRIES := by
  simp only [PTX, PGSIZE, NPTENTRIES]
  omega

end Xv6.Vm
