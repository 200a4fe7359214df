import Xv6.Vm.Mapped

/-!
# Requests for shared pages

The tests that `shmem_access` and `shmem_count` make. The collision test compares the size of the
process with the physical address of a user address, and that is not below `KERNBASE`. The range
test of `shmem_count` lets one page number too many pass.
-/

namespace Xv6.Vm

open Prog

variable {s : Kernel} {i : Fin NPROC} {pageNumber : ℤ} {k : Fin NSHAREPAGE}

/-- `shmem_count`; `none` where it reads past the end of `sm_counts`. -/
def shmemCount (s : Kernel) (pageNumber : ℤ) : Option ℤ :=
  if pageNumber < 0 ∨ pageNumber > NSHAREPAGE then some (-1)
  else if inside : pageNumber.toNat < NSHAREPAGE then some (s.smCounts ⟨pageNumber.toNat, inside⟩)
  else none

/-- There is such a page. -/
def Legal (pageNumber : ℤ) : Prop := ∃ k : Fin NSHAREPAGE, pageNumber = k

/-- The address at which a page is attached. -/
def shareAddr (k : Fin NSHAREPAGE) : ℕ := KERNBASE - (k + 1) * PGSIZE

/-- The request is refused: -1, and nothing has changed. -/
def Refused (s : Kernel) (i : Fin NPROC) (pageNumber : ℤ) : Prop :=
  ∃ s', shmemAccess i pageNumber s = .ok (2 ^ 32 - 1, s') ∧ s'.mem = s.mem ∧
    s'.smCounts = s.smCounts ∧
    ∀ j, (s'.proc j).sharedPage = (s.proc j).sharedPage

/-- An illegal page and a collision are refused, and other requests get an address above the
process. -/
structure AccessChecked (s : Kernel) (i : Fin NPROC) (pageNumber : ℤ) : Prop where
  illegal : ¬Legal pageNumber → Refused s i pageNumber
  collision : ∀ k : Fin NSHAREPAGE, pageNumber = k → shareAddr k < (s.proc i).sz →
    Refused s i pageNumber
  above : ∀ k : Fin NSHAREPAGE, pageNumber = k → (s.proc i).sz ≤ shareAddr k →
    ∀ r s', shmemAccess i pageNumber s = .ok (r, s') → (s.proc i).sz ≤ r

/-- `shmem_count` rejects the illegal page numbers and counts the others. -/
structure CountChecked (s : Kernel) (pageNumber : ℤ) : Prop where
  illegal : ¬Legal pageNumber → shmemCount s pageNumber = some (-1)
  legal : ∀ k : Fin NSHAREPAGE, pageNumber = k → shmemCount s pageNumber = some (s.smCounts k)

theorem legal_iff : Legal pageNumber ↔ 0 ≤ pageNumber ∧ pageNumber.toNat < NSHAREPAGE := by
  constructor
  · rintro ⟨k, rfl⟩
    exact ⟨Int.natCast_nonneg _, k.isLt⟩
  · rintro ⟨positive, below⟩
    exact ⟨⟨pageNumber.toNat, below⟩, (Int.toNat_of_nonneg positive).symm⟩

theorem refused_of_illegal (illegal : ¬Legal pageNumber) : Refused s i pageNumber := by
  rw [legal_iff] at illegal
  refine ⟨s, ?_, rfl, rfl, fun _ => rfl⟩
  rw [shmemAccess, dif_neg illegal]
  rfl

/-- The collision test never fails, so a page that is not attached yet is mapped. -/
theorem meets_shmemAccess_legal (small : (s.proc i).sz < KERNBASE)
    (fresh : (s.proc i).sharedPage k = 0) :
    Meets (shmemAccess i k) s (fun _ => True) fun r _ => r = shareAddr k := by
  have legal : 0 ≤ (k : ℤ) ∧ (k : ℤ).toNat < NSHAREPAGE := ⟨Int.natCast_nonneg _, k.isLt⟩
  rw [shmemAccess, dif_pos legal]
  simp only [Int.toNat_natCast, Fin.eta]
  have fits : ¬(s.proc i).sz > (KERNBASE - (k + 1) * PGSIZE + 2 ^ 32 - KERNBASE) % 2 ^ 32 := by
    have := k.isLt
    simp only [KERNBASE, PGSIZE, NSHAREPAGE] at *
    omega
  refine meets_bind (meets_get (meets_ite (fun attached => absurd fresh attached) fun _ => ?_))
  rw [if_neg fits]
  refine meets_bind (meets_of_ok fun mapped s' _ => ?_)
  refine meets_ite (fun _ => ?_) fun _ => meets_throw trivial
  exact meets_bind (meets_modify (meets_bind (meets_modify (meets_pure rfl))))

theorem shareAddr_lt (k : Fin NSHAREPAGE) : shareAddr k < KERNBASE := by
  simp only [shareAddr, KERNBASE, PGSIZE]
  omega

/-- The page is checked exactly if the process ends below it. -/
theorem accessChecked_iff (small : (s.proc i).sz < KERNBASE)
    (fresh : ∀ k : Fin NSHAREPAGE, pageNumber = k → (s.proc i).sharedPage k = 0) :
    AccessChecked s i pageNumber ↔ ∀ k : Fin NSHAREPAGE, pageNumber = k →
      (s.proc i).sz ≤ shareAddr k := by
  constructor
  · rintro checked k rfl
    by_contra beyond
    rcases checked.collision k rfl (Nat.not_le.mp beyond) with ⟨s', returned, _⟩
    have address := (meets_shmemAccess_legal small (fresh k rfl)).of_ok returned
    have below := shareAddr_lt k
    simp only [KERNBASE] at below
    omega
  · intro fits
    refine ⟨refused_of_illegal,
      fun k same beyond => absurd (fits k same) (Nat.not_le.mpr beyond), ?_⟩
    rintro k rfl atMost r s' returned
    rw [(meets_shmemAccess_legal small (fresh k rfl)).of_ok returned]
    exact atMost

/-- The number is checked but for the one that is just too large. -/
theorem countChecked_iff : CountChecked s pageNumber ↔ pageNumber ≠ NSHAREPAGE := by
  constructor
  · rintro checked rfl
    have illegal : ¬Legal (NSHAREPAGE : ℕ) := by
      rw [legal_iff]
      exact fun both => lt_irrefl _ both.2
    exact Option.some_ne_none _ (checked.illegal illegal).symm
  · intro other
    constructor
    · intro illegal
      refine if_pos ?_
      rw [legal_iff] at illegal
      simp only [NSHAREPAGE] at *
      omega
    · rintro k rfl
      have inside := k.isLt
      rw [shmemCount, if_neg (by simp only [NSHAREPAGE] at *; omega),
        dif_pos (by rwa [Int.toNat_natCast])]
      simp

/-- Requests are validated unless the size of the process collides with the page, or the number is
that of the page after the last one. -/
theorem shmem_checked_iff (s : Kernel) (i : Fin NPROC) (pageNumber : Word)
    (small : (s.proc i).sz < KERNBASE)
    (fresh : ∀ k : Fin NSHAREPAGE, pageNumber.toInt = k → (s.proc i).sharedPage k = 0) :
    AccessChecked s i pageNumber.toInt ∧ CountChecked s pageNumber.toInt ↔
      (∀ k : Fin NSHAREPAGE, pageNumber.toInt = k → (s.proc i).sz ≤ shareAddr k) ∧
        pageNumber.toInt ≠ NSHAREPAGE := by
  rw [accessChecked_iff small fresh, countChecked_iff]

/-- The first process asks for page 1 after boot, and gets it. -/
theorem shmem_checked_booted :
    ∃ s i, boot link 0 [] Kernel.start = .ok ((), s) ∧ (s.proc i).sz = PGSIZE ∧
    (∃ r s', shmemAccess i 1 s = .ok (r, s')) ∧ AccessChecked s i 1 ∧ CountChecked s 1 := by
  have small : ([] : List Byte).length < PGSIZE := by decide
  rcases boot_returns fits_link small with ⟨s, o, booted, first, ample⟩
  have used : s.Used s.initproc := by
    rw [Kernel.Used, first.state]
    rintro ⟨⟩
  have accessed : Meets (shmemAccess s.initproc 1) s (fun _ => False) fun _ _ => True := by
    refine (first.settled.meets_shmemAccess used (fun k _ mapped => mapped (first.empty k))
      fun fails => ?_).mono
      (fun _ => id) fun _ _ _ => trivial
    exact ample.not_failsAt (by decide) fails
  rcases accessed.returns fun _ => id with ⟨r, s', returned, _⟩
  have room : ∀ k : Fin NSHAREPAGE, PGSIZE ≤ shareAddr k := by decide
  have checked := (shmem_checked_iff s s.initproc 1 (by rw [first.sz]; decide)
    fun k _ => not_not.mp (first.pages s.initproc k)).mpr
    ⟨fun k _ => by rw [first.sz]; exact room k, by decide⟩
  exact ⟨s, s.initproc, booted, first.sz, ⟨r, s', returned⟩, checked⟩

/-- `shmem_count(4)` reads past the end. -/
theorem shmem_unchecked :
    ¬∀ (s : Kernel) (i : Fin NPROC) (pageNumber : Word), (s.proc i).sz < KERNBASE →
    (∀ k : Fin NSHAREPAGE, pageNumber.toInt = k → (s.proc i).sharedPage k = 0) →
    AccessChecked s i pageNumber.toInt ∧ CountChecked s pageNumber.toInt := by
  intro checked
  exact countChecked_iff.mp (checked Kernel.start 0 4 (by decide) fun _ _ => rfl).2 rfl

end Xv6.Vm
