import Xv6.Lib.Program
import Xv6.Param

/-!
# Physical memory

`kalloc.c` of part1, over memory that is an array of pages. A page is known by its
physical page number, so the pointer `P2V(p * PGSIZE)` is written `p`; page tables
and page directories are read and written as words of such pages. The free list is
the list of its pages; that a free page also holds the pointer to the next one shows
in its contents only.
-/

namespace Xv6.Vm

/-! `mmu.h` and `memlayout.h`. -/

abbrev PGSIZE : ℕ := 4096
abbrev NPDENTRIES : ℕ := 1024
abbrev NPTENTRIES : ℕ := 1024
abbrev EXTMEM : ℕ := 0x100000
abbrev PHYSTOP : ℕ := 0xE000000
abbrev DEVSPACE : ℕ := 0xFE000000
abbrev KERNBASE : ℕ := 0x80000000
abbrev KERNLINK : ℕ := KERNBASE + EXTMEM
abbrev PTE_P : ℕ := 1
abbrev PTE_W : ℕ := 2
abbrev PTE_U : ℕ := 4

def PGROUNDUP (sz : ℕ) : ℕ := (sz + PGSIZE - 1) % 2 ^ 32 / PGSIZE * PGSIZE

def PGROUNDDOWN (a : ℕ) : ℕ := a / PGSIZE * PGSIZE

def PDX (va : ℕ) : ℕ := va / 2 ^ 22 % 2 ^ 10

def PTX (va : ℕ) : ℕ := va / 2 ^ 12 % 2 ^ 10

/-- The page number in `PTE_ADDR`. -/
def pteAddr (e : ℕ) : ℕ := e / PGSIZE

def pteFlags (e : ℕ) : ℕ := e % PGSIZE

/-- `e & PTE_P`. -/
def present (e : ℕ) : Bool := e.testBit 0

/-- `e & PTE_U`. -/
def userBit (e : ℕ) : Bool := e.testBit 2

inductive Panic where
  | kfree
  | remap
  | phystop
  | inituvm
  | loaduvmAligned
  | loaduvmAddress
  | clearpteu
  | copyuvmPte
  | copyuvmPage
  | freevm
  | userinit
  | shmemInit
  | shmemAccess
  | initExiting
  /-- The kernel follows a null pointer. -/
  | trap

/-- The symbols of the linker script, as physical addresses. -/
structure Link where
  data : ℕ
  kend : ℕ
  aligned : data % PGSIZE = 0
  text : EXTMEM < data
  ordered : data ≤ kend
  low : kend ≤ 4 * 1024 * 1024

/-- A kernel of 64 KiB at 1 MiB and 32 KiB. -/
def link : Link where
  data := 0x108000
  kend := 0x110000
  aligned := by norm_num
  text := by norm_num
  ordered := by norm_num
  low := by norm_num

/-- The first page after the kernel. -/
def Link.first (L : Link) : ℕ := (L.kend + PGSIZE - 1) / PGSIZE

/-- The end of physical memory, in pages. -/
abbrev LASTPAGE : ℕ := PHYSTOP / PGSIZE

abbrev Page := Fin PGSIZE → Byte

structure Mem where
  page : ℕ → Page
  freelist : List ℕ
  /-- Which of the next calls of `kalloc` fail although the list is not empty. -/
  faults : List Bool
  /-- `sm_addr`, zero before `shmem_init`. -/
  smAddr : Fin NSHAREPAGE → ℕ
  /-- A call of `kalloc` has returned 0. -/
  failed : Bool
  /-- `kfree` has been given a page that was free already, or a shared page. -/
  misfreed : Bool

namespace Mem

variable (m : Mem)

/-- The word at index `i` of page `p`. -/
def entry (p i : ℕ) : ℕ := Bytes.getLE (m.page p) (4 * i) 4

/-- Change the contents of a page. -/
def fill (p : ℕ) (contents : Page) : Mem := { m with page := Function.update m.page p contents }

def setEntry (p i e : ℕ) : Mem := m.fill p (Bytes.putLE (m.page p) (4 * i) 4 e)

/-- `memset(p, 0, PGSIZE)`. -/
def zero (p : ℕ) : Mem := m.fill p fun _ => 0

/-- What `kfree` leaves in a page: junk, and the pointer to the next free page. -/
def junk : Page :=
  Bytes.putLE (fun _ => 1) 0 4
    (match m.freelist with
    | [] => 0
    | next :: _ => KERNBASE + next * PGSIZE)

/-- Put a page on the free list. -/
def release (p : ℕ) : Mem :=
  { m.fill p m.junk with
    freelist := p :: m.freelist
    misfreed := m.misfreed || decide (p ∈ m.freelist) || decide (∃ k, m.smAddr k = p) }

end Mem

abbrev MemProg := Prog Mem Panic

def kalloc : MemProg (Option ℕ) := fun m =>
  match m.faults.headD false, m.freelist with
  | false, p :: rest => .ok (some p, { m with freelist := rest, faults := m.faults.tail })
  | _, _ => .ok (none, { m with faults := m.faults.tail, failed := true })

def kfree (L : Link) (p : ℕ) : MemProg Unit := do
  if p * PGSIZE < L.kend ∨ PHYSTOP ≤ p * PGSIZE then
    throw .kfree
  modify fun m => m.release p

/-- `freerange` on the `n` pages from `p` on. -/
def freerange (L : Link) : ℕ → ℕ → MemProg Unit
  | 0, _ => pure ()
  | n + 1, p => do
      kfree L p
      freerange L n (p + 1)

/-- `kinit1(end, P2V(4*1024*1024))`. -/
def kinit1 (L : Link) : MemProg Unit := freerange L (4 * 1024 * 1024 / PGSIZE - L.first) L.first

/-- `kinit2(P2V(4*1024*1024), P2V(PHYSTOP))`. -/
def kinit2 (L : Link) : MemProg Unit :=
  freerange L (LASTPAGE - 4 * 1024 * 1024 / PGSIZE) (4 * 1024 * 1024 / PGSIZE)

end Xv6.Vm
