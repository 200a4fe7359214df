import Xv6.Vm.Memory

/-!
# Page tables

`vm.c` of part1 up to the parts that work on the process table. Addresses are byte
addresses; the loops that free memory only run below `KERNBASE`.
-/

namespace Xv6.Vm

variable (L : Link)

/-- The page table and the index in it, for `&pgtab[PTX(va)]`. -/
def walkpgdir (pgdir va : ℕ) (alloc : Bool) : MemProg (Option (ℕ × ℕ)) := do
  let pde := (← get).entry pgdir (PDX va)
  if present pde then
    return some (pteAddr pde, PTX va)
  else if alloc then
    match ← kalloc with
    | none => return none
    | some pgtab =>
        modify fun m => m.zero pgtab
        modify fun m => m.setEntry pgdir (PDX va) (pgtab * PGSIZE ||| PTE_P ||| PTE_W ||| PTE_U)
        return some (pgtab, PTX va)
  else
    return none

/-- The loop of `mappages`, with the number of pages still to map. -/
def mapLoop (pgdir perm : ℕ) : ℕ → ℕ → ℕ → MemProg Bool
  | 0, _, _ => return true
  | n + 1, a, pa => do
      match ← walkpgdir pgdir a true with
      | none => return false
      | some (pgtab, i) =>
          if present ((← get).entry pgtab i) then
            throw .remap
          modify fun m => m.setEntry pgtab i (pa ||| perm ||| PTE_P)
          mapLoop pgdir perm n (a + PGSIZE) (pa + PGSIZE)

/-- Returns false for -1. -/
def mappages (pgdir va size pa perm : ℕ) : MemProg Bool :=
  let a := PGROUNDDOWN va
  let last := PGROUNDDOWN ((va + size + 2 ^ 32 - 1) % 2 ^ 32)
  mapLoop pgdir perm ((last + 2 ^ 32 - a) % 2 ^ 32 / PGSIZE + 1) a pa

/-- The loop of `deallocuvm`. -/
def deallocLoop (pgdir oldsz a : ℕ) : MemProg Unit :=
  if a < oldsz then do
    match ← walkpgdir pgdir a false with
    | none => deallocLoop pgdir oldsz ((a / 2 ^ 22 + 1) * 2 ^ 22)
    | some (pgtab, i) =>
        let pte := (← get).entry pgtab i
        if present pte then do
          if pteAddr pte = 0 then
            throw .kfree
          kfree L (pteAddr pte)
          modify fun m => m.setEntry pgtab i 0
          deallocLoop pgdir oldsz (a + PGSIZE)
        else deallocLoop pgdir oldsz (a + PGSIZE)
  else return ()
termination_by oldsz - a
decreasing_by all_goals first | omega | (simp only [PGSIZE]; omega)

def deallocuvm (pgdir oldsz newsz : ℕ) : MemProg ℕ :=
  if oldsz ≤ newsz then return oldsz
  else do
    deallocLoop L pgdir oldsz (PGROUNDUP newsz)
    return newsz

/-- The loop of `allocuvm`. -/
def allocLoop (pgdir oldsz newsz a : ℕ) : MemProg ℕ :=
  if a < newsz then do
    match ← kalloc with
    | none =>
        let _ ← deallocuvm L pgdir newsz oldsz
        return 0
    | some mem =>
        modify fun m => m.zero mem
        if ← mappages pgdir a PGSIZE (mem * PGSIZE) (PTE_W ||| PTE_U) then
          allocLoop pgdir oldsz newsz (a + PGSIZE)
        else do
          let _ ← deallocuvm L pgdir newsz oldsz
          kfree L mem
          return 0
  else return newsz
termination_by newsz - a
decreasing_by simp only [PGSIZE]; omega

/-- Returns the new size, or 0 on error. -/
def allocuvm (pgdir oldsz newsz : ℕ) : MemProg ℕ :=
  if KERNBASE ≤ newsz then return 0
  else if newsz < oldsz then return oldsz
  else allocLoop L pgdir oldsz newsz (PGROUNDUP oldsz)

/-- The loop of `freevm` over the `n` directory entries from `i` on. -/
def freeTables (pgdir : ℕ) : ℕ → ℕ → MemProg Unit
  | 0, _ => return ()
  | n + 1, i => do
      let pde := (← get).entry pgdir i
      if present pde then
        kfree L (pteAddr pde)
      freeTables pgdir n (i + 1)

/-- The shared pages at the top are not freed. -/
def freevm (pgdir : ℕ) : MemProg Unit := do
  if pgdir = 0 then
    throw .freevm
  let _ ← deallocuvm L pgdir (KERNBASE - NSHAREPAGE * PGSIZE) 0
  freeTables L pgdir NPDENTRIES 0
  kfree L pgdir

/-- An entry of `kmap`. -/
structure Kmap where
  virt : ℕ
  physStart : ℕ
  physEnd : ℕ
  perm : ℕ

def kmap : List Kmap :=
  [ ⟨KERNBASE, 0, EXTMEM, PTE_W⟩,
    ⟨KERNLINK, EXTMEM, L.data, 0⟩,
    ⟨KERNBASE + L.data, L.data, PHYSTOP, PTE_W⟩,
    ⟨DEVSPACE, DEVSPACE, 0, PTE_W⟩ ]

def mapKernel (pgdir : ℕ) : List Kmap → MemProg Bool
  | [] => return true
  | k :: rest => do
      if ← mappages pgdir k.virt ((k.physEnd + 2 ^ 32 - k.physStart) % 2 ^ 32) k.physStart
        k.perm then
        mapKernel pgdir rest
      else return false

def setupkvm : MemProg (Option ℕ) := do
  match ← kalloc with
  | none => return none
  | some pgdir =>
      modify fun m => m.zero pgdir
      if DEVSPACE < KERNBASE + PHYSTOP then
        throw .phystop
      if ← mapKernel pgdir (kmap L) then return some pgdir
      else do
        freevm L pgdir
        return none

/-- Load the first process's code into page 0. -/
def inituvm (pgdir : ℕ) (init : List Byte) : MemProg Unit := do
  if PGSIZE ≤ init.length then
    throw .inituvm
  match ← kalloc with
  | none => throw .trap
  | some mem =>
      modify fun m => m.zero mem
      let _ ← mappages pgdir 0 PGSIZE (mem * PGSIZE) (PTE_W ||| PTE_U)
      modify fun m => m.fill mem (Bytes.move (m.page mem) 0 init.length fun j => init.getD j 0)

def clearpteu (pgdir uva : ℕ) : MemProg Unit := do
  match ← walkpgdir pgdir uva false with
  | none => throw .clearpteu
  | some (pgtab, i) =>
      modify fun m => m.setEntry pgtab i (m.entry pgtab i &&& (2 ^ 32 - 1 - PTE_U))

/-- The loop of `copyuvm` over the user pages; returns false for `goto bad`. -/
def copyLoop (d pgdir sz i : ℕ) : MemProg Bool :=
  if i < sz then do
    match ← walkpgdir pgdir i false with
    | none => throw .copyuvmPte
    | some (pgtab, j) =>
        let pte := (← get).entry pgtab j
        if ¬ present pte then
          throw .copyuvmPage
        match ← kalloc with
        | none => return false
        | some mem =>
            modify fun m => m.fill mem (m.page (pteAddr pte))
            if ← mappages d i PGSIZE (mem * PGSIZE) (pteFlags pte) then
              copyLoop d pgdir sz (i + PGSIZE)
            else do
              kfree L mem
              return false
  else return true
termination_by sz - i
decreasing_by simp only [PGSIZE]; omega

/-- The page behind a user address. A null `pte` is followed, and page 0 is not mapped. -/
def uva2ka (pgdir uva : ℕ) : MemProg (Option ℕ) := do
  match ← walkpgdir pgdir uva false with
  | none => throw .trap
  | some (pgtab, i) =>
      let pte := (← get).entry pgtab i
      if present pte ∧ userBit pte then return some (pteAddr pte)
      else return none

/-- Returns false for -1. -/
def copyout (pgdir va : ℕ) (p : List Byte) : MemProg Bool :=
  if more : p.length = 0 then return true
  else do
    let va0 := PGROUNDDOWN va
    match ← uva2ka pgdir va0 with
    | none => return false
    | some pa0 =>
        let n := min (PGSIZE - (va - va0)) p.length
        modify fun m => m.fill pa0 (Bytes.move (m.page pa0) (va - va0) n fun j => p.getD j 0)
        copyout pgdir ((va0 + PGSIZE) % 2 ^ 32) (p.drop n)
termination_by p.length
decreasing_by
  have : va - PGROUNDDOWN va < PGSIZE := by
    have := Nat.div_add_mod va PGSIZE
    have := Nat.mod_lt va (show 0 < PGSIZE by decide)
    simp only [PGROUNDDOWN, PGSIZE] at *
    omega
  simp only [List.length_drop]
  omega

end Xv6.Vm
