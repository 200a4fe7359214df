import Xv6.Sched.Table
import Xv6.Vm.Exec

/-!
# Processes and their memory

What part1's `proc.c`, `exec.c` and the rest of `vm.c` do with memory, the shared
pages and the process table. Each system call is one step. Waking up and dispatching
only move a process between the states in which it is alive, which `Call.dispatch`
does at will.
-/

namespace Xv6.Vm

open Sched (State)

structure Proc where
  sz : ℕ
  /-- The page of the directory, or 0. -/
  pgdir : ℕ
  /-- The page of the kernel stack, or 0. -/
  kstack : ℕ
  state : State
  pid : ℤ
  parent : Option (Fin NPROC)
  killed : Bool
  sharedPage : Fin NSHAREPAGE → ℕ

structure Kernel where
  mem : Mem
  kpgdir : ℕ
  smCounts : Fin NSHAREPAGE → ℤ
  proc : Fin NPROC → Proc
  initproc : Fin NPROC
  nextpid : ℤ
  /-- The pages of other objects, such as pipes and the stacks of the other CPUs. -/
  objects : List ℕ

namespace Kernel

variable (s : Kernel)

def setProc (i : Fin NPROC) (p : Proc) : Kernel := { s with proc := Function.update s.proc i p }

variable {i j : Fin NPROC} {p : Proc}

@[simp] theorem setProc_mem : (s.setProc i p).mem = s.mem := rfl

@[simp] theorem setProc_smCounts : (s.setProc i p).smCounts = s.smCounts := rfl

@[simp] theorem setProc_proc_self : (s.setProc i p).proc i = p := Function.update_self _ _ _

@[simp] theorem setProc_proc_of_ne (other : j ≠ i) : (s.setProc i p).proc j = s.proc j :=
  Function.update_of_ne other _ _

end Kernel

abbrev KernelProg := Prog Kernel Panic

/-- A program of the memory layer, on the kernel's memory. -/
def onMem {α : Type} (program : MemProg α) : KernelProg α := fun s =>
  match program s.mem with
  | .ok (a, m) => .ok (a, { s with mem := m })
  | .error e => .error e

def modifyProc (i : Fin NPROC) (f : Proc → Proc) : KernelProg Unit :=
  modify fun s => s.setProc i (f (s.proc i))

variable (L : Link)

def allocproc : KernelProg (Option (Fin NPROC)) := do
  let s ← get
  match (List.finRange NPROC).find? fun i => (s.proc i).state = .unused with
  | none => return none
  | some i =>
      modify fun s => { s.setProc i { s.proc i with state := .embryo, pid := s.nextpid } with
        nextpid := s.nextpid + 1 }
      match ← onMem kalloc with
      | none =>
          modifyProc i fun p => { p with kstack := 0, state := .unused }
          return none
      | some kstack =>
          modifyProc i fun p => { p with kstack := kstack }
          return some i

/-- Set up first user process. -/
def userinit (initcode : List Byte) : KernelProg Unit := do
  match ← allocproc with
  | none => throw .trap
  | some p =>
      modify fun s => { s with initproc := p }
      match ← onMem (setupkvm L) with
      | none => throw .userinit
      | some pgdir =>
          modifyProc p fun p => { p with pgdir := pgdir }
          onMem (inituvm pgdir initcode)
          modifyProc p fun p => { p with sz := PGSIZE, state := .runnable }

/-- Returns false for -1. -/
def growproc (i : Fin NPROC) (n : ℤ) : KernelProg Bool := do
  let p := (← get).proc i
  let target := ((p.sz + n) % 2 ^ 32).toNat
  let sz ← if n > 0 then onMem (allocuvm L p.pgdir p.sz target)
    else if n < 0 then onMem (deallocuvm L p.pgdir p.sz target)
    else pure p.sz
  if n ≠ 0 ∧ sz = 0 then return false
  else do
    modifyProc i fun p => { p with sz := sz }
    return true

/-- The loop of `copyuvm` over the shared pages; returns false for `goto bad`. -/
def shareLoop (d : ℕ) (child parent : Fin NPROC) : List (Fin NSHAREPAGE) → KernelProg Bool
  | [] => return true
  | k :: rest => do
      let s ← get
      let va := (s.proc parent).sharedPage k
      if va ≠ 0 then do
        modifyProc child fun p => { p with sharedPage := Function.update p.sharedPage k va }
        if ← onMem (mappages d va PGSIZE (s.mem.smAddr k * PGSIZE) (PTE_W ||| PTE_U)) then do
          modify fun s => { s with
            smCounts := Function.update s.smCounts k (s.smCounts k + 1) }
          shareLoop d child parent rest
        else return false
      else shareLoop d child parent rest

def copyuvm (pgdir sz : ℕ) (child parent : Fin NPROC) : KernelProg (Option ℕ) := do
  match ← onMem (setupkvm L) with
  | none => return none
  | some d =>
      if ← onMem (copyLoop L d pgdir sz PGSIZE) then
        if ← shareLoop d child parent (List.finRange NSHAREPAGE) then return some d
        else do
          onMem (freevm L d)
          return none
      else do
        onMem (freevm L d)
        return none

/-- `fork` in process `i`; returns false for -1. -/
def fork (i : Fin NPROC) : KernelProg Bool := do
  match ← allocproc with
  | none => return false
  | some np =>
      let p := (← get).proc i
      match ← copyuvm L p.pgdir p.sz np i with
      | none =>
          onMem (kfree L ((← get).proc np).kstack)
          modifyProc np fun p => { p with pgdir := 0, kstack := 0, state := .unused }
          return false
      | some d =>
          modifyProc np fun q =>
            { q with pgdir := d, sz := p.sz, parent := some i, state := .runnable }
          return true

/-- `exec` in process `i`; returns false for -1. -/
def exec (i : Fin NPROC) (img : Option Image) (argv : List (List Byte)) : KernelProg Bool := do
  match img with
  -- There is no such file.
  | none => return false
  | some img =>
      match ← onMem (execImage L img argv) with
      | none => return false
      | some (pgdir, sz, _) =>
          let oldpgdir := ((← get).proc i).pgdir
          modifyProc i fun p => { p with sharedPage := fun _ => 0, pgdir := pgdir, sz := sz }
          onMem (freevm L oldpgdir)
          return true

/-- `exit` in process `i`. -/
def exit (i : Fin NPROC) : KernelProg Unit := do
  if i = (← get).initproc then
    throw .initExiting
  modify fun s =>
    let passed : Fin NPROC → Proc := fun j =>
      if (s.proc j).parent = some i then { s.proc j with parent := some s.initproc } else s.proc j
    { s with proc := Function.update passed i { passed i with state := .zombie } }

/-- The loop of `wait` over the shared pages of the child in slot `i`. -/
def dropLoop (i : Fin NPROC) : List (Fin NSHAREPAGE) → KernelProg Unit
  | [] => return ()
  | k :: rest => do
      if ((← get).proc i).sharedPage k ≠ 0 then do
        modifyProc i fun p => { p with sharedPage := Function.update p.sharedPage k 0 }
        modify fun s => { s with
          smCounts := Function.update s.smCounts k (s.smCounts k - 1) }
        dropLoop i rest
      else dropLoop i rest

/-- One pass through the loop of `wait` in process `i`: whether a child was found. -/
def wait (i : Fin NPROC) : KernelProg Bool := do
  let s ← get
  match (List.finRange NPROC).find? fun j =>
      (s.proc j).parent = some i ∧ (s.proc j).state = .zombie with
  | none => return false
  | some j =>
      dropLoop j (List.finRange NSHAREPAGE)
      onMem (kfree L (s.proc j).kstack)
      modifyProc j fun p => { p with kstack := 0 }
      onMem (freevm L (s.proc j).pgdir)
      modifyProc j fun p => { p with pid := 0, parent := none, killed := false, state := .unused }
      return true

/-- Set up the shared pages. -/
def shmemInit : List (Fin NSHAREPAGE) → KernelProg Unit
  | [] => return ()
  | k :: rest => do
      modify fun s => { s with smCounts := Function.update s.smCounts k 0 }
      match ← onMem kalloc with
      | none => throw .shmemInit
      | some page =>
          onMem (modify fun m => { m.zero page with smAddr := Function.update m.smAddr k page })
          shmemInit rest

/-- `shmem_access` in process `i`; -1 is `2 ^ 32 - 1`. -/
def shmemAccess (i : Fin NPROC) (pageNumber : ℤ) : KernelProg ℕ := do
  if legal : 0 ≤ pageNumber ∧ pageNumber.toNat < NSHAREPAGE then do
    let k : Fin NSHAREPAGE := ⟨pageNumber.toNat, legal.2⟩
    let s ← get
    if (s.proc i).sharedPage k ≠ 0 then return (s.proc i).sharedPage k
    else
      let va := KERNBASE - (k + 1) * PGSIZE
      -- V2P(virtual_addr)
      if (s.proc i).sz > (va + 2 ^ 32 - KERNBASE) % 2 ^ 32 then return 2 ^ 32 - 1
      else do
        if ← onMem (mappages (s.proc i).pgdir va PGSIZE (s.mem.smAddr k * PGSIZE) (PTE_W ||| PTE_U))
        then do
          modify fun s => { s with
            smCounts := Function.update s.smCounts k (s.smCounts k + 1) }
          modifyProc i fun p => { p with sharedPage := Function.update p.sharedPage k va }
          return va
        else throw .shmemAccess
  else return 2 ^ 32 - 1

/-- A page for another object of the kernel, such as a pipe. -/
def objectAlloc : KernelProg Bool := do
  match ← onMem kalloc with
  | none => return false
  | some page =>
      modify fun s => { s with objects := page :: s.objects }
      return true

def objectFree (page : ℕ) : KernelProg Unit := do
  onMem (kfree L page)
  modify fun s => { s with objects := s.objects.erase page }

/-- Memory and the process table before `main`. -/
def Kernel.start : Kernel where
  mem := { page := fun _ _ => 0, freelist := [], faults := [], smAddr := fun _ => 0,
           failed := false, misfreed := false }
  kpgdir := 0
  smCounts := fun _ => 0
  proc := fun _ => { sz := 0, pgdir := 0, kstack := 0, state := .unused, pid := 0, parent := none,
                     killed := false, sharedPage := fun _ => 0 }
  initproc := 0
  nextpid := 1
  objects := []

/-- The stacks of the other CPUs. -/
def startothers : ℕ → KernelProg Unit
  | 0 => return ()
  | n + 1 => do
      if ← objectAlloc then startothers n
      else throw .trap

/-- `main`, on a machine with `n` more CPUs. -/
def boot (n : ℕ) (initcode : List Byte) : KernelProg Unit := do
  onMem (kinit1 L)
  match ← onMem (setupkvm L) with
  | none => throw .trap
  | some kpgdir =>
      modify fun s => { s with kpgdir := kpgdir }
      startothers n
      onMem (kinit2 L)
      userinit L initcode
      shmemInit (List.finRange NSHAREPAGE)

inductive Call where
  | fork (i : Fin NPROC)
  | exec (i : Fin NPROC) (img : Option Image) (argv : List (List Byte))
  | growproc (i : Fin NPROC) (n : ℤ)
  | shmemAccess (i : Fin NPROC) (pageNumber : ℤ)
  | exit (i : Fin NPROC)
  | wait (i : Fin NPROC)
  | objectAlloc
  | objectFree (page : ℕ)
  | dispatch (i : Fin NPROC) (state : State)

/-- The states of a process that can make a system call. -/
def alive (state : State) : Bool := state = .sleeping ∨ state = .runnable ∨ state = .running

/-- What a call does, in a process that is alive. -/
def Call.run (s : Kernel) : Call → KernelProg Unit
  | .fork i => if alive (s.proc i).state then discard (Vm.fork L i) else return ()
  | .exec i img argv => if alive (s.proc i).state then discard (Vm.exec L i img argv) else return ()
  | .growproc i n => if alive (s.proc i).state then discard (Vm.growproc L i n) else return ()
  | .shmemAccess i k => if alive (s.proc i).state then discard (Vm.shmemAccess i k) else return ()
  | .exit i => if alive (s.proc i).state then Vm.exit i else return ()
  | .wait i => if alive (s.proc i).state then discard (Vm.wait L i) else return ()
  | .objectAlloc => discard Vm.objectAlloc
  | .objectFree page => if page ∈ s.objects then Vm.objectFree L page else return ()
  | .dispatch i state =>
      if alive (s.proc i).state ∧ alive state then modifyProc i fun p => { p with state := state }
      else return ()

/-- One call completes, with `kalloc` failing as `faults` says. -/
def Step (s s' : Kernel) (call : Call) (faults : List Bool) : Prop :=
  call.run L s { s with mem := { s.mem with faults := faults } } = .ok ((), s')

end Xv6.Vm
