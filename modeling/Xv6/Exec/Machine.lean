import Xv6.Names.Inodes
import Xv6.Vm.Process

/-!
# exec

All of part1's `exec.c`: the file is found and locked within a transaction of the log, the
new address space is built, and the process takes it over. Memory, names and the log are
parts of one state. One system call runs at a time, so a call that has to wait for the log
waits forever.

`files` is what `readi` stores, for each inode number.
-/

namespace Xv6.Exec

open Prog
open Vm (Image ElfHdr Link MemProg PGSIZE ELF_MAGIC)
open Names (Text slash)

/-- The part of `struct log` that tells whether an operation is in progress. -/
structure Log where
  /-- `log.lh.n`, not counting what a call logs in the room that it has reserved. -/
  n : ℕ
  outstanding : ℕ
  committing : Bool
  deriving DecidableEq

/-- The registers that `exec` sets. -/
structure TrapFrame where
  eip : ℕ
  esp : ℕ
  deriving DecidableEq

/-- The process table is in parts: `kernel.proc` has the memory of the processes,
`names.proc` their files and directories. -/
structure System where
  kernel : Vm.Kernel
  names : Names.World
  log : Log
  tf : Fin NPROC → TrapFrame
  /-- `name`, up to its NUL. -/
  name : Fin NPROC → Text

inductive Stop where
  | vm (e : Vm.Panic)
  | names (e : Names.Stop)
  | logCommitting
  /-- The process sleeps on `&log`. -/
  | sleeps

abbrev ExecM := Prog System Stop

def onMem {α : Type} (program : MemProg α) : ExecM α :=
  zoom (fun s => s.kernel.mem) (fun s m => { s with kernel := { s.kernel with mem := m } })
    .vm program

def onNames {α : Type} (program : Names.NameM α) : ExecM α :=
  zoom System.names (fun s w => { s with names := w }) .names program

def beginOp : ExecM Unit := do
  let log := (← get).log
  if log.committing = true ∨ LOGSIZE < log.n + (log.outstanding + 1) * MAXOPBLOCKS then
    throw .sleeps
  modify fun s => { s with log := { s.log with outstanding := s.log.outstanding + 1 } }

/-- The last operation commits. -/
def endOp : ExecM Unit := do
  modify fun s => { s with log := { s.log with outstanding := s.log.outstanding - 1 } }
  let log := (← get).log
  if log.committing = true then throw .logCommitting
  if log.outstanding = 0 then modify fun s => { s with log := { s.log with n := 0 } }

variable (L : Link) (files : ℕ → Image)

/-- The label `bad`; `ip` is none once the inode has been put. -/
def bad (pgdir : Option ℕ) (ip : Option (Fin NINODE)) : ExecM Bool := do
  match pgdir with
  | some pgdir => onMem (Vm.freevm L pgdir)
  | none => pure ()
  match ip with
  | some ip => do
      onNames (Names.iunlockput ip)
      endOp
  | none => pure ()
  return false

/-- The loop that sets `last` to what follows the last slash. -/
def lastElement : Text → Text → Text
  | last, [] => last
  | last, c :: s => lastElement (if c = slash then s else last) s

/-- What `safestrcpy` leaves in a field of `n` bytes, up to its NUL. -/
def safestrcpy (t : Text) (n : ℕ) : Text := t.take (n - 1)

def nameSize : ℕ := 16

/-- Commit to the user image. -/
def commit (p : Fin NPROC) (path : Text) (pgdir sz entry sp : ℕ) : ExecM Bool := do
  modify fun s => { s with
    kernel := s.kernel.setProc p { s.kernel.proc p with sharedPage := fun _ => 0 }
    name := Function.update s.name p (safestrcpy (lastElement path path) nameSize) }
  let oldpgdir := ((← get).kernel.proc p).pgdir
  modify fun s => { s with
    kernel := s.kernel.setProc p { s.kernel.proc p with pgdir := pgdir, sz := sz }
    tf := Function.update s.tf p { eip := entry, esp := sp } }
  onMem (Vm.freevm L oldpgdir)
  return true

/-- From the lines after the `iunlockput` on: the stack and the arguments. -/
def finish (p : Fin NPROC) (path : Text) (argv : List (List Byte)) (pgdir loaded entry : ℕ) :
    ExecM Bool := do
  match ← onMem (Vm.makeStack L pgdir loaded) with
  | none => bad L (some pgdir) none
  | some sz =>
      match ← onMem (Vm.copyArgs pgdir sz argv) with
      | none => bad L (some pgdir) none
      | some sp => commit L p path pgdir sz entry sp

/-- With the inode locked: the program is loaded from it. -/
def load (p : Fin NPROC) (path : Text) (argv : List (List Byte)) (ip : Fin NINODE) :
    ExecM Bool := do
  let img := files ((← get).names.icache ip).inum
  let bytes := img.readi 0 ElfHdr.size
  let elf := ElfHdr.decode bytes
  if bytes.length ≠ ElfHdr.size then bad L none (some ip)
  else if elf.magic ≠ ELF_MAGIC then bad L none (some ip)
  else do
    match ← onMem (Vm.setupkvm L) with
    | none => bad L none (some ip)
    | some pgdir =>
        match ← onMem (Vm.loadSegments L img pgdir elf.phnum elf.phoff PGSIZE) with
        | none => bad L (some pgdir) (some ip)
        | some loaded => do
            onNames (Names.iunlockput ip)
            endOp
            finish L p path argv pgdir loaded elf.entry

/-- `exec` in process `p`; returns false for -1. -/
def exec (p : Fin NPROC) (path : Text) (argv : List (List Byte)) : ExecM Bool := do
  beginOp
  match ← onNames (Names.namei p path) with
  | none => do
      endOp
      return false
  | some ip => do
      onNames (Names.ilock ip)
      load L files p path argv ip

end Xv6.Exec
