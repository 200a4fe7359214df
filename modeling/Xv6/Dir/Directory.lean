import Xv6.Fs.Icache
import Xv6.Lib.Strings

/-!
# Directories

`namecmp`, `dirlookup` and `dirlink` of part2's `fs.c` and what `sys_unlink` does with the
directory, with `strncmp` and `strncpy` of `string.c`. A `char *` is a function from offsets
to bytes. The directory is an entry of the inode cache that the caller has locked; entries
are read and written through `readi` and `writei`.
-/

namespace Xv6.Dir

open Prog
open Fs (FsM Mem Devsw Kernel Entry Inode T_DIR readi writei)

/-! ## Strings -/

/-- Whether `strncmp(p, q, n)` is less than, equal to or greater than 0. -/
def strncmp (n : ℕ) (p q : Mem) : ℤ := Strings.difference (fun b : Byte => b.toNat) n p q

/-- The `n` bytes that `strncpy(s, t, n)` stores. -/
def strncpy (n : ℕ) (t : Mem) : List Byte := Strings.copy n t

def namecmp (s t : Mem) : ℤ := strncmp DIRSIZ s t

/-- The pointer to a string. -/
abbrev pointer (s : List Byte) : Mem := Strings.cells s

/-! ## Entries -/

/-- `struct dirent`. -/
structure Dirent where
  inum : Half
  name : Mem

/-- `sizeof(struct dirent)`. -/
abbrev direntSize : ℕ := 16

/-- The entry in memory. -/
def getDirent (m : Mem) : Dirent where
  inum := BitVec.ofNat 16 ((m 0).toNat + 256 * (m 1).toNat)
  name := fun j => m (2 + j)

/-- The bytes of an entry whose name field has been filled with `name`. -/
def direntBytes (inum : Half) (name : List Byte) : List Byte :=
  BitVec.ofNat 8 inum.toNat :: BitVec.ofNat 8 (inum.toNat / 256) :: name

/-- How a function ends that does not return. -/
inductive Stop where
  | fs (e : Fs.Panic)
  | iget
  /-- `iput` waits for a lock that the caller holds, or panics. -/
  | iput
  | dirlookupNotDir
  | dirlookupRead
  | dirlinkRead
  | dirlink
  | unlinkWritei

abbrev DirM := Prog Kernel Stop

def onFs {α : Type} (m : FsM α) : DirM α := zoom Kernel.fs (fun k fs => { k with fs := fs }) .fs m

def iget (inum : ℕ) : DirM (Fin NINODE) := do
  let k ← get
  match (List.finRange NINODE).find? fun i => 0 < (k.icache i).ref ∧ (k.icache i).inum = inum with
  | some i =>
      set (k.set i { k.icache i with ref := (k.icache i).ref + 1 })
      return i
  | none =>
      match (List.finRange NINODE).find? fun i => (k.icache i).ref = 0 with
      | some i =>
          set (k.set i { k.icache i with inum := inum, ref := 1, valid := false })
          return i
      | none => throw .iget

def iput (i : Fin NINODE) : DirM Unit := do
  match (← get).iput i with
  | some k => set k
  | none => throw .iput

/-- The fields of a locked inode change. -/
def setInode (dp : Fin NINODE) (ip : Inode) : DirM Unit :=
  modify fun k => k.set dp { k.icache dp with toInode := ip }

variable (dev : Devsw)

/-- `readi(dp, (char*)&de, off, sizeof(de))`; nothing is read from `de` unless all of it is. -/
def readEntry (dp : Fin NINODE) (off : ℕ) (panic : Stop) : DirM Dirent := do
  let r ← onFs (readi dev ((← get).icache dp).toInode (fun _ => 0) (BitVec.ofNat 32 off) direntSize)
  setInode dp r.ip
  if r.ret ≠ direntSize then throw panic
  return getDirent r.dst

/-- `writei(dp, (char*)&de, off, sizeof(de))` for an entry of these bytes. -/
def writeEntry (dp : Fin NINODE) (off : ℕ) (de : List Byte) (panic : Stop) : DirM Unit := do
  let r ← onFs (writei dev ((← get).icache dp).toInode (pointer de)
    (BitVec.ofNat 32 off) direntSize)
  setInode dp r.2
  if r.1 ≠ direntSize then throw panic

/-- The loop of `dirlookup`: the offset of the entry, and its `inum`. Each turn goes on by 16 bytes,
so as many turns as the directory has bytes are enough. -/
def lookupLoop (dp : Fin NINODE) (name : Mem) : ℕ → ℕ → DirM (Option (ℕ × Half))
  | 0, _ => return none
  | fuel + 1, off => do
      if off < ((← get).icache dp).size.toNat then
        let de ← readEntry dev dp off .dirlookupRead
        if de.inum = 0 then lookupLoop dp name fuel (off + direntSize)
        else if namecmp name de.name = 0 then return some (off, de.inum)
        else lookupLoop dp name fuel (off + direntSize)
      else return none

/-- Returns `*poff` with the inode. -/
def dirlookup (dp : Fin NINODE) (name : Mem) : DirM (Option (ℕ × Fin NINODE)) := do
  if ((← get).icache dp).type ≠ T_DIR then throw .dirlookupNotDir
  match ← lookupLoop dev dp name ((← get).icache dp).size.toNat 0 with
  | none => return none
  | some (off, inum) => return some (off, ← iget inum.toNat)

/-- The loop of `dirlink`: the offset of an empty entry, or the end. -/
def emptyLoop (dp : Fin NINODE) : ℕ → ℕ → DirM ℕ
  | 0, off => return off
  | fuel + 1, off => do
      if off < ((← get).icache dp).size.toNat then
        let de ← readEntry dev dp off .dirlinkRead
        if de.inum = 0 then return off
        else emptyLoop dp fuel (off + direntSize)
      else return off

def dirlink (dp : Fin NINODE) (name : Mem) (inum : Word) : DirM ℤ := do
  match ← dirlookup dev dp name with
  | some (_, ip) => do
      iput ip
      return -1
  | none => do
      let off ← emptyLoop dev dp ((← get).icache dp).size.toNat 0
      writeEntry dev dp off (direntBytes (inum.setWidth 16) (strncpy DIRSIZ name)) .dirlink
      return 0

/-- The part of `sys_unlink` that works on the directory; false for `goto bad`. The checks on the
inode that has been found may also refuse, and the link counts change. -/
def unlinkEntry (dp : Fin NINODE) (name : Mem) : DirM Bool := do
  -- Cannot unlink "." or "..".
  if namecmp name (pointer [0x2e]) = 0 ∨ namecmp name (pointer [0x2e, 0x2e]) = 0 then return false
  else do
    match ← dirlookup dev dp name with
    | none => return false
    | some (off, _) => do
        writeEntry dev dp off (List.replicate direntSize 0) .unlinkWritei
        return true

end Xv6.Dir
