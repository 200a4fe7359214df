import Xv6.Fs.Inode
import Xv6.Sched.Table
import Xv6.Lib.Program
import Xv6.Lib.Strings

/-!
# Inodes and names

The part of part2's `fs.c` on which system calls with path names are built: the inode
cache, directories, and the resolution of paths. A directory is the list of its entries,
used and unused, and the contents of other files are left out; blocks, the log and buffers
are the subject of other modules. There is one device. A link count stays an integer, as a
disk of `FSSIZE` blocks has no room for enough entries to overflow a `short`.

One system call runs at a time, so a sleep-lock that is found locked is held by the caller
itself, which then sleeps forever.
-/

namespace Xv6.Names

open Fs (T_DIR T_FILE T_DEV T_CHECKED)

/-- Part of a path, or the text of a `name` field: it has neither a NUL nor anything after one. -/
abbrev Text := List Byte

structure Dirent where
  inum : ℕ
  name : Text
  deriving DecidableEq

/-- The fields of an inode that calls change; the others stay on the disk. -/
structure Fields where
  type : Half
  major : Half
  minor : Half
  nlink : ℤ
  deriving DecidableEq

structure Dinode extends Fields where
  /-- The contents of a directory. -/
  entries : List Dirent
  deriving DecidableEq

/-- An entry of the inode cache. -/
structure Inode extends Fields where
  inum : ℕ
  ref : ℤ
  locked : Bool
  valid : Bool
  deriving DecidableEq

inductive FileType where
  | none
  | pipe
  | inode
  deriving DecidableEq

structure File where
  type : FileType
  ref : ℤ
  readable : Bool
  writable : Bool
  /-- Of a file of type `FD_INODE`. -/
  ip : Fin NINODE
  deriving DecidableEq

structure Proc where
  state : Sched.State
  ofile : Fin NOFILE → Option (Fin NFILE)
  cwd : Option (Fin NINODE)

structure World where
  /-- `sb.ninodes`. -/
  ninodes : ℕ
  disk : ℕ → Dinode
  icache : Fin NINODE → Inode
  ftable : Fin NFILE → File
  proc : Fin NPROC → Proc

namespace World

variable (w : World)

def setInode (i : Fin NINODE) (ip : Inode) : World :=
  { w with icache := Function.update w.icache i ip }

def setFile (f : Fin NFILE) (file : File) : World :=
  { w with ftable := Function.update w.ftable f file }

def setProc (p : Fin NPROC) (proc : Proc) : World :=
  { w with proc := Function.update w.proc p proc }

def setDisk (inum : ℕ) (d : Dinode) : World :=
  { w with disk := Function.update w.disk inum d }

end World

/-- How a call ends that does not return. -/
inductive Stop where
  | noInodes
  | ilock
  | noType
  | iunlock
  | iallocNoInodes
  | dirlookupNotDir
  | dirlink
  | unlink
  | createDots
  | createDirlink
  | filedup
  | fileclose
  | initExiting
  /-- The process sleeps on a lock that it holds. -/
  | deadlock
  /-- A null pointer is followed. -/
  | null
  deriving DecidableEq

abbrev NameM := Prog World Stop

def getInode (i : Fin NINODE) : NameM Inode := do return (← get).icache i

def modifyInode (i : Fin NINODE) (f : Inode → Inode) : NameM Unit :=
  modify fun w => w.setInode i (f (w.icache i))

/-! ## The inode cache -/

def iget (inum : ℕ) : NameM (Fin NINODE) := do
  let w ← get
  match (List.finRange NINODE).find? fun i => 0 < (w.icache i).ref ∧ (w.icache i).inum = inum with
  | some i =>
      modifyInode i fun ip => { ip with ref := ip.ref + 1 }
      return i
  | none =>
      match (List.finRange NINODE).find? fun i => (w.icache i).ref = 0 with
      | some i =>
          modifyInode i fun ip => { ip with inum := inum, ref := 1, valid := false }
          return i
      | none => throw .noInodes

def idup (i : Fin NINODE) : NameM (Fin NINODE) := do
  modifyInode i fun ip => { ip with ref := ip.ref + 1 }
  return i

def acquiresleep (i : Fin NINODE) : NameM Unit := do
  if (← getInode i).locked then throw .deadlock
  modifyInode i fun ip => { ip with locked := true }

def releasesleep (i : Fin NINODE) :
    NameM Unit := modifyInode i fun ip => { ip with locked := false }

def ilock (i : Fin NINODE) : NameM Unit := do
  if (← getInode i).ref < 1 then throw .ilock
  acquiresleep i
  let ip ← getInode i
  if ip.valid = false then
    let d := (← get).disk ip.inum
    modifyInode i fun ip => { ip with toFields := d.toFields, valid := true }
    if d.type = 0 then throw .noType

def iunlock (i : Fin NINODE) : NameM Unit := do
  let ip ← getInode i
  if ip.locked = false ∨ ip.ref < 1 then throw .iunlock
  releasesleep i

def iupdate (i : Fin NINODE) : NameM Unit :=
  modify fun w =>
    let ip := w.icache i
    w.setDisk ip.inum { w.disk ip.inum with toFields := ip.toFields }

/-- The contents of directory `i`. -/
def readDir (i : Fin NINODE) : NameM (List Dirent) := do
  let ip ← getInode i
  return ((← get).disk ip.inum).entries

def writeDir (i : Fin NINODE) (entries : List Dirent) : NameM Unit :=
  modify fun w =>
    let inum := (w.icache i).inum
    w.setDisk inum { w.disk inum with entries := entries }

/-- `itrunc`, of which the entries of a directory are what is kept here. -/
def itrunc (i : Fin NINODE) : NameM Unit := do
  writeDir i []
  iupdate i

def iput (i : Fin NINODE) : NameM Unit := do
  acquiresleep i
  let ip ← getInode i
  if ip.valid ∧ ip.nlink = 0 ∧ ip.ref = 1 then
    -- inode has no links and no other references: truncate and free.
    itrunc i
    modifyInode i fun ip => { ip with type := 0 }
    iupdate i
    modifyInode i fun ip => { ip with valid := false }
  releasesleep i
  modifyInode i fun ip => { ip with ref := ip.ref - 1 }

def iunlockput (i : Fin NINODE) : NameM Unit := do
  iunlock i
  iput i

/-- `memset` of a dinode. -/
def zeroDinode : Dinode where
  type := 0
  major := 0
  minor := 0
  nlink := 0
  entries := []

def ialloc (type : Half) : NameM (Fin NINODE) := do
  let w ← get
  match (List.range w.ninodes).find? fun inum => 1 ≤ inum ∧ (w.disk inum).type = 0 with
  | some inum =>
      modify fun w => w.setDisk inum { zeroDinode with type := type }
      iget inum
  | none => throw .iallocNoInodes

/-! ## Directories -/

/-- `de.inum != 0 && namecmp(name, de.name) == 0` -/
def Dirent.named (de : Dirent) (name : Text) : Bool := de.inum ≠ 0 ∧ de.name = name

/-- The index of the entry, in place of its offset, and its inode. -/
def dirlookup (dp : Fin NINODE) (name : Text) : NameM (Option (ℕ × Fin NINODE)) := do
  if (← getInode dp).type ≠ T_DIR then throw .dirlookupNotDir
  let entries ← readDir dp
  match entries.find? fun de => de.named name with
  | some de => return some (entries.findIdx fun de => de.named name, ← iget de.inum)
  | none => return none

/-- The entries that fit into a file. -/
abbrev MAXENTRIES : ℕ := MAXFILE * BSIZE / 16

def dirlink (dp : Fin NINODE) (name : Text) (inum : ℕ) : NameM Bool := do
  match ← dirlookup dp name with
  | some (_, ip) =>
      iput ip
      return false
  | none =>
      let entries ← readDir dp
      -- An empty dirent, or one more at the end.
      let off := entries.findIdx fun de => de.inum = 0
      if off ≥ MAXENTRIES then throw .dirlink
      writeDir dp (entries.take off ++ ⟨inum, name⟩ :: entries.drop (off + 1))
      if off = entries.length then iupdate dp
      return true

/-! ## Paths -/

def slash : Byte := 0x2f

/-- The first element, and the rest of the path. -/
def skipelem (path : Text) : Option (Text × Text) :=
  (Strings.element slash path).map fun (name, path) => (name.take DIRSIZ, path)

/-- The end of `namex`, after its loop. -/
def pathEnd (nameiparent : Bool) (ip : Fin NINODE) (last : Text) :
    NameM (Option (Fin NINODE × Text)) := do
  if nameiparent then
    iput ip
    return none
  return some (ip, last)

/-- The loop of `namex`; as many turns as the path has bytes are enough. -/
def walk (nameiparent : Bool) : ℕ → Fin NINODE → Text → Text → NameM (Option (Fin NINODE × Text))
  | 0, ip, _, last => pathEnd nameiparent ip last
  | turns + 1, ip, path, last =>
      match skipelem path with
      | none => pathEnd nameiparent ip last
      | some (name, rest) => do
          ilock ip
          if (← getInode ip).type ≠ T_DIR then
            iunlockput ip
            return none
          if nameiparent ∧ rest = [] then
            -- Stop one level early.
            iunlock ip
            return some (ip, name)
          match ← dirlookup ip name with
          | none =>
              iunlockput ip
              return none
          | some (_, next) =>
              iunlockput ip
              walk nameiparent turns next rest name

/-- The inode for the path, or for its parent, and the final path element. -/
def namex (p : Fin NPROC) (path : Text) (nameiparent : Bool) :
    NameM (Option (Fin NINODE × Text)) := do
  if path.head? = some slash then
    walk nameiparent path.length (← iget ROOTINO) path []
  else
    match ((← get).proc p).cwd with
    | none => throw .null
    | some cwd => walk nameiparent path.length (← idup cwd) path []

def namei (p : Fin NPROC) (path : Text) : NameM (Option (Fin NINODE)) := do
  return (← namex p path false).map Prod.fst

def nameiparent (p : Fin NPROC) (path : Text) : NameM (Option (Fin NINODE × Text)) :=
  namex p path true

end Xv6.Names
