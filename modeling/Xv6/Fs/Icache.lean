import Xv6.Fs.Inode

/-!
# The inode cache

`ialloc`, `iget`, `idup`, `ilock`, `iunlock` and `iput` of part2's `fs.c`, and
the machine whose steps are the calls that file-system operations are made of.
An operation such as `create` or `unlink` is a sequence of these calls. It
changes `major`, `minor` and `nlink` under the lock and calls `iupdate` right
after the change, so the change and the call are one step.
-/

namespace Xv6.Fs

/-- An entry of `icache.inode`; `locked` is its sleep-lock. -/
structure Entry extends Inode where
  ref : ℕ
  valid : Bool
  locked : Bool

/-- The file system together with its inode cache. -/
structure Kernel where
  fs : St
  icache : Fin NINODE → Entry

/-- A dinode that has been cleared by `memset`. -/
def zeroDinode : Dinode where
  type := 0
  major := 0
  minor := 0
  nlink := 0
  size := 0
  addrs := fun _ => 0

/-- The loop of `ialloc` from `inum` on. -/
def iallocFrom (type : Half) : ℕ → ℕ → FsM ℕ
  | 0, _ => throw .ialloc
  | fuel + 1, inum => do
      let sb := (← get).sb
      if inum < sb.ninodes then
        let data ← bread (sb.iblock inum)
        if (getDinode data (inum % IPB)).type = 0 then
          logWrite (sb.iblock inum) (putDinode data (inum % IPB) { zeroDinode with type := type })
          brelse (sb.iblock inum)
          return inum
        else
          brelse (sb.iblock inum)
          iallocFrom type fuel (inum + 1)
      else throw .ialloc

/-- The part of `ialloc` on the disk: it returns the number of the new inode. -/
def iallocDisk (type : Half) : FsM ℕ := do
  iallocFrom type (← get).sb.ninodes 1

/-- The part of `ilock` that reads the inode from disk. -/
def loadInode (inum : ℕ) : FsM Dinode := do
  let b := (← get).sb.iblock inum
  let data ← bread b
  let d := getDinode data (inum % IPB)
  brelse b
  if d.type = 0 then throw .ilock
  return d

/-- The part of `iput` that frees an inode. -/
def freeInode (ip : Inode) : FsM Inode := do
  let ip ← itrunc ip
  let ip := { ip with type := 0 }
  iupdate ip
  return ip

namespace Kernel

/-- Replace one cache entry. -/
def set (k : Kernel) (i : Fin NINODE) (e : Entry) : Kernel :=
  { k with icache := Function.update k.icache i e }

/-- Run a function of the file system; a panic stops the machine. -/
def call {α : Type} (k : Kernel) (m : FsM α) : Option (α × Kernel) :=
  match m k.fs with
  | .ok (a, fs) => some (a, { k with fs := fs })
  | .error _ => none

def iget (k : Kernel) (inum : ℕ) : Option Kernel :=
  match (List.finRange NINODE).find? fun i => 0 < (k.icache i).ref ∧ (k.icache i).inum = inum with
  | some i => some (k.set i { k.icache i with ref := (k.icache i).ref + 1 })
  | none =>
      match (List.finRange NINODE).find? fun i => (k.icache i).ref = 0 with
      | some i => some (k.set i { k.icache i with inum := inum, ref := 1, valid := false })
      | none => none -- panic("iget: no inodes")

def idup (k : Kernel) (i : Fin NINODE) : Kernel :=
  k.set i { k.icache i with ref := (k.icache i).ref + 1 }

def ialloc (k : Kernel) (type : Half) : Option Kernel :=
  (k.call (iallocDisk type)).bind fun r => r.2.iget r.1

def ilock (k : Kernel) (i : Fin NINODE) : Option Kernel :=
  let e := k.icache i
  if e.ref < 1 then none -- panic("ilock")
  else if e.locked then none
  else if e.valid then some (k.set i { e with locked := true })
  else (k.call (loadInode e.inum)).map fun r =>
    r.2.set i { e with toDinode := r.1, valid := true, locked := true }

def iunlock (k : Kernel) (i : Fin NINODE) : Option Kernel :=
  let e := k.icache i
  if e.locked = false ∨ e.ref < 1 then none -- panic("iunlock")
  else some (k.set i { e with locked := false })

def iput (k : Kernel) (i : Fin NINODE) : Option Kernel :=
  let e := k.icache i
  if e.locked then none
  else if e.valid ∧ e.nlink = 0 ∧ e.ref = 1 then
    -- inode has no links and no other references: truncate and free.
    (k.call (freeInode e.toInode)).map fun r =>
      r.2.set i { toInode := r.1, ref := e.ref - 1, valid := false, locked := false }
  else some (k.set i { e with ref := e.ref - 1 })

end Kernel

/-- The calls of which file-system operations are made. -/
inductive CacheCall where
  /-- `iget` for a number found in a directory, or for the root. -/
  | iget (inum : ℕ)
  | idup (i : Fin NINODE)
  | ilock (i : Fin NINODE)
  | iunlock (i : Fin NINODE)
  | iput (i : Fin NINODE)
  | ialloc (type : Half)
  | readi (i : Fin NINODE) (dst : Mem) (off n : Word)
  | writei (i : Fin NINODE) (src : Mem) (off n : Word)
  /-- Assignments to `major`, `minor` and `nlink`, followed by `iupdate`. -/
  | change (i : Fin NINODE) (major minor nlink : Half)

/-- One call. The contents and fields of an inode are used under its lock only. -/
def cacheStep (dev : Devsw) (k : Kernel) : CacheCall → Option Kernel
  | .iget inum => if inum < k.fs.sb.ninodes then k.iget inum else none
  | .idup i => if (k.icache i).ref < 1 then none else some (k.idup i)
  | .ilock i => k.ilock i
  | .iunlock i => k.iunlock i
  | .iput i => if (k.icache i).ref < 1 then none else k.iput i
  | .ialloc type => if type = 0 then none else k.ialloc type
  | .readi i dst off n =>
      if (k.icache i).locked then
        (k.call (readi dev (k.icache i).toInode dst off n)).map fun r =>
          r.2.set i { k.icache i with toInode := r.1.ip }
      else none
  | .writei i src off n =>
      if (k.icache i).locked then
        (k.call (writei dev (k.icache i).toInode src off n)).map fun r =>
          r.2.set i { k.icache i with toInode := r.1.2 }
      else none
  | .change i major minor nlink =>
      if (k.icache i).locked then
        let ip := { (k.icache i).toInode with major := major, minor := minor, nlink := nlink }
        (k.call (iupdate ip)).map fun r => r.2.set i { k.icache i with toInode := ip }
      else none

end Xv6.Fs
