import Xv6.Param
import Xv6.Lib.Bitmap
import Xv6.Lib.Program

/-!
# Blocks

The block layer of part2's `fs.c`: the superblock, `bzero`, `balloc` and
`bfree`, over the interface of the buffer cache. The state holds the contents
of every block as the cache shows them, and the calls made to the cache and to
the log so far. A buffer is locked from `bread` to `brelse`, so a change of
`bp->data` becomes visible with the `log_write` or `bwrite` that follows it.

A call of `log_write` is recorded with the contents it was given. Whether the log
has room for it depends on the transaction that is open, and is decided when the
log takes the recorded calls: one after the other in `OpenLog.takes`, and between
the steps of other processes in `execCall`.
-/

namespace Xv6.Fs

/-- `struct superblock`. -/
structure Superblock where
  size : ℕ
  nblocks : ℕ
  ninodes : ℕ
  nlog : ℕ
  logstart : ℕ
  inodestart : ℕ
  bmapstart : ℕ
  deriving DecidableEq

/-- `BBLOCK(b, sb)`. -/
def Superblock.bblock (sb : Superblock) (b : ℕ) : ℕ := b / BPB + sb.bmapstart

/-- `IBLOCK(i, sb)`. -/
def Superblock.iblock (sb : Superblock) (inum : ℕ) : ℕ := inum / IPB + sb.inodestart

/-- A call made to the buffer cache or to the log. -/
inductive Call where
  | bread (b : ℕ)
  | brelse (b : ℕ)
  | logWrite (b : ℕ) (data : Block)
  | bwrite (b : ℕ) (data : Block)

/-- The panics of the file system, and of the log under it. -/
inductive Panic where
  /-- `incorrect blockno`, from `idestart`. -/
  | blockno
  | balloc
  | bfree
  | bmap
  | ialloc
  | ilock
  /-- `too big a transaction`, from `log_write`. -/
  | tooBig
  /-- `log_write outside of trans`. -/
  | outsideTrans
  deriving DecidableEq

structure St where
  /-- The global `sb`. -/
  sb : Superblock
  blk : Disk
  calls : List Call

/-- A function of the file system. -/
abbrev FsM (α : Type) := Prog St Panic α

def bread (b : ℕ) : FsM Block := do
  if FSSIZE ≤ b then throw .blockno
  modify fun s => { s with calls := s.calls ++ [.bread b] }
  return (← get).blk b

def brelse (b : ℕ) : FsM Unit :=
  modify fun s => { s with calls := s.calls ++ [.brelse b] }

/-- Leave `data` in the buffer of block `b` and call `log_write` on it; see `OpenLog.logWrite`. -/
def logWrite (b : ℕ) (data : Block) : FsM Unit :=
  modify fun s => { s with
    blk := Function.update s.blk b data
    calls := s.calls ++ [.logWrite b data] }

/-- Leave `data` in the buffer of block `b` and call `bwrite` on it. -/
def bwrite (b : ℕ) (data : Block) : FsM Unit :=
  modify fun s => { s with
    blk := Function.update s.blk b data
    calls := s.calls ++ [.bwrite b data] }

/-- The superblock stored in a block. -/
def getSb (b : Block) : Superblock where
  size := (Bytes.getWord b 0).toNat
  nblocks := (Bytes.getWord b 4).toNat
  ninodes := (Bytes.getWord b 8).toNat
  nlog := (Bytes.getWord b 12).toNat
  logstart := (Bytes.getWord b 16).toNat
  inodestart := (Bytes.getWord b 20).toNat
  bmapstart := (Bytes.getWord b 24).toNat

def readsb : FsM Unit := do
  let data ← bread 1
  modify fun s => { s with sb := getSb data }
  brelse 1

def bzero (bno : ℕ) : FsM Unit := do
  let _ ← bread bno
  logWrite bno fun _ => 0
  brelse bno

/-- The inner loop of `balloc`: the first clear bit below `BPB` and `sb.size`. -/
def findFree (data : Block) (b size : ℕ) : Option ℕ :=
  (List.range (min BPB (size - b))).find? fun bi => !Bytes.bit data bi

/-- The outer loop of `balloc` from block `b` on, for at most `fuel` bitmap blocks. -/
def ballocFrom (b : ℕ) : ℕ → FsM ℕ
  | 0 => throw .balloc
  | fuel + 1 => do
      let sb := (← get).sb
      if b < sb.size then
        let data ← bread (sb.bblock b)
        match findFree data b sb.size with
        | some bi =>
            logWrite (sb.bblock b) (Bytes.setBit data bi)
            brelse (sb.bblock b)
            bzero (b + bi)
            return b + bi
        | none =>
            brelse (sb.bblock b)
            ballocFrom (b + BPB) fuel
      else throw .balloc

/-- The loop of `balloc` ends by itself: it visits `sb.size / BPB + 1` bitmap blocks at most. -/
def balloc : FsM ℕ := do
  ballocFrom 0 ((← get).sb.size / BPB + 1)

def bfree (b : ℕ) : FsM Unit := do
  readsb
  let sb := (← get).sb
  let data ← bread (sb.bblock b)
  if Bytes.bit data (b % BPB) = false then throw .bfree
  logWrite (sb.bblock b) (Bytes.clearBit data (b % BPB))
  brelse (sb.bblock b)

end Xv6.Fs
