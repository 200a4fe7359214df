import Xv6.Checker.Image

/-!
# Building an image

part2's `mkfs.c`. The image file is written and read block by block; what `main` prints
is left out, and so are failures of the host's own calls apart from a read behind the
end of the file, which is how `mkfs` notices that the image is full. The host is little
endian, so that `xint` and `xshort` change nothing.
-/

namespace Xv6.Mkfs

open Fs Prog
open Checker (Image Dirent)

abbrev NINODES : ℕ := 200

abbrev nbitmap : ℕ := FSSIZE / (BSIZE * 8) + 1
abbrev ninodeblocks : ℕ := NINODES / IPB + 1
abbrev nlog : ℕ := LOGSIZE
abbrev nmeta : ℕ := 2 + nlog + ninodeblocks + nbitmap
abbrev nblocks : ℕ := FSSIZE - nmeta

/-- The global `sb`, as `main` sets it. -/
def sb : Superblock where
  size := FSSIZE
  nblocks := nblocks
  ninodes := NINODES
  nlog := nlog
  logstart := 2
  inodestart := 2 + nlog
  bmapstart := 2 + nlog + ninodeblocks

/-- The image file and the counters of the inodes and blocks that have been handed out. -/
structure St where
  img : Image
  freeinode : ℕ
  freeblock : ℕ

/-- How `mkfs` ends before its work is done. -/
inductive Exit where
  /-- `exit(1)`. -/
  | exit
  /-- An assertion fails. -/
  | abort
  deriving DecidableEq

abbrev MkM (α : Type) := Prog St Exit α

def assert (c : Prop) [Decidable c] : MkM Unit :=
  if c then return () else throw .abort

def rsect (sec : ℕ) : MkM Block := do
  match (← get).img.sector sec with
  | some data => return data
  | none => throw .exit

/-- Block `b` of an image is written; the file grows if it has to. -/
def store (img : Image) (b : ℕ) (buf : Block) : Image where
  count := max img.count (b + 1)
  blk := Function.update img.blk b buf

def wsect (sec : ℕ) (buf : Block) : MkM Unit :=
  modify fun s => { s with img := store s.img (sec * BSIZE % 2 ^ 32 / BSIZE) buf }

def winode (inum : ℕ) (ip : Dinode) : MkM Unit := do
  let bn := sb.iblock inum
  let buf ← rsect bn
  wsect bn (putDinode buf (inum % IPB) ip)

def rinode (inum : ℕ) : MkM Dinode := do
  let bn := sb.iblock inum
  let buf ← rsect bn
  return getDinode buf (inum % IPB)

/-- The inode that `ialloc` writes. -/
def fresh (type : Half) : Dinode where
  type := type
  major := 0
  minor := 0
  nlink := 1
  size := 0
  addrs := fun _ => 0

def ialloc (type : Half) : MkM ℕ := do
  let inum := (← get).freeinode
  modify fun s => { s with freeinode := s.freeinode + 1 }
  winode inum (fresh type)
  return inum

def balloc (used : ℕ) : MkM Unit := do
  assert (used < BSIZE * 8)
  wsect sb.bmapstart ((List.range used).foldl Bytes.setBit fun _ => 0)

/-- `freeblock++`. -/
def takeBlock : MkM Word := do
  let b := (← get).freeblock
  modify fun s => { s with freeblock := s.freeblock + 1 }
  return BitVec.ofNat 32 b

/-- `din.addrs[i] = a`. -/
def setAddr (din : Dinode) (i : ℕ) (a : Word) : Dinode :=
  { din with addrs := Function.update din.addrs (Fin.ofNat (NDIRECT + 1) i) a }

/-- `if(xint(din.addrs[i]) == 0) din.addrs[i] = xint(freeblock++)`. -/
def loadAddr (din : Dinode) (i : ℕ) : MkM Dinode :=
  if din.addr i = 0 then do
    let b ← takeBlock
    return setAddr din i b
  else return din

/-- The part of `iappend` that finds block `fbn` of the file. -/
def findBlock (din : Dinode) (fbn : ℕ) : MkM (Word × Dinode) :=
  if fbn < NDIRECT then do
    let din ← loadAddr din fbn
    return (din.addr fbn, din)
  else do
    let din ← loadAddr din NDIRECT
    let indirect ← rsect (din.addr NDIRECT).toNat
    if Bytes.getWord indirect (4 * (fbn - NDIRECT)) = 0 then
      let b ← takeBlock
      wsect (din.addr NDIRECT).toNat (Bytes.putWord indirect (4 * (fbn - NDIRECT)) b)
      return (b, din)
    else return (Bytes.getWord indirect (4 * (fbn - NDIRECT)), din)

/-- The loop of `iappend`. Every round takes a byte from `p` at least, so that `p.length` rounds are
enough. -/
def appendLoop (din : Dinode) (off : ℕ) (p : List Byte) : ℕ → MkM (Dinode × ℕ)
  | 0 => return (din, off)
  | fuel + 1 =>
      if p = [] then return (din, off)
      else do
        let fbn := off / BSIZE
        assert (fbn < MAXFILE)
        let (x, din) ← findBlock din fbn
        let n1 := min p.length ((fbn + 1) * BSIZE - off)
        let buf ← rsect x.toNat
        wsect x.toNat (Bytes.move buf (off - fbn * BSIZE) n1 fun j => p.getD j 0)
        appendLoop din (off + n1) (p.drop n1) fuel

def iappend (inum : ℕ) (p : List Byte) : MkM Unit := do
  let din ← rinode inum
  let (din, off) ← appendLoop din din.size.toNat p p.length
  winode inum { din with size := BitVec.ofNat 32 off }

/-- An input file, with its argument and the bytes it holds. -/
structure File where
  name : List Byte
  contents : List Byte
  /-- The argument is a string, which ends at its first null character. -/
  terminated : (0 : Byte) ∉ name

/-- The argument behind a leading underscore. -/
def strip (name : List Byte) : List Byte :=
  if name.head? = some 0x5f then name.tail else name

/-- `strncpy(de.name, name, DIRSIZ)`. -/
def strncpy (name : List Byte) : List Byte := Strings.copy DIRSIZ (Strings.cells name)

/-- The bytes of a `struct dirent`. -/
def Dirent.bytes (e : Dirent) : List Byte :=
  BitVec.ofNat 8 e.inum.toNat :: BitVec.ofNat 8 (e.inum.toNat / 256) :: e.name

/-- The bytes that are appended to the root for a name. -/
def entry (inum : ℕ) (name : List Byte) : Dirent where
  inum := BitVec.ofNat 16 inum
  name := strncpy name

/-- What `main` does with an input file. -/
def addFile (rootino : ℕ) (file : File) : MkM Unit := do
  assert ((0x2f : Byte) ∉ file.name)
  let inum ← ialloc T_FILE
  iappend rootino (Dirent.bytes (entry inum (strip file.name)))
  -- `read` fills the buffer as long as the file goes on.
  forM (file.contents.toChunks BSIZE) (iappend inum)

/-- The block of the superblock. -/
def superBlock : Block :=
  Bytes.putWords (fun _ => 0) 0 ([sb.size, sb.nblocks, sb.ninodes, sb.nlog, sb.logstart,
    sb.inodestart, sb.bmapstart].map (BitVec.ofNat 32))

def main (files : List File) : MkM Unit := do
  modify fun s => { s with freeblock := nmeta }
  forM (List.range FSSIZE) fun i => wsect i fun _ => 0
  wsect 1 superBlock
  let rootino ← ialloc T_DIR
  assert (rootino = ROOTINO)
  iappend rootino (Dirent.bytes (entry rootino Checker.dot))
  iappend rootino (Dirent.bytes (entry rootino Checker.dotdot))
  forM files (addFile rootino)
  let din ← rinode rootino
  let off := (din.size.toNat / BSIZE + 1) * BSIZE
  winode rootino { din with size := BitVec.ofNat 32 off }
  balloc (← get).freeblock

/-- The state in which `main` is called: the image file has been truncated. -/
def start : St where
  img := ⟨0, fun _ _ => 0⟩
  freeinode := 1
  freeblock := 0

end Xv6.Mkfs
