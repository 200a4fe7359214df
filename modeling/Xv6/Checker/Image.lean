import Xv6.Fs.Inode
import Xv6.Lib.Check
import Xv6.Lib.Strings

/-!
# Reading an image

The part of part2's `linux/fsChecker.c` that reads the image: sectors, inodes and
directory entries, and the search for a name in a directory. The numbers of blocks
are computed in `uint`s, and so is the offset that `rsect` hands to `lseek`; every
`uint` that names a block is reduced when its offset is taken.
-/

namespace Xv6.Checker

open Fs Check

abbrev T_UNALLOC : Half := 0
abbrev SUPERBLOCK : ℕ := 1
abbrev DPB : ℕ := BSIZE / 16

/-- An image file of `count` whole blocks. -/
structure Image where
  count : ℕ
  blk : Disk

/-- How a function of the checker ends when it does not return 1. -/
inductive Stop where
  /-- `exit(1)`, in `rsect`. -/
  | exit
  /-- An access outside an array. -/
  | bounds
  /-- It returns -1, and the error messages that have been printed. -/
  | reject (printed : List String)
  deriving DecidableEq

abbrev CheckM (α : Type) := Except Stop α

/-- The block that is read for sector `sec`. -/
def Image.sector (img : Image) (sec : ℕ) : Option Block :=
  let b := sec * BSIZE % 2 ^ 32 / BSIZE
  if b < img.count then some (img.blk b) else none

def rsect (img : Image) (sec : ℕ) : CheckM Block :=
  match img.sector sec with
  | some data => return data
  | none => throw .exit

def rinode (img : Image) (sb : Superblock) (inum : ℕ) : CheckM Dinode := do
  let data ← rsect img (sb.iblock inum)
  return getDinode data (inum % IPB)

/-- `struct dirent`. -/
structure Dirent where
  inum : Half
  name : List Byte
  deriving DecidableEq

/-- The directory entry in slot `k` of a block. -/
def getDirent (data : Block) (k : ℕ) : Dirent where
  inum := Bytes.getHalf data (16 * k)
  name := (List.range DIRSIZ).map fun j => Bytes.get data (16 * k + 2 + j)

/-- `struct dirent dirs[DPB]`. -/
def dirents (data : Block) : List Dirent := (List.range DPB).map (getDirent data)

/-- `uint addrs[NINDIRECT]`. -/
def entries (data : Block) : List Word := Bytes.getWords data 0 NINDIRECT

/-- The addresses of the direct blocks. -/
def direct (ip : Dinode) : List Word := (List.range NDIRECT).map ip.addr

/-- `strncmp(a, b, n) == 0`; a list that ends is a string with its null character. -/
def strncmp (n : ℕ) (a b : List Byte) : Bool :=
  Strings.difference (fun c : Byte => c.toNat) n (Strings.cells a) (Strings.cells b) = 0

/-- `"."` -/
abbrev dot : List Byte := [0x2e]

/-- `".."` -/
abbrev dotdot : List Byte := [0x2e, 0x2e]

/-- The first entry of the given name in a block. -/
def findDirent (name : List Byte) (data : Block) : Option Dirent :=
  (dirents data).find? fun e => strncmp DIRSIZ name e.name

/-- The loop over the blocks of a directory, from some address on. -/
def findName (img : Image) (name : List Byte) : List Word → CheckM (Option Half)
  | [] => return none
  | a :: as =>
      if a = 0 then findName img name as
      else do
        let data ← rsect img a.toNat
        match findDirent name data with
        | some e => return some e.inum
        | none => findName img name as

/-- The inode number that `name` has in directory `inum`: 0 if that is no directory, and -1 if there
is no such name. -/
def getInum (img : Image) (sb : Superblock) (inum : ℕ) (name : List Byte) : CheckM Int := do
  let ip ← rinode img sb inum
  if ip.type ≠ T_DIR then return 0
  match ← findName img name (direct ip) with
  | some found => return found.toNat
  | none =>
      if ip.addr NDIRECT = 0 then return -1
      let data ← rsect img (ip.addr NDIRECT).toNat
      match ← findName img name (entries data) with
      | some found => return found.toNat
      | none => return -1

section Loops

variable {σ : Type}

/-- What a loop over the blocks of a file does at an address. -/
def visit (img : Image) (body : σ → Block → CheckM σ) (s : σ) (a : Word) : CheckM σ :=
  if a = 0 then return s
  else do
    let data ← rsect img a.toNat
    body s data

/-- A loop over the blocks of a file, the direct ones and those of the indirect block. -/
def forBlocks (img : Image) (ip : Dinode) (s : σ) (body : σ → Block → CheckM σ) : CheckM σ := do
  let s ← (direct ip).foldlM (visit img body) s
  if ip.addr NDIRECT = 0 then return s
  else do
    let data ← rsect img (ip.addr NDIRECT).toNat
    (entries data).foldlM (visit img body) s

end Loops

end Xv6.Checker
