import Xv6.Checker.Image

/-!
# The checks of `fsChecker`

The checks of part2's `linux/fsChecker.c` and the `main` that runs them, in the order
of the source. A check that returns 1 is one that returns here; the arrays that
`main` hands from one check to the next are functions, with the length they are
declared with where they are written. The `int` that counts inodes is a natural
number. What the checks print for debugging is left out.
-/

namespace Xv6.Checker

open Fs Check

/-- `printERR(msg)` and `return -1`, or `return -1` alone. -/
def fail (printed : List String) : Stop := .reject printed

def checkBadInode (img : Image) (sb : Superblock) : CheckM Unit :=
  forM (List.range sb.ninodes) fun i => do
    let ip ← rinode img sb i
    failIf (ip.type ≠ T_UNALLOC ∧ ip.type ≠ T_DIR ∧ ip.type ≠ T_FILE ∧ ip.type ≠ T_DEV)
      (fail ["ERROR: bad inode."])
    failIf (ip.type ≠ T_UNALLOC ∧ i = 1 ∧ ip.type ≠ T_DIR)
      (fail ["ERROR: root directory does not exist."])

/-- `mininum`, the smallest address that is accepted. -/
def Superblock.mininum (sb : Superblock) : ℕ := sb.bblock sb.size % 2 ^ 32

/-- `maxinum`, the largest address that is accepted. -/
def Superblock.maxinum (sb : Superblock) : ℕ := (sb.size + 2 ^ 32 - 1) % 2 ^ 32

/-- An address that is used and does not lie in the image. -/
def badAddr (sb : Superblock) (a : Word) : Prop :=
  (a.toNat < Superblock.mininum sb ∨ Superblock.maxinum sb < a.toNat) ∧ a ≠ 0

instance (sb : Superblock) (a : Word) : Decidable (badAddr sb a) :=
  inferInstanceAs (Decidable (_ ∧ _))

def checkValidAddr (img : Image) (sb : Superblock) : CheckM Unit :=
  forM (List.range sb.ninodes) fun i => do
    let ip ← rinode img sb i
    forM (List.range (NDIRECT + 1)) fun j => failIf (badAddr sb (ip.addr j)) (fail [])
    if ip.addr NDIRECT = 0 then return ()
    let data ← rsect img (ip.addr NDIRECT).toNat
    forM (entries data) fun a => failIf (badAddr sb a) (fail [])

/-- `(c >> shift) % 2 == 1`. -/
def shifted (c : Byte) (shift : ℕ) : Bool := (c >>> shift) % 2 = 1

def getBit (img : Image) (sb : Superblock) (addr : ℕ) : CheckM Bool := do
  let data ← rsect img (sb.bblock addr)
  return shifted (Bytes.get data (addr % BPB / 8)) (addr % 8)

/-- `array[k] += 1`, for an array of `n` elements. -/
def bump (n : ℕ) (array : ℕ → Word) (k : ℕ) : CheckM (ℕ → Word) :=
  if k < n then return Function.update array k (array k + 1) else throw .bounds

/-- What `checkBitmap` does at the address of a data block. -/
def markAddr (img : Image) (sb : Superblock) (addresses : ℕ → Word) (a : Word) :
    CheckM (ℕ → Word) :=
  if a = 0 then return addresses
  else do
    let addresses ← bump sb.size addresses a.toNat
    let marked ← getBit img sb a.toNat
    failIf (marked = false) (fail [])
    return addresses

/-- What `checkBitmap` does with an inode. -/
def markInode (img : Image) (sb : Superblock) (addresses : ℕ → Word) (ip : Dinode) :
    CheckM (ℕ → Word) :=
  if ip.type = T_UNALLOC then return addresses
  else do
    let addresses ← (direct ip).foldlM (markAddr img sb) addresses
    if ip.addr NDIRECT = 0 then return addresses
    else do
      -- The bit of the indirect block itself is not looked up.
      let addresses ← bump sb.size addresses (ip.addr NDIRECT).toNat
      let data ← rsect img (ip.addr NDIRECT).toNat
      (entries data).foldlM (markAddr img sb) addresses

def checkBitmap (img : Image) (sb : Superblock) (addresses : ℕ → Word) : CheckM (ℕ → Word) :=
  (List.range sb.ninodes).foldlM (fun addresses i => do
    let ip ← rinode img sb i
    markInode img sb addresses ip) addresses

def checkUsedBlock (img : Image) (sb : Superblock) (addresses : ℕ → Word) : CheckM Unit := do
  let data ← rsect img sb.bmapstart
  let checkStart := (sb.bmapstart + 1) % 2 ^ 32
  forM (List.range' checkStart (sb.size - checkStart)) fun i => do
    failIf (BSIZE ≤ i / 8) Stop.bounds
    failIf (shifted (Bytes.get data (i / 8)) (i % 8) = true ∧ addresses i = 0) (fail [])

def checkDirFormat (img : Image) (sb : Superblock) (name : List Byte) : CheckM Unit :=
  forM (List.range sb.ninodes) fun i => do
    let ip ← rinode img sb i
    if ip.type ≠ T_DIR then return ()
    let inum ← getInum img sb i name
    failIf (inum = -1) (fail [])

def checkParentDir (img : Image) (sb : Superblock) : CheckM Unit :=
  forM (List.range sb.ninodes) fun i => do
    let ip ← rinode img sb i
    if ip.type ≠ T_DIR then return ()
    forBlocks img ip () fun _ data =>
      forM (dirents data) fun e => do
        -- The result is kept in a `uint`, so that -1 counts as a mismatch.
        let inum ← getInum img sb e.inum.toNat dotdot
        failIf (0 < (inum % 2 ^ 32) ∧ inum % 2 ^ 32 ≠ i) (fail [])

def checkUsedTimes (sb : Superblock) (addresses : ℕ → Word) : CheckM Unit :=
  forM (List.range sb.size) fun i => failIf (1 < addresses i) (fail [])

/-- The entries that are counted: neither free nor `.` nor `..`. -/
def counts (e : Dirent) : Prop :=
  e.inum ≠ 0 ∧ strncmp DIRSIZ dotdot e.name = false ∧ strncmp DIRSIZ dot e.name = false

instance (e : Dirent) : Decidable (counts e) := inferInstanceAs (Decidable (_ ∧ _))

/-- Count the entries of a directory block. -/
def countDirents (sb : Superblock) (ins : ℕ → Word) (data : Block) : CheckM (ℕ → Word) :=
  (dirents data).foldlM (fun ins e =>
    if counts e then bump sb.ninodes ins e.inum.toNat else return ins) ins

/-- The inner loop of `checkInodeRef`. It runs with the `i` of the outer loop, and leaves it at
`max 2 sb.ninodes`. -/
def checkCounted (img : Image) (sb : Superblock) (ins : ℕ → Word) : CheckM ℕ := do
  forM (List.range' 2 (sb.ninodes - 2)) fun i => do
    let ip ← rinode img sb i
    failIf (ip.type ≠ T_UNALLOC ∧ ins i = 0) (fail [])
  return max 2 sb.ninodes

/-- The outer loop of `checkInodeRef` from inode `i` on, for at most `fuel` inodes. -/
def countFrom (img : Image) (sb : Superblock) (i : ℕ) (ins : ℕ → Word) : ℕ → CheckM (ℕ → Word)
  | 0 => return ins
  | fuel + 1 =>
      if i < sb.ninodes then do
        let ip ← rinode img sb i
        if ip.type ≠ T_DIR then
          countFrom img sb (i + 1) ins fuel
        else do
          let ins ← forBlocks img ip ins (countDirents sb)
          let i ← checkCounted img sb ins
          countFrom img sb (i + 1) ins fuel
      else return ins

/-- The loop ends by itself: `i` grows in every round. -/
def checkInodeRef (img : Image) (sb : Superblock) (ins : ℕ → Word) : CheckM (ℕ → Word) :=
  countFrom img sb 0 ins sb.ninodes

def checekValidDir (img : Image) (sb : Superblock) (ins : ℕ → Word) : CheckM Unit :=
  forM (List.range sb.ninodes) fun i =>
    if 0 < ins i then do
      let ip ← rinode img sb i
      failIf (ip.type = T_UNALLOC) (fail [])
    else return ()

def checkBadLinks (img : Image) (sb : Superblock) (ins : ℕ → Word) : CheckM Unit :=
  forM (List.range sb.ninodes) fun i => do
    let ip ← rinode img sb i
    -- `nlink` is a `short`, which is extended for the comparison.
    failIf (ip.type = T_FILE ∧ ip.nlink.signExtend 32 ≠ ins i) (fail [])

def checkExtraLink (img : Image) (sb : Superblock) (ins : ℕ → Word) : CheckM Unit :=
  forM (List.range sb.ninodes) fun i => do
    let ip ← rinode img sb i
    failIf (ip.type = T_DIR ∧ 1 < ins i) (fail [])

/-- Run a check; if it returns -1, print `msg` and return 1 from `main`. -/
def report {α : Type} (msg : String) (check : CheckM α) : CheckM α :=
  check.mapError fun
    | .reject printed => .reject (printed ++ [msg])
    | stop => stop

/-- `main`, for an image that has been opened. It returns 0 when it returns here; the messages of
a rejection are those it has printed before it returns 1. -/
def main (img : Image) : CheckM Unit := do
  let data ← rsect img SUPERBLOCK
  let sb := getSb data
  let _ ← rsect img sb.bmapstart
  checkBadInode img sb
  report "ERROR: bad address in inode." (checkValidAddr img sb)
  report "ERROR: directory not properly formatted." do
    checkDirFormat img sb dot
    checkDirFormat img sb dotdot
  report "ERROR: bad address in inode." (checkParentDir img sb)
  let addresses ← report "ERROR: address used by inode but marked free in bitmap."
    (checkBitmap img sb fun _ => 0)
  report "ERROR: bitmap marks block in use but it is not in use." (checkUsedBlock img sb addresses)
  report "ERROR: address used more than once." (checkUsedTimes sb addresses)
  report "ERROR: inode referred to in directory but marked free."
    (checekValidDir img sb fun _ => 0)
  let inodes ← report "ERROR: inode marked use but not found in a directory."
    (checkInodeRef img sb fun _ => 0)
  report "ERROR: bad reference count for file." (checkBadLinks img sb inodes)
  report "directory appears more than once in file system." (checkExtraLink img sb inodes)

end Xv6.Checker
