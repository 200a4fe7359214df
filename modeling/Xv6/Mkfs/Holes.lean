import Xv6.Mkfs.Accepted

/-!
# Holes

`iappend` gives every file the blocks that its size needs. The root is the exception: when
its entries fill its last block, `main` rounds its size up to a block that nobody has
appended to.
-/

namespace Xv6.Mkfs

open Fs Prog
open Checker (Image DPB)

variable {img : Image} {n : ℕ} {files : List File} {s : St}

/-- Every block of an inode that lies below its size has an address. -/
def Whole (blk : Disk) (ip : Dinode) :
    Prop := ∀ k < (ip.size.toNat + BSIZE - 1) / BSIZE, slot blk ip k ≠ 0

/-- No inode of the image has a hole. -/
def NoHoles (img : Image) : Prop := ∀ i : Fin NINODES, Whole img.blk (inodes img.blk i)

/-- A file that holds its bytes has all of its blocks. -/
theorem Stores.whole {blk : Disk} {ip : Dinode} {bs : List Byte} (stores : Stores blk ip bs) :
    Whole blk ip := by
  intro k below
  have small := stores.small
  have size := stores.size
  simp only [BSIZE] at below small size
  refine (stores.slots k ?_).mpr ?_
  · omega
  · simp only [BSIZE]
    omega

/-- The root has a block for each of its entries, and its size may need one more. -/
theorem Complete.whole_root (complete : Complete img n files) (few : files.length ≤ NINODES - 2) :
    Whole img.blk (inodes img.blk root) ↔ (files.length + 2) % DPB ≠ 0 := by
  have addrs := complete.lists.addrs
  rw [length_rootEntries] at addrs
  simp only [NINODES] at few
  have last : (files.length + 2) / DPB < NDIRECT := by
    simp only [DPB, BSIZE, NDIRECT]
    omega
  have blocks : ((inodes img.blk root).size.toNat + BSIZE - 1) / BSIZE =
      (files.length + 2) / DPB + 1 := by
    rw [complete.size]
    simp only [BSIZE]
    omega
  rw [Whole, blocks]
  constructor
  · intro whole
    have used := whole _ (Nat.lt_succ_self _)
    rw [slot_direct _ last, addrs _ last] at used
    simp only [DPB, BSIZE] at used ⊢
    omega
  · intro partial_ k below
    have inRange : k < NDIRECT := (Nat.le_of_lt_succ below).trans_lt last
    rw [slot_direct _ inRange, addrs _ inRange]
    simp only [DPB, BSIZE] at partial_ below ⊢
    omega

/-- A run of `mkfs` that comes to its end leaves no holes, unless the entries of the root fill its
blocks. -/
theorem noHoles_iff (few : files.length ≤ NINODES - 2) (done : main files start = .ok ((), s)) :
    NoHoles s.img ↔ (files.length + 2) % DPB ≠ 0 := by
  have complete := complete_of_main few done
  rw [← complete.whole_root few]
  refine ⟨fun whole => whole root, fun whole i => ?_⟩
  by_cases isRoot : i = root
  · rw [isRoot]
    exact whole
  · exact (complete.stored i isRoot).whole

/-- The root has one block for its three entries. -/
theorem noHoles_smallFile : ∃ s, main [smallFile] start = .ok ((), s) ∧ NoHoles s.img := by
  have fits : Fits [smallFile] := by
    refine ⟨?_, by decide⟩
    intro file mem
    rw [List.mem_singleton.mp mem]
    decide
  rcases main_returns (by decide) fits with ⟨s, done⟩
  exact ⟨s, done, (noHoles_iff (by decide) done).mpr (by decide)⟩

/-- Thirty empty files, with the names `a` to `~`. -/
def thirtyFiles : List File := (List.finRange 30).map fun i : Fin 30 =>
  { name := [BitVec.ofNat 8 (0x61 + i.val)], contents := [], terminated := by revert i; decide }

/-- With `.` and `..` they fill a block of the root, and its second block is missing. -/
theorem not_noHoles_thirtyFiles : ¬ ∀ (files : List File) (s : St), files.length ≤ NINODES - 2 →
    main files start = .ok ((), s) → NoHoles s.img := by
  intro never
  have fits : Fits thirtyFiles := by
    refine ⟨?_, by decide⟩
    intro file mem
    rcases List.mem_map.mp mem with ⟨i, _, rfl⟩
    clear mem
    revert i
    decide
  rcases main_returns (by decide) fits with ⟨s, done⟩
  have complete := complete_of_main (by decide) done
  exact absurd ((complete.whole_root (by decide)).mp (never _ s (by decide) done root)) (by decide)

end Xv6.Mkfs
