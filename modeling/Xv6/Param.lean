import Xv6.Lib.Bytes

/-!
# Kernel parameters

The constants of `param.h` and `fs.h` that the models use, under the names the
headers give them. Both kernels share them, except that only `part1` has shared
pages (`NSHAREPAGE`). `IPB` divides by 64, the size of a `struct dinode`.
-/

namespace Xv6

abbrev NPROC : ℕ := 64
abbrev NOFILE : ℕ := 16
abbrev NFILE : ℕ := 100
abbrev NINODE : ℕ := 50
abbrev NDEV : ℕ := 10
abbrev MAXOPBLOCKS : ℕ := 10
abbrev LOGSIZE : ℕ := MAXOPBLOCKS * 3
abbrev NBUF : ℕ := MAXOPBLOCKS * 3
abbrev FSSIZE : ℕ := 1000
abbrev NSHAREPAGE : ℕ := 4

abbrev ROOTDEV : ℕ := 1
abbrev ROOTINO : ℕ := 1
abbrev BSIZE : ℕ := 512
abbrev NDIRECT : ℕ := 12
abbrev NINDIRECT : ℕ := BSIZE / 4
abbrev MAXFILE : ℕ := NDIRECT + NINDIRECT
abbrev IPB : ℕ := BSIZE / 64
abbrev BPB : ℕ := BSIZE * 8
abbrev DIRSIZ : ℕ := 14

instance : NeZero NPROC := ⟨by decide⟩
instance : NeZero NINODE := ⟨by decide⟩
instance : NeZero BSIZE := ⟨by decide⟩
instance (priority := 2000) : NeZero (NDIRECT + 1) := ⟨by decide⟩

/-- The contents of a disk block. -/
abbrev Block := Fin BSIZE → Byte

/-- A disk: the contents of every block. -/
abbrev Disk := ℕ → Block

end Xv6
