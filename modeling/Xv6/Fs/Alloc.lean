import Xv6.Fs.Inode

/-!
# The block allocator

The layout of a disk, its bitmap, and what `balloc` does to them: it returns a
block that was free, marked and zeroed, and stops only when no block is free.
The rules for the calls to the buffer cache leave the recorded calls open.
-/

namespace Xv6.Fs

open Prog

/-! ## The buffer cache -/

section Rules

variable {s : St} {E : Panic → Prop} {b : ℕ} {data : Block}

theorem meets_bread {Q : Block → St → Prop} (onDisk : b < FSSIZE)
    (post : ∀ calls, Q (s.blk b) { s with calls := calls }) : Meets (bread b) s E Q := by
  have test : ¬FSSIZE ≤ b := Nat.not_le.mpr onDisk
  simpa [Meets, bread, test] using! post _

theorem meets_brelse {Q : Unit → St → Prop} (post : ∀ calls, Q () { s with calls := calls }) :
    Meets (brelse b) s E Q :=
  post _

theorem meets_logWrite {Q : Unit → St → Prop}
    (post : ∀ calls, Q () { s with blk := Function.update s.blk b data, calls := calls }) :
    Meets (logWrite b data) s E Q :=
  post _

theorem meets_bwrite {Q : Unit → St → Prop}
    (post : ∀ calls, Q () { s with blk := Function.update s.blk b data, calls := calls }) :
    Meets (bwrite b data) s E Q :=
  post _

end Rules

/-! ## The layout of a disk -/

/-- The first data block: it follows the bitmap. -/
def Superblock.dataStart (sb : Superblock) : ℕ := sb.bmapstart + sb.size / BPB + 1

/-- The order of the areas on disk, which `mkfs` establishes. -/
structure Layout (sb : Superblock) : Prop where
  super : 1 < sb.inodestart
  inodes : sb.inodestart + sb.ninodes / IPB < sb.bmapstart
  bitmap : sb.dataStart ≤ sb.size
  disk : sb.size ≤ FSSIZE

/-- The bit of block `b` is set in the bitmap. -/
def marked (sb : Superblock) (blk : Disk) (b : ℕ) : Bool :=
  Bytes.bit (blk (sb.bblock b)) (b % BPB)

/-- The blocks whose bit is clear. -/
def free (sb : Superblock) (blk : Disk) : Finset ℕ :=
  (Finset.range sb.size).filter fun b => marked sb blk b = false

/-- The disk after `balloc` has returned block `b`. -/
def take (sb : Superblock) (blk : Disk) (b : ℕ) : Disk :=
  Function.update
    (Function.update blk (sb.bblock b) (Bytes.setBit (blk (sb.bblock b)) (b % BPB)))
    b fun _ => 0

section Layout

variable {sb : Superblock} {blk : Disk} {b c : ℕ}

theorem bblock_lt (inside : b < sb.size) : sb.bblock b < sb.dataStart := by
  have := Nat.div_le_div_right (c := BPB) inside.le
  simp only [Superblock.bblock, Superblock.dataStart]
  omega

theorem iblock_lt (layout : Layout sb) (inside : b < sb.ninodes) : sb.iblock b < sb.bmapstart := by
  have := Nat.div_le_div_right (c := IPB) inside.le
  have := layout.inodes
  simp only [Superblock.iblock]
  omega

theorem bblock_lt_fssize (layout : Layout sb) (inside : b < sb.size) : sb.bblock b < FSSIZE :=
  (bblock_lt inside).trans_le (layout.bitmap.trans layout.disk)

theorem bmapstart_le_bblock (sb : Superblock) (b : ℕ) : sb.bmapstart ≤ sb.bblock b :=
  Nat.le_add_left _ _

theorem take_self : take sb blk b b = fun _ => 0 :=
  Function.update_self _ _ _

theorem take_of_ne (other : c ≠ b) (unmapped : c ≠ sb.bblock b) : take sb blk b c = blk c := by
  rw [take, Function.update_of_ne other, Function.update_of_ne unmapped]

/-- Only the bit of `b` changes, when `b` is a data block. -/
theorem marked_take (data : sb.dataStart ≤ b) (inside : b < sb.size) (inside' : c < sb.size) :
    marked sb (take sb blk b) c = (decide (c = b) || marked sb blk c) := by
  have below : sb.bblock c ≠ b := by
    have := bblock_lt inside'
    omega
  have fits : b % BPB / 8 < BSIZE := by
    simp only [BPB, BSIZE]
    omega
  rw [marked, marked, take, Function.update_of_ne below]
  by_cases same : sb.bblock c = sb.bblock b
  · have sameIndex : c % BPB = b % BPB ↔ c = b := by
      simp only [Superblock.bblock, BPB, BSIZE] at same ⊢
      omega
    rw [same, Function.update_self, Bytes.bit_setBit _ _ fits]
    simp only [sameIndex]
  · have distinct : c ≠ b := by
      rintro rfl
      exact same rfl
    rw [Function.update_of_ne same]
    simp [distinct]

/-- Setting one bit takes one block from the free ones. -/
theorem free_of_marks {blk' : Disk}
    (marks : ∀ c < sb.size, marked sb blk' c = (decide (c = b) || marked sb blk c)) :
    free sb blk' = (free sb blk).erase b := by
  ext c
  simp only [free, Finset.mem_filter, Finset.mem_range, Finset.mem_erase]
  constructor
  · rintro ⟨inside, clear⟩
    rw [marks c inside, Bool.or_eq_false_iff] at clear
    exact ⟨of_decide_eq_false clear.1, inside, clear.2⟩
  · rintro ⟨distinct, inside, clear⟩
    rw [marks c inside, clear, decide_eq_false distinct]
    exact ⟨inside, rfl⟩

end Layout

/-! ## `balloc` -/

theorem findFree_eq_some {data : Block} {b size bi : ℕ} (found : findFree data b size = some bi) :
    bi < BPB ∧ b + bi < size ∧ Bytes.bit data bi = false := by
  have clear := List.find?_some found
  have mem := List.mem_range.mp (List.mem_of_find?_eq_some found)
  refine ⟨by omega, by omega, ?_⟩
  simpa using clear

theorem findFree_eq_none {data : Block} {b size bi : ℕ} (missing : findFree data b size = none)
    (inBlock : bi < BPB) (inside : b + bi < size) : Bytes.bit data bi = true := by
  have all := List.find?_eq_none.mp missing bi (List.mem_range.mpr (by omega))
  simpa using all

theorem bzero_meets {s : St} {E : Panic → Prop} {b : ℕ} {Q : Unit → St → Prop}
    (onDisk : b < FSSIZE)
    (post : ∀ calls, Q () { s with blk := Function.update s.blk b fun _ => 0, calls := calls }) :
    Meets (bzero b) s E Q := by
  refine meets_bind (meets_bread onDisk fun _ => ?_)
  refine meets_bind (meets_logWrite fun _ => ?_)
  exact meets_brelse post

variable {s : St} {E : Panic → Prop} {Q : ℕ → St → Prop}

theorem free_eq_empty {sb : Superblock} {blk : Disk} {b : ℕ} (before : ∀ c < b, c ∉ free sb blk)
    (past : sb.size ≤ b) : free sb blk = ∅ := by
  rw [Finset.eq_empty_iff_forall_notMem]
  intro c isFree
  have inside := Finset.mem_range.mp (Finset.mem_filter.mp isFree).1
  exact before c (by omega) isFree

/-- The scan finds a free block if there is one. -/
theorem ballocFrom_meets (layout : Layout s.sb)
    (full : free s.sb s.blk = ∅ → E .balloc)
    (post : ∀ b ∈ free s.sb s.blk, ∀ calls,
      Q b { s with blk := take s.sb s.blk b, calls := calls })
    {b fuel : ℕ} (calls : List Call) (aligned : b % BPB = 0)
    (enough : s.sb.size < b + fuel * BPB) (before : ∀ c < b, c ∉ free s.sb s.blk) :
    Meets (ballocFrom b fuel) { s with calls := calls } E Q := by
  induction fuel generalizing b calls with
  | zero => exact meets_throw (full (free_eq_empty before (by omega)))
  | succ fuel ih =>
      refine meets_bind (meets_get ?_)
      refine meets_ite (fun inside => ?_) fun past =>
        meets_throw (full (free_eq_empty before (Nat.not_lt.mp past)))
      refine meets_bind (meets_bread (bblock_lt_fssize layout inside) fun calls => ?_)
      have sameBlock : ∀ bi < BPB, s.sb.bblock (b + bi) = s.sb.bblock b ∧ (b + bi) % BPB = bi := by
        intro bi inBlock
        simp only [Superblock.bblock, BPB, BSIZE] at aligned inBlock ⊢
        omega
      cases search : findFree (s.blk (s.sb.bblock b)) b s.sb.size with
      | some bi =>
          rcases findFree_eq_some search with ⟨inBlock, inside', clear⟩
          rcases sameBlock bi inBlock with ⟨block, index⟩
          have isFree : b + bi ∈ free s.sb s.blk := by
            rw [free, Finset.mem_filter, Finset.mem_range, marked, block, index]
            exact ⟨inside', clear⟩
          refine meets_bind (meets_logWrite fun calls => ?_)
          refine meets_bind (meets_brelse fun calls => ?_)
          refine meets_bind (bzero_meets (inside'.trans_le layout.disk) fun calls => ?_)
          refine meets_pure ?_
          have taken := post (b + bi) isFree calls
          rwa [take, block, index] at taken
      | none =>
          refine meets_bind (meets_brelse fun calls => ?_)
          have aligned' : (b + BPB) % BPB = 0 := by rw [Nat.add_mod_right, aligned]
          have enough' : s.sb.size < b + BPB + fuel * BPB := by
            rw [Nat.add_mul, Nat.one_mul] at enough
            omega
          apply ih calls aligned' enough'
          intro c below isFree
          rcases Nat.lt_or_ge c b with earlier | later
          · exact before c earlier isFree
          · obtain ⟨bi, rfl⟩ := Nat.exists_eq_add_of_le later
            rcases Finset.mem_filter.mp isFree with ⟨inRange, clear⟩
            rcases sameBlock bi (by omega) with ⟨block, index⟩
            have set := findFree_eq_none search (by omega) (Finset.mem_range.mp inRange)
            rw [marked, block, index, set] at clear
            cases clear

/-- `balloc` takes a free block, and panics only if there is none. -/
theorem balloc_meets (layout : Layout s.sb)
    (full : free s.sb s.blk = ∅ → E .balloc)
    (post : ∀ b ∈ free s.sb s.blk, ∀ calls,
      Q b { s with blk := take s.sb s.blk b, calls := calls }) : Meets balloc s E Q := by
  refine meets_bind (meets_get ?_)
  have enough : s.sb.size < 0 + (s.sb.size / BPB + 1) * BPB := by
    rw [Nat.zero_add, Nat.succ_mul]
    have := Nat.div_add_mod' s.sb.size BPB
    have := Nat.mod_lt s.sb.size (show 0 < BPB by decide)
    omega
  exact ballocFrom_meets layout full post s.calls (Nat.zero_mod BPB) enough
    (fun c impossible => absurd impossible (Nat.not_lt_zero c))

end Xv6.Fs
