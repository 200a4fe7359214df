import Xv6.Checker.Directory

/-!
# The addresses in the inodes

`checkValidAddr` compares the addresses in all inodes, free ones too, with the limits of the data
blocks; its lower limit is the last block of the bitmap instead of the one after it. What
`checkBitmap` counts are the places in inodes in use that refer to a block.
-/

namespace Xv6.Checker

open Fs Check

variable {img : Image} {sb : Superblock} {ip : Dinode}

/-- The places for addresses in an inode: the direct ones, that of the indirect block, and those in
it. -/
def Image.places (img : Image) (ip : Dinode) :
    List Word := direct ip ++ ip.addr NDIRECT :: img.indirect ip

theorem refs_eq (img : Image) (ip : Dinode) : img.refs ip = numbers (img.places ip) := by
  rw [Image.refs, Image.places, indirectBlock, ← numbers_append, ← numbers_append,
    List.append_assoc]
  rfl

/-- What holds of all places of an inode, for the addresses in the inode and those in its indirect
block. -/
theorem forall_places {P : Word → Prop} :
    (∀ a ∈ img.places ip, P a) ↔ (∀ j ≤ NDIRECT, P (ip.addr j)) ∧ ∀ a ∈ img.indirect ip, P a := by
  simp only [Image.places, direct, List.forall_mem_append, List.forall_mem_cons,
    List.forall_mem_map, List.mem_range]
  constructor
  · rintro ⟨low, last, rest⟩
    refine ⟨fun j bound => ?_, rest⟩
    rcases bound.lt_or_eq with less | rfl
    · exact low j less
    · exact last
  · rintro ⟨all, rest⟩
    exact ⟨fun j less => all j less.le, all NDIRECT le_rfl, rest⟩

/-! ## The limits -/

/-- The nonzero ones of the addresses are those of blocks from `low` on. -/
def Within (sb : Superblock) (low : ℕ) (as : List Word) : Prop :=
  ∀ a ∈ as, a ≠ 0 → low ≤ a.toNat ∧ a.toNat < sb.size

theorem super_size_lt (super : img.super = some sb) : sb.size < 2 ^ 32 := by
  rcases Option.map_eq_some_iff.mp super with ⟨data, _, rfl⟩
  exact (Bytes.getWord data 0).isLt

/-- An address passes the test if it is zero or lies from the last bitmap block to the end. -/
theorem not_badAddr_iff {a : Word} (room : lastBitmap sb < sb.size) (word : sb.size < 2 ^ 32) :
    ¬badAddr sb a ↔ a ≠ 0 → lastBitmap sb ≤ a.toNat ∧ a.toNat < sb.size := by
  have least : Superblock.mininum sb = lastBitmap sb := by
    rw [Superblock.mininum, Superblock.bblock, Nat.add_comm]
    exact Nat.mod_eq_of_lt (room.trans word)
  have most : Superblock.maxinum sb = sb.size - 1 := by
    rw [Superblock.maxinum]
    omega
  rw [badAddr, least, most]
  constructor
  · intro good used
    by_contra outside
    exact good ⟨by omega, used⟩
  · rintro inside ⟨outside, used⟩
    have := inside used
    omega

theorem checkValidAddr_iff (room : lastBitmap sb < sb.size) (word : sb.size < 2 ^ 32) :
    checkValidAddr img sb = .ok () ↔ ∀ i < sb.ninodes, ∃ ip, img.inode sb i = some ip ∧
      img.HasIndirect ip ∧ Within sb (lastBitmap sb) (img.places ip) := by
  rw [checkValidAddr_eq_ok]
  refine forall₂_congr fun i _ => exists_congr fun ip => and_congr_right fun _ => ?_
  simp only [Within, ← not_badAddr_iff room word]
  rw [forall_places]
  tauto

/-- The addresses in the inodes in use are those of blocks from `low` on. -/
def UsedFrom (img : Image) (sb : Superblock) (low : ℕ) : Prop :=
  ∀ i < sb.ninodes, ∀ ip, img.inode sb i = some ip → ip.type ≠ T_UNALLOC →
    Within sb low (img.places ip)

/-- What holds of all references, for the inodes in use one by one. -/
theorem forall_allRefs {P : ℕ → Prop} : (∀ b ∈ img.allRefs sb, P b) ↔ ∀ i < sb.ninodes, ∀ ip,
    img.inode sb i = some ip → ip.type ≠ T_UNALLOC → ∀ a ∈ img.places ip, a ≠ 0 → P a.toNat := by
  simp only [Image.allRefs, List.mem_flatMap, List.mem_range, Image.refsOf]
  constructor
  · intro all i inRange ip found inUse a mem nonzero
    refine all _ ⟨i, inRange, ?_⟩
    rw [found]
    change _ ∈ if ip.type = T_UNALLOC then [] else img.refs ip
    rw [if_neg inUse, refs_eq]
    exact mem_numbers.mpr ⟨a, mem, nonzero, rfl⟩
  · rintro all b ⟨i, inRange, mem⟩
    cases found : img.inode sb i with
    | none =>
        rw [found] at mem
        cases mem
    | some ip =>
        rw [found] at mem
        change _ ∈ if ip.type = T_UNALLOC then [] else img.refs ip at mem
        split at mem
        next => cases mem
        next inUse =>
          rw [refs_eq] at mem
          rcases mem_numbers.mp mem with ⟨a, place, nonzero, rfl⟩
          exact all i inRange ip found inUse a place nonzero

theorem usedFrom_iff {low : ℕ} :
    UsedFrom img sb low ↔ ∀ b ∈ img.allRefs sb, low ≤ b ∧ b < sb.size :=
  (forall_allRefs (P := fun b => low ≤ b ∧ b < sb.size)).symm

/-- The inodes and their indirect blocks can be read, and what the free inodes hold for addresses
are blocks from the last one of the bitmap on. -/
def Tidy (img : Image) (sb : Superblock) : Prop :=
  ∀ i < sb.ninodes, ∃ ip, img.inode sb i = some ip ∧ img.HasIndirect ip ∧
    (ip.type = T_UNALLOC → Within sb (lastBitmap sb) (img.places ip))

/-- No inode in use refers to block `b`. -/
def Unused (img : Image) (sb : Superblock) (b : ℕ) : Prop :=
  ∀ i < sb.ninodes, ∀ ip, img.inode sb i = some ip → ip.type ≠ T_UNALLOC →
    ∀ a ∈ img.places ip, a ≠ 0 → a.toNat ≠ b

theorem unused_iff {b : ℕ} : Unused img sb b ↔ ∀ c ∈ img.allRefs sb, c ≠ b :=
  (forall_allRefs (P := fun c => c ≠ b)).symm

theorem usedFrom_succ {b : ℕ} : UsedFrom img sb (b + 1) ↔ UsedFrom img sb b ∧ Unused img sb b := by
  rw [usedFrom_iff, usedFrom_iff, unused_iff, ← forall₂_and]
  refine forall₂_congr fun c _ => ?_
  omega

/-- The check tests the addresses of the inodes in use, and those of the free ones as well. -/
theorem checkValidAddr_iff_usedFrom (room : lastBitmap sb < sb.size) (word : sb.size < 2 ^ 32) :
    checkValidAddr img sb = .ok () ↔ UsedFrom img sb (lastBitmap sb) ∧ Tidy img sb := by
  rw [checkValidAddr_iff room word]
  constructor
  · intro valid
    refine ⟨fun i inRange ip found _ => ?_, fun i inRange => ?_⟩
    · rcases valid i inRange with ⟨ip', found', _, within⟩
      rw [found] at found'
      cases found'
      exact within
    · rcases valid i inRange with ⟨ip, found, has, within⟩
      exact ⟨ip, found, has, fun _ => within⟩
  · rintro ⟨used, tidy⟩ i inRange
    rcases tidy i inRange with ⟨ip, found, has, free⟩
    refine ⟨ip, found, has, ?_⟩
    by_cases type : ip.type = T_UNALLOC
    · exact free type
    · exact used i inRange ip found type

/-- The addresses are accepted just when they are those of data blocks, unless an inode in use
refers to the last block of the bitmap, a free inode holds other numbers or a block cannot be read.
-/
theorem valid_iff_data_iff (super : img.super = some sb) (room : lastBitmap sb + 1 < sb.size) :
    (checkValidAddr img sb = .ok () ↔ UsedFrom img sb (lastBitmap sb + 1)) ↔
      (UsedFrom img sb (lastBitmap sb) → (Tidy img sb ↔ Unused img sb (lastBitmap sb))) := by
  rw [checkValidAddr_iff_usedFrom (by omega) (super_size_lt super), usedFrom_succ]
  exact and_congr_right_iff

/-- The root directory is in block 4, and the other inodes are empty. -/
theorem valid_iff_data_rootOnly :
    checkValidAddr rootOnly smallSb = .ok () ↔
      UsedFrom rootOnly smallSb (lastBitmap smallSb + 1) := by
  have super : rootOnly.super = some smallSb := by decide +kernel
  have valid : checkValidAddr rootOnly smallSb = .ok () := by decide +kernel
  have refs : rootOnly.allRefs smallSb = [4] := by decide +kernel
  refine (valid_iff_data_iff super (by decide)).mpr fun _ => iff_of_true ?_ ?_
  · exact ((checkValidAddr_iff_usedFrom (by decide) (super_size_lt super)).mp valid).2
  · rw [unused_iff, refs]
    decide

/-- A directory is in block 3, the bitmap. -/
def inBitmap : Image := smallImage [unused, smallInode T_DIR 1 3 0] 0x1f []

/-- A free inode still holds the number of a block outside the image. -/
def freed : Image := smallImage [unused, smallInode T_DIR 1 4 0, smallInode T_UNALLOC 0 9 0] 0x1f []

/-- The one is accepted, the other is not. -/
theorem not_valid_iff_data :
    (inBitmap.super = some smallSb ∧ checkValidAddr inBitmap smallSb = .ok () ∧
      ¬UsedFrom inBitmap smallSb (lastBitmap smallSb + 1)) ∧
    (freed.super = some smallSb ∧ checkValidAddr freed smallSb ≠ .ok () ∧
      UsedFrom freed smallSb (lastBitmap smallSb + 1)) := by
  have bitmap : inBitmap.allRefs smallSb = [3] := by decide +kernel
  have root : freed.allRefs smallSb = [4] := by decide +kernel
  refine ⟨⟨by decide +kernel, by decide +kernel, ?_⟩, by decide +kernel, by decide +kernel, ?_⟩
  · rw [usedFrom_iff, bitmap]
    decide
  · rw [usedFrom_iff, root]
    decide

end Xv6.Checker
