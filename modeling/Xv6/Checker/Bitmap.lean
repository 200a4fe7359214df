import Xv6.Checker.View

/-!
# The bitmap check

`checkBitmap` counts the references to every block and looks up the bits of the data
blocks; `checkUsedBlock` then asks for every bit of the first bitmap block whether its
block has been counted. Together they are exact up to three things: no bit of an indirect
block is looked up, the bits of blocks between the start of the bitmap and the data
are compared as well, and an image with more than one bitmap block is left half way.
-/

namespace Xv6.Checker

open Fs Check

variable {img : Image} {sb : Superblock} {ip : Dinode} {array array' : ℕ → Word}

/-! ## Bits -/

theorem shifted_get (data : Block) (i : ℕ) :
    shifted (Bytes.get data (i / 8)) (i % 8) = Bytes.bit data i := by
  rw [Bytes.bit_eq_getLsbD]
  generalize Bytes.get data (i / 8) = c
  have small : i % 8 < 8 := Nat.mod_lt i (by decide)
  interval_cases i % 8 <;>
    revert c <;>
    decide

/-- Bit `b` of the bitmap. -/
def Image.bit (img : Image) (sb : Superblock) (b : ℕ) : Bool :=
  match img.sector (sb.bblock b) with
  | some data => Bytes.bit data (b % BPB)
  | none => false

theorem getBit_eq_ok {b : ℕ} {bit : Bool} : getBit img sb b = .ok bit ↔
    (img.sector (sb.bblock b)).isSome ∧ bit = img.bit sb b := by
  have index : b % BPB % 8 = b % 8 := by
    simp only [BPB, BSIZE]
    omega
  simp only [getBit, bind_eq_ok, rsect_eq_ok, pure_eq_ok, Image.bit, ← index, shifted_get]
  cases img.sector (sb.bblock b) with
  | some data => simp
  | none => simp

/-! ## Counting references -/

/-- A counter is increased, inside its array. -/
theorem bump_eq_ok {n k : ℕ} : bump n array k = .ok array' ↔ k < n ∧ array' = tally [k] array := by
  rw [bump]
  split
  next inside =>
    rw [pure_eq_ok]
    exact ⟨fun same => ⟨inside, same⟩, fun both => both.2⟩
  next outside =>
    constructor
    · intro stopped
      cases stopped
    · intro both
      exact absurd both.1 outside

/-- The block numbers in a list of addresses. -/
def numbers (as : List Word) : List ℕ := (as.filter (· ≠ 0)).map BitVec.toNat

theorem mem_numbers {as : List Word} {b : ℕ} : b ∈ numbers as ↔ ∃ a ∈ as, a ≠ 0 ∧ a.toNat = b := by
  simp [numbers, and_assoc]

/-- Block `b` may be counted as a data block. -/
def MarkedAt (img : Image) (sb : Superblock) (b : ℕ) : Prop :=
  b < sb.size ∧ (img.sector (sb.bblock b)).isSome ∧ img.bit sb b = true

/-- An address is counted if its bit is set. -/
theorem markAddr_eq_ok {a : Word} : markAddr img sb array a = .ok array' ↔
    (a ≠ 0 → MarkedAt img sb a.toNat) ∧
      array' = if a = 0 then array else tally [a.toNat] array := by
  rw [markAddr]
  by_cases zero : a = 0
  · rw [if_pos zero, if_pos zero, pure_eq_ok]
    exact ⟨fun same => ⟨fun used => absurd zero used, same⟩, fun both => both.2⟩
  · rw [if_neg zero, if_neg zero]
    simp only [bind_eq_ok, bump_eq_ok, getBit_eq_ok, failIf_eq_ok, pure_eq_ok, Bool.not_eq_false]
    constructor
    · rintro ⟨_, ⟨inside, rfl⟩, _, ⟨readable, rfl⟩, _, set, rfl⟩
      exact ⟨fun _ => ⟨inside, readable, set⟩, rfl⟩
    · rintro ⟨marked, rfl⟩
      rcases marked zero with ⟨inside, readable, set⟩
      exact ⟨_, ⟨inside, rfl⟩, _, ⟨readable, rfl⟩, (), set, rfl⟩

/-- A list of addresses is counted if all their bits are set. -/
theorem foldlM_markAddr {as : List Word} : as.foldlM (markAddr img sb) array = .ok array' ↔
    (∀ b ∈ numbers as, MarkedAt img sb b) ∧ array' = tally (numbers as) array := by
  have step : ∀ a ∈ as, ∀ array array', markAddr img sb array a = .ok array' ↔
      (a ≠ 0 → MarkedAt img sb a.toNat) ∧
        array' = if a = 0 then array else tally [a.toNat] array :=
    fun _ _ _ _ => markAddr_eq_ok
  rw [foldlM_eq_ok step]
  refine and_congr ?_ ?_
  · simp only [mem_numbers]
    constructor
    · rintro all b ⟨a, mem, used, rfl⟩
      exact all a mem used
    · intro all a mem used
      exact all _ ⟨a, mem, used, rfl⟩
  · rw [numbers, tally, List.foldl_map, List.foldl_filter]
    simp only [ne_eq, decide_not, Bool.not_eq_true', decide_eq_false_iff_not, ite_not]
    exact Iff.rfl

/-- The number of the indirect block. -/
def indirectBlock (ip : Dinode) : List ℕ := numbers [ip.addr NDIRECT]

/-- The numbers of the data blocks of a file. -/
def Image.dataBlocks (img : Image) (ip : Dinode) : List ℕ := numbers (direct ip ++ img.indirect ip)

theorem numbers_append (as bs : List Word) : numbers (as ++ bs) = numbers as ++ numbers bs := by
  simp [numbers]

/-- The references of a file, in the order in which `checkBitmap` counts them. -/
def Image.refs (img : Image) (ip : Dinode) : List ℕ :=
  numbers (direct ip) ++ indirectBlock ip ++ numbers (img.indirect ip)

theorem mem_refs {b : ℕ} : b ∈ img.refs ip ↔ b ∈ img.dataBlocks ip ∨ b ∈ indirectBlock ip := by
  simp only [Image.refs, Image.dataBlocks, numbers_append, List.mem_append]
  tauto

/-- The references of inode `i`; a free inode has none. -/
def Image.refsOf (img : Image) (sb : Superblock) (i : ℕ) : List ℕ :=
  match img.inode sb i with
  | some ip => if ip.type = T_UNALLOC then [] else img.refs ip
  | none => []

/-- What `checkBitmap` asks of an inode. -/
structure Marked (img : Image) (sb : Superblock) (ip : Dinode) : Prop where
  has : img.HasIndirect ip
  indirect : ∀ b ∈ indirectBlock ip, b < sb.size
  data : ∀ b ∈ img.dataBlocks ip, MarkedAt img sb b

theorem mem_indirectBlock {b : ℕ} :
    b ∈ indirectBlock ip ↔ ip.addr NDIRECT ≠ 0 ∧ (ip.addr NDIRECT).toNat = b := by
  simp [indirectBlock, mem_numbers]

/-- The blocks of an inode in use are counted. -/
theorem markInode_eq_ok : markInode img sb array ip = .ok array' ↔
    (ip.type ≠ T_UNALLOC → Marked img sb ip) ∧
      array' = if ip.type = T_UNALLOC then array else tally (img.refs ip) array := by
  rw [markInode]
  by_cases free : ip.type = T_UNALLOC
  · rw [if_pos free, if_pos free, pure_eq_ok]
    exact ⟨fun same => ⟨fun used => absurd free used, same⟩, fun both => both.2⟩
  · rw [if_neg free, if_neg free, bind_eq_ok]
    simp only [foldlM_markAddr]
    by_cases zero : ip.addr NDIRECT = 0
    · have none : img.indirect ip = [] := indirect_of_zero zero
      have noBlock : indirectBlock ip = [] := by simp [indirectBlock, numbers, zero]
      simp only [if_pos zero, pure_eq_ok, Image.refs, none, noBlock, List.append_nil]
      constructor
      · rintro ⟨_, ⟨data, rfl⟩, rfl⟩
        refine ⟨fun _ => ⟨fun used => absurd zero used, ?_, ?_⟩, by simp [numbers]⟩
        · simp [noBlock]
        · rwa [Image.dataBlocks, none, List.append_nil]
      · rintro ⟨marked, rfl⟩
        have data := (marked free).data
        rw [Image.dataBlocks, none, List.append_nil] at data
        exact ⟨_, ⟨data, rfl⟩, by simp [numbers]⟩
    · have block : indirectBlock ip = [(ip.addr NDIRECT).toNat] := by
        rw [indirectBlock, numbers, List.filter_cons_of_pos (by simpa using zero)]
        rfl
      simp only [if_neg zero, bind_eq_ok, bump_eq_ok, rsect_eq_ok, foldlM_markAddr]
      constructor
      · rintro ⟨_, ⟨first, rfl⟩, _, ⟨inside, rfl⟩, data, read, second, rfl⟩
        have same := indirect_of_some zero read
        refine ⟨fun _ => ⟨fun _ => by rw [read]; rfl, ?_, ?_⟩, ?_⟩
        · rw [block]
          simpa using inside
        · rw [Image.dataBlocks, same, numbers_append]
          exact List.forall_mem_append.mpr ⟨first, second⟩
        · rw [Image.refs, same, block, tally_append, tally_append]
      · rintro ⟨marked, rfl⟩
        rcases marked free with ⟨has, indirect, data⟩
        rcases Option.isSome_iff_exists.mp (has zero) with ⟨content, read⟩
        have same := indirect_of_some zero read
        rw [Image.dataBlocks, same, numbers_append, List.forall_mem_append] at data
        rw [block] at indirect
        refine ⟨_, ⟨data.1, rfl⟩, _, ⟨by simpa using indirect, rfl⟩, content, read, data.2, ?_⟩
        rw [Image.refs, same, block, tally_append, tally_append]

/-- All references of the inodes in use. -/
def Image.allRefs (img : Image) (sb : Superblock) : List ℕ :=
  (List.range sb.ninodes).flatMap (img.refsOf sb)

/-- The first loop counts every reference and demands its bit. -/
theorem checkBitmap_eq_ok : checkBitmap img sb array = .ok array' ↔
    (∀ i < sb.ninodes, ∃ ip, img.inode sb i = some ip ∧
      (ip.type ≠ T_UNALLOC → Marked img sb ip)) ∧ array' = tally (img.allRefs sb) array := by
  have step : ∀ i ∈ List.range sb.ninodes, ∀ array array',
      (rinode img sb i >>= markInode img sb array) = .ok array' ↔
      (∃ ip, img.inode sb i = some ip ∧ (ip.type ≠ T_UNALLOC → Marked img sb ip)) ∧
        array' = tally (img.refsOf sb i) array := by
    intro i _ array array'
    simp only [bind_eq_ok, rinode_eq_ok, markInode_eq_ok, Image.refsOf]
    cases img.inode sb i with
    | none => simp
    | some ip =>
        simp only [Option.some.injEq, exists_eq_left']
        split
        next free => simp [tally]
        next used => rfl
  rw [checkBitmap, foldlM_eq_ok step, Image.allRefs, tally, List.foldl_flatMap]
  simp only [List.mem_range]
  exact Iff.rfl

/-- The first block whose bit `checkUsedBlock` looks at. -/
def checkStart (sb : Superblock) : ℕ := (sb.bmapstart + 1) % 2 ^ 32

/-- The second loop demands a reference for every bit, from its first block on. -/
theorem checkUsedBlock_eq_ok {u : Unit} : checkUsedBlock img sb array = .ok u ↔
    ∃ data, img.sector sb.bmapstart = some data ∧ ∀ b, checkStart sb ≤ b → b < sb.size →
      b < BPB ∧ (Bytes.bit data b = true → array b ≠ 0) := by
  have range : ∀ b, b ∈ List.range' (checkStart sb) (sb.size - checkStart sb) ↔
      checkStart sb ≤ b ∧ b < sb.size := by
    intro b
    rw [List.mem_range'_1]
    omega
  have inside : ∀ b, ¬BSIZE ≤ b / 8 ↔ b < BPB := by
    intro b
    simp only [BPB, BSIZE]
    omega
  rw [checkUsedBlock, bind_eq_ok]
  refine exists_congr fun data => and_congr rsect_eq_ok ?_
  rw [forM_eq_ok]
  refine forall_congr' fun b => ?_
  show b ∈ List.range' (checkStart sb) (sb.size - checkStart sb) → _ ↔ _
  simp only [range, bind_eq_ok, failIf_eq_ok, exists_const, inside, shifted_get, not_and, and_imp,
    ne_eq]

/-! ## What is in use -/

/-- Block `b` is a data block of an inode in use. -/
def UsesData (img : Image) (sb : Superblock) (b : ℕ) : Prop :=
  ∃ i < sb.ninodes, ∃ ip, img.inode sb i = some ip ∧ ip.type ≠ T_UNALLOC ∧ b ∈ img.dataBlocks ip

/-- Block `b` is the indirect block of an inode in use. -/
def UsesIndirect (img : Image) (sb : Superblock) (b : ℕ) : Prop :=
  ∃ i < sb.ninodes, ∃ ip, img.inode sb i = some ip ∧ ip.type ≠ T_UNALLOC ∧ b ∈ indirectBlock ip

/-- Block `b` is in use. -/
def Uses (img : Image) (sb : Superblock) (b : ℕ) : Prop :=
  UsesData img sb b ∨ UsesIndirect img sb b

/-- The references are the uses of blocks. -/
theorem mem_allRefs {b : ℕ} : b ∈ img.allRefs sb ↔ Uses img sb b := by
  have one : ∀ i, b ∈ img.refsOf sb i ↔ ∃ ip, img.inode sb i = some ip ∧ ip.type ≠ T_UNALLOC ∧
      (b ∈ img.dataBlocks ip ∨ b ∈ indirectBlock ip) := by
    intro i
    rw [Image.refsOf]
    cases img.inode sb i with
    | none => simp
    | some ip => by_cases free : ip.type = T_UNALLOC <;> simp [free, mem_refs]
  simp only [Image.allRefs, List.mem_flatMap, List.mem_range, one, Uses, UsesData, UsesIndirect]
  constructor
  · rintro ⟨i, inRange, ip, found, used, data | indirect⟩
    · exact Or.inl ⟨i, inRange, ip, found, used, data⟩
    · exact Or.inr ⟨i, inRange, ip, found, used, indirect⟩
  · rintro (⟨i, inRange, ip, found, used, data⟩ | ⟨i, inRange, ip, found, used, indirect⟩)
    · exact ⟨i, inRange, ip, found, used, Or.inl data⟩
    · exact ⟨i, inRange, ip, found, used, Or.inr indirect⟩

/-- The last block of the bitmap. -/
def lastBitmap (sb : Superblock) : ℕ := sb.bmapstart + sb.size / BPB

/-- The bitmap lies in the image. -/
structure HasBitmap (img : Image) (sb : Superblock) : Prop where
  fits : lastBitmap sb < 2 ^ 32
  readable : ∀ k ≤ sb.size / BPB, (img.sector (sb.bmapstart + k)).isSome

/-- An address that passes `checkValidAddr` does not lie before the end of the bitmap. -/
theorem lastBitmap_le_of_valid (valid : checkValidAddr img sb = .ok ()) (bitmap : HasBitmap img sb)
    {b : ℕ} (uses : Uses img sb b) : lastBitmap sb ≤ b := by
  have least : Superblock.mininum sb = lastBitmap sb := by
    rw [Superblock.mininum, Superblock.bblock, Nat.add_comm]
    exact Nat.mod_eq_of_lt bitmap.fits
  have good : ∀ a : Word, ¬badAddr sb a → a ≠ 0 → lastBitmap sb ≤ a.toNat := by
    intro a notBad used
    by_contra below
    exact notBad ⟨Or.inl (by omega), used⟩
  rw [checkValidAddr_eq_ok] at valid
  rcases uses with ⟨i, inRange, ip, found, _, mem⟩ | ⟨i, inRange, ip, found, _, mem⟩
  · rcases valid i inRange with ⟨ip', found', inodes, _, entries⟩
    rw [found] at found'
    cases found'
    rcases mem_numbers.mp mem with ⟨a, listed, used, rfl⟩
    rcases List.mem_append.mp listed with isDirect | isEntry
    · rcases List.mem_map.mp isDirect with ⟨j, index, rfl⟩
      exact good _ (inodes j (List.mem_range.mp index).le) used
    · exact good _ (entries a isEntry) used
  · rcases valid i inRange with ⟨ip', found', inodes, _, _⟩
    rw [found] at found'
    cases found'
    rcases mem_indirectBlock.mp mem with ⟨used, rfl⟩
    exact good _ (inodes NDIRECT le_rfl) used

/-! ## The verdict -/

/-- `checkBitmap` and `checkUsedBlock` return 1. -/
def Accepts (img : Image) (sb : Superblock) : Prop :=
  ∃ addresses, checkBitmap img sb (fun _ => 0) = .ok addresses ∧
    checkUsedBlock img sb addresses = .ok ()

/-- Behind the bitmap, exactly the blocks in use are marked. -/
def ExactBitmap (img : Image) (sb : Superblock) : Prop :=
  ∀ b, lastBitmap sb < b → b < sb.size → (img.bit sb b = true ↔ Uses img sb b)

/-- Behind the bitmap, the data blocks are marked, and all that is marked is in use. -/
structure DataExact (img : Image) (sb : Superblock) : Prop where
  marked : ∀ b, lastBitmap sb < b → b < sb.size → UsesData img sb b → img.bit sb b = true
  used : ∀ b, lastBitmap sb < b → b < sb.size → img.bit sb b = true → Uses img sb b

/-- Behind the bitmap, the indirect blocks are marked. -/
def IndirectMarked (img : Image) (sb : Superblock) : Prop :=
  ∀ b, lastBitmap sb < b → b < sb.size → UsesIndirect img sb b → img.bit sb b = true

/-- What the two checks ask beyond the data blocks: there is one bitmap block only, no block outside
the image is used, the last bitmap block is marked if it is a data block, the bits before the data
are those of blocks in use, and no counter wraps around. -/
structure Plain (img : Image) (sb : Superblock) : Prop where
  one : sb.size ≤ BPB ∨ sb.size ≤ checkStart sb
  inside : ∀ b, Uses img sb b → b < sb.size
  last : UsesData img sb (lastBitmap sb) → img.bit sb (lastBitmap sb) = true
  low : ∀ b, checkStart sb ≤ b → b ≤ lastBitmap sb → b < sb.size → img.bit sb b = true →
    Uses img sb b
  wraps : ∀ b, checkStart sb ≤ b → b < sb.size → img.bit sb b = true →
    2 ^ 32 ∣ (img.allRefs sb).count b → (img.allRefs sb).count b = 0

/-- Exactness splits into the data blocks and the indirect blocks, which the check treats
differently. -/
theorem exactBitmap_iff : ExactBitmap img sb ↔ DataExact img sb ∧ IndirectMarked img sb := by
  constructor
  · intro exact
    refine ⟨⟨?_, ?_⟩, ?_⟩
    · intro b above below uses
      exact (exact b above below).mpr (Or.inl uses)
    · intro b above below
      exact (exact b above below).mp
    · intro b above below uses
      exact (exact b above below).mpr (Or.inr uses)
  · rintro ⟨⟨marked, used⟩, indirect⟩ b above below
    refine ⟨used b above below, ?_⟩
    rintro (data | pointer)
    · exact marked b above below data
    · exact indirect b above below pointer

theorem tally_ne_zero {b : ℕ} : tally (img.allRefs sb) (fun _ => (0 : Word)) b ≠ 0 ↔
    ¬2 ^ 32 ∣ (img.allRefs sb).count b := by
  have value : tally (img.allRefs sb) (fun _ => (0 : Word)) b =
      BitVec.ofNat 32 ((img.allRefs sb).count b) := by
    rw [tally_apply]
    exact BitVec.zero_add _
  rw [value, Ne, ← BitVec.toNat_inj, BitVec.toNat_ofNat, Nat.dvd_iff_mod_eq_zero]
  rfl

theorem uses_of_counted {b : ℕ} (counted : ¬2 ^ 32 ∣ (img.allRefs sb).count b) :
    Uses img sb b := by
  rw [← mem_allRefs, ← List.count_pos_iff]
  by_contra zero
  rw [Nat.eq_zero_of_not_pos zero] at counted
  exact counted (Nat.dvd_zero _)

theorem bit_first {data : Block} (read : img.sector sb.bmapstart = some data) {b : ℕ}
    (first : b < BPB) : img.bit sb b = Bytes.bit data b := by
  rw [Image.bit, Superblock.bblock, Nat.div_eq_of_lt first, Nat.zero_add, read]
  exact congrArg (Bytes.bit data) (Nat.mod_eq_of_lt first)

theorem checkStart_le_of_lastBitmap_lt {b : ℕ} (above : lastBitmap sb < b) : checkStart sb ≤ b :=
  calc
    checkStart sb ≤ sb.bmapstart + 1 := Nat.mod_le _ _
    _ ≤ lastBitmap sb + 1 := Nat.succ_le_succ (Nat.le_add_right _ _)
    _ ≤ b := above

/-- The check sees the data blocks, and nothing of the indirect blocks themselves. -/
theorem accepts_iff (valid : checkValidAddr img sb = .ok ()) (bitmap : HasBitmap img sb) :
    Accepts img sb ↔ DataExact img sb ∧ Plain img sb := by
  simp only [Accepts, checkBitmap_eq_ok, checkUsedBlock_eq_ok]
  constructor
  · rintro ⟨_, ⟨marked, rfl⟩, data, read, counted⟩
    have markedAt : ∀ b, UsesData img sb b → MarkedAt img sb b := by
      rintro b ⟨i, inRange, ip, found, used, mem⟩
      rcases marked i inRange with ⟨ip', found', all⟩
      rw [found] at found'
      cases found'
      exact (all used).data b mem
    have counts : ∀ b, checkStart sb ≤ b → b < sb.size → img.bit sb b = true →
        ¬2 ^ 32 ∣ (img.allRefs sb).count b := by
      intro b start below set
      rcases counted b start below with ⟨first, nonzero⟩
      rw [bit_first read first] at set
      exact tally_ne_zero.mp (nonzero set)
    refine ⟨⟨?_, ?_⟩, ⟨?_, ?_, ?_, ?_, ?_⟩⟩
    · intro b _ _ uses
      exact (markedAt b uses).2.2
    · intro b above below set
      exact uses_of_counted (counts b (checkStart_le_of_lastBitmap_lt above) below set)
    · by_cases empty : sb.size ≤ checkStart sb
      · exact Or.inr empty
      · have last := (counted (sb.size - 1) (by omega) (by omega)).1
        exact Or.inl (by omega)
    · rintro b (uses | ⟨i, inRange, ip, found, used, mem⟩)
      · exact (markedAt b uses).1
      · rcases marked i inRange with ⟨ip', found', all⟩
        rw [found] at found'
        cases found'
        exact (all used).indirect b mem
    · intro uses
      exact (markedAt _ uses).2.2
    · intro b start _ below set
      exact uses_of_counted (counts b start below set)
    · intro b start below set divides
      exact absurd divides (counts b start below set)
  · rintro ⟨exact, plain⟩
    rcases Option.isSome_iff_exists.mp (bitmap.readable 0 (Nat.zero_le _)) with ⟨data, read⟩
    refine ⟨_, ⟨?_, rfl⟩, data, read, ?_⟩
    · intro i inRange
      rcases checkValidAddr_eq_ok.mp valid i inRange with ⟨ip, found, _, has, _⟩
      refine ⟨ip, found, fun used => ⟨has, ?_, ?_⟩⟩
      · intro b mem
        exact plain.inside b (Or.inr ⟨i, inRange, ip, found, used, mem⟩)
      · intro b mem
        have uses : UsesData img sb b := ⟨i, inRange, ip, found, used, mem⟩
        have below := plain.inside b (Or.inl uses)
        refine ⟨below, ?_, ?_⟩
        · rw [Superblock.bblock, Nat.add_comm]
          exact bitmap.readable _ (Nat.div_le_div_right below.le)
        · rcases (lastBitmap_le_of_valid valid bitmap (Or.inl uses)).eq_or_lt with same | above
          · rw [← same] at uses ⊢
            exact plain.last uses
          · exact exact.marked b above below uses
    · intro b start below
      have first : b < BPB := by
        rcases plain.one with fits | empty
        · exact below.trans_le fits
        · omega
      refine ⟨first, fun set => tally_ne_zero.mpr fun divides => ?_⟩
      rw [← bit_first read first] at set
      have uses : Uses img sb b := by
        rcases Nat.lt_or_ge (lastBitmap sb) b with above | low
        · exact exact.used b above below set
        · exact plain.low b start low below set
      rw [← mem_allRefs, ← List.count_pos_iff] at uses
      exact uses.ne' (plain.wraps b start below set divides)

/-- The verdict is right exactly when the data blocks are wrongly marked, or the indirect blocks are
marked just when nothing else is amiss. -/
theorem accepts_iff_exact_iff (valid : checkValidAddr img sb = .ok ())
    (bitmap : HasBitmap img sb) : (Accepts img sb ↔ ExactBitmap img sb) ↔
      (DataExact img sb → (Plain img sb ↔ IndirectMarked img sb)) := by
  rw [accepts_iff valid bitmap, exactBitmap_iff]
  tauto

theorem hasBitmap_smallImage {inodes : List Dinode} {bits : Byte} {data : List Block} :
    HasBitmap (smallImage inodes bits data) smallSb := by
  refine ⟨by decide, fun k inside => ?_⟩
  obtain rfl : k = 0 := by simpa [smallSb, BPB, BSIZE] using inside
  simp [Image.sector, smallImage, smallSb, BSIZE]

/-- The root directory is in block 4. -/
def rootOnly : Image := smallImage [unused, smallInode T_DIR 1 4 0] 0x1f []

/-- The root has an indirect block too, block 5, and its bit is clear. -/
def unmarked : Image := smallImage [unused, smallInode T_DIR 1 4 5] 0x1f []

/-- An image with the root directory only passes the check of addresses. -/
theorem accepts_exact_rootOnly :
    checkValidAddr rootOnly smallSb = .ok () ∧
      (Accepts rootOnly smallSb ↔
        ExactBitmap rootOnly smallSb) := by
  have valid : checkValidAddr rootOnly smallSb = .ok () := by
    decide +kernel
  have refs : rootOnly.allRefs smallSb = [4] := by decide +kernel
  have only : ∀ b, Uses rootOnly smallSb b → b = 4 := by
    intro b uses
    rw [← mem_allRefs, refs] at uses
    exact List.mem_singleton.mp uses
  have bit : rootOnly.bit smallSb 4 = true := by decide +kernel
  refine ⟨valid, (accepts_iff_exact_iff valid hasBitmap_smallImage).mpr fun _ => ?_⟩
  refine ⟨fun _ b _ _ uses => ?_, fun _ => ⟨Or.inl (by decide), ?_, ?_, ?_, ?_⟩⟩
  · rw [only b (Or.inr uses)]
    exact bit
  · intro b uses
    rw [only b uses]
    decide
  · intro uses
    exact absurd (only _ (Or.inl uses)) (by decide)
  · intro b start low
    simp only [checkStart, lastBitmap, smallSb, BPB, BSIZE] at start low
    omega
  · intro b _ _ _ divides
    rw [refs] at divides ⊢
    have small : [4].count b < 2 ^ 32 := lt_of_le_of_lt List.count_le_length (by decide)
    exact Nat.eq_zero_of_dvd_of_lt divides small

/-- The image marks no block, but its indirect block is in use. -/
theorem not_accepts_exact_unmarked : ¬∀ (img : Image) (sb : Superblock),
    checkBadInode img sb = .ok () → checkValidAddr img sb = .ok () → HasBitmap img sb →
    (Accepts img sb ↔ ExactBitmap img sb) := by
  intro exact
  have outcome : (checkBitmap unmarked smallSb (fun _ => 0) >>= checkUsedBlock unmarked smallSb) =
      .ok () := by
    decide +kernel
  rcases bind_eq_ok.mp outcome with ⟨addresses, first, second⟩
  have verdict := exact unmarked smallSb (by decide +kernel) (by decide +kernel)
    hasBitmap_smallImage
  have marked := (verdict.mp ⟨addresses, first, second⟩ 5 (by decide) (by decide)).mpr
    (mem_allRefs.mp (by decide +kernel))
  revert marked
  decide +kernel

end Xv6.Checker
