import Xv6.Checker.Parent
import Xv6.Mkfs.Files

/-!
# `fsChecker` accepts what `mkfs` builds

Every check of `fsChecker` is passed by an image that `mkfs` has completed. The ledger
gives the checks of addresses and of the bitmap, and the list of the names in the root
those of directories and link counts.
-/

namespace Xv6.Mkfs

open Fs Check
open Checker

variable {img : Image} {n : ℕ} {files : List File}

/-! ## The superblock and the inodes -/

theorem getSb_superBlock : getSb superBlock = sb := by decide +kernel

theorem Complete.sector (complete : Complete img n files) {b : ℕ} (inside : b < FSSIZE) :
    img.sector b = some (img.blk b) := by
  refine sector_of_lt (inside.trans (by decide)) ?_
  rwa [complete.count]

theorem Complete.super_eq (complete : Complete img n files) : img.super = some sb := by
  rw [Image.super, complete.sector (by decide), Option.map_some, complete.super, getSb_superBlock]

theorem Complete.inode (complete : Complete img n files) (i : Fin NINODES) :
    img.inode sb i = some (inodes img.blk i) := by
  rw [Image.inode, complete.sector (iblock_lt_fssize i)]
  rfl

/-- What holds of all inodes of the table holds of all inodes the checker reads. -/
theorem Complete.forall_inodes (complete : Complete img n files) {P : ℕ → Dinode → Prop}
    (all : ∀ i : Fin NINODES, P i (inodes img.blk i)) :
    ∀ i < sb.ninodes, ∃ ip, img.inode sb i = some ip ∧ P i ip :=
  fun i inRange => ⟨_, complete.inode ⟨i, inRange⟩, all ⟨i, inRange⟩⟩

theorem typeOf_eq_dir {m i : ℕ} : typeOf m i = T_DIR ↔ i = ROOTINO := by
  rw [typeOf]
  split
  next isRoot => exact ⟨fun _ => isRoot, fun _ => rfl⟩
  next notRoot =>
    split
    next => exact ⟨fun wrong => absurd wrong (by decide), fun isRoot => absurd isRoot notRoot⟩
    next => exact ⟨fun wrong => absurd wrong (by decide), fun isRoot => absurd isRoot notRoot⟩

theorem typeOf_eq_file {m i : ℕ} (file : typeOf m i = T_FILE) : 2 ≤ i ∧ i < m := by
  rw [typeOf] at file
  split at file
  next => exact absurd file (by decide)
  next =>
    split at file
    next inRange => exact inRange
    next => exact absurd file (by decide)

theorem typeOf_ne_zero {m i : ℕ} (used : typeOf m i ≠ T_UNALLOC) : i = ROOTINO ∨ 2 ≤ i ∧ i < m := by
  rw [typeOf] at used
  split at used
  next isRoot => exact Or.inl isRoot
  next =>
    split at used
    next inRange => exact Or.inr inRange
    next => exact absurd rfl used

theorem Complete.isRoot (complete : Complete img n files) {i : Fin NINODES}
    (isDir : (inodes img.blk i).type = T_DIR) : i = root := by
  rw [complete.types i, typeOf_eq_dir] at isDir
  exact Fin.ext isDir

/-- No inode has a bad type. -/
theorem Complete.checkBadInode (complete : Complete img n files) :
    checkBadInode img sb = .ok () := by
  refine checkBadInode_eq_ok.mpr (complete.forall_inodes fun i => ?_)
  rw [complete.types i, typeOf]
  refine ⟨?_, ?_⟩
  · split
    · exact Or.inr (Or.inl rfl)
    · split
      · exact Or.inr (Or.inr (Or.inl rfl))
      · exact Or.inl rfl
  · intro isRoot
    rw [if_pos isRoot]
    exact Or.inr rfl

/-! ## Addresses -/

theorem Complete.good (complete : Complete img n files) (i : Fin NINODES) (k : ℕ) :
    ¬badAddr sb (slot img.blk (inodes img.blk i) k) := by
  rintro ⟨outside, used⟩
  have inside := complete.ledger.inside i k used
  have bound := complete.bound
  have lower : Checker.Superblock.mininum sb < nmeta := by decide
  have upper : Checker.Superblock.maxinum sb + 1 = FSSIZE := by decide
  omega

theorem Complete.sector_slot (complete : Complete img n files) (i : Fin NINODES) {k : ℕ}
    (used : slot img.blk (inodes img.blk i) k ≠ 0) :
    img.sector (slot img.blk (inodes img.blk i) k).toNat =
      some (img.blk (slot img.blk (inodes img.blk i) k).toNat) :=
  complete.sector ((complete.ledger.inside i k used).2.trans_le complete.bound)

theorem Complete.sector_indirect (complete : Complete img n files) (i : Fin NINODES)
    (mapped : (inodes img.blk i).addr NDIRECT ≠ 0) :
    img.sector ((inodes img.blk i).addr NDIRECT).toNat =
      some (img.blk ((inodes img.blk i).addr NDIRECT).toNat) := by
  have sector := complete.sector_slot i (k := MAXFILE)
  rw [slot_maxfile] at sector
  exact sector mapped

theorem Complete.hasIndirect (complete : Complete img n files) (i : Fin NINODES) :
    img.HasIndirect (inodes img.blk i) := by
  intro mapped
  rw [complete.sector_indirect i mapped]
  rfl

/-- The words of the indirect block are slots. -/
theorem Complete.indirect (complete : Complete img n files) (i : Fin NINODES)
    (mapped : (inodes img.blk i).addr NDIRECT ≠ 0) : img.indirect (inodes img.blk i) =
      (List.range NINDIRECT).map fun e => slot img.blk (inodes img.blk i) (NDIRECT + e) := by
  rw [indirect_of_some mapped (complete.sector_indirect i mapped), entries, Bytes.getWords]
  apply List.map_congr_left
  intro e mem
  have inRange : e < NINDIRECT := List.mem_range.mp mem
  rw [slot_entry _ (Nat.le_add_right _ _) (Nat.add_lt_add_left inRange _) mapped,
    Nat.add_sub_cancel_left, Nat.zero_add]

/-- No inode has a bad address. -/
theorem Complete.checkValidAddr (complete : Complete img n files) :
    checkValidAddr img sb = .ok () := by
  refine checkValidAddr_eq_ok.mpr (complete.forall_inodes fun i => ⟨?_, complete.hasIndirect i, ?_⟩)
  · intro j atMost
    have good := complete.good i
    rcases atMost.lt_or_eq with direct | rfl
    · have atSlot := good j
      rwa [slot_direct _ direct] at atSlot
    · have atSlot := good MAXFILE
      rwa [slot_maxfile] at atSlot
  · intro a mem
    by_cases mapped : (inodes img.blk i).addr NDIRECT = 0
    · rw [indirect_of_zero mapped] at mem
      cases mem
    · rw [complete.indirect i mapped] at mem
      rcases List.mem_map.mp mem with ⟨e, _, rfl⟩
      exact complete.good i _

/-! ## The bitmap -/

/-- The bitmap marks the blocks that have been handed out. -/
theorem bit_bitmap {used : ℕ} (atMost : used ≤ BPB) (b : ℕ) :
    Bytes.bit (bitmap used) b = decide (b < used) := by
  induction used with
  | zero =>
      have zero : Bytes.bit (fun _ => 0 : Block) b = false := by
        rw [Bytes.bit_eq_getLsbD]
        simp [Bytes.get]
      rw [bitmap, List.range_zero, List.foldl_nil, zero]
      simp
  | succ used ih =>
      have inside : used / 8 < BSIZE := by
        simp only [BPB, BSIZE] at atMost ⊢
        omega
      have step : bitmap (used + 1) = Bytes.setBit (bitmap used) used := by
        rw [bitmap, List.range_succ, List.foldl_append]
        rfl
      rw [step, Bytes.bit_setBit _ _ inside, ih (by omega), ← Bool.decide_or]
      exact decide_eq_decide.mpr (by omega)

/-- The slots of an inode in the order in which `checkBitmap` visits them. -/
def visited : List ℕ :=
  List.range NDIRECT ++ [MAXFILE] ++ (List.range NINDIRECT).map (NDIRECT + ·)

theorem nodup_visited : visited.Nodup := by decide +kernel

theorem numbers_eq_nil {as : List Word} (zero : ∀ a ∈ as, a = 0) : numbers as = [] := by
  rw [numbers, List.map_eq_nil_iff, List.filter_eq_nil_iff]
  intro a mem
  simp [zero a mem]

/-- The references of an inode are its blocks. -/
theorem Complete.refs (complete : Complete img n files) (i : Fin NINODES) :
    img.refs (inodes img.blk i) = numbers (visited.map (slot img.blk (inodes img.blk i))) := by
  have direct : Checker.direct (inodes img.blk i) =
      (List.range NDIRECT).map (slot img.blk (inodes img.blk i)) := by
    apply List.map_congr_left
    intro k mem
    rw [slot_direct _ (List.mem_range.mp mem)]
  have entries : numbers (img.indirect (inodes img.blk i)) =
      numbers (((List.range NINDIRECT).map (NDIRECT + ·)).map
        (slot img.blk (inodes img.blk i))) := by
    by_cases mapped : (inodes img.blk i).addr NDIRECT = 0
    · rw [indirect_of_zero mapped, numbers_eq_nil, numbers_eq_nil]
      · intro a mem
        rcases List.mem_map.mp mem with ⟨k, listed, rfl⟩
        rcases List.mem_map.mp listed with ⟨e, _, rfl⟩
        exact slot_unmapped (Nat.le_add_right _ _) mapped
      · exact fun _ impossible => absurd impossible List.not_mem_nil
    · rw [complete.indirect i mapped, List.map_map]
      rfl
  rw [Image.refs, direct, entries, indirectBlock, visited, List.map_append, List.map_append,
    numbers_append, numbers_append, List.map_singleton, slot_maxfile]

/-- The places that the checker visits are all there are. -/
theorem mem_numbers_visited {ip : Dinode} {b : ℕ} :
    b ∈ numbers (visited.map (slot img.blk ip)) ↔
      ∃ k, slot img.blk ip k ≠ 0 ∧ (slot img.blk ip k).toNat = b := by
  simp only [mem_numbers, List.mem_map, exists_exists_and_eq_and]
  constructor
  · rintro ⟨k, _, holds⟩
    exact ⟨k, holds⟩
  · rintro ⟨k, used, rfl⟩
    refine ⟨k, ?_, used, rfl⟩
    have atMost : k ≤ MAXFILE := by
      by_contra beyond
      exact used (slot_beyond (Nat.not_le.mp beyond))
    simp only [visited, List.mem_append, List.mem_range, List.mem_singleton, List.mem_map]
    by_cases direct : k < NDIRECT
    · exact Or.inl (Or.inl direct)
    · rcases atMost.lt_or_eq with entry | same
      · refine Or.inr ⟨k - NDIRECT, ?_, by omega⟩
        simp only [MAXFILE] at entry
        omega
      · exact Or.inl (Or.inr same)

/-- The references of an inode are those of its slots, whether it is in use or not. -/
theorem Complete.refsOf (complete : Complete img n files) (i : Fin NINODES) :
    img.refsOf sb i = numbers (visited.map (slot img.blk (inodes img.blk i))) := by
  rw [Image.refsOf, complete.inode i]
  by_cases free : (inodes img.blk i).type = T_UNALLOC
  · have outside : i.val = 0 ∨ files.length + 2 ≤ i := by
      by_contra used
      rw [complete.types i, typeOf] at free
      split at free
      next => exact absurd free (by decide)
      next notRoot =>
        rw [if_pos (by simp only [ROOTINO] at notRoot; omega)] at free
        exact absurd free (by decide)
    have zero : ∀ k, slot img.blk (inodes img.blk i) k = 0 := by
      intro k
      have addrs := complete.free i outside
      have addr : ∀ a, (inodes img.blk i).addr a = 0 := by
        intro a
        rw [Dinode.addr, addrs]
      by_cases direct : k < NDIRECT
      · rw [slot_direct _ direct, addr]
      · exact slot_unmapped (Nat.not_lt.mp direct) (addr _)
    have none : numbers (visited.map (slot img.blk (inodes img.blk i))) = [] := by
      apply numbers_eq_nil
      intro a mem
      rcases List.mem_map.mp mem with ⟨k, _, rfl⟩
      exact zero k
    rw [none]
    exact if_pos free
  · rw [← complete.refs i]
    exact if_neg free

theorem Complete.mem_refsOf (complete : Complete img n files) {i b : ℕ} (inRange : i < NINODES) :
    b ∈ img.refsOf sb i ↔ ∃ k, slot img.blk (inodes img.blk ⟨i, inRange⟩) k ≠ 0 ∧
      (slot img.blk (inodes img.blk ⟨i, inRange⟩) k).toNat = b := by
  rw [complete.refsOf ⟨i, inRange⟩, mem_numbers_visited]

/-- The blocks that have been handed out are the ones in use. -/
theorem Complete.mem_allRefs (complete : Complete img n files) {b : ℕ} :
    b ∈ img.allRefs sb ↔ nmeta ≤ b ∧ b < n := by
  rw [Image.allRefs, List.mem_flatMap]
  constructor
  · rintro ⟨i, mem, refers⟩
    rcases (complete.mem_refsOf (List.mem_range.mp mem)).mp refers with ⟨k, used, rfl⟩
    exact complete.ledger.inside _ k used
  · rintro ⟨lower, upper⟩
    rcases complete.ledger.all b lower upper with ⟨i, k, used, rfl⟩
    exact ⟨i, List.mem_range.mpr i.isLt, (complete.mem_refsOf i.isLt).mpr ⟨k, used, rfl⟩⟩

/-- No block is used twice. -/
theorem Complete.nodup_allRefs (complete : Complete img n files) : (img.allRefs sb).Nodup := by
  rw [Image.allRefs, List.nodup_flatMap]
  constructor
  · intro i mem
    have inRange : i < NINODES := List.mem_range.mp mem
    rw [complete.refsOf ⟨i, inRange⟩, numbers, List.filter_map, List.map_map]
    refine List.Nodup.map_on ?_ (nodup_visited.filter _)
    intro k listed k' _ same
    have used : slot img.blk (inodes img.blk ⟨i, inRange⟩) k ≠ 0 := by
      simpa using (List.mem_filter.mp listed).2
    exact (complete.ledger.once _ k _ k' used (BitVec.eq_of_toNat_eq same)).2
  · refine List.Pairwise.imp_of_mem ?_ (List.nodup_range (n := sb.ninodes))
    intro i j mem mem' differ b refers refers'
    rcases (complete.mem_refsOf (List.mem_range.mp mem)).mp refers with ⟨k, used, holds⟩
    rcases (complete.mem_refsOf (List.mem_range.mp mem')).mp refers' with ⟨k', _, holds'⟩
    have same := (complete.ledger.once _ k _ k' used
      (BitVec.eq_of_toNat_eq (holds.trans holds'.symm))).1
    exact differ (Fin.mk.inj same)

/-- Every block in use is marked. -/
theorem Complete.markedAt (complete : Complete img n files) {b : ℕ} (handedOut : b < n) :
    MarkedAt img sb b := by
  have bound := complete.bound
  have inside : b < sb.size := handedOut.trans_le bound
  have first : b < BPB := inside.trans (by decide)
  have read := complete.sector (b := sb.bmapstart) (by decide)
  have block : sb.bblock b = sb.bmapstart := by
    rw [Superblock.bblock, Nat.div_eq_of_lt first, Nat.zero_add]
  refine ⟨inside, ?_, ?_⟩
  · rw [block, read]
    rfl
  · rw [bit_first read first, complete.bits, bit_bitmap (bound.trans (by decide))]
    exact decide_eq_true handedOut

theorem Complete.tally_eq (complete : Complete img n files) (b : ℕ) :
    tally (img.allRefs sb) (fun _ => (0 : Word)) b = if nmeta ≤ b ∧ b < n then 1 else 0 := by
  have counted := complete.nodup_allRefs.count (a := b)
  simp only [complete.mem_allRefs] at counted
  rw [tally_apply, counted]
  split
  next => rfl
  next => rfl

/-- The image passes the checks of its blocks. -/
theorem Complete.blocks (complete : Complete img n files) :
    ∃ addresses, checkBitmap img sb (fun _ => 0) = .ok addresses ∧
      checkUsedBlock img sb addresses = .ok () ∧ checkUsedTimes sb addresses = .ok () := by
  refine ⟨tally (img.allRefs sb) fun _ => 0, checkBitmap_eq_ok.mpr ⟨?_, rfl⟩,
    checkUsedBlock_eq_ok.mpr ⟨_, complete.sector (by decide), ?_⟩, checkUsedTimes_eq_ok.mpr ?_⟩
  · refine complete.forall_inodes fun i used => ?_
    have handedOut : ∀ b ∈ img.refs (inodes img.blk i), b < n := by
      intro b mem
      rw [complete.refs i, mem_numbers_visited] at mem
      rcases mem with ⟨k, holds, rfl⟩
      exact (complete.ledger.inside i k holds).2
    refine ⟨complete.hasIndirect i, ?_, ?_⟩
    · intro b mem
      exact (handedOut b (mem_refs.mpr (Or.inr mem))).trans_le complete.bound
    · intro b mem
      exact complete.markedAt (handedOut b (mem_refs.mpr (Or.inl mem)))
  · intro b lower upper
    have start : checkStart sb = nmeta := by decide
    refine ⟨upper.trans (by decide), fun set => ?_⟩
    rw [complete.bits, bit_bitmap (complete.bound.trans (by decide)), decide_eq_true_eq] at set
    rw [complete.tally_eq, if_pos ⟨start ▸ lower, set⟩]
    decide
  · intro b _
    rw [complete.tally_eq]
    split
    next => decide
    next => decide

/-! ## The names in the root -/

/-- The entries of a directory, block by block. -/
theorem flatMap_range_map {α : Type} {m d : ℕ} (f : ℕ → α) :
    ((List.range m).flatMap fun j => (List.range d).map fun q => f (d * j + q)) =
      (List.range (d * m)).map f := by
  induction m with
  | zero => simp
  | succ m ih =>
      rw [List.range_succ, List.flatMap_append, ih, Nat.mul_succ, List.range_add, List.map_append,
        List.flatMap_singleton, List.map_map]
      rfl

/-- The number of blocks of the root. -/
def rootBlocks (files : List File) : ℕ := ((rootEntries files).length + DPB - 1) / DPB

/-- A row of entries, filled up with blank ones. -/
theorem map_getD {es : List Dirent} {m : ℕ} (atMost : es.length ≤ m) :
    (List.range m).map (fun p => es.getD p blank) = es ++ List.replicate (m - es.length) blank := by
  apply List.ext_getElem
  · simp only [List.length_map, List.length_range, List.length_append, List.length_replicate]
    omega
  · intro p inside _
    rw [List.getElem_map, List.getElem_range, List.getElem_append]
    split
    next below => exact List.getD_eq_getElem _ _ below
    next behind =>
      rw [List.getElem_replicate, List.getD_eq_default _ _ (Nat.not_lt.mp behind)]

/-- A short string compares equal to itself only. -/
theorem eq_of_strncmp {short name : List Byte} (terminated : (0 : Byte) ∉ name)
    (plain : (0 : Byte) ∉ short) (fits : short.length < DIRSIZ)
    (equal : strncmp DIRSIZ short (strncpy name) = true) : name = short := by
  have texts := (Strings.difference_eq_zero (Nat.cast_injective.comp BitVec.toNat_injective)).mp
    (of_decide_eq_true equal)
  rw [Strings.upTo_cells plain, strncpy, Strings.upTo_copy, Strings.upTo_cells terminated,
    List.take_of_length_le fits.le] at texts
  have lengths := congrArg List.length texts
  rw [List.length_take] at lengths
  rw [texts, List.take_of_length_le (by omega)]

theorem not_mem_strip {name : List Byte} (terminated : (0 : Byte) ∉ name) :
    (0 : Byte) ∉ strip name := by
  rw [strip]
  split
  next => exact fun mem => terminated (List.mem_of_mem_tail mem)
  next => exact terminated

/-- The names of the files are not those of the entries that every directory has. -/
def Plain (files : List File) : Prop :=
  ∀ file ∈ files, strip file.name ≠ dot ∧ strip file.name ≠ dotdot

/-- The entry of a file is one that the checker counts. -/
theorem counts_entry {file : File} {i : ℕ} (positive : 0 < i) (small : i < 2 ^ 16)
    (plain : strip file.name ≠ dot ∧ strip file.name ≠ dotdot) :
    counts (entry i (strip file.name)) := by
  have terminated := not_mem_strip file.terminated
  refine ⟨?_, ?_, ?_⟩
  · intro zero
    have value := congrArg BitVec.toNat zero
    simp only [entry, BitVec.toNat_ofNat, Nat.mod_eq_of_lt small] at value
    simp at value
    omega
  · rw [Bool.eq_false_iff]
    exact fun equal => plain.2 (eq_of_strncmp terminated (by decide) (by decide) equal)
  · rw [Bool.eq_false_iff]
    exact fun equal => plain.1 (eq_of_strncmp terminated (by decide) (by decide) equal)

/-- The root names the inodes from 2 on, in order. -/
theorem named_rootEntries (few : files.length ≤ NINODES - 2) (plain : Plain files) (z : ℕ) :
    named (rootEntries files ++ List.replicate z blank) = List.range' 2 files.length := by
  have small : ∀ file ∈ files.zipIdx, file.2 + 2 < 2 ^ 16 := by
    intro file mem
    have index := List.snd_lt_of_mem_zipIdx mem
    simp only [NINODES] at few
    omega
  have blanks : (List.replicate z blank).filter counts = [] := by
    rw [List.filter_eq_nil_iff]
    intro e mem
    rw [List.eq_of_mem_replicate mem]
    decide
  have dots : ¬counts (entry ROOTINO dot) ∧ ¬counts (entry ROOTINO dotdot) := by decide
  have all : (files.zipIdx.map fun file => entry (file.2 + 2) (strip file.1.name)).filter counts =
      files.zipIdx.map fun file => entry (file.2 + 2) (strip file.1.name) := by
    rw [List.filter_eq_self]
    intro e mem
    rcases List.mem_map.mp mem with ⟨file, listed, rfl⟩
    refine decide_eq_true (counts_entry (Nat.succ_pos _) (small file listed) ?_)
    exact plain file.1 (List.fst_mem_of_mem_zipIdx listed)
  rw [named, List.filter_append, blanks, List.append_nil, rootEntries,
    List.filter_cons_of_neg (by simpa using dots.1),
    List.filter_cons_of_neg (by simpa using dots.2),
    all, List.map_map]
  calc
    (files.zipIdx.map fun file => (entry (file.2 + 2) (strip file.1.name)).inum.toNat) =
        files.zipIdx.map fun file => 2 + file.2 := by
      apply List.map_congr_left
      intro file listed
      rw [entry, BitVec.toNat_ofNat, Nat.mod_eq_of_lt (small file listed), Nat.add_comm]
    _ = (files.zipIdx.map Prod.snd).map (2 + ·) := by rw [List.map_map]; rfl
    _ = List.range' 2 files.length := by rw [List.zipIdx_map_snd, List.map_add_range']

/-- The entries of the root have small numbers. -/
theorem inum_lt {e : Dirent} {z : ℕ} (few : files.length ≤ NINODES - 2)
    (mem : e ∈ rootEntries files ++ List.replicate z blank) : e.inum.toNat < NINODES := by
  rcases List.mem_append.mp mem with listed | isBlank
  · simp only [rootEntries, List.mem_cons, List.mem_map] at listed
    rcases listed with rfl | rfl | ⟨file, inFiles, rfl⟩
    · decide
    · decide
    · have index := List.snd_lt_of_mem_zipIdx inFiles
      simp only [entry, BitVec.toNat_ofNat, NINODES] at few ⊢
      omega
  · rw [List.eq_of_mem_replicate isBlank]
    decide

section Root

variable (complete : Complete img n files) (few : files.length ≤ NINODES - 2)
include complete

theorem Complete.sector_root {j : ℕ} (direct : j < NDIRECT)
    (used : (inodes img.blk root).addr j ≠ 0) :
    img.sector ((inodes img.blk root).addr j).toNat =
      some (img.blk ((inodes img.blk root).addr j).toNat) := by
  have sector := complete.sector_slot root (k := j)
  rw [slot_direct _ direct] at sector
  exact sector used

include few

/-- The blocks of the root are its first direct ones. -/
theorem Complete.lt_rootBlocks {j : ℕ} :
    j < rootBlocks files ↔ j < NDIRECT ∧ (inodes img.blk root).addr j ≠ 0 := by
  have length : (rootEntries files).length = files.length + 2 := length_rootEntries
  have within : j < rootBlocks files → j < NDIRECT := by
    simp only [rootBlocks, length, DPB, BSIZE, NDIRECT, NINODES] at few ⊢
    omega
  have inside : j < rootBlocks files ↔ DPB * j < (rootEntries files).length := by
    simp only [rootBlocks, DPB, BSIZE]
    omega
  constructor
  · intro below
    exact ⟨within below, (complete.lists.addrs j (within below)).mpr (inside.mp below)⟩
  · rintro ⟨direct, used⟩
    exact inside.mpr ((complete.lists.addrs j direct).mp used)

/-- These are the addresses that the checker goes through. -/
theorem Complete.addrs_root : img.addrs (inodes img.blk root) =
    (List.range (rootBlocks files)).map (inodes img.blk root).addr := by
  have atMost : rootBlocks files ≤ NDIRECT := by
    by_contra beyond
    exact lt_irrefl _ ((complete.lt_rootBlocks few).mp (Nat.not_le.mp beyond)).1
  obtain ⟨rest, total⟩ := Nat.exists_eq_add_of_le atMost
  rw [Image.addrs, indirect_of_zero complete.lists.direct, List.append_nil, direct, total,
    List.range_add, List.map_append, List.filter_append, List.filter_eq_self.mpr,
    List.filter_eq_nil_iff.mpr, List.append_nil]
  · intro a mem
    rcases List.mem_map.mp mem with ⟨j, listed, rfl⟩
    rcases List.mem_map.mp listed with ⟨q, inside, rfl⟩
    have small : q < rest := List.mem_range.mp inside
    by_contra used
    have within : rootBlocks files + q < NDIRECT := by
      rw [total]
      omega
    have below := (complete.lt_rootBlocks few).mpr ⟨within, by simpa using used⟩
    omega
  · intro a mem
    rcases List.mem_map.mp mem with ⟨j, listed, rfl⟩
    simpa using ((complete.lt_rootBlocks few).mp (List.mem_range.mp listed)).2

theorem Complete.sector_addrs_root : ∀ a ∈ img.addrs (inodes img.blk root),
    img.sector a.toNat = some (img.blk a.toNat) := by
  intro a mem
  rw [complete.addrs_root few] at mem
  rcases List.mem_map.mp mem with ⟨j, listed, rfl⟩
  rcases (complete.lt_rootBlocks few).mp (List.mem_range.mp listed) with ⟨direct, used⟩
  exact complete.sector_root direct used

theorem Complete.readable_root : img.Readable (inodes img.blk root) := by
  refine ⟨complete.hasIndirect root, fun a mem => ?_⟩
  rw [complete.sector_addrs_root few a mem]
  rfl

/-- The checker sees the entries of the root, and blank ones behind them. -/
theorem Complete.listing_root : img.listing (inodes img.blk root) = rootEntries files ++
    List.replicate (DPB * rootBlocks files - (rootEntries files).length) blank := by
  have blocks : img.blocks (inodes img.blk root) =
      (img.addrs (inodes img.blk root)).map fun a => img.blk a.toNat := by
    rw [Image.blocks, List.filterMap_eq_map_iff_forall_eq_some]
    exact complete.sector_addrs_root few
  have enough : (rootEntries files).length ≤ DPB * rootBlocks files := by
    simp only [rootBlocks, DPB, BSIZE]
    omega
  rw [← map_getD enough, ← flatMap_range_map, Image.listing, blocks, complete.addrs_root few,
    List.map_map, List.flatMap_map]
  apply List.flatMap_congr
  intro j listed
  rcases (complete.lt_rootBlocks few).mp (List.mem_range.mp listed) with ⟨direct, used⟩
  apply List.map_congr_left
  intro q inBlock
  exact complete.lists.entries j direct used q (List.mem_range.mp inBlock)

theorem Complete.lookup_dot : img.lookup (inodes img.blk root) dot = some (entry ROOTINO dot) := by
  rw [Image.lookup, complete.listing_root few]
  exact List.find?_cons_of_pos (by decide)

theorem Complete.lookup_dotdot :
    img.lookup (inodes img.blk root) dotdot = some (entry ROOTINO dotdot) := by
  rw [Image.lookup, complete.listing_root few]
  refine (List.find?_cons_of_neg (by decide)).trans ?_
  exact List.find?_cons_of_pos (by decide)

theorem Complete.getInum_dot : getInum img sb ROOTINO dot = .ok 1 := by
  have isDir : (inodes img.blk root).type = T_DIR := by rw [complete.types root]; rfl
  have answer : getInum img sb ROOTINO dot = _ :=
    getInum_of_dir (complete.inode root) isDir (complete.readable_root few)
  rw [complete.lookup_dot few] at answer
  exact answer

/-- Only the root has an entry `..`. -/
theorem Complete.getInum_dotdot (i : Fin NINODES) :
    getInum img sb i dotdot = .ok (if i = root then 1 else 0) := by
  by_cases isRoot : i = root
  · subst isRoot
    have isDir : (inodes img.blk root).type = T_DIR := by rw [complete.types root]; rfl
    rw [getInum_of_dir (complete.inode root) isDir (complete.readable_root few),
      complete.lookup_dotdot few, if_pos rfl]
    rfl
  · rw [if_neg isRoot]
    exact getInum_of_not_dir (complete.inode i) fun isDir => isRoot (complete.isRoot isDir)

theorem Complete.checkDirFormat : checkDirFormat img sb dot = .ok () ∧
    checkDirFormat img sb dotdot = .ok () := by
  constructor
  · refine checkDirFormat_eq_ok.mpr (complete.forall_inodes fun i isDir => ?_)
    rw [complete.isRoot isDir]
    exact ⟨1, complete.getInum_dot few, by decide⟩
  · refine checkDirFormat_eq_ok.mpr (complete.forall_inodes fun i isDir => ?_)
    rw [complete.isRoot isDir]
    exact ⟨1, complete.getInum_dotdot few root, by decide⟩

/-- The image passes the check of the parents. -/
theorem Complete.checkParentDir : checkParentDir img sb = .ok () := by
  refine checkParentDir_eq_ok.mpr (complete.forall_inodes fun i isDir => ?_)
  rw [complete.isRoot isDir]
  refine ⟨complete.readable_root few, fun e mem => ?_⟩
  rw [complete.listing_root few] at mem
  refine ⟨_, complete.getInum_dotdot few ⟨e.inum.toNat, inum_lt few mem⟩, fun positive => ?_⟩
  split at positive
  next isRoot =>
    rw [if_pos isRoot]
    rfl
  next notRoot => exact absurd positive (by decide)

/-! ## Link counts -/

/-- Every file is counted once. -/
theorem Complete.tally_named (plain : Plain files) (i : ℕ) :
    tally (named (img.listing (inodes img.blk root))) (fun _ => (0 : Word)) i =
      if 2 ≤ i ∧ i < files.length + 2 then 1 else 0 := by
  have inside : i ∈ List.range' 2 files.length ↔ 2 ≤ i ∧ i < files.length + 2 := by
    rw [List.mem_range'_1, Nat.add_comm 2]
  have nodup : (List.range' 2 files.length).Nodup := List.nodup_range'
  have counted := nodup.count (a := i)
  simp only [inside] at counted
  rw [complete.listing_root few, named_rootEntries few plain, tally_apply, counted]
  split
  next => rfl
  next => rfl

/-- The image passes the checks of its links. -/
theorem Complete.links (plain : Plain files) :
    ∃ ins, checkInodeRef img sb (fun _ => 0) = .ok ins ∧ checkBadLinks img sb ins = .ok () ∧
      checkExtraLink img sb ins = .ok () := by
  have isDir : (inodes img.blk root).type = T_DIR := by rw [complete.types root]; rfl
  refine ⟨tally (named (img.listing (inodes img.blk root))) fun _ => 0,
    checkInodeRef_eq_ok.mpr (Or.inr ⟨ROOTINO, _, Nat.zero_le _,
      ⟨⟨root.isLt, complete.inode root, isDir⟩, ?_⟩, ⟨complete.readable_root few, ?_, rfl, ?_⟩⟩),
    checkBadLinks_eq_ok.mpr ?_, checkExtraLink_eq_ok.mpr ?_⟩
  · intro i below
    have inRange : i < NINODES := below.trans root.isLt
    refine ⟨_, complete.inode ⟨i, inRange⟩, fun isDir' => ?_⟩
    have same := congrArg Fin.val (complete.isRoot isDir')
    exact below.ne same
  · intro i mem
    rw [complete.listing_root few, named_rootEntries few plain, List.mem_range'_1] at mem
    simp only [sb, NINODES] at few ⊢
    omega
  · intro i lower upper
    refine ⟨_, complete.inode ⟨i, upper⟩, fun used => ?_⟩
    rw [complete.types] at used
    rw [complete.tally_named few plain]
    rcases typeOf_ne_zero used with isRoot | isFile
    · simp only [ROOTINO] at isRoot
      omega
    · rw [if_pos isFile]
      decide
  · refine complete.forall_inodes fun i isFile => ?_
    rw [complete.types] at isFile
    have bounds := typeOf_eq_file isFile
    rw [complete.tally_named few plain, if_pos bounds, complete.nlink i bounds.1 bounds.2]
    rfl
  · refine complete.forall_inodes fun i isDir' => ?_
    rw [complete.isRoot isDir', complete.tally_named few plain]
    exact (by decide : (0 : Word) ≤ 1)

end Root

theorem Complete.passes (complete : Complete img n files) (few : files.length ≤ NINODES - 2)
    (plain : Plain files) : Checker.main img = .ok () := by
  refine main_eq_ok.mpr ⟨sb, complete.super_eq, ?_, complete.checkBadInode, complete.checkValidAddr,
    (complete.checkDirFormat few).1, (complete.checkDirFormat few).2, complete.checkParentDir few,
    complete.blocks, complete.links few plain⟩
  rw [complete.sector (by decide)]
  rfl

/-- The image of every run of `mkfs` that comes to its end is accepted by `fsChecker`. -/
theorem main_accepts {s : St} (few : files.length ≤ NINODES - 2)
    (names : ∀ file ∈ files, strip file.name ≠ dot ∧ strip file.name ≠ dotdot)
    (done : main files start = .ok ((), s)) : Checker.main s.img = .ok () :=
  (complete_of_main few done).passes few names

/-- An input file `_rm` with two bytes. -/
def smallFile : File where
  name := [0x5f, 0x72, 0x6d]
  contents := [0x68, 0x69]
  terminated := by decide

/-- An image with one file of two bytes. -/
theorem main_accepts_smallFile :
    ∃ s, main [smallFile] start = .ok ((), s) ∧ Checker.main s.img = .ok () := by
  have fits : Fits [smallFile] := by
    refine ⟨?_, by decide⟩
    intro file mem
    rw [List.mem_singleton.mp mem]
    decide
  rcases main_returns (by decide) fits with ⟨s, done⟩
  refine ⟨s, done, main_accepts (by decide) ?_ done⟩
  intro file mem
  rw [List.mem_singleton.mp mem]
  decide

end Xv6.Mkfs
