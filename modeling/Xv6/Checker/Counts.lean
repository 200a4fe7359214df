import Mathlib.Algebra.BigOperators.Fin
import Xv6.Checker.Addresses

/-!
# The counters of blocks

`checkBitmap` leaves in `addresses` how often a block is referred to, in counters of 32 bits, and
`checkUsedTimes` asks whether any of them is above 1.
-/

namespace Xv6.Checker

open Fs Check

variable {img : Image} {sb : Superblock} {ip : Dinode} {addresses : ℕ → Word} {b : ℕ}

/-! ## Places -/

/-- The place number `p.2` in inode `p.1`, which is in use, refers to block `b`. -/
def RefersAt (img : Image) (sb : Superblock) (b : ℕ) (p : ℕ × ℕ) : Prop :=
  ∃ ip, img.inode sb p.1 = some ip ∧ ip.type ≠ T_UNALLOC ∧ ∃ a, (img.places ip)[p.2]? = some a ∧
    a ≠ 0 ∧ a.toNat = b

open Classical in
/-- The places that refer to block `b`. -/
noncomputable def references (img : Image) (sb : Superblock) (b : ℕ) : Finset (ℕ × ℕ) :=
  (Finset.range sb.ninodes ×ˢ Finset.range (NDIRECT + 1 + NINDIRECT)).filter (RefersAt img sb b)

/-- The elements that satisfy a predicate, counted by their positions. -/
theorem sum_getElem? {α : Type} {p : α → Prop} [DecidablePred p] {l : List α}
    {n : ℕ} {q : ℕ → Prop} [DecidablePred q] (short : l.length ≤ n)
    (element : ∀ k, q k ↔ ∃ a, l[k]? = some a ∧ p a) :
    (∑ k ∈ Finset.range n, if q k then 1 else 0) = l.countP fun a => decide (p a) := by
  induction l generalizing n q with
  | nil => exact Finset.sum_eq_zero fun k _ =>
      if_neg fun holds => by simpa using (element k).mp holds
  | cons a l ih =>
      cases n with
      | zero => cases short
      | succ n =>
          rw [Finset.sum_range_succ', List.countP_cons, ih (Nat.le_of_succ_le_succ short) fun k =>
            element (k + 1)]
          refine congrArg _ (if_congr ((element 0).trans ?_) rfl rfl)
          simp

/-- An inode has no more places than an address can be in. -/
theorem length_places_le : (img.places ip).length ≤ NDIRECT + 1 + NINDIRECT := by
  have entries : (img.indirect ip).length ≤ NINDIRECT := by
    rw [Image.indirect]
    split
    · exact Nat.zero_le _
    · split
      · rw [entries, Bytes.getWords, List.length_map, List.length_range]
      · exact Nat.zero_le _
  rw [Image.places, List.length_append, List.length_cons, direct, List.length_map,
    List.length_range]
  omega

theorem count_numbers (as : List Word) :
    (numbers as).count b = as.countP fun a => decide (a ≠ 0 ∧ a.toNat = b) := by
  rw [numbers, List.count_eq_countP, List.countP_map, List.countP_filter]
  refine List.countP_congr fun a _ => ?_
  simp [and_comm]

open Classical in
/-- How many places of one inode refer to a block. -/
theorem sum_refersAt (i : ℕ) :
    (∑ k ∈ Finset.range (NDIRECT + 1 + NINDIRECT), if RefersAt img sb b (i, k) then 1 else 0) =
    (img.refsOf sb i).count b := by
  rw [Image.refsOf]
  rcases Option.eq_none_or_eq_some (img.inode sb i) with none | ⟨ip, found⟩
  · rw [none]
    refine Finset.sum_eq_zero fun k _ => if_neg ?_
    rintro ⟨ip, found, _⟩
    rw [none] at found
    cases found
  · rw [found]
    change _ = (if ip.type = T_UNALLOC then [] else img.refs ip).count b
    by_cases free : ip.type = T_UNALLOC
    · rw [if_pos free]
      refine Finset.sum_eq_zero fun k _ => if_neg ?_
      rintro ⟨ip', found', inUse, _⟩
      rw [found] at found'
      cases found'
      exact inUse free
    · rw [if_neg free, refs_eq, count_numbers]
      refine sum_getElem? length_places_le fun k => ?_
      constructor
      · rintro ⟨ip', found', _, place⟩
        rw [found] at found'
        cases found'
        exact place
      · exact fun place => ⟨ip, found, free, place⟩

theorem card_references : (references img sb b).card = (img.allRefs sb).count b := by
  rw [references, Finset.card_filter, Finset.sum_product, Image.allRefs, List.count_flatMap]
  simp only [sum_refersAt]
  rfl

/-! ## The verdict -/

/-- Two places in inodes in use refer to one block. -/
def DoublyUsed (img : Image) (sb : Superblock) : Prop :=
  ∃ b, ∃ p ∈ references img sb b, ∃ q ∈ references img sb b, p ≠ q

/-- The counters are those of the references, `checkUsedTimes` returns -1 just when a block is
referred to twice, and the counters that are used are in the array. -/
structure CountsExact (img : Image) (sb : Superblock) (addresses : ℕ → Word) : Prop where
  counts : ∀ b < sb.size, (addresses b).toNat = (references img sb b).card
  verdict : checkUsedTimes sb addresses = .error (fail []) ↔ DoublyUsed img sb
  inside : ∀ b, (references img sb b).Nonempty → b < sb.size

theorem doublyUsed_iff : DoublyUsed img sb ↔ ∃ b, 1 < (references img sb b).card :=
  exists_congr fun b => by rw [Finset.one_lt_card]

/-- The check fails if a counter is above one. -/
theorem checkUsedTimes_eq_error :
    checkUsedTimes sb addresses = .error (fail []) ↔ ∃ b < sb.size, 1 < addresses b := by
  have stops : Only (fun e => e = fail []) (checkUsedTimes sb addresses) :=
    only_forM fun b _ => only_failIf fun _ => rfl
  rw [stops.eq_error_iff]
  constructor
  · intro fails
    by_contra none
    refine fails () (checkUsedTimes_eq_ok.mpr fun b below => ?_)
    exact BitVec.not_lt.mp fun twice => none ⟨b, below, twice⟩
  · rintro ⟨b, below, twice⟩ u returned
    exact BitVec.not_lt.mpr (checkUsedTimes_eq_ok.mp returned b below) twice

/-- Every address that the address check lets through has its counter in the array. -/
theorem mem_allRefs_lt (super : img.super = some sb) (positive : 1 ≤ sb.size)
    (valid : checkValidAddr img sb = .ok ()) (mem : b ∈ img.allRefs sb) : b < sb.size := by
  have word := super_size_lt super
  have most : Superblock.maxinum sb = sb.size - 1 := by
    rw [Superblock.maxinum]
    omega
  have all : ∀ b ∈ img.allRefs sb, b < sb.size := by
    refine forall_allRefs.mpr fun i inRange ip found _ a place nonzero => ?_
    rcases checkValidAddr_eq_ok.mp valid i inRange with ⟨ip', found', low, _, high⟩
    rw [found] at found'
    cases found'
    have good := forall_places.mpr ⟨low, high⟩ a place
    rw [badAddr, most] at good
    by_contra outside
    exact good ⟨by omega, nonzero⟩
  exact all b mem

theorem references_nonempty : (references img sb b).Nonempty ↔ b ∈ img.allRefs sb := by
  rw [← Finset.card_pos, card_references, List.count_pos_iff]

/-- The counters are right as long as no block is referred to 2^32 times. -/
theorem counts_exact_iff_lt (super : img.super = some sb) (positive : 1 ≤ sb.size)
    (valid : checkValidAddr img sb = .ok ())
    (checked : checkBitmap img sb (fun _ => 0) = .ok addresses) :
    CountsExact img sb addresses ↔ ∀ b, (references img sb b).card < 2 ^ 32 := by
  have inside : ∀ b, (references img sb b).Nonempty → b < sb.size := fun b nonempty =>
    mem_allRefs_lt super positive valid (references_nonempty.mp nonempty)
  have value : ∀ b, (addresses b).toNat = (references img sb b).card % 2 ^ 32 := by
    intro b
    rw [(checkBitmap_eq_ok.mp checked).2, tally_apply, card_references]
    exact (congrArg BitVec.toNat (BitVec.zero_add _)).trans (BitVec.toNat_ofNat _ _)
  constructor
  · intro exact b
    by_cases below : b < sb.size
    · rw [← exact.counts b below]
      exact (addresses b).isLt
    · rw [Finset.not_nonempty_iff_eq_empty.mp fun nonempty => below (inside b nonempty)]
      decide
  · intro small
    have exact : ∀ b, (addresses b).toNat = (references img sb b).card := fun b => by
      rw [value, Nat.mod_eq_of_lt (small b)]
    refine ⟨fun b _ => exact b, ?_, inside⟩
    rw [checkUsedTimes_eq_error, doublyUsed_iff]
    constructor
    · rintro ⟨b, _, twice⟩
      refine ⟨b, ?_⟩
      rw [← exact]
      exact twice
    · rintro ⟨b, twice⟩
      refine ⟨b, inside b (Finset.card_pos.mp (Nat.zero_lt_of_lt twice)), ?_⟩
      rw [← exact] at twice
      exact twice

/-- The root directory is referred to once. -/
theorem counts_exact_rootOnly : ∃ addresses,
    checkBitmap rootOnly smallSb (fun _ => 0) = .ok addresses ∧
      CountsExact rootOnly smallSb addresses := by
  have valid : checkValidAddr rootOnly smallSb = .ok () := by decide +kernel
  have checks : (checkBitmap rootOnly smallSb fun _ => 0).toOption.isSome = true := by
    decide +kernel
  have refs : rootOnly.allRefs smallSb = [4] := by decide +kernel
  cases checked : checkBitmap rootOnly smallSb fun _ => 0 with
  | error e =>
      rw [checked] at checks
      cases checks
  | ok addresses =>
      refine ⟨addresses, rfl, (counts_exact_iff_lt (by decide +kernel)
        (by decide) valid checked).mpr fun b => ?_⟩
      rw [card_references, refs]
      exact lt_of_le_of_lt List.count_le_length (by decide)

/-! ## An image with too many references -/

/-- The superblock of an image with 2^25 inodes. -/
def heavySb : Superblock where
  size := 8
  nblocks := 4
  ninodes := 2 ^ 25
  nlog := 0
  logstart := 2
  inodestart := 8
  bmapstart := 2

/-- A file all of whose blocks are block 5. -/
def heavyInode : Dinode where
  type := T_FILE
  major := 0
  minor := 0
  nlink := 1
  size := 71680
  addrs := fun k => if k = 12 then 4 else 5

def heavyInodes : Block := (List.range IPB).foldl (fun data k => putDinode data k heavyInode)
      fun _ => 0

/-- All the inodes are this file. -/
def heavyImage : Image where
  count := 2 ^ 23
  blk := fun b =>
    if b = 1 then Bytes.putWords (fun _ => 0) 0 [8, 4, 2 ^ 25, 0, 2, 8, 2]
    else if b = 2 then fun _ => 0xff
    else if b = 4 then Bytes.putWords (fun _ => 0) 0 (List.replicate NINDIRECT 5)
    else if b < 8 then fun _ => 0
    else heavyInodes

/-- What the checks read of each of the inodes. -/
structure Heavy (ip : Dinode) : Prop where
  type : ip.type ≠ T_UNALLOC
  places : heavyImage.places ip = List.replicate NDIRECT 5 ++ 4 :: List.replicate NINDIRECT 5
  has : (heavyImage.sector (ip.addr NDIRECT).toNat).isSome
  indirect : indirectBlock ip = [4]
  data : heavyImage.dataBlocks ip = List.replicate (NDIRECT + NINDIRECT) 5

/-- Every inode of the block has the same 140 addresses. -/
theorem heavy_of_lt {k : ℕ} (inRange : k < IPB) : Heavy (getDinode heavyInodes k) := by
  have all : ∀ k ∈ List.range IPB, (getDinode heavyInodes k).type ≠ T_UNALLOC ∧
      heavyImage.places (getDinode heavyInodes k) = List.replicate NDIRECT 5 ++ 4 ::
        List.replicate NINDIRECT 5 ∧
      (heavyImage.sector ((getDinode heavyInodes k).addr NDIRECT).toNat).isSome ∧
      indirectBlock (getDinode heavyInodes k) = [4] ∧
      heavyImage.dataBlocks (getDinode heavyInodes k) = List.replicate (NDIRECT + NINDIRECT) 5 := by
    decide +kernel
  rcases all k (List.mem_range.mpr inRange) with ⟨type, places, has, indirect, data⟩
  exact ⟨type, places, has, indirect, data⟩

/-- Every inode of the image is of that kind. -/
theorem inode_heavyImage {i : ℕ} (inRange : i < heavySb.ninodes) :
    ∃ ip, heavyImage.inode heavySb i = some ip ∧ Heavy ip := by
  have block : heavySb.iblock i = i / 8 + 8 := rfl
  have few : i < 2 ^ 25 := inRange
  have sector : heavyImage.sector (heavySb.iblock i) = some heavyInodes := by
    rw [Image.sector, block]
    have offset : (i / 8 + 8) * BSIZE % 2 ^ 32 / BSIZE = i / 8 + 8 := by
      simp only [BSIZE]
      omega
    simp only [offset]
    rw [if_pos (by simp only [heavyImage]; omega), heavyImage]
    simp only
    rw [if_neg (by omega), if_neg (by omega), if_neg (by omega), if_neg (by omega)]
  refine ⟨getDinode heavyInodes (i % IPB), ?_, heavy_of_lt (Nat.mod_lt _ (by decide))⟩
  rw [Image.inode, sector]
  rfl

/-- Block 5 is referred to more often than a counter can tell. -/
theorem count_heavyImage : (heavyImage.allRefs heavySb).count 5 = 2 ^ 25 * 140 := by
  rw [Image.allRefs, List.count_flatMap]
  have each : ∀ i ∈ List.range heavySb.ninodes, (heavyImage.refsOf heavySb i).count 5 = 140 := by
    intro i mem
    rcases inode_heavyImage (List.mem_range.mp mem) with ⟨ip, found, heavy⟩
    rw [Image.refsOf, found]
    change (if ip.type = T_UNALLOC then [] else heavyImage.refs ip).count 5 = 140
    rw [if_neg heavy.type, refs_eq, heavy.places]
    decide +kernel
  have same : (List.range heavySb.ninodes).map (List.count 5 ∘ heavyImage.refsOf heavySb) =
      List.replicate heavySb.ninodes 140 := by
    refine List.eq_replicate_iff.mpr ⟨by rw [List.length_map, List.length_range], fun n mem => ?_⟩
    rcases List.mem_map.mp mem with ⟨i, inRange, rfl⟩
    exact each i inRange
  have ninodes : heavySb.ninodes = 2 ^ 25 := rfl
  rw [same, List.sum_replicate_nat, ninodes]

/-- Block 5 is referred to more than 2^32 times. -/
theorem not_counts_exact_heavyImage :
    ∃ addresses, heavyImage.super = some heavySb ∧ 1 ≤ heavySb.size ∧
    checkValidAddr heavyImage heavySb = .ok () ∧
      checkBitmap heavyImage heavySb (fun _ => 0) = .ok addresses ∧
    ¬CountsExact heavyImage heavySb addresses := by
  have super : heavyImage.super = some heavySb := by decide +kernel
  have valid : checkValidAddr heavyImage heavySb = .ok () := by
    refine (checkValidAddr_iff (by decide) (by decide)).mpr fun i inRange => ?_
    rcases inode_heavyImage inRange with ⟨ip, found, heavy⟩
    refine ⟨ip, found, fun _ => heavy.has, ?_⟩
    rw [heavy.places]
    intro a place _
    have value : a = 5 ∨ a = 4 := by
      rcases List.mem_append.mp place with low | high
      · exact .inl (List.eq_of_mem_replicate low)
      · rcases List.mem_cons.mp high with pointer | entry
        · exact .inr pointer
        · exact .inl (List.eq_of_mem_replicate entry)
    rcases value with rfl | rfl
    · exact ⟨by decide, by decide⟩
    · exact ⟨by decide, by decide⟩
  have marked : MarkedAt heavyImage heavySb 5 := ⟨by decide, by decide +kernel, by decide +kernel⟩
  have checked : checkBitmap heavyImage heavySb (fun _ => 0) =
      .ok (tally (heavyImage.allRefs heavySb) fun _ => 0) := by
    refine checkBitmap_eq_ok.mpr ⟨fun i inRange => ?_, rfl⟩
    rcases inode_heavyImage inRange with ⟨ip, found, heavy⟩
    refine ⟨ip, found, fun _ => ⟨fun _ => heavy.has, ?_, ?_⟩⟩
    · rw [heavy.indirect]
      decide
    · rw [heavy.data]
      intro b mem
      rw [List.eq_of_mem_replicate mem]
      exact marked
  refine ⟨_, super, by decide, valid, checked, fun exact => ?_⟩
  have few := (counts_exact_iff_lt super (by decide) valid checked).mp exact 5
  rw [card_references, count_heavyImage] at few
  norm_num at few

end Xv6.Checker
