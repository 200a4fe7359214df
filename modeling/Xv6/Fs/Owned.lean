import Xv6.Fs.Alloc

/-!
# Ownership of blocks

An inode refers to its data blocks through numbered slots: the direct addresses
and the entries of the indirect block, under the index of the block they hold,
and the address of the indirect block itself, under `MAXFILE`. `Owned` says of a
family of inodes that what they refer to are data blocks, marked in the bitmap,
no two of them the same, and that every index below the size is allocated.

`Filled` describes how the family and the disk change when slots of one inode
are allocated; it composes, and `bmap` satisfies it.
-/

namespace Xv6.Fs

open Prog

/-- The contents of slot `k`. -/
def slot (blk : Disk) (ip : Dinode) (k : ℕ) : Word :=
  if k < NDIRECT then ip.addr k
  else if k < MAXFILE then
    if ip.addr NDIRECT = 0 then 0
    else Bytes.getWord (blk (ip.addr NDIRECT).toNat) (4 * (k - NDIRECT))
  else if k = MAXFILE then ip.addr NDIRECT
  else 0

/-- The block slot `k` refers to when it holds `w`; the indirect address carries no checksum. -/
def target (type : Half) (k : ℕ) (w : Word) : ℕ :=
  if k = MAXFILE then w.toNat else (mask type w).toNat

/-- The block slot `k` refers to, if it is allocated. -/
def ref (blk : Disk) (ip : Dinode) (k : ℕ) : Option ℕ :=
  if slot blk ip k = 0 then none else some (target ip.type k (slot blk ip k))

section Slots

variable {blk blk' : Disk} {ip : Dinode} {k : ℕ}

theorem slot_direct (blk : Disk) (direct : k < NDIRECT) : slot blk ip k = ip.addr k :=
  if_pos direct

theorem slot_maxfile : slot blk ip MAXFILE = ip.addr NDIRECT := by
  simp [slot]

theorem slot_entry (blk : Disk) (lower : NDIRECT ≤ k) (upper : k < MAXFILE)
    (mapped : ip.addr NDIRECT ≠ 0) :
    slot blk ip k = Bytes.getWord (blk (ip.addr NDIRECT).toNat) (4 * (k - NDIRECT)) := by
  rw [slot, if_neg (Nat.not_lt.mpr lower), if_pos upper, if_neg mapped]

theorem slot_unmapped (lower : NDIRECT ≤ k) (unmapped : ip.addr NDIRECT = 0) :
    slot blk ip k = 0 := by
  rw [slot, if_neg (Nat.not_lt.mpr lower)]
  simp [unmapped]

theorem slot_beyond (beyond : MAXFILE < k) : slot blk ip k = 0 := by
  simp only [slot, MAXFILE, NDIRECT] at beyond ⊢
  rw [if_neg (by omega), if_neg (by omega), if_neg (by omega)]

theorem slot_congr (same : ip.addr NDIRECT ≠ 0 →
    blk' (ip.addr NDIRECT).toNat = blk (ip.addr NDIRECT).toNat) (k : ℕ) :
    slot blk' ip k = slot blk ip k := by
  by_cases mapped : ip.addr NDIRECT = 0
  · simp [slot, mapped]
  · simp [slot, same mapped]

theorem ref_eq_some {b : ℕ} :
    ref blk ip k = some b ↔ slot blk ip k ≠ 0 ∧ target ip.type k (slot blk ip k) = b := by
  simp [ref]

theorem ref_maxfile (blk : Disk) (mapped : ip.addr NDIRECT ≠ 0) :
    ref blk ip MAXFILE = some (ip.addr NDIRECT).toNat := by
  rw [ref_eq_some, slot_maxfile]
  exact ⟨mapped, if_pos rfl⟩

theorem ref_eq_none : ref blk ip k = none ↔ slot blk ip k = 0 := by
  simp [ref]

theorem ref_congr {ip' : Dinode} (type : ip'.type = ip.type)
    (same : slot blk' ip' k = slot blk ip k) : ref blk' ip' k = ref blk ip k := by
  rw [ref, ref, same, type]

theorem addr_setAddr {ip : Inode} {i j : ℕ} {a : Word} (low : i ≤ NDIRECT) (low' : j ≤ NDIRECT) :
    (ip.setAddr i a).addr j = if j = i then a else ip.addr j := by
  have index : Fin.ofNat (NDIRECT + 1) j = Fin.ofNat (NDIRECT + 1) i ↔ j = i := by
    simp only [Fin.ext_iff, Fin.ofNat]
    rw [Nat.mod_eq_of_lt (by omega), Nat.mod_eq_of_lt (by omega)]
  simp only [Dinode.addr, Inode.setAddr, Function.update_apply, index]

theorem getWord_zero (off : ℕ) : Bytes.getWord (fun _ => 0 : Block) off = 0 := by
  have bytes : ∀ i, Bytes.get (fun _ => 0 : Block) i = 0 := by
    intro i
    simp [Bytes.get]
  simp only [Bytes.getWord, Bytes.getLE, bytes]
  rfl

theorem slot_setAddr_direct {ip : Inode} {a : ℕ} {w : Word} (direct : a < NDIRECT) (k : ℕ) :
    slot blk (ip.setAddr a w).toDinode k = if k = a then w else slot blk ip.toDinode k := by
  have indirect : (ip.setAddr a w).addr NDIRECT = ip.addr NDIRECT := by
    rw [addr_setAddr direct.le le_rfl, if_neg (by omega)]
  by_cases low : k < NDIRECT
  · rw [slot_direct _ low, slot_direct _ low, addr_setAddr direct.le low.le]
  · have other : k ≠ a := by omega
    rw [if_neg other]
    simp only [slot, if_neg low, indirect]

/-- Installing an indirect block of zeros allocates its own slot only. -/
theorem slot_setAddr_indirect {ip : Inode} {w : Word} (empty : ip.addr NDIRECT = 0) (new : w ≠ 0)
    (zeroed : blk' w.toNat = fun _ => 0) (k : ℕ) :
    slot blk' (ip.setAddr NDIRECT w).toDinode k =
      if k = MAXFILE then w else slot blk ip.toDinode k := by
  have indirect : (ip.setAddr NDIRECT w).addr NDIRECT = w := by
    rw [addr_setAddr le_rfl le_rfl, if_pos rfl]
  by_cases low : k < NDIRECT
  · rw [slot_direct _ low, slot_direct _ low, addr_setAddr le_rfl low.le, if_neg (by omega),
      if_neg (by simp only [MAXFILE]; omega)]
  · by_cases entry : k < MAXFILE
    · rw [slot_entry _ (Nat.not_lt.mp low) entry (by rw [indirect]; exact new), indirect, zeroed,
        if_neg (by omega), slot_unmapped (Nat.not_lt.mp low) empty]
      exact getWord_zero _
    · simp [slot, low, entry, indirect, empty]

/-- Changing one entry of the indirect block changes its slot only. -/
theorem slot_putWord (blk : Disk) {e : ℕ} {w : Word} {entries : Block}
    (mapped : ip.addr NDIRECT ≠ 0) (inRange : e < NINDIRECT)
    (same : blk (ip.addr NDIRECT).toNat = entries)
    (stored : blk' (ip.addr NDIRECT).toNat = Bytes.putWord entries (4 * e) w) (k : ℕ) :
    slot blk' ip k = if k = NDIRECT + e then w else slot blk ip k := by
  by_cases low : k < NDIRECT
  · rw [slot_direct _ low, slot_direct _ low, if_neg (by omega)]
  · by_cases entry : k < MAXFILE
    · rw [slot_entry _ (Nat.not_lt.mp low) entry mapped,
        slot_entry _ (Nat.not_lt.mp low) entry mapped,
        stored, same]
      simp only [NINDIRECT, BSIZE] at inRange
      by_cases atEntry : k = NDIRECT + e
      · rw [if_pos atEntry, atEntry, Nat.add_sub_cancel_left]
        exact Bytes.getWord_putWord (by simp only [BSIZE]; omega)
      · rw [if_neg atEntry]
        exact Bytes.getWord_putWord_of_disjoint (by omega)
    · have other : k ≠ NDIRECT + e := by
        simp only [MAXFILE] at entry
        omega
      rw [if_neg other]
      simp only [slot, if_neg low, if_neg entry]

end Slots

/-! ## The invariant -/

variable {ι : Type}

/-- The blocks of a family of inodes. -/
structure Owned (sb : Superblock) (blk : Disk) (ips : ι → Inode) : Prop where
  layout : Layout sb
  low : ∀ b < sb.dataStart, marked sb blk b = true
  inum : ∀ i, (ips i).inum < sb.ninodes
  data : ∀ i k b, ref blk (ips i).toDinode k = some b → sb.dataStart ≤ b ∧ b < sb.size
  used : ∀ i k b, ref blk (ips i).toDinode k = some b → marked sb blk b = true
  distinct : ∀ i k j l b, ref blk (ips i).toDinode k = some b →
    ref blk (ips j).toDinode l = some b → i = j ∧ k = l
  allocated : ∀ i k, k * BSIZE < (ips i).size.toNat →
    k < MAXFILE ∧ slot blk (ips i).toDinode k ≠ 0

/-- A field that the new inode shares with the old one is unchanged in the whole family. -/
theorem update_congr [DecidableEq ι] {α : Type} (f : Inode → α) {ips : ι → Inode} {i : ι}
    {ip' : Inode} (same : f ip' = f (ips i)) (j : ι) :
    f (Function.update ips i ip' j) = f (ips j) := by
  by_cases self : j = i
  · subst self
    rw [Function.update_self, same]
  · rw [Function.update_of_ne self]

namespace Owned

variable {sb : Superblock} {blk blk' : Disk} {ips ips' : ι → Inode} {i j : ι} {k l b c : ℕ}

theorem of_mem_free (own : Owned sb blk ips) (isFree : b ∈ free sb blk) :
    sb.dataStart ≤ b ∧ b < sb.size := by
  rcases Finset.mem_filter.mp isFree with ⟨inside, clear⟩
  refine ⟨?_, Finset.mem_range.mp inside⟩
  by_contra below
  rw [own.low b (by omega)] at clear
  cases clear

theorem ne_free (own : Owned sb blk ips) (refers : ref blk (ips i).toDinode k = some c)
    (isFree : b ∈ free sb blk) : c ≠ b := by
  rintro rfl
  have clear := (Finset.mem_filter.mp isFree).2
  rw [own.used i k c refers] at clear
  cases clear

theorem ne_bblock (own : Owned sb blk ips) (refers : ref blk (ips i).toDinode k = some c)
    (inside : b < sb.size) : c ≠ sb.bblock b := by
  have := (own.data i k c refers).1
  have := bblock_lt inside
  omega

theorem take_of_ref (own : Owned sb blk ips) (refers : ref blk (ips i).toDinode k = some c)
    (isFree : b ∈ free sb blk) : take sb blk b c = blk c :=
  take_of_ne (own.ne_free refers isFree) (own.ne_bblock refers (own.of_mem_free isFree).2)

theorem take_of_low (own : Owned sb blk ips) (isFree : b ∈ free sb blk) (below : c < sb.bmapstart) :
    take sb blk b c = blk c := by
  have lower := (own.of_mem_free isFree).1
  have := bmapstart_le_bblock sb b
  simp only [Superblock.dataStart, BPB, BSIZE] at lower
  exact take_of_ne (by omega) (by omega)

theorem slot_take (own : Owned sb blk ips) (isFree : b ∈ free sb blk) (i : ι) (k : ℕ) :
    slot (take sb blk b) (ips i).toDinode k = slot blk (ips i).toDinode k := by
  apply slot_congr
  intro mapped
  exact own.take_of_ref (ref_maxfile blk mapped) isFree

theorem toNat_ofNat (own : Owned sb blk ips) (isFree : b ∈ free sb blk) :
    (BitVec.ofNat 32 b).toNat = b := by
  have bound := (own.of_mem_free isFree).2
  have := own.layout.disk
  simp only [FSSIZE] at this
  rw [BitVec.toNat_ofNat, Nat.mod_eq_of_lt (by omega)]

theorem ofNat_ne_zero (own : Owned sb blk ips) (isFree : b ∈ free sb blk) :
    BitVec.ofNat 32 b ≠ 0 := by
  intro zero
  have value := own.toNat_ofNat isFree
  rw [zero] at value
  have positive := (own.of_mem_free isFree).1
  simp only [Superblock.dataStart, BPB, BSIZE] at positive
  have none : (0 : Word).toNat = 0 := rfl
  omega

/-- A fresh block number is its own address, with or without room for a checksum. -/
theorem target_ofNat (own : Owned sb blk ips) (isFree : b ∈ free sb blk) (type : Half) (k : ℕ) :
    target type k (BitVec.ofNat 32 b) = b := by
  have bound := (own.of_mem_free isFree).2
  have := own.layout.disk
  simp only [FSSIZE] at this
  have masked : (0x00ffffff &&& BitVec.ofNat 32 b).toNat = b := by
    rw [BitVec.toNat_and, own.toNat_ofNat isFree]
    have ones : (0x00ffffff : Word).toNat = 2 ^ 24 - 1 := by decide
    rw [ones, Nat.and_comm, Nat.and_two_pow_sub_one_eq_mod, Nat.mod_eq_of_lt (by omega)]
  simp only [target, mask]
  split
  · exact own.toNat_ofNat isFree
  · split
    · exact masked
    · exact own.toNat_ofNat isFree

/-- References may disappear. -/
theorem of_fewer (own : Owned sb blk ips)
    (refs : ∀ i k b, ref blk' (ips' i).toDinode k = some b → ref blk (ips i).toDinode k = some b)
    (low : ∀ b < sb.dataStart, marked sb blk' b = true)
    (used : ∀ i k b, ref blk' (ips' i).toDinode k = some b → marked sb blk' b = true)
    (inums : ∀ i, (ips' i).inum = (ips i).inum)
    (covered : ∀ i k, k * BSIZE < (ips' i).size.toNat →
      k < MAXFILE ∧ slot blk' (ips' i).toDinode k ≠ 0) :
    Owned sb blk' ips' where
  layout := own.layout
  low := low
  inum := by
    intro i
    rw [inums i]
    exact own.inum i
  data := fun i k b refers => own.data i k b (refs i k b refers)
  used := used
  distinct := fun i k j l b first second =>
    own.distinct i k j l b (refs i k b first) (refs j l b second)
  allocated := covered

/-- The invariant depends on the references and on the bitmap only. -/
theorem of_refs (own : Owned sb blk ips)
    (refs : ∀ i k, ref blk' (ips' i).toDinode k = ref blk (ips i).toDinode k)
    (marks : ∀ b < sb.size, marked sb blk' b = marked sb blk b)
    (inums : ∀ i, (ips' i).inum = (ips i).inum)
    (covered : ∀ i k, k * BSIZE < (ips' i).size.toNat →
      k < MAXFILE ∧ slot blk (ips i).toDinode k ≠ 0) :
    Owned sb blk' ips' := by
  refine own.of_fewer (fun i k b refers => (refs i k).symm.trans refers) ?_ ?_ inums ?_
  · intro b below
    rw [marks b (below.trans_le own.layout.bitmap), own.low b below]
  · intro i k b refers
    rw [refs i k] at refers
    rw [marks b (own.data i k b refers).2, own.used i k b refers]
  · intro i k below
    rcases covered i k below with ⟨inRange, mapped⟩
    refine ⟨inRange, ?_⟩
    rw [Ne, ← ref_eq_none, refs i k, ref_eq_none]
    exact mapped

/-- One slot that was empty comes to refer to a block that was free. -/
theorem link (own : Owned sb blk ips) (isFree : b ∈ free sb blk)
    (kept : ∀ j l, (j = i ∧ l = k) ∨ ref blk' (ips' j).toDinode l = ref blk (ips j).toDinode l)
    (new : ref blk' (ips' i).toDinode k = some b) (marks : ∀ c < sb.size,
      marked sb blk' c = (decide (c = b) || marked sb blk c))
    (empty : ref blk (ips i).toDinode k = none)
    (inums : ∀ i, (ips' i).inum = (ips i).inum) (sizes : ∀ i, (ips' i).size = (ips i).size) :
    Owned sb blk' ips' := by
  have cases_ref : ∀ j l c, ref blk' (ips' j).toDinode l = some c →
      (j = i ∧ l = k ∧ c = b) ∨ ref blk (ips j).toDinode l = some c := by
    intro j l c refers
    rcases kept j l with ⟨rfl, rfl⟩ | same
    · left
      rw [new] at refers
      exact ⟨rfl, rfl, (Option.some.inj refers).symm⟩
    · right
      rw [← same]
      exact refers
  refine ⟨own.layout, ?_, ?_, ?_, ?_, ?_, ?_⟩
  · intro c below
    rw [marks c (below.trans_le own.layout.bitmap), own.low c below, Bool.or_true]
  · intro j
    rw [inums j]
    exact own.inum j
  · intro j l c refers
    rcases cases_ref j l c refers with ⟨rfl, rfl, rfl⟩ | old
    · exact own.of_mem_free isFree
    · exact own.data j l c old
  · intro j l c refers
    rcases cases_ref j l c refers with ⟨rfl, rfl, rfl⟩ | old
    · rw [marks c (own.of_mem_free isFree).2, decide_eq_true rfl, Bool.true_or]
    · rw [marks c (own.data j l c old).2, own.used j l c old, Bool.or_true]
  · intro j l j' l' c first second
    rcases cases_ref j l c first with ⟨rfl, rfl, rfl⟩ | old
    · rcases cases_ref j' l' c second with ⟨rfl, rfl, _⟩ | old'
      · exact ⟨rfl, rfl⟩
      · exact absurd rfl (own.ne_free old' isFree)
    · rcases cases_ref j' l' c second with ⟨rfl, rfl, rfl⟩ | old'
      · exact absurd rfl (own.ne_free old isFree)
      · exact own.distinct j l j' l' c old old'
  · intro j l below
    rw [sizes j] at below
    rcases own.allocated j l below with ⟨inRange, mapped⟩
    refine ⟨inRange, ?_⟩
    rcases kept j l with ⟨rfl, rfl⟩ | same
    · exact absurd (ref_eq_none.mp empty) mapped
    · rw [Ne, ← ref_eq_none, same, ref_eq_none]
      exact mapped

end Owned

/-! ## An empty file system -/

/-- The superblock `mkfs` writes. -/
def Superblock.mkfs : Superblock where
  size := FSSIZE
  nblocks := 941
  ninodes := 200
  nlog := LOGSIZE
  logstart := 2
  inodestart := 32
  bmapstart := 58

/-- The disk of `mkfs` before any file is added: the metadata blocks are marked, 0 to 58. -/
def emptyDisk : Disk := fun b j =>
  if b = 58 then if j.val < 7 then 0xff else if j.val = 7 then 0x07 else 0 else 0

/-- An inode as `ialloc` leaves it. -/
def emptyInode (type : Half) (inum : ℕ) : Inode where
  type := type
  major := 0
  minor := 0
  nlink := 0
  size := 0
  addrs := fun _ => 0
  inum := inum

theorem layout_mkfs : Layout .mkfs := by
  constructor <;> decide

theorem ref_empty {blk : Disk} {ip : Dinode} (empty : ∀ k ≤ NDIRECT, ip.addr k = 0) (k : ℕ) :
    ref blk ip k = none := by
  rw [ref_eq_none]
  by_cases direct : k < NDIRECT
  · rw [slot_direct _ direct, empty k direct.le]
  · exact slot_unmapped (Nat.not_lt.mp direct) (empty NDIRECT le_rfl)

/-- Inodes that hold nothing own nothing. -/
theorem Owned.of_empty {sb : Superblock} {blk : Disk} {ips : ι → Inode} (layout : Layout sb)
    (low : ∀ b < sb.dataStart, marked sb blk b = true) (inum : ∀ i, (ips i).inum < sb.ninodes)
    (addrs : ∀ i, ∀ k ≤ NDIRECT, (ips i).addr k = 0) (sizes : ∀ i, (ips i).size = 0) :
    Owned sb blk ips := by
  have none : ∀ i k b, ref blk (ips i).toDinode k ≠ some b := by
    intro i k b refers
    rw [ref_empty (addrs i)] at refers
    cases refers
  refine ⟨layout, low, inum, ?_, ?_, ?_, ?_⟩
  · intro i k b refers
    exact absurd refers (none i k b)
  · intro i k b refers
    exact absurd refers (none i k b)
  · intro i k j l b refers
    exact absurd refers (none i k b)
  · intro i k below
    rw [sizes i] at below
    exact absurd below (Nat.not_lt_zero _)

theorem low_emptyDisk : ∀ b < Superblock.mkfs.dataStart, marked .mkfs emptyDisk b = true := by
  decide +kernel

/-! ## Allocating slots -/

variable [DecidableEq ι]

/-- The slots `K` of inode `i` are allocated where they were not; nothing else changes. -/
structure Filled (sb : Superblock) (blk blk' : Disk) (ips : ι → Inode) (i : ι) (ip' : Inode)
    (K : Finset ℕ) : Prop where
  owned : Owned sb blk' (Function.update ips i ip')
  fields : ip' = { ips i with addrs := ip'.addrs }
  filled : ∀ k ∈ K, slot blk' ip'.toDinode k ≠ 0
  kept : ∀ k, slot blk (ips i).toDinode k ≠ 0 →
    slot blk' ip'.toDinode k = slot blk (ips i).toDinode k
  fresh : ∀ k, slot blk (ips i).toDinode k = 0 → slot blk' ip'.toDinode k ≠ 0 →
    k ∈ K ∧ ∃ b ∈ free sb blk, slot blk' ip'.toDinode k = BitVec.ofNat 32 b
  others : ∀ j, j ≠ i → ∀ k, slot blk' (ips j).toDinode k = slot blk (ips j).toDinode k
  data : ∀ j k b, k ≠ MAXFILE → ref blk (ips j).toDinode k = some b → blk' b = blk b
  zeroed : ∀ k b, k ≠ MAXFILE → slot blk (ips i).toDinode k = 0 → ref blk' ip'.toDinode k = some b →
    blk' b = fun _ => 0
  low : ∀ b < sb.bmapstart, blk' b = blk b
  shrinks : free sb blk' ⊆ free sb blk
  count : (free sb blk).card =
    (free sb blk').card + (K.filter fun k => slot blk (ips i).toDinode k = 0).card

namespace Filled

variable {sb : Superblock} {blk blk' blk'' : Disk} {ips : ι → Inode} {i : ι} {ip' ip'' : Inode}
  {K L : Finset ℕ} {k b : ℕ}

theorem type_eq (done : Filled sb blk blk' ips i ip' K) : ip'.type = (ips i).type := by
  rw [done.fields]

theorem size_eq (done : Filled sb blk blk' ips i ip' K) : ip'.size = (ips i).size := by
  rw [done.fields]

/-- Slots that are allocated already need no change. -/
theorem refl (own : Owned sb blk ips) (mapped : ∀ k ∈ K, slot blk (ips i).toDinode k ≠ 0) :
    Filled sb blk blk ips i (ips i) K where
  owned := by
    rw [Function.update_eq_self]
    exact own
  fields := rfl
  filled := mapped
  kept := fun _ _ => rfl
  fresh := fun k empty allocated => absurd empty allocated
  others := fun _ _ _ => rfl
  data := fun _ _ _ _ _ => rfl
  zeroed := fun _ _ _ empty refers => absurd empty (ref_eq_some.mp refers).1
  low := fun _ _ => rfl
  shrinks := fun _ isFree => isFree
  count := by
    rw [Finset.filter_false_of_mem mapped, Finset.card_empty, Nat.add_zero]

theorem ref_kept (done : Filled sb blk blk' ips i ip' K)
    (refers : ref blk (ips i).toDinode k = some b) : ref blk' ip'.toDinode k = some b := by
  rw [ref_congr done.type_eq (done.kept k (ref_eq_some.mp refers).1)]
  exact refers

theorem ref_update (done : Filled sb blk blk' ips i ip' K) {j : ι}
    (refers : ref blk (ips j).toDinode k = some b) :
    ref blk' (Function.update ips i ip' j).toDinode k = some b := by
  by_cases same : j = i
  · subst same
    rw [Function.update_self]
    exact done.ref_kept refers
  · rw [Function.update_of_ne same, ref_congr rfl (done.others j same k)]
    exact refers

theorem empty_before (done : Filled sb blk blk' ips i ip' K)
    (empty : slot blk' ip'.toDinode k = 0) : slot blk (ips i).toDinode k = 0 := by
  by_contra mapped
  exact mapped ((done.kept k mapped).symm.trans empty)

/-- What is empty in `K ∪ L` before is empty in `K` before, or in `L` once `K` is filled. -/
theorem card_filter_union (first : Filled sb blk blk' ips i ip' K) (L : Finset ℕ) :
    ((K ∪ L).filter fun k => slot blk (ips i).toDinode k = 0).card =
      (K.filter fun k => slot blk (ips i).toDinode k = 0).card +
        (L.filter fun k => slot blk' ip'.toDinode k = 0).card := by
  have split : (K ∪ L).filter (fun k => slot blk (ips i).toDinode k = 0) =
      K.filter (fun k => slot blk (ips i).toDinode k = 0) ∪
        L.filter (fun k => slot blk' ip'.toDinode k = 0) := by
    ext k
    simp only [Finset.mem_filter, Finset.mem_union]
    constructor
    · rintro ⟨inEither, empty⟩
      by_cases inK : k ∈ K
      · exact Or.inl ⟨inK, empty⟩
      · refine Or.inr ⟨inEither.resolve_left inK, ?_⟩
        by_contra mapped
        exact inK (first.fresh k empty mapped).1
    · rintro (⟨inK, empty⟩ | ⟨inL, empty⟩)
      · exact ⟨Or.inl inK, empty⟩
      · exact ⟨Or.inr inL, first.empty_before empty⟩
  have disjoint : Disjoint (K.filter fun k => slot blk (ips i).toDinode k = 0)
      (L.filter fun k => slot blk' ip'.toDinode k = 0) := by
    rw [Finset.disjoint_left]
    intro k early late
    exact first.filled k (Finset.mem_filter.mp early).1 (Finset.mem_filter.mp late).2
  rw [split, Finset.card_union_of_disjoint disjoint]

theorem trans (first : Filled sb blk blk' ips i ip' K)
    (second : Filled sb blk' blk'' (Function.update ips i ip') i ip'' L) :
    Filled sb blk blk'' ips i ip'' (K ∪ L) := by
  have kept' := second.kept
  have fresh' := second.fresh
  have fields' := second.fields
  have zeroed' := second.zeroed
  have count' := second.count
  simp only [Function.update_self] at kept' fresh' fields' zeroed' count'
  refine ⟨?_, ?_, ?_, ?_, ?_, ?_, ?_, ?_, ?_, ?_, ?_⟩
  · have owned := second.owned
    rwa [Function.update_idem] at owned
  · rw [fields', first.fields]
  · intro k mem
    rcases Finset.mem_union.mp mem with early | late
    · rw [kept' k (first.filled k early)]
      exact first.filled k early
    · exact second.filled k late
  · intro k mapped
    have step := first.kept k mapped
    rw [kept' k (by rw [step]; exact mapped), step]
  · intro k empty mapped
    by_cases between : slot blk' ip'.toDinode k = 0
    · rcases fresh' k between mapped with ⟨mem, c, isFree, value⟩
      exact ⟨Finset.mem_union_right K mem, c, first.shrinks isFree, value⟩
    · rcases first.fresh k empty between with ⟨mem, c, isFree, value⟩
      exact ⟨Finset.mem_union_left L mem, c, isFree, by rw [kept' k between, value]⟩
  · intro j other k
    have step := second.others j other k
    rw [Function.update_of_ne other] at step
    rw [step, first.others j other k]
  · intro j k c direct refers
    rw [second.data j k c direct (first.ref_update refers), first.data j k c direct refers]
  · intro k c direct empty refers
    by_cases between : slot blk' ip'.toDinode k = 0
    · exact zeroed' k c direct between refers
    · have type : ip''.type = ip'.type := by rw [fields']
      have before : ref blk' ip'.toDinode k = some c := by
        rw [← ref_congr type (kept' k between)]
        exact refers
      rw [second.data i k c direct (by rw [Function.update_self]; exact before),
        first.zeroed k c direct empty before]
  · intro c below
    rw [second.low c below, first.low c below]
  · exact second.shrinks.trans first.shrinks
  · rw [first.card_filter_union, first.count, count']
    omega

/-- A free block is linked into one empty slot. -/
theorem of_slots (own : Owned sb blk ips) (isFree : b ∈ free sb blk)
    (empty : slot blk (ips i).toDinode k = 0) (fields : ip' = { ips i with addrs := ip'.addrs })
    (slots : ∀ l, slot blk' ip'.toDinode l =
      if l = k then BitVec.ofNat 32 b else slot blk (ips i).toDinode l)
    (others : ∀ j, j ≠ i → ∀ l, slot blk' (ips j).toDinode l = slot blk (ips j).toDinode l)
    (marks : ∀ c < sb.size, marked sb blk' c = (decide (c = b) || marked sb blk c))
    (data : ∀ j l c, l ≠ MAXFILE → ref blk (ips j).toDinode l = some c → blk' c = blk c)
    (zero : k ≠ MAXFILE → blk' b = fun _ => 0)
    (low : ∀ c < sb.bmapstart, blk' c = blk c) : Filled sb blk blk' ips i ip' {k} := by
  have shrunk := free_of_marks marks
  have type : ip'.type = (ips i).type := by rw [fields]
  have new : slot blk' ip'.toDinode k = BitVec.ofNat 32 b := by rw [slots k, if_pos rfl]
  refine ⟨?_, fields, ?_, ?_, ?_, others, data, ?_, low, ?_, ?_⟩
  · refine own.link (i := i) (k := k) isFree ?_ ?_ marks (ref_eq_none.mpr empty) ?_ ?_
    · intro j l
      by_cases same : j = i
      · subst same
        by_cases atSlot : l = k
        · exact Or.inl ⟨rfl, atSlot⟩
        · right
          rw [Function.update_self]
          exact ref_congr type (by rw [slots l, if_neg atSlot])
      · right
        rw [Function.update_of_ne same]
        exact ref_congr rfl (others j same l)
    · rw [Function.update_self, ref_eq_some, new]
      exact ⟨own.ofNat_ne_zero isFree, own.target_ofNat isFree _ _⟩
    · exact update_congr Inode.inum (by rw [fields])
    · exact update_congr (fun ip => ip.size) (by rw [fields])
  · intro l mem
    rw [Finset.mem_singleton.mp mem, new]
    exact own.ofNat_ne_zero isFree
  · intro l mapped
    have other : l ≠ k := by
      rintro rfl
      exact mapped empty
    rw [slots l, if_neg other]
  · intro l emptyL mapped
    by_cases atSlot : l = k
    · subst atSlot
      exact ⟨Finset.mem_singleton_self l, b, isFree, new⟩
    · rw [slots l, if_neg atSlot] at mapped
      exact absurd emptyL mapped
  · intro l c direct emptyL refers
    rcases ref_eq_some.mp refers with ⟨mapped, number⟩
    rw [slots l] at mapped number
    by_cases atSlot : l = k
    · rw [if_pos atSlot, own.target_ofNat isFree] at number
      rw [← number]
      exact zero (by rw [← atSlot]; exact direct)
    · rw [if_neg atSlot] at mapped
      exact absurd emptyL mapped
  · rw [shrunk]
    exact Finset.erase_subset b _
  · rw [shrunk, Finset.filter_true_of_mem (by simpa using empty), Finset.card_singleton,
      Finset.card_erase_of_mem isFree]
    have := Finset.card_pos.mpr ⟨b, isFree⟩
    omega

variable (own : Owned sb blk ips) (isFree : b ∈ free sb blk)
include own isFree

/-- `ip->addrs[bn] = balloc(ip->dev)`. -/
theorem setAddr_direct {bn : ℕ} (direct : bn < NDIRECT) (empty : (ips i).addr bn = 0) :
    Filled sb blk (take sb blk b) ips i ((ips i).setAddr bn (BitVec.ofNat 32 b)) {bn} := by
  rcases own.of_mem_free isFree with ⟨lower, upper⟩
  refine of_slots own isFree (by rw [slot_direct _ direct, empty]) rfl ?_
    (fun j _ l => own.slot_take isFree j l) (fun c inside => marked_take lower upper inside)
    (fun j l c _ refers => own.take_of_ref refers isFree) (fun _ => take_self)
    (fun c below => own.take_of_low isFree below)
  intro l
  rw [slot_setAddr_direct direct, own.slot_take isFree]

/-- `ip->addrs[NDIRECT] = balloc(ip->dev)`. -/
theorem setAddr_indirect (empty : (ips i).addr NDIRECT = 0) :
    Filled sb blk (take sb blk b) ips i ((ips i).setAddr NDIRECT (BitVec.ofNat 32 b))
      {MAXFILE} := by
  rcases own.of_mem_free isFree with ⟨lower, upper⟩
  refine of_slots own isFree (by rw [slot_maxfile, empty]) rfl ?_
    (fun j _ l => own.slot_take isFree j l) (fun c inside => marked_take lower upper inside)
    (fun j l c _ refers => own.take_of_ref refers isFree) (fun _ => take_self)
    (fun c below => own.take_of_low isFree below)
  intro l
  apply slot_setAddr_indirect empty (own.ofNat_ne_zero isFree)
  rw [own.toNat_ofNat isFree, take_self]

/-- `a[bn] = balloc(ip->dev)`, for the entry of slot `k`. -/
theorem putWord (lower : NDIRECT ≤ k) (upper : k < MAXFILE) (mapped : (ips i).addr NDIRECT ≠ 0)
    (empty : slot blk (ips i).toDinode k = 0) :
    Filled sb blk
      (Function.update (take sb blk b) ((ips i).addr NDIRECT).toNat
        (Bytes.putWord (blk ((ips i).addr NDIRECT).toNat) (4 * (k - NDIRECT)) (BitVec.ofNat 32 b)))
      ips i (ips i) {k} := by
  rcases own.of_mem_free isFree with ⟨dataLower, dataUpper⟩
  have indirect := ref_maxfile blk mapped
  refine of_slots own isFree empty rfl ?_ ?_ ?_ ?_ (fun _ => ?_) ?_
  · intro l
    have index : k = NDIRECT + (k - NDIRECT) := by omega
    rw [slot_putWord (take sb blk b) mapped (e := k - NDIRECT)
      (by simp only [MAXFILE] at upper; omega) (own.take_of_ref indirect isFree)
      (Function.update_self _ _ _), own.slot_take isFree, ← index]
  · intro j other l
    rw [← own.slot_take isFree j l]
    apply slot_congr
    intro mapped'
    apply Function.update_of_ne
    intro same
    have theirs := ref_maxfile blk mapped'
    rw [same] at theirs
    exact other (own.distinct j MAXFILE i MAXFILE _ theirs indirect).1
  · intro c inside
    have unmapped : sb.bblock c ≠ ((ips i).addr NDIRECT).toNat :=
      (own.ne_bblock indirect inside).symm
    rw [← marked_take dataLower dataUpper inside, marked, Function.update_of_ne unmapped, marked]
  · intro j l c data refers
    have distinct : c ≠ ((ips i).addr NDIRECT).toNat := by
      rintro rfl
      exact data (own.distinct j l i MAXFILE _ refers indirect).2
    rw [Function.update_of_ne distinct, own.take_of_ref refers isFree]
  · rw [Function.update_of_ne (own.ne_free indirect isFree).symm, take_self]
  · intro c below
    have high := (own.data i MAXFILE _ indirect).1
    simp only [Superblock.dataStart, BPB, BSIZE] at high
    rw [Function.update_of_ne (by omega), own.take_of_low isFree below]

end Filled

end Xv6.Fs
