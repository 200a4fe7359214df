import Xv6.Fs.Bmap

/-!
# Writing a range of a file

`cell` is the byte at an offset of a file, where it is allocated. `Written` says
how the disk and the family of inodes change when a range of one file is
written: the range holds the new bytes, no other byte of any file changes, and
the slots of a checksummed file that the range touches carry the checksum of
their blocks. Consecutive ranges compose.
-/

namespace Xv6.Fs

/-- The byte at offset `x`, if it is allocated. -/
def cell (blk : Disk) (ip : Dinode) (x : ℕ) : Option Byte :=
  if x / BSIZE < MAXFILE then
    (ref blk ip (x / BSIZE)).map fun b => Bytes.get (blk b) (x % BSIZE)
  else none

/-- The range of `m` bytes from `off` on touches block `k`. -/
def Touches (off m k : ℕ) : Prop :=
  ∃ x, off ≤ x ∧ x < off + m ∧ x / BSIZE = k

/-- Slot `k` carries the checksum of the block it refers to. -/
def Tagged (blk : Disk) (ip : Dinode) (k : ℕ) : Prop :=
  ∃ b, ref blk ip k = some b ∧ slot blk ip k = BitVec.ofNat 32 b + checksum (blk b) <<< 24

/-- The slots that `bmap` looks at for a range. -/
def span (off m : ℕ) : Finset ℕ :=
  ((Finset.Ico off (off + m)).image (· / BSIZE)).biUnion touched

theorem span_union (off m n : ℕ) : span off m ∪ span (off + m) n = span off (m + n) := by
  have ranges : Finset.Ico off (off + m) ∪ Finset.Ico (off + m) (off + m + n) =
      Finset.Ico off (off + m + n) :=
    Finset.Ico_union_Ico_eq_Ico (by omega) (by omega)
  rw [span, span, span, ← Nat.add_assoc, ← ranges, Finset.image_union, Finset.union_biUnion]

/-- A range inside one block needs the slots of that block. -/
theorem span_chunk {off m : ℕ} (nonempty : 0 < m) (inBlock : off % BSIZE + m ≤ BSIZE) :
    span off m = touched (off / BSIZE) := by
  have block : (Finset.Ico off (off + m)).image (· / BSIZE) = {off / BSIZE} := by
    ext k
    simp only [Finset.mem_image, Finset.mem_Ico, Finset.mem_singleton]
    simp only [BSIZE] at inBlock ⊢
    constructor
    · rintro ⟨x, inRange, rfl⟩
      omega
    · rintro rfl
      exact ⟨off, by omega, rfl⟩
  rw [span, block, Finset.singleton_biUnion]

/-- A range below `c` blocks touches these and the indirect block. -/
theorem span_subset {off n c : ℕ} (short : off + n ≤ c * BSIZE) :
    span off n ⊆ insert MAXFILE (Finset.range c) := by
  intro k mem
  simp only [span, Finset.mem_biUnion, Finset.mem_image, Finset.mem_Ico] at mem
  rcases mem with ⟨bn, ⟨x, inRange, rfl⟩, slotOf⟩
  have block : x / BSIZE ∈ insert MAXFILE (Finset.range c) := by
    refine Finset.mem_insert_of_mem (Finset.mem_range.mpr (Nat.div_lt_of_lt_mul ?_))
    rw [Nat.mul_comm]
    exact inRange.2.trans_le short
  rw [touched] at slotOf
  split at slotOf
  · rw [Finset.mem_singleton.mp slotOf]
    exact block
  · rcases Finset.mem_union.mp slotOf with indirect | direct
    · exact Finset.mem_insert.mpr (.inl (Finset.mem_singleton.mp indirect))
    · rw [Finset.mem_singleton.mp direct]
      exact block

theorem touches_chunk {off m k : ℕ} (nonempty : 0 < m) (inBlock : off % BSIZE + m ≤ BSIZE) :
    Touches off m k ↔ k = off / BSIZE := by
  simp only [Touches, BSIZE] at inBlock ⊢
  constructor
  · rintro ⟨x, lower, upper, rfl⟩
    omega
  · rintro rfl
    exact ⟨off, by omega, by omega, rfl⟩

theorem touches_add {off m n k : ℕ} :
    Touches off (m + n) k ↔ Touches off m k ∨ Touches (off + m) n k := by
  constructor
  · rintro ⟨x, lower, upper, index⟩
    rcases Nat.lt_or_ge x (off + m) with early | late
    · exact Or.inl ⟨x, lower, early, index⟩
    · exact Or.inr ⟨x, late, by omega, index⟩
  · rintro (⟨x, lower, upper, index⟩ | ⟨x, lower, upper, index⟩)
    · exact ⟨x, lower, by omega, index⟩
    · exact ⟨x, by omega, by omega, index⟩

variable {ι : Type}

/-! ## Changing one block or one slot -/

section Store

variable {sb : Superblock} {blk : Disk} {ips : ι → Inode} {i : ι} {k b : ℕ} {data : Block}
  (own : Owned sb blk ips) (refers : ref blk (ips i).toDinode k = some b)
include own refers

theorem marked_store {c : ℕ} (inside : c < sb.size) :
    marked sb (Function.update blk b data) c = marked sb blk c := by
  rw [marked, marked, Function.update_of_ne (own.ne_bblock refers inside).symm]

theorem low_store {c : ℕ} (below : c < sb.bmapstart) : Function.update blk b data c = blk c := by
  have high := (own.data i k b refers).1
  simp only [Superblock.dataStart, BPB, BSIZE] at high
  exact Function.update_of_ne (by omega) _ _

theorem slot_store (data : Block) (direct : k ≠ MAXFILE) (j : ι) (l : ℕ) :
    slot (Function.update blk b data) (ips j).toDinode l = slot blk (ips j).toDinode l := by
  apply slot_congr
  intro mapped
  apply Function.update_of_ne
  rintro rfl
  exact direct (own.distinct i k j MAXFILE _ refers (ref_maxfile blk mapped)).2

end Store

/-- Slot `k` of inode `i` has been set to `v`; nothing else changes. -/
structure Retagged (sb : Superblock) (blk blk' : Disk) (ips : ι → Inode) (i : ι) (ip' : Inode)
    (k : ℕ) (v : Word) : Prop where
  fields : ip' = { ips i with addrs := ip'.addrs }
  slots : ∀ l, slot blk' ip'.toDinode l = if l = k then v else slot blk (ips i).toDinode l
  others : ∀ j, j ≠ i → ∀ l, slot blk' (ips j).toDinode l = slot blk (ips j).toDinode l
  data : ∀ j l b, l ≠ MAXFILE → ref blk (ips j).toDinode l = some b → blk' b = blk b
  low : ∀ b < sb.bmapstart, blk' b = blk b
  marks : ∀ b < sb.size, marked sb blk' b = marked sb blk b

namespace Retagged

variable {sb : Superblock} {blk blk' : Disk} {ips : ι → Inode} {i : ι} {ip' : Inode} {k b : ℕ}
  {v : Word}

theorem refl : Retagged sb blk blk ips i (ips i) k (slot blk (ips i).toDinode k) where
  fields := rfl
  slots := by
    intro l
    split
    next same => rw [same]
    next => rfl
  others := fun _ _ _ => rfl
  data := fun _ _ _ _ _ => rfl
  low := fun _ _ => rfl
  marks := fun _ _ => rfl

theorem direct (direct : k < NDIRECT) : Retagged sb blk blk ips i ((ips i).setAddr k v) k v where
  fields := rfl
  slots := slot_setAddr_direct direct
  others := fun _ _ _ => rfl
  data := fun _ _ _ _ _ => rfl
  low := fun _ _ => rfl
  marks := fun _ _ => rfl

/-- An entry of the indirect block is replaced. -/
theorem indirect (own : Owned sb blk ips) (lower : NDIRECT ≤ k) (upper : k < MAXFILE)
    (mapped : (ips i).addr NDIRECT ≠ 0) :
    Retagged sb blk
      (Function.update blk ((ips i).addr NDIRECT).toNat
        (Bytes.putWord (blk ((ips i).addr NDIRECT).toNat) (4 * (k - NDIRECT)) v))
      ips i (ips i) k v := by
  have refers := ref_maxfile blk mapped
  refine ⟨rfl, ?_, ?_, ?_, fun _ below => low_store own refers below,
    fun _ inside => marked_store own refers inside⟩
  · intro l
    have index : k = NDIRECT + (k - NDIRECT) := by omega
    rw [slot_putWord blk mapped (e := k - NDIRECT)
      (by simp only [MAXFILE] at upper; omega) rfl (Function.update_self _ _ _), ← index]
  · intro j other l
    apply slot_congr
    intro mapped'
    apply Function.update_of_ne
    intro same
    have theirs := ref_maxfile blk mapped'
    rw [same] at theirs
    exact other (own.distinct j MAXFILE i MAXFILE _ theirs refers).1
  · intro j l c data refers'
    apply Function.update_of_ne
    rintro rfl
    exact data (own.distinct j l i MAXFILE _ refers' refers).2

variable [DecidableEq ι]

/-- A slot that still refers to the same block leaves the ownership as it was. -/
theorem ref_eq (done : Retagged sb blk blk' ips i ip' k v)
    (refers : ref blk (ips i).toDinode k = some b) (nonzero : v ≠ 0)
    (same : target (ips i).type k v = b) (j : ι) (l : ℕ) :
    ref blk' (Function.update ips i ip' j).toDinode l = ref blk (ips j).toDinode l := by
  by_cases self : j = i
  · subst self
    have type : ip'.type = (ips j).type := by rw [done.fields]
    rw [Function.update_self]
    by_cases atSlot : l = k
    · subst atSlot
      rw [refers, ref_eq_some, done.slots l, if_pos rfl, type]
      exact ⟨nonzero, same⟩
    · exact ref_congr type (by rw [done.slots l, if_neg atSlot])
  · rw [Function.update_of_ne self]
    exact ref_congr rfl (done.others j self l)

theorem owned (done : Retagged sb blk blk' ips i ip' k v) (own : Owned sb blk ips)
    (refers : ref blk (ips i).toDinode k = some b) (nonzero : v ≠ 0)
    (same : target (ips i).type k v = b) : Owned sb blk' (Function.update ips i ip') := by
  apply own.of_refs (done.ref_eq refers nonzero same) done.marks
  · exact update_congr Inode.inum (by rw [done.fields])
  · intro j k below
    rw [update_congr (fun ip => ip.size) (by rw [done.fields])] at below
    exact own.allocated j k below

end Retagged

/-- Slot `k` of inode `i` has been set to `v`, and its block to `data`. -/
structure Stored [DecidableEq ι] (sb : Superblock) (blk blk' : Disk) (ips : ι → Inode) (i : ι)
    (ip' : Inode) (k : ℕ) (v : Word) (data : Block) : Prop where
  owned : Owned sb blk' (Function.update ips i ip')
  fields : ip' = { ips i with addrs := ip'.addrs }
  slots : ∀ l, slot blk' ip'.toDinode l = if l = k then v else slot blk (ips i).toDinode l
  refs : ∀ l, ref blk' ip'.toDinode l = ref blk (ips i).toDinode l
  others : ∀ j, j ≠ i → ∀ l, slot blk' (ips j).toDinode l = slot blk (ips j).toDinode l
  stored : ∀ b, ref blk (ips i).toDinode k = some b → blk' b = data
  data : ∀ j l b, l ≠ MAXFILE → ¬(j = i ∧ l = k) → ref blk (ips j).toDinode l = some b →
    blk' b = blk b
  low : ∀ b < sb.bmapstart, blk' b = blk b
  free : free sb blk' = free sb blk

/-- The block itself is stored after its tag. -/
theorem Retagged.store [DecidableEq ι] {sb : Superblock} {blk blk' : Disk} {ips : ι → Inode} {i : ι}
    {ip' : Inode} {k b : ℕ} {v : Word} (done : Retagged sb blk blk' ips i ip' k v)
    (own : Owned sb blk ips) (direct : k ≠ MAXFILE) (refers : ref blk (ips i).toDinode k = some b)
    (nonzero : v ≠ 0) (same : target (ips i).type k v = b) (data : Block) :
    Stored sb blk (Function.update blk' b data) ips i ip' k v data := by
  have own' := done.owned own refers nonzero same
  have refs' := done.ref_eq refers nonzero same
  have self : Function.update ips i ip' i = ip' := Function.update_self _ _ _
  have refers' : ref blk' (Function.update ips i ip' i).toDinode k = some b := by
    rw [refs' i k, refers]
  have slots' := slot_store own' refers' data direct
  have slotSelf := slots' i
  rw [self] at slotSelf
  have marks : ∀ c < sb.size, marked sb (Function.update blk' b data) c = marked sb blk c := by
    intro c inside
    rw [marked_store own' refers' inside, done.marks c inside]
  refine ⟨?_, done.fields, ?_, ?_, ?_, ?_, ?_, ?_, ?_⟩
  · exact own'.of_refs (fun j l => ref_congr rfl (slots' j l))
      (fun c inside => marked_store own' refers' inside) (fun _ => rfl) own'.allocated
  · intro l
    rw [slotSelf l, done.slots l]
  · intro l
    have step := refs' i l
    rw [self] at step
    rw [ref_congr rfl (slotSelf l), step]
  · intro j other l
    have step := slots' j l
    rw [Function.update_of_ne other] at step
    rw [step, done.others j other l]
  · intro c refers''
    rw [refers] at refers''
    rw [← Option.some.inj refers'', Function.update_self]
  · intro j l c isData other refers''
    have distinct : c ≠ b := by
      rintro rfl
      exact other (own.distinct j l i k c refers'' refers)
    rw [Function.update_of_ne distinct, done.data j l c isData refers'']
  · intro c below
    rw [low_store own' refers' below, done.low c below]
  · ext c
    simp only [Fs.free, Finset.mem_filter, Finset.mem_range]
    constructor
    · rintro ⟨inside, clear⟩
      rw [marks c inside] at clear
      exact ⟨inside, clear⟩
    · rintro ⟨inside, clear⟩
      rw [marks c inside]
      exact ⟨inside, clear⟩

/-! ## Writing a range -/

variable [DecidableEq ι]

/-- `m` bytes from `src` have been written to inode `i` at `off`. -/
structure Written (sb : Superblock) (blk blk' : Disk) (ips : ι → Inode) (i : ι) (ip' : Inode)
    (off m : ℕ) (src : Mem) : Prop where
  owned : Owned sb blk' (Function.update ips i ip')
  fields : ip' = { ips i with addrs := ip'.addrs }
  empty : ∀ k, slot blk' ip'.toDinode k = 0 ↔
    slot blk (ips i).toDinode k = 0 ∧ k ∉ span off m
  refs : ∀ k b, ref blk (ips i).toDinode k = some b → ref blk' ip'.toDinode k = some b
  fresh : ∀ k b, slot blk (ips i).toDinode k = 0 → ref blk' ip'.toDinode k = some b →
    b ∈ free sb blk
  slots : ∀ k, slot blk (ips i).toDinode k ≠ 0 → (Touches off m k → (ips i).type ≠ T_CHECKED) →
    slot blk' ip'.toDinode k = slot blk (ips i).toDinode k
  others : ∀ j, j ≠ i → ∀ k, slot blk' (ips j).toDinode k = slot blk (ips j).toDinode k
  data : ∀ j k b, k ≠ MAXFILE → (j = i → ¬Touches off m k) →
    ref blk (ips j).toDinode k = some b → blk' b = blk b
  cells : ∀ x, off ≤ x → x < off + m → cell blk' ip'.toDinode x = some (src (x - off))
  kept : ∀ x v, x < off ∨ off + m ≤ x → cell blk (ips i).toDinode x = some v →
    cell blk' ip'.toDinode x = some v
  zero : ∀ x v, x < off ∨ off + m ≤ x → cell blk (ips i).toDinode x = none →
    cell blk' ip'.toDinode x = some v → v = 0
  tagged : (ips i).type = T_CHECKED → ∀ k, Touches off m k → Tagged blk' ip'.toDinode k
  low : ∀ b < sb.bmapstart, blk' b = blk b
  shrinks : free sb blk' ⊆ free sb blk
  count : (free sb blk).card =
    (free sb blk').card + (missing blk (ips i).toDinode (span off m)).card

namespace Written

variable {sb : Superblock} {blk blk' blk'' : Disk} {ips : ι → Inode} {i : ι} {ip' ip'' : Inode}
  {off m n : ℕ} {src : Mem}

theorem type_eq (done : Written sb blk blk' ips i ip' off m src) : ip'.type = (ips i).type := by
  rw [done.fields]

theorem size_eq (done : Written sb blk blk' ips i ip' off m src) : ip'.size = (ips i).size := by
  rw [done.fields]

theorem refl (own : Owned sb blk ips) : Written sb blk blk ips i (ips i) off 0 src where
  owned := by
    rw [Function.update_eq_self]
    exact own
  fields := rfl
  empty := by simp [span]
  refs := fun _ _ refers => refers
  fresh := by
    intro k b empty refers
    exact absurd empty (ref_eq_some.mp refers).1
  slots := fun _ _ _ => rfl
  others := fun _ _ _ => rfl
  data := fun _ _ _ _ _ _ => rfl
  cells := by
    intro x lower upper
    omega
  kept := fun _ _ _ value => value
  zero := by
    intro x v _ none value
    rw [none] at value
    cases value
  tagged := by
    rintro _ k ⟨x, lower, upper, _⟩
    omega
  low := fun _ _ => rfl
  shrinks := fun _ isFree => isFree
  count := by simp [span, missing]

theorem ref_update (done : Written sb blk blk' ips i ip' off m src) {j : ι} {k b : ℕ}
    (refers : ref blk (ips j).toDinode k = some b) :
    ref blk' (Function.update ips i ip' j).toDinode k = some b := by
  by_cases same : j = i
  · subst same
    rw [Function.update_self]
    exact done.refs k b refers
  · rw [Function.update_of_ne same, ref_congr rfl (done.others j same k)]
    exact refers

/-- What the first part has filled is not missing any more. -/
theorem card_missing (first : Written sb blk blk' ips i ip' off m src) (L : Finset ℕ) :
    (missing blk (ips i).toDinode (span off m ∪ L)).card =
      (missing blk (ips i).toDinode (span off m)).card + (missing blk' ip'.toDinode L).card := by
  have split : missing blk (ips i).toDinode (span off m ∪ L) =
      missing blk (ips i).toDinode (span off m) ∪ missing blk' ip'.toDinode L := by
    ext k
    simp only [missing, Finset.mem_filter, Finset.mem_union, first.empty k]
    tauto
  have disjoint : Disjoint (missing blk (ips i).toDinode (span off m))
      (missing blk' ip'.toDinode L) := by
    rw [Finset.disjoint_left]
    intro k early late
    simp only [missing, Finset.mem_filter, first.empty k] at early late
    exact late.2.2 early.1
  rw [split, Finset.card_union_of_disjoint disjoint]

/-- Only blocks below `MAXFILE` are written. -/
theorem touches_lt (done : Written sb blk blk' ips i ip' off m src) {k : ℕ}
    (touches : Touches off m k) : k < MAXFILE := by
  rcases touches with ⟨x, lower, upper, rfl⟩
  by_contra beyond
  have value := done.cells x lower upper
  rw [cell, if_neg beyond] at value
  cases value

theorem touches_mapped (done : Written sb blk blk' ips i ip' off m src) {k : ℕ}
    (touches : Touches off m k) : slot blk' ip'.toDinode k ≠ 0 := by
  rcases touches with ⟨x, lower, upper, rfl⟩
  intro empty
  have value := done.cells x lower upper
  rw [cell, ref_eq_none.mpr empty] at value
  simp at value

theorem trans (first : Written sb blk blk' ips i ip' off m src)
    (second : Written sb blk' blk'' (Function.update ips i ip') i ip'' (off + m) n
      fun j => src (m + j)) :
    Written sb blk blk'' ips i ip'' off (m + n) src := by
  have fields' := second.fields
  have empty' := second.empty
  have refs' := second.refs
  have fresh' := second.fresh
  have slots' := second.slots
  have kept' := second.kept
  have zero' := second.zero
  have tagged' := second.tagged
  have count' := second.count
  simp only [Function.update_self] at fields' empty' refs' fresh' slots' kept' zero' tagged' count'
  refine ⟨?_, ?_, ?_, ?_, ?_, ?_, ?_, ?_, ?_, ?_, ?_, ?_, ?_, ?_, ?_⟩
  · have owned := second.owned
    rwa [Function.update_idem] at owned
  · rw [fields', first.fields]
  · intro k
    rw [empty' k, first.empty k, ← span_union, Finset.notMem_union, and_assoc]
  · intro k b refers
    exact refs' k b (first.refs k b refers)
  · intro k b empty refers
    by_cases between : slot blk' ip'.toDinode k = 0
    · exact first.shrinks (fresh' k b between refers)
    · apply first.fresh k b empty
      have refers' := refs' k _ (ref_eq_some.mpr ⟨between, rfl⟩)
      rw [refers] at refers'
      rw [ref_eq_some]
      exact ⟨between, (Option.some.inj refers').symm⟩
  · intro k mapped safe
    have step := first.slots k mapped fun early => safe (touches_add.mpr (Or.inl early))
    rw [slots' k (by rw [step]; exact mapped), step]
    intro late
    rw [first.type_eq]
    exact safe (touches_add.mpr (Or.inr late))
  · intro j other k
    have step := second.others j other k
    rw [Function.update_of_ne other] at step
    rw [step, first.others j other k]
  · intro j k b direct untouched refers
    rw [second.data j k b direct ?_ (first.ref_update refers), first.data j k b direct ?_ refers]
    · intro same early
      exact untouched same (touches_add.mpr (Or.inl early))
    · intro same late
      exact untouched same (touches_add.mpr (Or.inr late))
  · intro x lower upper
    rcases Nat.lt_or_ge x (off + m) with early | late
    · exact kept' x _ (Or.inl early) (first.cells x lower early)
    · rw [second.cells x late (by omega)]
      congr 2
      omega
  · intro x v outside value
    exact kept' x v (by omega) (first.kept x v (by omega) value)
  · intro x v outside none value
    cases between : cell blk' ip'.toDinode x with
    | none => exact zero' x v (by omega) between value
    | some w =>
        have later := kept' x w (by omega) between
        rw [value] at later
        rw [Option.some.inj later]
        exact first.zero x w (by omega) none between
  · intro checked k touches
    by_cases late : Touches (off + m) n k
    · exact tagged' (first.type_eq.trans checked) k late
    · have early := (touches_add.mp touches).resolve_right late
      rcases first.tagged checked k early with ⟨b, refers, value⟩
      have mapped := (ref_eq_some.mp refers).1
      have inRange : k ≠ MAXFILE := (first.touches_lt early).ne
      refine ⟨b, refs' k b refers, ?_⟩
      rw [slots' k mapped fun impossible => absurd impossible late, value]
      have same := second.data i k b inRange (fun _ => late)
        (by rw [Function.update_self]; exact refers)
      rw [same]
  · intro b below
    rw [second.low b below, first.low b below]
  · exact second.shrinks.trans first.shrinks
  · rw [← span_union, first.card_missing, first.count, count']
    omega

/--
One iteration of `writei`: the slots of the block are filled, and then the block
and its tag are stored.
-/
theorem of_stored {ip₁ : Inode} {b : ℕ} {v : Word} {data : Block} (own : Owned sb blk ips)
    (inRange : off / BSIZE < MAXFILE) (nonempty : 0 < m) (inBlock : off % BSIZE + m ≤ BSIZE)
    (filled : Filled sb blk blk' ips i ip₁ (touched (off / BSIZE)))
    (refers : ref blk' ip₁.toDinode (off / BSIZE) = some b)
    (stored : Stored sb blk' blk'' (Function.update ips i ip₁) i ip' (off / BSIZE) v data)
    (plain : ip₁.type ≠ T_CHECKED → v = slot blk' ip₁.toDinode (off / BSIZE))
    (tag : ip₁.type = T_CHECKED → v = BitVec.ofNat 32 b + checksum data <<< 24)
    (moved : data = Bytes.move (blk' b) (off % BSIZE) m src) :
    Written sb blk blk'' ips i ip' off m src := by
  have fields' := stored.fields
  have slots' := stored.slots
  have refs' := stored.refs
  have stored' := stored.stored
  simp only [Function.update_self] at fields' slots' refs' stored'
  have type : ip₁.type = (ips i).type := filled.type_eq
  have nonzero : ∀ k, slot blk'' ip'.toDinode k = 0 ↔ slot blk' ip₁.toDinode k = 0 := by
    intro k
    rw [← ref_eq_none, refs' k, ref_eq_none]
  have direct : off / BSIZE ≠ MAXFILE := inRange.ne
  have touches := fun k => touches_chunk (k := k) nonempty inBlock
  -- The bytes of the other blocks, and those of this block outside the range.
  have kept : ∀ x, (x < off ∨ off + m ≤ x) → ∀ c, ref blk' ip₁.toDinode (x / BSIZE) = some c →
      x / BSIZE < MAXFILE → Bytes.get (blk'' c) (x % BSIZE) = Bytes.get (blk' c) (x % BSIZE) := by
    intro x outside c refers' inFile
    by_cases sameBlock : x / BSIZE = off / BSIZE
    · rw [sameBlock] at refers'
      rw [stored' c refers', moved]
      rw [refers] at refers'
      rw [← Option.some.inj refers']
      apply Bytes.get_move_of_outside
      simp only [BSIZE] at sameBlock inBlock ⊢
      omega
    · rw [stored.data i (x / BSIZE) c inFile.ne (fun both => sameBlock both.2)
        (by rw [Function.update_self]; exact refers')]
  refine ⟨?_, ?_, ?_, ?_, ?_, ?_, ?_, ?_, ?_, ?_, ?_, ?_, ?_, ?_, ?_⟩
  · have owned := stored.owned
    rwa [Function.update_idem] at owned
  · rw [fields', filled.fields]
  · intro k
    rw [nonzero k, span_chunk nonempty inBlock]
    constructor
    · intro empty
      exact ⟨filled.empty_before empty, fun mem => filled.filled k mem empty⟩
    · rintro ⟨empty, absent⟩
      by_contra mapped
      exact absent (filled.fresh k empty mapped).1
  · intro k c refers'
    rw [refs' k]
    exact filled.ref_kept refers'
  · intro k c empty refers'
    rw [refs' k] at refers'
    rcases filled.fresh k empty (ref_eq_some.mp refers').1 with ⟨_, d, isFree, value⟩
    have number := (ref_eq_some.mp refers').2
    rw [value, own.target_ofNat isFree] at number
    rwa [← number]
  · intro k mapped safe
    have step := filled.kept k mapped
    rw [slots' k]
    split
    next atSlot =>
      subst atSlot
      rw [plain (by rw [type]; exact safe ((touches _).mpr rfl)), step]
    next => exact step
  · intro j other k
    have step := stored.others j other k
    rw [Function.update_of_ne other] at step
    rw [step, filled.others j other k]
  · intro j k c isData untouched refers'
    have other : ¬(j = i ∧ k = off / BSIZE) := by
      rintro ⟨same, atSlot⟩
      exact untouched same ((touches k).mpr atSlot)
    rw [stored.data j k c isData other (filled.ref_update refers'),
      filled.data j k c isData refers']
  · intro x lower upper
    have sameBlock : x / BSIZE = off / BSIZE := by
      simp only [BSIZE] at inBlock ⊢
      omega
    rw [cell, sameBlock, if_pos inRange, refs', refers, Option.map_some, stored' b refers, moved,
      Bytes.get_move _ _ _ _ (Nat.mod_lt x (by decide)), if_pos ?_]
    · congr 2
      simp only [BSIZE] at sameBlock inBlock ⊢
      omega
    · simp only [BSIZE] at sameBlock inBlock ⊢
      omega
  · intro x w outside value
    rw [cell] at value ⊢
    split at value
    next inFile =>
      rcases Option.map_eq_some_iff.mp value with ⟨c, refers', byte⟩
      have refers'' := filled.ref_kept refers'
      rw [if_pos inFile, refs', refers'', Option.map_some, kept x outside c refers'' inFile,
        filled.data i _ c inFile.ne refers', byte]
    next => cases value
  · intro x w outside none value
    rw [cell] at none value
    split at value
    next inFile =>
      rw [if_pos inFile, Option.map_eq_none_iff] at none
      rcases Option.map_eq_some_iff.mp value with ⟨c, refers', byte⟩
      rw [refs'] at refers'
      rw [kept x outside c refers' inFile,
        filled.zeroed _ c inFile.ne (ref_eq_none.mp none) refers'] at byte
      rw [← byte, Bytes.get]
      split
      · rfl
      · rfl
    next => cases value
  · intro checked k touchesK
    rw [(touches k).mp touchesK]
    refine ⟨b, by rw [refs', refers], ?_⟩
    rw [slots', if_pos rfl, tag (type.trans checked), stored' b refers]
  · intro c below
    rw [stored.low c below, filled.low c below]
  · rw [stored.free]
    exact filled.shrinks
  · rw [stored.free, span_chunk nonempty inBlock]
    exact filled.count

end Written

end Xv6.Fs
