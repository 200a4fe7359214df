import Xv6.Fs.Readback

/-!
# File status

`stati` of part2's `fs.c` adds to the status of a checksummed file the exclusive-or of the tags
of its blocks, which is the one of the bytes of the file: a block holds zeros behind the end. For
the tags behind the indirect block it looks in `ip->addrs[NINDIRECT]`, which there is not.
-/

namespace Xv6.Fs

open Prog

/-- `struct stat`. -/
structure Stat where
  type : Half
  dev : Word
  ino : ℕ
  nlink : Half
  size : Word
  checksum : Byte

/-- How `stati` ends when it does not return. -/
inductive StatStop where
  | fs (e : Panic)
  /-- An access outside `ip->addrs`. -/
  | bounds

abbrev StatM := Prog St StatStop

def onSt {α : Type} (m : FsM α) : StatM α := zoom id (fun _ s => s) .fs m

/-- `ip->addrs[i]`, for any index. -/
def loadAddrs (ip : Inode) (i : ℕ) : StatM Word :=
  if i ≤ NDIRECT then return ip.addr i else throw .bounds

/-- The loops `checksum ^= (a >> 24) & 0xff`. -/
def xorTags (sum : Word) (as : List Word) :
    Word := as.foldl (fun sum a : Word => sum ^^^ (a >>> 24 &&& 0xff)) sum

/-- The status of an inode on device `dev`, over what `*st` holds before. -/
def stati (dev : Word) (ip : Inode) (st : Stat) : StatM Stat := do
  let st := { st with dev := dev, ino := ip.inum, type := ip.type, nlink := ip.nlink, size :=
    ip.size }
  if ip.type = T_CHECKED then
    let sum := xorTags 0 ((List.range NDIRECT).map ip.addr)
    if ip.addr NDIRECT ≠ 0 then
      -- The index of the indirect block is `NDIRECT`.
      let indirect ← loadAddrs ip NINDIRECT
      let data ← onSt (bread indirect.toNat)
      onSt (brelse indirect.toNat)
      return { st with checksum := (xorTags sum (Bytes.getWords data 0 NINDIRECT)).setWidth 8 }
    else return { st with checksum := sum.setWidth 8 }
  else return st

/-! ## The exclusive-or of a list -/

/-- The exclusive-or of bytes. -/
def xorAll (bytes : List Byte) : Byte := bytes.foldl (· ^^^ ·) 0

theorem zero_xor (byte : Byte) : 0 ^^^ byte = byte := BitVec.zero_xor

theorem foldl_xor (bytes : List Byte) (sum : Byte) :
    bytes.foldl (· ^^^ ·) sum = sum ^^^ xorAll bytes := by
  induction bytes generalizing sum with
  | nil => exact (BitVec.xor_zero ..).symm
  | cons byte bytes ih =>
      rw [xorAll, List.foldl_cons, List.foldl_cons, ih, ih (0 ^^^ byte), zero_xor, BitVec.xor_assoc]

theorem xorAll_cons (byte : Byte) (bytes : List Byte) :
    xorAll (byte :: bytes) = byte ^^^ xorAll bytes := by
  rw [xorAll, List.foldl_cons, foldl_xor, zero_xor]

theorem xorAll_append (bytes bytes' : List Byte) :
    xorAll (bytes ++ bytes') = xorAll bytes ^^^ xorAll bytes' := by
  rw [xorAll, List.foldl_append, foldl_xor]
  rfl

theorem xorAll_eq_zero {bytes : List Byte} (zeros : ∀ byte ∈ bytes, byte = 0) :
    xorAll bytes = 0 := by
  induction bytes with
  | nil => rfl
  | cons byte bytes ih =>
      rcases List.forall_mem_cons.mp zeros with ⟨first, rest⟩
      rw [xorAll_cons, first, ih rest]
      rfl

/-- Blocks of `B` bytes. -/
theorem xorAll_blocks (f : ℕ → Byte) (B n : ℕ) :
    xorAll ((List.range (n * B)).map f) =
      xorAll ((List.range n).map fun k => xorAll ((List.range B).map fun j => f (k * B + j))) := by
  induction n with
  | zero => rw [Nat.zero_mul]; rfl
  | succ n ih =>
      rw [Nat.succ_mul, List.range_add, List.map_append, xorAll_append, ih, List.range_succ,
        List.map_append,
        xorAll_append, List.map_map]
      refine congrArg _ ?_
      rw [List.map_singleton, xorAll_cons, xorAll, xorAll]
      exact (BitVec.xor_zero ..).symm

theorem xorBytes_eq (data : Block) :
    xorBytes data = xorAll ((List.range BSIZE).map (Bytes.get data)) := by
  rw [xorBytes, xorAll, List.foldl_map]

/-! ## What a file holds behind its end -/

/-- The allocated bytes behind the end are zero, and there is an indirect block only if there are
more than `NDIRECT` blocks. -/
structure Padded (blk : Disk) (ip : Inode) : Prop where
  zero : ∀ x v, ip.size.toNat ≤ x → cell blk ip.toDinode x = some v → v = 0
  indirect : ip.addr NDIRECT ≠ 0 → NDIRECT * BSIZE < ip.size.toNat

theorem Padded.of_empty {blk : Disk} {ip : Inode} (addrs : ∀ k ≤ NDIRECT, ip.addr k = 0) :
    Padded blk ip where
  zero := by
    intro x v _ value
    rw [cell, ref_empty addrs] at value
    split at value
    · cases value
    · cases value
  indirect := fun mapped => absurd (addrs NDIRECT le_rfl) mapped

/-- A range that needs the indirect block reaches beyond the direct ones. -/
theorem lt_of_maxfile_mem_span {off n : ℕ} (mem : MAXFILE ∈ span off n) :
    NDIRECT * BSIZE < off + n := by
  simp only [span, Finset.mem_biUnion, Finset.mem_image, Finset.mem_Ico] at mem
  rcases mem with ⟨bn, ⟨x, inRange, rfl⟩, slotOf⟩
  rw [touched] at slotOf
  split at slotOf
  next direct =>
    have := Finset.mem_singleton.mp slotOf
    simp only [MAXFILE] at this
    omega
  next indirect =>
    simp only [NDIRECT, BSIZE] at *
    omega

/-- Behind the end of the file its last block stays zero. -/
theorem Written.padded {sb : Superblock} {blk blk' : Disk} {ip ip' : Inode} {off n : ℕ} {src : Mem}
    (done : Written sb blk blk' (single ip) () ip' off n src) (padded : Padded blk ip)
    (short : off + n ≤ MAXFILE * BSIZE) :
    Padded (flush sb blk' ip' (off + n)) (extend ip' (off + n)) := by
  have size : (extend ip' (off + n)).size.toNat = max ip.size.toNat (off + n) := by
    rw [size_extend short, done.size_eq]
  have cells := done.cell_flush (off + n) ()
  have slots := done.slot_flush (off + n) ()
  rw [update_single, update_single] at cells slots
  refine ⟨fun x v behind value => ?_, fun mapped => ?_⟩
  · rw [size] at behind
    rw [cells] at value
    cases before : cell blk ip.toDinode x with
    | none => exact done.zero x v (.inr (by omega)) before value
    | some w =>
        have same := done.kept x w (.inr (by omega)) before
        rw [value] at same
        rw [Option.some.inj same]
        exact padded.zero x w (by omega) before
  · rw [size]
    have indirect : slot (flush sb blk' ip' (off + n)) (extend ip' (off + n)).toDinode MAXFILE =
        _ := slot_maxfile
    rw [← indirect, slots] at mapped
    by_cases before : ip.addr NDIRECT = 0
    · have inSpan : MAXFILE ∈ span off n := by
        by_contra absent
        refine mapped ((done.empty MAXFILE).mpr ⟨?_, absent⟩)
        rw [slot_maxfile]
        exact before
      have := lt_of_maxfile_mem_span inSpan
      omega
    · have := padded.indirect before
      omega

/-- `writei` keeps the padding. -/
theorem writei_padded {dev : Devsw} {s : St} {ip : Inode} (checked : Checked s.sb s.blk ip)
    (padded : Padded s.blk ip) (w : Write) :
    Meets (writei dev ip w.src w.off w.n) s (fun _ => True) fun r s' => Padded s'.blk r.2 := by
  have notDev : ip.type ≠ T_DEV := by
    rw [checked.type]
    decide
  by_cases rejected : rejects ip.size.toNat w.off.toNat w.n.toNat
  · exact meets_ok (writei_of_rejects notDev rejected) padded
  · refine writei_meets (i := ()) rfl checked.owned notDev rejected (fun _ => trivial)
      fun ip' blk' calls done => ?_
    simp only [rejects, not_or, Nat.not_lt, Nat.not_le] at rejected
    exact done.padded padded rejected.2.2

theorem runWrites_padded {dev : Devsw} {ws : List Write} {s s' : St} {ip ip' : Inode}
    (checked : Checked s.sb s.blk ip) (padded : Padded s.blk ip)
    (run : runWrites dev ws ip s = .ok (ip', s')) :
    Padded s'.blk ip' := by
  induction ws generalizing s ip with
  | nil =>
      cases run
      exact padded
  | cons w ws ih =>
      rcases ok_of_bind run with ⟨r, s₁, first, rest⟩
      exact ih ((writei_checked checked w).of_ok first).1
        ((writei_padded checked padded w).of_ok first) rest

/-! ## The checksum of a file -/

section Sum

variable {sb : Superblock} {blk : Disk} {ip : Inode}

/-- The bytes of block `k` of a file. -/
def blockBytes (blk : Disk) (ip : Inode) (k : ℕ) : List Byte :=
  (List.range BSIZE).map fun j => byteAt blk ip.toDinode (k * BSIZE + j)

/-- A tag is the exclusive-or of its block, also where there is none. -/
theorem Checked.tag_direct (checked : Checked sb blk ip) {k : ℕ} (direct : k < NDIRECT) :
    ip.addr k >>> 24 &&& 0xff = (xorAll (blockBytes blk ip k)).setWidth 32 := by
  have inFile : k < MAXFILE := by
    simp only [MAXFILE] at *
    omega
  have byte : ∀ j < BSIZE, (k * BSIZE + j) / BSIZE = k ∧ (k * BSIZE + j) % BSIZE = j := by
    intro j inBlock
    simp only [BSIZE] at *
    omega
  rw [← slot_direct blk direct]
  by_cases below : k * BSIZE < ip.size.toNat
  · have mapped := (checked.owned.allocated () k below).2
    have refers := ref_eq_some.mpr ⟨mapped, rfl⟩
    rcases checked.tag_eq below refers with ⟨value, small⟩
    have mask : ∀ x : Byte, x.setWidth 32 &&& 0xff = x.setWidth 32 := by decide
    rw [value, shift_tagged small, mask, xorBytes_eq, blockBytes]
    refine congrArg (fun bytes => (xorAll bytes).setWidth 32) (List.map_congr_left fun j mem => ?_)
    rcases byte j (List.mem_range.mp mem) with ⟨index, off⟩
    rw [byteAt, cell, index, off, if_pos inFile, refers, Option.map_some, Option.getD_some]
  · have empty : slot blk ip.toDinode k = 0 := by
      by_contra mapped
      exact below (checked.tight k inFile mapped)
    have zeros : xorAll (blockBytes blk ip k) = 0 := by
      refine xorAll_eq_zero fun v mem => ?_
      rcases List.mem_map.mp mem with ⟨j, inBlock, rfl⟩
      rcases byte j (List.mem_range.mp inBlock) with ⟨index, _⟩
      rw [byteAt, cell, index, if_pos inFile, ref_eq_none.mpr empty]
      rfl
    rw [empty, zeros]
    rfl

/-- The sum of the tags is the tag of the sums. -/
theorem xorTags_map (f : ℕ → Byte) (ks : List ℕ) (sum : Byte) (addr : ℕ → Word)
    (tags : ∀ k ∈ ks, addr k >>> 24 &&& 0xff = (f k).setWidth 32) :
    xorTags (sum.setWidth 32) (ks.map addr) = (sum ^^^ xorAll (ks.map f)).setWidth 32 := by
  induction ks generalizing sum with
  | nil => exact congrArg _ (BitVec.xor_zero ..).symm
  | cons k ks ih =>
      rcases List.forall_mem_cons.mp tags with ⟨first, rest⟩
      have step : xorTags (sum.setWidth 32) ((k :: ks).map addr) =
          xorTags ((sum ^^^ f k).setWidth 32) (ks.map addr) := by
        rw [BitVec.setWidth_xor, ← first]
        rfl
      rw [step, ih _ rest, List.map_cons, xorAll_cons, BitVec.xor_assoc]

/-- The tags of the direct blocks together are the exclusive-or of the bytes of a file that has no
others. -/
theorem Checked.xorTags_direct (checked : Checked sb blk ip) (padded : Padded blk ip)
    (small : ip.size.toNat ≤ NDIRECT * BSIZE) :
    xorTags 0 ((List.range NDIRECT).map ip.addr) =
      (xorAll (contents blk ip.toDinode)).setWidth 32 := by
  have tags := xorTags_map (fun k => xorAll (blockBytes blk ip k)) (List.range NDIRECT) 0 ip.addr
    fun k mem => checked.tag_direct (List.mem_range.mp mem)
  refine tags.trans (congrArg _ ?_)
  rw [zero_xor]
  refine (xorAll_blocks (byteAt blk ip.toDinode) BSIZE NDIRECT).symm.trans ?_
  obtain ⟨rest, total⟩ := Nat.exists_eq_add_of_le small
  rw [total, List.range_add, List.map_append, xorAll_append]
  have zeros : xorAll (((List.range rest).map (ip.size.toNat + ·)).map (byteAt blk ip.toDinode)) =
      0 := by
    refine xorAll_eq_zero fun v mem => ?_
    simp only [List.map_map, List.mem_map, Function.comp_apply] at mem
    rcases mem with ⟨j, _, rfl⟩
    rw [byteAt]
    cases value : cell blk ip.toDinode (ip.size.toNat + j) with
    | none => rfl
    | some v => exact padded.zero _ v (Nat.le_add_right _ _) value
  rw [zeros]
  exact BitVec.xor_zero ..

end Sum

/-! ## The status of a file -/

/-- `stati` returns, so that it stays within `ip->addrs`, and its checksum is that of the file. -/
def Reports (dev : Word) (s : St) (ip : Inode) (file : List Byte) : Prop :=
  ∀ st, ∃ st' s', stati dev ip st s = .ok (st', s') ∧ st'.checksum = xorAll file

theorem stati_unmapped {dev : Word} {s : St} {ip : Inode} {st : Stat} (type : ip.type = T_CHECKED)
    (unmapped : ip.addr NDIRECT = 0) : stati dev ip st s =
      .ok (⟨ip.type, dev, ip.inum, ip.nlink, ip.size,
        (xorTags 0 ((List.range NDIRECT).map ip.addr)).setWidth 8⟩, s) := by
  rw [stati, if_pos type, if_neg (not_not.mpr unmapped)]
  rfl

/-- The checksum is that of the file as long as there is no indirect block; else `stati` looks
outside `ip->addrs`. -/
theorem reports_iff_short {dev : Devsw} {device : Word} {ws : List Write} {s s' : St}
    {ip ip' : Inode} (layout : Layout s.sb) (low : ∀ b < s.sb.dataStart, marked s.sb s.blk b = true)
    (inum : ip.inum < s.sb.ninodes) (type : ip.type = T_CHECKED)
    (addrs : ∀ k ≤ NDIRECT, ip.addr k = 0) (size : ip.size = 0)
    (run : runWrites dev ws ip s = .ok (ip', s')) :
    Reports device s' ip' (specWrites ws []) ↔ (specWrites ws []).length ≤ NDIRECT * BSIZE := by
  have start := Checked.of_empty layout low inum type addrs size
  have checked := (runWrites_checked start run).1
  have padded := runWrites_padded start (Padded.of_empty addrs) run
  have file := runWrites_contents start run
  have nothing : contents s.blk ip.toDinode = [] := by
    rw [contents, size]
    rfl
  rw [nothing] at file
  rw [← file, length_contents]
  constructor
  · intro reports
    by_contra long
    have mapped : ip'.addr NDIRECT ≠ 0 :=
      indirect_mapped le_rfl (checked.owned.allocated () NDIRECT (Nat.lt_of_not_le long)).2
    rcases reports ⟨0, 0, 0, 0, 0, 0⟩ with ⟨st, s'', returned, _⟩
    rw [stati, if_pos checked.type, if_pos mapped] at returned
    cases returned
  · intro short st
    have unmapped : ip'.addr NDIRECT = 0 := by
      by_contra mapped
      exact absurd (padded.indirect mapped) (Nat.not_lt.mpr short)
    refine ⟨_, s', stati_unmapped checked.type unmapped, ?_⟩
    rw [checked.xorTags_direct padded short]
    exact BitVec.setWidth_setWidth_of_le _ (show 8 ≤ 32 by decide)

/-- The checksum of the bytes 7, 8 and 9 is 6. -/
theorem reports_threeBytes : ∃ ip' s',
    runWrites noDevices [threeBytes] (emptyInode T_CHECKED 2) emptySt = .ok (ip', s') ∧
      Reports 1 s' ip' [7, 8, 9] := by
  have outcome : ((runWrites noDevices [threeBytes] (emptyInode T_CHECKED 2) emptySt).toOption.map
      fun r => r.1.size) = some 3 := by
    decide +kernel
  rcases ok_of_evaluated outcome with ⟨r, run, _⟩
  refine ⟨r.1, r.2, run, ?_⟩
  exact (reports_iff_short layout_mkfs low_emptyDisk (by decide) rfl (fun _ _ => rfl) rfl run).mpr
    (by decide)

/-- Thirteen blocks are written. -/
def thirteenBlocks : Write := ⟨fun _ => 0, 0, 6656⟩

/-- A write for which there is room. -/
theorem writei_returns {dev : Devsw} {s : St} {ip : Inode} (owned : Owned s.sb s.blk (single ip))
    (notDev : ip.type ≠ T_DEV) (w : Write) (accepted : ¬rejects ip.size.toNat w.off.toNat w.n.toNat)
    (room : (missing s.blk ip.toDinode (span w.off.toNat w.n.toNat)).card ≤
      (free s.sb s.blk).card) :
    ∃ r s', writei dev ip w.src w.off w.n s = .ok (r, s') := by
  have returns : Meets (writei dev ip w.src w.off w.n) s (fun _ => False) fun _ _ => True :=
    writei_meets (i := ()) rfl owned notDev accepted (fun few => absurd few (Nat.not_lt.mpr room))
      fun _ _ _ _ => trivial
  rcases returns.returns fun _ => id with ⟨r, s', returned, _⟩
  exact ⟨r, s', returned⟩

/-- A write of thirteen blocks comes to its end. -/
theorem runWrites_thirteenBlocks : ∃ r,
    runWrites noDevices [thirteenBlocks] (emptyInode T_CHECKED 2) emptySt = .ok r := by
  have owned : Owned emptySt.sb emptySt.blk (single (emptyInode T_CHECKED 2)) := by
    refine Owned.of_empty layout_mkfs low_emptyDisk ?_ (fun _ _ _ => rfl) fun _ => rfl
    decide
  have short : thirteenBlocks.off.toNat + thirteenBlocks.n.toNat ≤ 13 * BSIZE := by decide
  have blocks : (missing emptySt.blk (emptyInode T_CHECKED 2).toDinode
      (span thirteenBlocks.off.toNat thirteenBlocks.n.toNat)).card ≤ 14 :=
    (Finset.card_filter_le _ _).trans ((Finset.card_le_card (span_subset short)).trans (by decide))
  have room : 14 ≤ (free emptySt.sb emptySt.blk).card := by
    have some : Finset.Ico 59 73 ⊆ free emptySt.sb emptySt.blk := by decide +kernel
    exact (Finset.card_le_card some).trans' (by decide)
  have accepted : ¬rejects (emptyInode T_CHECKED 2).size.toNat thirteenBlocks.off.toNat
      thirteenBlocks.n.toNat := by
    decide
  have written : ∃ r s', writei noDevices (emptyInode T_CHECKED 2) thirteenBlocks.src
    thirteenBlocks.off
      thirteenBlocks.n emptySt = .ok (r, s') :=
    writei_returns owned (by decide) thirteenBlocks accepted (blocks.trans room)
  rcases written with ⟨r, s', returned⟩
  exact ⟨(r.2, s'), bind_of_ok returned⟩

/-- `stati` does not report the checksum of a file of thirteen blocks. -/
theorem not_reports_thirteenBlocks : ∃ ip' s',
    runWrites noDevices [thirteenBlocks] (emptyInode T_CHECKED 2) emptySt = .ok (ip', s') ∧
      ¬Reports 1 s' ip' (specWrites [thirteenBlocks] []) := by
  rcases runWrites_thirteenBlocks with ⟨r, run⟩
  refine ⟨r.1, r.2, run, fun reports => ?_⟩
  have short := (reports_iff_short layout_mkfs low_emptyDisk (by decide) rfl
    (fun _ _ => rfl) rfl run).mp reports
  have length : (specWrites [thirteenBlocks] []).length = 6656 := by
    simp only [specWrites]
    rw [if_neg (by decide), splice, List.length_append, List.length_append, List.length_take,
      List.length_drop,
      List.length_map, List.length_range]
    rfl
  rw [length] at short
  exact absurd short (by decide)

end Xv6.Fs
