import Xv6.Fs.Trunc
import Xv6.Fs.Checksum

/-!
# Storing inodes

A consistent disk is one whose own inodes satisfy `Owned`. The operations on
inodes keep it consistent, and each of them stores one inode: all other inodes
stay as they are. The exception is a write into a checksummed file that does not
extend it, which may change the addresses in memory only.
-/

namespace Xv6.Fs

open Prog

variable {s s' : St} {E : Panic → Prop}

/-- The superblock is the one in memory, and the inodes on disk own their blocks. -/
structure Consistent (s : St) : Prop where
  super : getSb (s.blk 1) = s.sb
  owned : Owned s.sb s.blk (dinodes s.sb s.blk)

/-- The step from `s` to `s'` has stored the inode `ip`. -/
structure Saved (s s' : St) (ip : Inode) : Prop where
  sb : s'.sb = s.sb
  consistent : Consistent s'
  inodes : ∀ m < s.sb.ninodes, diskInode s'.sb s'.blk m =
    if m = ip.inum then ip else diskInode s.sb s.blk m

theorem diskInode_inum (sb : Superblock) (blk : Disk) (m : ℕ) : (diskInode sb blk m).inum = m :=
  rfl

/-- Below the bitmap only inode blocks change, so the superblock stays. -/
theorem putInode_super {sb : Superblock} {blk : Disk} (layout : Layout sb) (ip : Inode) :
    putInode sb blk ip 1 = blk 1 := by
  apply Function.update_of_ne
  have := layout.super
  simp only [Superblock.iblock, IPB, BSIZE]
  omega

theorem putInode_high {sb : Superblock} {blk : Disk} {ip : Inode} (layout : Layout sb)
    (inum : ip.inum < sb.ninodes) {b : ℕ} (high : sb.bmapstart ≤ b) :
    putInode sb blk ip b = blk b := by
  apply Function.update_of_ne
  have := iblock_lt layout inum
  omega

theorem one_lt_bmapstart {sb : Superblock} (layout : Layout sb) : 1 < sb.bmapstart := by
  have first := layout.super
  have areas := layout.inodes
  exact first.trans_le ((Nat.le_add_right _ _).trans areas.le)

/-- One inode is replaced on disk, and the new family owns its blocks. -/
theorem Saved.of_putInode {blk' : Disk} {calls : List Call} {ip : Inode} (consistent : Consistent s)
    {m : Fin s.sb.ninodes} (inum : ip.inum = m) (low : ∀ b < s.sb.bmapstart, blk' b = s.blk b)
    (owned : Owned s.sb (putInode s.sb blk' ip) (Function.update (dinodes s.sb s.blk) m ip)) :
    Saved s { s with blk := putInode s.sb blk' ip, calls := calls } ip := by
  have layout := consistent.owned.layout
  have family : dinodes s.sb (putInode s.sb blk' ip) =
      Function.update (dinodes s.sb s.blk) m ip := by
    rw [dinodes_putInode m inum, dinodes_congr layout low]
  refine ⟨rfl, ⟨?_, ?_⟩, ?_⟩
  · show getSb (putInode s.sb blk' ip 1) = s.sb
    rw [putInode_super layout, low 1 (one_lt_bmapstart layout), consistent.super]
  · show Owned s.sb (putInode s.sb blk' ip) (dinodes s.sb (putInode s.sb blk' ip))
    rw [family]
    exact owned
  · intro j inRange
    show diskInode s.sb (putInode s.sb blk' ip) j = _
    rw [diskInode_putInode, diskInode_congr layout low inRange]

/-- Blocks change, but no inode does. -/
theorem Saved.of_low {blk' : Disk} {calls : List Call} (consistent : Consistent s) (m : ℕ)
    (low : ∀ b < s.sb.bmapstart, blk' b = s.blk b) (owned : Owned s.sb blk' (dinodes s.sb s.blk)) :
    Saved s { s with blk := blk', calls := calls } (diskInode s.sb s.blk m) := by
  have layout := consistent.owned.layout
  refine ⟨rfl, ⟨?_, ?_⟩, ?_⟩
  · show getSb (blk' 1) = s.sb
    rw [low 1 (one_lt_bmapstart layout), consistent.super]
  · show Owned s.sb blk' (dinodes s.sb blk')
    rw [dinodes_congr layout low]
    exact owned
  · intro j inRange
    show diskInode s.sb blk' j = _
    rw [diskInode_congr layout low inRange, diskInode_inum]
    split
    next same => rw [same]
    next => rfl

theorem Saved.refl (consistent : Consistent s) (calls : List Call) (m : ℕ) :
    Saved s { s with calls := calls } (diskInode s.sb s.blk m) :=
  Saved.of_low consistent m (fun _ _ => rfl) consistent.owned

theorem marked_putInode {sb : Superblock} {blk : Disk} {ip : Inode} (layout : Layout sb)
    (inum : ip.inum < sb.ninodes) (b : ℕ) : marked sb (putInode sb blk ip) b = marked sb blk b := by
  rw [marked, marked, putInode_high layout inum (bmapstart_le_bblock sb b)]

theorem bmapstart_le_dataStart (sb : Superblock) : sb.bmapstart ≤ sb.dataStart := by
  simp only [Superblock.dataStart, BPB, BSIZE]
  omega

/-- An inode is stored that refers to blocks of its predecessor only; the others may be freed. -/
theorem Saved.of_fewer {blk' : Disk} {calls : List Call} {ip : Inode} (consistent : Consistent s)
    (inum : ip.inum < s.sb.ninodes)
    (cleared : Cleared s.sb s.blk blk' (blocksOf s.blk (diskInode s.sb s.blk ip.inum).toDinode))
    (refs : ∀ k b, ref (putInode s.sb blk' ip) ip.toDinode k = some b →
      ref s.blk (diskInode s.sb s.blk ip.inum).toDinode k = some b ∧ marked s.sb blk' b = true)
    (covered : ∀ k, k * BSIZE < ip.size.toNat →
      k < MAXFILE ∧ slot (putInode s.sb blk' ip) ip.toDinode k ≠ 0) :
    Saved s { s with blk := putInode s.sb blk' ip, calls := calls } ip := by
  have own := consistent.owned
  have layout := own.layout
  -- The slots of the other inodes are in data blocks, which do not change.
  have others : ∀ j : Fin s.sb.ninodes, j ≠ ⟨ip.inum, inum⟩ → ∀ k,
      slot (putInode s.sb blk' ip) (dinodes s.sb s.blk j).toDinode k =
        slot s.blk (dinodes s.sb s.blk j).toDinode k := by
    intro j _ k
    apply slot_congr
    intro mapped
    have high := (own.data j MAXFILE _ (ref_maxfile s.blk mapped)).1
    rw [putInode_high layout inum ((bmapstart_le_dataStart s.sb).trans high)]
    exact cleared.same _ (Or.inr high)
  have index : ip.inum = (⟨ip.inum, inum⟩ : Fin s.sb.ninodes) := rfl
  refine Saved.of_putInode consistent index (fun b below => cleared.same b (Or.inl below))
    (own.of_fewer ?_ ?_ ?_ ?_ ?_)
  · intro j k b refers
    by_cases same : j = ⟨ip.inum, inum⟩
    · subst same
      rw [Function.update_self] at refers
      exact (refs k b refers).1
    · rw [Function.update_of_ne same, ref_congr rfl (others j same k)] at refers
      exact refers
  · intro b below
    rw [marked_putInode layout inum, cleared.marks, own.low b below]
    rintro ⟨k, refers⟩
    have high := (own.data ⟨ip.inum, inum⟩ k b refers).1
    omega
  · intro j k b refers
    rw [marked_putInode layout inum]
    by_cases same : j = ⟨ip.inum, inum⟩
    · subst same
      rw [Function.update_self] at refers
      exact (refs k b refers).2
    · rw [Function.update_of_ne same, ref_congr rfl (others j same k)] at refers
      rw [cleared.marks, own.used j k b refers]
      rintro ⟨l, theirs⟩
      exact same (own.distinct j k ⟨ip.inum, inum⟩ l b refers theirs).1
  · exact update_congr Inode.inum rfl
  · intro j k below
    by_cases same : j = ⟨ip.inum, inum⟩
    · subst same
      rw [Function.update_self] at below ⊢
      exact covered k below
    · rw [Function.update_of_ne same] at below ⊢
      rw [others j same k]
      exact own.allocated j k below

/-- An inode without blocks is stored. -/
theorem Saved.of_empty {blk' : Disk} {calls : List Call} {ip : Inode} (consistent : Consistent s)
    (inum : ip.inum < s.sb.ninodes)
    (cleared : Cleared s.sb s.blk blk' (blocksOf s.blk (diskInode s.sb s.blk ip.inum).toDinode))
    (addrs : ∀ k ≤ NDIRECT, ip.addr k = 0) (size : ip.size = 0) :
    Saved s { s with blk := putInode s.sb blk' ip, calls := calls } ip := by
  refine Saved.of_fewer consistent inum cleared ?_ ?_
  · intro k b refers
    rw [ref_empty addrs k] at refers
    cases refers
  · intro k below
    rw [size] at below
    exact absurd below (Nat.not_lt_zero _)

/-! ## The operations -/

section Operations

variable (consistent : Consistent s)
include consistent

/-- `iupdate` after a change of `major`, `minor` and `nlink`. -/
theorem iupdate_saved {ip : Inode} (inum : ip.inum < s.sb.ninodes)
    (fields : ip.type = (diskInode s.sb s.blk ip.inum).type ∧
      ip.size = (diskInode s.sb s.blk ip.inum).size ∧
      ip.addrs = (diskInode s.sb s.blk ip.inum).addrs) :
    Meets (iupdate ip) s E fun _ s' => Saved s s' ip := by
  have own := consistent.owned
  refine iupdate_meets own.layout inum fun calls => ?_
  have slots : ∀ k, slot (putInode s.sb s.blk ip) ip.toDinode k =
      slot s.blk (diskInode s.sb s.blk ip.inum).toDinode k := by
    intro k
    have addr : ∀ a, ip.addr a = (diskInode s.sb s.blk ip.inum).addr a := by
      intro a
      rw [Dinode.addr, fields.2.2, Dinode.addr]
    have low := own.slot_low (fun b high => putInode_high own.layout inum high)
      ⟨ip.inum, inum⟩ k
    rw [dinodes] at low
    rw [← low]
    simp only [slot, addr]
  refine Saved.of_fewer consistent inum Cleared.refl ?_ ?_
  · intro k b refers
    rw [ref_congr fields.1 (slots k)] at refers
    exact ⟨refers, own.used ⟨ip.inum, inum⟩ k b refers⟩
  · intro k below
    rw [fields.2.1] at below
    rw [slots k]
    exact own.allocated ⟨ip.inum, inum⟩ k below

omit consistent in
theorem iblock_lt_fssize {sb : Superblock} (layout : Layout sb) {m : ℕ} (inRange : m < sb.ninodes) :
    sb.iblock m < FSSIZE :=
  (iblock_lt layout inRange).trans_le
    ((bmapstart_le_dataStart sb).trans (layout.bitmap.trans layout.disk))

/-- `ilock` reads the inode that the disk holds. -/
theorem loadInode_meets {m : ℕ} {Q : Dinode → St → Prop} (inRange : m < s.sb.ninodes)
    (stop : (diskInode s.sb s.blk m).type = 0 → E .ilock)
    (post : (diskInode s.sb s.blk m).type ≠ 0 → ∀ calls,
      Q (diskInode s.sb s.blk m).toDinode { s with calls := calls }) :
    Meets (loadInode m) s E Q := by
  refine meets_bind (meets_get ?_)
  refine meets_bind (meets_bread (iblock_lt_fssize consistent.owned.layout inRange) fun calls => ?_)
  refine meets_bind (meets_brelse fun calls => ?_)
  refine meets_ite (fun unused => ?_) fun used => ?_
  · exact meets_bind (meets_throw (stop unused))
  · exact meets_pure (post used calls)

/-- The inode that `ialloc` stores. -/
def freshInode (type : Half) (m : ℕ) : Inode := { zeroDinode with type := type, inum := m }

/-- `ialloc` takes an inode that is not in use. -/
theorem iallocFrom_meets {type : Half} {fuel m : ℕ} {calls : List Call} (stop : ∀ e, E e) :
    Meets (iallocFrom type fuel m) { s with calls := calls } E fun r s' =>
      r < s.sb.ninodes ∧ (diskInode s.sb s.blk r).type = 0 ∧ Saved s s' (freshInode type r) := by
  induction fuel generalizing m calls with
  | zero => exact meets_throw (stop _)
  | succ fuel ih =>
      refine meets_bind (meets_get ?_)
      refine meets_ite (fun inRange => ?_) fun _ => meets_throw (stop _)
      refine meets_bind (meets_bread (iblock_lt_fssize consistent.owned.layout inRange)
        fun calls => ?_)
      refine meets_ite (fun unused => ?_) fun _ => ?_
      · refine meets_bind (meets_logWrite fun calls => ?_)
        refine meets_bind (meets_brelse fun calls => ?_)
        refine meets_pure ⟨inRange, unused, ?_⟩
        have fresh : (freshInode type m).inum < s.sb.ninodes := inRange
        exact Saved.of_empty consistent fresh Cleared.refl (fun _ _ => rfl) rfl
      · exact meets_bind (meets_brelse fun calls => ih)

theorem iallocDisk_meets {type : Half} (stop : ∀ e, E e) :
    Meets (iallocDisk type) s E fun r s' =>
      r < s.sb.ninodes ∧ (diskInode s.sb s.blk r).type = 0 ∧ Saved s s' (freshInode type r) :=
  meets_bind (meets_get (iallocFrom_meets consistent stop))

end Operations

theorem Saved.trans {s₁ s₂ s₃ : St} {ip ip' : Inode} (first : Saved s₁ s₂ ip)
    (second : Saved s₂ s₃ ip') (inum : ip.inum = ip'.inum) : Saved s₁ s₃ ip' where
  sb := second.sb.trans first.sb
  consistent := second.consistent
  inodes := by
    intro m inRange
    rw [second.inodes m (by rw [first.sb]; exact inRange), first.inodes m inRange, inum]
    split
    next => rfl
    next => rfl

section Operations

variable (consistent : Consistent s)
include consistent

/-- `iput` frees the blocks of an inode and stores it with type 0. -/
theorem freeInode_meets {m : ℕ} (inRange : m < s.sb.ninodes) (stop : ∀ e, E e) :
    Meets (freeInode (diskInode s.sb s.blk m)) s E fun r s' => r.inum = m ∧ Saved s s' r := by
  have here : dinodes s.sb s.blk ⟨m, inRange⟩ = diskInode s.sb s.blk m := rfl
  refine meets_bind (itrunc_meets here stop consistent.owned consistent.super
    fun blk' calls cleared => ?_)
  rw [here] at cleared ⊢
  have first : Saved s ⟨s.sb, putInode s.sb blk' (emptied (diskInode s.sb s.blk m)), calls⟩
      (emptied (diskInode s.sb s.blk m)) :=
    Saved.of_empty consistent inRange cleared (fun _ _ => rfl) rfl
  refine meets_bind (iupdate_meets first.consistent.owned.layout inRange fun calls => ?_)
  refine meets_pure ⟨rfl, first.trans ?_ rfl⟩
  exact Saved.of_empty first.consistent inRange Cleared.refl (fun _ _ => rfl) rfl

end Operations

/-! ## `readi` and `writei` -/

/-- `readTag` reads one block at most. -/
theorem readTag_unchanged {ip : Inode} {block : Word} {Q : Word → St → Prop} (stop : ∀ e, E e)
    (post : ∀ tag calls, Q tag { s with calls := calls }) : Meets (readTag ip block) s E Q := by
  unfold readTag
  split
  · exact meets_pure (post _ s.calls)
  · refine meets_ite (fun _ => ?_) fun _ => meets_pure (post _ s.calls)
    refine meets_bind (meets_bread_any (fun _ => stop _) fun _ calls => ?_)
    refine meets_bind (meets_brelse fun calls => ?_)
    exact meets_pure (post _ calls)

/-- A file without holes is read without a change of its inode or of any block. -/
theorem readi_unchanged {ι : Type} {ips : ι → Inode} {i : ι} {ip : Inode} (here : ips i = ip)
    (own : Owned s.sb s.blk ips) {dev : Devsw} {dst : Mem} {off n : Word}
    {Q : ReadResult → St → Prop} (stop : ∀ e, E e)
    (post : ∀ ret dst' calls, Q ⟨ret, dst', ip⟩ { s with calls := calls }) :
    Meets (readi dev ip dst off n) s E Q := by
  subst here
  unfold readi
  refine meets_ite (fun _ => ?_) fun notDev => meets_ite (fun _ => ?_) fun accepted => ?_
  · split
    · exact meets_pure (post _ _ s.calls)
    · exact meets_pure (post _ _ s.calls)
  · exact meets_pure (post _ _ s.calls)
  · simp only [toNat_clip (not_or.mp accepted).1 (not_or.mp accepted).2]
    have inside : off.toNat ≤ (ips i).size.toNat := by
      rw [rejects_iff] at accepted
      omega
    by_cases checked : (ips i).type = T_CHECKED
    · cases length : min n.toNat ((ips i).size.toNat - off.toNat) with
      | zero => exact meets_pure (post _ _ s.calls)
      | succ m =>
          have within : off.toNat < (ips i).size.toNat := by omega
          rcases own.allocated_div within with ⟨inFile, mapped⟩
          have refers := ref_eq_some.mpr ⟨mapped, rfl⟩
          rw [target, if_neg inFile.ne] at refers
          refine meets_ite (fun _ => ?_) fun empty => absurd (Nat.succ_pos m) empty
          refine meets_bind (bmap_mapped_meets own inFile mapped fun calls => ?_)
          refine meets_bind (bmap_mapped_meets (s := { s with calls := calls }) own inFile mapped
            fun calls => ?_)
          refine meets_bind (meets_bread (own.lt_fssize refers).2 fun calls => ?_)
          refine meets_ite (fun _ => ?_) fun plain => absurd checked plain
          refine meets_bind (readTag_unchanged (s := { s with calls := calls }) stop
            fun tag calls => ?_)
          exact meets_pure (post _ _ calls)
    · exact readiLoop_meets own checked (by omega) (by omega) fun calls => post _ _ calls

/-- Block `bn` of a file after `n` bytes from `src` have been written at `off`. -/
def overwrite (data : Block) (bn off n : ℕ) (src : Mem) : Block :=
  fun x => if off ≤ bn * BSIZE + x ∧ bn * BSIZE + x < off + n then src (bn * BSIZE + x - off)
    else data x

/-- The direct slots that the range touches carry the checksums of the new contents already. -/
def KeepsTags (blk : Disk) (ip : Inode) (off n : ℕ) (src : Mem) : Prop :=
  ∀ bn < NDIRECT, Touches off n bn → ∀ b, ref blk ip.toDinode bn = some b →
    ip.addr bn = BitVec.ofNat 32 b + checksum (overwrite (blk b) bn off n src) <<< 24

section InPlace

variable {ι : Type} [DecidableEq ι] {ips : ι → Inode} {i : ι} {sb : Superblock} {blk blk' : Disk}
  {ip' : Inode} {off n : ℕ} {src : Mem}

/-- A byte of the file is a byte of its block. -/
theorem cell_eq {blk : Disk} {ip : Dinode} {bn b x : ℕ} (inFile : bn < MAXFILE)
    (refers : ref blk ip bn = some b) (inBlock : x < BSIZE) :
    cell blk ip (bn * BSIZE + x) = some (Bytes.get (blk b) x) := by
  have block : (bn * BSIZE + x) / BSIZE = bn := by
    simp only [BSIZE] at inBlock ⊢
    omega
  have offset : (bn * BSIZE + x) % BSIZE = x := by
    simp only [BSIZE] at inBlock ⊢
    omega
  rw [cell, block, if_pos inFile, refers, offset]
  rfl

/-- The blocks of the file after a write. -/
theorem Written.block_eq (done : Written sb blk blk' ips i ip' off n src) {bn b : ℕ}
    (inFile : bn < MAXFILE) (refers : ref blk (ips i).toDinode bn = some b) :
    blk' b = overwrite (blk b) bn off n src := by
  funext x
  have old := cell_eq inFile refers x.isLt
  have new := cell_eq inFile (done.refs bn b refers) x.isLt
  rw [Bytes.get_fin] at old new
  rw [overwrite]
  split
  next inside =>
    rw [done.cells _ inside.1 inside.2] at new
    exact (Option.some.inj new).symm
  next outside =>
    rw [done.kept _ _ (by omega) old] at new
    exact (Option.some.inj new).symm

omit [DecidableEq ι] in
/-- A slot that an in-place write looks at is allocated. -/
theorem Owned.span_mapped (own : Owned sb blk ips) (covered : off + n ≤ (ips i).size.toNat) {k : ℕ}
    (mem : k ∈ span off n) : slot blk (ips i).toDinode k ≠ 0 := by
  simp only [span, Finset.mem_biUnion, Finset.mem_image, Finset.mem_Ico] at mem
  rcases mem with ⟨bn, ⟨x, inRange, rfl⟩, slotOf⟩
  have mapped := (own.allocated_div (i := i) (x := x) (by omega)).2
  simp only [touched] at slotOf
  split at slotOf
  · rw [Finset.mem_singleton.mp slotOf]
    exact mapped
  next indirect =>
    rcases Finset.mem_union.mp slotOf with atIndirect | atEntry
    · rw [Finset.mem_singleton.mp atIndirect, slot_maxfile]
      exact indirect_mapped (Nat.not_lt.mp indirect) mapped
    · rw [Finset.mem_singleton.mp atEntry]
      exact mapped

/-- An in-place write changes the inode only if a tag in a direct slot changes. -/
theorem Written.inode_eq (done : Written sb blk blk' ips i ip' off n src) (own : Owned sb blk ips)
    (covered : off + n ≤ (ips i).size.toNat)
    (keeps : (ips i).type = T_CHECKED → KeepsTags blk (ips i) off n src) : ip' = ips i := by
  have slots : ∀ k, k < NDIRECT ∨ k = MAXFILE →
      slot blk' ip'.toDinode k = slot blk (ips i).toDinode k := by
    intro k index
    by_cases empty : slot blk (ips i).toDinode k = 0
    · rw [empty, done.empty]
      exact ⟨empty, fun mem => own.span_mapped covered mem empty⟩
    · by_cases tagged : Touches off n k ∧ (ips i).type = T_CHECKED
      · have inFile := done.touches_lt tagged.1
        have direct : k < NDIRECT := index.resolve_right inFile.ne
        have refers := ref_eq_some.mpr ⟨empty, rfl⟩
        rcases done.tagged tagged.2 k tagged.1 with ⟨b, refers', value⟩
        rw [done.refs k _ refers] at refers'
        rw [Option.some.inj refers'] at refers
        rw [value, done.block_eq inFile refers, slot_direct _ direct]
        exact (keeps tagged.2 k direct tagged.1 b refers).symm
      · exact done.slots k empty fun touch checked => tagged ⟨touch, checked⟩
  have addrs : ip'.addrs = (ips i).addrs := by
    funext a
    have same : ip'.addr a = (ips i).addr a := by
      rcases Nat.lt_or_ge a NDIRECT with direct | last
      · rw [← slot_direct blk' direct, ← slot_direct blk direct]
        exact slots a (Or.inl direct)
      · have indirect := slots MAXFILE (Or.inr rfl)
        rw [slot_maxfile, slot_maxfile] at indirect
        rw [show (a : ℕ) = NDIRECT by omega, indirect]
    rwa [Dinode.addr, Dinode.addr, Fin.ofNat_val_eq_self] at same
  rw [done.fields, addrs]

end InPlace

/--
The write stores the inode: the file has no checksums, the range is refused, the
file grows, or no tag in a direct slot changes.
-/
def StoresInode (s : St) (ip : Inode) (src : Mem) (off n : Word) : Prop :=
  ip.type ≠ T_CHECKED ∨ rejects ip.size.toNat off.toNat n.toNat ∨
    ip.size.toNat < off.toNat + n.toNat ∨ KeepsTags s.blk ip off.toNat n.toNat src

/-- `writei` leaves on the disk what it has in memory, if the size grows or the tag stays. -/
theorem writei_saved {dev : Devsw} {m : ℕ} {src : Mem} {off n : Word} (consistent : Consistent s)
    (inRange : m < s.sb.ninodes) (stop : ∀ e, E e)
    (stores : StoresInode s (diskInode s.sb s.blk m) src off n) :
    Meets (writei dev (diskInode s.sb s.blk m) src off n) s E fun r s' =>
      r.2.inum = m ∧ r.2.type = (diskInode s.sb s.blk m).type ∧ Saved s s' r.2 := by
  have unchanged := Saved.refl consistent s.calls m
  by_cases isDev : (diskInode s.sb s.blk m).type = T_DEV
  · unfold writei
    rw [if_pos isDev]
    split
    · exact meets_pure ⟨rfl, rfl, unchanged⟩
    · exact meets_pure ⟨rfl, rfl, unchanged⟩
  by_cases rejected : rejects (diskInode s.sb s.blk m).size.toNat off.toNat n.toNat
  · rw [Meets, writei_of_rejects isDev rejected]
    exact ⟨rfl, rfl, unchanged⟩
  have own := consistent.owned
  have here : dinodes s.sb s.blk ⟨m, inRange⟩ = diskInode s.sb s.blk m := rfl
  refine writei_meets here own isDev rejected (fun _ => stop _) ?_
  intro ip' blk' calls done
  have inum : ip'.inum = m := by
    rw [done.fields]
    rfl
  have type : ip'.type = (diskInode s.sb s.blk m).type := done.type_eq
  have size : ip'.size = (diskInode s.sb s.blk m).size := done.size_eq
  rw [rejects, not_or, not_or] at rejected
  have owned := done.owned_flush (Nat.not_lt.mp rejected.1) (Nat.not_lt.mp rejected.2.2)
  refine ⟨by rw [inum_extend, inum], by rw [type_extend, type], ?_⟩
  by_cases grows : ip'.size.toNat < off.toNat + n.toNat
  · -- The file grows, and `iupdate` stores the inode.
    have flushed : flush s.sb blk' ip' (off.toNat + n.toNat) =
        putInode s.sb blk' (extend ip' (off.toNat + n.toNat)) := by
      rw [flush, if_pos grows, putInode, inum_extend]
    have index : (extend ip' (off.toNat + n.toNat)).inum = (⟨m, inRange⟩ : Fin s.sb.ninodes) := by
      rw [inum_extend, inum]
    rw [flushed] at owned ⊢
    exact Saved.of_putInode consistent index done.low owned
  · have covered : off.toNat + n.toNat ≤ (diskInode s.sb s.blk m).size.toNat := by
      rw [← size]
      omega
    have keeps : (diskInode s.sb s.blk m).type = T_CHECKED →
        KeepsTags s.blk (diskInode s.sb s.blk m) off.toNat n.toNat src := by
      intro checked
      rcases stores with plain | refused | longer | keeps
      · exact absurd checked plain
      · exact absurd refused (by rw [rejects, not_or, not_or]; exact rejected)
      · omega
      · exact keeps
    have same : ip' = diskInode s.sb s.blk m := done.inode_eq own covered keeps
    rw [flush, extend, if_neg grows, if_neg grows]
    have stays := done.owned
    rw [same, ← here, Function.update_eq_self] at stays
    rw [same]
    exact Saved.of_low consistent m done.low stays

end Xv6.Fs
