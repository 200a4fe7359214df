import Xv6.Dir.Lookup
import Xv6.Mkfs.Holes

/-!
# The kernel on a new image

What `iappend` has stored is what `dirlookup` and `readi` of the kernel find. The root may
end with a hole, but the names are before it, and each of them is read from one of the direct
blocks.
-/

namespace Xv6.Mkfs

open Fs Prog
open Checker (Image DPB dot dotdot)
open Dir (text pointer direntSize text_strncpy text_pointer)

variable {img : Image} {n : ℕ} {files : List File} {dev : Devsw}

/-! ## Reading within a block -/

theorem readi_block_meets {ip : Inode} {s : Fs.St} {E : Panic → Prop}
    {Q : ReadResult → Fs.St → Prop} {dst : Mem} {off m : Word}
    (regular : ip.type ≠ T_DEV ∧ ip.type ≠ T_CHECKED) (positive : 0 < m.toNat)
    (inBlock : off.toNat % BSIZE + m.toNat ≤ BSIZE) (inFile : off.toNat + m.toNat ≤ ip.size.toNat)
    (direct : off.toNat / BSIZE < NDIRECT) (mapped : ip.addr (off.toNat / BSIZE) ≠ 0)
    (onDisk : (ip.addr (off.toNat / BSIZE)).toNat < FSSIZE)
    (post : ∀ calls, Q ⟨m.toInt,
      dst.move 0 m.toNat (s.blk (ip.addr (off.toNat / BSIZE)).toNat) (off.toNat % BSIZE), ip⟩
      { s with calls := calls }) :
    Meets (readi dev ip dst off m) s E Q := by
  have bound := ip.size.isLt
  have accepted : ¬(off > ip.size ∨ off + m < off) := by
    rw [rejects_iff]
    omega
  have all : (if off + m > ip.size then ip.size - off else m).toNat = m.toNat := by
    rw [toNat_clip (not_or.mp accepted).1 (not_or.mp accepted).2]
    omega
  obtain ⟨fuel, rounds⟩ := Nat.exists_eq_succ_of_ne_zero positive.ne'
  have once : chunk m.toNat 0 off.toNat = m.toNat := by
    rw [chunk]
    omega
  have find : ∀ {s : Fs.St} {Q : Word × Inode → Fs.St → Prop},
    Q (ip.addr (off.toNat / BSIZE), ip) s →
      Meets (bmap ip (off.toNat / BSIZE)) s E Q := by
    intro s Q post
    refine meets_ite (fun _ => ?_) fun indirect => absurd direct indirect
    rw [Fs.loadAddr, if_neg mapped]
    refine meets_bind (meets_pure (meets_pure ?_))
    rw [mask, if_neg regular.2]
    exact post
  have ended : ∀ {s : Fs.St} {fuel off : ℕ} {dst : Mem}, Q ⟨m.toInt, dst, ip⟩ s →
      Meets (readiLoop m.toNat fuel m.toNat off ip dst) s E Q := by
    intro s fuel off dst post
    have value : (BitVec.ofNat 32 m.toNat).toInt = m.toInt := by
      rw [BitVec.ofNat_toNat, BitVec.setWidth_eq]
    cases fuel with
    | zero =>
        rw [readiLoop, value]
        exact meets_pure post
    | succ fuel =>
        rw [readiLoop, if_neg (lt_irrefl _), value]
        exact meets_pure post
  rw [readi, if_neg regular.1, if_neg accepted]
  simp only [all]
  rw [rounds, readiLoop, ← rounds, if_pos positive]
  refine meets_bind (find (meets_bind (find (meets_bind (meets_bread onDisk fun calls => ?_)))))
  refine meets_ite (fun checked => absurd checked regular.2) fun _ => ?_
  refine meets_bind (meets_brelse fun calls => ?_)
  rw [once, Nat.zero_add]
  exact ended (post calls)

/-- All bytes of a file are read. -/
theorem readi_whole {ip : Inode} {s : Fs.St} (owned : Owned s.sb s.blk (single ip))
    (regular : ip.type ≠ T_DEV ∧ ip.type ≠ T_CHECKED) (dst : Mem) :
    Meets (readi dev ip dst 0 ip.size) s (fun _ => False) fun r _ => r.ret = ip.size.toNat ∧
      ∀ x < ip.size.toNat, r.dst x = byteAt s.blk ip.toDinode x := by
  have small : ip.size.toNat ≤ MAXFILE * BSIZE := owned.size_le ()
  simp only [MAXFILE, NDIRECT, NINDIRECT, BSIZE] at small
  have zero : (0 : Word).toNat = 0 := rfl
  have all : min ip.size.toNat (ip.size.toNat - (0 : Word).toNat) = ip.size.toNat := by
    rw [zero, Nat.sub_zero, min_self]
  have regular' : (single ip ()).type ≠ T_DEV ∧ (single ip ()).type ≠ T_CHECKED := regular
  refine readi_meets owned regular' (Nat.zero_le _) (by rw [zero]; omega) fun calls => ?_
  refine ⟨?_, fun x inside => ?_⟩
  · change (BitVec.ofNat 32 (min ip.size.toNat (ip.size.toNat - (0 : Word).toNat))).toInt = _
    rw [all, BitVec.toInt_eq_toNat_of_lt, BitVec.toNat_ofNat, Nat.mod_eq_of_lt (by omega)]
    rw [BitVec.toNat_ofNat, Nat.mod_eq_of_lt (by omega)]
    omega
  · refine (if_pos ⟨Nat.zero_le x, lt_of_lt_of_eq inside all.symm⟩).trans ?_
    rw [Nat.sub_zero, zero, Nat.zero_add]

/-! ## Names -/

/-- What the kernel sees in an entry. -/
def seen (e : Checker.Dirent) : Option (List Byte × Half) :=
  if e.inum = 0 then none else some (text DIRSIZ (pointer e.name), e.inum)

/-- Kernel and checker see the same entry. -/
theorem slotOf_getDirent {buf : Block} {q : ℕ} {m : Mem}
    (same : ∀ j < direntSize, m j = Bytes.get buf (16 * q + j)) :
    Dir.slotOf (Dir.getDirent m) = seen (Checker.getDirent buf q) := by
  have inum : (Dir.getDirent m).inum = (Checker.getDirent buf q).inum := by
    have first := same 0 (by decide)
    rw [Nat.add_zero] at first
    simp only [Dir.getDirent, Checker.getDirent, Bytes.getHalf, Bytes.getLE, first,
      same 1 (by decide), Nat.mul_zero,
      Nat.add_zero]
  have name : text DIRSIZ (Dir.getDirent m).name =
      text DIRSIZ (pointer (Checker.getDirent buf q).name) := by
    refine Strings.upTo_congr fun j less => ?_
    have inside : j < ((List.range DIRSIZ).map fun j => Bytes.get buf (16 * q + 2 + j)).length := by
      simpa using less
    simp only [Dir.getDirent, pointer, Strings.cells, Checker.getDirent]
    rw [List.getD_eq_getElem _ _ inside, List.getElem_map, List.getElem_range, Nat.add_assoc]
    exact same _ (by simp only [DIRSIZ, direntSize] at *; omega)
  rw [Dir.slotOf, seen, inum, name]

/-- The entry of a file has its name and its number. -/
theorem seen_entry {i : ℕ} {name : List Byte} (positive : 0 < i) (small : i < 2 ^ 16)
    (terminated : (0 : Byte) ∉ name) :
    seen (entry i name) = some (name.take DIRSIZ, BitVec.ofNat 16 i) := by
  have nonzero : BitVec.ofNat 16 i ≠ 0 := by
    intro zero
    have value := congrArg BitVec.toNat zero
    rw [BitVec.toNat_ofNat, Nat.mod_eq_of_lt small] at value
    exact positive.ne' value
  rw [seen, entry]
  simp only
  rw [if_neg nonzero, strncpy, ← Dir.strncpy, text_strncpy, text_pointer terminated]

/-- The entries of the root, as the kernel sees them. -/
theorem seen_rootEntries {q : ℕ} (few : files.length ≤ NINODES - 2) (inside : q < files.length) :
    seen ((rootEntries files).getD (q + 2) blank) =
      some ((strip files[q].name).take DIRSIZ, BitVec.ofNat 16 (q + 2)) := by
  have listed : (rootEntries files).getD (q + 2) blank = entry (q + 2) (strip files[q].name) := by
    rw [rootEntries, List.getD_cons_succ, List.getD_cons_succ]
    have length : q < (files.zipIdx.map fun file =>
        entry (file.2 + 2) (strip file.1.name)).length := by
      simpa using inside
    rw [List.getD_eq_getElem _ _ length, List.getElem_map, List.getElem_zipIdx, Nat.zero_add]
  simp only [NINODES] at few
  rw [listed]
  exact seen_entry (Nat.succ_pos _) (by omega) (not_mem_strip (File.terminated _))

/-! ## The root -/

/-- The kernel has the image on its disk and has not changed it; cache entry `dp` is the root. -/
structure Mounted (img : Image) (k : Kernel) (dp : Fin NINODE) : Prop where
  super : k.fs.sb = getSb (img.blk 1)
  blk : k.fs.blk = img.blk
  directory : (k.icache dp).toInode = diskInode k.fs.sb k.fs.blk ROOTINO
  held : 0 < (k.icache dp).ref
  cached : ∀ i, 0 < (k.icache i).ref → (k.icache i).valid = true →
    (k.icache i).toInode = diskInode k.fs.sb k.fs.blk (k.icache i).inum

/-- Reading does not change what is mounted. -/
theorem Mounted.read {k k' : Kernel} {dp : Fin NINODE} (mounted : Mounted img k dp)
    (read : Dir.Read k k') :
    Mounted img k' dp := by
  refine ⟨read.sb.trans mounted.super, read.blk.trans mounted.blk, ?_, ?_, ?_⟩
  all_goals rw [read.icache]
  · rw [read.sb, read.blk]
    exact mounted.directory
  · exact mounted.held
  · rw [read.sb, read.blk]
    exact mounted.cached

section Root

variable {k : Kernel} {dp : Fin NINODE} {E : Dir.Stop → Prop} (mounted : Mounted img k dp)
  (complete : Complete img n files) (few : files.length ≤ NINODES - 2)
include mounted complete

theorem Mounted.sb_eq : k.fs.sb = sb := by
  rw [mounted.super, complete.super]
  exact getSb_superBlock

theorem Mounted.root_eq : (k.icache dp).toDinode = inodes img.blk root := by
  rw [mounted.directory, mounted.sb_eq complete, mounted.blk]
  rfl

include few

/-- An entry of the root is read. -/
theorem Mounted.meets_readEntry {e : ℕ} {panic : Dir.Stop} (inside : e < files.length + 2) :
    Meets (Dir.readEntry dev dp (direntSize * e) panic) k E fun de k' =>
      Dir.slotOf de = seen ((rootEntries files).getD e blank) ∧ Dir.Read k k' := by
  have isRoot := mounted.root_eq complete
  have size : (k.icache dp).size.toNat = ((files.length + 2) / DPB + 1) * BSIZE := by
    rw [isRoot]
    exact complete.size
  have addrs : ∀ a, (k.icache dp).addr a = (inodes img.blk root).addr a := fun a => by rw [isRoot]
  have type : (k.icache dp).type = T_DIR := by
    rw [isRoot, complete.types root]
    rfl
  simp only [NINODES] at few
  have small : e / DPB < NDIRECT := by
    simp only [DPB, BSIZE, NDIRECT]
    omega
  have off : (BitVec.ofNat 32 (direntSize * e)).toNat = direntSize * e := by
    rw [BitVec.toNat_ofNat, Nat.mod_eq_of_lt]
    simp only [direntSize]
    omega
  have m : ((direntSize : ℕ) : Word).toNat = direntSize := rfl
  have block : direntSize * e / BSIZE = e / DPB := by
    simp only [direntSize, DPB, BSIZE]
    omega
  have offset : direntSize * e % BSIZE = 16 * (e % DPB) := by
    simp only [direntSize, DPB, BSIZE]
    omega
  have used : (inodes img.blk root).addr (e / DPB) ≠ 0 := by
    rw [complete.lists.addrs _ small, length_rootEntries]
    simp only [DPB, BSIZE]
    omega
  have onDisk : ((inodes img.blk root).addr (e / DPB)).toNat < FSSIZE := by
    have below := complete.ledger.inside root (e / DPB)
    rw [slot_direct _ small] at below
    exact (below used).2.trans_le complete.bound
  refine meets_bind (meets_get (meets_bind (Dir.meets_onFs ?_)))
  refine readi_block_meets ?_ ?_ ?_ ?_ ?_ ?_ ?_ fun calls => ?_
  · rw [type]
    decide
  · rw [m]
    decide
  · rw [off, m, offset]
    simp only [direntSize, DPB, BSIZE]
    omega
  · rw [off, m, size]
    simp only [direntSize, DPB, BSIZE]
    omega
  · rw [off, block]
    exact small
  · rw [off, block, addrs]
    exact used
  · rw [off, block, addrs]
    exact onDisk
  · rw [off, block, offset, addrs, m]
    refine meets_bind (meets_modify
      (meets_ite (fun short => absurd rfl short) fun _ => meets_pure ⟨?_, ?_⟩))
    · have stored := complete.lists.entries _ small used (e % DPB) (Nat.mod_lt _ (by decide))
      rw [Nat.div_add_mod] at stored
      rw [← stored, mounted.blk]
      refine slotOf_getDirent fun j less => ?_
      refine (if_pos ⟨Nat.zero_le j, by omega⟩).trans ?_
      rw [Nat.sub_zero]
    · exact ⟨rfl, rfl, Function.update_eq_self dp k.icache⟩

/-- The name of a file is not in an earlier entry. -/
theorem Mounted.meets_lookupLoop {e j fuel : ℕ} {name : Mem} {number : Half}
    (inside : j < files.length + 2) (begin : e ≤ j) (enough : j - e < fuel)
    (there : seen ((rootEntries files).getD j blank) = some (text DIRSIZ name, number))
    (first : ∀ q < j, ∀ x ∈ seen ((rootEntries files).getD q blank), x.1 ≠ text DIRSIZ name) :
    Meets (Dir.lookupLoop dev dp name fuel (direntSize * e)) k E fun r k' =>
      Dir.Read k k' ∧ r = some (direntSize * j, number) := by
  have below : ∀ q ≤ j, direntSize * q < (k.icache dp).size.toNat := by
    intro q atMost
    rw [mounted.root_eq complete, complete.size]
    simp only [direntSize, DPB, BSIZE]
    omega
  induction fuel generalizing e k with
  | zero => exact absurd enough (Nat.not_lt_zero _)
  | succ fuel ih =>
      refine meets_bind (meets_get
        (meets_ite (fun _ => ?_) fun last => absurd (below e begin) last))
      refine (mounted.meets_readEntry complete few (begin.trans_lt inside)).bind fun de k' read =>
        ?_
      rcases read with ⟨slot, seen'⟩
      have next : e < j → Meets (Dir.lookupLoop dev dp name fuel (direntSize * e + direntSize)) k' E
          fun r k'' => Dir.Read k k'' ∧ r = some (direntSize * j, number) := by
        intro later
        have rest := ih (mounted.read seen') (e := e + 1) later (by omega)
          (by rw [seen'.icache]; exact below)
        exact rest.mono (fun _ => id) fun r k'' found => ⟨seen'.trans found.1, found.2⟩
      rcases Nat.eq_or_lt_of_le begin with here | later
      · subst here
        rw [there, Dir.slotOf] at slot
        refine meets_ite (fun free => ?_) fun used => ?_
        · rw [if_pos free] at slot
          cases slot
        · rw [if_neg used] at slot
          have both := Option.some.inj slot
          rw [Prod.mk.injEq] at both
          refine meets_ite (fun _ => ?_) fun other =>
            absurd (Dir.namecmp_eq_zero.mpr both.1.symm) other
          rw [both.2]
          exact meets_pure ⟨seen', rfl⟩
      · refine meets_ite (fun _ => next later) fun used => ?_
        refine meets_ite (fun same => ?_) fun _ => next later
        have different := first e later (text DIRSIZ de.name, de.inum)
          (by rw [← slot, Dir.slotOf, if_neg used]; rfl)
        exact absurd (Dir.namecmp_eq_zero.mp same).symm different

end Root

/-! ## The inode of a file -/

section Lookup

variable {k k' : Kernel} {dp i : Fin NINODE}

/-- `iget` of another inode than the root changes no inode that is cached. -/
theorem Mounted.meets_iget {inum : ℕ} (mounted : Mounted img k dp) :
    Meets (Dir.iget inum) k (fun e => e = .iget ∧ ∀ i, 0 < (k.icache i).ref) fun i k' =>
      Mounted img k' dp ∧ (k'.icache i).inum = inum ∧ 0 < (k'.icache i).ref := by
  refine meets_bind (meets_get ?_)
  split
  case h_1 i hit =>
    have found := List.find?_some hit
    simp only [decide_eq_true_eq] at found
    have inodes : ∀ j, ((k.set i { k.icache i with ref := (k.icache i).ref + 1 }).icache
      j).toInode =
        (k.icache j).toInode := by
      intro j
      by_cases same : j = i
      · subst same
        simp only [Kernel.set, Function.update_self]
      · simp only [Kernel.set, Function.update_of_ne same]
    refine meets_bind (meets_modify (f := fun _ => _)
      (meets_pure ⟨⟨mounted.super, mounted.blk, ?_, ?_, ?_⟩, ?_, ?_⟩))
    · rw [inodes]
      exact mounted.directory
    · by_cases same : dp = i
      · subst same
        simp only [Kernel.set, Function.update_self]
        exact Nat.succ_pos _
      · simp only [Kernel.set, Function.update_of_ne same]
        exact mounted.held
    · intro j held valid
      rw [inodes]
      refine mounted.cached j ?_ ?_
      all_goals by_cases same : j = i
      · rw [same]
        exact found.1
      · simpa only [Kernel.set, Function.update_of_ne same] using held
      · subst same
        simpa only [Kernel.set, Function.update_self] using valid
      · simpa only [Kernel.set, Function.update_of_ne same] using valid
    · rw [inodes]
      exact found.2
    · simp only [Kernel.set, Function.update_self]
      exact Nat.succ_pos _
  case h_2 =>
    split
    case h_1 i unused =>
      have free := List.find?_some unused
      simp only [decide_eq_true_eq] at free
      have same : dp ≠ i := by
        rintro rfl
        have := mounted.held
        omega
      refine meets_bind (meets_modify (f := fun _ => _)
        (meets_pure ⟨⟨mounted.super, mounted.blk, ?_, ?_, ?_⟩, ?_, ?_⟩))
      · simp only [Kernel.set, Function.update_of_ne same]
        exact mounted.directory
      · simp only [Kernel.set, Function.update_of_ne same]
        exact mounted.held
      · intro j held valid
        by_cases here : j = i
        · subst here
          simp only [Kernel.set, Function.update_self] at valid
          cases valid
        · simp only [Kernel.set, Function.update_of_ne here] at held valid ⊢
          exact mounted.cached j held valid
      · simp only [Kernel.set, Function.update_self]
      · simp only [Kernel.set, Function.update_self]
        exact Nat.one_pos
    case h_2 none =>
      refine meets_throw ⟨rfl, fun i => Nat.pos_of_ne_zero ?_⟩
      simpa using List.find?_eq_none.mp none i (List.mem_finRange i)

variable {j : ℕ}

/-- `ilock` finds the inode that `winode` has stored. -/
theorem Mounted.ilock (mounted : Mounted img k dp) (complete : Complete img n files)
    (inum : (k.icache i).inum < NINODES) (used : (diskInode sb img.blk (k.icache i).inum).type ≠ 0)
    (held : 0 < (k.icache i).ref) (free : (k.icache i).locked = false) : ∃ k', k.ilock i = some k' ∧
      (k'.icache i).toInode = diskInode sb img.blk (k.icache i).inum ∧ k'.fs.sb = sb ∧
        k'.fs.blk = img.blk := by
  have same := mounted.sb_eq complete
  have data := mounted.blk
  rw [Kernel.ilock]
  simp only [if_neg (Nat.not_lt.mpr held), free]
  by_cases valid : (k.icache i).valid = true
  · rw [if_pos valid]
    refine ⟨_, rfl, ?_, same, data⟩
    have cached := mounted.cached i held valid
    rw [same, data] at cached
    simp only [Kernel.set, Function.update_self]
    exact cached
  · rw [if_neg valid]
    have onDisk : sb.iblock (k.icache i).inum < FSSIZE := iblock_lt_fssize ⟨(k.icache i).inum, inum⟩
    have loaded : Meets (loadInode (k.icache i).inum) k.fs (fun _ => False) fun d fs =>
        d = (diskInode sb img.blk (k.icache i).inum).toDinode ∧ fs.sb = sb ∧ fs.blk = img.blk := by
      refine meets_bind (meets_get ?_)
      rw [same]
      refine meets_bind (meets_bread onDisk fun calls => meets_bind (meets_brelse fun calls => ?_))
      rw [data]
      exact meets_ite (fun empty => absurd empty used) fun _ => meets_pure ⟨rfl, same, rfl⟩
    rcases loaded.returns (fun _ impossible => impossible) with ⟨d, fs, ran, value, sb', blk'⟩
    have called : k.call (loadInode (k.icache i).inum) = some (d, { k with fs := fs }) := by
      rw [Kernel.call, ran]
    rw [called]
    refine ⟨_, rfl, ?_, sb', blk'⟩
    simp only [Kernel.set, Function.update_self, value]
    rfl

/-- The inode of a file that is not a directory, with its blocks. -/
theorem Complete.owned (complete : Complete img n files) {i : Fin NINODES} (isFile : 2 ≤ i.val) :
    Owned sb img.blk (single (diskInode sb img.blk i)) := by
  have plain : ∀ k w, target (diskInode sb img.blk i).type k w = w.toNat := by
    intro k w
    have type : (diskInode sb img.blk i).type = typeOf (files.length + 2) i := complete.types i
    have unchecked : typeOf (files.length + 2) i ≠ T_CHECKED := by
      rw [typeOf]
      split_ifs <;> decide
    rw [target, mask, type, if_neg unchecked, ite_self]
  have block : ∀ b < FSSIZE, sb.bblock b = sb.bmapstart := by
    intro b inside
    rw [Superblock.bblock, Nat.div_eq_of_lt (inside.trans (by decide)), Nat.zero_add]
  have marks : ∀ b < FSSIZE, marked sb img.blk b = decide (b < n) := by
    intro b inside
    rw [marked, block b inside, complete.bits, bit_bitmap (complete.bound.trans (by decide)),
      Nat.mod_eq_of_lt (inside.trans (by decide))]
  have refers : ∀ k b, ref img.blk (diskInode sb img.blk i).toDinode k = some b →
      slot img.blk (inodes img.blk i) k ≠ 0 ∧ (slot img.blk (inodes img.blk i) k).toNat = b := by
    intro k b found
    have both := ref_eq_some.mp found
    rw [plain] at both
    exact both
  have inside : ∀ k b, ref img.blk (diskInode sb img.blk i).toDinode k = some b →
      nmeta ≤ b ∧ b < n := by
    intro k b found
    rcases refers k b found with ⟨used, rfl⟩
    exact complete.ledger.inside i k used
  have stores := complete.stored i (ne_root isFile)
  refine ⟨⟨by decide, by decide, by decide, by decide⟩, ?_, fun _ => i.isLt, ?_, ?_, ?_, ?_⟩
  · intro b below
    have small : b < FSSIZE := below.trans (by decide)
    rw [marks b small]
    have start := complete.ledger.start
    have first : sb.dataStart = nmeta := by decide
    exact decide_eq_true (by omega)
  · intro _ k b found
    have bounds := inside k b found
    exact ⟨bounds.1, bounds.2.trans_le complete.bound⟩
  · intro _ k b found
    have bounds := inside k b found
    rw [marks b (bounds.2.trans_le complete.bound)]
    exact decide_eq_true bounds.2
  · intro _ k _ l b first second
    rcases refers k b first with ⟨used, holds⟩
    rcases refers l b second with ⟨_, holds'⟩
    exact ⟨rfl, (complete.ledger.once i k i l used
      (BitVec.eq_of_toNat_eq (holds.trans holds'.symm))).2⟩
  · intro _ k below
    have size := stores.size
    have small := stores.small
    change k * BSIZE < (inodes img.blk i).size.toNat at below
    have inRange : k < MAXFILE := by
      simp only [BSIZE] at below small ⊢
      omega
    exact ⟨inRange, (stores.slots k inRange).mpr (by omega)⟩

/-- The locked inode `i` is that of the file, and `readi` returns its bytes. -/
structure Reads (dev : Devsw) (k : Kernel) (i : Fin NINODE) (file : File) : Prop where
  type : (k.icache i).type = T_FILE
  nlink : (k.icache i).nlink = 1
  size : (k.icache i).size.toNat = file.contents.length
  bytes : ∀ dst, Meets (readi dev (k.icache i).toInode dst 0 (k.icache i).size) k.fs
    (fun _ => False) fun r _ =>
    r.ret = file.contents.length ∧ (List.range file.contents.length).map r.dst = file.contents

theorem contentsOf_file (inside : j < files.length) :
    contentsOf files (j + 2) = files[j].contents := by
  rw [contentsOf, if_pos (by omega), Nat.add_sub_cancel, List.getElem?_eq_getElem inside]
  rfl

/-- The kernel reads the contents of a file. -/
theorem Complete.reads (complete : Complete img n files) (few : files.length ≤ NINODES - 2)
    (inside : j < files.length) (inode : (k.icache i).toInode = diskInode sb img.blk (j + 2))
    (same : k.fs.sb = sb) (data : k.fs.blk = img.blk) : Reads dev k i files[j] := by
  have inRange : j + 2 < NINODES := by
    simp only [NINODES] at few ⊢
    omega
  have isFile : 2 ≤ (⟨j + 2, inRange⟩ : Fin NINODES).val := Nat.le_add_left 2 j
  have owned := complete.owned isFile
  have stores := complete.stored _ (ne_root isFile)
  rw [contentsOf_file inside] at stores
  have type : (diskInode sb img.blk (j + 2)).type = T_FILE := by
    have listed := complete.types ⟨j + 2, inRange⟩
    rw [typeOf, if_neg (by simp only [ROOTINO]; omega), if_pos (by simp only; omega)] at listed
    exact listed
  have small := stores.small
  have size : (diskInode sb img.blk (j + 2)).size.toNat = files[j].contents.length := stores.size
  simp only [MAXFILE, NDIRECT, NINDIRECT, BSIZE] at small
  refine ⟨?_, ?_, ?_, fun dst => ?_⟩
  all_goals rw [inode]
  · exact type
  · exact complete.nlink ⟨j + 2, inRange⟩ isFile (by simp only; omega)
  · exact size
  · have regular : (diskInode sb img.blk (j + 2)).type ≠ T_DEV ∧
        (diskInode sb img.blk (j + 2)).type ≠ T_CHECKED := by
      rw [type]
      decide
    rw [← same, ← data] at owned regular ⊢
    refine (readi_whole owned regular dst).mono (fun _ => id) fun r _ read => ?_
    rw [same, data] at read
    rcases read with ⟨ret, bytes⟩
    rw [size] at ret bytes
    refine ⟨ret, List.ext_getElem (by simp) fun x inList inFile => ?_⟩
    have block : x / BSIZE < MAXFILE := by
      simp only [MAXFILE, NDIRECT, NINDIRECT, BSIZE]
      omega
    have used := (stores.slots _ block).mpr ((Nat.div_mul_le_self x BSIZE).trans_lt inFile)
    have address : mask (inodes img.blk ⟨j + 2, inRange⟩).type
        (slot img.blk (inodes img.blk ⟨j + 2, inRange⟩) (x / BSIZE)) =
        slot img.blk (inodes img.blk ⟨j + 2, inRange⟩) (x / BSIZE) := by
      refine if_neg ?_
      change (diskInode sb img.blk (j + 2)).type ≠ T_CHECKED
      rw [type]
      decide
    have value : byteAt img.blk (diskInode sb img.blk (j + 2)).toDinode x =
        files[j].contents.getD x 0 := by
      refine (byteAt_eq block used).trans ?_
      rw [address]
      exact stores.bytes x inFile
    rw [List.getElem_map, List.getElem_range, bytes x inFile]
    exact value.trans (List.getD_eq_getElem _ _ inFile)

/-- The names of two files differ in the bytes that the directory keeps, and so do the names `.` and
`..`. -/
theorem earlier_ne {q : ℕ} {x : List Byte × Half} (few : files.length ≤ NINODES - 2)
    (distinct : (files.map fun file => (strip file.name).take DIRSIZ).Nodup) (plain : Plain files)
    (inside : j < files.length) (before : q < j + 2)
    (listed : x ∈ seen ((rootEntries files).getD q blank)) :
    x.1 ≠ (strip files[j].name).take DIRSIZ := by
  have names := plain _ (List.getElem_mem inside)
  have whole : ∀ short : List Byte, short.length < DIRSIZ →
    (strip files[j].name).take DIRSIZ = short →
      strip files[j].name = short := by
    intro short few equal
    have length := congrArg List.length equal
    rw [List.length_take] at length
    rwa [List.take_of_length_le (by omega)] at equal
  rcases q with _ | _ | q
  · have first : seen ((rootEntries files).getD 0 blank) = some (dot, BitVec.ofNat 16 ROOTINO) :=
      seen_entry (by decide) (by decide) (by decide)
    rw [first] at listed
    cases listed
    exact fun equal => names.1 (whole _ (by decide) equal.symm)
  · have second : seen ((rootEntries files).getD 1 blank) =
        some (dotdot, BitVec.ofNat 16 ROOTINO) :=
      seen_entry (by decide) (by decide) (by decide)
    rw [second] at listed
    cases listed
    exact fun equal => names.2 (whole _ (by decide) equal.symm)
  · have less : q < j := by omega
    rw [seen_rootEntries few (less.trans inside)] at listed
    cases listed
    intro equal
    have apart := List.pairwise_iff_getElem.mp distinct q j (by simpa using less.trans inside)
      (by simpa using inside) less
    simp only [List.getElem_map] at apart
    exact apart equal

/-- What `mkfs` has made of an input file is what the kernel finds under its name. It stops only if
its inode cache is full. -/
theorem reads_back (files : List File) (few : files.length ≤ NINODES - 2)
    (distinct : (files.map fun file => (strip file.name).take DIRSIZ).Nodup) (plain : Plain files)
    (s : St) (done : main files start = .ok ((), s)) (dev : Devsw) (k : Kernel) (dp : Fin NINODE)
    (mounted : Mounted s.img k dp) (j : ℕ) (inside : j < files.length) :
    Meets (Dir.dirlookup dev dp (pointer (strip files[j].name))) k
      (fun e => e = .iget ∧ ∀ i, 0 < (k.icache i).ref) fun r k' => ∃ off i, r = some (off, i) ∧
        (k'.icache i).inum = j + 2 ∧ ((k'.icache i).locked = false →
          ∃ k'', k'.ilock i = some k'' ∧ Reads dev k'' i files[j]) := by
  have complete := complete_of_main few done
  have isRoot := mounted.root_eq complete
  have terminated := not_mem_strip files[j].terminated
  have inRange : j + 2 < NINODES := by
    simp only [NINODES] at few ⊢
    omega
  have type : (k.icache dp).type = T_DIR := by
    rw [isRoot, complete.types root]
    rfl
  have enough : j + 2 - 0 < (k.icache dp).size.toNat := by
    rw [isRoot, complete.size]
    simp only [DPB, BSIZE]
    omega
  have there := seen_rootEntries few inside
  rw [← text_pointer terminated] at there
  refine meets_bind (meets_get
    (meets_ite (fun other => absurd type other) fun _ => meets_bind (meets_get ?_)))
  refine (mounted.meets_lookupLoop complete few (Nat.add_lt_add_right inside 2)
    (Nat.zero_le _) enough there
    fun q before x listed => ?_).bind fun r k₁ found => ?_
  · rw [text_pointer terminated]
    exact earlier_ne few distinct plain inside before listed
  · rcases found with ⟨read, rfl⟩
    have number : (BitVec.ofNat 16 (j + 2)).toNat = j + 2 := by
      simp only [NINODES] at inRange
      rw [BitVec.toNat_ofNat, Nat.mod_eq_of_lt (by omega)]
    refine ((mounted.read read).meets_iget.mono (fun e full => ?_) fun i k₂ got => got).bind
      fun i k₂ got => meets_pure ?_
    · rwa [read.icache] at full
    rcases got with ⟨mounted₂, inum, held⟩
    rw [number] at inum
    refine ⟨_, i, rfl, inum, fun free => ?_⟩
    have used : (diskInode sb s.img.blk (j + 2)).type ≠ 0 := by
      have listed := complete.types ⟨j + 2, inRange⟩
      rw [typeOf, if_neg (by simp only [ROOTINO]; omega), if_pos (by simp only; omega)] at listed
      change (inodes s.img.blk ⟨j + 2, inRange⟩).type ≠ 0
      rw [listed]
      decide
    rcases mounted₂.ilock complete (by rwa [inum]) (by rwa [inum]) held free
      with ⟨k₃, locked, inode, same, data⟩
    rw [inum] at inode
    exact ⟨k₃, locked, complete.reads few inside inode same data⟩

/-- The kernel after it has locked the root of a new image. -/
def boot (img : Image) : Kernel where
  fs := { sb := getSb (img.blk 1), blk := img.blk, calls := [] }
  icache := fun i =>
    { toInode := if i = 0 then diskInode (getSb (img.blk 1)) img.blk ROOTINO else ⟨zeroDinode, 0⟩
      ref := if i = 0 then 1 else 0
      valid := i = 0
      locked := i = 0 }

theorem mounted_boot (img : Image) : Mounted img (boot img) 0 := by
  refine ⟨rfl, rfl, rfl, Nat.one_pos, fun i held _ => ?_⟩
  have first : i = 0 := by
    by_contra other
    simp only [boot, if_neg other] at held
    exact absurd held (lt_irrefl 0)
  subst first
  rfl

/-- The kernel finds the file and its contents in the image. -/
theorem reads_back_smallFile : ∃ s, main [smallFile] start = .ok ((), s) ∧
    Meets (Dir.dirlookup ⟨fun _ => none, fun _ => none⟩ 0 (pointer (strip smallFile.name)))
      (boot s.img)
      (fun _ => False) fun r k' => ∃ off i, r = some (off, i) ∧ (k'.icache i).inum = 2 ∧
        ((k'.icache i).locked = false →
          ∃ k'', k'.ilock i = some k'' ∧ Reads ⟨fun _ => none, fun _ => none⟩ k'' i smallFile) := by
  have fits : Fits [smallFile] := by
    refine ⟨?_, by decide⟩
    intro file mem
    rw [List.mem_singleton.mp mem]
    decide
  have plain : Plain [smallFile] := by
    intro file mem
    rw [List.mem_singleton.mp mem]
    decide
  rcases main_returns (by decide) fits with ⟨s, done⟩
  refine ⟨s, done, ?_⟩
  refine (reads_back [smallFile] (by decide) (by decide) plain s done _ _ 0 (mounted_boot _) 0
    (by decide)).mono
    (fun e full => ?_) fun _ _ found => found
  exact absurd (full.2 1) (lt_irrefl 0)

end Lookup

end Xv6.Mkfs
