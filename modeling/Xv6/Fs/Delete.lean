import Xv6.Fs.Corruption
import Xv6.Fs.WriteThrough

/-!
# Deleting a file

When `iput` drops the last reference to an inode without links, `itrunc` passes every
address of the inode to `bfree`. The addresses of a checksummed file carry their tags,
and `itrunc` does not strip them: a tag other than zero makes an address whose bitmap
block does not exist, and the kernel stops. Otherwise exactly the blocks of the file
are freed.
-/

namespace Xv6.Fs

open Prog

/-! ## What writes keep -/

/-- Writes keep the type and number of their inode, and the superblock. -/
structure Keeps (s s' : St) (ip ip' : Inode) : Prop where
  sb : s'.sb = s.sb
  super : s'.blk 1 = s.blk 1
  owned : Owned s'.sb s'.blk (single ip')
  type : ip'.type = ip.type
  inum : ip'.inum = ip.inum

theorem flush_super {sb : Superblock} {blk : Disk} (layout : Layout sb) (ip : Inode) (last : ℕ) :
    flush sb blk ip last 1 = blk 1 := by
  rw [flush]
  split
  · apply Function.update_of_ne
    have := layout.super
    simp only [Superblock.iblock, IPB, BSIZE]
    omega
  · rfl

/-- `writei` keeps the ownership of the blocks. -/
theorem writei_keeps {dev : Devsw} {s : St} {ip : Inode} (own : Owned s.sb s.blk (single ip))
    (notDev : ip.type ≠ T_DEV) (w : Write) :
    Meets (writei dev ip w.src w.off w.n) s (fun _ => True) fun r s' => Keeps s s' ip r.2 := by
  by_cases rejected : rejects ip.size.toNat w.off.toNat w.n.toNat
  · simp only [Meets, writei_of_rejects notDev rejected]
    exact ⟨rfl, rfl, own, rfl, rfl⟩
  · refine writei_meets (i := ()) rfl own notDev rejected (fun _ => trivial) ?_
    intro ip' blk' calls done
    simp only [rejects, not_or, Nat.not_lt, Nat.not_le] at rejected
    have owned := done.owned_flush rejected.1 rejected.2.2
    rw [update_single] at owned
    refine ⟨rfl, ?_, owned, ?_, ?_⟩
    · show flush s.sb blk' ip' (w.off.toNat + w.n.toNat) 1 = s.blk 1
      rw [flush_super own.layout, done.low 1 (one_lt_bmapstart own.layout)]
    · rw [type_extend, done.type_eq]
    · rw [inum_extend, done.fields]

theorem runWrites_keeps {dev : Devsw} {ws : List Write} {s s' : St} {ip ip' : Inode}
    (own : Owned s.sb s.blk (single ip)) (notDev : ip.type ≠ T_DEV)
    (run : runWrites dev ws ip s = .ok (ip', s')) : Keeps s s' ip ip' := by
  induction ws generalizing s ip with
  | nil =>
      cases run
      exact ⟨rfl, rfl, own, rfl, rfl⟩
  | cons w ws ih =>
      rcases ok_of_bind run with ⟨r, s₁, first, rest⟩
      have one := (writei_keeps own notDev w).of_ok first
      have more := ih one.owned (by rw [one.type]; exact notDev) rest
      exact ⟨more.sb.trans one.sb, more.super.trans one.super, more.owned,
        more.type.trans one.type, more.inum.trans one.inum⟩

/-! ## Freeing an inode -/

section Free

variable {s : St} {E : Panic → Prop} {ip : Inode}

/-- Deleting frees all blocks of the file, or meets one whose number is too large for the disk. -/
theorem freeInode_frees_meets {Q : Inode → St → Prop} (own : Owned s.sb s.blk (single ip))
    (super : getSb (s.blk 1) = s.sb)
    (far : ∀ k ≤ MAXFILE, ¬Near s.sb (slot s.blk ip.toDinode k) → ∀ e, E e)
    (post : ∀ blk' calls, Freed s.sb s.blk blk' (blocksOf s.blk ip.toDinode) →
      (∀ k ≤ MAXFILE, Near s.sb (slot s.blk ip.toDinode k)) →
      Q { emptied ip with type := 0 }
        { s with
          blk := putInode s.sb (putInode s.sb blk' (emptied ip)) { emptied ip with type := 0 }
          calls := calls }) :
    Meets (freeInode ip) s E Q := by
  refine meets_bind (itrunc_frees_meets (i := ()) (rfl : single ip () = ip) own super far ?_)
  intro blk' calls freed near
  refine meets_bind (iupdate_meets
    (s := { s with blk := putInode s.sb blk' (emptied ip), calls := calls }) own.layout
    (own.inum ())
    fun calls => meets_pure ?_)
  exact post blk' calls freed near

/-- An address without a tag is the number of a block. -/
theorem near_of_ref {k : ℕ} (own : Owned s.sb s.blk (single ip))
    (plain : ∀ b, ref s.blk ip.toDinode k = some b → (slot s.blk ip.toDinode k).toNat = b) :
    Near s.sb (slot s.blk ip.toDinode k) := by
  intro nonzero
  have refers : ref s.blk ip.toDinode k = some (target ip.type k (slot s.blk ip.toDinode k)) :=
    ref_eq_some.mpr ⟨nonzero, rfl⟩
  rw [plain _ refers]
  have below := bblock_lt (own.data () k _ refers).2
  have := own.layout.bitmap
  have := own.layout.disk
  omega

/-- The numbers with their tags are small exactly if all tags are zero. -/
theorem near_iff_untagged (own : Owned s.sb s.blk (single ip))
    (checked : ip.type = T_CHECKED → Checked s.sb s.blk ip) :
    (∀ k ≤ MAXFILE, Near s.sb (slot s.blk ip.toDinode k)) ↔
      (ip.type = T_CHECKED → ∀ bn b, bn * BSIZE < ip.size.toNat →
        ref s.blk ip.toDinode bn = some b → xorBytes (s.blk b) = 0) := by
  have value : ∀ bn b, ip.type = T_CHECKED → bn * BSIZE < ip.size.toNat →
      ref s.blk ip.toDinode bn = some b →
      (slot s.blk ip.toDinode bn).toNat = b + (xorBytes (s.blk b)).toNat * 2 ^ 24 := by
    intro bn b type below refers
    rcases (checked type).tag_eq below refers with ⟨tag, small⟩
    rw [tag, toNat_tagged small, checksum_mod]
  constructor
  · intro near type bn b below refers
    have inFile := (own.allocated () bn below).1
    have onDisk := near bn inFile.le (ref_eq_some.mp refers).1
    rw [value bn b type below refers] at onDisk
    apply BitVec.eq_of_toNat_eq
    show (xorBytes (s.blk b)).toNat = 0
    simp only [Superblock.bblock, BPB, BSIZE, FSSIZE] at onDisk
    omega
  · intro untagged k inFile
    apply near_of_ref own
    intro b refers
    rcases inFile.eq_or_lt with isLast | isData
    · rw [isLast] at refers ⊢
      have eq := (ref_eq_some.mp refers).2
      rwa [target, if_pos rfl] at eq
    · by_cases type : ip.type = T_CHECKED
      · have below := (checked type).tight k isData (ref_eq_some.mp refers).1
        rw [value k b type below refers, untagged type k b below refers]
        rfl
      · have eq := (ref_eq_some.mp refers).2
        rwa [target, if_neg isData.ne, mask, if_neg type] at eq

end Free

/-! ## The whole of `iput` -/

/-- `iput` of cache entry `i`, which holds `ip`, completes; it clears exactly the bits of the blocks
of `ip`, and frees its dinode. -/
def Deletes (k : Kernel) (i : Fin NINODE) (ip : Inode) : Prop :=
  ∃ k', k.iput i = some k' ∧
    (∀ b, b ∈ blocksOf k.fs.blk ip.toDinode →
      marked k.fs.sb k.fs.blk b = true ∧ marked k'.fs.sb k'.fs.blk b = false) ∧
    (∀ b, b ∉ blocksOf k.fs.blk ip.toDinode →
      marked k'.fs.sb k'.fs.blk b = marked k.fs.sb k.fs.blk b) ∧
    (diskInode k'.fs.sb k'.fs.blk ip.inum).type = 0 ∧
    (diskInode k'.fs.sb k'.fs.blk ip.inum).size = 0 ∧
    ∀ j, (diskInode k'.fs.sb k'.fs.blk ip.inum).addrs j = 0

/-- The last reference to an inode without links. -/
def lastEntry (ip : Inode) : Entry :=
  { toInode := { ip with nlink := 0 }, ref := 1, valid := true, locked := false }

theorem iput_lastEntry {k : Kernel} {i : Fin NINODE} {ip : Inode}
    (entry : k.icache i = lastEntry ip) :
    k.iput i = (k.call (freeInode { ip with nlink := 0 })).map fun r =>
      r.2.set i { toInode := r.1, ref := 0, valid := false, locked := false } := by
  simp [Kernel.iput, entry, lastEntry]

/-- A file of any type that `writei` has written is deleted exactly when it is not checksummed, or
the exclusive-or of each of its blocks is zero. -/
theorem deletes_iff_untagged {dev : Devsw} {ws : List Write} {s s' : St} {ip ip' : Inode}
    (layout : Layout s.sb) (low : ∀ b < s.sb.dataStart, marked s.sb s.blk b = true)
    (super : getSb (s.blk 1) = s.sb) (inum : ip.inum < s.sb.ninodes)
    (type : ip.type = T_FILE ∨ ip.type = T_DIR ∨ ip.type = T_CHECKED)
    (addrs : ∀ k ≤ NDIRECT, ip.addr k = 0) (size : ip.size = 0)
    (run : runWrites dev ws ip s = .ok (ip', s')) {k : Kernel} {i : Fin NINODE} (fs : k.fs = s')
    (entry : k.icache i = lastEntry ip') :
    Deletes k i ip' ↔ (ip.type = T_CHECKED → ∀ bn b, bn * BSIZE < ip'.size.toNat →
      ref s'.blk ip'.toDinode bn = some b → xorBytes (s'.blk b) = 0) := by
  have start : Owned s.sb s.blk (single ip) :=
    Owned.of_empty layout low (fun _ => inum) (fun _ => addrs) fun _ => size
  have notDev : ip.type ≠ T_DEV := by
    rcases type with eq | eq | eq <;> rw [eq] <;> decide
  have keeps := runWrites_keeps start notDev run
  have checked : ip'.type = T_CHECKED → Checked s'.sb s'.blk ip' := by
    intro isChecked
    rw [keeps.type] at isChecked
    exact (runWrites_checked (Checked.of_empty layout low inum isChecked addrs size) run).1
  rw [← keeps.type, ← near_iff_untagged keeps.owned checked]
  subst fs
  -- Setting `nlink` to zero changes no block.
  have owned : Owned k.fs.sb k.fs.blk (single { ip' with nlink := 0 }) :=
    keeps.owned.of_refs (fun _ _ => rfl) (fun _ _ => rfl) (fun _ => rfl) keeps.owned.allocated
  have onDisk : getSb (k.fs.blk 1) = k.fs.sb := by
    rw [keeps.super, keeps.sb, super]
  have meets : Meets (freeInode { ip' with nlink := 0 }) k.fs
      (fun _ => ¬∀ l ≤ MAXFILE, Near k.fs.sb (slot k.fs.blk ip'.toDinode l))
      fun r fs' => (∀ l ≤ MAXFILE, Near k.fs.sb (slot k.fs.blk ip'.toDinode l)) ∧
        ∃ blk' calls, Freed k.fs.sb k.fs.blk blk' (blocksOf k.fs.blk ip'.toDinode) ∧
          fs' = { k.fs with
            blk := putInode k.fs.sb (putInode k.fs.sb blk' (emptied { ip' with nlink := 0 }))
              { emptied { ip' with nlink := 0 } with type := 0 }
            calls := calls } := by
    refine freeInode_frees_meets owned onDisk ?_ ?_
    · intro l inFile notNear _ near
      exact notNear (near l inFile)
    · intro blk' calls freed near
      exact ⟨near, blk', calls, freed, rfl⟩
  rw [Deletes, iput_lastEntry entry, Kernel.call]
  cases outcome : freeInode { ip' with nlink := 0 } k.fs with
  | error e =>
      refine ⟨?_, fun near => absurd near (meets.of_error outcome)⟩
      rintro ⟨k', impossible, _⟩
      cases impossible
  | ok r =>
      rcases meets.of_ok outcome with ⟨near, blk', calls, freed, state⟩
      refine ⟨fun _ => near, fun _ => ?_⟩
      have inRange : ip'.inum < k.fs.sb.ninodes := owned.inum ()
      have marks : ∀ b, marked r.2.sb r.2.blk b = marked k.fs.sb blk' b := by
        intro b
        rw [state]
        show marked k.fs.sb (putInode k.fs.sb (putInode k.fs.sb blk' _) _) b = _
        rw [marked_putInode owned.layout (by exact inRange),
          marked_putInode owned.layout (by exact inRange)]
      have cleared : diskInode r.2.sb r.2.blk ip'.inum =
          { emptied { ip' with nlink := 0 } with type := 0 } := by
        rw [state]
        show diskInode k.fs.sb (putInode k.fs.sb _ _) ip'.inum = _
        rw [diskInode_putInode]
        exact if_pos rfl
      refine ⟨_, rfl, ?_, ?_, ?_⟩
      · intro b mem
        rcases mem with ⟨l, refers⟩
        refine ⟨keeps.owned.used () l b refers, ?_⟩
        show marked r.2.sb r.2.blk b = false
        rw [marks b, Bool.eq_false_iff, Ne, freed.marks b]
        exact fun set => set.2 ⟨l, refers⟩
      · intro b other
        exact (marks b).trans (freed.cleared.marks b other)
      · show (diskInode r.2.sb r.2.blk ip'.inum).type = 0 ∧
          (diskInode r.2.sb r.2.blk ip'.inum).size = 0 ∧
            ∀ j, (diskInode r.2.sb r.2.blk ip'.inum).addrs j = 0
        rw [cleared]
        exact ⟨rfl, rfl, fun _ => rfl⟩

/-- The disk of `mkfs` before any file is added, with its superblock. -/
def superSt : St := ⟨.mkfs, Function.update emptyDisk 1 superBlock, []⟩

theorem low_superSt : ∀ b < Superblock.mkfs.dataStart, marked .mkfs superSt.blk b = true := by
  decide +kernel

/-- A file of three bytes is deleted. -/
theorem deletes_threeBytes : ∃ ip' s',
    runWrites noDevices [threeBytes] (emptyInode T_FILE 2) superSt = .ok (ip', s') ∧
      Deletes ⟨s', fun _ => lastEntry ip'⟩ 0 ip' := by
  have outcome : ((runWrites noDevices [threeBytes] (emptyInode T_FILE 2) superSt).toOption.map
      fun r => r.1.size) = some 3 := by
    decide +kernel
  rcases ok_of_evaluated outcome with ⟨r, run, _⟩
  refine ⟨r.1, r.2, run, ?_⟩
  refine (deletes_iff_untagged layout_mkfs low_superSt (by decide +kernel) (by decide)
    (Or.inl rfl) (fun _ _ => rfl) rfl run rfl rfl).mpr ?_
  intro checked
  cases checked

/-- The exclusive-or of the three bytes is 6, and `itrunc` of the checksummed file stops. -/
theorem not_deletes_threeBytes : ¬∀ (dev : Devsw) (ws : List Write) (s s' : St) (ip ip' : Inode),
    Layout s.sb → (∀ b < s.sb.dataStart, marked s.sb s.blk b = true) → getSb (s.blk 1) = s.sb →
    ip.inum < s.sb.ninodes → (ip.type = T_FILE ∨ ip.type = T_DIR ∨ ip.type = T_CHECKED) →
    (∀ k ≤ NDIRECT, ip.addr k = 0) → ip.size = 0 → runWrites dev ws ip s = .ok (ip', s') →
    ∀ (k : Kernel) (i : Fin NINODE), k.fs = s' → k.icache i = lastEntry ip' → Deletes k i ip' := by
  intro deletes
  have outcome : ((runWrites noDevices [threeBytes] (emptyInode T_CHECKED 2) superSt).toOption.map
      fun r => ((Kernel.mk r.2 fun _ => lastEntry r.1).iput 0).isSome) = some false := by
    decide +kernel
  rcases ok_of_evaluated outcome with ⟨r, run, stops⟩
  rcases deletes noDevices [threeBytes] superSt r.2 _ r.1 layout_mkfs low_superSt
    (by decide +kernel) (by decide) (Or.inr (Or.inr rfl)) (fun _ _ => rfl) rfl run
    ⟨r.2, fun _ => lastEntry r.1⟩ 0 rfl rfl with ⟨k', completes, _⟩
  rw [completes] at stops
  cases stops

end Xv6.Fs
