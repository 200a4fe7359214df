import Xv6.Mkfs.Append

/-!
# The table of inodes

`winode` stores an inode in its block, which lies before the blocks that are handed
out. The ledger is about the inodes on the disk whenever no `iappend` is in progress.
-/

namespace Xv6.Mkfs

open Fs Prog

variable {s s' : St} {E : Exit → Prop} {blk : Disk} {i : Fin NINODES} {n : ℕ}

/-- The inodes on the disk. -/
def inodes (blk : Disk) (i : Fin NINODES) : Dinode := (diskInode sb blk i).toDinode

theorem iblock_bounds (i : Fin NINODES) :
    sb.inodestart ≤ sb.iblock i ∧ sb.iblock i < sb.bmapstart := by
  have inRange := i.isLt
  simp only [Superblock.iblock, sb, ninodeblocks, NINODES, IPB, BSIZE] at *
  omega

theorem iblock_lt_nmeta (i : Fin NINODES) : sb.iblock i < nmeta :=
  (iblock_bounds i).2.trans (by decide)

theorem iblock_lt_fssize (i : Fin NINODES) : sb.iblock i < FSSIZE :=
  (iblock_lt_nmeta i).trans (by decide)

theorem inodes_congr {blk' : Disk}
    (same : ∀ b, sb.inodestart ≤ b → b < sb.bmapstart → blk' b = blk b) :
    inodes blk' = inodes blk := by
  funext i
  have bounds := iblock_bounds i
  rw [inodes, inodes, diskInode, diskInode, same _ bounds.1 bounds.2]

/-- The disk after inode `i` has been stored. -/
def saved (blk : Disk) (i : Fin NINODES) (ip : Dinode) : Disk := putInode sb blk ⟨ip, i⟩

theorem saved_of_ne {ip : Dinode} {b : ℕ} (other : b ≠ sb.iblock i) : saved blk i ip b = blk b :=
  Function.update_of_ne other _ _

theorem inodes_saved {ip : Dinode} :
    inodes (saved blk i ip) = Function.update (inodes blk) i ip := by
  funext j
  rw [inodes, saved, diskInode_putInode]
  by_cases same : j = i
  · subst same
    rw [if_pos rfl, Function.update_self]
  · rw [if_neg (fun equal => same (Fin.ext equal)), Function.update_of_ne same]
    rfl

/-- An inode is written to its place. -/
theorem meets_winode {ip : Dinode} {Q : Unit → St → Prop} (count : s.img.count = FSSIZE)
    (post : Q () { s with img := { s.img with blk := saved s.img.blk i ip } }) :
    Meets (winode i ip) s E Q := by
  have inside : sb.iblock i < s.img.count := by
    rw [count]
    exact iblock_lt_fssize i
  have small : sb.iblock i < 2 ^ 23 := (iblock_lt_fssize i).trans (by decide)
  refine meets_bind (meets_rsect small (fun behind => absurd inside (Nat.not_lt.mpr behind)) ?_)
  intro _
  exact meets_wsect small inside post

theorem meets_rinode {Q : Dinode → St → Prop} (count : s.img.count = FSSIZE)
    (post : Q (inodes s.img.blk i) s) : Meets (rinode i) s E Q := by
  have inside : sb.iblock i < s.img.count := by
    rw [count]
    exact iblock_lt_fssize i
  have small : sb.iblock i < 2 ^ 23 := (iblock_lt_fssize i).trans (by decide)
  refine meets_bind (meets_rsect small (fun behind => absurd inside (Nat.not_lt.mpr behind)) ?_)
  intro _
  exact meets_pure post

theorem slot_of_addrs {ip ip' : Dinode} (same : ip'.addrs = ip.addrs) (k : ℕ) :
    slot blk ip' k = slot blk ip k := by
  have addr : ∀ a, ip'.addr a = ip.addr a := by
    intro a
    rw [Dinode.addr, Dinode.addr, same]
  simp only [slot, addr]

/-- The blocks before the data hold no slots. -/
theorem Ledger.of_low {ι : Type} {ips ips' : ι → Dinode} {blk' : Disk} (ledger : Ledger blk ips n)
    (same : ∀ b, nmeta ≤ b → blk' b = blk b) (addrs : ∀ i, (ips' i).addrs = (ips i).addrs) :
    Ledger blk' ips' n := by
  refine ledger.of_slots ?_ ?_
  · intro i k
    rw [slot_of_addrs (addrs i)]
    apply slot_congr
    intro mapped
    apply same
    have inside := ledger.inside i MAXFILE
    rw [slot_maxfile] at inside
    exact (inside mapped).1
  · intro b above
    rw [same b (ledger.start.trans above)]
    exact ledger.zero b above

/-- Writing an inode with its addresses keeps the ledger. -/
theorem Ledger.saved {ip din : Dinode} (ledger : Ledger blk (Function.update (inodes blk) i din) n)
    (addrs : ip.addrs = din.addrs) :
    Ledger (saved blk i ip) (inodes (Mkfs.saved blk i ip)) n := by
  refine ledger.of_low (fun b above => saved_of_ne ?_) fun j => ?_
  · have := iblock_lt_nmeta i
    omega
  · rw [inodes_saved]
    by_cases same : j = i
    · subst same
      rw [Function.update_self, Function.update_self, addrs]
    · rw [Function.update_of_ne same, Function.update_of_ne same]

/-! ## `iappend` -/

/-- A state in which no `iappend` is in progress. -/
structure Sound (s : St) : Prop where
  count : s.img.count = FSSIZE
  bound : s.freeblock ≤ FSSIZE
  ledger : Ledger s.img.blk (inodes s.img.blk) s.freeblock

/-- What an `iappend` to inode `i` leaves alone. -/
structure Kept (s s' : St) (i : Fin NINODES) : Prop where
  freeinode : s'.freeinode = s.freeinode
  others : ∀ j, j ≠ i → inodes s'.img.blk j = inodes s.img.blk j
  type : (inodes s'.img.blk i).type = (inodes s.img.blk i).type
  nlink : (inodes s'.img.blk i).nlink = (inodes s.img.blk i).nlink
  low : ∀ b < sb.inodestart, s'.img.blk b = s.img.blk b
  data : ∀ j, j ≠ i → ∀ k, slot s.img.blk (inodes s.img.blk j) k ≠ 0 →
    s'.img.blk (slot s.img.blk (inodes s.img.blk j) k).toNat =
      s.img.blk (slot s.img.blk (inodes s.img.blk j) k).toNat

/-- The state after `iappend` has stored its copy of the inode. -/
def closed (s : St) (i : Fin NINODES) (din : Dinode) (off : ℕ) : St :=
  { s with img := { s.img with
    blk := saved s.img.blk i { din with size := BitVec.ofNat 32 off } } }

theorem meets_iappend_of_loop {p : List Byte} {Q : Unit → St → Prop} (count : s.img.count = FSSIZE)
    (loop : Meets (appendLoop (inodes s.img.blk i) (inodes s.img.blk i).size.toNat p p.length) s E
      fun r s' => s'.img.count = FSSIZE ∧ Q () (closed s' i r.1 r.2)) :
    Meets (iappend i p) s E Q := by
  refine meets_bind (meets_rinode count (meets_bind (loop.mono (fun _ stop => stop) ?_)))
  rintro ⟨din, off⟩ s' ⟨count', post⟩
  exact meets_winode count' post

theorem closed_of_data {din : Dinode} {off b : ℕ} (above : nmeta ≤ b) :
    (closed s i din off).img.blk b = s.img.blk b := by
  apply saved_of_ne
  have := iblock_lt_nmeta i
  omega

/-- The file of an inode holds the given bytes. -/
structure Stores (blk : Disk) (ip : Dinode) (bs : List Byte) : Prop extends Holds blk ip bs where
  size : ip.size.toNat = bs.length

/-- An inode without blocks. -/
theorem Stores.empty {ip : Dinode} (addrs : ip.addrs = fun _ => 0) (size : ip.size = 0) :
    Stores blk ip [] := by
  have addr : ∀ a, ip.addr a = 0 := by
    intro a
    rw [Dinode.addr, addrs]
  refine ⟨⟨fun k _ => ?_, fun k less => absurd less (Nat.not_lt_zero k), Nat.zero_le _⟩, by
    rw [size]; rfl⟩
  refine iff_of_false (fun used => used ?_) (Nat.not_lt_zero _)
  by_cases direct : k < NDIRECT
  · rw [slot_direct _ direct, addr]
  · exact slot_unmapped (Nat.not_lt.mp direct) (addr _)

/-- An `iappend` to another inode leaves the bytes of a file alone. -/
theorem Stores.of_kept {j : Fin NINODES} {bs : List Byte}
    (stores : Stores s.img.blk (inodes s.img.blk j) bs) (kept : Kept s s' i) (other : j ≠ i) :
    Stores s'.img.blk (inodes s'.img.blk j) bs := by
  have same := kept.others j other
  refine ⟨stores.toHolds.congr (fun k _ => ?_) fun k _ used => kept.data j other k used, ?_⟩
  · rw [same]
    apply slot_congr
    intro mapped
    have data := kept.data j other MAXFILE
    rw [slot_maxfile] at data
    exact data mapped
  · rw [same]
    exact stores.size

namespace Appended

variable {din : Dinode}

theorem low (appended : Appended s s' (inodes s.img.blk) i din) {b : ℕ} (below : b < nmeta) :
    s'.img.blk b = s.img.blk b := by
  refine appended.kept b fun k used same => ?_
  have inside := appended.ledger.inside i k
  rw [Function.update_self] at inside
  have := (inside used).1
  omega

theorem inodes_eq (appended : Appended s s' (inodes s.img.blk) i din) :
    inodes s'.img.blk = inodes s.img.blk :=
  inodes_congr fun _ _ below => appended.low (below.trans (by decide))

theorem inodes_closed (appended : Appended s s' (inodes s.img.blk) i din) (off : ℕ) :
    inodes (closed s' i din off).img.blk =
      Function.update (inodes s.img.blk) i { din with size := BitVec.ofNat 32 off } := by
  rw [← appended.inodes_eq]
  exact inodes_saved

theorem sound (appended : Appended s s' (inodes s.img.blk) i din) (before : Sound s)
    (bound : s'.freeblock ≤ FSSIZE) (off : ℕ) : Sound (closed s' i din off) where
  count := appended.count.trans before.count
  bound := bound
  ledger := by
    refine Ledger.saved ?_ (show _ = din.addrs from rfl)
    rw [appended.inodes_eq]
    exact appended.ledger

/-- An append changes no other file. -/
theorem keeps (appended : Appended s s' (inodes s.img.blk) i din) (before : Sound s) (off : ℕ) :
    Kept s (closed s' i din off) i := by
  have table := appended.inodes_closed off
  have fields := appended.fields
  refine ⟨appended.freeinode, ?_, ?_, ?_, ?_, ?_⟩
  · intro j other
    rw [table, Function.update_of_ne other]
  · rw [table, Function.update_self, fields]
  · rw [table, Function.update_self, fields]
  · intro b below
    have bounds := iblock_bounds i
    have early : b < nmeta := below.trans (by decide)
    rw [← appended.low early]
    exact saved_of_ne (by omega)
  · intro j other k used
    have lower := (before.ledger.inside j k used).1
    rw [closed_of_data lower]
    have kept := appended.kept_of_slot (k := k) other
    rwa [appended.slot_of_ne other] at kept

end Appended

/-- The bytes that the loop has appended are those of the file when the inode has been stored. -/
theorem Stores.closed {din : Dinode} {off : ℕ} {bs : List Byte} (holds : Holds s.img.blk din bs)
    (table : inodes (closed s i din off).img.blk i = { din with size := BitVec.ofNat 32 off })
    (inside : ∀ k, slot s.img.blk din k ≠ 0 → nmeta ≤ (slot s.img.blk din k).toNat)
    (size : off = bs.length) :
    Stores (closed s i din off).img.blk (inodes (Mkfs.closed s i din off).img.blk i) bs := by
  rw [table]
  refine ⟨holds.congr (fun k _ => ?_) fun k _ used => closed_of_data (inside k used), ?_⟩
  · rw [slot_of_addrs (show _ = din.addrs from rfl)]
    apply slot_congr
    intro mapped
    have above := inside MAXFILE
    rw [slot_maxfile] at above
    exact closed_of_data (above mapped)
  · have small := holds.small
    simp only [MAXFILE, NDIRECT, NINDIRECT, BSIZE] at small
    rw [BitVec.toNat_ofNat, size, Nat.mod_eq_of_lt (by omega)]

/-- `iappend` appends its bytes, or the image or the file is full. -/
theorem meets_iappend {p : List Byte} {Q : Unit → St → Prop} (before : Sound s)
    (stop : FSSIZE < s.freeblock + 2 * p.length ∨
      MAXFILE * BSIZE < (inodes s.img.blk i).size.toNat + p.length → ∀ e, E e)
    (post : ∀ s', Sound s' → Kept s s' i →
      (inodes s'.img.blk i).size = BitVec.ofNat 32 ((inodes s.img.blk i).size.toNat + p.length) →
      s'.freeblock ≤ s.freeblock + 2 * p.length →
      (∀ bs, Stores s.img.blk (inodes s.img.blk i) bs →
        Stores s'.img.blk (inodes s'.img.blk i) (bs ++ p)) → Q () s') :
    Meets (iappend i p) s E Q := by
  refine meets_iappend_of_loop before.count
    (meets_appendLoop le_rfl before.ledger before.count before.bound stop ?_)
  intro din off s' appended reached bound few held
  have table := appended.inodes_closed off
  refine ⟨appended.count.trans before.count, post _ (appended.sound before bound off)
    (appended.keeps before off) ?_ few fun bs stores => ?_⟩
  · rw [table, Function.update_self, reached]
  · refine Stores.closed (held bs stores.size stores.toHolds) ?_ (fun k used => ?_) ?_
    · rw [table, Function.update_self]
    · have inside := appended.ledger.inside i k
      rw [Function.update_self] at inside
      exact (inside used).1
    · rw [reached, stores.size, List.length_append]

end Xv6.Mkfs
