import Xv6.Fs.Writei

/-!
# Files as byte arrays

The contents of a file are its first `size` bytes. On files without checksums
`readi` returns a part of the contents and changes nothing, and `writei`
replaces a part of the contents of its own file. Both reject the offsets and
lengths that the byte array has no room for.
-/

namespace Xv6.Fs

open Prog

/-! ## Offsets and lengths -/

theorem add_lt_iff {off n : Word} : off + n < off ↔ 2 ^ 32 ≤ off.toNat + n.toNat := by
  have := off.isLt
  have := n.isLt
  rw [BitVec.lt_def, BitVec.toNat_add]
  omega

theorem toNat_add_of_le {off n : Word} (fits : ¬off + n < off) :
    (off + n).toNat = off.toNat + n.toNat := by
  rw [add_lt_iff] at fits
  rw [BitVec.toNat_add, Nat.mod_eq_of_lt (by omega)]

/-- `readi` and `writei` reject the offset: it is past the end, or the range overflows. -/
theorem rejects_iff {size off n : Word} :
    (off > size ∨ off + n < off) ↔ size.toNat < off.toNat ∨ 2 ^ 32 ≤ off.toNat + n.toNat := by
  rw [add_lt_iff, gt_iff_lt, BitVec.lt_def]

theorem tooLong_iff {off n : Word} (fits : ¬off + n < off) :
    off + n > BitVec.ofNat 32 (MAXFILE * BSIZE) ↔ MAXFILE * BSIZE < off.toNat + n.toNat := by
  have limit : (BitVec.ofNat 32 (MAXFILE * BSIZE)).toNat = MAXFILE * BSIZE := by decide
  rw [gt_iff_lt, BitVec.lt_def, limit, toNat_add_of_le fits]

/-- The length `readi` reads. -/
theorem toNat_clip {size off n : Word} (inside : ¬off > size) (fits : ¬off + n < off) :
    (if off + n > size then size - off else n).toNat = min n.toNat (size.toNat - off.toNat) := by
  rw [gt_iff_lt, BitVec.lt_def] at inside
  split
  next long =>
    rw [gt_iff_lt, BitVec.lt_def, toNat_add_of_le fits] at long
    rw [BitVec.toNat_sub_of_le (BitVec.le_def.mpr (by omega))]
    omega
  next short =>
    rw [gt_iff_lt, BitVec.lt_def, toNat_add_of_le fits] at short
    omega

variable {ι : Type} {s : St} {E : Panic → Prop} {ips : ι → Inode} {i : ι}

/-! ## `readi` -/

theorem Owned.allocated_div {sb : Superblock} {blk : Disk} (own : Owned sb blk ips) {x : ℕ}
    (inside : x < (ips i).size.toNat) :
    x / BSIZE < MAXFILE ∧ slot blk (ips i).toDinode (x / BSIZE) ≠ 0 := by
  apply own.allocated i
  have := Nat.div_mul_le_self x BSIZE
  omega

/-- The byte at an offset below the size. -/
def byteAt (blk : Disk) (ip : Dinode) (x : ℕ) : Byte := (cell blk ip x).getD 0

/-- The byte at an offset, read from the block `bmap` finds. -/
theorem byteAt_eq {blk : Disk} {ip : Dinode} {x : ℕ} (inRange : x / BSIZE < MAXFILE)
    (mapped : slot blk ip (x / BSIZE) ≠ 0) :
    byteAt blk ip x =
      Bytes.get (blk (mask ip.type (slot blk ip (x / BSIZE))).toNat) (x % BSIZE) := by
  have refers : ref blk ip (x / BSIZE) =
      some (mask ip.type (slot blk ip (x / BSIZE))).toNat := by
    rw [ref_eq_some, target, if_neg inRange.ne]
    exact ⟨mapped, rfl⟩
  rw [byteAt, cell, if_pos inRange, refers, Option.map_some, Option.getD_some]

/-- `dst` after the bytes `f 0, f 1, ...` have been stored from `tot` up to `n`. -/
def Mem.fill (dst : Mem) (tot n : ℕ) (f : ℕ → Byte) : Mem :=
  fun j => if tot ≤ j ∧ j < n then f (j - tot) else dst j

theorem Mem.fill_self (dst : Mem) {tot n : ℕ} (none : n ≤ tot) (f : ℕ → Byte) :
    dst.fill tot n f = dst := by
  funext j
  exact if_neg (by omega)

/-- The loop of `readi` copies the bytes of its range. -/
theorem readiLoop_meets {Q : ReadResult → St → Prop} (own : Owned s.sb s.blk ips)
    (plain : (ips i).type ≠ T_CHECKED) {n fuel tot off : ℕ} {dst : Mem} (enough : n - tot ≤ fuel)
    (inside : off + (n - tot) ≤ (ips i).size.toNat)
    (post : ∀ calls, Q ⟨(BitVec.ofNat 32 n).toInt,
        dst.fill tot n fun j => byteAt s.blk (ips i).toDinode (off + j), ips i⟩
      { s with calls := calls }) :
    Meets (readiLoop n fuel tot off (ips i) dst) s E Q := by
  induction fuel generalizing s tot off dst with
  | zero =>
      rw [Mem.fill_self dst (by omega)] at post
      exact meets_pure (post s.calls)
  | succ fuel ih =>
      refine meets_ite (fun more => ?_) fun last => ?_
      · have nonempty := chunk_pos off more
        have inBlock := chunk_le n tot off
        have within : chunk n tot off ≤ n - tot := Nat.min_le_left _ _
        rcases own.allocated_div (i := i) (x := off) (by omega) with ⟨inRange, mapped⟩
        have refers : ref s.blk (ips i).toDinode (off / BSIZE) =
            some (mask (ips i).type (slot s.blk (ips i).toDinode (off / BSIZE))).toNat := by
          rw [ref_eq_some, target, if_neg inRange.ne]
          exact ⟨mapped, rfl⟩
        refine meets_bind (bmap_mapped_meets own inRange mapped fun calls => ?_)
        refine meets_bind (bmap_mapped_meets (s := { s with calls := calls }) own inRange mapped
          fun calls => ?_)
        refine meets_bind (meets_bread (own.lt_fssize refers).2 fun calls => ?_)
        refine meets_ite (fun checked => absurd checked plain) fun _ => ?_
        refine meets_bind (meets_brelse fun calls => ?_)
        refine ih (s := { s with calls := calls }) own (by omega) (by omega) fun calls => ?_
        have copied : (dst.move tot (chunk n tot off)
            (s.blk (mask (ips i).type (slot s.blk (ips i).toDinode (off / BSIZE))).toNat)
            (off % BSIZE)).fill (tot + chunk n tot off) n
              (fun j => byteAt s.blk (ips i).toDinode (off + chunk n tot off + j)) =
            dst.fill tot n fun j => byteAt s.blk (ips i).toDinode (off + j) := by
          funext j
          simp only [Mem.fill, Mem.move]
          by_cases late : tot + chunk n tot off ≤ j ∧ j < n
          · rw [if_pos late, if_pos (by omega)]
            congr 1
            omega
          · rw [if_neg late]
            by_cases early : tot ≤ j ∧ j < tot + chunk n tot off
            · have sameBlock : (off + (j - tot)) / BSIZE = off / BSIZE := by
                simp only [BSIZE] at inBlock ⊢
                omega
              have offset : (off + (j - tot)) % BSIZE = off % BSIZE + (j - tot) := by
                simp only [BSIZE] at inBlock ⊢
                omega
              rw [if_pos early, if_pos (by omega), byteAt_eq (by rw [sameBlock]; exact inRange)
                (by rw [sameBlock]; exact mapped), sameBlock, offset]
            · rw [if_neg early, if_neg (by omega)]
        exact copied ▸ post calls
      · rw [Mem.fill_self dst (by omega)] at post
        exact meets_pure (post s.calls)

/-- `readi` copies the bytes from `off` on, as many as there are. -/
theorem readi_meets {dev : Devsw} {Q : ReadResult → St → Prop} (own : Owned s.sb s.blk ips)
    (regular : (ips i).type ≠ T_DEV ∧ (ips i).type ≠ T_CHECKED) {dst : Mem} {off n : Word}
    (inside : off.toNat ≤ (ips i).size.toNat) (fits : off.toNat + n.toNat < 2 ^ 32)
    (post : ∀ calls, Q ⟨(BitVec.ofNat 32 (min n.toNat ((ips i).size.toNat - off.toNat))).toInt,
        dst.fill 0 (min n.toNat ((ips i).size.toNat - off.toNat))
          fun j => byteAt s.blk (ips i).toDinode (off.toNat + j), ips i⟩
      { s with calls := calls }) :
    Meets (readi dev (ips i) dst off n) s E Q := by
  have accepted : ¬(off > (ips i).size ∨ off + n < off) := by
    rw [rejects_iff]
    omega
  rw [readi, if_neg regular.1, if_neg accepted]
  simp only [toNat_clip (not_or.mp accepted).1 (not_or.mp accepted).2]
  exact readiLoop_meets own regular.2 (by omega) (by omega) post

/-! ## `writei` -/

/-- The inode that `writei` leaves after a write that ends at `last`. -/
def extend (ip : Inode) (last : ℕ) : Inode :=
  if ip.size.toNat < last then { ip with size := BitVec.ofNat 32 last } else ip

/-- The disk that `writei` leaves: a new size is written through. -/
def flush (sb : Superblock) (blk : Disk) (ip : Inode) (last : ℕ) : Disk :=
  if ip.size.toNat < last then
    Function.update blk (sb.iblock ip.inum)
      (putDinode (blk (sb.iblock ip.inum)) (ip.inum % IPB) (extend ip last).toDinode)
  else blk

/-- `iupdate` writes the inode to its place in its block. -/
theorem iupdate_meets {ip : Inode} {Q : Unit → St → Prop} (layout : Layout s.sb)
    (inum : ip.inum < s.sb.ninodes)
    (post : ∀ calls, Q () { s with
      blk := Function.update s.blk (s.sb.iblock ip.inum)
        (putDinode (s.blk (s.sb.iblock ip.inum)) (ip.inum % IPB) ip.toDinode)
      calls := calls }) :
    Meets (iupdate ip) s E Q := by
  have onDisk : s.sb.iblock ip.inum < FSSIZE := by
    have below := iblock_lt layout inum
    have := layout.bitmap
    have := layout.disk
    simp only [Superblock.dataStart, BPB, BSIZE] at *
    omega
  refine meets_bind (meets_get ?_)
  refine meets_bind (meets_bread onDisk fun calls => ?_)
  refine meets_bind (meets_logWrite fun calls => ?_)
  exact meets_brelse post

/-- A change below the bitmap changes no slot. -/
theorem Owned.slot_low {sb : Superblock} {blk blk' : Disk} (own : Owned sb blk ips)
    (same : ∀ b, sb.bmapstart ≤ b → blk' b = blk b) (j : ι) (k : ℕ) :
    slot blk' (ips j).toDinode k = slot blk (ips j).toDinode k := by
  apply slot_congr
  intro mapped
  apply same
  have high := (own.data j MAXFILE _ (ref_maxfile blk mapped)).1
  simp only [Superblock.dataStart, BPB, BSIZE] at high
  omega

theorem flush_high {sb : Superblock} {blk : Disk} {ip : Inode} (layout : Layout sb)
    (inum : ip.inum < sb.ninodes) (last : ℕ) {b : ℕ} (high : sb.bmapstart ≤ b) :
    flush sb blk ip last b = blk b := by
  rw [flush]
  split
  · apply Function.update_of_ne
    have below := iblock_lt layout inum
    omega
  · rfl

theorem slot_extend {blk : Disk} {ip : Inode} (last k : ℕ) :
    slot blk (extend ip last).toDinode k = slot blk ip.toDinode k := by
  rw [extend]
  split
  · rfl
  · rfl

theorem type_extend {ip : Inode} (last : ℕ) : (extend ip last).type = ip.type := by
  rw [extend]
  split
  · rfl
  · rfl

theorem inum_extend {ip : Inode} (last : ℕ) : (extend ip last).inum = ip.inum := by
  rw [extend]
  split
  · rfl
  · rfl

theorem size_extend {ip : Inode} {last : ℕ} (small : last ≤ MAXFILE * BSIZE) :
    (extend ip last).size.toNat = max ip.size.toNat last := by
  have := ip.size.isLt
  simp only [MAXFILE, NINDIRECT, NDIRECT, BSIZE] at small
  rw [extend]
  split
  · rw [BitVec.toNat_ofNat, Nat.mod_eq_of_lt (by omega)]
    omega
  · omega

variable [DecidableEq ι]

/-! The size and its write-through are invisible in the slots and the data blocks. -/

section Flush

variable {sb : Superblock} {blk blk' : Disk} {ip' : Inode} {off n : ℕ} {src : Mem}
  (done : Written sb blk blk' ips i ip' off n src)
include done

theorem Written.inum_lt : ip'.inum < sb.ninodes := by
  have inum := done.owned.inum i
  rwa [Function.update_self] at inum

theorem Written.flush_eq (last : ℕ) {b : ℕ} (high : sb.bmapstart ≤ b) :
    flush sb blk' ip' last b = blk' b :=
  flush_high done.owned.layout done.inum_lt last high

/-- The size and the block of the inode do not change where its blocks are. -/
theorem Written.slot_flush (last : ℕ) (j : ι) (k : ℕ) :
    slot (flush sb blk' ip' last) (Function.update ips i (extend ip' last) j).toDinode k =
      slot blk' (Function.update ips i ip' j).toDinode k := by
  have step := done.owned.slot_low (fun b high => done.flush_eq last high) j k
  by_cases same : j = i
  · subst same
    rw [Function.update_self] at step ⊢
    rw [Function.update_self, slot_extend, step]
  · rw [Function.update_of_ne same] at step ⊢
    rw [Function.update_of_ne same, step]

theorem Written.type_update (last : ℕ) (j : ι) :
    (Function.update ips i (extend ip' last) j).type = (Function.update ips i ip' j).type := by
  rw [update_congr (fun ip => ip.type) (by rw [type_extend, done.type_eq]) j,
    update_congr (fun ip => ip.type) done.type_eq j]

theorem Written.ref_flush (last : ℕ) (j : ι) (k : ℕ) :
    ref (flush sb blk' ip' last) (Function.update ips i (extend ip' last) j).toDinode k =
      ref blk' (Function.update ips i ip' j).toDinode k :=
  ref_congr (done.type_update last j) (done.slot_flush last j k)

theorem Written.data_flush (last : ℕ) {j : ι} {k b : ℕ}
    (refers : ref blk' (Function.update ips i ip' j).toDinode k = some b) :
    flush sb blk' ip' last b = blk' b := by
  apply done.flush_eq
  have high := (done.owned.data j k b refers).1
  simp only [Superblock.dataStart, BPB, BSIZE] at high
  omega

theorem Written.cell_flush (last : ℕ) (j : ι) (x : ℕ) :
    cell (flush sb blk' ip' last) (Function.update ips i (extend ip' last) j).toDinode x =
      cell blk' (Function.update ips i ip' j).toDinode x := by
  rw [cell, cell, done.ref_flush]
  split
  · apply Option.map_congr
    intro b refers
    rw [done.data_flush last refers]
  · rfl

/-- The new size is covered: what the range does not touch was allocated before. -/
theorem Written.owned_flush (inside : off ≤ (ips i).size.toNat)
    (short : off + n ≤ MAXFILE * BSIZE) :
    Owned sb (flush sb blk' ip' (off + n)) (Function.update ips i (extend ip' (off + n))) := by
  have inums : ∀ j, (Function.update ips i (extend ip' (off + n)) j).inum =
      (Function.update ips i ip' j).inum := by
    intro j
    rw [update_congr Inode.inum (by rw [inum_extend, done.fields]) j,
      update_congr Inode.inum (by rw [done.fields]) j]
  refine done.owned.of_refs (done.ref_flush (off + n)) ?_ inums ?_
  · intro b _
    rw [marked, done.flush_eq (off + n) (bmapstart_le_bblock sb b), marked]
  · intro j k below
    by_cases same : j = i
    · subst same
      rw [Function.update_self] at below ⊢
      rw [size_extend short, done.size_eq] at below
      rcases Nat.lt_or_ge (k * BSIZE) (ips j).size.toNat with old | new
      · have allocated := done.owned.allocated j k
        rw [Function.update_self, done.size_eq] at allocated
        exact allocated old
      · have touches : Touches off n k :=
          ⟨k * BSIZE, by omega, by omega, Nat.mul_div_cancel k (by decide)⟩
        exact ⟨done.touches_lt touches, done.touches_mapped touches⟩
    · have allocated := done.owned.allocated j k
      rw [Function.update_of_ne same] at allocated below ⊢
      exact allocated below

end Flush

/-- `writei` refuses the range. -/
def rejects (size off n : ℕ) : Prop :=
  size < off ∨ 2 ^ 32 ≤ off + n ∨ MAXFILE * BSIZE < off + n

instance (size off n : ℕ) : Decidable (rejects size off n) :=
  inferInstanceAs (Decidable (_ ∨ _ ∨ _))

omit [DecidableEq ι] in
/-- A range that `writei` refuses changes nothing. -/
theorem writei_of_rejects {dev : Devsw} {ip : Inode} (notDev : ip.type ≠ T_DEV) {src : Mem}
    {off n : Word} (rejected : rejects ip.size.toNat off.toNat n.toNat) :
    writei dev ip src off n s = .ok ((-1, ip), s) := by
  rw [writei, if_neg notDev]
  by_cases outside : off > ip.size ∨ off + n < off
  · rw [if_pos outside]
    rfl
  · rw [if_neg outside, if_pos]
    · rfl
    · rw [tooLong_iff (not_or.mp outside).2]
      rw [rejects_iff] at outside
      rcases rejected with past | overflow | long
      · exact absurd (Or.inl past) outside
      · exact absurd (Or.inr overflow) outside
      · exact long

/-- `writei` stores its bytes, or `balloc` has run out of blocks. -/
theorem writei_meets {dev : Devsw} {Q : ℤ × Inode → St → Prop} {ip : Inode} (here : ips i = ip)
    (own : Owned s.sb s.blk ips) (notDev : (ips i).type ≠ T_DEV) {src : Mem} {off n : Word}
    (accepted : ¬rejects (ips i).size.toNat off.toNat n.toNat)
    (stop : (free s.sb s.blk).card <
      (missing s.blk (ips i).toDinode (span off.toNat n.toNat)).card → E .balloc)
    (post : ∀ ip' blk' calls, Written s.sb s.blk blk' ips i ip' off.toNat n.toNat src →
      Q (n.toNat, extend ip' (off.toNat + n.toNat))
        { s with blk := flush s.sb blk' ip' (off.toNat + n.toNat), calls := calls }) :
    Meets (writei dev ip src off n) s E Q := by
  subst here
  simp only [rejects, not_or, Nat.not_lt, Nat.not_le] at accepted
  rcases accepted with ⟨inside, fits, short⟩
  have outside : ¬(off > (ips i).size ∨ off + n < off) := by
    rw [rejects_iff]
    omega
  have long : ¬off + n > BitVec.ofNat 32 (MAXFILE * BSIZE) := by
    rw [tooLong_iff (not_or.mp outside).2]
    omega
  have result : n.toInt = n.toNat := by
    rw [BitVec.toInt_eq_toNat_of_lt]
    simp only [MAXFILE, NINDIRECT, NDIRECT, BSIZE] at short
    omega
  rw [writei, if_neg notDev, if_neg outside, if_neg long, result]
  refine meets_bind (writeiLoop_meets rfl own (by omega) (by omega) stop ?_)
  intro ip' blk' calls done
  simp only [Nat.sub_zero, Nat.zero_add] at done ⊢
  have written : Written s.sb s.blk blk' ips i ip' off.toNat n.toNat src := done
  have final := fun calls => post ip' blk' calls written
  have size := written.size_eq
  refine meets_ite (fun grows => ?_) fun stays => ?_
  · simp only [extend, flush, if_pos grows.2] at final
    exact meets_bind (iupdate_meets written.owned.layout written.inum_lt fun calls =>
      meets_pure (final calls))
  · have covered : ¬ip'.size.toNat < off.toNat + n.toNat := by
      rw [size] at stays ⊢
      omega
    simp only [extend, flush, if_neg covered] at final
    exact meets_pure (final calls)

end Xv6.Fs
