import Xv6.Fs.Written

/-!
# `writei`

The loop of `writei` writes its range block by block; `Written` is its
invariant. For a `T_CHECKED` inode each iteration also looks for the slot of the
block it has just written, by comparing addresses. Since no two slots refer to
the same block, it finds the slot that `bmap` used.
-/

namespace Xv6.Fs

open Prog

/-! ## Tagged addresses -/

theorem mask_checked (w : Word) : mask T_CHECKED w = 0x00ffffff &&& w :=
  if_pos rfl

theorem toNat_and_mask (w : Word) : (0x00ffffff &&& w).toNat = w.toNat % 2 ^ 24 := by
  have ones : (0x00ffffff : Word).toNat = 2 ^ 24 - 1 := by decide
  rw [BitVec.toNat_and, ones, Nat.and_comm, Nat.and_two_pow_sub_one_eq_mod]

theorem toNat_tagged {b : ℕ} (small : b < 2 ^ 24) (sum : Word) :
    (BitVec.ofNat 32 b + sum <<< 24).toNat = b + sum.toNat % 2 ^ 8 * 2 ^ 24 := by
  rw [BitVec.toNat_add, BitVec.toNat_ofNat, BitVec.toNat_shiftLeft, Nat.shiftLeft_eq]
  omega

/-- A tag leaves the address readable. -/
theorem mask_tagged {b : ℕ} (small : b < 2 ^ 24) (sum : Word) :
    mask T_CHECKED (BitVec.ofNat 32 b + sum <<< 24) = BitVec.ofNat 32 b := by
  apply BitVec.eq_of_toNat_eq
  rw [mask_checked, toNat_and_mask, toNat_tagged small, BitVec.toNat_ofNat]
  omega

/-! ## The search for a slot -/

variable {ι : Type} {s : St} {E : Panic → Prop} {ips : ι → Inode} {i : ι} {bn b : ℕ}

section Search

variable {sb : Superblock} {blk : Disk} (own : Owned sb blk ips)
  (checked : (ips i).type = T_CHECKED) (inRange : bn < MAXFILE)
  (refers : ref blk (ips i).toDinode bn = some b)
include own refers

theorem Owned.lt_fssize : 0 < b ∧ b < FSSIZE := by
  rcases own.data i bn b refers with ⟨lower, upper⟩
  have := own.layout.disk
  simp only [Superblock.dataStart, BPB, BSIZE] at lower
  exact ⟨by omega, by omega⟩

include checked inRange

/-- Only slot `bn` holds the address of its block. -/
theorem slot_match {k : ℕ} (inFile : k < MAXFILE) :
    slot blk (ips i).toDinode k &&& 0x00ffffff = BitVec.ofNat 32 b ↔ k = bn := by
  have bounds := own.lt_fssize refers
  simp only [FSSIZE] at bounds
  have value : ∀ l, l < MAXFILE → slot blk (ips i).toDinode l ≠ 0 →
      ref blk (ips i).toDinode l =
        some (slot blk (ips i).toDinode l &&& 0x00ffffff).toNat := by
    intro l inFile' mapped
    rw [ref_eq_some, target, if_neg inFile'.ne, checked, mask_checked, BitVec.and_comm]
    exact ⟨mapped, rfl⟩
  constructor
  · intro found
    have mapped : slot blk (ips i).toDinode k ≠ 0 := by
      intro zero
      rw [zero] at found
      have := congrArg BitVec.toNat found
      simp at this
      omega
    have refers' := value k inFile mapped
    rw [found, BitVec.toNat_ofNat, Nat.mod_eq_of_lt (by omega)] at refers'
    exact (own.distinct i k i bn b refers' refers).2
  · rintro rfl
    have known := value k inRange (ref_eq_some.mp refers).1
    rw [refers] at known
    rw [Option.some.inj known]
    simp

/-- The search for a direct block finds its place. -/
theorem findDirect_eq_some (direct : bn < NDIRECT) :
    findDirect (ips i) (BitVec.ofNat 32 b) = some bn := by
  have matches_ : ∀ k < NDIRECT,
      (ips i).addr k &&& 0x00ffffff = BitVec.ofNat 32 b ↔ k = bn := by
    intro k low
    rw [← slot_direct blk low]
    exact slot_match own checked inRange refers (by simp only [MAXFILE]; omega)
  rw [findDirect, List.find?_range_eq_some]
  refine ⟨by simpa using (matches_ bn direct).mpr rfl, List.mem_range.mpr direct, ?_⟩
  intro k before
  have other : ¬(ips i).addr k &&& 0x00ffffff = BitVec.ofNat 32 b :=
    fun found => before.ne ((matches_ k (by omega)).mp found)
  simpa using other

theorem findDirect_eq_none (indirect : NDIRECT ≤ bn) :
    findDirect (ips i) (BitVec.ofNat 32 b) = none := by
  rw [findDirect, List.find?_range_eq_none]
  intro k low
  have other : ¬(ips i).addr k &&& 0x00ffffff = BitVec.ofNat 32 b := by
    rw [← slot_direct blk low, slot_match own checked inRange refers
      (by simp only [MAXFILE]; omega)]
    omega
  simpa using other

/-- The search in the indirect block finds its entry. -/
theorem findIndirect_eq_some (indirect : NDIRECT ≤ bn) (mapped : (ips i).addr NDIRECT ≠ 0) :
    findIndirect (blk ((ips i).addr NDIRECT).toNat) (BitVec.ofNat 32 b) = some (bn - NDIRECT) := by
  have matches_ : ∀ e < NINDIRECT, Bytes.getWord (blk ((ips i).addr NDIRECT).toNat) (4 * e) &&&
      0x00ffffff = BitVec.ofNat 32 b ↔ NDIRECT + e = bn := by
    intro e low
    have inFile : NDIRECT + e < MAXFILE := by
      simp only [MAXFILE]
      omega
    rw [← slot_match own checked inRange refers inFile, slot_entry _ (by omega) inFile mapped,
      Nat.add_sub_cancel_left]
  have low : bn - NDIRECT < NINDIRECT := by
    simp only [MAXFILE] at inRange
    omega
  rw [findIndirect, List.find?_range_eq_some]
  refine ⟨by simpa using (matches_ _ low).mpr (by omega), List.mem_range.mpr low, ?_⟩
  intro e before
  have other := (not_congr (matches_ e (by omega))).mpr (by omega)
  simpa using other

end Search

/-- The value `writei` leaves in a slot refers to the same block as before. -/
theorem target_of_tag {sb : Superblock} {blk : Disk} {v : Word} {data : Block}
    (own : Owned sb blk ips) (inRange : bn < MAXFILE)
    (refers : ref blk (ips i).toDinode bn = some b)
    (plain : (ips i).type ≠ T_CHECKED → v = slot blk (ips i).toDinode bn)
    (tag : (ips i).type = T_CHECKED → v = BitVec.ofNat 32 b + checksum data <<< 24) :
    v ≠ 0 ∧ target (ips i).type bn v = b := by
  by_cases checked : (ips i).type = T_CHECKED
  · have bounds := own.lt_fssize refers
    simp only [FSSIZE] at bounds
    rw [tag checked, target, if_neg inRange.ne, checked, mask_tagged (by omega),
      BitVec.toNat_ofNat, Nat.mod_eq_of_lt (by omega)]
    refine ⟨?_, rfl⟩
    intro zero
    have value := congrArg BitVec.toNat zero
    rw [toNat_tagged (by omega)] at value
    simp at value
    omega
  · rw [plain checked]
    exact ref_eq_some.mp refers

/-- The tag of a T_CHECKED file replaces the old one in the address, and nothing else changes. -/
theorem writeTag_meets {Q : Inode → St → Prop} {data : Block} {ip : Inode} (here : ips i = ip)
    (own : Owned s.sb s.blk ips) (inRange : bn < MAXFILE)
    (refers : ref s.blk (ips i).toDinode bn = some b) {block : Word}
    (address : block = mask (ips i).type (slot s.blk (ips i).toDinode bn))
    (post : ∀ ip' blk' calls v, Retagged s.sb s.blk blk' ips i ip' bn v →
      ((ips i).type ≠ T_CHECKED → v = slot s.blk (ips i).toDinode bn) →
      ((ips i).type = T_CHECKED → v = BitVec.ofNat 32 b + checksum data <<< 24) →
      Q ip' { s with blk := blk', calls := calls }) :
    Meets (writeTag ip block data) s E Q := by
  subst here
  refine meets_ite (fun checked => ?_) fun plain => ?_
  · have number : block = BitVec.ofNat 32 b := by
      have value := (ref_eq_some.mp refers).2
      rw [target, if_neg inRange.ne] at value
      rw [address, ← value, BitVec.ofNat_toNat, BitVec.setWidth_eq]
    rw [number]
    rcases Nat.lt_or_ge bn NDIRECT with direct | indirect
    · rw [findDirect_eq_some own checked inRange refers direct]
      exact meets_pure (post _ _ s.calls _ (Retagged.direct direct)
        (fun plain => absurd checked plain) fun _ => rfl)
    · have mapped := indirect_mapped indirect (ref_eq_some.mp refers).1
      have onDisk := own.lt_fssize (ref_maxfile s.blk mapped)
      rw [findDirect_eq_none own checked inRange refers indirect]
      refine meets_bind (meets_bread onDisk.2 fun calls => ?_)
      rw [tagEntry, findIndirect_eq_some own checked inRange refers indirect mapped]
      refine meets_bind (meets_bwrite fun calls => ?_)
      refine meets_bind (meets_brelse fun calls => ?_)
      exact meets_pure (post _ _ calls _ (Retagged.indirect own indirect inRange mapped)
        (fun plain => absurd checked plain) fun _ => rfl)
  · exact meets_pure (post _ _ s.calls _ Retagged.refl (fun _ => rfl)
      fun checked => absurd checked plain)

/-! ## The loop -/

theorem chunk_pos {n tot : ℕ} (off : ℕ) (more : tot < n) : 0 < chunk n tot off := by
  have := Nat.mod_lt off (show 0 < BSIZE by decide)
  simp only [chunk]
  omega

theorem chunk_le (n tot off : ℕ) : off % BSIZE + chunk n tot off ≤ BSIZE := by
  have := Nat.mod_lt off (show 0 < BSIZE by decide)
  simp only [chunk]
  omega

variable [DecidableEq ι]

/-- The part of an iteration of `writei` after `bread`. -/
theorem store_meets {β : Type} {Q : β → St → Prop} {f : Inode → FsM β} {blk : Disk} {ip : Inode}
    {off m : ℕ} {src : Mem} {block : Word} {data : Block} (own : Owned s.sb blk ips)
    (inRange : off / BSIZE < MAXFILE) (nonempty : 0 < m) (inBlock : off % BSIZE + m ≤ BSIZE)
    (filled : Filled s.sb blk s.blk ips i ip (touched (off / BSIZE)))
    (address : block = mask (ips i).type (slot s.blk ip.toDinode (off / BSIZE)))
    (moved : data = Bytes.move (s.blk block.toNat) (off % BSIZE) m src)
    (post : ∀ ip' blk' calls, Written s.sb blk blk' ips i ip' off m src →
      Meets (f ip') { s with blk := blk', calls := calls } E Q) :
    Meets (do
      let ip ← writeTag ip block data
      logWrite block.toNat data
      bwrite block.toNat data
      brelse block.toNat
      f ip) s E Q := by
  have self : Function.update ips i ip i = ip := Function.update_self _ _ _
  have refers : ref s.blk (Function.update ips i ip i).toDinode (off / BSIZE) =
      some block.toNat := by
    rw [self, ref_eq_some, target, if_neg inRange.ne, filled.type_eq, address]
    exact ⟨filled.filled _ (mem_touched _), rfl⟩
  have address' : block = mask (Function.update ips i ip i).type
      (slot s.blk (Function.update ips i ip i).toDinode (off / BSIZE)) := by
    rw [self, filled.type_eq, address]
  refine meets_bind (writeTag_meets self filled.owned inRange refers address' ?_)
  intro ip' blk' calls v retagged plain tag
  rcases target_of_tag filled.owned inRange refers plain tag with ⟨nonzero, same⟩
  refine meets_bind (meets_logWrite fun calls => ?_)
  refine meets_bind (meets_bwrite fun calls => ?_)
  refine meets_bind (meets_brelse fun calls => ?_)
  have stored := retagged.store filled.owned inRange.ne refers nonzero same data
  rw [self] at refers plain tag
  simp only [Function.update_idem]
  exact post ip' _ calls
    (Written.of_stored own inRange nonempty inBlock filled refers stored plain tag moved)

/-- The loop of `writei` stores the bytes of its range. -/
theorem writeiLoop_meets {src : Mem} {n fuel tot off : ℕ} {ip : Inode} (here : ips i = ip)
    {Q : ℕ × Inode → St → Prop} (own : Owned s.sb s.blk ips) (enough : n - tot ≤ fuel)
    (inFile : off + (n - tot) ≤ MAXFILE * BSIZE)
    (stop : (free s.sb s.blk).card < (missing s.blk (ips i).toDinode (span off (n - tot))).card →
      E .balloc)
    (post : ∀ ip' blk' calls,
      Written s.sb s.blk blk' ips i ip' off (n - tot) (fun j => src (tot + j)) →
      Q (off + (n - tot), ip') { s with blk := blk', calls := calls }) :
    Meets (writeiLoop src n fuel tot off ip) s E Q := by
  induction fuel generalizing s ips ip tot off with
  | zero =>
      have finished : n - tot = 0 := by omega
      rw [finished] at post
      subst here
      exact meets_pure (post _ _ s.calls (Written.refl own))
  | succ fuel ih =>
      refine meets_ite (fun more => ?_) fun last => ?_
      · have nonempty := chunk_pos off more
        have inBlock := chunk_le n tot off
        have within : chunk n tot off ≤ n - tot := Nat.min_le_left _ _
        have inRange : off / BSIZE < MAXFILE := by
          rw [Nat.div_lt_iff_lt_mul (by decide)]
          omega
        have split : span off (n - tot) =
            touched (off / BSIZE) ∪ span (off + chunk n tot off) (n - (tot + chunk n tot off)) := by
          rw [← span_chunk nonempty inBlock, span_union]
          congr 1
          omega
        refine meets_bind (bmap_meets here own inRange ?_ ?_)
        · intro short
          apply stop
          refine short.trans_le (Finset.card_le_card ?_)
          rw [split]
          exact Finset.filter_subset_filter _ Finset.subset_union_left
        · intro ip₁ blk₁ calls first
          refine meets_bind (bmap_again_meets inRange rfl first ?_)
          intro ip₂ blk₂ calls filled sameSlot
          have self : Function.update ips i ip₂ i = ip₂ := Function.update_self _ _ _
          have refers : ref blk₂ (Function.update ips i ip₂ i).toDinode (off / BSIZE) =
              some (mask (ips i).type (slot blk₂ ip₂.toDinode (off / BSIZE))).toNat := by
            rw [self, ref_eq_some, target, if_neg inRange.ne, filled.type_eq]
            exact ⟨filled.filled _ (mem_touched _), rfl⟩
          refine meets_bind (meets_bread (filled.owned.lt_fssize refers).2 fun calls => ?_)
          rw [← show slot blk₂ _ _ = slot blk₁ _ _ from sameSlot]
          refine store_meets own inRange nonempty inBlock filled rfl rfl ?_
          intro ip' blk' calls (written : Written s.sb s.blk blk' ips i ip' off
            (chunk n tot off) fun j => src (tot + j))
          refine ih (Function.update_self _ _ _) written.owned (by omega) (by omega) ?_ ?_
          · intro short
            apply stop
            have count := written.count
            have total := written.card_missing
              (span (off + chunk n tot off) (n - (tot + chunk n tot off)))
            rw [Function.update_self] at short
            rw [span_chunk nonempty inBlock] at count total
            rw [split, total]
            simp only at short
            omega
          · intro ip'' blk'' calls rest
            have remaining : chunk n tot off + (n - (tot + chunk n tot off)) = n - tot := by omega
            have whole := written.trans (n := n - (tot + chunk n tot off))
              (by simpa only [Nat.add_assoc] using rest)
            rw [remaining] at whole
            rw [Nat.add_assoc, remaining]
            exact post ip'' blk'' calls whole
      · have finished : n - tot = 0 := by omega
        rw [finished] at post
        subst here
        exact meets_pure (post _ _ s.calls (Written.refl own))

end Xv6.Fs
