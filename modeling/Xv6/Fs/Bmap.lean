import Xv6.Fs.Owned

/-!
# `bmap`

`bmap` returns the block of an index below `MAXFILE`, allocating the slot of the
index, and the indirect block before it, where they are empty. It stops only
when fewer blocks are free than slots have to be allocated.
-/

namespace Xv6.Fs

open Prog

/-- The slots `bmap` looks at to find block `bn`. -/
def touched (bn : ℕ) : Finset ℕ :=
  if bn < NDIRECT then {bn} else {MAXFILE} ∪ {bn}

/-- The slots among `K` that are not allocated. -/
def missing (blk : Disk) (ip : Dinode) (K : Finset ℕ) : Finset ℕ :=
  K.filter fun k => slot blk ip k = 0

variable {ι : Type} {s : St} {E : Panic → Prop} {ips : ι → Inode} {i : ι}

theorem mem_touched (bn : ℕ) : bn ∈ touched bn := by
  simp only [touched]
  split
  · exact Finset.mem_singleton_self bn
  · exact Finset.mem_union_right _ (Finset.mem_singleton_self bn)

theorem card_missing_singleton {blk : Disk} {ip : Dinode} {k : ℕ} (empty : slot blk ip k = 0) :
    (missing blk ip {k}).card = 1 := by
  rw [missing, Finset.filter_true_of_mem (by simpa using empty), Finset.card_singleton]

theorem indirect_mapped {blk : Disk} {ip : Dinode} {bn : ℕ} (indirect : NDIRECT ≤ bn)
    (mapped : slot blk ip bn ≠ 0) : ip.addr NDIRECT ≠ 0 :=
  fun unmapped => mapped (slot_unmapped indirect unmapped)

/-- Where nothing is missing, `bmap` changes neither the inode nor any block. -/
theorem bmap_mapped_meets {Q : Word × Inode → St → Prop} (own : Owned s.sb s.blk ips) {bn : ℕ}
    (upper : bn < MAXFILE) (mapped : slot s.blk (ips i).toDinode bn ≠ 0)
    (post : ∀ calls, Q (mask (ips i).type (slot s.blk (ips i).toDinode bn), ips i)
      { s with calls := calls }) :
    Meets (bmap (ips i) bn) s E Q := by
  refine meets_ite (fun direct => ?_) fun indirect => ?_
  · rw [slot_direct _ direct] at mapped post
    rw [loadAddr, if_neg mapped]
    exact post s.calls
  · have lower : NDIRECT ≤ bn := Nat.not_lt.mp indirect
    have indirectMapped := indirect_mapped lower mapped
    have onDisk := (own.data i MAXFILE _ (ref_maxfile s.blk indirectMapped)).2.trans_le
      own.layout.disk
    have entry := slot_entry s.blk lower upper indirectMapped
    have inEntries : bn - NDIRECT < NINDIRECT := by
      simp only [MAXFILE] at upper
      omega
    rw [if_pos inEntries, loadAddr, if_neg indirectMapped]
    refine meets_bind (meets_pure ?_)
    refine meets_bind (meets_bind (meets_bread onDisk fun calls => ?_))
    rw [entry] at mapped post
    refine meets_ite (fun empty => absurd empty mapped) fun _ => ?_
    refine meets_bind (meets_brelse fun calls => ?_)
    exact post calls

variable [DecidableEq ι]

/-- An address in the inode is filled where it is missing. -/
theorem loadAddr_meets {Q : Word × Inode → St → Prop} (own : Owned s.sb s.blk ips) {a k : ℕ}
    (index : a < NDIRECT ∧ k = a ∨ a = NDIRECT ∧ k = MAXFILE)
    (stop : (free s.sb s.blk).card < (missing s.blk (ips i).toDinode {k}).card → E .balloc)
    (post : ∀ ip' blk' calls, Filled s.sb s.blk blk' ips i ip' {k} →
      Q (slot blk' ip'.toDinode k, ip') { s with blk := blk', calls := calls }) :
    Meets (loadAddr (ips i) a) s E Q := by
  have address : ∀ blk' (ip' : Inode), slot blk' ip'.toDinode k = ip'.addr a := by
    intro blk' ip'
    rcases index with ⟨direct, rfl⟩ | ⟨rfl, rfl⟩
    · exact slot_direct _ direct
    · exact slot_maxfile
  refine meets_ite (fun empty => ?_) fun mapped => ?_
  · refine meets_bind (balloc_meets own.layout ?_ ?_)
    · intro full
      apply stop
      rw [full, card_missing_singleton (by rw [address, empty])]
      exact Nat.zero_lt_one
    · intro b isFree calls
      refine meets_pure ?_
      have done : Filled s.sb s.blk (take s.sb s.blk b) ips i
          ((ips i).setAddr a (BitVec.ofNat 32 b)) {k} := by
        rcases index with ⟨direct, rfl⟩ | ⟨rfl, rfl⟩
        · exact Filled.setAddr_direct own isFree direct empty
        · exact Filled.setAddr_indirect own isFree empty
      have low : a ≤ NDIRECT := by omega
      have result := post _ _ calls done
      rwa [address, addr_setAddr low low, if_pos rfl] at result
  · refine meets_pure ?_
    have done : Filled s.sb s.blk s.blk ips i (ips i) {k} := by
      apply Filled.refl own
      intro l mem
      rw [Finset.mem_singleton.mp mem, address]
      exact mapped
    have result := post _ _ s.calls done
    rwa [address] at result

/-- An entry of the indirect block is filled where it is missing. -/
theorem loadEntry_meets {Q : Word → St → Prop} (own : Owned s.sb s.blk ips) {bn : ℕ}
    (lower : NDIRECT ≤ bn) (upper : bn < MAXFILE) (mapped : (ips i).addr NDIRECT ≠ 0)
    (stop : (free s.sb s.blk).card < (missing s.blk (ips i).toDinode {bn}).card → E .balloc)
    (post : ∀ blk' calls, Filled s.sb s.blk blk' ips i (ips i) {bn} →
      Q (slot blk' (ips i).toDinode bn) { s with blk := blk', calls := calls }) :
    Meets (loadEntry ((ips i).addr NDIRECT).toNat (bn - NDIRECT)) s E Q := by
  have entry := slot_entry s.blk lower upper mapped
  have onDisk : ((ips i).addr NDIRECT).toNat < FSSIZE :=
    (own.data i MAXFILE _ (ref_maxfile s.blk mapped)).2.trans_le own.layout.disk
  refine meets_bind (meets_bread onDisk fun calls => ?_)
  refine meets_ite (fun empty => ?_) fun allocated => ?_
  · rw [← entry] at empty
    refine meets_bind (balloc_meets own.layout ?_ ?_)
    · intro full
      apply stop
      rw [show free s.sb s.blk = ∅ from full, card_missing_singleton empty]
      exact Nat.zero_lt_one
    · intro b isFree calls
      refine meets_bind (meets_logWrite fun calls => ?_)
      refine meets_bind (meets_brelse fun calls => ?_)
      refine meets_pure ?_
      have result := post _ calls (Filled.putWord own isFree lower upper mapped empty)
      have fits : 4 * (bn - NDIRECT) + 4 ≤ BSIZE := by
        simp only [MAXFILE, NINDIRECT, NDIRECT, BSIZE] at upper ⊢
        omega
      rwa [slot_entry _ lower upper mapped, Function.update_self, Bytes.getWord_putWord fits]
        at result
  · refine meets_bind (meets_brelse fun calls => ?_)
    refine meets_pure ?_
    have done : Filled s.sb s.blk s.blk ips i (ips i) {bn} := by
      apply Filled.refl own
      intro l mem
      rw [Finset.mem_singleton.mp mem, entry]
      exact allocated
    have result := post _ calls done
    rwa [entry] at result

/-- `bmap` fills what is missing on the way to a block, and returns its number without the tag. -/
theorem bmap_meets {Q : Word × Inode → St → Prop} {ip : Inode} (here : ips i = ip)
    (own : Owned s.sb s.blk ips) {bn : ℕ} (upper : bn < MAXFILE)
    (stop : (free s.sb s.blk).card < (missing s.blk (ips i).toDinode (touched bn)).card →
      E .balloc)
    (post : ∀ ip' blk' calls, Filled s.sb s.blk blk' ips i ip' (touched bn) →
      Q (mask (ips i).type (slot blk' ip'.toDinode bn), ip')
        { s with blk := blk', calls := calls }) :
    Meets (bmap ip bn) s E Q := by
  subst here
  refine meets_ite (fun direct => ?_) fun indirect => ?_
  · have slots : touched bn = {bn} := if_pos direct
    rw [slots] at stop post
    refine meets_bind (loadAddr_meets own (Or.inl ⟨direct, rfl⟩) stop ?_)
    intro ip' blk' calls done
    refine meets_pure ?_
    rw [done.type_eq]
    exact post ip' blk' calls done
  · have slots : touched bn = {MAXFILE} ∪ {bn} := if_neg indirect
    rw [slots] at stop post
    refine meets_ite (fun _ => ?_) fun outside => ?_
    · refine meets_bind (loadAddr_meets own (Or.inr ⟨rfl, rfl⟩) ?_ ?_)
      · intro short
        apply stop
        refine short.trans_le (Finset.card_le_card ?_)
        exact Finset.filter_subset_filter _ Finset.subset_union_left
      · intro ip' blk' calls first
        have mapped := first.filled MAXFILE (Finset.mem_singleton_self _)
        rw [slot_maxfile] at mapped ⊢
        have owned := first.owned
        have self : Function.update ips i ip' i = ip' := Function.update_self _ _ _
        rw [← self] at mapped ⊢
        refine meets_bind (loadEntry_meets owned (Nat.not_lt.mp indirect) upper mapped ?_ ?_)
        · intro short
          apply stop
          have total := first.card_filter_union {bn}
          have count := first.count
          rw [self] at short
          simp only [missing] at short ⊢
          omega
        · intro blk'' calls second
          rw [self] at second ⊢
          refine meets_pure ?_
          rw [first.type_eq]
          exact post ip' blk'' calls (first.trans second)
    · refine absurd ?_ outside
      simp only [MAXFILE] at upper
      omega

/-- A slot that `bmap` has just filled is found again without allocation. -/
theorem missing_of_filled {sb : Superblock} {blk blk' : Disk} {ip' : Inode} {K : Finset ℕ}
    (done : Filled sb blk blk' ips i ip' K) : missing blk' ip'.toDinode K = ∅ :=
  Finset.filter_false_of_mem done.filled

/--
`readi` and `writei` call `bmap` twice for each block. The second call returns
what the first one did.
-/
theorem bmap_again_meets {Q : Word × Inode → St → Prop} {sb : Superblock} {blk : Disk}
    {ip₁ : Inode} {bn : ℕ} (upper : bn < MAXFILE) (sameSb : s.sb = sb)
    (first : Filled sb blk s.blk ips i ip₁ (touched bn))
    (post : ∀ ip' blk' calls, Filled sb blk blk' ips i ip' (touched bn) →
      slot blk' ip'.toDinode bn = slot s.blk ip₁.toDinode bn →
      Q (mask (ips i).type (slot blk' ip'.toDinode bn), ip')
        { s with blk := blk', calls := calls }) :
    Meets (bmap ip₁ bn) s E Q := by
  subst sameSb
  have self : Function.update ips i ip₁ i = ip₁ := Function.update_self _ _ _
  refine bmap_meets self first.owned upper ?_ ?_
  · intro short
    rw [self, missing_of_filled first] at short
    exact absurd short (Nat.not_lt_zero _)
  · intro ip₂ blk₂ calls second
    have both := first.trans second
    rw [Finset.union_self] at both
    have kept := second.kept bn
    rw [self] at kept
    rw [self, first.type_eq]
    exact post ip₂ blk₂ calls both (kept (first.filled bn (mem_touched bn)))

end Xv6.Fs
