import Xv6.Fs.Files

/-!
# Checksummed files

The tags of a `T_CHECKED` file are exact: after any sequence of `writei` calls
each slot holds the block it was given when its index was first written, and the
exclusive-or of the bytes now in that block. `Checked` is the invariant.

`readi` does not read such a file back. For a range that is not empty it looks
at the first block only, returns 1 or -1 and copies nothing; and it recomputes
the checksum as a signed sum, and looks for the tag of a block behind the
indirect block in the first entry only.
-/

namespace Xv6.Fs

open Prog

/-! ## The exclusive-or of a block -/

/-- The exclusive-or of the bytes of a block. -/
def xorBytes (data : Block) : Byte :=
  (List.range BSIZE).foldl (fun sum i => sum ^^^ Bytes.get data i) 0

theorem foldl_signExtend (data : Block) (l : List ℕ) (sum : Byte) :
    l.foldl (fun sum i => sum ^^^ (Bytes.get data i).signExtend 32) (sum.signExtend 32) =
      (l.foldl (fun sum i => sum ^^^ Bytes.get data i) sum).signExtend 32 := by
  induction l generalizing sum with
  | nil => rfl
  | cons i l ih => rw [List.foldl_cons, List.foldl_cons, ← BitVec.signExtend_xor, ih]

/-- The sum that `writei` and `readi` compute is the exclusive-or as a signed `char`. -/
theorem checksum_eq (data : Block) : checksum data = (xorBytes data).signExtend 32 :=
  foldl_signExtend data (List.range BSIZE) 0

theorem setWidth_signExtend (x : Byte) : (x.signExtend 32).setWidth 8 = x := by
  ext j bound
  simp only [BitVec.getElem_setWidth, BitVec.getLsbD_signExtend]
  simp [bound, show j < 32 by omega]

theorem checksum_mod (data : Block) : (checksum data).toNat % 2 ^ 8 = (xorBytes data).toNat := by
  rw [← setWidth_signExtend (xorBytes data), ← checksum_eq, BitVec.toNat_setWidth]

theorem shift_tagged {b : ℕ} (small : b < 2 ^ 24) (data : Block) :
    (BitVec.ofNat 32 b + checksum data <<< 24) >>> 24 = (xorBytes data).setWidth 32 := by
  apply BitVec.eq_of_toNat_eq
  have bound := (xorBytes data).isLt
  rw [BitVec.toNat_ushiftRight, toNat_tagged small, checksum_mod, Nat.shiftRight_eq_div_pow,
    BitVec.toNat_setWidth, Nat.mod_eq_of_lt (by omega)]
  omega

/-- `readi` accepts the tag of a block exactly when the exclusive-or is not negative. -/
theorem checksum_eq_setWidth {data : Block} :
    checksum data = (xorBytes data).setWidth 32 ↔ (xorBytes data).toNat < 128 := by
  rw [checksum_eq]
  generalize xorBytes data = x
  constructor
  · intro same
    have bit := congrArg (fun w => w.getLsbD 31) same
    simp only [BitVec.getLsbD_signExtend, BitVec.getLsbD_setWidth] at bit
    by_contra large
    have negative : x.msb = true := by
      rw [BitVec.msb_eq_decide]
      simpa using by omega
    simp [negative] at bit
  · intro small
    apply BitVec.signExtend_eq_setWidth_of_msb_false
    rw [BitVec.msb_eq_decide]
    simpa using small

theorem checksum_eq_zero {data : Block} : checksum data = 0 ↔ xorBytes data = 0 := by
  constructor
  · intro zero
    have value := checksum_mod data
    rw [zero] at value
    exact BitVec.eq_of_toNat_eq value.symm
  · intro zero
    rw [checksum_eq, zero]
    rfl

/-! ## Sequences of writes -/

/-- The arguments of a `writei` call. -/
structure Write where
  src : Mem
  off : Word
  n : Word

/-- A sequence of `writei` calls on one inode. -/
def runWrites (dev : Devsw) : List Write → Inode → FsM Inode
  | [], ip => return ip
  | w :: ws, ip => do
      let r ← writei dev ip w.src w.off w.n
      runWrites dev ws r.2

/-- A family of one inode. -/
abbrev single (ip : Inode) : Unit → Inode := fun _ => ip

theorem update_single (ip ip' : Inode) : Function.update (single ip) () ip' = single ip' := by
  funext u
  rw [show u = () from rfl, Function.update_self]

/-- The state of a checksummed file. -/
structure Checked (sb : Superblock) (blk : Disk) (ip : Inode) : Prop where
  owned : Owned sb blk (single ip)
  type : ip.type = T_CHECKED
  tagged : ∀ k, k * BSIZE < ip.size.toNat → Tagged blk ip.toDinode k
  tight : ∀ k < MAXFILE, slot blk ip.toDinode k ≠ 0 → k * BSIZE < ip.size.toNat

/-- One call keeps the blocks of the file, and takes new ones from the free blocks. -/
structure Advances (s s' : St) (ip ip' : Inode) : Prop where
  refs : ∀ k b, ref s.blk ip.toDinode k = some b → ref s'.blk ip'.toDinode k = some b
  fresh : ∀ k b, ref s.blk ip.toDinode k = none → ref s'.blk ip'.toDinode k = some b →
    b ∈ free s.sb s.blk
  shrinks : free s'.sb s'.blk ⊆ free s.sb s.blk

theorem Advances.refl (s : St) (ip : Inode) : Advances s s ip ip where
  refs := fun _ _ refers => refers
  fresh := by
    intro k b empty refers
    rw [empty] at refers
    cases refers
  shrinks := fun _ isFree => isFree

theorem Advances.trans {s₁ s₂ s₃ : St} {ip₁ ip₂ ip₃ : Inode} (first : Advances s₁ s₂ ip₁ ip₂)
    (second : Advances s₂ s₃ ip₂ ip₃) : Advances s₁ s₃ ip₁ ip₃ where
  refs := fun k b refers => second.refs k b (first.refs k b refers)
  fresh := by
    intro k b empty refers
    cases between : ref s₂.blk ip₂.toDinode k with
    | none => exact first.shrinks (second.fresh k b between refers)
    | some c =>
        have kept := second.refs k c between
        rw [refers] at kept
        rw [Option.some.inj kept]
        exact first.fresh k c empty between
  shrinks := second.shrinks.trans first.shrinks

/-- The blocks of a range are touched by it. -/
theorem touches_of_mem_span {off n k : ℕ} (mem : k ∈ span off n) (inFile : k < MAXFILE) :
    Touches off n k := by
  simp only [span, Finset.mem_biUnion, Finset.mem_image, Finset.mem_Ico] at mem
  rcases mem with ⟨bn, ⟨x, inRange, rfl⟩, slotOf⟩
  refine ⟨x, inRange.1, inRange.2, ?_⟩
  simp only [touched] at slotOf
  split at slotOf
  · exact (Finset.mem_singleton.mp slotOf).symm
  · rcases Finset.mem_union.mp slotOf with indirect | direct
    · exact absurd (Finset.mem_singleton.mp indirect) inFile.ne
    · exact (Finset.mem_singleton.mp direct).symm

section Step

variable {sb : Superblock} {blk blk' : Disk} {ip ip' : Inode} {off n : ℕ} {src : Mem}
  (done : Written sb blk blk' (single ip) () ip' off n src)
include done

theorem Written.tagged_flush {k : ℕ} (last : ℕ) (tagged : Tagged blk' ip'.toDinode k) :
    Tagged (flush sb blk' ip' last) (extend ip' last).toDinode k := by
  have slots := done.slot_flush last () k
  have refs := done.ref_flush last () k
  rw [update_single, update_single] at slots refs
  rcases tagged with ⟨b, refers, value⟩
  refine ⟨b, refs.trans refers, ?_⟩
  rw [slots, done.data_flush last (j := ()) (by rw [update_single]; exact refers)]
  exact value

theorem Written.free_flush (last : ℕ) : free sb (flush sb blk' ip' last) = free sb blk' := by
  ext b
  rw [free, free, Finset.mem_filter, Finset.mem_filter, marked, marked,
    done.flush_eq last (bmapstart_le_bblock sb b)]

/-- After a write, the tags below the size are those of the contents. -/
theorem Written.checked (checked : Checked sb blk ip) (inside : off ≤ ip.size.toNat)
    (short : off + n ≤ MAXFILE * BSIZE) :
    Checked sb (flush sb blk' ip' (off + n)) (extend ip' (off + n)) := by
  have size : (extend ip' (off + n)).size.toNat = max ip.size.toNat (off + n) := by
    rw [size_extend short, done.size_eq]
  refine ⟨?_, ?_, ?_, ?_⟩
  · have owned := done.owned_flush inside short
    rwa [update_single] at owned
  · rw [type_extend, done.type_eq, checked.type]
  · intro k below
    apply done.tagged_flush
    rw [size] at below
    by_cases touches : Touches off n k
    · exact done.tagged checked.type k touches
    · have old : k * BSIZE < ip.size.toNat := by
        by_contra beyond
        exact touches ⟨k * BSIZE, by omega, by omega, Nat.mul_div_cancel k (by decide)⟩
      rcases checked.owned.allocated () k old with ⟨inFile, mapped⟩
      rcases checked.tagged k old with ⟨b, refers, value⟩
      refine ⟨b, done.refs k b refers, ?_⟩
      rw [done.slots k mapped fun impossible => absurd impossible touches,
        done.data () k b inFile.ne (fun _ => touches) refers]
      exact value
  · intro k inFile mapped
    rw [size]
    have slots := done.slot_flush (off + n) () k
    rw [update_single, update_single] at slots
    rw [slots] at mapped
    by_cases old : slot blk ip.toDinode k = 0
    · have inSpan : k ∈ span off n := by
        by_contra absent
        exact mapped ((done.empty k).mpr ⟨old, absent⟩)
      rcases touches_of_mem_span inSpan inFile with ⟨x, _, upper, rfl⟩
      have := Nat.div_mul_le_self x BSIZE
      omega
    · have := checked.tight k inFile old
      omega

end Step

/-- `writei` keeps the tags right. -/
theorem writei_checked {dev : Devsw} {s : St} {ip : Inode} (checked : Checked s.sb s.blk ip)
    (w : Write) :
    Meets (writei dev ip w.src w.off w.n) s (fun _ => True) fun r s' =>
      Checked s'.sb s'.blk r.2 ∧ Advances s s' ip r.2 := by
  have notDev : ip.type ≠ T_DEV := by
    rw [checked.type]
    decide
  by_cases rejected : rejects ip.size.toNat w.off.toNat w.n.toNat
  · simp only [Meets, writei_of_rejects notDev rejected]
    exact ⟨checked, Advances.refl s ip⟩
  · refine writei_meets (i := ()) rfl checked.owned notDev rejected (fun _ => trivial) ?_
    intro ip' blk' calls done
    simp only [rejects, not_or, Nat.not_lt, Nat.not_le] at rejected
    rcases rejected with ⟨inside, fits, short⟩
    have refs := done.ref_flush (w.off.toNat + w.n.toNat) ()
    rw [update_single, update_single] at refs
    refine ⟨done.checked checked inside short, ?_, ?_, ?_⟩
    · intro k b refers
      rw [refs k]
      exact done.refs k b refers
    · intro k b empty refers
      rw [refs k] at refers
      exact done.fresh k b (ref_eq_none.mp empty) refers
    · intro b isFree
      rw [done.free_flush] at isFree
      exact done.shrinks isFree

theorem runWrites_checked {dev : Devsw} {ws : List Write} {s s' : St} {ip ip' : Inode}
    (checked : Checked s.sb s.blk ip) (run : runWrites dev ws ip s = .ok (ip', s')) :
    Checked s'.sb s'.blk ip' ∧ Advances s s' ip ip' := by
  induction ws generalizing s ip with
  | nil =>
      cases run
      exact ⟨checked, Advances.refl _ _⟩
  | cons w ws ih =>
      rcases ok_of_bind run with ⟨r, s₁, first, rest⟩
      rcases (writei_checked checked w).of_ok first with ⟨checked₁, step⟩
      rcases ih checked₁ rest with ⟨checked', steps⟩
      exact ⟨checked', step.trans steps⟩

theorem runWrites_append {dev : Devsw} {ws₁ ws₂ : List Write} {s s' : St} {ip ip' : Inode}
    (run : runWrites dev (ws₁ ++ ws₂) ip s = .ok (ip', s')) :
    ∃ ip₁ s₁, runWrites dev ws₁ ip s = .ok (ip₁, s₁) ∧
      runWrites dev ws₂ ip₁ s₁ = .ok (ip', s') := by
  induction ws₁ generalizing s ip with
  | nil => exact ⟨ip, s, rfl, run⟩
  | cons w ws ih =>
      rcases ok_of_bind run with ⟨r, s₁, first, rest⟩
      rcases ih rest with ⟨ip₁, s₂, begin_, end_⟩
      refine ⟨ip₁, s₂, ?_, end_⟩
      rw [runWrites, bind_of_ok first]
      exact begin_

/-- A checksummed inode that holds nothing. -/
theorem Checked.of_empty {sb : Superblock} {blk : Disk} {ip : Inode} (layout : Layout sb)
    (low : ∀ b < sb.dataStart, marked sb blk b = true) (inum : ip.inum < sb.ninodes)
    (type : ip.type = T_CHECKED) (addrs : ∀ k ≤ NDIRECT, ip.addr k = 0) (size : ip.size = 0) :
    Checked sb blk ip where
  owned := Owned.of_empty layout low (fun _ => inum) (fun _ => addrs) fun _ => size
  type := type
  tagged := by
    intro k below
    rw [size] at below
    exact absurd below (Nat.not_lt_zero _)
  tight := by
    intro k _ mapped
    exact absurd (ref_eq_none.mp (ref_empty addrs k)) mapped

/-- The tag of a block and its number do not overlap in the address. -/
theorem Checked.tag_eq {sb : Superblock} {blk : Disk} {ip : Inode} {k b : ℕ}
    (checked : Checked sb blk ip) (below : k * BSIZE < ip.size.toNat)
    (refers : ref blk ip.toDinode k = some b) :
    slot blk ip.toDinode k = BitVec.ofNat 32 b + checksum (blk b) <<< 24 ∧ b < 2 ^ 24 := by
  rcases checked.tagged k below with ⟨c, refers', value⟩
  rw [refers] at refers'
  rw [Option.some.inj refers']
  have bounds := checked.owned.lt_fssize (i := ()) refers
  simp only [FSSIZE] at bounds
  refine ⟨value, ?_⟩
  rw [← Option.some.inj refers']
  omega

/--
After any sequence of `writei` calls on an empty checksummed inode, and for every
index below its size: the slot holds the exclusive-or of the block and its number;
the number is the one in every earlier state in which the index was below the
size, and was free in those in which it was not; and `bmap` returns it.
-/
theorem tags_exact {dev : Devsw} {ws : List Write} {s s' : St} {ip ip' : Inode}
    (layout : Layout s.sb) (low : ∀ b < s.sb.dataStart, marked s.sb s.blk b = true)
    (inum : ip.inum < s.sb.ninodes) (type : ip.type = T_CHECKED)
    (addrs : ∀ k ≤ NDIRECT, ip.addr k = 0) (size : ip.size = 0)
    (run : runWrites dev ws ip s = .ok (ip', s')) {bn : ℕ} (below : bn * BSIZE < ip'.size.toNat) :
    ∃ b : ℕ, slot s'.blk ip'.toDinode bn >>> 24 = (xorBytes (s'.blk b)).setWidth 32 ∧
      slot s'.blk ip'.toDinode bn &&& 0x00ffffff = BitVec.ofNat 32 b ∧ b < 2 ^ 24 ∧
      (∀ ws₁ ws₂ ip₁ s₁, ws = ws₁ ++ ws₂ → runWrites dev ws₁ ip s = .ok (ip₁, s₁) →
        if bn * BSIZE < ip₁.size.toNat then ref s₁.blk ip₁.toDinode bn = some b
        else b ∈ free s₁.sb s₁.blk) ∧
      ∃ s'', bmap ip' bn s' = .ok ((BitVec.ofNat 32 b, ip'), s'') ∧ s''.blk = s'.blk := by
  have start := Checked.of_empty layout low inum type addrs size
  have checked := (runWrites_checked start run).1
  rcases checked.owned.allocated () bn below with ⟨inFile, mapped⟩
  rcases checked.tagged bn below with ⟨b, refers, value⟩
  rcases checked.tag_eq below refers with ⟨_, small⟩
  have address : mask T_CHECKED (slot s'.blk ip'.toDinode bn) = BitVec.ofNat 32 b := by
    rw [value, mask_tagged small]
  refine ⟨b, ?_, ?_, small, ?_, ?_⟩
  · rw [value, shift_tagged small]
  · rw [BitVec.and_comm, ← mask_checked, address]
  · intro ws₁ ws₂ ip₁ s₁ split early
    have checked₁ := (runWrites_checked start early).1
    have late : Advances s₁ s' ip₁ ip' := by
      rw [split] at run
      rcases runWrites_append run with ⟨ip₂, s₂, early', rest⟩
      rw [early] at early'
      cases early'
      exact (runWrites_checked checked₁ rest).2
    by_cases written : bn * BSIZE < ip₁.size.toNat
    · rw [if_pos written]
      rcases checked₁.tagged bn written with ⟨c, refers₁, _⟩
      have kept := late.refs bn c refers₁
      rw [refers] at kept
      rw [refers₁, Option.some.inj kept]
    · rw [if_neg written]
      apply late.fresh bn b _ refers
      rw [ref_eq_none]
      by_contra mapped₁
      exact written (checked₁.tight bn inFile mapped₁)
  · have found : Meets (bmap ip' bn) s' (fun _ => False) fun r s'' =>
        r = (BitVec.ofNat 32 b, ip') ∧ s''.blk = s'.blk := by
      refine bmap_mapped_meets (i := ()) checked.owned inFile mapped fun calls => ⟨?_, rfl⟩
      rw [← address, checked.type]
    rcases found.returns (fun _ impossible => impossible) with ⟨r, s'', returned, rfl, same⟩
    exact ⟨s'', returned, same⟩

/-- Three bytes at the beginning of a file. -/
def threeBytes : Write := ⟨fun j => BitVec.ofNat 8 (j + 7), 0, 3⟩

/-- The bytes 7, 8 and 9 give the tag 6 to the first free block, 59. -/
theorem tags_exact_threeBytes : ∃ ip' s',
    runWrites noDevices [threeBytes] (emptyInode T_CHECKED 2) emptySt = .ok (ip', s') ∧
      ip'.addr 0 = 0x0600003b ∧
        ∃ b, slot s'.blk ip'.toDinode 0 &&& 0x00ffffff = BitVec.ofNat 32 b := by
  have outcome : ((runWrites noDevices [threeBytes] (emptyInode T_CHECKED 2) emptySt).toOption.map
      fun r => (r.1.size, r.1.addr 0)) = some (3, 0x0600003b) := by decide +kernel
  rcases ok_of_evaluated outcome with ⟨r, run, observed⟩
  simp only [Prod.mk.injEq] at observed
  have below : 0 * BSIZE < r.1.size.toNat := by
    rw [observed.1]
    decide
  rcases tags_exact layout_mkfs low_emptyDisk (by decide) rfl (fun _ _ => rfl) rfl run below with
    ⟨b, _, address, _⟩
  exact ⟨r.1, r.2, run, observed.2, b, address⟩

end Xv6.Fs
