import Mathlib.Data.List.GetD
import Xv6.Mkfs.Ledger

/-!
# Appending to a file

The specification of `iappend`. A round of its loop finds the block it writes to, and
the ledger goes along: the blocks that are handed out on the way are put into slots of
the copy of the inode, or of its indirect block. A round stops only if the image is full,
or the file is too large.
-/

namespace Xv6.Mkfs

open Fs Prog
open Checker (Image)

variable {s s' : St} {E : Exit → Prop} {sec : ℕ} {buf : Block}

theorem meets_assert {c : Prop} [Decidable c] {Q : Unit → St → Prop} (stop : ¬c → ∀ e, E e)
    (post : c → Q () s) : Meets (assert c) s E Q :=
  meets_ite (fun holds => meets_pure (post holds)) fun fails => meets_throw (stop fails _)

/-! ## Sectors -/

theorem offset_of_small (small : sec < 2 ^ 23) : sec * BSIZE % 2 ^ 32 / BSIZE = sec := by
  simp only [BSIZE]
  omega

theorem sector_of_lt {img : Image} (small : sec < 2 ^ 23) (inside : sec < img.count) :
    img.sector sec = some (img.blk sec) := by
  simp only [Image.sector, offset_of_small small]
  exact if_pos inside

/-- A sector is read if it is in the image. -/
theorem meets_rsect {Q : Block → St → Prop} (small : sec < 2 ^ 23)
    (stop : s.img.count ≤ sec → ∀ e, E e) (post : sec < s.img.count → Q (s.img.blk sec) s) :
    Meets (rsect sec) s E Q := by
  refine meets_bind (meets_get ?_)
  by_cases inside : sec < s.img.count
  · rw [sector_of_lt small inside]
    exact meets_pure (post inside)
  · have behind : s.img.sector sec = none := by
      simp only [Image.sector, offset_of_small small]
      exact if_neg inside
    rw [behind]
    exact meets_throw (stop (Nat.not_lt.mp inside) _)

/-- The state after a block of the file has been written. -/
def put (s : St) (b : ℕ) (buf : Block) : St :=
  { s with img := { s.img with blk := Function.update s.img.blk b buf } }

theorem meets_wsect {Q : Unit → St → Prop} (small : sec < 2 ^ 23) (inside : sec < s.img.count)
    (post : Q () (put s sec buf)) : Meets (wsect sec buf) s E Q := by
  have same : store s.img (sec * BSIZE % 2 ^ 32 / BSIZE) buf = (put s sec buf).img := by
    rw [offset_of_small small, store, Nat.max_eq_left inside]
    rfl
  refine meets_modify ?_
  rw [same]
  exact post

/-! ## Finding a block -/

section Find

variable {ι : Type} [DecidableEq ι] {ips : ι → Dinode} {i : ι} {fbn : ℕ}

/-- What holds when the indirect block of an inode has been found. -/
structure Loaded (s s' : St) (ips : ι → Dinode) (i : ι) (din : Dinode) : Prop where
  img : s'.img = s.img
  freeinode : s'.freeinode = s.freeinode
  ledger : Ledger s.img.blk (Function.update ips i din) s'.freeblock
  used : din.addr NDIRECT ≠ 0
  grows : s.freeblock ≤ s'.freeblock
  few : s'.freeblock ≤ s.freeblock + 1
  last : s'.freeblock ≤ s.freeblock ∨ s'.freeblock = (din.addr NDIRECT).toNat + 1
  slots : ∀ k, slot s.img.blk (ips i) k ≠ 0 ∨ k ≠ MAXFILE →
    slot s.img.blk din k = slot s.img.blk (ips i) k
  fields : din = { ips i with addrs := din.addrs }

/-- The indirect block is allocated where it is missing. -/
theorem meets_loadIndirect {Q : Dinode → St → Prop} (ledger : Ledger s.img.blk ips s.freeblock)
    (bound : s.freeblock ≤ FSSIZE) (post : ∀ din s', Loaded s s' ips i din → Q din s') :
    Meets (loadAddr (ips i) NDIRECT) s E Q := by
  have small : s.freeblock < 2 ^ 32 := bound.trans_lt (by decide)
  refine meets_ite (fun empty => ?_) fun mapped => ?_
  · refine meets_bind (meets_bind (meets_get (meets_bind (meets_modify (meets_pure ?_)))))
    have new := ledger.next_ne_zero small
    have zeroed : s.img.blk (BitVec.ofNat 32 s.freeblock : Word).toNat = fun _ => 0 := by
      rw [Ledger.toNat_next small]
      exact ledger.zero _ le_rfl
    have address : (setAddr (ips i) NDIRECT (BitVec.ofNat 32 s.freeblock)).addr NDIRECT =
        BitVec.ofNat 32 s.freeblock := by
      rw [addr_setAddr le_rfl le_rfl, if_pos rfl]
    refine meets_pure (post _ _
      ⟨rfl, rfl, ledger.setIndirect small empty, ?_, Nat.le_succ _, le_rfl,
      Or.inr ?_, ?_, rfl⟩)
    · rw [address]
      exact new
    · rw [address, Ledger.toNat_next small]
    · intro k other
      rw [slot_setAddr_indirect empty new zeroed, if_neg]
      rintro rfl
      rw [slot_maxfile] at other
      exact other.elim (fun used => used empty) fun different => different rfl
  · refine meets_pure (post _ _ ⟨rfl, rfl, ?_, mapped, le_rfl, Nat.le_succ _, Or.inl le_rfl,
      fun _ _ => rfl, rfl⟩)
    rw [Function.update_eq_self]
    exact ledger

/-- What holds when `findBlock` has found block `fbn` of an inode. -/
structure Found (s s' : St) (ips : ι → Dinode) (i : ι) (fbn : ℕ) (x : Word) (din : Dinode) :
    Prop where
  count : s'.img.count = s.img.count
  freeinode : s'.freeinode = s.freeinode
  ledger : Ledger s'.img.blk (Function.update ips i din) s'.freeblock
  holds : slot s'.img.blk din fbn = x
  used : x ≠ 0
  grows : s.freeblock ≤ s'.freeblock
  few : s'.freeblock ≤ s.freeblock + 2
  last : s'.freeblock ≤ FSSIZE ∨ s'.freeblock = x.toNat + 1
  before : x = slot s.img.blk (ips i) fbn ∨ s.freeblock ≤ x.toNat
  kept : ∀ b, (din.addr NDIRECT ≠ 0 → b ≠ (din.addr NDIRECT).toNat) → s'.img.blk b = s.img.blk b
  slots : ∀ k, slot s.img.blk (ips i) k ≠ 0 ∨ k ≠ MAXFILE ∧ k ≠ fbn →
    slot s'.img.blk din k = slot s.img.blk (ips i) k
  indirect : fbn < NDIRECT → din.addr NDIRECT = (ips i).addr NDIRECT
  fields : din = { ips i with addrs := din.addrs }

/-- A direct block is allocated where it is missing. -/
theorem meets_findDirect {Q : Word × Dinode → St → Prop}
    (ledger : Ledger s.img.blk ips s.freeblock) (bound : s.freeblock ≤ FSSIZE)
    (direct : fbn < NDIRECT) (post : ∀ x din s', Found s s' ips i fbn x din → Q (x, din) s') :
    Meets (findBlock (ips i) fbn) s E Q := by
  have small : s.freeblock < 2 ^ 32 := bound.trans_lt (by decide)
  rw [findBlock, if_pos direct]
  refine meets_bind (meets_ite (fun empty => ?_) fun mapped => ?_)
  · refine meets_bind (meets_bind (meets_get (meets_bind (meets_modify (meets_pure ?_)))))
    have new := ledger.next_ne_zero small
    have address : (setAddr (ips i) fbn (BitVec.ofNat 32 s.freeblock)).addr fbn =
        BitVec.ofNat 32 s.freeblock := by
      rw [addr_setAddr direct.le direct.le, if_pos rfl]
    have value := Ledger.toNat_next small
    refine meets_pure (meets_pure ?_)
    rw [address]
    refine post _ _ _ ⟨rfl, rfl, ledger.setDirect small direct empty, ?_, new, Nat.le_succ _,
      Nat.le_succ _, Or.inr (by rw [value]), Or.inr value.ge, fun _ _ => rfl, ?_, ?_, rfl⟩
    · rw [slot_setAddr_direct direct, if_pos rfl]
    · intro k other
      rw [slot_setAddr_direct direct, if_neg]
      rintro rfl
      rw [slot_direct _ direct] at other
      exact other.elim (fun used => used empty) fun different => different.2 rfl
    · intro _
      rw [addr_setAddr direct.le le_rfl, if_neg direct.ne']
  · refine meets_pure (meets_pure (post _ _ _ ⟨rfl, rfl, ?_, slot_direct _ direct, mapped, le_rfl,
      Nat.le_add_right _ _, Or.inl bound, Or.inl (slot_direct _ direct).symm, fun _ _ => rfl,
      fun _ _ => rfl, fun _ => rfl, rfl⟩))
    rw [Function.update_eq_self]
    exact ledger

/-- The indirect block holds an entry already. -/
theorem Loaded.found {din : Dinode} (loaded : Loaded s s' ips i din) (bound : s'.freeblock ≤ FSSIZE)
    (lower : NDIRECT ≤ fbn) (upper : fbn < MAXFILE) (used : slot s'.img.blk din fbn ≠ 0) :
    Found s s' ips i fbn (slot s'.img.blk din fbn) din := by
  have same := loaded.img
  refine ⟨by rw [same], loaded.freeinode, ?_, rfl, used, loaded.grows, loaded.few.trans (by omega),
    Or.inl bound, Or.inl ?_, ?_, ?_, fun direct => absurd direct (by omega), loaded.fields⟩
  · rw [same]
    exact loaded.ledger
  · rw [same, loaded.slots fbn (Or.inr upper.ne)]
  · intro b _
    rw [same]
  · intro k other
    rw [same]
    exact loaded.slots k (other.imp_right And.left)

/-- An entry of the indirect block is set. -/
theorem Loaded.found_put {din : Dinode} (loaded : Loaded s s' ips i din)
    (bound : s'.freeblock ≤ FSSIZE) (lower : NDIRECT ≤ fbn) (upper : fbn < MAXFILE)
    (empty : Bytes.getWord (s.img.blk (din.addr NDIRECT).toNat) (4 * (fbn - NDIRECT)) = 0) :
    Found s (put { s' with freeblock := s'.freeblock + 1 } (din.addr NDIRECT).toNat
      (Bytes.putWord (s.img.blk (din.addr NDIRECT).toNat) (4 * (fbn - NDIRECT))
        (BitVec.ofNat 32 s'.freeblock))) ips i fbn (BitVec.ofNat 32 s'.freeblock) din := by
  have small : s'.freeblock < 2 ^ 32 := bound.trans_lt (by decide)
  have value := Ledger.toNat_next small
  have inRange : fbn - NDIRECT < NINDIRECT := by
    simp only [MAXFILE] at upper
    omega
  have here : Function.update ips i din i = din := Function.update_self i din ips
  have ledger := loaded.ledger.setEntry (i := i) small inRange (by rw [here]; exact loaded.used)
    (by rw [here]; exact empty)
  have stored := slot_putWord s.img.blk loaded.used inRange rfl (Function.update_self _
    (Bytes.putWord (s.img.blk (din.addr NDIRECT).toNat) (4 * (fbn - NDIRECT))
      (BitVec.ofNat 32 s'.freeblock)) s.img.blk)
  have index : NDIRECT + (fbn - NDIRECT) = fbn := by omega
  rw [here] at ledger
  rw [index] at stored
  have few := loaded.few
  have grows := loaded.grows
  refine ⟨?_, loaded.freeinode, ?_, ?_, loaded.ledger.next_ne_zero small, Nat.le_succ_of_le grows,
    Nat.succ_le_succ few, Or.inr (by rw [value]; rfl), Or.inr (by rw [value]; exact grows), ?_, ?_,
    fun direct => absurd direct (by omega), loaded.fields⟩
  · simp only [put, loaded.img]
  · simp only [put, loaded.img]
    exact ledger
  · simp only [put, loaded.img]
    rw [stored, if_pos rfl]
  · intro b other
    simp only [put, loaded.img]
    exact Function.update_of_ne (other loaded.used) _ _
  · intro k other
    simp only [put, loaded.img]
    rw [stored, if_neg]
    · exact loaded.slots k (other.imp_right And.left)
    · rintro rfl
      refine other.elim (fun used => used ?_) fun different => different.2 rfl
      rw [← loaded.slots k (Or.inr upper.ne), slot_entry _ lower upper loaded.used]
      exact empty

/-- `iappend` finds the block for its bytes. -/
theorem meets_findBlock {Q : Word × Dinode → St → Prop}
    (ledger : Ledger s.img.blk ips s.freeblock) (count : s.img.count = FSSIZE)
    (bound : s.freeblock ≤ FSSIZE) (inRange : fbn < MAXFILE)
    (stop : FSSIZE < s.freeblock + 2 → ∀ e, E e)
    (post : ∀ x din s', Found s s' ips i fbn x din → Q (x, din) s') :
    Meets (findBlock (ips i) fbn) s E Q := by
  by_cases direct : fbn < NDIRECT
  · exact meets_findDirect ledger bound direct post
  · have lower : NDIRECT ≤ fbn := Nat.not_lt.mp direct
    rw [findBlock, if_neg direct]
    refine meets_bind (meets_loadIndirect ledger bound fun din s' loaded => ?_)
    have indirect : (din.addr NDIRECT).toNat < s'.freeblock := by
      have inside := loaded.ledger.inside i MAXFILE
      rw [Function.update_self, slot_maxfile] at inside
      exact (inside loaded.used).2
    have few := loaded.few
    have small : (din.addr NDIRECT).toNat < 2 ^ 23 := by
      simp only [FSSIZE] at bound
      omega
    have sameCount : s'.img.count = FSSIZE := by rw [loaded.img, count]
    refine meets_bind (meets_rsect small (fun behind => stop (by omega)) fun inside => ?_)
    -- The indirect block has been read, so that it is one of the image.
    have bound' : s'.freeblock ≤ FSSIZE := by
      rcases loaded.last with same | last
      · exact same.trans bound
      · omega
    have value : Bytes.getWord (s'.img.blk (din.addr NDIRECT).toNat) (4 * (fbn - NDIRECT)) =
        slot s'.img.blk din fbn := (slot_entry _ lower inRange loaded.used).symm
    refine meets_ite (fun empty => ?_) fun mapped => ?_
    · refine meets_bind (meets_bind (meets_get (meets_bind (meets_modify (meets_pure ?_)))))
      refine meets_bind (meets_wsect small inside (meets_pure ?_))
      have same : s'.img.blk = s.img.blk := by rw [loaded.img]
      rw [same] at empty ⊢
      exact post _ _ _ (loaded.found_put bound' lower inRange empty)
    · rw [value] at mapped ⊢
      exact meets_pure (post _ _ _ (loaded.found bound' lower inRange mapped))

/-! ## The loop -/

/-- The block that a round leaves behind. -/
def filled (buf : Block) (off : ℕ) (p : List Byte) : Block :=
  Bytes.move buf (off - off / BSIZE * BSIZE) (min p.length ((off / BSIZE + 1) * BSIZE - off))
    fun j => p.getD j 0

/-- One turn of the loop of `iappend`. -/
theorem meets_round {Q : Dinode × ℕ → St → Prop} {off fuel : ℕ} {p : List Byte}
    (ledger : Ledger s.img.blk ips s.freeblock) (count : s.img.count = FSSIZE)
    (bound : s.freeblock ≤ FSSIZE) (more : p ≠ [])
    (stop : FSSIZE < s.freeblock + 2 ∨ MAXFILE * BSIZE ≤ off → ∀ e, E e)
    (rest : ∀ x din s', Found s s' ips i (off / BSIZE) x din → off / BSIZE < MAXFILE →
      x.toNat < FSSIZE → s'.freeblock ≤ FSSIZE →
      Meets (appendLoop din (off + min p.length ((off / BSIZE + 1) * BSIZE - off))
        (p.drop (min p.length ((off / BSIZE + 1) * BSIZE - off))) fuel)
        (put s' x.toNat (filled (s'.img.blk x.toNat) off p)) E Q) :
    Meets (appendLoop (ips i) off p (fuel + 1)) s E Q := by
  rw [appendLoop, if_neg more]
  refine meets_bind (meets_assert (fun large => stop (Or.inr ?_)) fun inRange => ?_)
  · simp only [MAXFILE, BSIZE] at large ⊢
    omega
  · refine meets_bind (meets_findBlock ledger count bound inRange
      (fun full => stop (Or.inl full)) ?_)
    intro x din s' found
    have count' : s'.img.count = FSSIZE := found.count.trans count
    have few := found.few
    have below : x.toNat < s'.freeblock := by
      have inside := found.ledger.inside i (off / BSIZE)
      rw [Function.update_self, found.holds] at inside
      exact (inside found.used).2
    have small : x.toNat < 2 ^ 23 := by
      simp only [FSSIZE] at bound
      omega
    refine meets_bind (meets_rsect small (fun behind => stop (Or.inl (by omega))) fun inside => ?_)
    refine meets_bind (meets_wsect small inside (rest x din s' found inRange ?_ ?_))
    · rwa [count'] at inside
    · rcases found.last with kept | last
      · exact kept
      · omega

/-- What an `iappend` changes: it adds slots to its inode and writes to blocks in them. -/
structure Appended (s s' : St) (ips : ι → Dinode) (i : ι) (din : Dinode) : Prop where
  count : s'.img.count = s.img.count
  freeinode : s'.freeinode = s.freeinode
  ledger : Ledger s'.img.blk (Function.update ips i din) s'.freeblock
  slots : ∀ k, slot s.img.blk (ips i) k ≠ 0 → slot s'.img.blk din k = slot s.img.blk (ips i) k
  kept : ∀ b, (∀ k, slot s'.img.blk din k ≠ 0 → (slot s'.img.blk din k).toNat ≠ b) →
    s'.img.blk b = s.img.blk b
  fields : din = { ips i with addrs := din.addrs }

theorem Appended.refl (ledger : Ledger s.img.blk ips s.freeblock) : Appended s s ips i (ips i) where
  count := rfl
  freeinode := rfl
  ledger := by rwa [Function.update_eq_self]
  slots _ _ := rfl
  kept _ _ := rfl
  fields := rfl

theorem Appended.trans {s'' : St} {din din' : Dinode} (first : Appended s s' ips i din)
    (second : Appended s' s'' (Function.update ips i din) i din') : Appended s s'' ips i din' := by
  have here : Function.update ips i din i = din := Function.update_self i din ips
  have slots := second.slots
  have fields := second.fields
  rw [here] at slots fields
  refine ⟨second.count.trans first.count, second.freeinode.trans first.freeinode, ?_, ?_, ?_, ?_⟩
  · have ledger := second.ledger
    rwa [Function.update_idem] at ledger
  · intro k used
    have same := first.slots k used
    rw [slots k (by rwa [same]), same]
  · intro b outside
    rw [second.kept b outside]
    refine first.kept b fun k used => ?_
    have same := slots k used
    rw [← same]
    exact outside k (by rwa [same])
  · rw [fields, first.fields]

/-- A block in a slot of another inode after the call has not been written. -/
theorem Appended.kept_of_slot {din : Dinode} {j : ι} {k : ℕ} (appended : Appended s s' ips i din)
    (other : j ≠ i) :
    s'.img.blk (slot s'.img.blk (ips j) k).toNat =
      s.img.blk (slot s'.img.blk (ips j) k).toNat := by
  refine appended.kept _ fun l holds => ?_
  have differ := appended.ledger.ne_of_slot (i := i) (k := l) (j := j) (l := k)
  rw [Function.update_self, Function.update_of_ne other] at differ
  exact differ holds fun same => absurd same.symm other

theorem Appended.slot_of_ne {din : Dinode} {j : ι} (appended : Appended s s' ips i din)
    (other : j ≠ i) (k : ℕ) : slot s'.img.blk (ips j) k = slot s.img.blk (ips j) k := by
  apply slot_congr
  intro _
  have kept := appended.kept_of_slot (k := MAXFILE) other
  rwa [slot_maxfile] at kept

/-- The block that has been found is written. -/
theorem Found.appended {x : Word} {din : Dinode} (found : Found s s' ips i fbn x din)
    (inRange : fbn < MAXFILE) (buf : Block) : Appended s (put s' x.toNat buf) ips i din := by
  have here : Function.update ips i din i = din := Function.update_self i din ips
  have holds := found.holds
  have written := found.ledger.write (i := i) (k := fbn) inRange
    (by rw [here, holds]; exact found.used) buf
  rw [here, holds] at written
  -- The data block is not an indirect block, so that the slots are those before the write.
  have slots : ∀ k, slot (put s' x.toNat buf).img.blk din k = slot s'.img.blk din k := by
    intro k
    apply slot_congr
    intro _
    apply Function.update_of_ne
    have differ := found.ledger.ne_of_slot (i := i) (k := fbn) (j := i) (l := MAXFILE)
      (by rw [here, holds]; exact found.used) fun _ => inRange.ne
    rw [here, holds, slot_maxfile] at differ
    exact differ.symm
  refine ⟨found.count, found.freeinode, written, ?_, ?_, found.fields⟩
  · intro k used
    rw [slots]
    exact found.slots k (Or.inl used)
  · intro b outside
    have notData : b ≠ x.toNat := by
      have := outside fbn
      rw [slots, holds] at this
      exact (this found.used).symm
    show Function.update s'.img.blk x.toNat buf b = s.img.blk b
    rw [Function.update_of_ne notData]
    apply found.kept
    intro mapped
    have := outside MAXFILE
    rw [slots, slot_maxfile] at this
    exact (this mapped).symm

/-! ## The bytes of a file -/

/-- The slots of an inode hold the given bytes: those of its blocks are used that are needed. -/
structure Holds (blk : Disk) (ip : Dinode) (bs : List Byte) : Prop where
  slots : ∀ k < MAXFILE, slot blk ip k ≠ 0 ↔ k * BSIZE < bs.length
  bytes : ∀ y < bs.length, Bytes.get (blk (slot blk ip (y / BSIZE)).toNat) (y % BSIZE) = bs.getD y 0
  small : bs.length ≤ MAXFILE * BSIZE

theorem Holds.congr {blk blk' : Disk} {ip ip' : Dinode} {bs : List Byte} (holds : Holds blk ip bs)
    (slots : ∀ k < MAXFILE, slot blk' ip' k = slot blk ip k)
    (same : ∀ k < MAXFILE, slot blk ip k ≠ 0 →
      blk' (slot blk ip k).toNat = blk (slot blk ip k).toNat) :
    Holds blk' ip' bs := by
  have small := holds.small
  refine ⟨fun k below => ?_, fun y inside => ?_, small⟩
  · rw [slots k below]
    exact holds.slots k below
  · have below : y / BSIZE < MAXFILE := by
      simp only [MAXFILE, BSIZE] at small ⊢
      omega
    have used := (holds.slots _ below).mpr ((Nat.div_mul_le_self y BSIZE).trans_lt inside)
    rw [slots _ below, same _ below used]
    exact holds.bytes y inside

/-- A round adds the bytes that go into its block. -/
theorem Holds.round {x : Word} {din : Dinode} {bs p : List Byte} {n1 : ℕ}
    (holds : Holds s.img.blk (ips i) bs) (found : Found s s' ips i (bs.length / BSIZE) x din)
    (inRange : bs.length / BSIZE < MAXFILE)
    (taken : n1 = min p.length ((bs.length / BSIZE + 1) * BSIZE - bs.length)) (more : p ≠ []) :
    Holds (put s' x.toNat (filled (s'.img.blk x.toNat) bs.length p)).img.blk din
      (bs ++ p.take n1) := by
  have here : Function.update ips i din i = din := Function.update_self i din ips
  have positive : 0 < p.length := List.length_pos_iff.mpr more
  have atMost : n1 ≤ p.length := taken ▸ Nat.min_le_left _ _
  have length : (bs ++ p.take n1).length = bs.length + n1 := by
    rw [List.length_append, List.length_take, Nat.min_eq_left atMost]
  have room : 0 < n1 ∧ bs.length + n1 ≤ (bs.length / BSIZE + 1) * BSIZE := by
    simp only [BSIZE] at taken ⊢
    omega
  have apart : ∀ k, slot s'.img.blk din k ≠ 0 → k ≠ bs.length / BSIZE →
      (slot s'.img.blk din k).toNat ≠ x.toNat := by
    intro k used other
    have differ := found.ledger.ne_of_slot (i := i) (k := k) (j := i) (l := bs.length / BSIZE)
    rw [here, found.holds] at differ
    exact differ used fun _ => other
  have slots : ∀ k, slot (put s' x.toNat (filled (s'.img.blk x.toNat) bs.length p)).img.blk din k =
      slot s'.img.blk din k := by
    intro k
    apply slot_congr
    intro mapped
    apply Function.update_of_ne
    have differ := apart MAXFILE
    rw [slot_maxfile] at differ
    exact differ mapped inRange.ne'
  -- A block of the file that is not the one found has not been touched.
  have others : ∀ k < MAXFILE, k ≠ bs.length / BSIZE →
      slot s'.img.blk din k = slot s.img.blk (ips i) k :=
    fun k below other => found.slots k (Or.inr ⟨below.ne, other⟩)
  have data : ∀ k < MAXFILE, slot s'.img.blk din k ≠ 0 →
      s'.img.blk (slot s'.img.blk din k).toNat = s.img.blk (slot s'.img.blk din k).toNat := by
    intro k below used
    refine found.kept _ fun mapped => ?_
    have differ := found.ledger.ne_of_slot (i := i) (k := k) (j := i) (l := MAXFILE)
    rw [here, slot_maxfile] at differ
    exact differ used fun _ => below.ne
  refine ⟨fun k below => ?_, fun y inside => ?_, ?_⟩
  · rw [slots, length]
    by_cases same : k = bs.length / BSIZE
    · subst same
      rw [found.holds]
      refine iff_of_true found.used ?_
      simp only [BSIZE] at room ⊢
      omega
    · rw [others k below same, holds.slots k below]
      simp only [BSIZE] at same room ⊢
      omega
  · rw [length] at inside
    rw [slots]
    by_cases same : y / BSIZE = bs.length / BSIZE
    · rw [same, found.holds]
      simp only [put, Function.update_self, filled]
      have bounds : y % BSIZE = y - bs.length / BSIZE * BSIZE := by
        simp only [BSIZE] at same ⊢
        omega
      rw [Bytes.get_move _ _ _ _ (Nat.mod_lt _ (by decide)), ← taken]
      by_cases before : y < bs.length
      · have old : slot s.img.blk (ips i) (bs.length / BSIZE) ≠ 0 := by
          refine (holds.slots _ inRange).mpr ?_
          simp only [BSIZE] at same ⊢
          omega
        have unchanged : x = slot s.img.blk (ips i) (y / BSIZE) := by
          rw [same, ← found.holds]
          exact found.slots _ (Or.inl old)
        rw [if_neg (by simp only [BSIZE] at same ⊢; omega), List.getD_append _ _ _ _ before,
          ← holds.bytes y before, ← unchanged]
        have kept := data _ inRange
        rw [found.holds] at kept
        rw [kept found.used]
      · rw [if_pos (by simp only [BSIZE] at same bounds ⊢; omega),
          List.getD_append_right _ _ _ _ (Nat.not_lt.mp before)]
        have index : y % BSIZE - (bs.length - bs.length / BSIZE * BSIZE) = y - bs.length := by
          simp only [BSIZE] at same ⊢
          omega
        have small : y - bs.length < n1 := by omega
        rw [index, List.getD_eq_getElem?_getD, List.getD_eq_getElem?_getD,
          List.getElem?_take_of_lt small]
    · have before : y < bs.length ∧ y / BSIZE < MAXFILE := by
        simp only [BSIZE] at same room inRange ⊢
        omega
      have old : slot s.img.blk (ips i) (y / BSIZE) ≠ 0 :=
        (holds.slots _ before.2).mpr ((Nat.div_mul_le_self y BSIZE).trans_lt before.1)
      have kept := data _ before.2
      rw [others _ before.2 same] at kept ⊢
      have differ := apart _ (by rwa [others _ before.2 same]) same
      rw [others _ before.2 same] at differ
      simp only [put, Function.update_of_ne differ]
      rw [kept old, holds.bytes y before.1, List.getD_append _ _ _ _ before.1]
  · rw [length]
    refine room.2.trans (Nat.mul_le_mul_right BSIZE ?_)
    exact inRange

/-- The loop of `iappend` stops only if the image is full or the file too large. -/
theorem meets_appendLoop {Q : Dinode × ℕ → St → Prop} {fuel off : ℕ} {p : List Byte}
    (enough : p.length ≤ fuel) (ledger : Ledger s.img.blk ips s.freeblock)
    (count : s.img.count = FSSIZE) (bound : s.freeblock ≤ FSSIZE)
    (stop : FSSIZE < s.freeblock + 2 * p.length ∨ MAXFILE * BSIZE < off + p.length → ∀ e, E e)
    (post : ∀ din off' s', Appended s s' ips i din → off' = off + p.length →
      s'.freeblock ≤ FSSIZE → s'.freeblock ≤ s.freeblock + 2 * p.length →
      (∀ bs, off = bs.length → Holds s.img.blk (ips i) bs → Holds s'.img.blk din (bs ++ p)) →
      Q (din, off') s') :
    Meets (appendLoop (ips i) off p fuel) s E Q := by
  have done : p = [] → Q (ips i, off) s := by
    rintro rfl
    refine post _ _ _ (Appended.refl ledger) rfl bound (Nat.le_add_right _ _) fun bs _ holds => ?_
    rwa [List.append_nil]
  induction fuel generalizing s ips off p with
  | zero => exact meets_pure (done (List.length_eq_zero_iff.mp (Nat.le_zero.mp enough)))
  | succ fuel ih =>
      by_cases empty : p = []
      · rw [appendLoop, if_pos empty]
        exact meets_pure (done empty)
      · have positive : 0 < p.length := List.length_pos_iff.mpr empty
        refine meets_round ledger count bound empty ?_ ?_
        · intro failure
          refine stop (failure.imp ?_ ?_)
          · intro full
            omega
          · intro large
            omega
        · intro x din s' found inRange inside bound'
          have round := found.appended inRange (filled (s'.img.blk x.toNat) off p)
          have held : ∀ bs, off = bs.length → Holds s.img.blk (ips i) bs →
              Holds (put s' x.toNat (filled (s'.img.blk x.toNat) off p)).img.blk din
                (bs ++ p.take (min p.length ((off / BSIZE + 1) * BSIZE - off))) := by
            rintro bs rfl holds
            exact holds.round found inRange rfl empty
          have taken : 0 < min p.length ((off / BSIZE + 1) * BSIZE - off) := by
            simp only [BSIZE]
            omega
          have atMost : min p.length ((off / BSIZE + 1) * BSIZE - off) ≤ p.length :=
            Nat.min_le_left _ _
          generalize min p.length ((off / BSIZE + 1) * BSIZE - off) = n1 at taken atMost held ⊢
          have few := found.few
          have length : (p.drop n1).length = p.length - n1 := List.length_drop
          have here : Function.update ips i din i = din := Function.update_self i din ips
          have sameBlock : ∀ buf, (put s' x.toNat buf).freeblock = s'.freeblock := fun _ => rfl
          rw [← here]
          refine ih (by omega) round.ledger (found.count.trans count) bound' ?_ ?_ ?_
          · rw [sameBlock, length]
            intro failure
            refine stop (failure.imp ?_ ?_)
            · intro full
              omega
            · intro large
              omega
          · intro din' off' s'' more reached bound'' few' rest
            rw [sameBlock, length] at few'
            rw [length] at reached
            refine post _ _ _ (round.trans more) (by omega) bound'' (by omega) fun bs start holds =>
              ?_
            have both := rest (bs ++ p.take n1) ?_ (by rw [here]; exact held bs start holds)
            · rwa [List.append_assoc, List.take_append_drop] at both
            · rw [List.length_append, List.length_take, Nat.min_eq_left atMost, start]
          · intro nothing
            rw [here]
            have all : p.length ≤ n1 := List.drop_eq_nil_iff.mp nothing
            refine post _ _ _ round (by omega) bound' ?_ fun bs start holds => ?_
            · rw [sameBlock]
              omega
            · have whole := held bs start holds
              rwa [List.take_of_length_le all] at whole

end Find

end Xv6.Mkfs
