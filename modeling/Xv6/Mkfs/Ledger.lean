import Xv6.Fs.Dinode
import Xv6.Mkfs.Build

/-!
# The ledger of blocks

`mkfs` hands out blocks in order and never takes one back. The ledger says that the
blocks it has handed out are those that the slots of the inodes hold, each of them in
one slot, and that the blocks behind them are still zero. `iappend` works on a copy of
an inode, so the family of inodes is kept apart from the disk.
-/

namespace Xv6.Mkfs

open Fs

variable {ι : Type} {blk blk' : Disk} {ips ips' : ι → Dinode} {n k : ℕ} {i : ι}

structure Ledger (blk : Disk) (ips : ι → Dinode) (n : ℕ) : Prop where
  start : nmeta ≤ n
  inside : ∀ i k, slot blk (ips i) k ≠ 0 →
    nmeta ≤ (slot blk (ips i) k).toNat ∧ (slot blk (ips i) k).toNat < n
  once : ∀ i k i' k', slot blk (ips i) k ≠ 0 → slot blk (ips i) k = slot blk (ips i') k' →
    i = i' ∧ k = k'
  all : ∀ b, nmeta ≤ b → b < n → ∃ i k, slot blk (ips i) k ≠ 0 ∧ (slot blk (ips i) k).toNat = b
  zero : ∀ b, n ≤ b → blk b = fun _ => 0

theorem slot_setAddr_direct {ip : Dinode} {a : ℕ} {w : Word} (direct : a < NDIRECT) (k : ℕ) :
    slot blk (setAddr ip a w) k = if k = a then w else slot blk ip k :=
  @Fs.slot_setAddr_direct blk ⟨ip, 0⟩ a w direct k

theorem slot_setAddr_indirect {ip : Dinode} {w : Word} (empty : ip.addr NDIRECT = 0) (new : w ≠ 0)
    (zeroed : blk w.toNat = fun _ => 0) (k : ℕ) :
    slot blk (setAddr ip NDIRECT w) k = if k = MAXFILE then w else slot blk ip k :=
  @Fs.slot_setAddr_indirect blk blk ⟨ip, 0⟩ w empty new zeroed k

theorem addr_setAddr {ip : Dinode} {i j : ℕ} {a : Word} (low : i ≤ NDIRECT) (low' : j ≤ NDIRECT) :
    (setAddr ip i a).addr j = if j = i then a else ip.addr j :=
  @Fs.addr_setAddr ⟨ip, 0⟩ i j a low low'

namespace Ledger

/-- A change that leaves the slots alone. -/
theorem of_slots (ledger : Ledger blk ips n)
    (same : ∀ i k, slot blk' (ips' i) k = slot blk (ips i) k)
    (zero : ∀ b, n ≤ b → blk' b = fun _ => 0) : Ledger blk' ips' n where
  start := ledger.start
  inside i k := by
    rw [same]
    exact ledger.inside i k
  once i k i' k' := by
    rw [same, same]
    exact ledger.once i k i' k'
  all b lower upper := by
    simp only [same]
    exact ledger.all b lower upper
  zero := zero

theorem toNat_next (small : n < 2 ^ 32) : (BitVec.ofNat 32 n : Word).toNat = n := by
  rw [BitVec.toNat_ofNat, Nat.mod_eq_of_lt small]

theorem next_ne_zero (ledger : Ledger blk ips n) (small : n < 2 ^ 32) :
    (BitVec.ofNat 32 n : Word) ≠ 0 := by
  intro isZero
  have value : (0 : Word).toNat = n := by rw [← isZero, toNat_next small]
  have lower := ledger.start
  have nonzero : nmeta ≠ 0 := by decide
  exact nonzero (Nat.le_zero.mp (lower.trans value.ge))

/-- The next block is put into an empty slot. -/
theorem link (ledger : Ledger blk ips n) (small : n < 2 ^ 32) (empty : slot blk (ips i) k = 0)
    (here : slot blk' (ips' i) k = BitVec.ofNat 32 n)
    (others : ∀ j l, (j = i → l ≠ k) → slot blk' (ips' j) l = slot blk (ips j) l)
    (zero : ∀ b, n + 1 ≤ b → blk' b = fun _ => 0) : Ledger blk' ips' (n + 1) := by
  have value := toNat_next small
  -- Every slot is the new one, or it holds what it held before.
  have cases : ∀ j l, (j = i ∧ l = k) ∨ slot blk' (ips' j) l = slot blk (ips j) l := by
    intro j l
    by_cases isNew : j = i ∧ l = k
    · exact Or.inl isNew
    · exact Or.inr (others j l fun same isSlot => isNew ⟨same, isSlot⟩)
  have older : ∀ j l, slot blk (ips j) l ≠ 0 → slot blk (ips j) l ≠ BitVec.ofNat 32 n := by
    intro j l used same
    have below := (ledger.inside j l used).2
    rw [same, value] at below
    omega
  refine ⟨ledger.start.trans (Nat.le_succ n), ?_, ?_, ?_, zero⟩
  · intro j l used
    rcases cases j l with ⟨rfl, rfl⟩ | same
    · rw [here, value]
      exact ⟨ledger.start, Nat.lt_succ_self n⟩
    · rw [same] at used ⊢
      have bounds := ledger.inside j l used
      omega
  · intro j l j' l' used equal
    rcases cases j l with ⟨rfl, rfl⟩ | same
    · rcases cases j' l' with ⟨rfl, rfl⟩ | same'
      · exact ⟨rfl, rfl⟩
      · rw [here, same'] at equal
        refine absurd equal.symm (older j' l' ?_)
        rw [← equal, ← here]
        exact used
    · rw [same] at used equal
      rcases cases j' l' with ⟨rfl, rfl⟩ | same'
      · rw [here] at equal
        exact absurd equal (older j l used)
      · rw [same'] at equal
        exact ledger.once j l j' l' used equal
  · intro b lower upper
    rcases Nat.lt_succ_iff_lt_or_eq.mp upper with below | rfl
    · rcases ledger.all b lower below with ⟨j, l, used, holds⟩
      refine ⟨j, l, ?_⟩
      rw [others j l]
      · exact ⟨used, holds⟩
      · rintro rfl rfl
        exact used empty
    · refine ⟨i, k, ?_, ?_⟩
      · rw [here]
        exact ledger.next_ne_zero small
      · rw [here, value]

/-- Blocks in slots of different numbers are different. -/
theorem ne_of_slot (ledger : Ledger blk ips n) {j : ι} {l : ℕ} (used : slot blk (ips i) k ≠ 0)
    (other : i = j → k ≠ l) : (slot blk (ips i) k).toNat ≠ (slot blk (ips j) l).toNat := by
  intro same
  rcases ledger.once i k j l used (BitVec.eq_of_toNat_eq same) with ⟨sameInode, sameSlot⟩
  exact other sameInode sameSlot

/-- An entry of an indirect block is set. -/
theorem setEntry (ledger : Ledger blk ips n) (small : n < 2 ^ 32) {e : ℕ} (inRange : e < NINDIRECT)
    (mapped : (ips i).addr NDIRECT ≠ 0)
    (empty : Bytes.getWord (blk ((ips i).addr NDIRECT).toNat) (4 * e) = 0) :
    Ledger (Function.update blk ((ips i).addr NDIRECT).toNat
      (Bytes.putWord (blk ((ips i).addr NDIRECT).toNat) (4 * e) (BitVec.ofNat 32 n))) ips
      (n + 1) := by
  have lower : NDIRECT ≤ NDIRECT + e := Nat.le_add_right _ _
  have upper : NDIRECT + e < MAXFILE := Nat.add_lt_add_left inRange _
  have stored := slot_putWord blk mapped inRange rfl (Function.update_self _
    (Bytes.putWord (blk ((ips i).addr NDIRECT).toNat) (4 * e) (BitVec.ofNat 32 n)) blk)
  have indirect : slot blk (ips i) MAXFILE ≠ 0 := by rwa [slot_maxfile]
  refine ledger.link (i := i) (k := NDIRECT + e) small ?_ ?_ ?_ ?_
  · rw [slot_entry _ lower upper mapped, Nat.add_sub_cancel_left, empty]
  · rw [stored, if_pos rfl]
  · intro j l other
    by_cases same : j = i
    · subst same
      rw [stored, if_neg (other rfl)]
    · apply slot_congr
      intro _
      apply Function.update_of_ne
      have differ := ledger.ne_of_slot (j := j) (l := MAXFILE) indirect fun equal =>
        absurd equal.symm same
      rw [slot_maxfile, slot_maxfile] at differ
      exact differ.symm
  · intro b above
    have below := (ledger.inside i MAXFILE indirect).2
    rw [slot_maxfile] at below
    rw [Function.update_of_ne (by omega)]
    exact ledger.zero b (by omega)

/-- A data block is written. -/
theorem write (ledger : Ledger blk ips n) (data : k < MAXFILE) (used : slot blk (ips i) k ≠ 0)
    (buf : Block) : Ledger (Function.update blk (slot blk (ips i) k).toNat buf) ips n := by
  refine ledger.of_slots ?_ ?_
  · intro j l
    apply slot_congr
    intro _
    apply Function.update_of_ne
    have differ := ledger.ne_of_slot (j := j) (l := MAXFILE) used fun _ => data.ne
    rw [slot_maxfile] at differ
    exact differ.symm
  · intro b above
    have below := (ledger.inside i k used).2
    rw [Function.update_of_ne (by omega)]
    exact ledger.zero b above

variable [DecidableEq ι]

/-- The next block is handed out to a direct address. -/
theorem setDirect (ledger : Ledger blk ips n) (small : n < 2 ^ 32) {a : ℕ} (direct : a < NDIRECT)
    (empty : (ips i).addr a = 0) :
    Ledger blk (Function.update ips i (setAddr (ips i) a (BitVec.ofNat 32 n))) (n + 1) := by
  refine ledger.link (i := i) (k := a) small ?_ ?_ ?_ fun b above => ledger.zero b (by omega)
  · rw [slot_direct _ direct, empty]
  · rw [Function.update_self, slot_setAddr_direct direct, if_pos rfl]
  · intro j l other
    by_cases same : j = i
    · subst same
      rw [Function.update_self, slot_setAddr_direct direct, if_neg (other rfl)]
    · rw [Function.update_of_ne same]

/-- The next block is handed out to the indirect address. -/
theorem setIndirect (ledger : Ledger blk ips n) (small : n < 2 ^ 32)
    (empty : (ips i).addr NDIRECT = 0) :
    Ledger blk (Function.update ips i (setAddr (ips i) NDIRECT (BitVec.ofNat 32 n))) (n + 1) := by
  have new := ledger.next_ne_zero small
  have zeroed : blk (BitVec.ofNat 32 n : Word).toNat = fun _ => 0 := by
    rw [toNat_next small]
    exact ledger.zero n le_rfl
  refine ledger.link (i := i) (k := MAXFILE) small ?_ ?_ ?_ fun b above => ledger.zero b (by omega)
  · rw [slot_maxfile, empty]
  · rw [Function.update_self, slot_setAddr_indirect empty new zeroed, if_pos rfl]
  · intro j l other
    by_cases same : j = i
    · subst same
      rw [Function.update_self, slot_setAddr_indirect empty new zeroed, if_neg (other rfl)]
    · rw [Function.update_of_ne same]

end Ledger

end Xv6.Mkfs
