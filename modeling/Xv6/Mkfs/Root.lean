import Mathlib.Data.List.GetD
import Xv6.Mkfs.Table

/-!
# The root directory

The root has a name for every file, and its blocks are all direct ones. A directory
entry is appended by one round of `iappend`, since 16 divides the size of a block; the
rest of a new block stays zero.
-/

namespace Xv6.Mkfs

open Fs Prog
open Checker (Dirent getDirent DPB)

variable {s s' : St} {E : Exit → Prop} {blk blk' : Disk} {ip : Dinode} {es : List Dirent}
  {e : Dirent}

/-- A free entry of a directory. -/
def blank : Dirent where
  inum := 0
  name := List.replicate DIRSIZ 0

theorem getDirent_zero (q : ℕ) : getDirent (fun _ => 0) q = blank := by
  have bytes : ∀ i, Bytes.get (fun _ => 0 : Block) i = 0 := by
    intro i
    simp [Bytes.get]
  simp only [getDirent, Bytes.getHalf, Bytes.getLE, bytes, blank]
  rfl

theorem length_bytes (named : e.name.length = DIRSIZ) : (Dirent.bytes e).length = 16 := by
  simp [Dirent.bytes, named]

/-- The entry that is read back from a block after it has been copied there. -/
theorem getDirent_move {buf : Block} {q : ℕ} (named : e.name.length = DIRSIZ) (inBlock : q < DPB)
    (q' : ℕ) :
    getDirent (Bytes.move buf (16 * q) 16 fun j => (Dirent.bytes e).getD j 0) q' =
      if q' = q then e else getDirent buf q' := by
  simp only [DPB, BSIZE] at inBlock
  by_cases same : q' = q
  · subst same
    have get : ∀ j < 16, Bytes.get (Bytes.move buf (16 * q') 16 fun j => (Dirent.bytes e).getD j 0)
        (16 * q' + j) = (Dirent.bytes e).getD j 0 := by
      intro j inside
      rw [Bytes.get_move _ _ _ _ (by simp only [BSIZE]; omega), if_pos (by omega),
        Nat.add_sub_cancel_left]
    have name : (List.range DIRSIZ).map (fun j => Bytes.get (Bytes.move buf (16 * q') 16 fun j =>
        (Dirent.bytes e).getD j 0) (16 * q' + 2 + j)) = e.name := by
      apply List.ext_getElem
      · simp [named]
      · intro j inside inName
        have small : j < DIRSIZ := by simpa using inside
        simp only [DIRSIZ] at small
        rw [List.getElem_map, List.getElem_range, Nat.add_assoc, get _ (by omega), Nat.add_comm 2 j]
        simp only [Dirent.bytes, List.getD_cons_succ]
        exact List.getD_eq_getElem _ _ _
    have inum : Bytes.getHalf (Bytes.move buf (16 * q') 16 fun j => (Dirent.bytes e).getD j 0)
        (16 * q') = e.inum := by
      have first := get 0 (by omega)
      have second := get 1 (by omega)
      simp only [Nat.add_zero] at first
      apply BitVec.eq_of_toNat_eq
      have bound := e.inum.isLt
      simp only [Bytes.getHalf, Bytes.getLE, first, second]
      simp only [Dirent.bytes, List.getD_cons_zero, List.getD_cons_succ, BitVec.toNat_ofNat]
      omega
    rw [if_pos rfl, getDirent, name, inum]
  · have outside : ∀ j < 16, Bytes.get (Bytes.move buf (16 * q) 16 fun j =>
        (Dirent.bytes e).getD j 0) (16 * q' + j) = Bytes.get buf (16 * q' + j) := by
      intro j inside
      exact Bytes.get_move_of_outside _ _ _ _ (by omega)
    rw [if_neg same, getDirent, getDirent]
    congr 1
    · refine congrArg (BitVec.ofNat 16) (Bytes.getLE_congr fun i lower upper => ?_)
      obtain ⟨j, rfl⟩ := Nat.exists_eq_add_of_le lower
      exact outside j (by omega)
    · apply List.map_congr_left
      intro j mem
      have small : j < DIRSIZ := List.mem_range.mp mem
      simp only [DIRSIZ] at small
      rw [Nat.add_assoc]
      exact outside _ (by omega)

theorem getD_concat {p : ℕ} :
    (es ++ [e]).getD p blank = if p = es.length then e else es.getD p blank := by
  rcases lt_trichotomy p es.length with below | rfl | above
  · rw [if_neg below.ne, List.getD_append _ _ _ _ below]
  · simp
  · rw [if_neg above.ne', List.getD_eq_default _ _ above.le, List.getD_eq_default]
    rw [List.length_append]
    exact above

/-- The blocks of a directory hold the given entries, and free ones behind them. -/
structure Lists (blk : Disk) (ip : Dinode) (es : List Dirent) : Prop where
  addrs : ∀ j < NDIRECT, ip.addr j ≠ 0 ↔ DPB * j < es.length
  direct : ip.addr NDIRECT = 0
  entries : ∀ j < NDIRECT, ip.addr j ≠ 0 → ∀ q < DPB,
    getDirent (blk (ip.addr j).toNat) q = es.getD (DPB * j + q) blank

theorem Lists.congr {ip' : Dinode} (lists : Lists blk ip es)
    (addr : ∀ j ≤ NDIRECT, ip'.addr j = ip.addr j)
    (same : ∀ j < NDIRECT, ip.addr j ≠ 0 → blk' (ip.addr j).toNat = blk (ip.addr j).toNat) :
    Lists blk' ip' es where
  addrs j inRange := by
    rw [addr j inRange.le]
    exact lists.addrs j inRange
  direct := by
    rw [addr NDIRECT le_rfl]
    exact lists.direct
  entries j inRange used q inBlock := by
    rw [addr j inRange.le] at used ⊢
    rw [same j inRange used]
    exact lists.entries j inRange used q inBlock

/-- An `iappend` to another inode leaves a directory alone. -/
theorem Lists.of_kept {i j : Fin NINODES} (lists : Lists s.img.blk (inodes s.img.blk j) es)
    (kept : Kept s s' i) (other : j ≠ i) : Lists s'.img.blk (inodes s'.img.blk j) es := by
  refine lists.congr (fun _ _ => by rw [kept.others j other]) fun k inRange used => ?_
  have data := kept.data j other k
  rw [slot_direct _ inRange] at data
  exact data used

section Append

variable {i : Fin NINODES} {x : Word} {din : Dinode}

/-- The block in which the entry is stored. -/
theorem filled_entry {buf : Block} {n : ℕ} (named : e.name.length = DIRSIZ) :
    filled buf (16 * n) (Dirent.bytes e) =
      Bytes.move buf (16 * (n % DPB)) 16 fun j => (Dirent.bytes e).getD j 0 := by
  have start : 16 * n - 16 * n / BSIZE * BSIZE = 16 * (n % DPB) := by
    simp only [DPB, BSIZE]
    omega
  have length : min 16 ((16 * n / BSIZE + 1) * BSIZE - 16 * n) = 16 := by
    simp only [BSIZE]
    omega
  rw [filled, length_bytes named, start, length]

/-- The entries of the block that has been found, before the new one is stored. -/
theorem Lists.found (lists : Lists s.img.blk (inodes s.img.blk i) es)
    (ledger : Ledger s.img.blk (inodes s.img.blk) s.freeblock)
    (found : Found s s' (inodes s.img.blk) i (es.length / DPB) x din)
    (room : es.length < NDIRECT * DPB) {q : ℕ} (inBlock : q < DPB) :
    getDirent (s'.img.blk x.toNat) q = es.getD (DPB * (es.length / DPB) + q) blank := by
  have inRange : es.length / DPB < NDIRECT := (Nat.div_lt_iff_lt_mul (by decide)).mpr room
  have indirect : din.addr NDIRECT = 0 := (found.indirect inRange).trans lists.direct
  rw [found.kept _ fun mapped => absurd indirect mapped]
  by_cases empty : (inodes s.img.blk i).addr (es.length / DPB) = 0
  · -- The block is a new one, and it begins where the entries end.
    have behind : es.length ≤ DPB * (es.length / DPB) := by
      by_contra inside
      exact (lists.addrs _ inRange).mpr (Nat.not_le.mp inside) empty
    have fresh : s.freeblock ≤ x.toNat := by
      rcases found.before with same | fresh
      · rw [slot_direct _ inRange, empty] at same
        exact absurd same found.used
      · exact fresh
    rw [ledger.zero _ fresh, getDirent_zero, List.getD_eq_default]
    omega
  · have same : x = (inodes s.img.blk i).addr (es.length / DPB) := by
      have kept := found.slots (es.length / DPB)
      rw [slot_direct _ inRange, found.holds] at kept
      exact kept (Or.inl empty)
    rw [same]
    exact lists.entries _ inRange empty q inBlock

/-- An entry is appended to the last block. -/
theorem Lists.append (lists : Lists s.img.blk (inodes s.img.blk i) es)
    (ledger : Ledger s.img.blk (inodes s.img.blk) s.freeblock)
    (found : Found s s' (inodes s.img.blk) i (es.length / DPB) x din)
    (room : es.length < NDIRECT * DPB) (named : e.name.length = DIRSIZ) :
    Lists (put s' x.toNat (filled (s'.img.blk x.toNat) (16 * es.length) (Dirent.bytes e))).img.blk
      din (es ++ [e]) := by
  have inRange : es.length / DPB < NDIRECT := (Nat.div_lt_iff_lt_mul (by decide)).mpr room
  have indirect : din.addr NDIRECT = 0 := (found.indirect inRange).trans lists.direct
  have here : Function.update (inodes s.img.blk) i din i = din := Function.update_self _ _ _
  have atFound : din.addr (es.length / DPB) = x := by
    have holds := found.holds
    rwa [slot_direct _ inRange] at holds
  have others : ∀ j < NDIRECT, j ≠ es.length / DPB → din.addr j = (inodes s.img.blk i).addr j := by
    intro j below other
    have slots := found.slots j (Or.inr ⟨by simp only [MAXFILE]; omega, other⟩)
    rwa [slot_direct _ below, slot_direct _ below] at slots
  refine ⟨?_, indirect, ?_⟩
  · intro j below
    rw [List.length_append, List.length_singleton]
    by_cases same : j = es.length / DPB
    · subst same
      rw [atFound]
      simp only [DPB, BSIZE, found.used, ne_eq, not_false_eq_true, true_iff]
      omega
    · rw [others j below same, lists.addrs j below]
      simp only [DPB, BSIZE] at same ⊢
      omega
  · intro j below used q inBlock
    rw [getD_concat]
    by_cases same : j = es.length / DPB
    · subst same
      have index : DPB * (es.length / DPB) + q = es.length ↔ q = es.length % DPB := by
        simp only [DPB, BSIZE] at inBlock ⊢
        omega
      rw [atFound, filled_entry named]
      simp only [put, Function.update_self, index]
      rw [getDirent_move named (Nat.mod_lt _ (by decide)), lists.found ledger found room inBlock]
    · have before := others j below same
      have index : DPB * j + q ≠ es.length := by
        simp only [DPB, BSIZE] at inBlock same ⊢
        omega
      have differ : (din.addr j).toNat ≠ x.toNat := by
        have ne := found.ledger.ne_of_slot (i := i) (k := j) (j := i) (l := es.length / DPB)
        rw [here, slot_direct _ below, slot_direct _ inRange, atFound] at ne
        exact ne used fun _ => same
      rw [if_neg index]
      simp only [put, Function.update_of_ne differ]
      rw [found.kept _ fun mapped => absurd indirect mapped, before]
      rw [before] at used
      exact lists.entries j below used q inBlock

/-- `iappend` of a directory entry. -/
theorem meets_iappend_entry {Q : Unit → St → Prop} (before : Sound s)
    (lists : Lists s.img.blk (inodes s.img.blk i) es)
    (size : (inodes s.img.blk i).size.toNat = 16 * es.length) (room : es.length < NDIRECT * DPB)
    (named : e.name.length = DIRSIZ) (stop : FSSIZE < s.freeblock + 2 → ∀ e, E e)
    (post : ∀ s', Sound s' → Kept s s' i → Lists s'.img.blk (inodes s'.img.blk i) (es ++ [e]) →
      (inodes s'.img.blk i).size.toNat = 16 * (es ++ [e]).length →
      s'.freeblock ≤ s.freeblock + 2 → Q () s') :
    Meets (iappend i (Dirent.bytes e)) s E Q := by
  have length := length_bytes named
  have index : 16 * es.length / BSIZE = es.length / DPB := by
    simp only [DPB, BSIZE]
    omega
  have whole : min 16 ((es.length / DPB + 1) * BSIZE - 16 * es.length) = 16 := by
    simp only [DPB, BSIZE]
    omega
  have nonempty : Dirent.bytes e ≠ [] := List.cons_ne_nil _ _
  have none : (Dirent.bytes e).drop 16 = [] := List.drop_eq_nil_of_le length.le
  simp only [NDIRECT, DPB, BSIZE] at room
  refine meets_iappend_of_loop before.count ?_
  rw [length, size]
  refine meets_round before.ledger before.count before.bound nonempty ?_ ?_
  · rintro (full | large)
    · exact stop full
    · simp only [MAXFILE, BSIZE, NDIRECT] at large
      omega
  · intro x din s' found inRange inside bound
    rw [index] at found inRange
    rw [length, index, whole, none]
    have appended := found.appended inRange
      (filled (s'.img.blk x.toNat) (16 * es.length) (Dirent.bytes e))
    refine meets_pure ⟨appended.count.trans before.count, post _ (appended.sound before bound _)
      (appended.keeps before _) ?_ ?_ found.few⟩
    · have listed := lists.append before.ledger found room named
      rw [appended.inodes_closed, Function.update_self]
      refine listed.congr (fun _ _ => rfl) fun j below used => closed_of_data ?_
      have slots := appended.ledger.inside i j
      rw [Function.update_self, slot_direct _ below] at slots
      exact (slots used).1
    · rw [appended.inodes_closed, Function.update_self, List.length_append, List.length_singleton,
        BitVec.toNat_ofNat, Nat.mod_eq_of_lt (by omega)]
      omega

end Append

end Xv6.Mkfs
