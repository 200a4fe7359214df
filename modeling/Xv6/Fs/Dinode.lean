import Xv6.Fs.Contents
import Xv6.Fs.Icache

/-!
# Inodes on disk

`iupdate` stores all fields of one inode and leaves every other inode as it is.
`dinodes` is the family of all inodes as the inode blocks hold them.
-/

namespace Xv6.Fs

theorem get_putDinode_of_outside {b : Block} {i x : ℕ} {d : Dinode}
    (outside : x < 64 * i ∨ 64 * i + 64 ≤ x) : Bytes.get (putDinode b i d) x = Bytes.get b x := by
  simp only [putDinode, Bytes.putHalf, Bytes.putWord, Bytes.putLE]
  rw [Bytes.get_putWords_of_outside (by simp only [List.length_ofFn, NDIRECT]; omega),
    Bytes.get_move_of_outside _ _ _ _ (by omega), Bytes.get_move_of_outside _ _ _ _ (by omega),
    Bytes.get_move_of_outside _ _ _ _ (by omega), Bytes.get_move_of_outside _ _ _ _ (by omega),
    Bytes.get_move_of_outside _ _ _ _ (by omega)]

theorem getDinode_congr {b b' : Block} {i : ℕ}
    (same : ∀ x, 64 * i ≤ x → x < 64 * i + 64 → Bytes.get b' x = Bytes.get b x) :
    getDinode b' i = getDinode b i := by
  have fields : ∀ off k, 64 * i ≤ off → off + k ≤ 64 * i + 64 →
      Bytes.getLE b' off k = Bytes.getLE b off k := by
    intro off k lower upper
    apply Bytes.getLE_congr
    intro x lower' upper'
    exact same x (by omega) (by omega)
  have words : ∀ k : Fin (NDIRECT + 1), Bytes.getWord b' (64 * i + 12 + 4 * k) =
      Bytes.getWord b (64 * i + 12 + 4 * k) := by
    intro k
    have := k.isLt
    rw [Bytes.getWord, Bytes.getWord, fields _ 4 (by omega) (by simp only [NDIRECT] at this; omega)]
  simp only [getDinode, Bytes.getHalf, Bytes.getWord] at words ⊢
  rw [fields _ 2 (by omega) (by omega), fields _ 2 (by omega) (by omega),
    fields _ 2 (by omega) (by omega), fields _ 2 (by omega) (by omega),
    fields _ 4 (by omega) (by omega)]
  congr 1
  funext k
  exact words k

theorem getDinode_putDinode_of_ne {b : Block} {i j : ℕ} {d : Dinode} (other : j ≠ i) :
    getDinode (putDinode b i d) j = getDinode b j := by
  apply getDinode_congr
  intro x lower upper
  exact get_putDinode_of_outside (by omega)

/-- What has been stored is read. -/
theorem getDinode_putDinode {b : Block} {i : ℕ} {d : Dinode} (inBlock : i < IPB) :
    getDinode (putDinode b i d) i = d := by
  simp only [IPB, BSIZE] at inBlock
  have addrs : ∀ k : Fin (NDIRECT + 1),
      Bytes.getWord (putDinode b i d) (64 * i + 12 + 4 * k) = d.addrs k := by
    intro k
    rw [putDinode, Bytes.getWord_putWords (by simp only [List.length_ofFn, NDIRECT, BSIZE]; omega)
      (by rw [List.length_ofFn]; exact k.isLt), List.getElem_ofFn]
  -- The fields that are stored later lie behind the field that is read.
  have half : ∀ (b : Block) (off : ℕ) (w : Half), off + 2 ≤ 512 →
      BitVec.ofNat 16 (Bytes.getLE (Bytes.putLE b off 2 w.toNat) off 2) = w :=
    fun b off w fits => Bytes.getHalf_putHalf fits
  have word : ∀ (b : Block) (off : ℕ) (w : Word), off + 4 ≤ 512 →
      BitVec.ofNat 32 (Bytes.getLE (Bytes.putLE b off 4 w.toNat) off 4) = w :=
    fun b off w fits => Bytes.getWord_putWord fits
  apply Dinode.ext
  · simp (disch := omega) only [getDinode, putDinode, Bytes.getHalf, Bytes.putHalf, Bytes.putWord,
      Bytes.getLE_putWords_of_disjoint, Bytes.getLE_putLE_of_disjoint, half]
  · simp (disch := omega) only [getDinode, putDinode, Bytes.getHalf, Bytes.putHalf, Bytes.putWord,
      Bytes.getLE_putWords_of_disjoint, Bytes.getLE_putLE_of_disjoint, half]
  · simp (disch := omega) only [getDinode, putDinode, Bytes.getHalf, Bytes.putHalf, Bytes.putWord,
      Bytes.getLE_putWords_of_disjoint, Bytes.getLE_putLE_of_disjoint, half]
  · simp (disch := omega) only [getDinode, putDinode, Bytes.getHalf, Bytes.putHalf, Bytes.putWord,
      Bytes.getLE_putWords_of_disjoint, Bytes.getLE_putLE_of_disjoint, half]
  · simp (disch := omega) only [getDinode, putDinode, Bytes.getWord, Bytes.putWord,
      Bytes.getLE_putWords_of_disjoint, word]
  · funext k
    exact addrs k

theorem getDinode_zero (i : ℕ) : getDinode (fun _ => 0) i = zeroDinode := by
  have bytes : ∀ i, Bytes.get (fun _ => 0 : Block) i = 0 := by
    intro i
    simp [Bytes.get]
  simp only [getDinode, Bytes.getHalf, Bytes.getWord, Bytes.getLE, bytes]
  rfl

/-! ## The family of all inodes -/

/-- Inode `m` as the disk holds it. -/
def diskInode (sb : Superblock) (blk : Disk) (m : ℕ) : Inode where
  toDinode := getDinode (blk (sb.iblock m)) (m % IPB)
  inum := m

/-- The inodes of the disk. -/
def dinodes (sb : Superblock) (blk : Disk) : Fin sb.ninodes → Inode :=
  fun m => diskInode sb blk m

/-- Store a dinode in its place. -/
def putInode (sb : Superblock) (blk : Disk) (ip : Inode) : Disk :=
  Function.update blk (sb.iblock ip.inum)
    (putDinode (blk (sb.iblock ip.inum)) (ip.inum % IPB) ip.toDinode)

variable {sb : Superblock} {blk blk' : Disk}

/-- Storing an inode changes no other one. -/
theorem diskInode_putInode (ip : Inode) (m : ℕ) :
    diskInode sb (putInode sb blk ip) m = if m = ip.inum then ip else diskInode sb blk m := by
  by_cases same : m = ip.inum
  · subst same
    rw [if_pos rfl, diskInode, putInode, Function.update_self,
      getDinode_putDinode (Nat.mod_lt _ (by decide))]
  · rw [if_neg same, diskInode, putInode, diskInode]
    by_cases block : sb.iblock m = sb.iblock ip.inum
    · have other : m % IPB ≠ ip.inum % IPB := by
        simp only [Superblock.iblock, IPB, BSIZE] at block ⊢
        omega
      rw [block, Function.update_self, getDinode_putDinode_of_ne other]
    · rw [Function.update_of_ne block]

theorem dinodes_putInode (m : Fin sb.ninodes) {ip : Inode} (inum : ip.inum = m) :
    dinodes sb (putInode sb blk ip) = Function.update (dinodes sb blk) m ip := by
  funext j
  rw [dinodes, diskInode_putInode, inum]
  by_cases same : j = m
  · subst same
    rw [if_pos rfl, Function.update_self]
  · rw [if_neg (fun equal => same (Fin.ext equal)), Function.update_of_ne same]
    rfl

theorem diskInode_congr (layout : Layout sb) (same : ∀ b < sb.bmapstart, blk' b = blk b) {m : ℕ}
    (inRange : m < sb.ninodes) : diskInode sb blk' m = diskInode sb blk m := by
  rw [diskInode, diskInode, same _ (iblock_lt layout inRange)]

theorem dinodes_congr (layout : Layout sb) (same : ∀ b < sb.bmapstart, blk' b = blk b) :
    dinodes sb blk' = dinodes sb blk := by
  funext m
  exact diskInode_congr layout same m.isLt

end Xv6.Fs
