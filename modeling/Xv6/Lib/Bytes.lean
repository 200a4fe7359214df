import Mathlib.Data.BitVec
import Mathlib.Tactic

/-!
# Little-endian fields in byte arrays

A fixed-size byte array is a function on `Fin N`. This file gives it the
operations C code performs through casts: reading and writing a little-endian
field of `k` bytes at a byte offset, and `memmove` into a range. A field reads
back what was written to it, and writes to disjoint ranges do not interfere;
every record format of the development is derived from these two facts.
-/

namespace Xv6

/-- A `uchar`. -/
abbrev Byte := BitVec 8

instance : LawfulBEq Byte := inferInstance

/-- A `uint`. -/
abbrev Word := BitVec 32

/-- A `short` or `ushort`. -/
abbrev Half := BitVec 16

namespace Bytes

variable {N : ℕ}

/-- The byte at offset `i`; offsets past the end read as zero. -/
def get (b : Fin N → Byte) (i : ℕ) : Byte :=
  if h : i < N then b ⟨i, h⟩ else 0

/-- `memmove(b + off, src, m)`. -/
def move (b : Fin N → Byte) (off m : ℕ) (src : ℕ → Byte) : Fin N → Byte :=
  fun j => if off ≤ j.val ∧ j.val < off + m then src (j.val - off) else b j

/-- The little-endian number held by the `k` bytes from `off` on. -/
def getLE (b : Fin N → Byte) (off : ℕ) : ℕ → ℕ
  | 0 => 0
  | k + 1 => (get b off).toNat + 256 * getLE b (off + 1) k

/-- Store the `k` low bytes of `v` at `off`, least significant first. -/
def putLE (b : Fin N → Byte) (off k v : ℕ) : Fin N → Byte :=
  move b off k fun i => BitVec.ofNat 8 (v / 256 ^ i)

@[simp]
theorem get_fin (b : Fin N → Byte) (i : Fin N) : get b i.val = b i := by
  simp [get]

theorem get_move (b : Fin N → Byte) (off m : ℕ) (src : ℕ → Byte) {i : ℕ} (inside : i < N) :
    get (move b off m src) i =
      if off ≤ i ∧ i < off + m then src (i - off) else get b i := by
  simp [get, move, inside]

theorem get_move_of_outside (b : Fin N → Byte) (off m : ℕ) (src : ℕ → Byte) {i : ℕ}
    (outside : i < off ∨ off + m ≤ i) : get (move b off m src) i = get b i := by
  by_cases inside : i < N
  · rw [get_move b off m src inside, if_neg (by omega)]
  · simp [get, inside]

theorem getLE_congr {a b : Fin N → Byte} {off k : ℕ}
    (agree : ∀ i, off ≤ i → i < off + k → get a i = get b i) :
    getLE a off k = getLE b off k := by
  induction k generalizing off with
  | zero => rfl
  | succ k ih =>
      simp only [getLE]
      rw [agree off (by omega) (by omega), ih]
      intro i lower upper
      exact agree i (by omega) (by omega)

theorem getLE_lt (b : Fin N → Byte) (off k : ℕ) : getLE b off k < 256 ^ k := by
  induction k generalizing off with
  | zero => simp [getLE]
  | succ k ih =>
      have head := (get b off).isLt
      have tail := ih (off + 1)
      simp only [getLE, pow_succ]
      omega

/-- What has been stored is read. -/
theorem getLE_putLE {b : Fin N → Byte} {off k v : ℕ} (fits : off + k ≤ N) :
    getLE (putLE b off k v) off k = v % 256 ^ k := by
  induction k generalizing off v b with
  | zero => simp [getLE, Nat.mod_one]
  | succ k ih =>
      have head : (get (putLE b off (k + 1) v) off).toNat = v % 256 := by
        rw [putLE, get_move b off (k + 1) _ (by omega), if_pos (by omega)]
        simp
      -- The bytes after the first are those of the shorter field holding `v / 256`.
      have tail : getLE (putLE b off (k + 1) v) (off + 1) k =
          getLE (putLE b (off + 1) k (v / 256)) (off + 1) k := by
        apply getLE_congr
        intro i lower upper
        rw [putLE, putLE, get_move b off (k + 1) _ (by omega),
          get_move b (off + 1) k _ (by omega), if_pos (by omega), if_pos (by omega)]
        obtain ⟨d, rfl⟩ := Nat.exists_eq_add_of_le lower
        rw [show off + 1 + d - off = d + 1 by omega, show off + 1 + d - (off + 1) = d by omega,
          pow_succ', Nat.div_div_eq_div_mul]
      simp only [getLE]
      rw [head, tail, ih (by omega), pow_succ', Nat.mod_mul]

theorem getLE_putLE_of_disjoint {b : Fin N → Byte} {off k off' k' v : ℕ}
    (disjoint : off' + k' ≤ off ∨ off + k ≤ off') :
    getLE (putLE b off k v) off' k' = getLE b off' k' := by
  apply getLE_congr
  intro i lower upper
  exact get_move_of_outside b off k _ (by omega)

/-- The bytes of a number are the bytes in memory. -/
theorem getLE_div (b : Fin N → Byte) {off k i : ℕ} (inside : i < k) :
    BitVec.ofNat 8 (getLE b off k / 256 ^ i) = get b (off + i) := by
  induction i generalizing off k with
  | zero =>
      obtain ⟨k, rfl⟩ := Nat.exists_eq_succ_of_ne_zero (show k ≠ 0 by omega)
      apply BitVec.eq_of_toNat_eq
      have := (get b off).isLt
      simp only [getLE, pow_zero, Nat.div_one, Nat.add_zero, BitVec.toNat_ofNat]
      omega
  | succ i ih =>
      obtain ⟨k, rfl⟩ := Nat.exists_eq_succ_of_ne_zero (show k ≠ 0 by omega)
      have shifted : BitVec.ofNat 8 (getLE b (off + 1) k / 256 ^ i) = get b (off + 1 + i) :=
        ih (by omega)
      have bound := (get b off).isLt
      rw [show off + (i + 1) = off + 1 + i by omega, ← shifted]
      simp only [getLE]
      rw [pow_succ', ← Nat.div_div_eq_div_mul]
      congr 2
      omega

/-- A field that is stored again where it was read changes nothing. -/
theorem putLE_getLE (b : Fin N → Byte) (off k : ℕ) : putLE b off k (getLE b off k) = b := by
  funext j
  simp only [putLE, move]
  split
  next inside =>
    rw [getLE_div b (by omega), Nat.add_sub_cancel' inside.1, get_fin]
  next => rfl

/-- The `uint` at byte offset `off`. -/
def getWord (b : Fin N → Byte) (off : ℕ) : Word :=
  BitVec.ofNat 32 (getLE b off 4)

/-- Store a `uint` at byte offset `off`. -/
def putWord (b : Fin N → Byte) (off : ℕ) (w : Word) : Fin N → Byte :=
  putLE b off 4 w.toNat

/-- The `short` at byte offset `off`. -/
def getHalf (b : Fin N → Byte) (off : ℕ) : Half :=
  BitVec.ofNat 16 (getLE b off 2)

/-- Store a `short` at byte offset `off`. -/
def putHalf (b : Fin N → Byte) (off : ℕ) (w : Half) : Fin N → Byte :=
  putLE b off 2 w.toNat

theorem getWord_putWord {b : Fin N → Byte} {off : ℕ} {w : Word} (fits : off + 4 ≤ N) :
    getWord (putWord b off w) off = w := by
  apply BitVec.eq_of_toNat_eq
  have bound := w.isLt
  simp only [getWord, putWord, getLE_putLE fits, BitVec.toNat_ofNat]
  omega

theorem putWord_getWord (b : Fin N → Byte) (off : ℕ) : putWord b off (getWord b off) = b := by
  have small : getLE b off 4 < 2 ^ 32 := getLE_lt b off 4
  rw [putWord, getWord, BitVec.toNat_ofNat, Nat.mod_eq_of_lt small, putLE_getLE]

theorem getWord_putWord_of_disjoint {b : Fin N → Byte} {off off' : ℕ} {w : Word}
    (disjoint : off' + 4 ≤ off ∨ off + 4 ≤ off') :
    getWord (putWord b off w) off' = getWord b off' := by
  simp only [getWord, putWord, getLE_putLE_of_disjoint disjoint]

theorem getHalf_putHalf {b : Fin N → Byte} {off : ℕ} {w : Half} (fits : off + 2 ≤ N) :
    getHalf (putHalf b off w) off = w := by
  apply BitVec.eq_of_toNat_eq
  have bound := w.isLt
  simp only [getHalf, putHalf, getLE_putLE fits, BitVec.toNat_ofNat]
  omega

/-- An array of `uint`s stored from byte offset `off` on. -/
def putWords (b : Fin N → Byte) (off : ℕ) : List Word → Fin N → Byte
  | [] => b
  | w :: ws => putWords (putWord b off w) (off + 4) ws

/-- The array of `n` `uint`s read from byte offset `off` on. -/
def getWords (b : Fin N → Byte) (off n : ℕ) : List Word :=
  (List.range n).map fun i => getWord b (off + 4 * i)

theorem getWord_putWords_of_disjoint {b : Fin N → Byte} {off off' : ℕ} {ws : List Word}
    (before : off' + 4 ≤ off) : getWord (putWords b off ws) off' = getWord b off' := by
  induction ws generalizing b off with
  | nil => rfl
  | cons w ws ih =>
      rw [putWords, ih (by omega), getWord_putWord_of_disjoint (Or.inl before)]

/-- A word of a row that has been stored. -/
theorem getWord_putWords {b : Fin N → Byte} {off : ℕ} {ws : List Word} {i : ℕ}
    (fits : off + 4 * ws.length ≤ N) (index : i < ws.length) :
    getWord (putWords b off ws) (off + 4 * i) = ws[i] := by
  induction ws generalizing b off i with
  | nil => simp at index
  | cons w ws ih =>
      simp only [List.length_cons] at fits index
      rcases i with _ | i
      · rw [putWords, getWord_putWords_of_disjoint (by omega)]
        simpa using getWord_putWord (by omega)
      · rw [putWords, show off + 4 * (i + 1) = off + 4 + 4 * i by omega,
          ih (by omega) (by omega)]
        simp

theorem getWords_putWords {b : Fin N → Byte} {off : ℕ} {ws : List Word}
    (fits : off + 4 * ws.length ≤ N) :
    getWords (putWords b off ws) off ws.length = ws := by
  apply List.ext_getElem
  · simp [getWords]
  · intro i _ index
    simp [getWords, getWord_putWords fits index]

theorem get_putWords_of_outside {b : Fin N → Byte} {off : ℕ} {ws : List Word} {i : ℕ}
    (outside : i < off ∨ off + 4 * ws.length ≤ i) : get (putWords b off ws) i = get b i := by
  induction ws generalizing b off with
  | nil => rfl
  | cons w ws ih =>
      simp only [List.length_cons] at outside
      rw [putWords, ih (by omega), putWord, putLE, get_move_of_outside _ _ _ _ (by omega)]

theorem getLE_putWords_of_disjoint {b : Fin N → Byte} {off off' k : ℕ} {ws : List Word}
    (disjoint : off' + k ≤ off ∨ off + 4 * ws.length ≤ off') :
    getLE (putWords b off ws) off' k = getLE b off' k := by
  apply getLE_congr
  intro i lower upper
  exact get_putWords_of_outside (by omega)

end Bytes

end Xv6
