import Xv6.Lib.Bytes

/-!
# Bitmaps in byte arrays

Bit `i` of a byte array is bit `i % 8` of byte `i / 8`, tested, set and cleared
with the mask `1 << (i % 8)`. Setting or clearing a bit changes that bit only.
-/

namespace Xv6.Bytes

variable {N : ℕ}

/-- The mask of bit `i` inside its byte. -/
def bitMask (i : ℕ) : Byte := 1#8 <<< (i % 8)

/-- `(b[i/8] & m) != 0`. -/
def bit (b : Fin N → Byte) (i : ℕ) : Bool :=
  get b (i / 8) &&& bitMask i != 0#8

/-- Store one byte. -/
def put (b : Fin N → Byte) (i : ℕ) (v : Byte) : Fin N → Byte :=
  move b i 1 fun _ => v

/-- `b[i/8] |= m`. -/
def setBit (b : Fin N → Byte) (i : ℕ) : Fin N → Byte :=
  put b (i / 8) (get b (i / 8) ||| bitMask i)

/-- `b[i/8] &= ~m`. -/
def clearBit (b : Fin N → Byte) (i : ℕ) : Fin N → Byte :=
  put b (i / 8) (get b (i / 8) &&& ~~~bitMask i)

/-- A bit of the map is a bit of its byte. -/
theorem bit_eq_getLsbD (b : Fin N → Byte) (i : ℕ) :
    bit b i = (get b (i / 8)).getLsbD (i % 8) := by
  have inByte : i % 8 < 8 := Nat.mod_lt i (by decide)
  rw [bit, bitMask, ← BitVec.twoPow_eq, BitVec.and_twoPow]
  cases set : (get b (i / 8)).getLsbD (i % 8) with
  | false => simp
  | true =>
      have nonzero : BitVec.twoPow 8 (i % 8) ≠ 0#8 := by
        intro zero
        have := congrArg (fun x => x.getLsbD (i % 8)) zero
        simp [inByte] at this
      simpa using nonzero

theorem getLsbD_bitMask (i j : ℕ) :
    (bitMask i).getLsbD j = decide (j = i % 8) := by
  rw [bitMask, ← BitVec.twoPow_eq, BitVec.getLsbD_twoPow]
  have : i % 8 < 8 := Nat.mod_lt i (by decide)
  simp [this, eq_comm]

theorem get_put (b : Fin N → Byte) {i : ℕ} (v : Byte) (j : ℕ) (inside : i < N) :
    get (put b i v) j = if j = i then v else get b j := by
  by_cases same : j = i
  · subst same
    rw [put, get_move b j 1 _ inside, if_pos (by omega), if_pos rfl]
  · rw [put, get_move_of_outside b i 1 _ (by omega), if_neg same]

/-- Two bit numbers in the same byte are equal when their masks are. -/
theorem bit_index_eq {i j : ℕ} (byte : j / 8 = i / 8) : j % 8 = i % 8 ↔ j = i := by
  omega

/-- One bit is set, and the others stay. -/
theorem bit_setBit (b : Fin N → Byte) {i : ℕ} (j : ℕ) (inside : i / 8 < N) :
    bit (setBit b i) j = (decide (j = i) || bit b j) := by
  have inByte : j % 8 < 8 := Nat.mod_lt j (by decide)
  rw [bit_eq_getLsbD, setBit, get_put b _ _ inside, bit_eq_getLsbD]
  by_cases byte : j / 8 = i / 8
  · have masks : decide (j % 8 = i % 8) = decide (j = i) :=
      decide_eq_decide.mpr (bit_index_eq byte)
    rw [if_pos byte, BitVec.getLsbD_or, getLsbD_bitMask, byte, Bool.or_comm, masks]
  · have distinct : j ≠ i := by
      rintro rfl
      exact byte rfl
    simp [byte, distinct]

/-- One bit is cleared, and the others stay. -/
theorem bit_clearBit (b : Fin N → Byte) {i : ℕ} (j : ℕ) (inside : i / 8 < N) :
    bit (clearBit b i) j = (!decide (j = i) && bit b j) := by
  have inByte : j % 8 < 8 := Nat.mod_lt j (by decide)
  rw [bit_eq_getLsbD, clearBit, get_put b _ _ inside, bit_eq_getLsbD]
  by_cases byte : j / 8 = i / 8
  · have masks : decide (j % 8 = i % 8) = decide (j = i) :=
      decide_eq_decide.mpr (bit_index_eq byte)
    rw [if_pos byte, BitVec.getLsbD_and, BitVec.getLsbD_not, getLsbD_bitMask, byte, masks,
      Bool.and_comm]
    simp [inByte]
  · have distinct : j ≠ i := by
      rintro rfl
      exact byte rfl
    simp [byte, distinct]

end Xv6.Bytes
