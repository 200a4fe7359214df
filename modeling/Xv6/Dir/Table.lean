import Xv6.Dir.Directory
import Xv6.Fs.Files
import Xv6.Lib.Slots

/-!
# Directories as tables

`strncmp` and `strncpy` with a length `n` go by the string up to its NUL or its first `n`
bytes. The contents of a directory are a table whose slots have such names for keys: an entry
whose `inum` is 0 is a free slot.
-/

namespace Xv6.Dir

open Fs (Mem)
open Slots (put)

variable {p q : Mem} {n : ℕ}

/-! ## Names -/

/-- The string behind a pointer, cut off after `n` bytes. -/
abbrev text (n : ℕ) (p : Mem) : List Byte := Strings.upTo n p

theorem strncmp_eq_zero : strncmp n p q = 0 ↔ text n p = text n q :=
  Strings.difference_eq_zero (Nat.cast_injective.comp BitVec.toNat_injective)

theorem text_strncpy : text n (pointer (strncpy n p)) = text n p := Strings.upTo_copy

theorem text_pointer {s : List Byte} (terminated : 0 ∉ s) (n : ℕ) : text n (pointer s) = s.take n :=
  Strings.upTo_cells terminated n

theorem namecmp_eq_zero : namecmp p q = 0 ↔ text DIRSIZ p = text DIRSIZ q := strncmp_eq_zero

/-! ## Entries -/

/-- The name that an entry gives to an inode, if it is in use. -/
def slotOf (de : Dirent) : Option (List Byte × Half) :=
  if de.inum = 0 then none else some (text DIRSIZ de.name, de.inum)

theorem slotOf_congr (same : ∀ j < direntSize, p j = q j) :
    slotOf (getDirent p) = slotOf (getDirent q) := by
  have name : text DIRSIZ (getDirent p).name = text DIRSIZ (getDirent q).name :=
    Strings.upTo_congr fun j less => same _ (by simp only [DIRSIZ, direntSize] at *; omega)
  have inum : (getDirent p).inum = (getDirent q).inum := by
    rw [getDirent, getDirent, same 0 (by decide), same 1 (by decide)]
  rw [slotOf, slotOf, name, inum]

/-- What is written as an entry is read as that entry. -/
theorem slotOf_direntBytes (inum : Half) (name : List Byte) :
    slotOf (getDirent (pointer (direntBytes inum name))) =
      if inum = 0 then none else some (text DIRSIZ (pointer name), inum) := by
  have number : (getDirent (pointer (direntBytes inum name))).inum = inum := by
    apply BitVec.eq_of_toNat_eq
    have bound := inum.isLt
    simp only [getDirent, pointer, direntBytes, List.getD_cons_zero, List.getD_cons_succ,
      BitVec.toNat_ofNat]
    omega
  have field : (getDirent (pointer (direntBytes inum name))).name = pointer name := by
    funext j
    change (direntBytes inum name).getD (2 + j) 0 = name.getD j 0
    rw [Nat.add_comm]
    rfl
  rw [slotOf, number, field]

theorem slotOf_zero : slotOf (getDirent (pointer (List.replicate direntSize 0))) = none :=
  if_pos (by decide)

/-- The bytes of entry `e`. -/
def entryAt (c : List Byte) (e : ℕ) : Mem := fun j => c.getD (direntSize * e + j) 0

/-- The entries of a directory that holds `c`. -/
def table (c : List Byte) : Slots (List Byte) Half :=
  (List.range (c.length / direntSize)).map fun e => slotOf (getDirent (entryAt c e))

theorem length_table (c : List Byte) : (table c).length = c.length / direntSize := by simp [table]

theorem getElem?_table (c : List Byte) (e : ℕ) :
    (table c)[e]? = if e < c.length / direntSize then some (slotOf (getDirent (entryAt c e)))
      else none := by
  by_cases inside : e < c.length / direntSize
  · simp [table, inside]
  · simp [table, inside]

/-- An entry is written over another one, or at the end. -/
theorem table_splice {c de : List Byte} {e : ℕ} (whole : c.length % direntSize = 0)
    (length : de.length = direntSize) (inside : direntSize * e ≤ c.length) :
    table (Fs.splice c (direntSize * e) de) =
      put (table c) e (slotOf (getDirent (pointer de))) := by
  have read : ∀ x, (Fs.splice c (direntSize * e) de).getD x 0 =
      if direntSize * e ≤ x ∧ x < direntSize * e + direntSize then de.getD (x - direntSize * e) 0
        else c.getD x 0 := by
    intro x
    rw [List.getD_eq_getElem?_getD, Fs.getElem?_splice inside, length]
    split
    · rw [List.getD_eq_getElem?_getD]
    · rw [List.getD_eq_getElem?_getD]
  have size : (Fs.splice c (direntSize * e) de).length =
      max c.length (direntSize * e + direntSize) := by
    rw [Fs.splice, List.length_append, List.length_append, List.length_take,
      List.length_drop, length]
    omega
  apply List.ext_getElem?
  intro i
  have count : e ≤ (table c).length := by
    rw [length_table]
    simp only [direntSize] at *
    omega
  rw [Slots.getElem?_put count, getElem?_table, getElem?_table, size]
  by_cases same : i = e
  · subst same
    rw [if_pos rfl, if_pos (by simp only [direntSize] at *; omega)]
    refine congrArg some (slotOf_congr fun j less => ?_)
    rw [entryAt, read, if_pos ⟨Nat.le_add_right _ _, Nat.add_lt_add_left less _⟩,
      Nat.add_sub_cancel_left]
  · have outside : ∀ j < direntSize, entryAt (Fs.splice c (direntSize * e) de) i j =
        entryAt c i j := by
      intro j less
      rw [entryAt, read, if_neg]
      · rfl
      · simp only [direntSize] at *
        omega
    rw [if_neg same, slotOf_congr outside]
    refine if_congr ?_ rfl rfl
    simp only [direntSize] at *
    omega

end Xv6.Dir
