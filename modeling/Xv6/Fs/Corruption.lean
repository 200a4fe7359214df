import Xv6.Fs.Readback

/-!
# Detection of corrupted blocks

One byte of a block of a checksummed file changes behind the file system's back. A
change of one byte always changes the exclusive-or, so `readi` refuses a block whose
tag it looks up. But it looks at the first block of its range only, and for an entry
of the indirect block other than the first it compares with zero.
-/

namespace Xv6.Fs

open Prog

/-! ## Changing one byte -/

/-- One byte of block `b` is replaced. -/
def corrupt (blk : Disk) (b : ℕ) (pos : Fin BSIZE) (byte : Byte) : Disk :=
  Function.update blk b (Function.update (blk b) pos byte)

theorem get_update (data : Block) (pos : Fin BSIZE) (byte : Byte) (i : ℕ) :
    Bytes.get (Function.update data pos byte) i = if i = pos then byte else Bytes.get data i := by
  by_cases inside : i < BSIZE
  · simp only [Bytes.get, dif_pos inside, Function.update_apply, Fin.ext_iff]
  · have other : i ≠ pos := by
      rintro rfl
      exact inside pos.isLt
    simp only [Bytes.get, dif_neg inside, if_neg other]

/-- Up to any offset past the changed byte, the sum differs by the change. -/
theorem foldl_xor_update (data : Block) (pos : Fin BSIZE) (byte : Byte) (n : ℕ) :
    (List.range n).foldl (fun sum i => sum ^^^ Bytes.get (Function.update data pos byte) i) 0 =
      (List.range n).foldl (fun sum i => sum ^^^ Bytes.get data i) 0 ^^^
        if pos < n then data pos ^^^ byte else 0 := by
  induction n with
  | zero => simp
  | succ n ih =>
      rw [List.range_succ, List.foldl_append, List.foldl_append]
      simp only [List.foldl_cons, List.foldl_nil]
      rw [ih, get_update]
      generalize (List.range n).foldl (fun sum i => sum ^^^ Bytes.get data i) 0 = sum
      rcases Nat.lt_trichotomy pos.val n with before | here | after
      · have other : n ≠ pos.val := before.ne'
        have still : pos.val < n + 1 := by omega
        simp only [if_neg other, if_pos before, if_pos still]
        ac_rfl
      · subst here
        simp only [lt_irrefl, if_false, if_true, Nat.lt_succ_self, Bytes.get_fin]
        rw [BitVec.xor_assoc sum (data pos), ← BitVec.xor_assoc (data pos), BitVec.xor_self]
        simp
      · have other : n ≠ pos.val := after.ne
        have later : ¬pos.val < n := after.not_gt
        have notYet : ¬pos.val < n + 1 := by omega
        simp [other, later, notYet]

theorem xorBytes_update (data : Block) (pos : Fin BSIZE) (byte : Byte) :
    xorBytes (Function.update data pos byte) = xorBytes data ^^^ (data pos ^^^ byte) := by
  rw [xorBytes, foldl_xor_update, if_pos pos.isLt]
  rfl

/-- A changed byte changes the sum. -/
theorem xorBytes_update_ne {data : Block} {pos : Fin BSIZE} {byte : Byte}
    (changed : byte ≠ data pos) : xorBytes (Function.update data pos byte) ≠ xorBytes data := by
  rw [xorBytes_update]
  intro same
  apply changed
  have zero : data pos ^^^ byte = 0 := by
    rw [← BitVec.zero_xor (x := data pos ^^^ byte), ← BitVec.xor_self (x := xorBytes data),
      BitVec.xor_assoc, same, BitVec.xor_self]
    rfl
  exact (BitVec.xor_eq_zero_iff.mp zero).symm

/-! ## Reading a corrupted file -/

/-- `readi` returns -1. -/
def Refuses (dev : Devsw) (s : St) (ip : Inode) (dst : Mem) (off n : Word) : Prop :=
  ∃ r s', readi dev ip dst off n s = .ok (r, s') ∧ r.ret = -1

/-- Where block `bn` has become `data`: the range overflows; or it begins in that block, and the
block has a tag of its own or a sum other than zero; or it begins in an earlier block, which is
refused although it is intact. -/
def Detectable (s : St) (ip : Inode) (bn : ℕ) (data : Block) (off n : Word) : Prop :=
  2 ^ 32 ≤ off.toNat + n.toNat ∨
    off.toNat / BSIZE = bn ∧ (bn ≤ NDIRECT ∨ xorBytes data ≠ 0) ∨
    off.toNat / BSIZE < bn ∧ ∃ c, ref s.blk ip.toDinode (off.toNat / BSIZE) = some c ∧
      ¬Accepts (off.toNat / BSIZE) (xorBytes (s.blk c))

/-- A tag that was computed from another sum never passes. -/
theorem passes_changed {bn : ℕ} {tag sum : Byte} (changed : sum ≠ tag) :
    Passes bn tag sum ↔ NDIRECT < bn ∧ sum = 0 := by
  rw [Passes]
  split
  next direct =>
    refine ⟨fun same => absurd ?_ changed, fun beyond => absurd direct (Nat.not_le.mpr beyond.1)⟩
    have low := congrArg (BitVec.setWidth 8) same
    rwa [BitVec.setWidth_setWidth_of_le _ (by decide), BitVec.setWidth_eq,
      setWidth_signExtend] at low
  next beyond => simp [Nat.not_le.mp beyond]

/-- `readi` refuses a range that wraps. -/
theorem readi_overflow {dev : Devsw} {s : St} {ip : Inode} {dst : Mem} {off n : Word}
    (type : ip.type = T_CHECKED) (overflow : 2 ^ 32 ≤ off.toNat + n.toNat) :
    readi dev ip dst off n s = .ok (⟨-1, dst, ip⟩, s) := by
  have notDev : ip.type ≠ T_DEV := by
    rw [type]
    decide
  have rejected : off > ip.size ∨ off + n < off := by
    rw [rejects_iff]
    omega
  rw [readi, if_neg notDev, if_pos rejected]
  rfl

section Corrupted

variable {s : St} {ip : Inode} {bn b : ℕ} {pos : Fin BSIZE} {byte : Byte}
  (checked : Checked s.sb s.blk ip) (below : bn * BSIZE < ip.size.toNat)
  (refers : ref s.blk ip.toDinode bn = some b)
include checked below refers

/-- The file keeps its blocks, and the slots keep their tags. -/
theorem Checked.slot_corrupt (l : ℕ) :
    slot (corrupt s.blk b pos byte) ip.toDinode l = slot s.blk ip.toDinode l :=
  slot_store checked.owned (i := ()) refers _ (checked.owned.allocated () bn below).1.ne () l

theorem Checked.ref_corrupt (l : ℕ) :
    ref (corrupt s.blk b pos byte) ip.toDinode l = ref s.blk ip.toDinode l :=
  ref_congr rfl (checked.slot_corrupt below refers l)

theorem Checked.owned_corrupt : Owned s.sb (corrupt s.blk b pos byte) (single ip) :=
  checked.owned.of_refs (fun _ => checked.ref_corrupt below refers)
    (fun _ => marked_store checked.owned (i := ()) refers) (fun _ => rfl) checked.owned.allocated

/-- The answer of `readi`, from the sum of its first block and the tag it had before. -/
theorem Checked.readi_corrupt {dev : Devsw} {dst : Mem} {off n : Word} {c : ℕ}
    (fits : off.toNat + n.toNat < 2 ^ 32) (inside : off.toNat < ip.size.toNat)
    (nonempty : 0 < n.toNat) (first : ref s.blk ip.toDinode (off.toNat / BSIZE) = some c) :
    Refuses dev { s with blk := corrupt s.blk b pos byte } ip dst off n ↔
      ¬Passes (off.toNat / BSIZE) (xorBytes (s.blk c)) (xorBytes (corrupt s.blk b pos byte c)) := by
  rcases checked.tag_eq ((Nat.div_mul_le_self _ _).trans_lt inside) first with ⟨value, small⟩
  have meets : Meets (readi dev ip dst off n) { s with blk := corrupt s.blk b pos byte } _ _ :=
    readi_tagged_meets (checked.owned_corrupt below refers) checked.type fits inside nonempty
      ((checked.ref_corrupt below refers _).trans first) small
      ((checked.slot_corrupt below refers _).trans value)
  rcases meets.returns (fun _ impossible => impossible) with ⟨r, s', returned, _, ret⟩
  constructor
  · rintro ⟨r', s'', returned', refused⟩ passes
    rw [returned] at returned'
    cases returned'
    rw [ret, if_pos passes] at refused
    cases refused
  · intro fails
    exact ⟨r, s', returned, by rw [ret, if_neg fails]⟩

end Corrupted

/-- After any sequence of `writei` calls on an empty checksummed inode, and any change of one byte
of one of its blocks: a read of a range that includes a byte of the block is refused exactly when
the change is detectable. -/
theorem refuses_iff_detectable {dev : Devsw} {ws : List Write} {s s' : St} {ip ip' : Inode}
    (layout : Layout s.sb) (low : ∀ b < s.sb.dataStart, marked s.sb s.blk b = true)
    (inum : ip.inum < s.sb.ninodes) (type : ip.type = T_CHECKED)
    (addrs : ∀ k ≤ NDIRECT, ip.addr k = 0) (size : ip.size = 0)
    (run : runWrites dev ws ip s = .ok (ip', s')) {bn b : ℕ} (below : bn * BSIZE < ip'.size.toNat)
    (refers : ref s'.blk ip'.toDinode bn = some b) {pos : Fin BSIZE} {byte : Byte}
    (changed : byte ≠ s'.blk b pos) {dst : Mem} {off n : Word}
    (covers : ∃ x, off.toNat ≤ x ∧ x < min (off.toNat + n.toNat) ip'.size.toNat ∧ x / BSIZE = bn) :
    Refuses dev { s' with blk := corrupt s'.blk b pos byte } ip' dst off n ↔
      Detectable s' ip' bn (corrupt s'.blk b pos byte b) off n := by
  have checked := (runWrites_checked (Checked.of_empty layout low inum type addrs size) run).1
  rcases covers with ⟨x, lower, upper, index⟩
  have first : off.toNat / BSIZE ≤ bn := by
    rw [← index]
    exact Nat.div_le_div_right lower
  by_cases overflow : 2 ^ 32 ≤ off.toNat + n.toNat
  · exact ⟨fun _ => Or.inl overflow, fun _ => ⟨_, _, readi_overflow checked.type overflow, rfl⟩⟩
  have inside : off.toNat < ip'.size.toNat := by omega
  rcases checked.owned.allocated_div (i := ()) inside with ⟨_, mapped⟩
  obtain ⟨c, refersFirst⟩ : ∃ c, ref s'.blk ip'.toDinode (off.toNat / BSIZE) = some c :=
    ⟨_, ref_eq_some.mpr ⟨mapped, rfl⟩⟩
  rw [checked.readi_corrupt below refers (Nat.not_le.mp overflow) inside (by omega) refersFirst]
  rcases first.eq_or_lt with here | earlier
  · rw [here, refers] at refersFirst
    cases refersFirst
    have data : corrupt s'.blk b pos byte b = Function.update (s'.blk b) pos byte :=
      Function.update_self _ _ _
    have differs : xorBytes (corrupt s'.blk b pos byte b) ≠ xorBytes (s'.blk b) := by
      rw [data]
      exact xorBytes_update_ne changed
    rw [passes_changed differs, here]
    simp only [Detectable, here, overflow, lt_irrefl, false_and, false_or, or_false, true_and,
      not_and_or, Nat.not_lt, ne_eq]
  · have other : c ≠ b := by
      rintro rfl
      exact earlier.ne (checked.owned.distinct () _ () _ c refersFirst refers).2
    have data : corrupt s'.blk b pos byte c = s'.blk c := Function.update_of_ne other _ _
    rw [data, passes_self]
    constructor
    · intro refused
      exact Or.inr (Or.inr ⟨earlier, c, refersFirst, refused⟩)
    · rintro (impossible | ⟨same, _⟩ | ⟨_, c', refers', refused⟩)
      · exact absurd impossible overflow
      · exact absurd same earlier.ne
      · rw [refersFirst] at refers'
        rwa [Option.some.inj refers']

/-- The first byte of a file of three bytes is changed. -/
theorem refuses_threeBytes : ∃ ip' s',
    runWrites noDevices [threeBytes] (emptyInode T_CHECKED 2) emptySt = .ok (ip', s') ∧
      Refuses noDevices { s' with blk := corrupt s'.blk 59 0 0 } ip' (fun _ => 0) 0 3 := by
  have outcome : ((runWrites noDevices [threeBytes] (emptyInode T_CHECKED 2) emptySt).toOption.map
      fun r => (ref r.2.blk r.1.toDinode 0, r.2.blk 59 0, r.1.size)) = some (some 59, 7, 3) := by
    decide +kernel
  rcases ok_of_evaluated outcome with ⟨r, run, observed⟩
  simp only [Prod.mk.injEq] at observed
  rcases observed with ⟨refers, byte, size⟩
  have changed : (0 : Byte) ≠ r.2.blk 59 0 := by
    rw [byte]
    decide
  have covers : ∃ x, (0 : Word).toNat ≤ x ∧
      x < min ((0 : Word).toNat + (3 : Word).toNat) r.1.size.toNat ∧ x / BSIZE = 0 := by
    rw [size]
    exact ⟨0, by decide, by decide, rfl⟩
  have below : 0 * BSIZE < r.1.size.toNat := by
    rw [size]
    decide
  refine ⟨r.1, r.2, run, ?_⟩
  exact (refuses_iff_detectable layout_mkfs low_emptyDisk (by decide) rfl (fun _ _ => rfl) rfl run
    below refers changed covers).mpr (Or.inr (Or.inl ⟨rfl, Or.inl (by decide)⟩))

/-- A block and one byte of zeros. -/
def zeroBytes : Write := ⟨fun _ => 0, 0, 513⟩

/-- The byte in the second block is changed, and `readi` returns 1 for the whole file. -/
theorem not_refuses_zeroBytes : ¬∀ (dev : Devsw) (ws : List Write) (s s' : St) (ip ip' : Inode),
    Layout s.sb → (∀ b < s.sb.dataStart, marked s.sb s.blk b = true) → ip.inum < s.sb.ninodes →
    ip.type = T_CHECKED → (∀ k ≤ NDIRECT, ip.addr k = 0) → ip.size = 0 →
    runWrites dev ws ip s = .ok (ip', s') → ∀ bn b, bn * BSIZE < ip'.size.toNat →
    ref s'.blk ip'.toDinode bn = some b → ∀ (pos : Fin BSIZE) (byte : Byte), byte ≠ s'.blk b pos →
    ∀ (dst : Mem) (off n : Word),
    (∃ x, off.toNat ≤ x ∧ x < min (off.toNat + n.toNat) ip'.size.toNat ∧ x / BSIZE = bn) →
    Refuses dev { s' with blk := corrupt s'.blk b pos byte } ip' dst off n := by
  intro detects
  have outcome : ((runWrites noDevices [zeroBytes] (emptyInode T_CHECKED 2) emptySt).toOption.map
      fun r => (ref r.2.blk r.1.toDinode 1, r.2.blk 60 0, r.1.size,
        (readi noDevices r.1 (fun _ => 0) 0 513
          { r.2 with blk := corrupt r.2.blk 60 0 1 }).toOption.map fun r => r.1.ret)) =
      some (some 60, 0, 513, some 1) := by
    decide +kernel
  rcases ok_of_evaluated outcome with ⟨r, run, observed⟩
  simp only [Prod.mk.injEq] at observed
  rcases observed with ⟨refers, byte, size, read⟩
  rcases ok_of_evaluated read with ⟨r', returned, ret⟩
  have changed : (1 : Byte) ≠ r.2.blk 60 0 := by
    rw [byte]
    decide
  rcases detects noDevices [zeroBytes] emptySt r.2 _ r.1 layout_mkfs low_emptyDisk (by decide) rfl
    (fun _ _ => rfl) rfl run 1 60 (by rw [size]; decide) refers 0 1 changed (fun _ => 0) 0 513
    ⟨512, by decide, by rw [size]; decide, rfl⟩ with ⟨r'', s'', refused, ret'⟩
  rw [returned] at refused
  cases refused
  rw [ret] at ret'
  cases ret'

end Xv6.Fs
