import Xv6.Fs.Dinode

/-!
# `itrunc`

`bfree` clears one bit of the bitmap, and `itrunc` clears the bits of the blocks that
its inode refers to. It changes no other block but the one its inode is in. An
address with a checksum in its top byte lies so far behind the bitmap that `bread`
stops; a call that returns has freed exactly the blocks of the inode.
-/

namespace Xv6.Fs

open Prog

variable {s : St} {E : Panic → Prop} {sb : Superblock} {blk blk' blk'' : Disk}

/-- The disk after `bfree` of block `b`. -/
def release (sb : Superblock) (blk : Disk) (b : ℕ) : Disk :=
  Function.update blk (sb.bblock b) (Bytes.clearBit (blk (sb.bblock b)) (b % BPB))

/-- Releasing clears one bit. -/
theorem marked_release (b c : ℕ) :
    marked sb (release sb blk b) c = (!decide (c = b) && marked sb blk c) := by
  have fits : b % BPB / 8 < BSIZE := by
    simp only [BPB, BSIZE]
    omega
  rw [marked, marked, release]
  by_cases same : sb.bblock c = sb.bblock b
  · have sameIndex : c % BPB = b % BPB ↔ c = b := by
      simp only [Superblock.bblock, BPB, BSIZE] at same ⊢
      omega
    rw [same, Function.update_self, Bytes.bit_clearBit _ _ fits]
    simp only [sameIndex]
  · have distinct : c ≠ b := by
      rintro rfl
      exact same rfl
    rw [Function.update_of_ne same]
    simp [distinct]

/-- Bits of the blocks in `S` have been cleared, and nothing else has changed. -/
structure Cleared (sb : Superblock) (blk blk' : Disk) (S : Set ℕ) : Prop where
  same : ∀ b, b < sb.bmapstart ∨ sb.dataStart ≤ b → blk' b = blk b
  marks : ∀ b, b ∉ S → marked sb blk' b = marked sb blk b

theorem Cleared.refl {S : Set ℕ} : Cleared sb blk blk S :=
  ⟨fun _ _ => rfl, fun _ _ => rfl⟩

/-- The bits of the blocks in `S` have been cleared, and nothing else has changed. -/
structure Freed (sb : Superblock) (blk blk' : Disk) (S : Set ℕ) : Prop where
  same : ∀ b, b < sb.bmapstart ∨ sb.dataStart ≤ b → blk' b = blk b
  marks : ∀ b, marked sb blk' b = true ↔ marked sb blk b = true ∧ b ∉ S

namespace Freed

variable {S T : Set ℕ}

theorem refl : Freed sb blk blk ∅ :=
  ⟨fun _ _ => rfl, fun _ => by simp⟩

theorem trans (first : Freed sb blk blk' S) (second : Freed sb blk' blk'' T) :
    Freed sb blk blk'' (S ∪ T) where
  same := fun b outside => (second.same b outside).trans (first.same b outside)
  marks := by
    intro b
    rw [second.marks b, first.marks b, Set.mem_union, not_or, and_assoc]

theorem release {b : ℕ} (inside : b < sb.size) : Freed sb blk (release sb blk b) {b} where
  same := by
    intro c outside
    apply Function.update_of_ne
    have := bmapstart_le_bblock sb b
    have := bblock_lt inside
    omega
  marks := by
    intro c
    rw [marked_release, Bool.and_eq_true, Bool.not_eq_true', decide_eq_false_iff_not, and_comm]
    rfl

theorem cleared (done : Freed sb blk blk' S) : Cleared sb blk blk' S where
  same := done.same
  marks := by
    intro b other
    rw [Bool.eq_iff_iff, done.marks b]
    exact and_iff_left other

end Freed

/-- `bread` panics if the number is too large for the disk. -/
theorem meets_bread_any {b : ℕ} {Q : Block → St → Prop} (far : FSSIZE ≤ b → E .blockno)
    (post : b < FSSIZE → ∀ calls, Q (s.blk b) { s with calls := calls }) :
    Meets (bread b) s E Q := by
  rcases Nat.lt_or_ge b FSSIZE with near | beyond
  · exact meets_bread near (post near)
  · have stopped : bread b s = .error .blockno := by
      simp [bread, beyond]
      rfl
    simp only [Meets, stopped]
    exact far beyond

/-- `bfree` clears the bit of a block, which has to be set. -/
theorem bfree_meets {b : ℕ} {Q : Unit → St → Prop} (super : getSb (s.blk 1) = s.sb)
    (far : FSSIZE ≤ s.sb.bblock b → E .blockno)
    (unmarked : marked s.sb s.blk b = false → E .bfree)
    (post : s.sb.bblock b < FSSIZE → ∀ calls,
      Q () { s with blk := release s.sb s.blk b, calls := calls }) :
    Meets (bfree b) s E Q := by
  refine meets_bind (meets_bind (meets_bread (by decide) fun calls => ?_))
  refine meets_bind (meets_modify ?_)
  refine meets_brelse fun calls => ?_
  refine meets_bind (meets_get ?_)
  simp only [super]
  refine meets_bind (meets_bread_any far fun near calls => ?_)
  refine meets_ite (fun clear => ?_) fun set => ?_
  · exact meets_bind (meets_throw (unmarked clear))
  · refine meets_bind (meets_logWrite fun calls => ?_)
    exact meets_brelse fun calls => post near calls

/-! ## The loops -/

theorem Freed.super {S : Set ℕ} (done : Freed sb blk blk' S) (layout : Layout sb)
    (super : getSb (blk 1) = sb) : getSb (blk' 1) = sb := by
  rw [done.same 1, super]
  left
  have first := layout.super
  have areas := layout.inodes
  exact first.trans_le ((Nat.le_add_right _ _).trans areas.le)

/-- If `bfree` can read the bitmap block of the address, then it frees a block of `S`. -/
def Frees (sb : Superblock) (S : Set ℕ) (a : Word) : Prop :=
  a ≠ 0 → sb.bblock a.toNat < FSSIZE → a.toNat < sb.size ∧ a.toNat ∈ S

/-- The bitmap block of the address is on disk, if there is an address. -/
def Near (sb : Superblock) (a : Word) : Prop := a ≠ 0 → sb.bblock a.toNat < FSSIZE

/-- The blocks of the addresses `w k`, for `n` indices from `i` on. -/
def listed (w : ℕ → Word) (i n : ℕ) : Set ℕ :=
  { b | ∃ k, i ≤ k ∧ k < i + n ∧ w k ≠ 0 ∧ (w k).toNat = b }

/-- The addresses `w k` that `bfree` can handle are different blocks in use. -/
structure InUse (sb : Superblock) (blk : Disk) (w : ℕ → Word) (i n : ℕ) : Prop where
  marked : ∀ k, i ≤ k → k < i + n → w k ≠ 0 → sb.bblock (w k).toNat < FSSIZE →
    (w k).toNat < sb.size ∧ marked sb blk (w k).toNat = true
  distinct : ∀ k l, i ≤ k → k < i + n → i ≤ l → l < i + n → w k ≠ 0 → w l ≠ 0 →
    sb.bblock (w k).toNat < FSSIZE → w k = w l → k = l

section Loops

variable {w : ℕ → Word} {i n : ℕ}

theorem listed_zero : listed w i 0 = ∅ := by
  ext b
  simp only [listed, Set.mem_ofPred_eq, Set.mem_empty_iff_false, iff_false]
  rintro ⟨k, lower, upper, _⟩
  omega

/-- An empty place lists nothing. -/
theorem listed_succ_of_zero (empty : w i = 0) : listed w i (n + 1) = listed w (i + 1) n := by
  ext b
  simp only [listed, Set.mem_ofPred_eq]
  constructor
  · rintro ⟨k, lower, upper, mapped, eq⟩
    refine ⟨k, ?_, by omega, mapped, eq⟩
    rcases Nat.lt_or_ge i k with later | same
    · exact later
    · rw [show k = i by omega] at mapped
      exact absurd empty mapped
  · rintro ⟨k, lower, upper, rest⟩
    exact ⟨k, by omega, by omega, rest⟩

/-- A place lists its block. -/
theorem listed_succ (mapped : w i ≠ 0) :
    listed w i (n + 1) = {(w i).toNat} ∪ listed w (i + 1) n := by
  ext b
  simp only [listed, Set.mem_ofPred_eq, Set.mem_union, Set.mem_singleton_iff]
  constructor
  · rintro ⟨k, lower, upper, other, eq⟩
    rcases Nat.lt_or_ge i k with later | same
    · exact Or.inr ⟨k, later, by omega, other, eq⟩
    · rw [show k = i by omega] at eq
      exact Or.inl eq.symm
  · rintro (rfl | ⟨k, lower, upper, rest⟩)
    · exact ⟨i, le_rfl, by omega, mapped, rfl⟩
    · exact ⟨k, by omega, by omega, rest⟩

theorem listed_append (m : ℕ) : listed w i (m + n) = listed w i m ∪ listed w (i + m) n := by
  ext b
  simp only [listed, Set.mem_ofPred_eq, Set.mem_union]
  constructor
  · rintro ⟨k, lower, upper, rest⟩
    rcases Nat.lt_or_ge k (i + m) with early | late
    · exact Or.inl ⟨k, lower, early, rest⟩
    · exact Or.inr ⟨k, late, by omega, rest⟩
  · rintro (⟨k, lower, upper, rest⟩ | ⟨k, lower, upper, rest⟩)
    · exact ⟨k, lower, by omega, rest⟩
    · exact ⟨k, by omega, by omega, rest⟩

theorem listed_shift (c : ℕ) : listed (fun j => w (c + j)) 0 n = listed w c n := by
  ext b
  simp only [listed, Set.mem_ofPred_eq]
  constructor
  · rintro ⟨k, lower, upper, rest⟩
    exact ⟨c + k, by omega, by omega, rest⟩
  · rintro ⟨k, lower, upper, rest⟩
    rw [← Nat.add_sub_cancel' lower] at rest
    exact ⟨k - c, by omega, by omega, rest⟩

theorem InUse.tail (use : InUse sb blk w i (n + 1)) : InUse sb blk w (i + 1) n where
  marked := fun k lower upper => use.marked k (by omega) (by omega)
  distinct := fun k l lower upper lower' upper' =>
    use.distinct k l (by omega) (by omega) (by omega) (by omega)

/-- The later addresses stay in use when other blocks are freed. -/
theorem InUse.cleared {S : Set ℕ} (use : InUse sb blk w i n) (done : Freed sb blk blk' S)
    (apart : ∀ k, i ≤ k → k < i + n → w k ≠ 0 → sb.bblock (w k).toNat < FSSIZE → (w k).toNat ∉ S) :
    InUse sb blk' w i n where
  marked := by
    intro k lower upper mapped near
    rcases use.marked k lower upper mapped near with ⟨inside, set⟩
    exact ⟨inside, (done.marks _).mpr ⟨set, apart k lower upper mapped near⟩⟩
  distinct := use.distinct

theorem InUse.release (use : InUse sb blk w i (n + 1)) (mapped : w i ≠ 0)
    (near : sb.bblock (w i).toNat < FSSIZE) :
    InUse sb (release sb blk (w i).toNat) w (i + 1) n := by
  refine use.tail.cleared (Freed.release (use.marked i le_rfl (by omega) mapped near).1) ?_
  intro k lower upper mapped' _ same
  have := use.distinct i k le_rfl (by omega) (by omega) (by omega) mapped mapped' near
    (BitVec.eq_of_toNat_eq same.symm)
  omega

theorem InUse.congr {w' : ℕ → Word} (use : InUse sb blk w i n)
    (same : ∀ k, i ≤ k → k < i + n → w' k = w k) : InUse sb blk w' i n where
  marked := by
    intro k lower upper
    rw [same k lower upper]
    exact use.marked k lower upper
  distinct := by
    intro k l lower upper lower' upper'
    rw [same k lower upper, same l lower' upper']
    exact use.distinct k l lower upper lower' upper'

theorem listed_congr {w' : ℕ → Word} (same : ∀ k, i ≤ k → k < i + n → w' k = w k) :
    listed w' i n = listed w i n := by
  ext b
  simp only [listed, Set.mem_ofPred_eq]
  constructor
  · rintro ⟨k, lower, upper, rest⟩
    rw [same k lower upper] at rest
    exact ⟨k, lower, upper, rest⟩
  · rintro ⟨k, lower, upper, rest⟩
    rw [← same k lower upper] at rest
    exact ⟨k, lower, upper, rest⟩

/-- A number with a tag is too large, and `bread` panics. -/
theorem bfree_near_meets {a : Word} {Q : Unit → St → Prop} (super : getSb (s.blk 1) = s.sb)
    (nonzero : a ≠ 0) (set : s.sb.bblock a.toNat < FSSIZE → marked s.sb s.blk a.toNat = true)
    (far : ¬Near s.sb a → ∀ e, E e)
    (post : s.sb.bblock a.toNat < FSSIZE → ∀ calls,
      Q () { s with blk := release s.sb s.blk a.toNat, calls := calls }) :
    Meets (bfree a.toNat) s E Q := by
  by_cases near : s.sb.bblock a.toNat < FSSIZE
  · refine bfree_meets super (fun beyond => absurd near (Nat.not_lt.mpr beyond)) ?_ fun _ =>
      post near
    intro clear
    rw [set near] at clear
    cases clear
  · have stop := far fun isNear => near (isNear nonzero)
    exact bfree_meets super (fun _ => stop _) (fun _ => stop _) fun near' => absurd near' near

/-- The loop over the direct blocks frees them. -/
theorem freeDirect_meets {Q : Inode → St → Prop} (layout : Layout s.sb)
    (super : getSb (s.blk 1) = s.sb) {fuel i : ℕ} {ip : Inode} (inRange : i + fuel ≤ NDIRECT)
    (use : InUse s.sb s.blk ip.addr i fuel)
    (far : ∀ k, i ≤ k → k < i + fuel → ¬Near s.sb (ip.addr k) → ∀ e, E e)
    (post : ∀ ip' blk' calls, Freed s.sb s.blk blk' (listed ip.addr i fuel) →
      (∀ k, i ≤ k → k < i + fuel → Near s.sb (ip.addr k)) → ip' = { ip with addrs := ip'.addrs } →
      (∀ k ≤ NDIRECT, ip'.addr k = if i ≤ k ∧ k < i + fuel then 0 else ip.addr k) →
      Q ip' { s with blk := blk', calls := calls }) :
    Meets (freeDirect fuel i ip) s E Q := by
  induction fuel generalizing s i ip with
  | zero =>
      refine meets_pure (post ip s.blk s.calls ?_ ?_ rfl fun k _ => ?_)
      · rw [listed_zero]
        exact Freed.refl
      · intro k lower upper
        omega
      · rw [if_neg (by omega)]
  | succ fuel ih =>
      refine meets_ite (fun mapped => ?_) fun empty => ?_
      · refine meets_bind (bfree_near_meets super mapped
          (fun near => (use.marked i le_rfl (by omega) mapped near).2)
          (far i le_rfl (by omega)) fun near calls => ?_)
        have later : ∀ k, i + 1 ≤ k → k < i + 1 + fuel → (ip.setAddr i 0).addr k = ip.addr k := by
          intro k lower upper
          rw [addr_setAddr (by omega) (by omega), if_neg (by omega)]
        have first : Freed s.sb s.blk (release s.sb s.blk (ip.addr i).toNat) {(ip.addr i).toNat} :=
          Freed.release (use.marked i le_rfl (by omega) mapped near).1
        refine ih (s := { s with blk := release s.sb s.blk (ip.addr i).toNat, calls := calls })
          (i := i + 1) layout ?_ (by omega) ((use.release mapped near).congr later) ?_ ?_
        · exact first.super layout super
        · intro k lower upper
          rw [later k lower upper]
          exact far k (by omega) (by omega)
        · intro ip' blk' calls second nears fields addrs
          rw [listed_congr later] at second
          refine post ip' blk' calls ?_ ?_ fields fun k bound => ?_
          · rw [listed_succ mapped]
            exact first.trans second
          · intro k lower upper
            rcases Nat.lt_or_ge i k with after | here
            · have isNear := nears k after (by omega)
              rwa [later k after (by omega)] at isNear
            · rw [show k = i by omega]
              exact fun _ => near
          · rw [addrs k bound, addr_setAddr (by omega) bound]
            split_ifs
            all_goals first | rfl | omega
      · have zero : ip.addr i = 0 := not_not.mp empty
        refine ih layout super (by omega) use.tail
          (fun k lower upper => far k (by omega) (by omega)) ?_
        intro ip' blk' calls done nears fields addrs
        refine post ip' blk' calls ?_ ?_ fields fun k bound => ?_
        · rw [listed_succ_of_zero zero]
          exact done
        · intro k lower upper
          rcases Nat.lt_or_ge i k with after | here
          · exact nears k after (by omega)
          · rw [show k = i by omega]
            exact fun nonzero => absurd zero nonzero
        · rw [addrs k bound]
          split_ifs with later now now
          · rfl
          · omega
          · rw [show k = i by omega, zero]
          · rfl

/-- The loop over the entries of the indirect block frees them. -/
theorem freeIndirect_meets {Q : Unit → St → Prop} (layout : Layout s.sb)
    (super : getSb (s.blk 1) = s.sb) {data : Block} {fuel j : ℕ}
    (use : InUse s.sb s.blk (fun k => Bytes.getWord data (4 * k)) j fuel)
    (far : ∀ k, j ≤ k → k < j + fuel → ¬Near s.sb (Bytes.getWord data (4 * k)) → ∀ e, E e)
    (post : ∀ blk' calls,
      Freed s.sb s.blk blk' (listed (fun k => Bytes.getWord data (4 * k)) j fuel) →
      (∀ k, j ≤ k → k < j + fuel → Near s.sb (Bytes.getWord data (4 * k))) →
      Q () { s with blk := blk', calls := calls }) :
    Meets (freeIndirect data fuel j) s E Q := by
  induction fuel generalizing s j with
  | zero =>
      refine meets_pure (post s.blk s.calls ?_ ?_)
      · rw [listed_zero]
        exact Freed.refl
      · intro k lower upper
        omega
  | succ fuel ih =>
      refine meets_ite (fun mapped => ?_) fun empty => ?_
      · refine meets_bind (bfree_near_meets super mapped
          (fun near => (use.marked j le_rfl (by omega) mapped near).2)
          (far j le_rfl (by omega)) fun near calls => ?_)
        have first : Freed s.sb s.blk (release s.sb s.blk _) {_} :=
          Freed.release (use.marked j le_rfl (by omega) mapped near).1
        refine ih (s := { s with blk := release s.sb s.blk _, calls := calls }) (j := j + 1) layout
          (first.super layout super) (use.release mapped near)
          (fun k lower upper => far k (by omega) (by omega)) ?_
        intro blk' calls second nears
        refine post blk' calls ?_ ?_
        · rw [listed_succ (w := fun k => Bytes.getWord data (4 * k)) mapped]
          exact first.trans second
        · intro k lower upper
          rcases Nat.lt_or_ge j k with after | here
          · exact nears k after (by omega)
          · rw [show k = j by omega]
            exact fun _ => near
      · have zero : Bytes.getWord data (4 * j) = 0 := not_not.mp empty
        refine ih layout super use.tail (fun k lower upper => far k (by omega) (by omega)) ?_
        intro blk' calls done nears
        refine post blk' calls ?_ ?_
        · rw [listed_succ_of_zero (w := fun k => Bytes.getWord data (4 * k)) zero]
          exact done
        · intro k lower upper
          rcases Nat.lt_or_ge j k with after | here
          · exact nears k after (by omega)
          · rw [show k = j by omega]
            exact fun nonzero => absurd zero nonzero

end Loops

/-! ## The whole of `itrunc` -/

/-- The blocks that an inode refers to. -/
def blocksOf (blk : Disk) (ip : Dinode) : Set ℕ := { b | ∃ k, ref blk ip k = some b }

/-- The inode that `itrunc` leaves. -/
def emptied (ip : Inode) : Inode := { ip with size := 0, addrs := fun _ => 0 }

variable {ι : Type} {ips : ι → Inode} {i : ι}

/-- An address whose bitmap block is on disk has no checksum, so it is the block of its slot. -/
theorem ref_of_near {ip : Dinode} {k : ℕ} (nonzero : slot blk ip k ≠ 0)
    (near : sb.bblock (slot blk ip k).toNat < FSSIZE) :
    ref blk ip k = some (slot blk ip k).toNat := by
  have small : (slot blk ip k).toNat < 2 ^ 24 := by
    simp only [Superblock.bblock, BPB, BSIZE, FSSIZE] at near
    omega
  refine ref_eq_some.mpr ⟨nonzero, ?_⟩
  have ones : (0x00ffffff : Word).toNat = 2 ^ 24 - 1 := by decide
  simp only [target, mask]
  split_ifs
  · rfl
  · rw [BitVec.toNat_and, ones, Nat.and_comm, Nat.and_two_pow_sub_one_eq_mod,
      Nat.mod_eq_of_lt small]
  · rfl

theorem Owned.frees (own : Owned sb blk ips) (i : ι) (k : ℕ) :
    Frees sb (blocksOf blk (ips i).toDinode) (slot blk (ips i).toDinode k) := by
  intro nonzero near
  have refers := ref_of_near nonzero near
  exact ⟨(own.data i k _ refers).2, k, refers⟩

/-- Addresses of one inode, under any numbering. -/
theorem Owned.inUse (own : Owned sb blk ips) (i : ι) {f : ℕ → ℕ} (inj : Function.Injective f)
    (a n : ℕ) : InUse sb blk (fun j => slot blk (ips i).toDinode (f j)) a n where
  marked := by
    intro k _ _ nonzero near
    exact ⟨(own.frees i (f k) nonzero near).1, own.used i (f k) _ (ref_of_near nonzero near)⟩
  distinct := by
    intro k l _ _ _ _ nonzero nonzero' near same
    apply inj
    refine (own.distinct i (f k) i (f l) _ (ref_of_near nonzero near) ?_).2
    rw [same] at near ⊢
    exact ref_of_near nonzero' near

/-- An address is not among those at other places. -/
theorem Owned.not_listed (own : Owned sb blk ips) (i : ι) {f : ℕ → ℕ} {k a n : ℕ}
    (other : ∀ j, a ≤ j → j < a + n → f j ≠ k) (nonzero : slot blk (ips i).toDinode k ≠ 0)
    (near : sb.bblock (slot blk (ips i).toDinode k).toNat < FSSIZE) :
    (slot blk (ips i).toDinode k).toNat ∉ listed (fun j => slot blk (ips i).toDinode (f j))
      a n := by
  rintro ⟨j, lower, upper, nonzero', same⟩
  have words : slot blk (ips i).toDinode (f j) = slot blk (ips i).toDinode k :=
    BitVec.eq_of_toNat_eq same
  apply other j lower upper
  refine (own.distinct i (f j) i k _ ?_ (ref_of_near nonzero near)).2
  rw [← words] at near ⊢
  exact ref_of_near nonzero' near

/-- The blocks of an inode whose addresses `bfree` can handle. -/
theorem blocksOf_eq {ip : Dinode} (near : ∀ k ≤ MAXFILE, Near sb (slot blk ip k)) :
    blocksOf blk ip = listed (slot blk ip) 0 (MAXFILE + 1) := by
  ext b
  constructor
  · rintro ⟨k, refers⟩
    have nonzero := (ref_eq_some.mp refers).1
    have inFile : k ≤ MAXFILE := by
      by_contra beyond
      exact nonzero (slot_beyond (Nat.not_le.mp beyond))
    rw [ref_of_near nonzero (near k inFile nonzero)] at refers
    exact ⟨k, Nat.zero_le k, by omega, nonzero, Option.some.inj refers⟩
  · rintro ⟨k, _, upper, nonzero, same⟩
    exact ⟨k, by rw [ref_of_near nonzero (near k (by omega) nonzero), same]⟩

/-- `itrunc` frees exactly the blocks of its inode, and stops only at an address with a checksum. -/
theorem itrunc_frees_meets {Q : Inode → St → Prop} {ip : Inode} (here : ips i = ip)
    (own : Owned s.sb s.blk ips) (super : getSb (s.blk 1) = s.sb)
    (far : ∀ k ≤ MAXFILE, ¬Near s.sb (slot s.blk (ips i).toDinode k) → ∀ e, E e)
    (post : ∀ blk' calls, Freed s.sb s.blk blk' (blocksOf s.blk (ips i).toDinode) →
      (∀ k ≤ MAXFILE, Near s.sb (slot s.blk (ips i).toDinode k)) →
      Q (emptied (ips i))
        { s with blk := putInode s.sb blk' (emptied (ips i)), calls := calls }) :
    Meets (itrunc ip) s E Q := by
  subst here
  have direct : ∀ k, 0 ≤ k → k < 0 + NDIRECT →
      (ips i).addr k = slot s.blk (ips i).toDinode k := by
    intro k _ direct
    rw [slot_direct _ (by omega)]
  -- The inode is cleared: what is left is `iupdate`.
  have finish : ∀ (ip' : Inode) (blk' : Disk) (calls : List Call),
      Freed s.sb s.blk blk' (listed (slot s.blk (ips i).toDinode) 0 (MAXFILE + 1)) →
      (∀ k ≤ MAXFILE, Near s.sb (slot s.blk (ips i).toDinode k)) →
      ip' = { ips i with addrs := ip'.addrs } → (∀ k ≤ NDIRECT, ip'.addr k = 0) →
      Meets (do iupdate { ip' with size := 0 }; return { ip' with size := 0 })
        { s with blk := blk', calls := calls } E Q := by
    intro ip' blk' calls done near fields zero
    have cleared : ({ ip' with size := 0 } : Inode) = emptied (ips i) := by
      have addrs : ip'.addrs = fun _ => 0 := by
        funext k
        have value := zero k (by omega)
        rwa [Dinode.addr, Fin.ofNat_val_eq_self] at value
      rw [emptied, fields, addrs]
    rw [cleared]
    rw [← blocksOf_eq near] at done
    exact meets_bind (iupdate_meets own.layout (own.inum i) fun calls =>
      meets_pure (post blk' calls done near))
  refine meets_bind (freeDirect_meets own.layout super (by omega)
    ((own.inUse i (f := id) Function.injective_id 0 NDIRECT).congr direct) ?_ ?_)
  · intro k lower upper
    rw [direct k lower upper]
    exact far k (by simp only [MAXFILE]; omega)
  intro ip' blk' calls first nearDirect fields addrs
  have indirect : ip'.addr NDIRECT = (ips i).addr NDIRECT := by
    rw [addrs NDIRECT le_rfl, if_neg (by omega)]
  have low : ∀ k < NDIRECT, ip'.addr k = 0 := by
    intro k direct
    rw [addrs k direct.le, if_pos (by omega)]
  rw [listed_congr direct] at first
  have nearLow : ∀ k < NDIRECT, Near s.sb (slot s.blk (ips i).toDinode k) := by
    intro k isDirect
    rw [← direct k (Nat.zero_le k) (by omega)]
    exact nearDirect k (Nat.zero_le k) (by omega)
  refine meets_ite (fun mapped => ?_) fun empty => ?_
  · rw [indirect] at mapped ⊢
    have refers := ref_maxfile s.blk mapped
    have same := first.same _ (Or.inr (own.data i MAXFILE _ refers).1)
    have entry : ∀ j, 0 ≤ j → j < 0 + NINDIRECT →
        Bytes.getWord (s.blk ((ips i).addr NDIRECT).toNat) (4 * j) =
          slot s.blk (ips i).toDinode (NDIRECT + j) := by
      intro j _ inRange
      rw [slot_entry _ (by omega) (by simp only [MAXFILE]; omega) mapped, Nat.add_sub_cancel_left]
    have use : InUse s.sb blk' (fun j => slot s.blk (ips i).toDinode (NDIRECT + j)) 0
        NINDIRECT := by
      refine (own.inUse i (fun a b => Nat.add_left_cancel) 0 NINDIRECT).cleared first ?_
      intro j _ _ nonzero near
      exact own.not_listed i (f := id) (fun k _ upper => by simp only [id]; omega) nonzero near
    refine meets_bind (meets_bread (own.lt_fssize refers).2 fun calls => ?_)
    simp only [same]
    refine meets_bind (freeIndirect_meets (s := { s with blk := blk', calls := calls })
      own.layout (first.super own.layout super) (use.congr entry) ?_ ?_)
    · intro j lower upper
      rw [entry j lower upper]
      exact far (NDIRECT + j) (by simp only [MAXFILE]; omega)
    intro blk'' calls second nearEntries
    rw [listed_congr entry, listed_shift] at second
    have both := first.trans second
    refine meets_bind (meets_brelse fun calls => ?_)
    have last : slot s.blk (ips i).toDinode MAXFILE = (ips i).addr NDIRECT := slot_maxfile
    have onDisk : s.sb.bblock ((ips i).addr NDIRECT).toNat < FSSIZE := by
      have := bblock_lt (own.data i MAXFILE _ refers).2
      have := own.layout.bitmap
      have := own.layout.disk
      omega
    have apart : ((ips i).addr NDIRECT).toNat ∉ listed (slot s.blk (ips i).toDinode) 0 NDIRECT ∪
        listed (slot s.blk (ips i).toDinode) NDIRECT NINDIRECT := by
      have split := listed_append (w := slot s.blk (ips i).toDinode) (i := 0)
          (n := NINDIRECT) NDIRECT
      rw [Nat.zero_add] at split
      rw [← split, ← last]
      refine own.not_listed i (f := id) (fun k _ upper => ?_) (by rw [last]; exact mapped)
        (by rw [last]; exact onDisk)
      simp only [id, MAXFILE]
      omega
    refine meets_bind (bfree_near_meets (s := { s with blk := blk'', calls := calls })
      (both.super own.layout super) mapped ?_ ?_ ?_)
    · intro _
      exact (both.marks _).mpr ⟨own.used i MAXFILE _ refers, apart⟩
    · intro isFar
      exact absurd (fun _ => onDisk) isFar
    intro _ calls
    refine finish _ _ calls ?_ ?_ ?_ fun k bound => ?_
    · have all : listed (slot s.blk (ips i).toDinode) 0 (MAXFILE + 1) =
          listed (slot s.blk (ips i).toDinode) 0 NDIRECT ∪
            listed (slot s.blk (ips i).toDinode) NDIRECT
              NINDIRECT ∪ {((ips i).addr NDIRECT).toNat} := by
        rw [listed_append MAXFILE, show MAXFILE = NDIRECT + NINDIRECT from rfl,
          listed_append NDIRECT,
          Nat.zero_add, Nat.zero_add, listed_succ (n := 0) (by rw [← MAXFILE, last]; exact mapped),
          listed_zero, Set.union_empty, ← MAXFILE, last]
      rw [all]
      exact both.trans (Freed.release (own.data i MAXFILE _ refers).2)
    · intro k bound
      rcases Nat.lt_or_ge k NDIRECT with isDirect | notDirect
      · exact nearLow k isDirect
      · rcases bound.eq_or_lt with isLast | isEntry
        · rw [isLast, last]
          exact fun _ => onDisk
        · have upper : k - NDIRECT < 0 + NINDIRECT := by
            simp only [MAXFILE] at isEntry
            omega
          have near := nearEntries (k - NDIRECT) (Nat.zero_le _) upper
          rwa [entry _ (Nat.zero_le _) upper, Nat.add_sub_cancel' notDirect] at near
    · rw [fields]
      rfl
    · rw [addr_setAddr le_rfl bound]
      split_ifs with last
      · rfl
      · exact low k (by omega)
  · have unmapped : (ips i).addr NDIRECT = 0 := by
      rw [← indirect]
      exact not_not.mp empty
    have none : listed (slot s.blk (ips i).toDinode) NDIRECT (NINDIRECT + 1) = ∅ := by
      ext b
      simp only [listed, Set.mem_ofPred_eq, Set.mem_empty_iff_false, iff_false]
      rintro ⟨k, lower, _, nonzero, _⟩
      exact nonzero (slot_unmapped lower unmapped)
    refine finish ip' blk' calls ?_ ?_ fields fun k bound => ?_
    · rw [show MAXFILE + 1 = NDIRECT + (NINDIRECT + 1) from rfl, listed_append NDIRECT,
        Nat.zero_add, none,
        Set.union_empty]
      exact first
    · intro k _
      rcases Nat.lt_or_ge k NDIRECT with isDirect | notDirect
      · exact nearLow k isDirect
      · exact fun nonzero => absurd (slot_unmapped notDirect unmapped) nonzero
    · rcases Nat.lt_or_ge k NDIRECT with direct | last
      · exact low k direct
      · rw [show k = NDIRECT by omega]
        exact not_not.mp empty

/-- A call that returns has freed blocks of its inode only. -/
theorem itrunc_meets {Q : Inode → St → Prop} {ip : Inode} (here : ips i = ip) (stop : ∀ e, E e)
    (own : Owned s.sb s.blk ips) (super : getSb (s.blk 1) = s.sb)
    (post : ∀ blk' calls, Cleared s.sb s.blk blk' (blocksOf s.blk (ips i).toDinode) →
      Q (emptied (ips i))
        { s with blk := putInode s.sb blk' (emptied (ips i)), calls := calls }) :
    Meets (itrunc ip) s E Q :=
  itrunc_frees_meets here own super (fun _ _ _ => stop)
    fun blk' calls freed _ => post blk' calls freed.cleared

end Xv6.Fs
