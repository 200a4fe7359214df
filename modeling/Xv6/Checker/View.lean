import Xv6.Checker.Checks

/-!
# What an image holds

The inodes, blocks and directory entries of an image, apart from the order in which
`fsChecker` reads them. A block that lies outside the image holds nothing; the loops
of the checker return only when there is no such block.
-/

namespace Xv6.Checker

open Fs Check

variable {img : Image} {sb : Superblock} {ip : Dinode} {i : ℕ}

/-- A sector is read if it is in the image. -/
theorem rsect_eq_ok {sec : ℕ} {data : Block} :
    rsect img sec = .ok data ↔ img.sector sec = some data := by
  rw [rsect]
  cases img.sector sec with
  | some data' => exact ⟨fun returned => by cases returned; rfl, fun same => by cases same; rfl⟩
  | none =>
      constructor
      · intro stopped
        cases stopped
      · intro impossible
        cases impossible

/-- Inode `i` of the image. -/
def Image.inode (img : Image) (sb : Superblock) (i : ℕ) : Option Dinode :=
  (img.sector (sb.iblock i)).map fun data => getDinode data (i % IPB)

theorem rinode_eq_ok : rinode img sb i = .ok ip ↔ img.inode sb i = some ip := by
  rw [rinode, bind_eq_ok, Image.inode, Option.map_eq_some_iff]
  constructor
  · rintro ⟨data, read, returned⟩
    exact ⟨data, rsect_eq_ok.mp read, Except.ok.inj returned⟩
  · rintro ⟨data, read, rfl⟩
    exact ⟨data, rsect_eq_ok.mpr read, rfl⟩

/-- The words of the indirect block. -/
def Image.indirect (img : Image) (ip : Dinode) : List Word :=
  if ip.addr NDIRECT = 0 then []
  else match img.sector (ip.addr NDIRECT).toNat with
    | some data => entries data
    | none => []

/-- The indirect block, if there is one, lies in the image. -/
def Image.HasIndirect (img : Image) (ip : Dinode) : Prop :=
  ip.addr NDIRECT ≠ 0 → (img.sector (ip.addr NDIRECT).toNat).isSome

theorem indirect_of_zero (zero : ip.addr NDIRECT = 0) : img.indirect ip = [] :=
  if_pos zero

theorem indirect_of_some {data : Block} (used : ip.addr NDIRECT ≠ 0)
    (read : img.sector (ip.addr NDIRECT).toNat = some data) : img.indirect ip = entries data := by
  rw [Image.indirect, if_neg used, read]

/-- The addresses of the data blocks of a file. -/
def Image.addrs (img : Image) (ip : Dinode) : List Word :=
  (direct ip ++ img.indirect ip).filter (· ≠ 0)

/-- The data blocks of a file. -/
def Image.blocks (img : Image) (ip : Dinode) : List Block :=
  (img.addrs ip).filterMap fun a => img.sector a.toNat

/-- The directory entries of a file, free ones too. -/
def Image.listing (img : Image) (ip : Dinode) : List Dirent :=
  (img.blocks ip).flatMap dirents

/-- All the blocks of a file lie in the image. -/
structure Image.Readable (img : Image) (ip : Dinode) : Prop where
  indirect : img.HasIndirect ip
  data : ∀ a ∈ img.addrs ip, (img.sector a.toNat).isSome

/-! ## Loops over the blocks of a file -/

section Loops

variable {σ : Type} {s s' : σ}

/-- Addresses that are zero are passed over, and the others have to be in the image. -/
theorem foldlM_visit {body : σ → Block → CheckM σ} {as : List Word} :
    as.foldlM (visit img body) s = .ok s' ↔
      (∀ a ∈ as.filter (· ≠ 0), (img.sector a.toNat).isSome) ∧
        ((as.filter (· ≠ 0)).filterMap fun a => img.sector a.toNat).foldlM body s = .ok s' := by
  induction as generalizing s with
  | nil => simp
  | cons a as ih =>
      rw [List.foldlM_cons, bind_eq_ok]
      by_cases zero : a = 0
      · subst zero
        have skip : ∀ t, visit img body s 0 = .ok t ↔ t = s := fun t => pure_eq_ok
        simp only [skip, exists_eq_left, ih]
        simp
      · rw [List.filter_cons_of_pos (by simpa using zero), List.forall_mem_cons]
        simp only [visit, if_neg zero, bind_eq_ok, rsect_eq_ok]
        cases read : img.sector a.toNat with
        | none => simp
        | some data =>
            rw [List.filterMap_cons_some (b := data) (by exact read), List.foldlM_cons, bind_eq_ok]
            simp only [Option.some.injEq, exists_eq_left', Option.isSome_some, true_and, ih]
            constructor
            · rintro ⟨t, first, readable, rest⟩
              exact ⟨readable, t, first, rest⟩
            · rintro ⟨readable, t, first, rest⟩
              exact ⟨t, first, readable, rest⟩

/-- The loop over the blocks of an inode goes through those that its addresses name. -/
theorem forBlocks_eq_ok {body : σ → Block → CheckM σ} :
    forBlocks img ip s body = .ok s' ↔
      img.Readable ip ∧ (img.blocks ip).foldlM body s = .ok s' := by
  have loop : (direct ip ++ img.indirect ip).foldlM (visit img body) s = .ok s' ↔
      (∀ a ∈ img.addrs ip, (img.sector a.toNat).isSome) ∧
        (img.blocks ip).foldlM body s = .ok s' :=
    foldlM_visit
  have readable : img.Readable ip ∧ (img.blocks ip).foldlM body s = .ok s' ↔
      img.HasIndirect ip ∧ (direct ip ++ img.indirect ip).foldlM (visit img body) s = .ok s' := by
    rw [loop]
    exact ⟨fun ⟨⟨first, second⟩, rest⟩ => ⟨first, second, rest⟩,
      fun ⟨first, second, rest⟩ => ⟨⟨first, second⟩, rest⟩⟩
  rw [readable, List.foldlM_append, forBlocks]
  by_cases zero : ip.addr NDIRECT = 0
  · simp only [if_pos zero, indirect_of_zero zero, List.foldlM_nil]
    exact ⟨fun returned => ⟨fun used => absurd zero used, returned⟩, fun both => both.2⟩
  · simp only [if_neg zero]
    cases read : img.sector (ip.addr NDIRECT).toNat with
    | some data =>
        have same : rsect img (ip.addr NDIRECT).toNat = .ok data := rsect_eq_ok.mpr read
        rw [indirect_of_some zero read, same]
        refine ⟨fun returned => ⟨fun _ => ?_, returned⟩, fun both => both.2⟩
        rw [read]
        rfl
    | none =>
        constructor
        · intro returned
          rcases bind_eq_ok.mp returned with ⟨t, _, more⟩
          rcases bind_eq_ok.mp more with ⟨data, impossible, _⟩
          rw [rsect_eq_ok, read] at impossible
          cases impossible
        · rintro ⟨has, _⟩
          have impossible := has zero
          rw [read] at impossible
          cases impossible

end Loops

/-! ## Loops over the inodes -/

theorem forM_inodes_eq_ok {body : ℕ → Dinode → CheckM Unit} {n : ℕ} {u : Unit} :
    (forM (List.range n) fun i => do body i (← rinode img sb i)) = .ok u ↔
      ∀ i < n, ∃ ip, img.inode sb i = some ip ∧ body i ip = .ok () := by
  rw [forM_eq_ok]
  simp only [List.mem_range, bind_eq_ok, rinode_eq_ok]

theorem checkBadInode_eq_ok {u : Unit} : checkBadInode img sb = .ok u ↔
    ∀ i < sb.ninodes, ∃ ip, img.inode sb i = some ip ∧
      (ip.type = T_UNALLOC ∨ ip.type = T_DIR ∨ ip.type = T_FILE ∨ ip.type = T_DEV) ∧
      (i = 1 → ip.type = T_UNALLOC ∨ ip.type = T_DIR) := by
  rw [checkBadInode, forM_inodes_eq_ok]
  refine forall₂_congr fun i inRange => exists_congr fun ip => and_congr_right fun found => ?_
  rw [bind_eq_ok]
  simp only [failIf_eq_ok, exists_const]
  tauto

/-- No address of any inode is bad, in use or not. -/
theorem checkValidAddr_eq_ok {u : Unit} : checkValidAddr img sb = .ok u ↔
    ∀ i < sb.ninodes, ∃ ip, img.inode sb i = some ip ∧
      (∀ j ≤ NDIRECT, ¬badAddr sb (ip.addr j)) ∧ img.HasIndirect ip ∧
      ∀ a ∈ img.indirect ip, ¬badAddr sb a := by
  rw [checkValidAddr, forM_inodes_eq_ok]
  refine forall₂_congr fun i inRange => exists_congr fun ip => and_congr_right fun found => ?_
  rw [bind_eq_ok]
  simp only [forM_eq_ok, failIf_eq_ok, exists_const, List.mem_range, Nat.lt_succ_iff]
  refine and_congr_right fun _ => ?_
  by_cases zero : ip.addr NDIRECT = 0
  · rw [if_pos zero, indirect_of_zero zero]
    refine ⟨fun _ => ⟨fun used => absurd zero used, ?_⟩, fun _ => rfl⟩
    exact fun _ impossible => absurd impossible List.not_mem_nil
  · rw [if_neg zero, bind_eq_ok]
    simp only [rsect_eq_ok, forM_eq_ok, failIf_eq_ok]
    constructor
    · rintro ⟨data, read, good⟩
      rw [indirect_of_some zero read]
      exact ⟨fun _ => by rw [read]; rfl, good⟩
    · rintro ⟨has, good⟩
      rcases Option.isSome_iff_exists.mp (has zero) with ⟨data, read⟩
      rw [indirect_of_some zero read] at good
      exact ⟨data, read, good⟩

/-! ## A small image -/

/-- The superblock of an image of 8 blocks: inodes in block 2, bitmap in block 3, data from 4 on. -/
def smallSb : Superblock where
  size := 8
  nblocks := 4
  ninodes := 4
  nlog := 0
  logstart := 2
  inodestart := 2
  bmapstart := 3

/-- An inode with at most one direct block. -/
def smallInode (type nlink : Half) (block indirect : Word) : Dinode where
  type := type
  major := 0
  minor := 0
  nlink := nlink
  size := 512
  addrs := fun k => if k = 0 then block else if k = 12 then indirect else 0

/-- An inode that is not in use. -/
def unused : Dinode := smallInode T_UNALLOC 0 0 0

/-- Store a directory entry in slot `k` of a block. -/
def putDirent (data : Block) (k : ℕ) (inum : Half) (name : List Byte) : Block :=
  Bytes.move (Bytes.putHalf data (16 * k) inum) (16 * k + 2) DIRSIZ fun j => name.getD j 0

/-- A directory block with the given entries. -/
def smallBlock (es : List (Half × List Byte)) : Block :=
  es.zipIdx.foldl (fun data entry => putDirent data entry.2 entry.1.1 entry.1.2) fun _ => 0

def smallImage (inodes : List Dinode) (bits : Byte) (data : List Block) : Image where
  count := 8
  blk := fun b =>
    if b = 1 then Bytes.putWords (fun _ => 0) 0 [8, 4, 4, 0, 2, 2, 3]
    else if b = 2 then
      inodes.zipIdx.foldl (fun block entry => putDinode block entry.2 entry.1) fun _ => 0
    else if b = 3 then Bytes.put (fun _ => 0) 0 bits
    else if b < 4 then fun _ => 0
    else data.getD (b - 4) fun _ => 0

end Xv6.Checker
