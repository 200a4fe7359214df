import Xv6.Checker.Bitmap

/-!
# The directory checks

What `getInum` finds in a directory, what `checkInodeRef` counts, and what `main` has
seen when it returns 0. The loop of `checkInodeRef` over the inodes is left after the
first directory, because the loop inside it runs with the same variable.
-/

namespace Xv6.Checker

open Fs Check

variable {img : Image} {sb : Superblock} {ip : Dinode} {ins ins' : ℕ → Word}

/-! ## Names -/

/-- Inode `d` is a directory. -/
def IsDir (img : Image) (sb : Superblock) (d : ℕ) (ip : Dinode) : Prop :=
  d < sb.ninodes ∧ img.inode sb d = some ip ∧ ip.type = T_DIR

/-- Inode `d` is in use. -/
def InUse (img : Image) (sb : Superblock) (d : ℕ) : Prop :=
  d < sb.ninodes ∧ ∃ ip, img.inode sb d = some ip ∧ ip.type ≠ T_UNALLOC

instance (d : ℕ) : Decidable (InUse img sb d) :=
  decidable_of_iff (d < sb.ninodes ∧ (img.inode sb d).any fun ip => ip.type ≠ T_UNALLOC) (by
    simp [InUse, Option.any_eq_true])

/-- A property of all directories can be checked inode by inode. -/
theorem forall_isDir {P : ℕ → Dinode → Prop} (all : ∀ d ∈ List.range sb.ninodes,
    ∀ ip ∈ (img.inode sb d).toList, ip.type = T_DIR → P d ip) {d : ℕ} (isDir : IsDir img sb d ip) :
    P d ip :=
  all d (List.mem_range.mpr isDir.1) ip (Option.mem_toList.mpr isDir.2.1) isDir.2.2

/-- The first entry of a name in a directory. -/
def Image.lookup (img : Image) (ip : Dinode) (name : List Byte) : Option Dirent :=
  (img.listing ip).find? fun e => strncmp DIRSIZ name e.name

/-- The directory entries in the blocks at the given addresses. -/
def Image.direntsAt (img : Image) (as : List Word) : List Dirent :=
  ((as.filter (· ≠ 0)).filterMap fun a => img.sector a.toNat).flatMap dirents

theorem direntsAt_append (as bs : List Word) :
    img.direntsAt (as ++ bs) = img.direntsAt as ++ img.direntsAt bs := by
  simp [Image.direntsAt, List.filter_append, List.filterMap_append]

theorem findName_cons {name : List Byte} {a : Word} {as : List Word} {data : Block} (used : a ≠ 0)
    (read : img.sector a.toNat = some data) :
    findName img name (a :: as) = match findDirent name data with
      | some e => pure (some e.inum)
      | none => findName img name as := by
  have same : rsect img a.toNat = .ok data := rsect_eq_ok.mpr read
  rw [findName, if_neg used, same]
  rfl

/-- The search goes through the entries of the blocks in order. -/
theorem findName_of_readable {name : List Byte} {as : List Word}
    (readable : ∀ a ∈ as.filter (· ≠ 0), (img.sector a.toNat).isSome) :
    findName img name as = .ok
      (((img.direntsAt as).find? fun e => strncmp DIRSIZ name e.name).map Dirent.inum) := by
  induction as with
  | nil => rfl
  | cons a as ih =>
      by_cases zero : a = 0
      · rw [findName, Image.direntsAt, if_pos zero, List.filter_cons_of_neg (by simpa using zero)]
        apply ih
        intro b mem
        exact readable b (by rwa [List.filter_cons_of_neg (by simpa using zero)])
      · rw [List.filter_cons_of_pos (by simpa using zero)] at readable
        rcases List.forall_mem_cons.mp readable with ⟨first, rest⟩
        rcases Option.isSome_iff_exists.mp first with ⟨data, read⟩
        have listed : img.direntsAt (a :: as) = dirents data ++ img.direntsAt as := by
          rw [Image.direntsAt, List.filter_cons_of_pos (by simpa using zero),
            List.filterMap_cons_some (b := data) (by exact read), List.flatMap_cons]
          rfl
        rw [findName_cons zero read, listed, List.find?_append, findDirent]
        cases (dirents data).find? fun e => strncmp DIRSIZ name e.name with
        | some e => rfl
        | none => exact ih rest

theorem getInum_of_not_dir {d : ℕ} {name : List Byte} (found : img.inode sb d = some ip)
    (notDir : ip.type ≠ T_DIR) : getInum img sb d name = .ok 0 := by
  have same : rinode img sb d = .ok ip := rinode_eq_ok.mpr found
  rw [getInum, same]
  exact if_pos notDir

/-- What `getInum` returns for the entry it has found. -/
def inumOf : Option Dirent → Int
  | some e => e.inum.toNat
  | none => -1

/-- `getInum` finds the inode number of the first entry of the name. -/
theorem getInum_of_dir {d : ℕ} {name : List Byte} (found : img.inode sb d = some ip)
    (isDir : ip.type = T_DIR) (readable : img.Readable ip) :
    getInum img sb d name = .ok (inumOf (img.lookup ip name)) := by
  have same : rinode img sb d = .ok ip := rinode_eq_ok.mpr found
  have readables := readable.data
  rw [Image.addrs, List.filter_append, List.forall_mem_append] at readables
  have split : img.lookup ip name =
      ((img.direntsAt (direct ip)).find? fun e => strncmp DIRSIZ name e.name).or
        ((img.direntsAt (img.indirect ip)).find? fun e => strncmp DIRSIZ name e.name) := by
    rw [← List.find?_append, ← direntsAt_append]
    rfl
  have isDir' : ¬ip.type ≠ T_DIR := not_not.mpr isDir
  simp only [getInum, same, isDir', if_false, findName_of_readable readables.1, split, bind,
    Except.bind]
  cases (img.direntsAt (direct ip)).find? fun e => strncmp DIRSIZ name e.name with
  | some e => rfl
  | none =>
      by_cases zero : ip.addr NDIRECT = 0
      · rw [indirect_of_zero zero]
        exact if_pos zero
      · rcases Option.isSome_iff_exists.mp (readable.indirect zero) with ⟨data, read⟩
        have sector : rsect img (ip.addr NDIRECT).toNat = .ok data := rsect_eq_ok.mpr read
        rw [indirect_of_some zero read] at readables ⊢
        simp only [Option.map_none, if_neg zero, sector, findName_of_readable readables.2]
        cases (img.direntsAt (entries data)).find? fun e => strncmp DIRSIZ name e.name with
        | some e => rfl
        | none => rfl

/-! ## Counting names -/

/-- The inode numbers that entries count for. -/
def named (es : List Dirent) : List ℕ := (es.filter counts).map fun e => e.inum.toNat

theorem mem_named {es : List Dirent} {i : ℕ} :
    i ∈ named es ↔ ∃ e ∈ es, counts e ∧ e.inum.toNat = i := by
  simp [named, and_assoc]

theorem countDirent_eq_ok {e : Dirent} :
    (if counts e then bump sb.ninodes ins e.inum.toNat else return ins) = .ok ins' ↔
      (counts e → e.inum.toNat < sb.ninodes) ∧
        ins' = if counts e then tally [e.inum.toNat] ins else ins := by
  by_cases counted : counts e
  · rw [if_pos counted, if_pos counted, bump_eq_ok]
    exact ⟨fun both => ⟨fun _ => both.1, both.2⟩, fun both => ⟨both.1 counted, both.2⟩⟩
  · rw [if_neg counted, if_neg counted, pure_eq_ok]
    exact ⟨fun same => ⟨fun holds => absurd holds counted, same⟩, fun both => both.2⟩

/-- The entries in use of a block are counted, inside the array. -/
theorem countDirents_eq_ok {data : Block} : countDirents sb ins data = .ok ins' ↔
    (∀ i ∈ named (dirents data), i < sb.ninodes) ∧ ins' = tally (named (dirents data)) ins := by
  have step : ∀ e ∈ dirents data, ∀ ins ins',
      (if counts e then bump sb.ninodes ins e.inum.toNat else return ins) = .ok ins' ↔
        (counts e → e.inum.toNat < sb.ninodes) ∧
          ins' = if counts e then tally [e.inum.toNat] ins else ins :=
    fun _ _ _ _ => countDirent_eq_ok
  rw [countDirents, foldlM_eq_ok step]
  refine and_congr ?_ ?_
  · simp only [mem_named]
    constructor
    · rintro all i ⟨e, mem, counted, rfl⟩
      exact all e mem counted
    · intro all e mem counted
      exact all _ ⟨e, mem, counted, rfl⟩
  · rw [named, tally, List.foldl_map, List.foldl_filter]
    simp only [decide_eq_true_eq]
    exact Iff.rfl

theorem named_flatMap {blocks : List Block} :
    named (blocks.flatMap dirents) = blocks.flatMap fun data => named (dirents data) := by
  simp only [named, List.filter_flatMap, List.map_flatMap]

/-- The entries in use of a directory are counted. -/
theorem countBlocks_eq_ok : forBlocks img ip ins (countDirents sb) = .ok ins' ↔
    img.Readable ip ∧ (∀ i ∈ named (img.listing ip), i < sb.ninodes) ∧
      ins' = tally (named (img.listing ip)) ins := by
  have step : ∀ data ∈ img.blocks ip, ∀ ins ins', countDirents sb ins data = .ok ins' ↔
      (∀ i ∈ named (dirents data), i < sb.ninodes) ∧ ins' = tally (named (dirents data)) ins :=
    fun _ _ _ _ => countDirents_eq_ok
  rw [forBlocks_eq_ok, foldlM_eq_ok step, Image.listing, named_flatMap]
  refine and_congr_right fun _ => and_congr ?_ ?_
  · simp only [List.mem_flatMap]
    constructor
    · rintro all i ⟨data, mem, isNamed⟩
      exact all data mem i isNamed
    · intro all data mem i isNamed
      exact all i ⟨data, mem, isNamed⟩
  · rw [tally, List.foldl_flatMap]
    exact Iff.rfl

theorem checkCounted_eq_ok {m : ℕ} : checkCounted img sb ins = .ok m ↔
    (∀ i, 2 ≤ i → i < sb.ninodes → ∃ ip, img.inode sb i = some ip ∧
      (ip.type ≠ T_UNALLOC → ins i ≠ 0)) ∧ m = max 2 sb.ninodes := by
  have range : ∀ i, i ∈ List.range' 2 (sb.ninodes - 2) ↔ 2 ≤ i ∧ i < sb.ninodes := by
    intro i
    rw [List.mem_range'_1]
    omega
  simp only [checkCounted, bind_eq_ok, forM_eq_ok, rinode_eq_ok, failIf_eq_ok, pure_eq_ok,
    exists_const, range, and_imp, not_and, ne_eq]

/-- Every inode before `n` can be read, and none is a directory. -/
def NoDir (img : Image) (sb : Superblock) (n : ℕ) : Prop :=
  ∀ i < n, ∃ ip, img.inode sb i = some ip ∧ ip.type ≠ T_DIR

/-- Inode `d` is the first directory. -/
structure IsFirst (img : Image) (sb : Superblock) (d : ℕ) (ip : Dinode) : Prop where
  isDir : IsDir img sb d ip
  before : NoDir img sb d

/-- What `checkInodeRef` has seen if it has met a directory: the entries of the first one. -/
structure Counted (img : Image) (sb : Superblock) (ip : Dinode) (ins ins' : ℕ → Word) : Prop where
  readable : img.Readable ip
  inside : ∀ i ∈ named (img.listing ip), i < sb.ninodes
  counts : ins' = tally (named (img.listing ip)) ins
  used : ∀ i, 2 ≤ i → i < sb.ninodes → ∃ ip, img.inode sb i = some ip ∧
    (ip.type ≠ T_UNALLOC → ins' i ≠ 0)

theorem countFrom_past {i fuel : ℕ} (past : sb.ninodes ≤ i) :
    countFrom img sb i ins fuel = .ok ins := by
  cases fuel with
  | zero => rfl
  | succ fuel => exact if_neg (Nat.not_lt.mpr past)

/-- The loop is left after the first directory. -/
theorem countFrom_dir {i fuel : ℕ} (isDir : IsDir img sb i ip) :
    countFrom img sb i ins (fuel + 1) = .ok ins' ↔ Counted img sb ip ins ins' := by
  have same : rinode img sb i = .ok ip := rinode_eq_ok.mpr isDir.2.1
  have unfolded : countFrom img sb i ins (fuel + 1) =
      forBlocks img ip ins (countDirents sb) >>= fun ins =>
        checkCounted img sb ins >>= fun i => countFrom img sb (i + 1) ins fuel := by
    rw [countFrom, if_pos isDir.1, same]
    exact if_neg (not_not.mpr isDir.2.2)
  simp only [unfolded, bind_eq_ok, countBlocks_eq_ok, checkCounted_eq_ok]
  constructor
  · rintro ⟨counted, ⟨readable, inside, counts⟩, m, ⟨used, rfl⟩, rest⟩
    rw [countFrom_past (by omega)] at rest
    cases rest
    exact ⟨readable, inside, counts, used⟩
  · rintro ⟨readable, inside, counts, used⟩
    exact ⟨ins', ⟨readable, inside, counts⟩, _, ⟨used, rfl⟩, countFrom_past (by omega)⟩

/-- One turn of the search for a directory. -/
theorem countFrom_step {i fuel : ℕ} (inRange : i < sb.ninodes) :
    countFrom img sb i ins (fuel + 1) = .ok ins' ↔ ∃ ip, img.inode sb i = some ip ∧
      if ip.type = T_DIR then Counted img sb ip ins ins'
      else countFrom img sb (i + 1) ins fuel = .ok ins' := by
  by_cases isDir : ∃ ip, img.inode sb i = some ip ∧ ip.type = T_DIR
  · rcases isDir with ⟨ip, found, type⟩
    rw [countFrom_dir ⟨inRange, found, type⟩]
    simp only [found, Option.some.injEq, exists_eq_left', if_pos type]
  · rw [countFrom, if_pos inRange, bind_eq_ok]
    simp only [rinode_eq_ok]
    refine exists_congr fun ip => and_congr_right fun found => ?_
    have notDir : ip.type ≠ T_DIR := fun type => isDir ⟨ip, found, type⟩
    rw [if_pos notDir, if_neg notDir]

/-- How the loop ends from inode `i` on: there is no directory, or it has seen the first one. -/
def Ends (img : Image) (sb : Superblock) (i : ℕ) (ins ins' : ℕ → Word) : Prop :=
  (NoDir img sb sb.ninodes ∧ ins' = ins) ∨
    ∃ d ip, i ≤ d ∧ IsFirst img sb d ip ∧ Counted img sb ip ins ins'

/-- Past the last inode nothing is counted. -/
theorem countFrom_eq_ok_of_past {i fuel : ℕ} (past : sb.ninodes ≤ i) (before : NoDir img sb i) :
    countFrom img sb i ins fuel = .ok ins' ↔ Ends img sb i ins ins' := by
  rw [countFrom_past past]
  constructor
  · intro same
    exact Or.inl ⟨fun k inRange => before k (by omega), (Except.ok.inj same).symm⟩
  · rintro (⟨_, rfl⟩ | ⟨d, ip, above, first, _⟩)
    · rfl
    · have := first.isDir.1
      omega

/-- Only the first directory is counted, as the inner loop changes the counter of the outer one. -/
theorem countFrom_eq_ok {i fuel : ℕ} (enough : sb.ninodes ≤ i + fuel) (before : NoDir img sb i) :
    countFrom img sb i ins fuel = .ok ins' ↔ Ends img sb i ins ins' := by
  induction fuel generalizing i with
  | zero => exact countFrom_eq_ok_of_past (by omega) before
  | succ fuel ih =>
      rcases Nat.lt_or_ge i sb.ninodes with inRange | past
      · have later : ∀ ip, img.inode sb i = some ip → ip.type ≠ T_DIR →
            NoDir img sb (i + 1) := by
          intro ip found type k below
          rcases Nat.lt_succ_iff_lt_or_eq.mp below with earlier | rfl
          · exact before k earlier
          · exact ⟨ip, found, type⟩
        rw [countFrom_step inRange]
        constructor
        · rintro ⟨ip, found, rest⟩
          split at rest
          next type => exact Or.inr ⟨i, ip, le_rfl, ⟨⟨inRange, found, type⟩, before⟩, rest⟩
          next type =>
            rcases (ih (by omega) (later ip found type)).mp rest with none | ⟨d, ip', above, more⟩
            · exact Or.inl none
            · exact Or.inr ⟨d, ip', by omega, more⟩
        · rintro (⟨none, same⟩ | ⟨d, ip, above, first, counted⟩)
          · rcases none i inRange with ⟨ip, found, type⟩
            refine ⟨ip, found, ?_⟩
            rw [if_neg type]
            exact (ih (by omega) (later ip found type)).mpr (Or.inl ⟨none, same⟩)
          · rcases above.eq_or_lt with rfl | further
            · refine ⟨ip, first.isDir.2.1, ?_⟩
              rwa [if_pos first.isDir.2.2]
            · rcases first.before i further with ⟨ip', found, type⟩
              refine ⟨ip', found, ?_⟩
              rw [if_neg type]
              exact (ih (by omega) (later ip' found type)).mpr
                (Or.inr ⟨d, ip, further, first, counted⟩)
      · exact countFrom_eq_ok_of_past past before

theorem checkInodeRef_eq_ok : checkInodeRef img sb ins = .ok ins' ↔ Ends img sb 0 ins ins' :=
  countFrom_eq_ok (by omega) fun _ below => absurd below (Nat.not_lt_zero _)

/-- Every directory has an entry of the name. -/
theorem checkDirFormat_eq_ok {name : List Byte} {u : Unit} : checkDirFormat img sb name = .ok u ↔
    ∀ i < sb.ninodes, ∃ ip, img.inode sb i = some ip ∧
      (ip.type = T_DIR → ∃ p, getInum img sb i name = .ok p ∧ p ≠ -1) := by
  rw [checkDirFormat, forM_inodes_eq_ok]
  refine forall₂_congr fun i inRange => exists_congr fun ip => and_congr_right fun found => ?_
  by_cases isDir : ip.type = T_DIR
  · rw [if_neg (not_not.mpr isDir), bind_eq_ok]
    simp only [isDir, true_imp_iff, failIf_eq_ok, ne_eq]
  · rw [if_pos isDir]
    exact ⟨fun _ holds => absurd holds isDir, fun _ => rfl⟩

/-- Every inode with a reference is in use. -/
theorem checekValidDir_eq_ok {u : Unit} : checekValidDir img sb ins = .ok u ↔
    ∀ i < sb.ninodes, ins i ≠ 0 → ∃ ip, img.inode sb i = some ip ∧ ip.type ≠ T_UNALLOC := by
  rw [checekValidDir, forM_eq_ok]
  simp only [List.mem_range]
  refine forall₂_congr fun i inRange => ?_
  by_cases zero : ins i = 0
  · rw [if_neg (by simp [zero])]
    exact ⟨fun _ nonzero => absurd zero nonzero, fun _ => rfl⟩
  · have positive : 0 < ins i := (BitVec.pos_iff_ne_zero _).mpr zero
    rw [if_pos positive, bind_eq_ok]
    simp only [rinode_eq_ok, failIf_eq_ok]
    exact ⟨fun found _ => found, fun found => found zero⟩

theorem checkBadLinks_eq_ok {u : Unit} : checkBadLinks img sb ins = .ok u ↔
    ∀ i < sb.ninodes, ∃ ip, img.inode sb i = some ip ∧
      (ip.type = T_FILE → ip.nlink.signExtend 32 = ins i) := by
  rw [checkBadLinks, forM_inodes_eq_ok]
  simp only [failIf_eq_ok, not_and, not_not, ne_eq]

theorem checkExtraLink_eq_ok {u : Unit} : checkExtraLink img sb ins = .ok u ↔
    ∀ i < sb.ninodes, ∃ ip, img.inode sb i = some ip ∧ (ip.type = T_DIR → ins i ≤ 1) := by
  rw [checkExtraLink, forM_inodes_eq_ok]
  simp only [failIf_eq_ok, not_and, BitVec.not_lt]

theorem checkUsedTimes_eq_ok {u : Unit} : checkUsedTimes sb ins = .ok u ↔
    ∀ b < sb.size, ins b ≤ 1 := by
  rw [checkUsedTimes, forM_eq_ok]
  simp only [List.mem_range, failIf_eq_ok, BitVec.not_lt]

/-! ## The whole program -/

/-- The superblock of an image. -/
def Image.super (img : Image) : Option Superblock := (img.sector SUPERBLOCK).map getSb

/-- Every check of `main` returns 1. -/
structure Passes (img : Image) (sb : Superblock) : Prop where
  bmapstart : (img.sector sb.bmapstart).isSome
  inodes : checkBadInode img sb = .ok ()
  addrs : checkValidAddr img sb = .ok ()
  dots : checkDirFormat img sb dot = .ok ()
  dotdots : checkDirFormat img sb dotdot = .ok ()
  parents : checkParentDir img sb = .ok ()
  blocks : ∃ addresses, checkBitmap img sb (fun _ => 0) = .ok addresses ∧
    checkUsedBlock img sb addresses = .ok () ∧ checkUsedTimes sb addresses = .ok ()
  links : ∃ ins, checkInodeRef img sb (fun _ => 0) = .ok ins ∧
    checkBadLinks img sb ins = .ok () ∧ checkExtraLink img sb ins = .ok ()

theorem report_eq_ok {α : Type} {msg : String} {check : CheckM α} {a : α} :
    report msg check = .ok a ↔ check = .ok a :=
  mapError_eq_ok

/-- `main` accepts the images that pass all its checks. -/
theorem main_eq_ok {u : Unit} :
    main img = .ok u ↔ ∃ sb, img.super = some sb ∧ Passes img sb := by
  have zeros : ∀ sb, checekValidDir img sb (fun _ => 0) = .ok () :=
    fun _ => checekValidDir_eq_ok.mpr fun _ _ nonzero => absurd rfl nonzero
  simp only [main, bind_eq_ok, report_eq_ok, rsect_eq_ok, exists_unit, Image.super,
    Option.map_eq_some_iff, zeros, true_and]
  constructor
  · rintro ⟨data, read, _, bmapstart, inodes, addrs, ⟨dots, dotdots⟩, parents, addresses, bitmap,
      used, times, ins, counted, links, extra⟩
    exact ⟨_, ⟨data, read, rfl⟩, by rw [bmapstart]; rfl, inodes, addrs, dots, dotdots, parents,
      ⟨addresses, bitmap, used, times⟩, ⟨ins, counted, links, extra⟩⟩
  · rintro ⟨_, ⟨data, read, rfl⟩, bmapstart, inodes, addrs, dots, dotdots, parents,
      ⟨addresses, bitmap, used, times⟩, ⟨ins, counted, links, extra⟩⟩
    rcases Option.isSome_iff_exists.mp bmapstart with ⟨block, found⟩
    exact ⟨data, read, block, found, inodes, addrs, ⟨dots, dotdots⟩, parents, addresses, bitmap,
      used, times, ins, counted, links, extra⟩

end Xv6.Checker
