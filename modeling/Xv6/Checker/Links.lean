import Xv6.Checker.Directory

/-!
# What the link checks guarantee

`main` counts names in `checkInodeRef`, and the checks of link counts rest on its array.
Only the entries of the first directory are counted, and `checekValidDir` is
run before the array is filled. What a return value of 0 says about an image depends
on the directories after the first one, and on the entries that are not counted.
-/

namespace Xv6.Checker

open Fs Check

variable {img : Image} {sb : Superblock} {ip : Dinode} {ins : ℕ → Word}

/-- The names in directory `d`, apart from `.` and `..`. -/
def Image.namesIn (img : Image) (sb : Superblock) (d : ℕ) : List ℕ :=
  match img.inode sb d with
  | some ip => if ip.type = T_DIR then named (img.listing ip) else []
  | none => []

/-- The names in all directories. -/
def Image.names (img : Image) (sb : Superblock) : List ℕ :=
  (List.range sb.ninodes).flatMap (img.namesIn sb)

theorem namesIn_of_dir {d : ℕ} (isDir : IsDir img sb d ip) :
    img.namesIn sb d = named (img.listing ip) := by
  rw [Image.namesIn, isDir.2.1]
  exact if_pos isDir.2.2

/-- Only directories name inodes. -/
theorem isDir_of_mem_namesIn {d i : ℕ} (inRange : d < sb.ninodes) (mem : i ∈ img.namesIn sb d) :
    ∃ ip, IsDir img sb d ip := by
  rw [Image.namesIn] at mem
  cases found : img.inode sb d with
  | none => simp [found] at mem
  | some ip =>
      by_cases type : ip.type = T_DIR
      · exact ⟨ip, inRange, found, type⟩
      · simp only [found, if_neg type] at mem
        cases mem

/-- A file has too few directory entries to wrap a counter around. -/
theorem length_named_listing_le : (named (img.listing ip)).length ≤ MAXFILE * DPB := by
  have addresses : (direct ip ++ img.indirect ip).length ≤ MAXFILE := by
    have indirect : (img.indirect ip).length ≤ NINDIRECT := by
      rw [Image.indirect]
      split
      · exact Nat.zero_le _
      · split
        · simp [entries, Bytes.getWords]
        · exact Nat.zero_le _
    simp only [List.length_append, direct, List.length_map, List.length_range, MAXFILE]
    omega
  have blocks : (img.blocks ip).length ≤ MAXFILE :=
    calc
      (img.blocks ip).length ≤ (img.addrs ip).length := List.length_filterMap_le _ _
      _ ≤ (direct ip ++ img.indirect ip).length := List.length_filter_le _ _
      _ ≤ MAXFILE := addresses
  have listing : (img.listing ip).length = (img.blocks ip).length * DPB := by
    rw [Image.listing, List.length_flatMap, List.map_congr_left (g := fun _ => DPB)]
    · simp
    · intro data _
      simp [dirents]
  calc
    (named (img.listing ip)).length ≤ (img.listing ip).length := by
      rw [named, List.length_map]
      exact List.length_filter_le _ _
    _ = (img.blocks ip).length * DPB := listing
    _ ≤ MAXFILE * DPB := Nat.mul_le_mul_right _ blocks

theorem count_named_lt (i : ℕ) : (named (img.listing ip)).count i < 2 ^ 31 :=
  calc
    (named (img.listing ip)).count i ≤ (named (img.listing ip)).length := List.count_le_length
    _ ≤ MAXFILE * DPB := length_named_listing_le
    _ < 2 ^ 31 := by decide

/-! ## What is counted -/

/-- There is one first directory. -/
theorem IsFirst.eq {d d' : ℕ} {ip' : Dinode} (first : IsFirst img sb d ip)
    (second : IsFirst img sb d' ip') : d = d' ∧ ip = ip' := by
  have ordered : ∀ {d d' ip ip'}, IsFirst img sb d ip → IsFirst img sb d' ip' → ¬d < d' := by
    intro d d' ip ip' first second below
    rcases second.before d below with ⟨ip'', found, notDir⟩
    rw [first.isDir.2.1] at found
    cases found
    exact notDir first.isDir.2.2
  have same : d = d' := by
    have := ordered first second
    have := ordered second first
    omega
  subst same
  have found := first.isDir.2.1
  rw [second.isDir.2.1] at found
  exact ⟨rfl, (Option.some.inj found).symm⟩

/-- The directories after the first name nothing. -/
def OneDir (img : Image) (sb : Superblock) : Prop :=
  ∀ d ip, IsFirst img sb d ip → ∀ d', d < d' → d' < sb.ninodes → img.namesIn sb d' = []

theorem namesIn_of_noDir {n d : ℕ} (none : NoDir img sb n) (below : d < n) :
    img.namesIn sb d = [] := by
  rcases none d below with ⟨ip, found, notDir⟩
  rw [Image.namesIn, found]
  exact if_neg notDir

theorem names_of_noDir (none : NoDir img sb sb.ninodes) : img.names sb = [] := by
  rw [Image.names, List.flatMap_eq_nil_iff]
  intro d inRange
  exact namesIn_of_noDir none (List.mem_range.mp inRange)

/-- The names of all directories are those of the first and those of the later ones. -/
theorem names_of_first {d : ℕ} (first : IsFirst img sb d ip) :
    img.names sb = named (img.listing ip) ++
      (List.range' (d + 1) (sb.ninodes - (d + 1))).flatMap (img.namesIn sb) := by
  have inRange := first.isDir.1
  have split : List.range sb.ninodes =
      List.range d ++ d :: List.range' (d + 1) (sb.ninodes - (d + 1)) := by
    have total : sb.ninodes = d + (sb.ninodes - (d + 1) + 1) := by omega
    conv_lhs => rw [total]
    rw [List.range_eq_range', List.range_eq_range', ← List.range'_append_1, Nat.zero_add,
      List.range'_succ]
  have before : (List.range d).flatMap (img.namesIn sb) = [] := by
    rw [List.flatMap_eq_nil_iff]
    intro i below
    exact namesIn_of_noDir first.before (List.mem_range.mp below)
  rw [Image.names, split, List.flatMap_append, before, List.nil_append, List.flatMap_cons,
    namesIn_of_dir first.isDir]

theorem toNat_tally {xs : List ℕ} {i : ℕ} (small : xs.count i < 2 ^ 32) :
    (tally xs (fun _ => (0 : Word)) i).toNat = xs.count i := by
  have value : tally xs (fun _ => (0 : Word)) i = BitVec.ofNat 32 (xs.count i) := by
    rw [tally_apply]
    exact BitVec.zero_add _
  rw [value, BitVec.toNat_ofNat, Nat.mod_eq_of_lt small]

/-- The array holds the numbers of names exactly when later directories name nothing. -/
theorem counts_exact_iff (inums : ∀ d ip, IsDir img sb d ip → ∀ e ∈ img.listing ip,
      e.inum.toNat < sb.ninodes) (returned : checkInodeRef img sb (fun _ => 0) = .ok ins) :
    (∀ i < sb.ninodes, (ins i).toNat = (img.names sb).count i) ↔ OneDir img sb := by
  rcases checkInodeRef_eq_ok.mp returned with ⟨none, rfl⟩ | ⟨d, ip, _, first, counted⟩
  · rw [names_of_noDir none]
    refine ⟨fun _ d ip first => ?_, fun _ i _ => rfl⟩
    rcases none d first.isDir.1 with ⟨ip', found, notDir⟩
    rw [first.isDir.2.1] at found
    cases found
    exact absurd first.isDir.2.2 notDir
  · have value : ∀ i, (ins i).toNat = (named (img.listing ip)).count i := by
      intro i
      rw [counted.counts]
      exact toNat_tally ((count_named_lt i).trans (by decide))
    rw [names_of_first first]
    simp only [value, List.count_append]
    constructor
    · intro exact d' ip' first' d'' after inRange
      obtain ⟨rfl, rfl⟩ := first.eq first'
      by_contra nonempty
      rcases List.exists_mem_of_ne_nil _ nonempty with ⟨i, mem⟩
      rcases isDir_of_mem_namesIn inRange mem with ⟨ip'', isDir⟩
      have small : i < sb.ninodes := by
        rw [namesIn_of_dir isDir] at mem
        rcases mem_named.mp mem with ⟨e, listed, _, rfl⟩
        exact inums d'' ip'' isDir e listed
      have positive : 0 < ((List.range' (d + 1) (sb.ninodes - (d + 1))).flatMap
          (img.namesIn sb)).count i := by
        rw [List.count_pos_iff, List.mem_flatMap]
        exact ⟨d'', by rw [List.mem_range'_1]; omega, mem⟩
      have := exact i small
      omega
    · intro one i _
      have none : (List.range' (d + 1) (sb.ninodes - (d + 1))).flatMap (img.namesIn sb) = [] := by
        rw [List.flatMap_eq_nil_iff]
        intro d' mem
        rw [List.mem_range'_1] at mem
        exact one d ip first d' (by omega) (by omega)
      rw [none, List.count_nil, Nat.add_zero]

/-! ## Links -/

/-- The link count of every file is the number of its names, and no directory has two names. -/
structure LinksExact (img : Image) (sb : Superblock) : Prop where
  files : ∀ i < sb.ninodes, ∀ ip, img.inode sb i = some ip → ip.type = T_FILE →
    ip.nlink.toInt = (img.names sb).count i
  dirs : ∀ d ip, IsDir img sb d ip → (img.names sb).count d ≤ 1

theorem toInt_eq_of_signExtend {nlink : Half} {n : Word} (small : n.toNat < 2 ^ 31)
    (same : nlink.signExtend 32 = n) : nlink.toInt = n.toNat := by
  rw [← BitVec.toInt_eq_toNat_of_lt (x := n) (by omega), ← same,
    BitVec.toInt_signExtend_of_le (by decide)]

/-- Exact counters make the link counts exact. -/
theorem linksExact_of_counts (passes : Passes img sb)
    (returned : checkInodeRef img sb (fun _ => 0) = .ok ins)
    (exact : ∀ i < sb.ninodes, (ins i).toNat = (img.names sb).count i) : LinksExact img sb := by
  rcases passes.links with ⟨ins', returned', links, extra⟩
  rw [returned] at returned'
  cases returned'
  have small : ∀ i, (ins i).toNat < 2 ^ 31 := by
    intro i
    rcases checkInodeRef_eq_ok.mp returned with ⟨_, rfl⟩ | ⟨d, ip, _, _, counted⟩
    · exact (by decide : (0 : ℕ) < 2 ^ 31)
    · rw [counted.counts, toNat_tally ((count_named_lt i).trans (by decide))]
      exact count_named_lt i
  constructor
  · intro i inRange ip found type
    rcases checkBadLinks_eq_ok.mp links i inRange with ⟨ip', found', same⟩
    rw [found] at found'
    cases found'
    rw [← exact i inRange]
    exact toInt_eq_of_signExtend (small i) (same type)
  · intro d ip isDir
    rcases checkExtraLink_eq_ok.mp extra d isDir.1 with ⟨ip', found', once⟩
    rw [isDir.2.1] at found'
    cases found'
    rw [← exact d isDir.1]
    exact BitVec.le_def.mp (once isDir.2.2)

/-- The counts of `checkInodeRef`, and with them the link counts that `main` has checked, are right
exactly when the directories after the first name nothing. -/
theorem counts_and_links_exact_iff (super : img.super = some sb)
    (inums : ∀ d ip, IsDir img sb d ip → ∀ e ∈ img.listing ip, e.inum.toNat < sb.ninodes)
    (returned : checkInodeRef img sb (fun _ => 0) = .ok ins) :
    ((∀ i < sb.ninodes, (ins i).toNat = (img.names sb).count i) ∧
      (main img = .ok () → LinksExact img sb)) ↔ OneDir img sb := by
  rw [← counts_exact_iff inums returned]
  refine ⟨fun both => both.1, fun exact => ⟨exact, fun accepted => ?_⟩⟩
  rcases main_eq_ok.mp accepted with ⟨sb', super', passes⟩
  rw [super] at super'
  cases super'
  exact linksExact_of_counts passes returned exact

/-- The root directory with one file in it. -/
def oneFile : Image :=
  smallImage [unused, smallInode T_DIR 1 4 0, smallInode T_FILE 1 0 0] 0x1f
    [smallBlock [(1, dot), (1, dotdot), (2, [0x61])]]

theorem super_oneFile : oneFile.super = some smallSb := by decide +kernel

theorem isDir_oneFile {d : ℕ} (isDir : IsDir oneFile smallSb d ip) : d = 1 := by
  apply forall_isDir _ isDir
  decide +kernel

theorem inums_oneFile : ∀ d ip, IsDir oneFile smallSb d ip → ∀ e ∈ oneFile.listing ip,
    e.inum.toNat < smallSb.ninodes := by
  intro d ip
  apply forall_isDir
  decide +kernel

/-- An image with one file besides the root directory. -/
theorem counts_and_links_exact_oneFile : ∃ ins,
    checkInodeRef oneFile smallSb (fun _ => 0) = .ok ins ∧
      (∀ i < smallSb.ninodes, (ins i).toNat = (oneFile.names smallSb).count i) ∧
      (main oneFile = .ok () → LinksExact oneFile smallSb) := by
  have outcome : (checkInodeRef oneFile smallSb fun _ => 0).toOption.map (fun ins => ins 2) =
      some 1 := by
    decide +kernel
  rcases Prog.ok_of_evaluated outcome with ⟨ins, returned, _⟩
  have later : ∀ d ∈ List.range 4, d ≠ 1 → oneFile.namesIn smallSb d = [] := by decide +kernel
  refine ⟨ins, returned, (counts_and_links_exact_iff super_oneFile inums_oneFile returned).mpr ?_⟩
  intro d ip first d' after inRange
  have isOne := isDir_oneFile first.isDir
  exact later d' (List.mem_range.mpr inRange) (by omega)

/-- A file that has a name in the root and one in a directory below it. -/
def twoDirs : Image :=
  smallImage [unused, smallInode T_DIR 1 4 0, smallInode T_DIR 1 5 0, smallInode T_FILE 2 0 0] 0x3f
    [smallBlock [(1, dot), (1, dotdot), (2, [0x64]), (3, [0x61])],
      smallBlock [(2, dot), (1, dotdot), (3, [0x61])]]

/-- The file has two names, and `checkInodeRef` counts one. -/
theorem not_counts_exact_twoDirs : ¬∀ (img : Image) (sb : Superblock) (ins : ℕ → Word),
    img.super = some sb → (∀ d ip, IsDir img sb d ip → ∀ e ∈ img.listing ip,
      e.inum.toNat < sb.ninodes) → checkInodeRef img sb (fun _ => 0) = .ok ins →
    (∀ i < sb.ninodes, (ins i).toNat = (img.names sb).count i) ∧
      (main img = .ok () → LinksExact img sb) := by
  intro exact
  have outcome : (checkInodeRef twoDirs smallSb fun _ => 0).toOption.map (fun ins => ins 3) =
      some 1 := by
    decide +kernel
  rcases Prog.ok_of_evaluated outcome with ⟨ins, returned, one⟩
  have inums : ∀ d ip, IsDir twoDirs smallSb d ip → ∀ e ∈ twoDirs.listing ip,
      e.inum.toNat < smallSb.ninodes := by
    intro d ip
    apply forall_isDir
    decide +kernel
  have two : (twoDirs.names smallSb).count 3 = 2 := by decide +kernel
  have same := (exact twoDirs smallSb ins (by decide +kernel) inums returned).1 3 (by decide)
  rw [one, two] at same
  revert same
  decide

/-! ## Entries that name free inodes -/

/-- The entries of the first directory pass `checekValidDir`, and those that are not counted name
inodes in use. -/
structure Valid (img : Image) (sb : Superblock) : Prop where
  counted : ∀ d ip, IsFirst img sb d ip →
    checekValidDir img sb (tally (named (img.listing ip)) fun _ => 0) = .ok ()
  skipped : ∀ d ip, IsDir img sb d ip → ∀ e ∈ img.listing ip, e.inum ≠ 0 →
    ¬(IsFirst img sb d ip ∧ counts e) → InUse img sb e.inum.toNat

/-- An accepted image has counted the entries of its first directory. -/
theorem Passes.counted (passes : Passes img sb) {d : ℕ} (first : IsFirst img sb d ip) :
    ∃ ins, checkInodeRef img sb (fun _ => 0) = .ok ins ∧ Counted img sb ip (fun _ => 0) ins := by
  rcases passes.links with ⟨ins, returned, _⟩
  refine ⟨ins, returned, ?_⟩
  rcases checkInodeRef_eq_ok.mp returned with ⟨none, _⟩ | ⟨d', ip', _, first', counted⟩
  · rcases none d first.isDir.1 with ⟨ip', found, notDir⟩
    rw [first.isDir.2.1] at found
    cases found
    exact absurd first.isDir.2.2 notDir
  · obtain ⟨rfl, rfl⟩ := first.eq first'
    exact counted

theorem toNat_inum_ne_zero {e : Dirent} (nonzero : e.inum ≠ 0) : e.inum.toNat ≠ 0 :=
  fun zero => nonzero (BitVec.eq_of_toNat_eq zero)

theorem tally_named_ne_zero {i : ℕ} : tally (named (img.listing ip)) (fun _ => (0 : Word)) i ≠ 0 ↔
    i ∈ named (img.listing ip) := by
  have small : (named (img.listing ip)).count i < 2 ^ 31 := count_named_lt i
  rw [← List.count_pos_iff, ← toNat_tally (small.trans (by decide)), Nat.pos_iff_ne_zero, Ne, Ne,
    ← BitVec.toNat_inj]
  rfl

/-- When `main` returns 0, every entry names an inode in use exactly if the entries of the first
directory pass `checekValidDir` and the other ones name inodes in use. -/
theorem entries_inUse_iff (super : img.super = some sb) (accepted : main img = .ok ()) :
    (∀ d ip, IsDir img sb d ip → ∀ e ∈ img.listing ip, e.inum ≠ 0 →
      InUse img sb e.inum.toNat) ↔ Valid img sb := by
  rcases main_eq_ok.mp accepted with ⟨sb', super', passes⟩
  rw [super] at super'
  cases super'
  constructor
  · intro inUse
    refine ⟨fun d ip first => ?_, fun d ip isDir e mem nonzero _ => inUse d ip isDir e mem nonzero⟩
    rw [checekValidDir_eq_ok]
    intro i _ counted
    rcases mem_named.mp (tally_named_ne_zero.mp counted) with ⟨e, mem, counts, rfl⟩
    exact (inUse d ip first.isDir e mem counts.1).2
  · rintro ⟨counted, skipped⟩ d ip isDir e mem nonzero
    by_cases seen : IsFirst img sb d ip ∧ counts e
    · rcases passes.counted seen.1 with ⟨ins, _, all⟩
      have isNamed : e.inum.toNat ∈ named (img.listing ip) :=
        mem_named.mpr ⟨e, mem, seen.2, rfl⟩
      have inside := all.inside _ isNamed
      exact ⟨inside, checekValidDir_eq_ok.mp (counted d ip seen.1) _ inside
        (tally_named_ne_zero.mpr isNamed)⟩
    · exact skipped d ip isDir e mem nonzero seen

theorem main_oneFile : main oneFile = .ok () := by decide +kernel

theorem inUse_oneFile : ∀ d ip, IsDir oneFile smallSb d ip → ∀ e ∈ oneFile.listing ip, e.inum ≠ 0 →
    InUse oneFile smallSb e.inum.toNat := by
  intro d ip
  apply forall_isDir
  decide +kernel

/-- The one file is in use. -/
theorem entries_inUse_oneFile : main oneFile = .ok () ∧
    ∀ d ip, IsDir oneFile smallSb d ip → ∀ e ∈ oneFile.listing ip, e.inum ≠ 0 →
      InUse oneFile smallSb e.inum.toNat := by
  refine ⟨main_oneFile, (entries_inUse_iff super_oneFile main_oneFile).mpr ⟨?_, ?_⟩⟩
  · intro d ip first
    have isDir := first.isDir
    revert isDir
    apply forall_isDir
    decide +kernel
  · intro d ip isDir e mem nonzero _
    exact inUse_oneFile d ip isDir e mem nonzero

/-- The root directory with an entry for inode 2, which is free. -/
def dangling : Image :=
  smallImage [unused, smallInode T_DIR 1 4 0] 0x1f
    [smallBlock [(1, dot), (1, dotdot), (2, [0x61])]]

/-- An entry `a` of the root names a free inode. -/
theorem not_entries_inUse_dangling : ¬∀ (img : Image) (sb : Superblock), img.super = some sb →
    main img = .ok () → ∀ d ip, IsDir img sb d ip → ∀ e ∈ img.listing ip, e.inum ≠ 0 →
      InUse img sb e.inum.toNat := by
  intro inUse
  have found : ∃ ip ∈ (dangling.inode smallSb 1).toList, ip.type = T_DIR ∧
      ∃ e ∈ dangling.listing ip, e.inum = 2 := by
    decide +kernel
  rcases found with ⟨ip, mem, isDir, e, listed, two⟩
  have used := inUse dangling smallSb (by decide +kernel) (by decide +kernel) 1 ip
    ⟨by decide, Option.mem_toList.mp mem, isDir⟩ e listed (by rw [two]; decide)
  rw [two] at used
  revert used
  decide +kernel

/-! ## The root -/

/-- Inode 1 is a directory, and all others in use have a name. -/
structure Rooted (img : Image) (sb : Superblock) : Prop where
  root : ∃ ip, IsDir img sb ROOTINO ip
  named : ∀ i, i ≠ ROOTINO → InUse img sb i → ∃ d ip, IsDir img sb d ip ∧
    i ∈ named (img.listing ip)

/-- When `main` returns 0, there is a root and no orphan exactly if inode 1 is in use and inode 0
is not. -/
theorem rooted_iff (super : img.super = some sb) (accepted : main img = .ok ()) :
    Rooted img sb ↔ InUse img sb ROOTINO ∧ ¬InUse img sb 0 := by
  rcases main_eq_ok.mp accepted with ⟨sb', super', passes⟩
  rw [super] at super'
  cases super'
  constructor
  · rintro ⟨⟨ip, inRange, found, isDir⟩, isNamed⟩
    refine ⟨⟨inRange, ip, found, ?_⟩, fun inUse => ?_⟩
    · rw [isDir]
      decide
    · rcases isNamed 0 (by decide) inUse with ⟨d, ip', _, mem⟩
      rcases mem_named.mp mem with ⟨e, _, counted, zero⟩
      exact toNat_inum_ne_zero counted.1 zero
  · rintro ⟨⟨inRange, ip, found, used⟩, free⟩
    have root : IsDir img sb ROOTINO ip := by
      rcases checkBadInode_eq_ok.mp passes.inodes 1 inRange with ⟨ip', found', _, type⟩
      rw [found] at found'
      cases found'
      exact ⟨inRange, found, (type rfl).resolve_left used⟩
    have first : IsFirst img sb ROOTINO ip := by
      refine ⟨root, fun i below => ?_⟩
      obtain rfl : i = 0 := Nat.lt_one_iff.mp below
      rcases checkBadInode_eq_ok.mp passes.inodes 0 (by omega) with ⟨ip', found', _⟩
      refine ⟨ip', found', fun isDir => free ⟨by omega, ip', found', ?_⟩⟩
      rw [isDir]
      decide
    refine ⟨⟨ip, root⟩, ?_⟩
    rintro i notRoot ⟨inRange', ip', found', used'⟩
    have notZero : i ≠ 0 := by
      rintro rfl
      exact free ⟨inRange', ip', found', used'⟩
    rcases passes.counted first with ⟨ins, _, counted⟩
    have notOne : i ≠ 1 := notRoot
    rcases counted.used i (by omega) inRange' with ⟨ip'', found'', nonzero⟩
    rw [found'] at found''
    cases found''
    have positive := nonzero used'
    rw [counted.counts] at positive
    exact ⟨ROOTINO, ip, root, tally_named_ne_zero.mp positive⟩

/-- The checker accepts the image, and its root is inode 1. -/
theorem rooted_oneFile : main oneFile = .ok () ∧ Rooted oneFile smallSb :=
  ⟨main_oneFile, (rooted_iff super_oneFile main_oneFile).mpr (by decide +kernel)⟩

/-- In an image without any inode in use, every check returns 1. -/
theorem not_rooted_empty : ¬∀ (img : Image) (sb : Superblock), img.super = some sb →
    main img = .ok () → Rooted img sb := by
  intro rooted
  rcases (rooted (smallImage [] 0x0f []) smallSb (by decide +kernel) (by decide +kernel)).root with
    ⟨ip, isDir⟩
  revert isDir
  apply forall_isDir (P := fun _ _ => False)
  decide +kernel

end Xv6.Checker
