import Xv6.Checker.Links

/-!
# The parent check

`checkParentDir` looks up `..` in every inode that an entry of a directory names, and
asks for the number of the directory. It makes no exception for the entry `.`, so a
directory is accepted only if it is its own parent. That is right for the root, and for
no other directory of a tree.
-/

namespace Xv6.Checker

open Fs Check

variable {img : Image} {sb : Superblock} {ip : Dinode}

/-- Every entry of a directory that is a directory itself has this directory for `..`. -/
theorem checkParentDir_eq_ok {u : Unit} : checkParentDir img sb = .ok u ↔
    ∀ i < sb.ninodes, ∃ ip, img.inode sb i = some ip ∧ (ip.type = T_DIR → img.Readable ip ∧
      ∀ e ∈ img.listing ip, ∃ p, getInum img sb e.inum.toNat dotdot = .ok p ∧
        (0 < p % 2 ^ 32 → p % 2 ^ 32 = i)) := by
  rw [checkParentDir, forM_inodes_eq_ok]
  refine forall₂_congr fun i inRange => exists_congr fun ip => and_congr_right fun found => ?_
  by_cases isDir : ip.type = T_DIR
  · rw [if_neg (not_not.mpr isDir), forBlocks_eq_ok, foldlM_unit_eq_ok]
    simp only [isDir, true_imp_iff, forM_eq_ok, bind_eq_ok, failIf_eq_ok, Image.listing,
      List.mem_flatMap, not_and, not_not, ne_eq]
    refine and_congr_right fun _ => ?_
    constructor
    · rintro all e ⟨data, mem, listed⟩
      exact all data mem e listed
    · intro all data mem e listed
      exact all e ⟨data, mem, listed⟩
  · rw [if_pos isDir]
    exact ⟨fun _ holds => absurd holds isDir, fun _ => rfl⟩

/-- The entry has the name `..`. -/
def IsDotdot (e : Dirent) : Prop := strncmp DIRSIZ dotdot e.name = true

/-- The inode number that `..` has in a directory. -/
def Image.parent (img : Image) (ip : Dinode) : Option ℕ :=
  (img.lookup ip dotdot).map fun e => e.inum.toNat

/-- Every directory has `.` and `..`, its entries `.` name it, and no number is too large. -/
structure Dotted (img : Image) (sb : Superblock) : Prop where
  self : ∀ d ip, IsDir img sb d ip → ∃ e ∈ img.listing ip, e.inum ≠ 0 ∧
    strncmp DIRSIZ dot e.name = true
  selves : ∀ d ip, IsDir img sb d ip → ∀ e ∈ img.listing ip, e.inum ≠ 0 →
    strncmp DIRSIZ dot e.name = true → e.inum.toNat = d
  parent : ∀ d ip, IsDir img sb d ip → ∃ e, img.lookup ip dotdot = some e ∧ e.inum ≠ 0
  inums : ∀ d ip, IsDir img sb d ip → ∀ e ∈ img.listing ip, e.inum.toNat < sb.ninodes

/-- The inodes and the blocks of the directories lie in the image. -/
structure AllReadable (img : Image) (sb : Superblock) : Prop where
  inodes : ∀ i < sb.ninodes, (img.inode sb i).isSome
  dirs : ∀ d ip, IsDir img sb d ip → img.Readable ip

/-- A proper tree: the root is its own parent, every other directory has a name in its parent, and
the names of directories are in their parents only. -/
structure Proper (img : Image) (sb : Superblock) : Prop where
  root : ∃ ip, IsDir img sb ROOTINO ip ∧ img.parent ip = some ROOTINO
  others : ∀ d ip, IsDir img sb d ip → d ≠ ROOTINO → ∃ p ip', img.parent ip = some p ∧
    IsDir img sb p ip' ∧ d ∈ named (img.listing ip')
  found : ∀ i ip, IsDir img sb i ip → ∀ d ip', IsDir img sb d ip' → d ∈ named (img.listing ip) →
    img.parent ip' = some i

/-- Every directory is its own parent and names no other directory. -/
structure Looped (img : Image) (sb : Superblock) : Prop where
  parent : ∀ d ip, IsDir img sb d ip → img.parent ip = some d
  alone : ∀ d ip, IsDir img sb d ip → ∀ e ∈ img.listing ip, ∀ ip',
    IsDir img sb e.inum.toNat ip' → e.inum.toNat = d

theorem Dotted.not_isDir_zero (dotted : Dotted img sb) : ¬IsDir img sb 0 ip := by
  intro isDir
  rcases dotted.self 0 ip isDir with ⟨e, mem, nonzero, name⟩
  exact toNat_inum_ne_zero nonzero (dotted.selves 0 ip isDir e mem nonzero name)

/-- What `checkParentDir` asks of an entry that names a directory. -/
theorem parent_iff (dotted : Dotted img sb) (readable : AllReadable img sb) {d i : ℕ}
    (inRange : d < sb.ninodes) : (∃ p, getInum img sb d dotdot = .ok p ∧
      (0 < p % 2 ^ 32 → p % 2 ^ 32 = i)) ↔ ∀ ip, IsDir img sb d ip → img.parent ip = some i := by
  rcases Option.isSome_iff_exists.mp (readable.inodes d inRange) with ⟨ip, found⟩
  by_cases type : ip.type = T_DIR
  · have isDir : IsDir img sb d ip := ⟨inRange, found, type⟩
    rcases dotted.parent d ip isDir with ⟨e, lookup, nonzero⟩
    rw [getInum_of_dir found type (readable.dirs d ip isDir), lookup]
    have small : e.inum.toNat < 2 ^ 16 := e.inum.isLt
    have positive := toNat_inum_ne_zero nonzero
    have value : (inumOf (some e)) % 2 ^ 32 = e.inum.toNat := by
      simp only [inumOf]
      omega
    have parent : img.parent ip = some e.inum.toNat := by rw [Image.parent, lookup]; rfl
    constructor
    · rintro ⟨p, same, agrees⟩ ip' isDir'
      cases same
      have found' := isDir'.2.1
      rw [found] at found'
      cases found'
      rw [parent]
      rw [value] at agrees
      have := agrees (by omega)
      congr
      omega
    · intro all
      have same := all ip isDir
      rw [parent] at same
      refine ⟨_, rfl, fun _ => ?_⟩
      rw [value, Option.some.inj same]
  · rw [getInum_of_not_dir found type]
    constructor
    · intro _ ip' isDir
      have found' := isDir.2.1
      rw [found] at found'
      cases found'
      exact absurd isDir.2.2 type
    · intro _
      exact ⟨0, rfl, fun positive => absurd positive (by decide)⟩

/-- As `.` is an entry as well, every directory has to be its own parent. -/
theorem checkParentDir_iff_looped (dotted : Dotted img sb) :
    checkParentDir img sb = .ok () ↔ AllReadable img sb ∧ Looped img sb := by
  have entries : AllReadable img sb → ((∀ i ip, IsDir img sb i ip → ∀ e ∈ img.listing ip,
      ∃ p, getInum img sb e.inum.toNat dotdot = .ok p ∧ (0 < p % 2 ^ 32 → p % 2 ^ 32 = i)) ↔
        Looped img sb) := by
    intro readable
    constructor
    · intro all
      have parents : ∀ i ip, IsDir img sb i ip → ∀ e ∈ img.listing ip, ∀ ip',
          IsDir img sb e.inum.toNat ip' → img.parent ip' = some i := fun i ip isDir e mem =>
        (parent_iff dotted readable (dotted.inums i ip isDir e mem)).mp (all i ip isDir e mem)
      -- The entry `.` asks the parent of the directory itself.
      have own : ∀ d ip, IsDir img sb d ip → img.parent ip = some d := by
        intro d ip isDir
        rcases dotted.self d ip isDir with ⟨e, mem, nonzero, name⟩
        have self := dotted.selves d ip isDir e mem nonzero name
        exact parents d ip isDir e mem ip (by rwa [self])
      refine ⟨own, fun d ip isDir e mem ip' isDir' => ?_⟩
      have same := parents d ip isDir e mem ip' isDir'
      rw [own _ ip' isDir'] at same
      exact Option.some.inj same
    · intro looped i ip isDir e mem
      refine (parent_iff dotted readable (dotted.inums i ip isDir e mem)).mpr fun ip' isDir' => ?_
      rw [looped.parent _ ip' isDir', looped.alone i ip isDir e mem ip' isDir']
  rw [checkParentDir_eq_ok]
  constructor
  · intro all
    have readable : AllReadable img sb := by
      constructor
      · intro i inRange
        rcases all i inRange with ⟨ip, found, _⟩
        rw [found]
        rfl
      · intro d ip isDir
        rcases all d isDir.1 with ⟨ip', found, rest⟩
        rw [isDir.2.1] at found
        cases found
        exact (rest isDir.2.2).1
    refine ⟨readable, (entries readable).mp fun i ip isDir => ?_⟩
    rcases all i isDir.1 with ⟨ip', found, rest⟩
    rw [isDir.2.1] at found
    cases found
    exact (rest isDir.2.2).2
  · rintro ⟨readable, looped⟩ i inRange
    rcases Option.isSome_iff_exists.mp (readable.inodes i inRange) with ⟨ip, found⟩
    exact ⟨ip, found, fun type => ⟨readable.dirs i ip ⟨inRange, found, type⟩,
      (entries readable).mpr looped i ip ⟨inRange, found, type⟩⟩⟩

/-- In a proper tree all directories can be read and none has another directory as its parent, and
if all directories are loops, there is a root and each other one has a name in itself. -/
structure Flat (img : Image) (sb : Superblock) : Prop where
  tree : Proper img sb → AllReadable img sb ∧ ∀ d ip, IsDir img sb d ip → ∀ e ∈ img.listing ip,
    IsDotdot e → ∀ ip', IsDir img sb e.inum.toNat ip' → e.inum.toNat = d
  loops : AllReadable img sb → Looped img sb → (∃ ip, IsDir img sb ROOTINO ip) ∧
    ∀ d ip, IsDir img sb d ip → d ≠ ROOTINO → d ∈ named (img.listing ip)

theorem IsDir.eq {d : ℕ} {ip' : Dinode} (first : IsDir img sb d ip) (second : IsDir img sb d ip') :
    ip = ip' := by
  have found := first.2.1
  rw [second.2.1] at found
  exact (Option.some.inj found).symm

/-- Where every `..` leads to the directory itself, proper parents are loops. -/
theorem Looped.of_proper (dotted : Dotted img sb) (proper : Proper img sb)
    (dotdots : ∀ d ip, IsDir img sb d ip → ∀ e ∈ img.listing ip, IsDotdot e → ∀ ip',
      IsDir img sb e.inum.toNat ip' → e.inum.toNat = d) : Looped img sb := by
  have parent : ∀ d ip, IsDir img sb d ip → img.parent ip = some d := by
    intro d ip isDir
    by_cases isRoot : d = ROOTINO
    · rcases proper.root with ⟨ip', isDir', parent⟩
      rw [isRoot] at isDir
      rw [isDir.eq isDir', parent, isRoot]
    · rcases proper.others d ip isDir isRoot with ⟨p, ip', parent, isDir', _⟩
      rcases Option.map_eq_some_iff.mp parent with ⟨e, lookup, rfl⟩
      have isDotdot : IsDotdot e := by
        rw [Image.lookup] at lookup
        exact List.find?_some (p := fun e : Dirent => strncmp DIRSIZ dotdot e.name) lookup
      rw [parent, dotdots d ip isDir e (List.mem_of_find?_eq_some lookup) isDotdot ip' isDir']
  refine ⟨parent, fun d ip isDir e mem ip' isDir' => ?_⟩
  by_cases dotdot : IsDotdot e
  · exact dotdots d ip isDir e mem dotdot ip' isDir'
  · have nonzero : e.inum ≠ 0 := by
      intro zero
      rw [zero] at isDir'
      exact dotted.not_isDir_zero isDir'
    by_cases self : strncmp DIRSIZ dot e.name = true
    · exact dotted.selves d ip isDir e mem nonzero self
    · have counted : counts e := ⟨nonzero, Bool.eq_false_iff.mpr dotdot, Bool.eq_false_iff.mpr self⟩
      have named := mem_named.mpr ⟨e, mem, counted, rfl⟩
      have same := proper.found d ip isDir e.inum.toNat ip' isDir' named
      rw [parent _ ip' isDir'] at same
      exact Option.some.inj same

/-- Where every directory but the root names itself, loops are proper parents. -/
theorem Proper.of_looped (looped : Looped img sb) (root : ∃ ip, IsDir img sb ROOTINO ip)
    (selves : ∀ d ip, IsDir img sb d ip → d ≠ ROOTINO → d ∈ named (img.listing ip)) :
    Proper img sb := by
  refine ⟨?_, ?_, ?_⟩
  · rcases root with ⟨ip, isDir⟩
    exact ⟨ip, isDir, looped.parent _ ip isDir⟩
  · intro d ip isDir notRoot
    exact ⟨d, ip, looped.parent d ip isDir, isDir, selves d ip isDir notRoot⟩
  · intro i ip isDir d ip' isDir' isNamed
    rcases mem_named.mp isNamed with ⟨e, mem, _, rfl⟩
    rw [looped.parent _ ip' isDir', looped.alone i ip isDir e mem ip' isDir']

/-- `checkParentDir` tells the proper trees from other images exactly if the image is flat. -/
theorem accepts_trees_iff (dotted : Dotted img sb) :
    (checkParentDir img sb = .ok () ↔ Proper img sb) ↔ Flat img sb := by
  rw [checkParentDir_iff_looped dotted]
  constructor
  · intro exact
    refine ⟨fun proper => ?_, fun readable looped => ?_⟩
    · rcases exact.mpr proper with ⟨readable, looped⟩
      exact ⟨readable, fun d ip isDir e mem _ => looped.alone d ip isDir e mem⟩
    · have proper := exact.mp ⟨readable, looped⟩
      rcases proper.root with ⟨root, isDir, _⟩
      refine ⟨⟨root, isDir⟩, fun d ip isDir notRoot => ?_⟩
      rcases proper.others d ip isDir notRoot with ⟨p, ip', parent, isDir', isNamed⟩
      rw [looped.parent d ip isDir] at parent
      cases parent
      rwa [isDir.eq isDir']
  · intro flat
    constructor
    · rintro ⟨readable, looped⟩
      rcases flat.loops readable looped with ⟨root, selves⟩
      exact Proper.of_looped looped root selves
    · intro proper
      rcases flat.tree proper with ⟨readable, dotdots⟩
      exact ⟨readable, Looped.of_proper dotted proper dotdots⟩

/-- What the lists of entries have to show for a dotted image. -/
theorem dotted_of_checked (self : ∀ d ip, IsDir img sb d ip → ∃ e ∈ img.listing ip, e.inum ≠ 0 ∧
      strncmp DIRSIZ dot e.name = true)
    (selves : ∀ d ip, IsDir img sb d ip → ∀ e ∈ img.listing ip, e.inum ≠ 0 →
      strncmp DIRSIZ dot e.name = true → e.inum.toNat = d)
    (parent : ∀ d ip, IsDir img sb d ip → (img.lookup ip dotdot).any fun e => e.inum ≠ 0)
    (inums : ∀ d ip, IsDir img sb d ip → ∀ e ∈ img.listing ip, e.inum.toNat < sb.ninodes) :
    Dotted img sb := by
  refine ⟨self, selves, fun d ip isDir => ?_, inums⟩
  rcases (Option.any_eq_true _ _).mp (parent d ip isDir) with ⟨e, lookup, nonzero⟩
  exact ⟨e, lookup, of_decide_eq_true nonzero⟩

theorem dotted_oneFile : Dotted oneFile smallSb := by
  apply dotted_of_checked <;>
    intro d ip <;>
    apply forall_isDir <;>
    decide +kernel

/-- The root is its own parent. -/
theorem accepts_trees_oneFile :
    Dotted oneFile smallSb ∧ (checkParentDir oneFile smallSb = .ok () ↔
      Proper oneFile smallSb) := by
  refine ⟨dotted_oneFile, (accepts_trees_iff dotted_oneFile).mpr ⟨fun _ => ⟨⟨?_, ?_⟩, ?_⟩, ?_⟩⟩
  · decide +kernel
  · intro d ip isDir
    have addresses : ip.addr NDIRECT = 0 ∧ oneFile.addrs ip = [4] := by
      apply forall_isDir _ isDir
      decide +kernel
    refine ⟨fun used => absurd addresses.1 used, ?_⟩
    rw [addresses.2, List.forall_mem_singleton]
    decide +kernel
  · intro d ip isDir e _ _ ip' isDir'
    rw [isDir_oneFile isDir, isDir_oneFile isDir']
  · intro _ _
    have root : ∃ ip ∈ (oneFile.inode smallSb 1).toList, ip.type = T_DIR := by decide +kernel
    rcases root with ⟨ip, mem, isDir⟩
    refine ⟨⟨ip, by decide, Option.mem_toList.mp mem, isDir⟩, fun d ip isDir notRoot => ?_⟩
    exact absurd (isDir_oneFile isDir) notRoot

/-- A root with one subdirectory is as it should be. -/
theorem proper_twoDirs : Proper twoDirs smallSb := by
  refine ⟨?_, fun d ip isDir notRoot => ?_, fun i ip isDir => ?_⟩
  · have root : ∃ ip ∈ (twoDirs.inode smallSb 1).toList, ip.type = T_DIR ∧
        twoDirs.parent ip = some ROOTINO := by
      decide +kernel
    rcases root with ⟨ip, mem, isDir, parent⟩
    exact ⟨ip, ⟨by decide, Option.mem_toList.mp mem, isDir⟩, parent⟩
  · have inRoot : d = ROOTINO ∨ (twoDirs.parent ip = some ROOTINO ∧
        ∃ ip ∈ (twoDirs.inode smallSb 1).toList, ip.type = T_DIR ∧
          d ∈ named (twoDirs.listing ip)) := by
      revert isDir
      apply forall_isDir
      decide +kernel
    rcases inRoot.resolve_left notRoot with ⟨parent, ip', mem, isDir', isNamed⟩
    exact ⟨ROOTINO, ip', parent, ⟨by decide, Option.mem_toList.mp mem, isDir'⟩, isNamed⟩
  · intro d ip' isDir' isNamed
    have roots : ∀ j ∈ named (twoDirs.listing ip), j ≠ 3 → i = ROOTINO ∧ j = 2 := by
      revert isDir
      apply forall_isDir
      decide +kernel
    have parents : d ≠ 3 ∧ twoDirs.parent ip' = some ROOTINO := by
      revert isDir'
      apply forall_isDir
      decide +kernel
    rw [parents.2, (roots d isNamed parents.1).1]

/-- The directory below the root is refused: its `..` is the root. -/
theorem not_accepts_trees_twoDirs : ¬∀ (img : Image) (sb : Superblock), Dotted img sb →
    (checkParentDir img sb = .ok () ↔ Proper img sb) := by
  intro exact
  have dotted : Dotted twoDirs smallSb := by
    apply dotted_of_checked <;>
      intro d ip <;>
      apply forall_isDir <;>
      decide +kernel
  have refused : (checkParentDir twoDirs smallSb).toOption.isSome = false := by decide +kernel
  rw [(exact twoDirs smallSb dotted).mpr proper_twoDirs] at refused
  cases refused

end Xv6.Checker
