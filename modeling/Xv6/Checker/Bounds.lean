import Xv6.Checker.Counts
import Xv6.Checker.Parent
import Xv6.Fs.WriteThrough

/-!
# Array accesses

An access outside an array stops a check with `Stop.bounds`. Before `addresses` is used, the address
check has seen every index. Nothing has looked at the inode numbers in the directories when
`checkInodeRef` counts them.
-/

namespace Xv6.Checker

open Fs Check

variable {img : Image} {sb : Superblock} {ip : Dinode} {ins : ℕ → Word} {E : Stop → Prop}

/-- The errors other than an access outside an array. -/
abbrev Safe (e : Stop) : Prop := e ≠ .bounds

theorem only_rsect (exit : E .exit) (sec : ℕ) : Only E (rsect img sec) := by
  rw [rsect]
  split
  · exact only_pure
  · exact only_throw exit

theorem only_rinode (exit : E .exit) (i : ℕ) : Only E (rinode img sb i) :=
  (only_rsect exit _).bind fun _ _ => only_pure

theorem only_forInodes {body : ℕ → Dinode → CheckM Unit} (each : ∀ i ip, Only Safe (body i ip)) :
    Only Safe (forM (List.range sb.ninodes) fun i => do body i (← rinode img sb i)) :=
  only_forM fun i _ => (only_rinode nofun i).bind fun ip _ => each i ip

theorem only_report {α : Type} {msg : String} {check : CheckM α} (only : Only Safe check) :
    Only Safe (report msg check) := by
  refine only.mapError fun e safe => ?_
  cases e with
  | exit => nofun
  | bounds => exact absurd rfl safe
  | reject printed => nofun

/-- A message does not hide an access outside an array. -/
theorem report_eq_bounds {α : Type} {msg : String} {check : CheckM α} :
    report msg check = .error .bounds ↔ check = .error .bounds := by
  rw [report]
  cases check with
  | ok a => exact iff_of_false nofun nofun
  | error e =>
      cases e with
      | exit => exact iff_of_false nofun nofun
      | bounds => exact iff_of_true rfl rfl
      | reject printed => exact iff_of_false nofun nofun

/-! ## The checks before the references -/

theorem only_checkBadInode : Only Safe (checkBadInode img sb) :=
  only_forInodes fun _ _ => (only_failIf fun _ => nofun).bind fun _ _ => only_failIf fun _ => nofun

theorem only_checkValidAddr : Only Safe (checkValidAddr img sb) := by
  refine only_forInodes fun i ip =>
    (only_forM fun _ _ => only_failIf fun _ => (by rintro ⟨⟩)).bind fun _ _ => ?_
  split
  · exact only_pure
  · exact (only_rsect (by rintro ⟨⟩) _).bind fun _ _ => only_forM fun _ _ => only_failIf fun _ =>
      (by rintro ⟨⟩)

/-- The search for a name stays inside all arrays. -/
theorem only_findName (name : List Byte) (as : List Word) : Only Safe (findName img name as) := by
  induction as with
  | nil => exact only_pure
  | cons a as ih =>
      rw [findName]
      split
      · exact ih
      · refine (only_rsect (by rintro ⟨⟩) _).bind fun data _ => ?_
        split
        · exact only_pure
        · exact ih

theorem only_getInum (i : ℕ) (name : List Byte) : Only Safe (getInum img sb i name) := by
  refine (only_rinode nofun i).bind fun ip _ => ?_
  split
  · exact only_pure
  · refine (only_findName name _).bind fun found _ => ?_
    split
    · exact only_pure
    · split
      · exact only_pure
      · refine (only_rsect nofun _).bind fun data _ => (only_findName name _).bind fun found _ => ?_
        split
        · exact only_pure
        · exact only_pure

theorem only_checkDirFormat (name : List Byte) : Only Safe (checkDirFormat img sb name) := by
  refine only_forInodes fun i ip => ?_
  split
  · exact only_pure
  · exact (only_getInum i name).bind fun _ _ => only_failIf fun _ => (by rintro ⟨⟩)

/-- A loop over the blocks of a file stops in one of its turns, or where a block cannot be read. -/
theorem only_forBlocks {σ : Type} {body : σ → Block → CheckM σ} {s : σ}
    (reads : ∀ a ∈ img.places ip, a ≠ 0 → Only E (rsect img a.toNat))
    (each : ∀ s data, Only E (body s data)) :
    Only E (forBlocks img ip s body) := by
  have turn : ∀ a ∈ img.places ip, ∀ s, Only E (visit img body s a) := by
    intro a place s
    rw [visit]
    split
    next => exact only_pure
    next used => exact (reads a place used).bind fun data _ => each s data
  refine (only_foldlM fun a mem => turn a (List.mem_append_left _ mem)).bind fun s _ => ?_
  split
  next => exact only_pure
  next used =>
    have place : ip.addr NDIRECT ∈ img.places ip := List.mem_append_right _ List.mem_cons_self
    refine (reads _ place used).bind fun data read => only_foldlM fun a mem => turn a ?_
    rw [Image.places, indirect_of_some used (rsect_eq_ok.mp read)]
    exact List.mem_append_right _ (List.mem_cons_of_mem _ mem)

theorem only_checkParentDir : Only Safe (checkParentDir img sb) := by
  refine only_forInodes fun i ip => ?_
  split
  · exact only_pure
  · refine only_forBlocks (fun a _ _ => only_rsect (by rintro ⟨⟩) _) fun _ data =>
      only_forM fun e _ => ?_
    exact (only_getInum _ dotdot).bind fun _ _ => only_failIf fun _ => (by rintro ⟨⟩)

theorem only_bump {n k : ℕ} {array : ℕ → Word} (inside : k < n) : Only E (bump n array k) := by
  rw [bump, if_pos inside]
  exact only_pure

theorem only_markAddr {a : Word} {array : ℕ → Word} (inside : a ≠ 0 → a.toNat < sb.size) :
    Only Safe (markAddr img sb array a) := by
  rw [markAddr]
  split
  next => exact only_pure
  next used =>
    refine (only_bump (inside used)).bind fun _ _ => ?_
    refine ((only_rsect (by rintro ⟨⟩) _).bind fun _ _ => only_pure).bind fun _ _ => ?_
    exact (only_failIf fun _ => (by rintro ⟨⟩)).bind fun _ _ => only_pure

/-- Marking is safe if the addresses are below the size. -/
theorem only_markInode {array : ℕ → Word}
    (inside : ip.type ≠ T_UNALLOC → ∀ a ∈ img.places ip, a ≠ 0 → a.toNat < sb.size) :
    Only Safe (markInode img sb array ip) := by
  rw [markInode]
  split
  next => exact only_pure
  next inUse =>
    refine (only_foldlM fun a mem _ =>
      only_markAddr (inside inUse a (List.mem_append_left _ mem))).bind fun _ _ => ?_
    split
    next => exact only_pure
    next used =>
      have place : ip.addr NDIRECT ∈ img.places ip := List.mem_append_right _ List.mem_cons_self
      refine (only_bump (inside inUse _ place used)).bind fun _ _ =>
        (only_rsect (by rintro ⟨⟩) _).bind fun data read => ?_
      refine only_foldlM fun a mem _ => only_markAddr (inside inUse a ?_)
      rw [Image.places, indirect_of_some used (rsect_eq_ok.mp read)]
      exact List.mem_append_right _ (List.mem_cons_of_mem _ mem)

/-- After the address check all counters of `checkBitmap` are in the array. -/
theorem only_checkBitmap {array : ℕ → Word} (super : img.super = some sb) (positive : 1 ≤ sb.size)
    (valid : checkValidAddr img sb = .ok ()) : Only Safe (checkBitmap img sb array) := by
  have inside : ∀ b ∈ img.allRefs sb, b < sb.size := fun _ => mem_allRefs_lt super positive valid
  refine only_foldlM fun i mem _ => (only_rinode nofun i).bind fun ip found => ?_
  exact only_markInode (forall_allRefs.mp inside i (List.mem_range.mp mem) ip
    (rinode_eq_ok.mp found))

theorem only_checkUsedBlock {array : ℕ → Word} (one : sb.size ≤ BPB) :
    Only Safe (checkUsedBlock img sb array) := by
  refine (only_rsect nofun _).bind fun data _ => only_forM fun i mem => ?_
  refine (only_failIf fun outside => ?_).bind fun _ _ => only_failIf fun _ => nofun
  rw [List.mem_range'_1] at mem
  simp only [BPB, BSIZE] at one outside
  omega

theorem only_checkUsedTimes {array : ℕ → Word} : Only Safe (checkUsedTimes sb array) :=
  only_forM fun _ _ => only_failIf fun _ => nofun

/-! ## The references -/

/-- The blocks of a readable inode can be read. -/
theorem reads_of_readable (readable : img.Readable ip) {a : Word} (place : a ∈ img.places ip)
    (used : a ≠ 0) :
    Only E (rsect img a.toNat) := by
  have found : (img.sector a.toNat).isSome := by
    have last : (img.sector (ip.addr NDIRECT).toNat).isSome ∨ ip.addr NDIRECT = 0 :=
      or_iff_not_imp_right.mpr readable.indirect
    rcases List.mem_append.mp place with low | high
    · exact readable.data a (List.mem_filter.mpr ⟨List.mem_append_left _ low, by simpa using used⟩)
    · rcases List.mem_cons.mp high with rfl | entry
      · exact readable.indirect used
      · exact readable.data a (List.mem_filter.mpr
          ⟨List.mem_append_right _ entry, by simpa using used⟩)
  rcases Option.isSome_iff_exists.mp found with ⟨data, read⟩
  exact only_ok (rsect_eq_ok.mpr read)

/-- The counting of a directory can only fail for an inode number that is too large. -/
theorem countBlocks_eq_bounds (readable : img.Readable ip) :
    forBlocks img ip ins (countDirents sb) = .error .bounds ↔
      ∃ i ∈ named (img.listing ip), sb.ninodes ≤ i := by
  have stops : Only (fun e => e = .bounds) (forBlocks img ip ins (countDirents sb)) := by
    refine only_forBlocks (fun a place used => reads_of_readable readable place used)
      fun ins data => ?_
    refine only_foldlM fun e _ ins => ?_
    split
    · rw [bump]
      split
      · exact only_pure
      · exact only_throw rfl
    · exact only_pure
  rw [stops.eq_error_iff]
  constructor
  · intro fails
    by_contra none
    refine fails _ (countBlocks_eq_ok.mpr ⟨readable, fun i mem => ?_, rfl⟩)
    exact Nat.lt_of_not_le fun large => none ⟨i, mem, large⟩
  · rintro ⟨i, mem, large⟩ ins' returned
    exact absurd ((countBlocks_eq_ok.mp returned).2.1 i mem) (Nat.not_lt.mpr large)

theorem only_checkCounted : Only Safe (checkCounted img sb ins) :=
  (only_forM fun i _ => (only_rinode nofun i).bind fun _ _ => only_failIf fun _ => nofun).bind
    fun _ _ => only_pure

/-- The first directory names an inode that does not exist. -/
def NamesOutside (img : Image) (sb : Superblock) (d : ℕ) : Prop :=
  ∃ ip, IsFirst img sb d ip ∧ ∃ i ∈ named (img.listing ip), sb.ninodes ≤ i

/-- Counting leaves the array exactly if the first directory from there on names an inode outside.
-/
theorem countFrom_eq_bounds {i fuel : ℕ} (readable : ∀ d ip, IsDir img sb d ip → img.Readable ip)
    (inodes : ∀ i < sb.ninodes, ∃ ip, img.inode sb i = some ip) (enough : sb.ninodes ≤ i + fuel)
    (before : NoDir img sb i) :
    countFrom img sb i ins fuel = .error .bounds ↔ ∃ d, i ≤ d ∧ NamesOutside img sb d := by
  have past : ∀ {i fuel}, sb.ninodes ≤ i →
      (countFrom img sb i ins fuel = .error .bounds ↔ ∃ d, i ≤ d ∧ NamesOutside img sb d) := by
    intro i fuel past
    rw [countFrom_past past]
    refine iff_of_false nofun ?_
    rintro ⟨d, above, ip, first, _⟩
    have := first.isDir.1
    omega
  induction fuel generalizing i with
  | zero => exact past (by omega)
  | succ fuel ih =>
      by_cases inRange : i < sb.ninodes
      · rcases inodes i inRange with ⟨ip, found⟩
        have same : rinode img sb i = .ok ip := rinode_eq_ok.mpr found
        rw [countFrom, if_pos inRange, same]
        change (if ip.type ≠ T_DIR then _ else _) = _ ↔ _
        by_cases isDir : ip.type = T_DIR
        · rw [if_neg (not_not.mpr isDir)]
          have first : IsFirst img sb i ip := ⟨⟨inRange, found, isDir⟩, before⟩
          have rest : ∀ ins, Only Safe
              (checkCounted img sb ins >>= fun m => countFrom img sb (m + 1) ins fuel) := by
            intro ins
            refine only_checkCounted.bind fun m counted => ?_
            rw [(checkCounted_eq_ok.mp counted).2, countFrom_past (by omega)]
            exact only_pure
          have reads := readable i ip first.isDir
          rw [bind_eq_error, countBlocks_eq_bounds reads]
          constructor
          · rintro (outside | ⟨ins', _, stopped⟩)
            · exact ⟨i, le_rfl, ip, first, outside⟩
            · exact absurd stopped ((rest ins').ne_error (not_not.mpr rfl))
          · rintro ⟨d, above, ip', first', outside⟩
            rcases above.eq_or_lt with rfl | further
            · have equal := first'.isDir.2.1
              rw [found] at equal
              cases equal
              exact .inl outside
            · rcases first'.before i further with ⟨ip'', found', notDir⟩
              rw [found] at found'
              cases found'
              exact absurd isDir notDir
        · rw [if_pos isDir]
          have later : NoDir img sb (i + 1) := by
            intro k below
            rcases Nat.lt_succ_iff_lt_or_eq.mp below with earlier | rfl
            · exact before k earlier
            · exact ⟨ip, found, isDir⟩
          refine (ih (by omega) later).trans ?_
          refine exists_congr fun d => and_congr_left fun outside =>
            ⟨Nat.le_of_succ_le, fun above => ?_⟩
          rcases above.eq_or_lt with rfl | further
          · rcases outside with ⟨ip', first, _⟩
            have equal := first.isDir.2.1
            rw [found] at equal
            cases equal
            exact absurd first.isDir.2.2 isDir
          · exact further
      · exact past (by omega)

/-- One turn of the loop over the inodes. -/
theorem countFrom_succ (img : Image) (sb : Superblock) (i : ℕ) (ins : ℕ → Word) (fuel : ℕ) :
    countFrom img sb i ins (fuel + 1) = if i < sb.ninodes then (do
      let ip ← rinode img sb i
      if ip.type ≠ T_DIR then countFrom img sb (i + 1) ins fuel
      else do
        let ins ← forBlocks img ip ins (countDirents sb)
        let i ← checkCounted img sb ins
        countFrom img sb (i + 1) ins fuel) else pure ins := rfl

/-- The loop over the inodes takes no more turns than there are inodes. -/
theorem countFrom_enough {i fuel : ℕ} (enough : sb.ninodes ≤ i + fuel) :
    countFrom img sb i ins (fuel + 1) = countFrom img sb i ins fuel := by
  induction fuel generalizing i ins with
  | zero => exact (countFrom_past enough).trans (countFrom_past enough).symm
  | succ fuel ih =>
      rw [countFrom_succ img sb i ins (fuel + 1), countFrom_succ img sb i ins fuel]
      refine if_congr Iff.rfl (bind_congr fun ip => if_congr Iff.rfl (ih (by omega)) ?_) rfl
      refine bind_congr fun ins' => ?_
      cases counted : checkCounted img sb ins' with
      | error e => rfl
      | ok m =>
          have last := (checkCounted_eq_ok.mp counted).2
          change countFrom img sb (m + 1) ins' (fuel + 1) = countFrom img sb (m + 1) ins' fuel
          rw [countFrom_past (by omega), countFrom_past (by omega)]

/-! ## The whole program -/

/-- The checks before `checkInodeRef` return 1. -/
structure Reached (img : Image) (sb : Superblock) : Prop where
  bmapstart : (img.sector sb.bmapstart).isSome
  inodes : checkBadInode img sb = .ok ()
  addrs : checkValidAddr img sb = .ok ()
  dots : checkDirFormat img sb dot = .ok ()
  dotdots : checkDirFormat img sb dotdot = .ok ()
  parents : checkParentDir img sb = .ok ()
  blocks : ∃ addresses, checkBitmap img sb (fun _ => 0) = .ok addresses ∧
    checkUsedBlock img sb addresses = .ok () ∧ checkUsedTimes sb addresses = .ok ()

/-- The check of the references leaves the array exactly if a directory that it counts names an
inode outside. -/
theorem Reached.checkInodeRef_eq_bounds (reached : Reached img sb) :
    checkInodeRef img sb ins = .error .bounds ↔ ∃ d, NamesOutside img sb d := by
  have readable : ∀ d ip, IsDir img sb d ip → img.Readable ip := by
    rintro d ip ⟨inRange, found, isDir⟩
    rcases checkParentDir_eq_ok.mp reached.parents d inRange with ⟨ip', found', all⟩
    rw [found] at found'
    cases found'
    exact (all isDir).1
  have inodes : ∀ i < sb.ninodes, ∃ ip, img.inode sb i = some ip := by
    intro i inRange
    rcases checkBadInode_eq_ok.mp reached.inodes i inRange with ⟨ip, found, _⟩
    exact ⟨ip, found⟩
  rw [checkInodeRef, countFrom_eq_bounds readable inodes (by omega) fun _ below =>
    absurd below (Nat.not_lt_zero _)]
  exact exists_congr fun d => and_iff_right (Nat.zero_le d)

/-- A check that cannot fail so is passed before the rest of the program does. -/
theorem reported_of_bounds {α β : Type} {msg : String} {check : CheckM α} {f : α → CheckM β}
    (only : Only Safe check) (stopped : report msg check >>= f = .error .bounds) :
    ∃ a, check = .ok a ∧ f a = .error .bounds := by
  rcases (only_report only).ok_of_bind (not_not.mpr rfl) stopped with ⟨a, returned, rest⟩
  exact ⟨a, report_eq_ok.mp returned, rest⟩

/-- Nothing in `main` leaves an array, but the count of the references. -/
theorem main_eq_bounds (super : img.super = some sb) (positive : 1 ≤ sb.size)
    (one : sb.size ≤ BPB) :
    main img = .error .bounds ↔
      Reached img sb ∧ checkInodeRef img sb (fun _ => 0) = .error .bounds := by
  rcases Option.map_eq_some_iff.mp super with ⟨block, read, isSb⟩
  have zeros : checekValidDir img sb (fun _ => 0) = .ok () :=
    checekValidDir_eq_ok.mpr fun _ _ nonzero => absurd rfl nonzero
  have unsafe_ : ¬Safe .bounds := not_not.mpr rfl
  have first : rsect img SUPERBLOCK = .ok block := rsect_eq_ok.mpr read
  rw [main, first]
  change (rsect img (getSb block).bmapstart >>= fun _ => _) = _ ↔ _
  rw [isSb]
  constructor
  · intro stopped
    rcases (only_rsect (by rintro ⟨⟩) _).ok_of_bind unsafe_ stopped with ⟨data, bmapstart, stopped⟩
    rcases only_checkBadInode.ok_of_bind unsafe_ stopped with ⟨_, inodes, stopped⟩
    rcases reported_of_bounds only_checkValidAddr stopped with ⟨_, addrs, stopped⟩
    have bothDots : Only Safe (checkDirFormat img sb dot >>= fun _ =>
        checkDirFormat img sb dotdot) :=
      (only_checkDirFormat dot).bind fun _ _ => only_checkDirFormat dotdot
    rcases reported_of_bounds bothDots stopped with ⟨_, formats, stopped⟩
    rcases bind_eq_ok.mp formats with ⟨_, dots, dotdots⟩
    rcases reported_of_bounds only_checkParentDir stopped with ⟨_, parents, stopped⟩
    rcases reported_of_bounds (only_checkBitmap super positive addrs) stopped
      with ⟨addresses, bitmap, stopped⟩
    rcases reported_of_bounds (only_checkUsedBlock one) stopped with ⟨_, used, stopped⟩
    rcases reported_of_bounds only_checkUsedTimes stopped with ⟨_, times, stopped⟩
    rcases reported_of_bounds (only_ok zeros) stopped with ⟨_, _, stopped⟩
    refine ⟨⟨?_, inodes, addrs, dots, dotdots, parents, addresses, bitmap, used, times⟩, ?_⟩
    · rw [rsect_eq_ok.mp bmapstart]
      rfl
    · rcases bind_eq_error.mp stopped with counting | ⟨ins, _, stopped⟩
      · exact report_eq_bounds.mp counting
      · have links : Only Safe
            (report "ERROR: bad reference count for file." (checkBadLinks img sb ins)) :=
          only_report (only_forInodes fun _ _ => only_failIf fun _ => (by rintro ⟨⟩))
        have extra : Only Safe
            (report "directory appears more than once in file system."
            (checkExtraLink img sb ins)) :=
          only_report (only_forInodes fun _ _ => only_failIf fun _ => (by rintro ⟨⟩))
        exact absurd stopped ((links.bind fun _ _ => extra).ne_error unsafe_)
  · rintro ⟨reached, counting⟩
    rcases Option.isSome_iff_exists.mp reached.bmapstart with ⟨data, bmapstart⟩
    rcases reached.blocks with ⟨addresses, bitmap, used, times⟩
    have second : rsect img sb.bmapstart = .ok data := rsect_eq_ok.mpr bmapstart
    rw [second, reached.inodes, reached.addrs, reached.dots, reached.dotdots,
      reached.parents, bitmap]
    change (report _ (checkUsedBlock img sb addresses) >>= _) = _
    rw [used, times, zeros, counting]
    rfl

/-- The loops end, and no array is accessed outside its bounds. -/
structure SafeRun (img : Image) (sb : Superblock) : Prop where
  ends : ∀ ins fuel, sb.ninodes ≤ fuel → countFrom img sb 0 ins fuel = checkInodeRef img sb ins
  inside : main img ≠ .error .bounds

/-- The checker is safe unless the checks before it let a directory through that names an inode
which does not exist. -/
theorem safeRun_iff (super : img.super = some .mkfs) :
    SafeRun img .mkfs ↔ (Reached img .mkfs → ∀ d, ¬NamesOutside img .mkfs d) := by
  have ends : ∀ ins fuel, Superblock.mkfs.ninodes ≤ fuel →
      countFrom img .mkfs 0 ins fuel = checkInodeRef img .mkfs ins := by
    intro ins fuel enough
    induction fuel, enough using Nat.le_induction with
    | base => rfl
    | succ fuel enough ih => exact (countFrom_enough (by omega)).trans ih
  have outcome := main_eq_bounds super (by decide) (by decide)
  constructor
  · intro safe reached d outside
    exact safe.inside (outcome.mpr ⟨reached, reached.checkInodeRef_eq_bounds.mpr ⟨d, outside⟩⟩)
  · intro named
    refine ⟨ends, fun stopped => ?_⟩
    rcases outcome.mp stopped with ⟨reached, counting⟩
    rcases reached.checkInodeRef_eq_bounds.mp counting with ⟨d, outside⟩
    exact named reached d outside

/-- The image of `mkfs` with a root directory of the given entries. -/
def rootImage (es : List (Half × List Byte)) : Image where
  count := FSSIZE
  blk := fun b =>
    if b = 1 then Bytes.putWords (fun _ => 0) 0 [1000, 941, 200, 30, 2, 32, 58]
    else if b = 32 then putDinode (fun _ => 0) 1 (smallInode T_DIR 1 59 0)
    else if b = 58 then fun j => if j.val < 7 then 0xff else if j.val = 7 then 0x0f else 0
    else if b = 59 then smallBlock es
    else fun _ => 0

/-- The root names inode 200, the first one that does not exist. -/
def outsideImage : Image := rootImage [(1, dot), (1, dotdot), (200, [0x61])]

/-- An entry names inode 200 of 200. -/
theorem not_safeRun_outsideImage :
    outsideImage.super = some .mkfs ∧ ¬SafeRun outsideImage .mkfs := by
  have super : outsideImage.super = some .mkfs := by decide +kernel
  have stopped : main outsideImage = .error .bounds := by decide +kernel
  exact ⟨super, fun safe => safe.inside stopped⟩

/-- A directory of an accepted image names no such inode. -/
theorem Reached.not_namesOutside (reached : Reached img sb) (super : img.super = some sb)
    (accepted : main img = .ok ()) (d : ℕ) : ¬NamesOutside img sb d := by
  intro outside
  rcases main_eq_ok.mp accepted with ⟨sb', super', passes⟩
  rw [super] at super'
  cases super'
  rcases passes.links with ⟨ins, counted, _⟩
  rw [reached.checkInodeRef_eq_bounds.mpr ⟨d, outside⟩] at counted
  cases counted

/-- The root with `.` and `..` only. -/
def dotsImage : Image := rootImage [(1, dot), (1, dotdot)]

/-- A directory of `.` and `..` keeps to the array. -/
theorem safeRun_dotsImage : SafeRun dotsImage .mkfs := by
  have super : dotsImage.super = some .mkfs := by decide +kernel
  have accepted : main dotsImage = .ok () := by decide +kernel
  exact (safeRun_iff super).mpr fun reached => reached.not_namesOutside super accepted

end Xv6.Checker
