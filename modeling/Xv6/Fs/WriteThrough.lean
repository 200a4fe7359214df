import Xv6.Fs.Saved

/-!
# The inode cache is write-through

Every valid entry of the inode cache agrees with the inode on disk, in every state
of every run whose calls of `writei` store the inode. Under the lock `bmap` may
change addresses in memory; `writei` stores them when the file grows, and there is
nothing to store when it does not grow, except for the tags of checksummed files.
-/

namespace Xv6.Fs

open Prog

variable {dev : Devsw} {k k' : Kernel} {i : Fin NINODE}

/-- Each valid entry in use is the inode that the disk holds. -/
structure Coherent (k : Kernel) : Prop where
  consistent : Consistent k.fs
  inum : ∀ i, 0 < (k.icache i).ref → (k.icache i).inum < k.fs.sb.ninodes
  distinct : ∀ i j, 0 < (k.icache i).ref → 0 < (k.icache j).ref →
    (k.icache i).inum = (k.icache j).inum → i = j
  same : ∀ i, 0 < (k.icache i).ref → (k.icache i).valid →
    (k.icache i).toInode = diskInode k.fs.sb k.fs.blk (k.icache i).inum
  live : ∀ i, 0 < (k.icache i).ref → (k.icache i).valid → (k.icache i).type ≠ 0
  locked : ∀ i, (k.icache i).locked → 0 < (k.icache i).ref ∧ (k.icache i).valid

namespace Coherent

/-- The file system and one entry change; the inodes of the other valid entries stay on disk. -/
theorem set {s : St} {e : Entry} (co : Coherent k) (sb : s.sb = k.fs.sb) (consistent : Consistent s)
    (others : ∀ j, j ≠ i → 0 < (k.icache j).ref → (k.icache j).valid →
      diskInode s.sb s.blk (k.icache j).inum = diskInode k.fs.sb k.fs.blk (k.icache j).inum)
    (inum : 0 < e.ref → e.inum < s.sb.ninodes)
    (alone : 0 < e.ref → ∀ j, j ≠ i → 0 < (k.icache j).ref → (k.icache j).inum ≠ e.inum)
    (entry : 0 < e.ref → e.valid → e.toInode = diskInode s.sb s.blk e.inum ∧ e.type ≠ 0)
    (locked : e.locked → 0 < e.ref ∧ e.valid) :
    Coherent { fs := s, icache := Function.update k.icache i e } := by
  refine ⟨consistent, ?_, ?_, ?_, ?_, ?_⟩
  · intro j used
    by_cases self : j = i
    · subst self
      simp only [Function.update_self] at used ⊢
      exact inum used
    · simp only [Function.update_of_ne self] at used ⊢
      rw [sb]
      exact co.inum j used
  · intro a b usedA usedB equal
    by_cases selfA : a = i
    · by_cases selfB : b = i
      · rw [selfA, selfB]
      · subst selfA
        simp only [Function.update_self, Function.update_of_ne selfB] at usedA usedB equal
        exact absurd equal.symm (alone usedA b selfB usedB)
    · by_cases selfB : b = i
      · subst selfB
        simp only [Function.update_self, Function.update_of_ne selfA] at usedA usedB equal
        exact absurd equal (alone usedB a selfA usedA)
      · simp only [Function.update_of_ne selfA, Function.update_of_ne selfB] at usedA usedB equal
        exact co.distinct a b usedA usedB equal
  · intro j used valid
    by_cases self : j = i
    · subst self
      simp only [Function.update_self] at used valid ⊢
      exact (entry used valid).1
    · simp only [Function.update_of_ne self] at used valid ⊢
      rw [others j self used valid]
      exact co.same j used valid
  · intro j used valid
    by_cases self : j = i
    · subst self
      simp only [Function.update_self] at used valid ⊢
      exact (entry used valid).2
    · simp only [Function.update_of_ne self] at used valid ⊢
      exact co.live j used valid
  · intro j held
    by_cases self : j = i
    · subst self
      simp only [Function.update_self] at held ⊢
      exact locked held
    · simp only [Function.update_of_ne self] at held ⊢
      exact co.locked j held

/-- An entry changes and the file system does not, except for the recorded calls. -/
theorem set_entry {e : Entry} {calls : List Call} (co : Coherent k)
    (inum : 0 < e.ref → e.inum < k.fs.sb.ninodes)
    (alone : 0 < e.ref → ∀ j, j ≠ i → 0 < (k.icache j).ref → (k.icache j).inum ≠ e.inum)
    (entry : 0 < e.ref → e.valid →
      e.toInode = diskInode k.fs.sb k.fs.blk e.inum ∧ e.type ≠ 0)
    (locked : e.locked → 0 < e.ref ∧ e.valid) :
    Coherent { fs := { k.fs with calls := calls }, icache := Function.update k.icache i e } :=
  co.set rfl ⟨co.consistent.super, co.consistent.owned⟩ (fun _ _ _ _ => rfl) inum alone entry locked

/-- Only the reference count and the lock of an entry in use change. -/
theorem set_counts (co : Coherent k) (used : 0 < (k.icache i).ref) {ref : ℕ} {locked : Bool}
    (held : locked = true → 0 < ref ∧ (k.icache i).valid) :
    Coherent (k.set i { k.icache i with ref := ref, locked := locked }) :=
  co.set_entry (fun _ => co.inum i used)
    (fun _ j other usedJ equal => other (co.distinct j i usedJ used equal))
    (fun _ valid => ⟨co.same i used valid, co.live i used valid⟩) held

/-- The inode of an entry is stored. -/
theorem save {s : St} {ip : Inode} (co : Coherent k) (used : 0 < (k.icache i).ref)
    (inum : ip.inum = (k.icache i).inum) (saved : Saved k.fs s ip) (live : ip.type ≠ 0) :
    Coherent { fs := s
               icache := Function.update k.icache i { k.icache i with toInode := ip } } := by
  have inRange := co.inum i used
  have alone : ∀ j, j ≠ i → 0 < (k.icache j).ref → (k.icache j).inum ≠ ip.inum := by
    intro j other usedJ equal
    exact other (co.distinct j i usedJ used (equal.trans inum))
  refine co.set saved.sb saved.consistent ?_ ?_ (fun _ => alone) ?_ (co.locked i)
  · intro j other usedJ _
    rw [saved.inodes _ (co.inum j usedJ), if_neg (alone j other usedJ)]
  · intro _
    rw [saved.sb, inum]
    exact inRange
  · intro _ _
    rw [saved.inodes _ (by rw [inum]; exact inRange), if_pos rfl]
    exact ⟨rfl, live⟩

/-! ## The calls -/

/-- `iget` gives out an entry that is valid or will be read. -/
theorem of_iget (co : Coherent k) {m : ℕ} (inRange : m < k.fs.sb.ninodes)
    (step : k.iget m = some k') : Coherent k' := by
  simp only [Kernel.iget] at step
  split at step
  next i found =>
    cases step
    have hit := List.find?_some found
    simp only [decide_eq_true_eq] at hit
    exact co.set_counts hit.1 fun held => ⟨Nat.succ_pos _, (co.locked i held).2⟩
  next missing =>
    split at step
    next i found =>
      cases step
      have unused := List.find?_some found
      simp only [decide_eq_true_eq] at unused
      refine co.set_entry (fun _ => inRange) ?_ ?_ ?_
      · intro _ j _ usedJ equal
        have absent := List.find?_eq_none.mp missing j (List.mem_finRange j)
        exact absent (by simpa using ⟨usedJ, equal⟩)
      · intro _ valid
        cases valid
      · intro held
        have used := (co.locked i held).1
        omega
    next => cases step

theorem of_call {α : Type} {m : FsM α} {r : α × Kernel} (called : k.call m = some r) :
    m k.fs = .ok (r.1, r.2.fs) ∧ r.2.icache = k.icache := by
  simp only [Kernel.call] at called
  split at called
  next a s returned =>
    cases called
    exact ⟨returned, rfl⟩
  next => cases called

/-- A new inode is on the disk before it is in the cache. -/
theorem of_ialloc (co : Coherent k) {type : Half} (step : k.ialloc type = some k') :
    Coherent k' := by
  rcases Option.bind_eq_some_iff.mp step with ⟨⟨m, k₁⟩, called, got⟩
  rcases of_call called with ⟨returned, cache⟩
  rcases (iallocDisk_meets (E := fun _ => True) co.consistent fun _ => trivial).of_ok returned with
    ⟨inRange, unused, saved⟩
  have fresh : Coherent k₁ := by
    refine ⟨saved.consistent, ?_, ?_, ?_, ?_, ?_⟩
    · rw [cache, saved.sb]
      exact co.inum
    · rw [cache]
      exact co.distinct
    · intro j used valid
      rw [cache] at used valid ⊢
      -- A valid entry has a type, so it is not the inode that was allocated.
      have other : (k.icache j).inum ≠ m := by
        intro equal
        apply co.live j used valid
        rw [co.same j used valid, equal]
        exact unused
      have kept := (saved.inodes _ (co.inum j used)).trans (if_neg other)
      rw [co.same j used valid, diskInode_inum]
      exact kept.symm
    · rw [cache]
      exact co.live
    · rw [cache]
      exact co.locked
  refine fresh.of_iget ?_ got
  rw [saved.sb]
  exact inRange

/-- `ilock` reads the inode from the disk. -/
theorem of_ilock (co : Coherent k) (step : k.ilock i = some k') : Coherent k' := by
  simp only [Kernel.ilock] at step
  split_ifs at step with unused held valid
  · cases step
    exact co.set_counts (by omega) fun _ => ⟨by omega, valid⟩
  · have used : 0 < (k.icache i).ref := by omega
    rcases Option.map_eq_some_iff.mp step with ⟨⟨d, k₁⟩, called, rfl⟩
    rcases of_call called with ⟨returned, cache⟩
    have loaded : Meets (loadInode (k.icache i).inum) k.fs (fun _ => True) fun d s =>
        ∃ calls, s = { k.fs with calls := calls } ∧
          d = (diskInode k.fs.sb k.fs.blk (k.icache i).inum).toDinode ∧ d.type ≠ 0 :=
      loadInode_meets co.consistent (co.inum i used) (fun _ => trivial)
        fun live calls => ⟨calls, rfl, rfl, live⟩
    rcases loaded.of_ok returned with ⟨calls, state, rfl, live⟩
    rw [Kernel.set, cache, state]
    refine co.set_entry (fun _ => co.inum i used) ?_ (fun _ _ => ⟨rfl, live⟩) fun _ => ⟨used, rfl⟩
    intro _ j other usedJ equal
    exact other (co.distinct j i usedJ used equal)

theorem of_iunlock (co : Coherent k) (step : k.iunlock i = some k') : Coherent k' := by
  simp only [Kernel.iunlock] at step
  split_ifs at step with refused
  cases step
  rw [not_or] at refused
  exact co.set_counts (by omega) fun held => absurd held (by decide)

/-- The last reference writes what it has changed. -/
theorem of_iput (co : Coherent k) (used : 0 < (k.icache i).ref) (step : k.iput i = some k') :
    Coherent k' := by
  simp only [Kernel.iput] at step
  split_ifs at step with held last
  · rcases Option.map_eq_some_iff.mp step with ⟨⟨ip, k₁⟩, called, rfl⟩
    rcases of_call called with ⟨returned, cache⟩
    rw [co.same i used last.1] at returned
    rcases (freeInode_meets (E := fun _ => True) co.consistent (co.inum i used)
      fun _ => trivial).of_ok returned with ⟨inum, saved⟩
    have none : (k.icache i).ref - 1 = 0 := by omega
    rw [Kernel.set, cache, none]
    refine co.set saved.sb saved.consistent ?_ ?_ ?_ ?_ ?_
    · intro j other usedJ _
      have alone : (k.icache j).inum ≠ ip.inum := by
        rw [inum]
        exact fun equal => other (co.distinct j i usedJ used equal)
      rw [saved.inodes _ (co.inum j usedJ), if_neg alone]
    all_goals simp
  · cases step
    exact co.set_counts used fun locked => absurd locked held

/-- A call under the lock that stores the inode of the entry. -/
theorem of_save {α : Type} {m : FsM α} {f : α → Inode} (co : Coherent k)
    (held : (k.icache i).locked) (step : (k.call m).map (fun r =>
      r.2.set i { k.icache i with toInode := f r.1 }) = some k')
    (saves : Meets m k.fs (fun _ => True) fun a s =>
      (f a).inum = (k.icache i).inum ∧ (f a).type = (k.icache i).type ∧ Saved k.fs s (f a)) :
    Coherent k' := by
  rcases Option.map_eq_some_iff.mp step with ⟨⟨a, k₁⟩, called, rfl⟩
  rcases of_call called with ⟨returned, cache⟩
  rcases saves.of_ok returned with ⟨inum, type, saved⟩
  rcases co.locked i held with ⟨used, valid⟩
  rw [Kernel.set, cache]
  refine co.save used inum saved ?_
  rw [type]
  exact co.live i used valid

/-- Reading changes no inode. -/
theorem of_readi (co : Coherent k) {dst : Mem} {off n : Word}
    (step : cacheStep dev k (.readi i dst off n) = some k') : Coherent k' := by
  simp only [cacheStep] at step
  split_ifs at step with held
  rcases co.locked i held with ⟨used, valid⟩
  have same := co.same i used valid
  have here : dinodes k.fs.sb k.fs.blk ⟨_, co.inum i used⟩ = (k.icache i).toInode := same.symm
  refine co.of_save (f := ReadResult.ip) held step ?_
  refine readi_unchanged here co.consistent.owned (fun _ => trivial) fun ret dst calls => ?_
  refine ⟨rfl, rfl, ?_⟩
  rw [same]
  exact Saved.refl co.consistent calls _

/-- `writei` leaves the inode on the disk as it is in the cache. -/
theorem of_writei (co : Coherent k) {src : Mem} {off n : Word}
    (stores : StoresInode k.fs (k.icache i).toInode src off n)
    (step : cacheStep dev k (.writei i src off n) = some k') : Coherent k' := by
  simp only [cacheStep] at step
  split_ifs at step with held
  rcases co.locked i held with ⟨used, valid⟩
  have same := co.same i used valid
  refine co.of_save (f := Prod.snd) held step ?_
  rw [same] at stores ⊢
  exact writei_saved co.consistent (co.inum i used) (fun _ => trivial) stores

/-- A changed field is written at once. -/
theorem of_change (co : Coherent k) {major minor nlink : Half}
    (step : cacheStep dev k (.change i major minor nlink) = some k') : Coherent k' := by
  simp only [cacheStep] at step
  split_ifs at step with held
  rcases co.locked i held with ⟨used, valid⟩
  have same := co.same i used valid
  refine co.of_save (f := fun _ => { (k.icache i).toInode with
    major := major, minor := minor, nlink := nlink }) held step ?_
  refine Meets.mono (iupdate_saved co.consistent (co.inum i used) ?_) (fun _ stop => stop)
    fun _ _ stored => ⟨rfl, rfl, stored⟩
  rw [← same]
  exact ⟨rfl, rfl, rfl⟩

end Coherent

/-! ## Runs -/

/-- The condition on a call: `writei` stores the inode. -/
def StoresCall (k : Kernel) : CacheCall → Prop
  | .writei i src off n => StoresInode k.fs (k.icache i).toInode src off n
  | _ => True

/-- Every call keeps cache and disk together, if `writei` stores the inode it changes. -/
theorem Coherent.step {call : CacheCall} (co : Coherent k) (stores : StoresCall k call)
    (step : cacheStep dev k call = some k') : Coherent k' := by
  cases call with
  | iget m =>
      simp only [cacheStep] at step
      split_ifs at step with inRange
      exact co.of_iget inRange step
  | idup i =>
      simp only [cacheStep] at step
      split_ifs at step with unused
      cases step
      exact co.set_counts (by omega) fun held => ⟨Nat.succ_pos _, (co.locked i held).2⟩
  | ilock i => exact co.of_ilock step
  | iunlock i => exact co.of_iunlock step
  | iput i =>
      simp only [cacheStep] at step
      split_ifs at step with unused
      exact co.of_iput (by omega) step
  | ialloc type =>
      simp only [cacheStep] at step
      split_ifs at step
      exact co.of_ialloc step
  | readi i dst off n => exact co.of_readi step
  | writei i src off n => exact co.of_writei stores step
  | change i major minor nlink => exact co.of_change step

/-- A sequence of calls; it is stuck where a call panics or has to wait. -/
def cacheRun (dev : Devsw) (k : Kernel) : List CacheCall → Option Kernel
  | [] => some k
  | call :: calls => (cacheStep dev k call).bind fun k' => cacheRun dev k' calls

/-- Every call of a run meets the condition. -/
def AllStore (dev : Devsw) (k : Kernel) : List CacheCall → Prop
  | [] => True
  | call :: calls =>
      StoresCall k call ∧ ∀ k', cacheStep dev k call = some k' → AllStore dev k' calls

theorem Coherent.run {calls : List CacheCall} (co : Coherent k) (stores : AllStore dev k calls)
    (run : cacheRun dev k calls = some k') : Coherent k' := by
  induction calls generalizing k with
  | nil =>
      cases run
      exact co
  | cons call calls ih =>
      rcases Option.bind_eq_some_iff.mp run with ⟨k₁, first, rest⟩
      exact ih (co.step stores.1 first) (stores.2 k₁ first) rest

/-- After `iinit`: no entry is in use. -/
structure Booted (k : Kernel) : Prop where
  consistent : Consistent k.fs
  unused : ∀ i, (k.icache i).ref = 0 ∧ (k.icache i).locked = false

/-- After the boot no entry is in use. -/
theorem Booted.coherent (booted : Booted k) : Coherent k := by
  have unused : ∀ i, ¬0 < (k.icache i).ref := by
    intro i
    rw [(booted.unused i).1]
    exact Nat.lt_irrefl 0
  refine ⟨booted.consistent, fun i used => absurd used (unused i),
    fun i _ used => absurd used (unused i), fun i used => absurd used (unused i),
    fun i used => absurd used (unused i), fun i held => ?_⟩
  rw [(booted.unused i).2] at held
  cases held

/-- The entry equals its inode on disk, and `ilock` would read the same inode again. -/
def OnDisk (k : Kernel) (i : Fin NINODE) : Prop :=
  (k.icache i).toInode = diskInode k.fs.sb k.fs.blk (k.icache i).inum ∧
    ∃ s, loadInode (k.icache i).inum k.fs = .ok ((k.icache i).toDinode, s)

/-- In every state of a run that meets the condition, valid entries in use are on disk. -/
theorem cacheRun_onDisk {calls : List CacheCall} (booted : Booted k)
    (stores : AllStore dev k calls) (run : cacheRun dev k calls = some k') (i : Fin NINODE)
    (used : 0 < (k'.icache i).ref) (valid : (k'.icache i).valid) : OnDisk k' i := by
  have co := booted.coherent.run stores run
  have same := co.same i used valid
  refine ⟨same, ?_⟩
  have loaded : Meets (loadInode (k'.icache i).inum) k'.fs (fun _ => False) fun d _ =>
      d = (k'.icache i).toDinode := by
    refine loadInode_meets co.consistent (co.inum i used) ?_ fun _ _ => ?_
    · rw [← same]
      exact co.live i used valid
    · rw [← same]
  rcases loaded.returns (fun _ impossible => impossible) with ⟨d, s, returned, rfl⟩
  exact ⟨s, returned⟩

/-! ## The disk of `mkfs` -/

/-- The root directory, before the first file is added. -/
def rootInode : Inode where
  type := T_DIR
  major := 0
  minor := 0
  nlink := 1
  size := 512
  addrs := fun k => if k = 0 then 59 else 0
  inum := ROOTINO

/-- The superblock in its block. -/
def superBlock : Block := Bytes.putWords (fun _ => 0) 0 [1000, 941, 200, 30, 2, 32, 58]

/-- The entries `.` and `..` of the root. -/
def rootBlock : Block := fun j =>
  if j.val = 0 ∨ j.val = 16 then 1 else if j.val = 2 ∨ j.val = 18 ∨ j.val = 19 then 0x2e else 0

/-- The disk that `mkfs` writes when it is given no files. -/
def rootDisk : Disk :=
  Function.update (Function.update (putInode .mkfs (take .mkfs emptyDisk 59) rootInode) 59
    rootBlock)
    1 superBlock

/-- The root is the only inode in use. -/
theorem diskInode_rootDisk {m : ℕ} (inRange : m < 200) : diskInode .mkfs rootDisk m =
    if m = ROOTINO then rootInode else emptyInode 0 m := by
  have block : Superblock.mkfs.iblock m < 58 ∧ 32 ≤ Superblock.mkfs.iblock m := by
    simp only [Superblock.iblock, Superblock.mkfs, IPB, BSIZE]
    omega
  have onDisk : diskInode .mkfs rootDisk m =
      diskInode .mkfs (putInode .mkfs (take .mkfs emptyDisk 59) rootInode) m := by
    rw [diskInode, rootDisk, Function.update_of_ne (by omega), Function.update_of_ne (by omega)]
    rfl
  have bitmap : Superblock.mkfs.bblock 59 = 58 := by decide
  have zero : take .mkfs emptyDisk 59 (Superblock.mkfs.iblock m) = fun _ => 0 := by
    rw [take_of_ne (by omega) (by omega)]
    funext j
    exact if_neg (by omega)
  rw [onDisk, diskInode_putInode]
  split
  next root => exact (if_pos root).symm
  next other =>
    rw [diskInode, zero, getDinode_zero]
    exact (if_neg other).symm

theorem slot_rootInode (blk : Disk) (k : ℕ) :
    slot blk rootInode.toDinode k = if k = 0 then 59 else 0 := by
  by_cases direct : k < NDIRECT
  · rw [slot_direct _ direct]
    simp only [NDIRECT] at direct
    interval_cases k <;> rfl
  · rw [slot_unmapped (Nat.not_lt.mp direct) rfl, if_neg]
    rintro rfl
    exact direct (by decide)

/-- The root has one block. -/
theorem ref_rootDisk {m : Fin Superblock.mkfs.ninodes} {k b : ℕ}
    (refers : ref rootDisk (dinodes .mkfs rootDisk m).toDinode k = some b) :
    m = ⟨1, by decide⟩ ∧ k = 0 ∧ b = 59 := by
  rw [dinodes, diskInode_rootDisk m.isLt] at refers
  split at refers
  next root =>
    rw [ref_eq_some, slot_rootInode] at refers
    refine ⟨Fin.ext root, ?_⟩
    rcases refers with ⟨mapped, block⟩
    by_cases first : k = 0
    · subst first
      exact ⟨rfl, block.symm⟩
    · exact absurd (if_neg first) mapped
  next =>
    rw [ref_empty (fun _ _ => rfl)] at refers
    cases refers

/-- The disk is as `mkfs` leaves it. -/
theorem consistent_rootDisk : Consistent ⟨.mkfs, rootDisk, []⟩ := by
  refine ⟨by decide +kernel, layout_mkfs, by decide +kernel, fun m => m.isLt, ?_, ?_, ?_, ?_⟩
  · intro m k b refers
    obtain ⟨rfl, rfl, rfl⟩ := ref_rootDisk refers
    decide
  · intro m k b refers
    obtain ⟨rfl, rfl, rfl⟩ := ref_rootDisk refers
    decide +kernel
  · intro m k j l b first second
    obtain ⟨rfl, rfl, rfl⟩ := ref_rootDisk first
    obtain ⟨rfl, rfl, _⟩ := ref_rootDisk second
    exact ⟨rfl, rfl⟩
  · intro m k below
    rw [dinodes, diskInode_rootDisk m.isLt] at below ⊢
    split at below
    next root =>
      rw [if_pos root, slot_rootInode]
      have first : k = 0 := by
        simp only [rootInode, BSIZE] at below
        have size : (512 : Word).toNat = 512 := rfl
        omega
      subst first
      decide
    next => exact absurd below (Nat.not_lt_zero _)

/-- The kernel after boot: an empty cache over the disk of `mkfs`. -/
def bootKernel : Kernel where
  fs := ⟨.mkfs, rootDisk, []⟩
  icache := fun _ => ⟨emptyInode 0 0, 0, false, false⟩

theorem booted_bootKernel : Booted bootKernel :=
  ⟨consistent_rootDisk, fun _ => ⟨rfl, rfl⟩⟩

/-- A checksummed file is created and three bytes are written to it. -/
def createChecked : List CacheCall :=
  [.ialloc T_CHECKED, .ilock 0, .change 0 0 0 1, .writei 0 (fun j => BitVec.ofNat 8 (j + 7)) 0 3]

/-- The three bytes extend the file, so the inode is stored. -/
theorem cacheRun_onDisk_createChecked : ∃ k,
    cacheRun noDevices bootKernel (createChecked ++ [.iunlock 0]) = some k ∧ OnDisk k 0 := by
  have outcome : ((cacheRun noDevices bootKernel (createChecked ++ [.iunlock 0])).map fun k =>
      ((k.icache 0).ref, (k.icache 0).valid)) = some (1, true) := by decide +kernel
  rcases Option.map_eq_some_iff.mp outcome with ⟨k, run, observed⟩
  rw [Prod.mk.injEq] at observed
  have stores : AllStore noDevices bootKernel (createChecked ++ [.iunlock 0]) := by
    refine ⟨trivial, fun k₁ first => ⟨trivial, fun k₂ second => ⟨trivial, fun k₃ third =>
      ⟨Or.inr (Or.inr (Or.inl ?_)), fun _ _ => ⟨trivial, fun _ _ => trivial⟩⟩⟩⟩⟩
    have created : cacheRun noDevices bootKernel (createChecked.take 3) = some k₃ := by
      simp only [createChecked, List.take, cacheRun, first, second, third, Option.bind_some]
    have empty : ((cacheRun noDevices bootKernel (createChecked.take 3)).map fun k =>
        (k.icache 0).size) = some 0 := by decide +kernel
    rw [created] at empty
    have size : (k₃.icache 0).size = 0 := Option.some.inj empty
    rw [size]
    decide
  refine ⟨k, run, cacheRun_onDisk booted_bootKernel stores run 0 ?_ observed.2⟩
  rw [observed.1]
  exact Nat.one_pos

/-- One byte of a checksummed file is replaced; its tag changes in memory only. -/
theorem not_onDisk_overwritten : ¬∀ (dev : Devsw) (k k' : Kernel) (calls : List CacheCall)
    (i : Fin NINODE), Booted k → cacheRun dev k (calls ++ [.iunlock i]) = some k' →
    0 < (k'.icache i).ref → (k'.icache i).valid → OnDisk k' i := by
  intro onDisk
  have outcome : ((cacheRun noDevices bootKernel
      ((createChecked ++ [.writei 0 (fun _ => 1) 0 1]) ++ [.iunlock 0])).map fun k =>
      ((k.icache 0).ref, (k.icache 0).valid, (k.icache 0).addr 0,
        (diskInode k.fs.sb k.fs.blk (k.icache 0).inum).addr 0)) =
        some (1, true, 60, 0x0600003c) := by decide +kernel
  rcases Option.map_eq_some_iff.mp outcome with ⟨k, run, observed⟩
  simp only [Prod.mk.injEq] at observed
  rcases observed with ⟨ref, valid, memory, disk⟩
  have same := (onDisk noDevices bootKernel k _ 0 booted_bootKernel run (by omega) valid).1
  rw [← same, memory] at disk
  exact absurd disk (by decide)

end Xv6.Fs
