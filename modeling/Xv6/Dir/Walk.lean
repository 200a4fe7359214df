import Xv6.Dir.Names
import Xv6.Dir.Paths
import Xv6.Fs.Dinode

/-!
# Path resolution

`namei` and `nameiparent` are walks through the tree of directories, one step for each element of
the path. A walk looks at an inode under a reference and a lock of its own and gives both back, and
no inode of the tree is freed on the way, as each has a name or is in use.
-/

namespace Xv6.Dir

open Prog
open Fs (Mem Devsw Kernel Entry Dinode Inode Layout Owned St contents single diskInode T_DIR)
open Slots (lookup)

variable {dev : Devsw} {k k' k₀ : Kernel} {S : Set ℕ}

theorem meets_onDir {α : Type} {m : DirM α} {E : PathStop → Prop} {Q : α → Kernel → Prop}
    (meets : Meets m k (fun e => E (.dir e)) Q) : Meets (onDir m) k E Q :=
  meets_zoom meets

/-! ## The tree -/

/-- Inode `n`, as the cache has it if it is there. -/
def inodeAt (k : Kernel) (n : ℕ) : Dinode :=
  match (List.finRange NINODE).find? fun i =>
      0 < (k.icache i).ref ∧ (k.icache i).inum = n ∧ (k.icache i).valid = true with
  | some i => (k.icache i).toDinode
  | none => (diskInode k.fs.sb k.fs.blk n).toDinode

/-- What `dirlookup` finds in inode `n`, if that is a directory. -/
def child (k : Kernel) (n : ℕ) (name : List Byte) : Option ℕ :=
  if (inodeAt k n).type = T_DIR then
    (lookup (table (contents k.fs.blk (inodeAt k n))) name).map BitVec.toNat
  else none

/-- The inodes `S` are the tree of directories: names stand for inodes of the tree, and an inode
that has no name is in use. -/
structure Tree (k : Kernel) (S : Set ℕ) : Prop where
  layout : Layout k.fs.sb
  /-- An inode is in the cache once. -/
  distinct : ∀ i j, 0 < (k.icache i).ref → 0 < (k.icache j).ref →
    (k.icache i).inum = (k.icache j).inum → i = j
  root : ROOTINO ∈ S
  stored : ∀ n ∈ S, n < k.fs.sb.ninodes
  used : ∀ n ∈ S, (inodeAt k n).type ≠ 0
  linked : ∀ n ∈ S, (inodeAt k n).nlink ≠ 0 ∨ ∃ i, 0 < (k.icache i).ref ∧ (k.icache i).inum = n
  owned : ∀ n ∈ S, (inodeAt k n).type = T_DIR → Owned k.fs.sb k.fs.blk (single ⟨inodeAt k n, n⟩)
  whole : ∀ n ∈ S, (inodeAt k n).type = T_DIR → (inodeAt k n).size.toNat % direntSize = 0
  closed : ∀ n ∈ S, ∀ name m, child k n name = some m → m ∈ S

/-- The walk from inode `n` over these names. -/
def walk (k : Kernel) (n : ℕ) (names : List (List Byte)) : Option ℕ := names.foldlM (child k) n

/-- The directory in which the walk looks up the last name, and that name. -/
def walkParent (k : Kernel) (n : ℕ) (names : List (List Byte)) : Option (ℕ × List Byte) :=
  names.getLast?.bind fun last => (walk k n names.dropLast).bind fun d =>
    if (inodeAt k d).type = T_DIR then some (d, last) else none

/-- Where a path begins. -/
def origin (k : Kernel) (cwd : Fin NINODE) (path : List Byte) : ℕ :=
  if path.headD 0 = Names.slash then ROOTINO else (k.icache cwd).inum

/-- Path resolution does not return if almost every cache entry is in use, or if it waits for a
lock. -/
def Blocked (k : Kernel) (e : PathStop) : Prop :=
  e = .dir .iget ∧ (∃ i, ∀ j ≠ i, 0 < (k.icache j).ref) ∨
    (e = .ilock ∨ e = .dir .iput) ∧ ∃ i, (k.icache i).locked = true

theorem walk_cons (n : ℕ) (name : List Byte) (names : List (List Byte)) :
    walk k n (name :: names) = (child k n name).bind fun m => walk k m names :=
  List.foldlM_cons ..

theorem walkParent_singleton (n : ℕ) (name : List Byte) :
    walkParent k n [name] = if (inodeAt k n).type = T_DIR then some (n, name) else none := rfl

/-- The parent of a longer path is found one level further down. -/
theorem walkParent_cons (n : ℕ) (name : List Byte) {names : List (List Byte)} (more : names ≠ []) :
    walkParent k n (name :: names) = (child k n name).bind fun m => walkParent k m names := by
  cases names with
  | nil => exact absurd rfl more
  | cons next names =>
      rw [walkParent, List.getLast?_cons_cons, List.dropLast_cons_cons, walk_cons]
      cases child k n name with
      | none =>
          cases (next :: names).getLast? with
          | none => rfl
          | some last => rfl
      | some m => rfl

/-! ## The inode cache -/

section Cache

variable {i : Fin NINODE} {n : ℕ}

/-- A valid entry of the cache counts, and not the disk. -/
theorem inodeAt_of_cached (distinct : ∀ i j, 0 < (k.icache i).ref → 0 < (k.icache j).ref →
      (k.icache i).inum = (k.icache j).inum → i = j)
    (held : 0 < (k.icache i).ref) (valid : (k.icache i).valid = true) :
    inodeAt k (k.icache i).inum = (k.icache i).toDinode := by
  rw [inodeAt]
  split
  case h_1 j hit =>
    have found := List.find?_some hit
    simp only [decide_eq_true_eq] at found
    rw [distinct j i found.1 held found.2.1]
  case h_2 none =>
    have missing := List.find?_eq_none.mp none i (List.mem_finRange i)
    exact absurd (decide_eq_true ⟨held, rfl, valid⟩) missing

/-- Without a valid entry the inode on the disk counts. -/
theorem inodeAt_of_uncached (uncached : ∀ i, 0 < (k.icache i).ref → (k.icache i).inum = n →
      (k.icache i).valid = false) :
    inodeAt k n = (diskInode k.fs.sb k.fs.blk n).toDinode := by
  rw [inodeAt]
  split
  case h_1 j hit =>
    have found := List.find?_some hit
    simp only [decide_eq_true_eq] at found
    rw [uncached j found.1 found.2.1] at found
    cases found.2.2
  case h_2 => rfl

end Cache

/-! ## The state of a walk -/

/-- The walk that began in `k₀` has come to `k`. It has these references of its own, and these locks
are held. -/
structure Walking (k₀ : Kernel) (own : Fin NINODE → ℕ) (locks : Fin NINODE → Bool) (k : Kernel) :
    Prop where
  sb : k.fs.sb = k₀.fs.sb
  blk : k.fs.blk = k₀.fs.blk
  ref : ∀ i, (k.icache i).ref = (k₀.icache i).ref + own i
  locked : ∀ i, (k.icache i).locked = locks i
  distinct : ∀ i j, 0 < (k.icache i).ref → 0 < (k.icache j).ref →
    (k.icache i).inum = (k.icache j).inum → i = j
  inum : ∀ i, 0 < (k₀.icache i).ref → (k.icache i).inum = (k₀.icache i).inum
  cached : ∀ i, 0 < (k.icache i).ref → (k.icache i).valid = true →
    (k.icache i).toDinode = inodeAt k₀ (k.icache i).inum
  fresh : ∀ i, 0 < (k.icache i).ref → (k.icache i).valid = false →
    inodeAt k₀ (k.icache i).inum = (diskInode k₀.fs.sb k₀.fs.blk (k.icache i).inum).toDinode

/-- The locks of a kernel. -/
def locksOf (k : Kernel) : Fin NINODE → Bool := fun i => (k.icache i).locked

/-- The reference to an inode that has been found. -/
def refOf : Option (Fin NINODE) → Fin NINODE → ℕ
  | none => 0
  | some i => Pi.single i 1

namespace Walking

variable {own own' : Fin NINODE → ℕ} {locks locks' : Fin NINODE → Bool} {i dp : Fin NINODE} {n : ℕ}

/-- A walk begins with nothing held. -/
theorem start (distinct : ∀ i j, 0 < (k.icache i).ref → 0 < (k.icache j).ref →
    (k.icache i).inum = (k.icache j).inum → i = j) : Walking k 0 (locksOf k) k where
  sb := rfl
  blk := rfl
  ref := fun _ => rfl
  locked := fun _ => rfl
  distinct := distinct
  inum := fun _ _ => rfl
  cached := fun i held valid => (inodeAt_of_cached distinct held valid).symm
  fresh := by
    intro i held invalid
    refine inodeAt_of_uncached fun j held' same => ?_
    rwa [distinct j i held' held same]

/-- Reading a directory does not disturb the walk. -/
theorem read (walking : Walking k₀ own locks k) (read : Read k k') : Walking k₀ own locks k' where
  sb := read.sb.trans walking.sb
  blk := read.blk.trans walking.blk
  ref := by
    rw [read.icache]
    exact walking.ref
  locked := by
    rw [read.icache]
    exact walking.locked
  distinct := by
    rw [read.icache]
    exact walking.distinct
  inum := by
    rw [read.icache]
    exact walking.inum
  cached := by
    rw [read.icache]
    exact walking.cached
  fresh := by
    rw [read.icache]
    exact walking.fresh

/-- One cache entry is replaced. -/
theorem set (walking : Walking k₀ own locks k) (fs : St) {e : Entry} (sb : fs.sb = k.fs.sb)
    (blk : fs.blk = k.fs.blk) (others : ∀ j ≠ i, own' j = own j ∧ locks' j = locks j)
    (ref : e.ref = (k₀.icache i).ref + own' i) (locked : e.locked = locks' i)
    (apart : 0 < e.ref → ∀ j ≠ i, 0 < (k.icache j).ref → (k.icache j).inum ≠ e.inum)
    (inum : 0 < (k₀.icache i).ref → e.inum = (k.icache i).inum)
    (cached : 0 < e.ref → e.valid = true → e.toDinode = inodeAt k₀ e.inum)
    (fresh : 0 < e.ref → e.valid = false →
      inodeAt k₀ e.inum = (diskInode k₀.fs.sb k₀.fs.blk e.inum).toDinode) :
    Walking k₀ own' locks' (({ k with fs := fs } : Kernel).set i e) := by
  have here : (({ k with fs := fs } : Kernel).set i e).icache i = e := Function.update_self ..
  have there : ∀ j ≠ i, (({ k with fs := fs } : Kernel).set i e).icache j = k.icache j :=
    fun j other => Function.update_of_ne other ..
  refine ⟨sb.trans walking.sb, blk.trans walking.blk, fun j => ?_, fun j => ?_, fun j l =>
    ?_, fun j => ?_,
    fun j => ?_, fun j => ?_⟩
  · by_cases same : j = i
    · subst same
      rw [here, ref]
    · rw [there j same, walking.ref, (others j same).1]
  · by_cases same : j = i
    · subst same
      rw [here, locked]
    · rw [there j same, walking.locked, (others j same).2]
  · by_cases same : j = i
    · subst same
      by_cases same' : l = j
      · exact fun _ _ _ => same'.symm
      · rw [here, there l same']
        exact fun held held' equal => absurd equal.symm (apart held l same' held')
    · by_cases same' : l = i
      · subst same'
        rw [here, there j same]
        exact fun held held' equal => absurd equal (apart held' j same held)
      · rw [there j same, there l same']
        exact walking.distinct j l
  all_goals by_cases same : j = i
  · subst same
    rw [here]
    exact fun held => (inum held).trans (walking.inum j held)
  · rw [there j same]
    exact walking.inum j
  · subst same
    rw [here]
    exact cached
  · rw [there j same]
    exact walking.cached j
  · subst same
    rw [here]
    exact fresh
  · rw [there j same]
    exact walking.fresh j

/-- An entry that keeps its inode is replaced. -/
theorem update (walking : Walking k₀ own locks k) {e : Entry} (held : 0 < (k.icache i).ref)
    (others : ∀ j ≠ i, own' j = own j ∧ locks' j = locks j)
    (ref : e.ref = (k₀.icache i).ref + own' i) (locked : e.locked = locks' i)
    (inode : e.toInode = (k.icache i).toInode) (valid : e.valid = (k.icache i).valid) :
    Walking k₀ own' locks' (k.set i e) := by
  have inum : e.inum = (k.icache i).inum := congrArg Inode.inum inode
  have fields : e.toDinode = (k.icache i).toDinode := congrArg Inode.toDinode inode
  refine walking.set k.fs rfl rfl others ref locked (fun _ j other held' equal => ?_)
    (fun _ => inum)
    (fun _ isValid => ?_) fun _ invalid => ?_
  · exact other (walking.distinct j i held' held (equal.trans inum))
  · rw [fields, inum]
    exact walking.cached i held (valid.symm.trans isValid)
  · rw [inum]
    exact walking.fresh i held (valid.symm.trans invalid)

theorem held_of_own (walking : Walking k₀ own locks k) (mine : 0 < own i) :
    0 < (k.icache i).ref := by
  rw [walking.ref]
  exact Nat.add_pos_right _ mine

theorem others_single (j : Fin NINODE) (other : j ≠ i) :
    (own + Pi.single i 1 : Fin NINODE → ℕ) j = own j ∧ locks j = locks j := by
  rw [Pi.add_apply, Pi.single_eq_of_ne other, Nat.add_zero]
  exact ⟨rfl, rfl⟩

theorem single_self : (own + Pi.single i 1 : Fin NINODE → ℕ) i = own i + 1 := by
  rw [Pi.add_apply, Pi.single_eq_same]

theorem idup (walking : Walking k₀ own locks k) (held : 0 < (k.icache i).ref) :
    Walking k₀ (own + Pi.single i 1) locks (k.idup i) := by
  refine walking.update held others_single ?_ (walking.locked i) rfl rfl
  rw [single_self, walking.ref, Nat.add_assoc]

/-- `iget` leaves the numbers of the other entries as they are. -/
theorem meets_iget (walking : Walking k₀ own locks k) (n : ℕ) :
    Meets (iget n) k (fun e => e = .iget ∧ ∀ i, 0 < (k.icache i).ref) fun i k' =>
      Walking k₀ (own + Pi.single i 1) locks k' ∧ (k'.icache i).inum = n ∧
        ∀ j, 0 < (k.icache j).ref → (k'.icache j).inum = (k.icache j).inum := by
  refine meets_bind (meets_get ?_)
  split
  case h_1 i hit =>
    have found := List.find?_some hit
    simp only [decide_eq_true_eq] at found
    refine meets_bind (meets_modify (f := fun _ => _)
      (meets_pure ⟨walking.idup found.1, ?_, fun j _ => ?_⟩))
    · simp only [Kernel.set, Function.update_self]
      exact found.2
    · by_cases same : j = i
      · subst same
        simp only [Kernel.set, Function.update_self]
      · simp only [Kernel.set, Function.update_of_ne same]
  case h_2 absent =>
    have missing : ∀ j, 0 < (k.icache j).ref → (k.icache j).inum ≠ n := by
      intro j held same
      exact absurd (decide_eq_true ⟨held, same⟩)
        (List.find?_eq_none.mp absent j (List.mem_finRange j))
    split
    case h_1 i unused =>
      have free := List.find?_some unused
      simp only [decide_eq_true_eq] at free
      have count := walking.ref i
      have unowned : (k₀.icache i).ref = 0 := by omega
      refine meets_bind (meets_modify (f := fun _ => _) (meets_pure ⟨?_, ?_, fun j held => ?_⟩))
      · refine walking.set k.fs rfl rfl others_single ?_ (walking.locked i)
          (fun _ j _ held => missing j held)
          (fun held => ?_) (fun _ => (by rintro ⟨⟩)) fun _ _ => ?_
        · rw [single_self]
          simp only
          omega
        · omega
        · refine inodeAt_of_uncached fun j held same => absurd ?_ (missing j ?_)
          · rw [walking.inum j held]
            exact same
          · rw [walking.ref]
            exact Nat.add_pos_left held _
      · simp only [Kernel.set, Function.update_self]
      · have other : j ≠ i := by
          rintro rfl
          omega
        simp only [Kernel.set, Function.update_of_ne other]
    case h_2 none =>
      refine meets_throw ⟨rfl, fun i => Nat.pos_of_ne_zero ?_⟩
      simpa using List.find?_eq_none.mp none i (List.mem_finRange i)

theorem others_update {b : Bool} (j : Fin NINODE) (other : j ≠ i) :
    own j = own j ∧ Function.update locks i b j = locks j :=
  ⟨rfl, Function.update_of_ne other ..⟩

theorem lock_self {b : Bool} : Function.update locks i b i = b := Function.update_self ..

/-- `ilock` reads the inode of the tree. -/
theorem meets_ilock (walking : Walking k₀ own locks k) (tree : Tree k₀ S) (mine : 0 < own i)
    (mem : (k.icache i).inum ∈ S) :
    Meets (ilock i) k (fun e => e = .ilock ∧ locks i = true) fun _ k' =>
      locks i = false ∧ Walking k₀ own (Function.update locks i true) k' ∧
        (k'.icache i).toInode = ⟨inodeAt k₀ (k.icache i).inum, (k.icache i).inum⟩ := by
  have held := walking.held_of_own mine
  have count := walking.ref i
  refine meets_bind (meets_get ?_)
  rw [Kernel.ilock]
  simp only [if_neg (Nat.not_lt.mpr held)]
  by_cases busy : (k.icache i).locked = true
  · rw [if_pos busy]
    exact meets_throw ⟨rfl, (walking.locked i).symm.trans busy⟩
  · have free : locks i = false := (walking.locked i).symm.trans (eq_false_of_ne_true busy)
    rw [if_neg busy]
    by_cases valid : (k.icache i).valid = true
    · rw [if_pos valid]
      refine meets_modify (f := fun _ => _)
        ⟨free, walking.update held others_update count ?_ rfl rfl, ?_⟩
      · exact lock_self.symm
      · simp only [Kernel.set, Function.update_self]
        rw [← walking.cached i held valid]
    · rw [if_neg valid]
      have invalid := eq_false_of_ne_true valid
      have onDisk := walking.fresh i held invalid
      have loaded : Meets (Fs.loadInode (k.icache i).inum) k.fs (fun _ => False) fun d fs =>
          d = inodeAt k₀ (k.icache i).inum ∧ fs.sb = k.fs.sb ∧ fs.blk = k.fs.blk := by
        refine meets_bind (meets_get ?_)
        rw [walking.sb]
        have inside : k₀.fs.sb.iblock (k.icache i).inum < FSSIZE := by
          have bitmap : k₀.fs.sb.bmapstart < k₀.fs.sb.dataStart :=
            Nat.lt_succ_of_le (Nat.le_add_right _ _)
          exact ((Fs.iblock_lt tree.layout (tree.stored _ mem)).trans bitmap).trans_le
            (tree.layout.bitmap.trans tree.layout.disk)
        refine meets_bind (Fs.meets_bread inside fun calls =>
          meets_bind (Fs.meets_brelse fun calls => ?_))
        rw [onDisk, walking.blk]
        refine meets_ite (fun empty => ?_) fun _ => meets_pure ⟨rfl, walking.sb, rfl⟩
        have used := tree.used _ mem
        rw [onDisk] at used
        exact absurd empty used
      rcases loaded.returns (fun _ impossible => impossible) with ⟨d, fs, ran, value, sb, blk⟩
      have called : k.call (Fs.loadInode (k.icache i).inum) = some (d, { k with fs := fs }) := by
        rw [Kernel.call, ran]
      rw [called]
      refine meets_modify (f := fun _ => _)
        ⟨free, walking.set fs sb blk others_update count ?_ (fun _ j other held' equal => ?_)
        (fun _ => rfl) (fun _ _ => value) fun _ => (by rintro ⟨⟩), ?_⟩
      · exact lock_self.symm
      · exact other (walking.distinct j i held' held equal)
      · simp only [Kernel.set, Function.update_self, value]

/-- The walk gives back a lock that it has taken. -/
theorem meets_iunlock (walking : Walking k₀ own locks k) (mine : 0 < own i)
    (locked : locks i = true) :
    Meets (iunlock i) k (fun _ => False) fun _ k' =>
      Walking k₀ own (Function.update locks i false) k' ∧
      ∀ j, (k'.icache j).inum = (k.icache j).inum := by
  have held := walking.held_of_own mine
  refine meets_bind (meets_get ?_)
  rw [Kernel.iunlock]
  have ready : ¬((k.icache i).locked = false ∨ (k.icache i).ref < 1) := by
    rw [walking.locked, locked]
    rintro (unlocked | unused)
    · cases unlocked
    · omega
  simp only [if_neg ready]
  refine meets_modify (f := fun _ => _)
    ⟨walking.update held others_update (walking.ref i) ?_ rfl rfl, fun j => ?_⟩
  · exact lock_self.symm
  · by_cases same : j = i
    · subst same
      simp only [Kernel.set, Function.update_self]
    · simp only [Kernel.set, Function.update_of_ne same]

/-- `iput` does not free an inode of the tree. -/
theorem meets_iput (walking : Walking k₀ (own + Pi.single i 1) locks k) (tree : Tree k₀ S)
    (mem : (k.icache i).inum ∈ S) :
    Meets (iput i) k (fun e => e = .iput ∧ locks i = true) fun _ k' => Walking k₀ own locks k' ∧
      ∀ j, (k'.icache j).inum = (k.icache j).inum := by
  have count := walking.ref i
  rw [single_self] at count
  have held : 0 < (k.icache i).ref := by omega
  have stays : ¬((k.icache i).valid = true ∧ (k.icache i).nlink = 0 ∧ (k.icache i).ref = 1) := by
    rintro ⟨valid, unnamed, one⟩
    rcases tree.linked _ mem with named | ⟨j, user, same⟩
    · rw [← walking.cached i held valid] at named
      exact named unnamed
    · have also : j = i := by
        refine walking.distinct j i ?_ held ((walking.inum j user).trans same)
        rw [walking.ref]
        exact Nat.add_pos_left user _
      subst also
      omega
  refine meets_bind (meets_get ?_)
  rw [Kernel.iput]
  by_cases busy : (k.icache i).locked = true
  · rw [if_pos busy]
    exact meets_throw ⟨rfl, (walking.locked i).symm.trans busy⟩
  · rw [if_neg busy, if_neg stays]
    refine meets_modify (f := fun _ => _)
      ⟨walking.update held (fun j other => ?_) ?_ (walking.locked i) rfl rfl, fun j => ?_⟩
    · have kept : (own + Pi.single i 1 : Fin NINODE → ℕ) j = own j ∧ locks j = locks j :=
        others_single j other
      rw [kept.1]
      exact ⟨rfl, rfl⟩
    · simp only
      omega
    · by_cases same : j = i
      · subst same
        simp only [Kernel.set, Function.update_self]
      · simp only [Kernel.set, Function.update_of_ne same]

/-- `iunlockput` gives back the reference and the lock. -/
theorem meets_iunlockput (walking :
    Walking k₀ (own + Pi.single i 1) (Function.update locks i true) k) (tree : Tree k₀ S)
      (free : locks i = false) (mem : (k.icache i).inum ∈ S) :
    Meets (iunlockput i) k (fun _ => False) fun _ k' => Walking k₀ own locks k' ∧
      ∀ j, (k'.icache j).inum = (k.icache j).inum := by
  have mine : 0 < (own + Pi.single i 1 : Fin NINODE → ℕ) i := by
    rw [single_self]
    exact Nat.succ_pos _
  refine (walking.meets_iunlock mine lock_self).bind fun _ k₁ unlocked => ?_
  rcases unlocked with ⟨walking₁, same⟩
  rw [Function.update_idem, ← free, Function.update_eq_self] at walking₁
  refine meets_zoom ((walking₁.meets_iput tree ?_).mono (fun e stop => ?_) fun _ k₂ put =>
    ⟨put.1, fun j => ?_⟩)
  · rwa [same]
  · rw [free] at stop
    cases stop.2
  · exact (put.2 j).trans (same j)

/-- `dirlookup` finds the child. -/
theorem meets_dirlookup {name : Mem} (walking : Walking k₀ own locks k) (tree : Tree k₀ S)
    (mine : 0 < own dp) (mem : (k.icache dp).inum ∈ S) (type : (k.icache dp).type = T_DIR)
    (inode : (k.icache dp).toDinode = inodeAt k₀ (k.icache dp).inum) :
    Meets (dirlookup dev dp name) k (fun e => e = .iget ∧ ∀ i, 0 < (k.icache i).ref) fun r k' =>
      Walking k₀ (own + refOf (r.map Prod.snd)) locks k' ∧
        r.map (fun x => (k'.icache x.2).inum) = child k₀ (k.icache dp).inum (text DIRSIZ name) ∧
        ∀ j, 0 < (k.icache j).ref → (k'.icache j).inum = (k.icache j).inum := by
  have type₀ : (inodeAt k₀ (k.icache dp).inum).type = T_DIR := by rw [← inode, type]
  have whole : (k.icache dp).toInode = ⟨inodeAt k₀ (k.icache dp).inum, (k.icache dp).inum⟩ := by
    rw [← inode]
  have isDir : IsDir k dp := by
    refine ⟨?_, type, ?_, walking.held_of_own mine⟩
    · rw [walking.sb, walking.blk, whole]
      exact tree.owned _ mem type₀
    · rw [whole]
      exact tree.whole _ mem type₀
  have enough : (entries k dp).length - 0 ≤ (k.icache dp).size.toNat := by
    rw [IsDir.length_entries]
    exact (Nat.sub_le _ _).trans (Nat.div_le_self _ _)
  have looked : child k₀ (k.icache dp).inum (text DIRSIZ name) =
      (lookup (entries k dp) (text DIRSIZ name)).map BitVec.toNat := by
    rw [child, if_pos type₀, entries, inode, walking.blk]
  refine meets_bind (meets_get (meets_ite (fun other => absurd type other) fun _ => ?_))
  refine meets_bind (meets_get ((isDir.meets_lookupLoop enough).bind fun r k₁ found => ?_))
  rcases found with ⟨seen, found⟩
  rw [List.drop_zero] at found
  have number : r.map Prod.snd = lookup (entries k dp) (text DIRSIZ name) := by
    rw [found, lookup, Option.map_map]
    rfl
  rw [looked, ← number]
  have walking₁ := walking.read seen
  cases r with
  | none =>
      refine meets_pure ⟨walking₁, rfl, fun j _ => ?_⟩
      rw [seen.icache]
  | some x =>
      refine ((walking₁.meets_iget x.2.toNat).mono (fun e full => ?_) fun _ _ => id).bind
        fun i k₂ got => ?_
      · rwa [seen.icache] at full
      · rw [seen.icache] at got
        exact meets_pure ⟨got.1, congrArg some got.2.1, got.2.2⟩

end Walking

/-! ## The loop -/

section Loop

variable {path : List Byte} {name : Mem} {ip : Fin NINODE} {turns : ℕ} {parent : Bool}

/-- What `namex` has found: the number of the inode, and for `nameiparent` the name. -/
def Found (k₀ k : Kernel) (parent : Bool) (n : ℕ) (names : List (List Byte))
    (r : Option (Fin NINODE × Mem)) : Prop :=
  if parent then r.map (fun x => ((k.icache x.1).inum, text DIRSIZ x.2)) = walkParent k₀ n names
  else r.map (fun x => (k.icache x.1).inum) = walk k₀ n names

theorem found_cons {k : Kernel} {n m : ℕ} {x : List Byte} {xs : List (List Byte)}
    {r : Option (Fin NINODE × Mem)} (step : child k₀ n x = some m) (more : parent = true → xs ≠ [])
    (found : Found k₀ k parent m xs r) :
    Found k₀ k parent n (x :: xs) r := by
  cases parent with
  | false => exact Eq.trans found (by rw [walk_cons, step, Option.bind_some])
  | true => exact Eq.trans found (by rw [walkParent_cons n x (more rfl), step, Option.bind_some])

/-- The walk has failed where a name leads nowhere. -/
theorem found_none {k : Kernel} {n : ℕ} {x : List Byte} {xs : List (List Byte)}
    (step : child k₀ n x = none) (more : parent = true → xs = [] → (inodeAt k₀ n).type ≠ T_DIR) :
    Found k₀ k parent n (x :: xs) none := by
  cases parent with
  | false =>
      refine Eq.symm ?_
      rw [walk_cons, step, Option.bind_none, Option.map_none]
  | true =>
      refine Eq.symm ?_
      cases xs with
      | nil => rw [walkParent_singleton, if_neg (more rfl rfl), Option.map_none]
      | cons y xs => rw [walkParent_cons n x (List.cons_ne_nil y xs), step, Option.bind_none,
        Option.map_none]

theorem skipelem_shorter {rest : List Byte} {name' : Mem}
    (taken : skipelem path name = some (rest, name')) :
    rest.length < path.length := by
  rw [skipelem] at taken
  rcases Option.map_eq_some_iff.mp taken with ⟨x, found, ⟨⟩⟩
  exact Strings.element_shorter found

/-- The path has no more elements. -/
theorem meets_pathEnd (tree : Tree k₀ S) (walking : Walking k₀ (Pi.single ip 1) (locksOf k₀) k)
    (mem : (k.icache ip).inum ∈ S) :
    Meets (pathEnd parent ip name) k (Blocked k₀) fun r k' =>
      Walking k₀ (refOf (r.map Prod.fst)) (locksOf k₀) k' ∧
        Found k₀ k' parent (k.icache ip).inum [] r := by
  cases parent with
  | false => exact meets_pure ⟨walking, rfl⟩
  | true =>
      rw [← zero_add (Pi.single ip 1)] at walking
      refine meets_bind (meets_onDir
        ((walking.meets_iput tree mem).mono (fun e stop => ?_) fun _ k₁ put => ?_))
      · exact .inr ⟨.inr (congrArg PathStop.dir stop.1), ip, stop.2⟩
      · exact meets_pure ⟨put.1, rfl⟩

/-- The loop of `namex` takes one step of the walk in each turn. -/
theorem meets_pathLoop (tree : Tree k₀ S) (walking : Walking k₀ (Pi.single ip 1) (locksOf k₀) k)
    (mem : (k.icache ip).inum ∈ S) (enough : path.length ≤ turns) :
    Meets (pathLoop dev parent turns ip path name) k (Blocked k₀) fun r k' =>
      Walking k₀ (refOf (r.map Prod.fst)) (locksOf k₀) k' ∧
        Found k₀ k' parent (k.icache ip).inum (elements (cstring path)) r := by
  induction turns generalizing k ip path name with
  | zero =>
      rw [List.length_eq_zero_iff.mp (Nat.le_zero.mp enough)]
      exact meets_pathEnd tree walking mem
  | succ turns ih =>
      rw [pathLoop]
      have texts := skipelem_text path name
      cases taken : skipelem path name with
      | none =>
          rw [taken] at texts
          rw [elements_of_none (plain_cstring path) texts.symm]
          exact meets_pathEnd tree walking mem
      | some x =>
          rcases x with ⟨rest, name'⟩
          rw [taken] at texts
          rcases elements_of_some (plain_cstring path) texts.symm with ⟨first, last⟩
          have shorter := skipelem_shorter taken
          rw [first]
          have mine : 0 < (Pi.single ip 1 : Fin NINODE → ℕ) ip := by
            rw [Pi.single_eq_same]
            exact Nat.one_pos
          refine meets_bind ((walking.meets_ilock tree mine mem).mono (fun e stop => ?_)
            fun _ k₁ lock => ?_)
          · exact .inr ⟨.inl stop.1, ip, stop.2⟩
          rcases lock with ⟨unlocked, walking₁, inode⟩
          have inum : (k₁.icache ip).inum = (k.icache ip).inum := by rw [inode]
          have fields : (k₁.icache ip).toDinode = inodeAt k₀ (k.icache ip).inum := by rw [inode]
          have put : ∀ {own : Fin NINODE → ℕ} {k₂ : Kernel},
              Walking k₀ (own + Pi.single ip 1) (Function.update (locksOf k₀) ip true) k₂ →
              (k₂.icache ip).inum = (k.icache ip).inum →
              Meets (iunlockput ip) k₂ (Blocked k₀) fun _ k₃ => Walking k₀ own (locksOf k₀) k₃ ∧
                ∀ j, (k₃.icache j).inum = (k₂.icache j).inum := by
            intro own k₂ walking₂ same
            refine (walking₂.meets_iunlockput tree unlocked ?_).mono (fun _ => False.elim)
              fun _ _ => id
            rwa [same]
          have still : (k₁.icache ip).inum ∈ S := by rwa [inum]
          refine meets_bind (meets_get (meets_ite (fun other => ?_) fun directory => ?_))
          · rw [fields] at other
            rw [← zero_add (Pi.single ip 1)] at walking₁
            refine (put walking₁ inum).bind fun _ k₂ done =>
              meets_pure ⟨done.1, found_none ?_ fun _ _ => other⟩
            exact if_neg other
          have type : (k₁.icache ip).type = T_DIR := not_not.mp directory
          refine meets_ite (fun stop => ?_) fun goOn => ?_
          · -- One level early.
            rw [headD_eq_zero, ← last] at stop
            refine meets_bind ((walking₁.meets_iunlock mine Walking.lock_self).mono
              (fun _ => False.elim) fun _ k₂ done => ?_)
            rcases done with ⟨walking₂, same⟩
            rw [Function.update_idem, ← unlocked, Function.update_eq_self] at walking₂
            refine meets_pure ⟨walking₂, ?_⟩
            rw [stop.1, stop.2, Found, if_pos rfl, walkParent_singleton, ← fields, if_pos type,
              Option.map_some,
              same, inum]
          have more : parent = true → elements (cstring rest) ≠ [] := by
            intro isParent nothing
            rw [headD_eq_zero, ← last] at goOn
            exact goOn ⟨isParent, nothing⟩
          refine meets_bind (meets_onDir
            ((walking₁.meets_dirlookup tree mine still type ?_).mono (fun e full => ?_)
            fun found k₂ looked => ?_))
          · rw [fields, inum]
          · refine .inl ⟨congrArg PathStop.dir full.1, ip, fun j other => ?_⟩
            have held := full.2 j
            rw [walking₁.ref, Pi.single_eq_of_ne other] at held
            exact held
          rcases looked with ⟨walking₂, isChild, same⟩
          rw [inum] at isChild
          have same' := (same ip (walking₁.held_of_own mine)).trans inum
          cases found with
          | none =>
              rw [add_comm] at walking₂
              refine (put walking₂ same').bind fun _ k₃ done =>
                meets_pure ⟨done.1, found_none isChild.symm ?_⟩
              exact fun isParent nothing => absurd nothing (more isParent)
          | some x =>
              rcases x with ⟨off, next⟩
              rw [add_comm] at walking₂
              refine (put walking₂ same').bind fun _ k₃ done => ?_
              have number : (k₃.icache next).inum = (k₂.icache next).inum := done.2 next
              refine (ih done.1 ?_ (by omega)).mono (fun _ => id) fun r k₄ ended => ⟨ended.1, ?_⟩
              · rw [number]
                exact tree.closed _ mem _ _ isChild.symm
              · have found := ended.2
                rw [number] at found
                exact found_cons isChild.symm more found

/-- `namex` ends where the walk ends. -/
theorem meets_namex {cwd : Fin NINODE} (tree : Tree k S) (held : 0 < (k.icache cwd).ref)
    (mem : (k.icache cwd).inum ∈ S) :
    Meets (namex dev cwd path parent name) k (Blocked k) fun r k' =>
      Found k k' parent (origin k cwd path) (elements (cstring path)) r := by
  have walking := Walking.start tree.distinct
  have rest : ∀ {ip : Fin NINODE} {k₁ : Kernel}, Walking k (Pi.single ip 1) (locksOf k) k₁ →
      (k₁.icache ip).inum = origin k cwd path →
      Meets (pathLoop dev parent path.length ip path name) k₁ (Blocked k) fun r k' =>
        Found k k' parent (origin k cwd path) (elements (cstring path)) r := by
    intro ip k₁ walking₁ inum
    have begins : (k₁.icache ip).inum ∈ S := by
      rw [inum, origin]
      split
      · exact tree.root
      · exact mem
    refine (meets_pathLoop tree walking₁ begins le_rfl).mono (fun _ => id) fun r k₂ ended => ?_
    rw [← inum]
    exact ended.2
  refine meets_ite (fun absolute => ?_) fun relative => ?_
  · refine meets_bind (meets_onDir
      ((walking.meets_iget ROOTINO).mono (fun e full => ?_) fun i k₁ got => ?_))
    · exact .inl ⟨congrArg PathStop.dir full.1, cwd, fun j _ => full.2 j⟩
    · rw [zero_add] at got
      refine rest got.1 ?_
      rw [origin, if_pos absolute, got.2.1]
  · have duplicated := walking.idup held
    rw [zero_add] at duplicated
    refine meets_bind (meets_bind (meets_modify (meets_pure (rest duplicated ?_))))
    rw [origin, if_neg relative, Kernel.idup, Kernel.set]
    simp only [Function.update_self]

/-- Path resolution is the walk over the elements of the path. -/
theorem path_resolution {cwd : Fin NINODE} (tree : Tree k S) (held : 0 < (k.icache cwd).ref)
    (mem : (k.icache cwd).inum ∈ S) (path : List Byte) (name : Mem) :
    Meets (namei dev cwd path name) k (Blocked k) (fun r k' =>
      r.map (fun ip => (k'.icache ip).inum) =
        walk k (origin k cwd path) (elements (cstring path))) ∧
    Meets (nameiparent dev cwd path name) k (Blocked k) fun r k' =>
      r.map (fun x => ((k'.icache x.1).inum, text DIRSIZ x.2)) =
        walkParent k (origin k cwd path) (elements (cstring path)) := by
  refine ⟨(meets_namex tree held mem).bind fun r k₁ found =>
    meets_pure ?_, meets_namex tree held mem⟩
  rw [Option.map_map]
  exact found

/-- A kernel that uses an empty root directory. -/
def emptyRoot : Kernel where
  fs := Fs.emptySt
  icache := fun i =>
    if i = 0 then ⟨Fs.emptyInode T_DIR ROOTINO, 1, true, false⟩
      else ⟨Fs.emptyInode 0 0, 0, false, false⟩

theorem isDir_emptyRoot : IsDir emptyRoot 0 where
  owned := by
    refine Fs.Owned.of_empty Fs.layout_mkfs Fs.low_emptyDisk ?_ (fun _ _ _ => rfl) fun _ => rfl
    decide
  type := rfl
  whole := rfl
  held := by decide

theorem linked_of_ok {dp : Fin NINODE} {name : Mem} {inum : Word} {r : ℤ} (isDir : IsDir k dp)
    (returned : dirlink dev dp name inum k = .ok (r, k')) : Linked dp name inum k r k' :=
  isDir.meets_dirlink.of_ok returned

/-- The root has been entered in itself under the name "a". -/
theorem path_resolution_loop :
    ∃ k, dirlink Fs.noDevices 0 (pointer [0x61]) 1 emptyRoot = .ok (0, k) ∧
    Meets (namei Fs.noDevices 0 [0x2f, 0x61, 0x2f, 0x2f, 0x61] fun _ => 0) k (fun _ => False)
      (fun r k' => r.map (fun ip => (k'.icache ip).inum) = some 1) ∧
    Meets (nameiparent Fs.noDevices 0 [0x61, 0x2f, 0x62, 0x2f] fun _ => 0) k (fun _ => False)
      fun r k' => r.map (fun x => ((k'.icache x.1).inum, text DIRSIZ x.2)) = some (1, [0x62]) := by
  have outcome : (dirlink Fs.noDevices 0 (pointer [0x61]) 1 emptyRoot).toOption.map (fun r =>
        (r.1, (List.finRange NINODE).map fun i =>
          ((r.2.icache i).ref, (r.2.icache i).inum, (r.2.icache i).valid, (r.2.icache i).locked))) =
      some (0, (List.finRange NINODE).map fun i => if i = 0 then (1, ROOTINO, true, false)
        else (0, 0, false, false)) := by
    decide +kernel
  rcases ok_of_evaluated outcome with ⟨⟨r, k⟩, returned, value⟩
  rw [Prod.mk.injEq] at value
  rcases value with ⟨rfl, cache⟩
  have entry := fun i => List.map_inj_left.mp cache i (List.mem_finRange i)
  refine ⟨k, returned, ?_⟩
  have linked := linked_of_ok isDir_emptyRoot returned
  have isRoot := entry 0
  rw [if_pos rfl, Prod.mk.injEq, Prod.mk.injEq, Prod.mk.injEq] at isRoot
  rcases isRoot with ⟨ref, inum, valid, unlocked⟩
  have unused : ∀ j ≠ 0, (k.icache j).ref = 0 ∧ (k.icache j).locked = false := by
    intro j other
    have rest := entry j
    rw [if_neg other, Prod.mk.injEq, Prod.mk.injEq, Prod.mk.injEq] at rest
    exact ⟨rest.1, rest.2.2.2⟩
  have first : ∀ j, 0 < (k.icache j).ref → j = 0 := by
    intro j held
    by_contra other
    rw [(unused j other).1] at held
    exact absurd held (lt_irrefl 0)
  have distinct : ∀ i j, 0 < (k.icache i).ref → 0 < (k.icache j).ref →
      (k.icache i).inum = (k.icache j).inum → i = j :=
    fun i j held held' _ => (first i held).trans (first j held').symm
  have held : 0 < (k.icache 0).ref := ref.ge
  have inode : inodeAt k 1 = (k.icache 0).toDinode := by
    rw [← inodeAt_of_cached distinct held valid]
    exact congrArg (inodeAt k) inum.symm
  have type : (inodeAt k 1).type = T_DIR := by rw [inode, linked.isDir.type]
  have children : ∀ name, child k 1 name = if name = [0x61] then some 1 else none := by
    intro name
    have entered := congrFun (linked.names_eq rfl) name
    rw [child, if_pos type, inode]
    refine (congrArg (Option.map BitVec.toNat) entered).trans ?_
    change Option.map BitVec.toNat (Function.update (fun _ => none) [0x61] (some 1) name) = _
    by_cases same : name = [0x61]
    · subst same
      rfl
    · rw [Function.update_of_ne same, if_neg same]
      rfl
  have tree : Tree k {1} := by
    refine ⟨linked.isDir.owned.layout, distinct, rfl, ?_, ?_, ?_, ?_, ?_, ?_⟩
    all_goals rintro n rfl
    · exact lt_of_eq_of_lt inum.symm (linked.isDir.owned.inum ())
    · rw [type]
      decide
    · exact .inr ⟨0, held, inum⟩
    · intro _
      have whole : (k.icache 0).toInode = ⟨(k.icache 0).toDinode, 1⟩ :=
        Inode.ext rfl rfl rfl rfl rfl rfl inum
      rw [inode, ← whole]
      exact linked.isDir.owned
    · intro _
      rw [inode]
      exact linked.isDir.whole
    · intro name m found
      rw [children] at found
      split at found
      · cases found
        rfl
      · cases found
  have free : ∀ e, ¬Blocked k e := by
    rintro e (⟨_, i, full⟩ | ⟨_, i, busy⟩)
    · have spare : ∃ j : Fin NINODE, j ≠ i ∧ j ≠ 0 := by
        by_cases same : i = 1
        · exact ⟨2, by rw [same]; decide, by decide⟩
        · exact ⟨1, Ne.symm same, by decide⟩
      rcases spare with ⟨j, other, notRoot⟩
      exact absurd (full j other) (Nat.not_lt.mpr (unused j notRoot).1.le)
    · by_cases same : i = 0
      · rw [same, unlocked] at busy
        cases busy
      · rw [(unused i same).2] at busy
        cases busy
  rcases @path_resolution Fs.noDevices k {1} 0 tree held inum [0x2f, 0x61, 0x2f, 0x2f, 0x61]
    (fun _ => 0) with ⟨resolved, _⟩
  rcases @path_resolution Fs.noDevices k {1} 0 tree held inum [0x61, 0x2f, 0x62, 0x2f] (fun _ => 0)
    with ⟨_, parent⟩
  refine ⟨resolved.mono (fun e stop => free e stop) fun r k' found => found.trans ?_,
    parent.mono (fun e stop => free e stop) fun r k' found => found.trans ?_⟩
  · have names : elements (cstring [0x2f, 0x61, 0x2f, 0x2f, 0x61]) = [[0x61], [0x61]] := by decide
    rw [names, origin, if_pos (by decide), walk_cons, children, if_pos rfl, Option.bind_some,
      walk_cons, children,
      if_pos rfl]
    rfl
  · have names : elements (cstring [0x61, 0x2f, 0x62, 0x2f]) = [[0x61], [0x62]] := by decide
    rw [names, origin, if_neg (by decide), inum, walkParent_cons _ _ (List.cons_ne_nil _ _),
      children, if_pos rfl,
      Option.bind_some, walkParent_singleton, if_pos type]

end Loop

end Xv6.Dir
