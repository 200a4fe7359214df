import Xv6.Vm.Owner

/-!
# Allocation

What `kalloc` and `kfree` do to the owners of pages. `Frame` is the frame of every
function that works on one page directory: pages change hands only between the free
list, the running call and that directory, and no other page is written. `Drawn` says
how many pages a call has taken from the free list, for page tables and otherwise.
-/

namespace Xv6.Vm

open Prog

variable {L : Link} {m m' m'' : Mem} {o o' o'' : ℕ → Owner} {p q t d i v e : ℕ}

/-! ## Frames -/

/-- The shared pages belong to nobody else, and none has been freed. -/
structure Tidy (m : Mem) (o : ℕ → Owner) : Prop where
  shared : ∀ k, m.smAddr k = 0 ∨ o (m.smAddr k) = .shared k
  clean : m.misfreed = false

/-- Owners that may change in a call that works on directory `q`. -/
def Mine (q : ℕ) : Owner → Prop
  | .free => True
  | .temp => True
  | .table q' _ => q' = q
  | .user q' _ => q' = q
  | _ => False

structure Frame (q : ℕ) (m m' : Mem) (o o' : ℕ → Owner) : Prop where
  isDir : o q = .dir
  owner : ∀ p, o' p = o p ∨ Mine q (o p) ∧ Mine q (o' p)
  page : ∀ p, p ≠ q → ¬Mine q (o p) → o p ≠ .outside → m'.page p = m.page p
  smAddr : m'.smAddr = m.smAddr
  failed : m.failed = true → m'.failed = true
  clean : Tidy m o → m'.misfreed = false

namespace Frame

theorem refl (isDir : o q = .dir) : Frame q m m o o where
  isDir := isDir
  owner := fun _ => Or.inl rfl
  page := fun _ _ _ _ => rfl
  smAddr := rfl
  failed := id
  clean := fun tidy => tidy.clean

/-- Owners that are not the call's own stay. -/
theorem same (frame : Frame q m m' o o') (other : ¬Mine q (o p)) : o' p = o p := by
  rcases frame.owner p with same | ⟨was, _⟩
  · exact same
  · exact absurd was other

theorem same_of_now (frame : Frame q m m' o o') (other : ¬Mine q (o' p)) : o' p = o p := by
  rcases frame.owner p with same | ⟨_, now⟩
  · exact same
  · exact absurd now other

theorem dir_iff (frame : Frame q m m' o o') : o' p = .dir ↔ o p = .dir := by
  constructor
  · intro isDir
    rw [← frame.same_of_now (by rw [isDir]; exact id), isDir]
  · intro isDir
    rw [frame.same (by rw [isDir]; exact id), isDir]

theorem tidy (frame : Frame q m m' o o') (tidy : Tidy m o) : Tidy m' o' where
  shared := by
    intro k
    rw [frame.smAddr]
    rcases tidy.shared k with zero | owner
    · exact Or.inl zero
    · exact Or.inr (by rw [frame.same (by rw [owner]; exact id), owner])
  clean := frame.clean tidy

theorem trans (first : Frame q m m' o o') (second : Frame q m' m'' o' o'') :
    Frame q m m'' o o'' where
  isDir := first.isDir
  owner := by
    intro p
    rcases second.owner p with same | ⟨was, now⟩
    · rw [same]
      exact first.owner p
    · rcases first.owner p with same | ⟨was', _⟩
      · rw [same] at was
        exact Or.inr ⟨was, now⟩
      · exact Or.inr ⟨was', now⟩
  page := by
    intro p other notMine known
    have same := first.same notMine
    rw [second.page p other (by rwa [same]) (by rwa [same]), first.page p other notMine known]
  smAddr := second.smAddr.trans first.smAddr
  failed := fun failed => second.failed (first.failed failed)
  clean := fun tidy => second.clean (first.tidy tidy)

/-- Other directories and their page tables are as before. -/
theorem pte {q' : ℕ} (frame : Frame q m m' o o') (owned : Owned L m o) (other : q' ≠ q)
    (isDir : o q' = .dir) (inside : v < 2 ^ 20) : m'.pte q' v = m.pte q' v := by
  have sameDir : m'.entry q' (v / NPTENTRIES) = m.entry q' (v / NPTENTRIES) := by
    refine Mem.entry_congr (frame.page q' other ?_ ?_) <;> rw [isDir]
    · exact id
    · simp
  rcases owned.pte_cases isDir inside with ⟨none, zero⟩ | ⟨t, linked, table, eq⟩
  · rw [zero, Mem.pte_of_none (sameDir.trans none)]
  · rw [eq, Mem.pte_of_pde (by rwa [sameDir])]
    have notDir : t ≠ q := by
      rintro rfl
      rw [frame.isDir] at table
      cases table
    refine Mem.entry_congr (frame.page t notDir ?_ ?_) <;> rw [table]
    · exact other
    · simp

end Frame

/-- A frame that leaves nothing with the running call that was not there before. -/
structure Kept (q : ℕ) (m m' : Mem) (o o' : ℕ → Owner) : Prop extends Frame q m m' o o' where
  temps : ∀ p, o' p = .temp → o p = .temp

namespace Kept

theorem refl (isDir : o q = .dir) : Kept q m m o o where
  toFrame := Frame.refl isDir
  temps := fun _ => id

theorem trans (first : Kept q m m' o o') (second : Kept q m' m'' o' o'') : Kept q m m'' o o'' where
  toFrame := first.toFrame.trans second.toFrame
  temps := fun p temp => first.temps p (second.temps p temp)

/-- A page that the call has allocated has found its place. -/
theorem of_alloc (alloc : Frame q m m' o (Function.update o p .temp))
    (kept : Kept q m' m'' (Function.update o p .temp) o') (placed : o' p ≠ .temp) :
    Kept q m m'' o o' where
  toFrame := alloc.trans kept.toFrame
  temps := by
    intro r temp
    have was := kept.temps r temp
    by_cases same : r = p
    · exact absurd (same ▸ temp) placed
    · rwa [Function.update_of_ne same] at was

end Kept

/-! ## Pages drawn from the free list -/

/-- The number of page tables that directory `q` lacks at the indices `S`. -/
def missing (S : Finset ℕ) (q : ℕ) (m : Mem) : ℕ := (S.filter fun d => m.entry q d = 0).card

/-- `n` calls of `kalloc` have succeeded. -/
structure Allocs (n : ℕ) (m m' : Mem) : Prop where
  list : ∃ c, c.length = n ∧ m.freelist = c ++ m'.freelist
  faults : m'.faults = m.faults.drop n
  fine : ∀ k < n, m.faults.getD k false = false

/-- After `n` calls of `kalloc` that succeed, the next one fails. -/
structure FailsAt (n : ℕ) (m : Mem) : Prop where
  room : n ≤ m.freelist.length
  fine : ∀ k < n, m.faults.getD k false = false
  stuck : m.faults.getD n false = true ∨ m.freelist.length = n

namespace Allocs

variable {n n' : ℕ}

theorem refl : Allocs 0 m m :=
  ⟨⟨[], rfl, rfl⟩, rfl, fun _ impossible => absurd impossible (Nat.not_lt_zero _)⟩

theorem getD (allocs : Allocs n m m') (k : ℕ) :
    m'.faults.getD k false = m.faults.getD (n + k) false := by
  rw [allocs.faults]
  simp [List.getD_eq_getElem?_getD]

theorem length (allocs : Allocs n m m') : m.freelist.length = n + m'.freelist.length := by
  rcases allocs.list with ⟨c, count, list⟩
  rw [list, List.length_append, count]

theorem trans (first : Allocs n m m') (second : Allocs n' m' m'') : Allocs (n + n') m m'' where
  list := by
    rcases first.list with ⟨c, count, list⟩
    rcases second.list with ⟨c', count', list'⟩
    exact ⟨c ++ c', by rw [List.length_append, count, count'], by
      rw [list, list', List.append_assoc]⟩
  faults := by rw [second.faults, first.faults, List.drop_drop]
  fine := by
    intro k below
    by_cases early : k < n
    · exact first.fine k early
    · have later := second.fine (k - n) (by omega)
      rwa [first.getD, show n + (k - n) = k by omega] at later

/-- A later failure is one after so many allocations more. -/
theorem failsAt (allocs : Allocs n m m') (fails : FailsAt n' m') : FailsAt (n + n') m where
  room := by
    rw [allocs.length]
    exact Nat.add_le_add_left fails.room n
  fine := by
    intro k below
    by_cases early : k < n
    · exact allocs.fine k early
    · have later := fails.fine (k - n) (by omega)
      rwa [allocs.getD, show n + (k - n) = k by omega] at later
  stuck := by
    rw [← allocs.getD, allocs.length]
    exact fails.stuck.imp_right fun all => by rw [all]

/-- After some allocations the failure is that much nearer. -/
theorem failsAt_rest (allocs : Allocs n m m') (fails : FailsAt (n + n') m) : FailsAt n' m' where
  room := by
    have room := fails.room
    rw [allocs.length] at room
    exact Nat.le_of_add_le_add_left room
  fine := by
    intro k below
    rw [allocs.getD]
    exact fails.fine (n + k) (Nat.add_lt_add_left below n)
  stuck := by
    rw [allocs.getD]
    refine fails.stuck.imp_right fun all => ?_
    rw [allocs.length] at all
    exact Nat.add_left_cancel all

theorem le_of_failsAt (allocs : Allocs n m m') (fails : FailsAt n' m) : n ≤ n' := by
  by_contra more
  rcases fails.stuck with fault | all
  · rw [allocs.fine n' (by omega)] at fault
    cases fault
  · have := allocs.length
    omega

end Allocs

/-- There is one first failure. -/
theorem FailsAt.unique {n n' : ℕ} (fails : FailsAt n m) (fails' : FailsAt n' m) : n = n' := by
  have atMost : ∀ k k', FailsAt k m → FailsAt k' m → k ≤ k' := by
    intro k k' one two
    by_contra more
    rcases two.stuck with fault | all
    · rw [one.fine k' (by omega)] at fault
      cases fault
    · have := one.room
      omega
  exact le_antisymm (atMost n n' fails fails') (atMost n' n fails' fails)

/-- Pages have been taken from the free list: `n`, and one for each new page table in `S`. -/
def Drawn (S : Finset ℕ) (q n : ℕ) (m m' : Mem) : Prop :=
  ∃ c, Allocs c m m' ∧ c + missing S q m' = missing S q m + n

namespace Drawn

variable {S : Finset ℕ} {n n' : ℕ}

theorem refl : Drawn S q 0 m m :=
  ⟨0, Allocs.refl, Nat.zero_add _⟩

theorem trans (first : Drawn S q n m m') (second : Drawn S q n' m' m'') :
    Drawn S q (n + n') m m'' := by
  rcases first with ⟨c, allocs, count⟩
  rcases second with ⟨c', allocs', count'⟩
  exact ⟨c + c', allocs.trans allocs', by omega⟩

theorem congr (drawn : Drawn S q n m m') (freelist : m''.freelist = m'.freelist)
    (faults : m''.faults = m'.faults) (entries : ∀ d, m''.entry q d = m'.entry q d) :
    Drawn S q n m m'' := by
  rcases drawn with ⟨c, allocs, count⟩
  refine ⟨c, ⟨by rw [freelist]; exact allocs.list, by
    rw [faults]; exact allocs.faults, allocs.fine⟩, ?_⟩
  simpa only [missing, entries] using count

end Drawn

/-- The free list is too short for `n` pages and the page tables that directory `q` lacks at `S`,
or a call of `kalloc` for them fails. -/
def Short (S : Finset ℕ) (q n : ℕ) (m : Mem) : Prop := ∃ k, k < missing S q m + n ∧ FailsAt k m

theorem Short.of_drawn {S : Finset ℕ} {n n' : ℕ} (drawn : Drawn S q n m m')
    (short : Short S q n' m') : Short S q (n + n') m := by
  rcases drawn with ⟨c, allocs, count⟩
  rcases short with ⟨k, below, fails⟩
  exact ⟨c + k, by omega, allocs.failsAt fails⟩

/-! ## kalloc and kfree -/

/-- Nothing but the record of failures has changed. -/
structure Quiet (m m' : Mem) : Prop where
  page : m'.page = m.page
  freelist : m'.freelist = m.freelist
  smAddr : m'.smAddr = m.smAddr
  misfreed : m'.misfreed = m.misfreed
  failed : m'.failed = true
  faults : m'.faults = m.faults.tail

theorem Quiet.entry (quiet : Quiet m m') : m'.entry p i = m.entry p i :=
  Mem.entry_congr (by rw [quiet.page])

theorem Quiet.pte (quiet : Quiet m m') : m'.pte q v = m.pte q v := by
  simp only [Mem.pte, quiet.entry]

theorem Owned.of_quiet (owned : Owned L m o) (quiet : Quiet m m') : Owned L m' o :=
  owned.of_kept (fun r _ => by rw [quiet.page]) quiet.smAddr quiet.freelist

theorem Kept.of_quiet (isDir : o q = .dir) (quiet : Quiet m m') : Kept q m m' o o where
  isDir := isDir
  owner := fun _ => Or.inl rfl
  temps := fun _ => id
  page := fun _ _ _ _ => by rw [quiet.page]
  smAddr := quiet.smAddr
  failed := fun _ => quiet.failed
  clean := fun tidy => by rw [quiet.misfreed, tidy.clean]

/-- What `kalloc` has done when it returns page `p`. -/
structure Taken (L : Link) (p : ℕ) (m m' : Mem) (o : ℕ → Owner) : Prop where
  free : o p = .free
  owned : Owned L m' (Function.update o p .temp)
  page : m'.page = m.page
  smAddr : m'.smAddr = m.smAddr
  failed : m'.failed = m.failed
  misfreed : m'.misfreed = m.misfreed
  freelist : m.freelist = p :: m'.freelist
  faults : m'.faults = m.faults.tail
  fine : m.faults.getD 0 false = false

/-- A page has been taken, and nothing else has changed. -/
theorem Taken.frame (taken : Taken L p m m' o) (isDir : o q = .dir) :
    Frame q m m' o (Function.update o p .temp) where
  isDir := isDir
  owner := by
    intro r
    by_cases same : r = p
    · subst same
      rw [Function.update_self, taken.free]
      exact Or.inr ⟨trivial, trivial⟩
    · exact Or.inl (Function.update_of_ne same _ _)
  page := fun _ _ _ _ => by rw [taken.page]
  smAddr := taken.smAddr
  failed := fun failed => by rw [taken.failed, failed]
  clean := fun tidy => by rw [taken.misfreed, tidy.clean]

theorem Taken.entry (taken : Taken L p m m' o) : m'.entry t i = m.entry t i :=
  Mem.entry_congr (by rw [taken.page])

theorem Taken.pte (taken : Taken L p m m' o) : m'.pte q v = m.pte q v := by
  simp only [Mem.pte, taken.entry]

theorem Taken.allocs (taken : Taken L p m m' o) : Allocs 1 m m' where
  list := ⟨[p], rfl, taken.freelist⟩
  faults := by rw [taken.faults, List.drop_one]
  fine := by
    intro k below
    rw [Nat.lt_one_iff.mp below]
    exact taken.fine

theorem Taken.drawn (taken : Taken L p m m' o) (S : Finset ℕ) : Drawn S q 1 m m' :=
  ⟨1, taken.allocs, by simp only [missing, taken.entry]; omega⟩

/-- `kalloc` takes a free page, or fails and changes nothing. -/
theorem meets_kalloc {E : Panic → Prop} {Q : Option ℕ → Mem → Prop} (owned : Owned L m o)
    (none : ∀ m', Quiet m m' → FailsAt 0 m → Q none m')
    (some : ∀ p m', Taken L p m m' o → Q (some p) m') :
    Meets kalloc m E Q := by
  unfold Meets kalloc
  split
  next a m' returned =>
    split at returned
    next p rest noFault list =>
      cases returned
      have nodup := owned.nodup
      rw [list, List.nodup_cons] at nodup
      have isFree : o p = .free := (owned.free p).mp (by rw [list]; exact List.mem_cons_self)
      refine some p _ ⟨isFree, ?_, rfl, rfl, rfl, rfl, list, rfl, ?_⟩
      · refine owned.relabel (by rw [isFree]; trivial) trivial (fun _ _ => rfl)
          (fun _ _ => rfl) nodup.2 ?_
        intro r
        by_cases same : r = p
        · subst same
          simp [nodup.1]
        · rw [Function.update_of_ne same, ← owned.free r, list]
          simp [same]
      · rw [← noFault]
        cases m.faults <;> rfl
    next stuck =>
      cases returned
      refine none _ ⟨rfl, rfl, rfl, rfl, rfl, rfl⟩ ?_
      refine ⟨Nat.zero_le _, fun _ impossible => absurd impossible (Nat.not_lt_zero _), ?_⟩
      cases list : m.freelist with
      | nil => exact Or.inr rfl
      | cons p rest =>
          left
          have fault := fun noFault => stuck p rest noFault list
          cases faults : m.faults with
          | nil => exact absurd (by rw [faults]; rfl) fault
          | cons f fs =>
              cases f with
              | true => rfl
              | false => exact absurd (by rw [faults]; rfl) fault
  next e stopped => split at stopped <;> cases stopped

/-- A page that is in use becomes free. -/
theorem Owned.release (owned : Owned L m o) (atom : (o p).Atom) (notFree : o p ≠ .free) :
    Owned L (m.release p) (Function.update o p .free) := by
  have fresh : p ∉ m.freelist := fun mem => notFree ((owned.free p).mp mem)
  refine owned.relabel atom trivial ?_ (fun _ _ => rfl)
    (List.nodup_cons.mpr ⟨fresh, owned.nodup⟩) ?_
  · intro r holds
    apply Mem.fill_page_of_ne
    rintro rfl
    revert atom holds
    cases o r <;> simp [Owner.Atom, Owner.HoldsEntries]
  · intro r
    by_cases same : r = p
    · subst same
      simp [Mem.release]
    · rw [Function.update_of_ne same, ← owned.free r]
      simp [Mem.release, same]

/-- Freeing a page that belongs to nobody else is no mistake. -/
theorem Owned.release_clean (owned : Owned L m o) (tidy : Tidy m o) (atom : (o p).Atom)
    (notFree : o p ≠ .free) : (m.release p).misfreed = false := by
  have fresh : p ∉ m.freelist := fun mem => notFree ((owned.free p).mp mem)
  have notShared : ¬∃ k, m.smAddr k = p := by
    rintro ⟨k, rfl⟩
    rcases tidy.shared k with zero | owner
    · refine owned.page_pos (p := m.smAddr k) ?_ zero
      intro outside
      rw [outside] at atom
      exact atom
    · rw [owner] at atom
      exact atom
  simp [Mem.release, tidy.clean, fresh, notShared]

theorem Mem.release_entry (other : t ≠ p) : (m.release p).entry t i = m.entry t i :=
  Mem.entry_congr (Mem.fill_page_of_ne other _)

/-- The contents of a page that holds no entries do not matter to a walk. -/
theorem Owned.release_pte (owned : Owned L m o) (atom : (o p).Atom) (isDir : o q = .dir)
    (inside : v < 2 ^ 20) : (m.release p).pte q v = m.pte q v := by
  refine owned.pte_congr ?_ isDir inside
  intro r holds
  apply Mem.fill_page_of_ne
  rintro rfl
  revert atom holds
  cases o r <;> simp [Owner.Atom, Owner.HoldsEntries]

theorem meets_kfree {E : Panic → Prop} {Q : Unit → Mem → Prop} (owned : Owned L m o)
    (known : o p ≠ .outside) (post : Q () (m.release p)) : Meets (kfree L p) m E Q := by
  have range := (owned.range p).mp known
  have legal : ¬(p * PGSIZE < L.kend ∨ PHYSTOP ≤ p * PGSIZE) := by
    simp only [Link.first, LASTPAGE, PHYSTOP, PGSIZE] at *
    omega
  simpa [Meets, kfree, legal] using! post

end Xv6.Vm
