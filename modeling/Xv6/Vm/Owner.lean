import Xv6.Vm.Entry

/-!
# Owners of pages

Every physical page has one owner. `Owned` ties a table of owners to memory: the free
list holds the free pages, a page directory points to its own page tables, and an
entry of a page table below `KERNBASE` points to a page that the entry owns, or to a
shared page at the place reserved for it. The lemmas say how the owners change with
the single writes that the kernel makes.
-/

namespace Xv6.Vm

inductive Owner where
  /-- Not memory that `kalloc` hands out. -/
  | outside
  | free
  /-- Allocated by the call that is running. -/
  | temp
  | dir
  /-- The page table at index `d` of directory `q`. -/
  | table (q d : ℕ)
  /-- Mapped at page number `v` of directory `q`. -/
  | user (q v : ℕ)
  | kstack (i : Fin NPROC)
  | shared (k : Fin NSHAREPAGE)
  | object
  deriving DecidableEq

/-- The page number of `KERNBASE`. -/
abbrev USERTOP : ℕ := KERNBASE / PGSIZE

/-- The page number at which shared page `k` is mapped. -/
def slot (k : Fin NSHAREPAGE) : ℕ := USERTOP - (k + 1)

/-- Pages whose contents are entries. -/
def Owner.HoldsEntries : Owner → Prop
  | .dir => True
  | .table _ _ => True
  | _ => False

/-- Owners that no other page knows of. -/
def Owner.Atom : Owner → Prop
  | .free => True
  | .temp => True
  | .kstack _ => True
  | .object => True
  | _ => False

/-- Owners that are not about a page directory. -/
def Owner.Plain : Owner → Prop
  | .shared _ => True
  | x => x.Atom

/-- What the entry for page number `v` of directory `q` may be. -/
def EntryOk (sm : Fin NSHAREPAGE → ℕ) (o : ℕ → Owner) (q v e : ℕ) : Prop :=
  e = 0 ∨ present e = true ∧
    (v < USERTOP → o (pteAddr e) = .user q v ∨ ∃ k, v = slot k ∧ pteAddr e = sm k ∧ sm k ≠ 0) ∧
    (USERTOP ≤ v → userBit e = false)

structure Owned (L : Link) (m : Mem) (o : ℕ → Owner) : Prop where
  range : ∀ p, o p ≠ .outside ↔ L.first ≤ p ∧ p < LASTPAGE
  nodup : m.freelist.Nodup
  free : ∀ p, p ∈ m.freelist ↔ o p = .free
  pde : ∀ q d, o q = .dir → d < NPDENTRIES →
    m.entry q d = 0 ∨ ∃ t, Links (m.entry q d) t ∧ o t = .table q d
  table : ∀ t q d, o t = .table q d → o q = .dir ∧ d < NPDENTRIES ∧ Links (m.entry q d) t
  entries : ∀ t q d i, o t = .table q d → i < NPTENTRIES →
    EntryOk m.smAddr o q (d * NPTENTRIES + i) (m.entry t i)
  user : ∀ p q v, o p = .user q v →
    o q = .dir ∧ v < USERTOP ∧ present (m.pte q v) = true ∧ pteAddr (m.pte q v) = p

variable {L : Link} {m m' : Mem} {o o' : ℕ → Owner} {p q t d i v e : ℕ}

theorem slot_lt (k : Fin NSHAREPAGE) : slot k < USERTOP := by
  have := k.isLt
  simp only [slot, USERTOP, KERNBASE, PGSIZE]
  omega

theorem lt_slot {k : Fin NSHAREPAGE} (below : v < USERTOP - NSHAREPAGE) : v < slot k := by
  have := k.isLt
  simp only [slot, USERTOP, KERNBASE, PGSIZE, NSHAREPAGE] at *
  omega

theorem slot_inj {k l : Fin NSHAREPAGE} (same : slot k = slot l) : k = l := by
  have := k.isLt
  have := l.isLt
  simp only [slot, USERTOP, KERNBASE, PGSIZE, NSHAREPAGE] at *
  omega

/-! ## What the owners say -/

namespace Owned

theorem page_lt (owned : Owned L m o) (known : o p ≠ .outside) : p < 2 ^ 20 := by
  have := ((owned.range p).mp known).2
  simp only [LASTPAGE, PHYSTOP, PGSIZE] at this
  omega

theorem page_pos (owned : Owned L m o) (known : o p ≠ .outside) : p ≠ 0 := by
  have first := ((owned.range p).mp known).1
  have := L.text
  have := L.ordered
  simp only [Link.first, EXTMEM, PGSIZE] at *
  omega

/-- An entry is missing with its table, or it is one of the table. -/
theorem pte_cases (owned : Owned L m o) (isDir : o q = .dir) (inside : v < 2 ^ 20) :
    m.entry q (v / NPTENTRIES) = 0 ∧ m.pte q v = 0 ∨
      ∃ t, Links (m.entry q (v / NPTENTRIES)) t ∧ o t = .table q (v / NPTENTRIES) ∧
        m.pte q v = m.entry t (v % NPTENTRIES) := by
  have index : v / NPTENTRIES < NPDENTRIES := by
    simp only [NPTENTRIES, NPDENTRIES]
    omega
  rcases owned.pde q _ isDir index with none | ⟨t, linked, owner⟩
  · exact Or.inl ⟨none, Mem.pte_of_none none⟩
  · exact Or.inr ⟨t, linked, owner, Mem.pte_of_pde linked⟩

theorem entryOk (owned : Owned L m o) (isDir : o q = .dir) (inside : v < 2 ^ 20) :
    EntryOk m.smAddr o q v (m.pte q v) := by
  rcases owned.pte_cases isDir inside with ⟨_, zero⟩ | ⟨t, _, owner, eq⟩
  · exact Or.inl zero
  · have index : v % NPTENTRIES < NPTENTRIES := Nat.mod_lt _ (by decide)
    have ok := owned.entries t q _ _ owner index
    rwa [Nat.div_add_mod', ← eq] at ok

/-- Below the shared pages every mapped page is owned by its entry. -/
theorem user_of_present (owned : Owned L m o) (isDir : o q = .dir)
    (below : v < USERTOP - NSHAREPAGE) (mapped : m.pte q v ≠ 0) :
    o (pteAddr (m.pte q v)) = .user q v := by
  have top : v < USERTOP := by omega
  have inside : v < 2 ^ 20 := by
    simp only [USERTOP, KERNBASE, PGSIZE] at top
    omega
  rcases owned.entryOk isDir inside with zero | ⟨_, low, _⟩
  · exact absurd zero mapped
  · rcases low top with user | ⟨k, same, _⟩
    · exact user
    · exact absurd same (lt_slot below).ne

theorem present_of_ne_zero (owned : Owned L m o) (isDir : o q = .dir) (inside : v < 2 ^ 20)
    (mapped : m.pte q v ≠ 0) : present (m.pte q v) = true := by
  rcases owned.entryOk isDir inside with zero | ⟨here, _⟩
  · exact absurd zero mapped
  · exact here

/-! ## Writes to pages without entries -/

/-- A walk reads only pages that hold entries. -/
theorem pte_congr (owned : Owned L m o) (kept : ∀ r, (o r).HoldsEntries → m'.page r = m.page r)
    (isDir : o q = .dir) (inside : v < 2 ^ 20) : m'.pte q v = m.pte q v := by
  have sameDir : m'.entry q (v / NPTENTRIES) = m.entry q (v / NPTENTRIES) :=
    Mem.entry_congr (kept q (by rw [isDir]; trivial))
  rcases owned.pte_cases isDir inside with ⟨none, zero⟩ | ⟨t, linked, owner, eq⟩
  · rw [zero, Mem.pte_of_none (sameDir.trans none)]
  · rw [eq, Mem.pte_of_pde (by rwa [sameDir])]
    exact Mem.entry_congr (kept t (by rw [owner]; trivial))

/-- Only the owner of one page changes, and no entry is about that page. -/
theorem relabel {x : Owner} (owned : Owned L m o) (source : (o p).Atom) (target : x.Plain)
    (kept : ∀ r, (o r).HoldsEntries → m'.page r = m.page r)
    (sm : ∀ k, m.smAddr k ≠ 0 → m'.smAddr k = m.smAddr k)
    (nodup : m'.freelist.Nodup)
    (free : ∀ r, r ∈ m'.freelist ↔ Function.update o p x r = .free) :
    Owned L m' (Function.update o p x) := by
  have other : ∀ r, ¬ (o r).Atom → Function.update o p x r = o r := by
    intro r notAtom
    apply Function.update_of_ne
    rintro rfl
    exact notAtom source
  have back : ∀ r, ¬ (Function.update o p x r).Plain → Function.update o p x r = o r := by
    intro r notPlain
    apply Function.update_of_ne
    rintro rfl
    exact notPlain (by simpa using target)
  have entry : ∀ r j, (o r).HoldsEntries → m'.entry r j = m.entry r j :=
    fun r j holds => Mem.entry_congr (kept r holds)
  have isTable : ∀ t q d, Function.update o p x t = .table q d → o t = .table q d := by
    intro t q d owner
    rw [← owner, back t (by rw [owner]; exact id)]
  have isDir : ∀ q, Function.update o p x q = .dir → o q = .dir := by
    intro q owner
    rw [← owner, back q (by rw [owner]; exact id)]
  constructor
  case range =>
    intro r
    rw [← owned.range r]
    by_cases same : r = p
    · subst same
      rw [Function.update_self]
      constructor
      · rintro _ outside
        rw [outside] at source
        exact source
      · rintro _ outside
        rw [outside] at target
        exact target
    · rw [Function.update_of_ne same]
  case nodup => exact nodup
  case free => exact free
  case pde =>
    intro q d owner index
    have was := isDir q owner
    rw [entry q d (by rw [was]; trivial)]
    rcases owned.pde q d was index with none | ⟨t, linked, table⟩
    · exact Or.inl none
    · refine Or.inr ⟨t, linked, ?_⟩
      rw [other t (by rw [table]; exact id), table]
  case table =>
    intro t q d owner
    rcases owned.table t q d (isTable t q d owner) with ⟨dir, index, linked⟩
    refine ⟨by rw [other q (by rw [dir]; exact id), dir], index, ?_⟩
    rwa [entry q d (by rw [dir]; trivial)]
  case entries =>
    intro t q d i owner index
    have was := isTable t q d owner
    rw [entry t i (by rw [was]; trivial)]
    rcases owned.entries t q d i was index with zero | ⟨here, low, high⟩
    · exact Or.inl zero
    · refine Or.inr ⟨here, fun below => ?_, high⟩
      rcases low below with user | sharedEntry
      · exact Or.inl (by rw [other _ (by rw [user]; exact id), user])
      · rcases sharedEntry with ⟨k, place, page, set⟩
        rw [← sm k set] at page set
        exact Or.inr ⟨k, place, page, set⟩
  case user =>
    intro r q v owner
    have was : o r = .user q v := by rw [← owner, back r (by rw [owner]; exact id)]
    rcases owned.user r q v was with ⟨dir, top, here, page⟩
    have inside : v < 2 ^ 20 := by
      simp only [USERTOP, KERNBASE, PGSIZE] at top
      omega
    rw [owned.pte_congr kept dir inside]
    exact ⟨by rw [other q (by rw [dir]; exact id), dir], top, here, page⟩

/-- Memory changes in pages without entries only. -/
theorem of_kept (owned : Owned L m o) (kept : ∀ r, (o r).HoldsEntries → m'.page r = m.page r)
    (sm : m'.smAddr = m.smAddr) (freelist : m'.freelist = m.freelist) : Owned L m' o := by
  have entry : ∀ r j, (o r).HoldsEntries → m'.entry r j = m.entry r j :=
    fun r j holds => Mem.entry_congr (kept r holds)
  constructor
  case range => exact owned.range
  case nodup => exact freelist ▸ owned.nodup
  case free => exact freelist ▸ owned.free
  case pde =>
    intro q d isDir index
    rw [entry q d (by rw [isDir]; trivial)]
    exact owned.pde q d isDir index
  case table =>
    intro t q d owner
    rcases owned.table t q d owner with ⟨isDir, index, linked⟩
    exact ⟨isDir, index, by rwa [entry q d (by rw [isDir]; trivial)]⟩
  case entries =>
    intro t q d i owner index
    rw [entry t i (by rw [owner]; trivial), sm]
    exact owned.entries t q d i owner index
  case user =>
    intro r q v owner
    rcases owned.user r q v owner with ⟨isDir, top, here, page⟩
    have inside : v < 2 ^ 20 := by
      simp only [USERTOP, KERNBASE, PGSIZE] at top
      omega
    rw [owned.pte_congr kept isDir inside]
    exact ⟨isDir, top, here, page⟩

/-! ## Writes to page tables -/

theorem index_eq {a b : ℕ} (index : b < NPTENTRIES) :
    (a * NPTENTRIES + b) / NPTENTRIES = a ∧ (a * NPTENTRIES + b) % NPTENTRIES = b := by
  simp only [NPTENTRIES] at *
  omega

/-- Setting an entry changes one page of one directory. -/
theorem setEntry_pte {q' v' : ℕ} (owned : Owned L m o) (table : o t = .table q d)
    (index : i < NPTENTRIES) (word : e < 2 ^ 32) (isDir : o q' = .dir) (inside : v' < 2 ^ 20) :
    (m.setEntry t i e).pte q' v' =
      if q' = q ∧ v' = d * NPTENTRIES + i then e else m.pte q' v' := by
  have notDir : q' ≠ t := by
    rintro rfl
    rw [isDir] at table
    cases table
  have linked := (owned.table t q d table).2.2
  rcases owned.pte_cases isDir inside with ⟨none, zero⟩ | ⟨t', linked', table', eq⟩
  · rw [Mem.pte_of_none ((Mem.entry_setEntry_of_page notDir).trans none), if_neg, zero]
    rintro ⟨rfl, rfl⟩
    rw [(index_eq index).1] at none
    exact linked.ne_zero none
  · rw [Mem.pte_of_pde (by rwa [Mem.entry_setEntry_of_page notDir]), eq]
    by_cases same : t' = t
    · subst same
      rw [table] at table'
      cases table'
      by_cases here : v' % NPTENTRIES = i
      · rw [here, Mem.entry_setEntry_self index word, if_pos]
        exact ⟨rfl, by rw [← here, Nat.div_add_mod']⟩
      · rw [Mem.entry_setEntry_of_index here, if_neg]
        rintro ⟨_, there⟩
        rw [there, (index_eq index).2] at here
        exact here rfl
    · rw [Mem.entry_setEntry_of_page same, if_neg]
      rintro ⟨rfl, rfl⟩
      rw [(index_eq index).1] at linked'
      exact same (linked'.unique linked)

/-- A write to the entry for page number `v` of directory `q`, together with a change of owners
between that entry and the running call. -/
theorem setPte (owned : Owned L m o) (table : o t = .table q d) (index : i < NPTENTRIES)
    (word : e < 2 ^ 32) (place : v = d * NPTENTRIES + i)
    (others : ∀ r, o' r = o r ∨
      (o r = .temp ∨ o r = .user q v) ∧ (o' r = .temp ∨ o' r = .user q v))
    (ok : EntryOk m.smAddr o' q v e)
    (only : ∀ r, o' r = .user q v → v < USERTOP ∧ present e = true ∧ pteAddr e = r) :
    Owned L (m.setEntry t i e) o' := by
  have keeps : ∀ r, o r ≠ .temp → o r ≠ .user q v → o' r = o r := by
    intro r notTemp notUser
    rcases others r with same | ⟨temp | user, _⟩
    · exact same
    · exact absurd temp notTemp
    · exact absurd user notUser
  have kept : ∀ r, o' r ≠ .temp → o' r ≠ .user q v → o' r = o r := by
    intro r notTemp notUser
    rcases others r with same | ⟨_, temp | user⟩
    · exact same
    · exact absurd temp notTemp
    · exact absurd user notUser
  have isTable : ∀ t' q' d', o' t' = .table q' d' → o t' = .table q' d' := by
    intro t' q' d' owner
    rw [← owner, kept t' (by rw [owner]; simp) (by rw [owner]; simp)]
  have isDir : ∀ q', o' q' = .dir → o q' = .dir := by
    intro q' owner
    rw [← owner, kept q' (by rw [owner]; simp) (by rw [owner]; simp)]
  have dirEntry : ∀ q' j, o q' = .dir → (m.setEntry t i e).entry q' j = m.entry q' j := by
    intro q' j dir
    apply Mem.entry_setEntry_of_page
    rintro rfl
    rw [dir] at table
    cases table
  constructor
  case range =>
    intro r
    rw [← owned.range r]
    rcases others r with same | ⟨was, now⟩
    · rw [same]
    · constructor
      · rintro _ outside
        rw [outside] at was
        simp at was
      · rintro _ outside
        rw [outside] at now
        simp at now
  case nodup => exact owned.nodup
  case free =>
    intro r
    rw [show (m.setEntry t i e).freelist = m.freelist from rfl, owned.free r]
    rcases others r with same | ⟨was, now⟩
    · rw [same]
    · constructor
      · intro isFree
        rw [isFree] at was
        simp at was
      · intro isFree
        rw [isFree] at now
        simp at now
  case pde =>
    intro q' d' owner index'
    have was := isDir q' owner
    rw [dirEntry q' d' was]
    rcases owned.pde q' d' was index' with none | ⟨t', linked, table'⟩
    · exact Or.inl none
    · exact Or.inr ⟨t', linked, by
        rw [keeps t' (by rw [table']; simp) (by rw [table']; simp), table']⟩
  case table =>
    intro t' q' d' owner
    rcases owned.table t' q' d' (isTable t' q' d' owner) with ⟨dir, index', linked⟩
    refine ⟨by rw [keeps q' (by rw [dir]; simp) (by rw [dir]; simp), dir], index', ?_⟩
    rwa [dirEntry q' d' dir]
  case entries =>
    intro t' q' d' j owner index'
    have was := isTable t' q' d' owner
    by_cases here : t' = t ∧ j = i
    · rcases here with ⟨rfl, rfl⟩
      rw [table] at was
      cases was
      rw [Mem.entry_setEntry_self index word, ← place]
      exact ok
    · have same : (m.setEntry t i e).entry t' j = m.entry t' j := by
        by_cases page : t' = t
        · subst page
          exact Mem.entry_setEntry_of_index fun eq => here ⟨rfl, eq⟩
        · exact Mem.entry_setEntry_of_page page
      rw [same]
      rcases owned.entries t' q' d' j was index' with zero | ⟨present, low, high⟩
      · exact Or.inl zero
      · refine Or.inr ⟨present, fun below => ?_, high⟩
        rcases low below with user | sharedEntry
        · left
          rw [keeps _ (by rw [user]; simp), user]
          rw [user]
          rintro eq
          cases eq
          -- The same page number would be the entry that is written.
          have linked := (owned.table t' q d' was).2.2
          have linked' := (owned.table t q d table).2.2
          have sameIndex : d' = d ∧ j = i := by
            simp only [NPTENTRIES] at place index index'
            omega
          rw [sameIndex.1] at linked
          exact here ⟨linked.unique linked', sameIndex.2⟩
        · exact Or.inr sharedEntry
  case user =>
    intro r q' v' owner
    by_cases here : q' = q ∧ v' = v
    · rcases here with ⟨rfl, rfl⟩
      rcases only r owner with ⟨top, present, page⟩
      have dir := (owned.table t q' d table).1
      have inside : v' < 2 ^ 20 := by
        simp only [USERTOP, KERNBASE, PGSIZE] at top
        omega
      have eq : (m.setEntry t i e).pte q' v' = e := by
        rw [owned.setEntry_pte table index word dir inside, if_pos ⟨rfl, place⟩]
      rw [eq]
      exact ⟨by rw [keeps q' (by rw [dir]; simp) (by rw [dir]; simp), dir], top, present, page⟩
    · have was : o r = .user q' v' := by
        rw [← owner, kept r (by rw [owner]; simp)]
        rw [owner]
        rintro eq
        cases eq
        exact here ⟨rfl, rfl⟩
      rcases owned.user r q' v' was with ⟨dir, top, present, page⟩
      have inside : v' < 2 ^ 20 := by
        simp only [USERTOP, KERNBASE, PGSIZE] at top
        omega
      rw [owned.setEntry_pte table index word dir inside, if_neg (by rw [← place]; exact here)]
      exact ⟨by rw [keeps q' (by rw [dir]; simp) (by rw [dir]; simp), dir], top, present, page⟩

/-! ## Page directories -/

/-- A zeroed page becomes a page directory. -/
theorem newDir (owned : Owned L m o) (temp : o q = .temp) (zeroed : ∀ d, m.entry q d = 0) :
    Owned L m (Function.update o q .dir) := by
  have other : ∀ r, o r ≠ .temp → Function.update o q .dir r = o r := by
    intro r notTemp
    apply Function.update_of_ne
    rintro rfl
    exact notTemp temp
  have back : ∀ r, Function.update o q .dir r ≠ .dir → Function.update o q .dir r = o r := by
    intro r notDir
    apply Function.update_of_ne
    rintro rfl
    exact notDir (Function.update_self _ _ _)
  have isTable : ∀ t q' d, Function.update o q .dir t = .table q' d → o t = .table q' d := by
    intro t q' d owner
    rw [← owner, back t (by rw [owner]; simp)]
  constructor
  case range =>
    intro r
    rw [← owned.range r]
    by_cases same : r = q
    · subst same
      simp [temp]
    · rw [Function.update_of_ne same]
  case nodup => exact owned.nodup
  case free =>
    intro r
    rw [owned.free r]
    by_cases same : r = q
    · subst same
      simp [temp]
    · rw [Function.update_of_ne same]
  case pde =>
    intro q' d owner index
    by_cases same : q' = q
    · subst same
      exact Or.inl (zeroed d)
    · rw [Function.update_of_ne same] at owner
      rcases owned.pde q' d owner index with none | ⟨t, linked, table⟩
      · exact Or.inl none
      · exact Or.inr ⟨t, linked, by rw [other t (by rw [table]; simp), table]⟩
  case table =>
    intro t q' d owner
    rcases owned.table t q' d (isTable t q' d owner) with ⟨dir, rest⟩
    exact ⟨by rw [other q' (by rw [dir]; simp), dir], rest⟩
  case entries =>
    intro t q' d i owner index
    rcases owned.entries t q' d i (isTable t q' d owner) index with zero | ⟨here, low, high⟩
    · exact Or.inl zero
    · refine Or.inr ⟨here, fun below => ?_, high⟩
      rcases low below with user | sharedEntry
      · exact Or.inl (by rw [other _ (by rw [user]; simp), user])
      · exact Or.inr sharedEntry
  case user =>
    intro r q' v owner
    have was : o r = .user q' v := by rw [← owner, back r (by rw [owner]; simp)]
    rcases owned.user r q' v was with ⟨dir, rest⟩
    exact ⟨by rw [other q' (by rw [dir]; simp), dir], rest⟩

/-- A table of zeros changes nothing. -/
theorem link_pte {q' : ℕ} (owned : Owned L m o) (temp : o t = .temp)
    (zeroed : ∀ i, m.entry t i = 0) (isDir : o q = .dir) (none : m.entry q d = 0)
    (index : d < NPDENTRIES) (dir : o q' = .dir) (inside : v < 2 ^ 20) :
    (m.setEntry q d (pdeOf t)).pte q' v = m.pte q' v := by
  have page : t < 2 ^ 20 := owned.page_lt (by rw [temp]; simp)
  have tableOf : ∀ t' q'' d', o t' = .table q'' d' → t' ≠ q := by
    rintro t' q'' d' table rfl
    rw [isDir] at table
    cases table
  by_cases here : q' = q ∧ v / NPTENTRIES = d
  · rcases here with ⟨rfl, rfl⟩
    rw [Mem.pte_of_none none, Mem.pte_of_pde (t := t), Mem.entry_setEntry_of_page]
    · exact zeroed _
    · rintro rfl
      rw [isDir] at temp
      cases temp
    · rw [Mem.entry_setEntry_self index (pdeOf_lt page)]
      exact links_pdeOf t
  · have same : (m.setEntry q d (pdeOf t)).entry q' (v / NPTENTRIES) =
        m.entry q' (v / NPTENTRIES) := by
      by_cases eq : q' = q
      · subst eq
        exact Mem.entry_setEntry_of_index fun there => here ⟨rfl, there⟩
      · exact Mem.entry_setEntry_of_page eq
    rcases owned.pte_cases dir inside with ⟨absent, zero⟩ | ⟨t', linked, table, eq⟩
    · rw [zero, Mem.pte_of_none (same.trans absent)]
    · rw [eq, Mem.pte_of_pde (by rwa [same]), Mem.entry_setEntry_of_page (tableOf t' _ _ table)]

/-- A zeroed page becomes a page table of a directory. -/
theorem linkTable (owned : Owned L m o) (temp : o t = .temp) (zeroed : ∀ i, m.entry t i = 0)
    (isDir : o q = .dir) (none : m.entry q d = 0) (index : d < NPDENTRIES) :
    Owned L (m.setEntry q d (pdeOf t)) (Function.update o t (.table q d)) := by
  have page : t < 2 ^ 20 := owned.page_lt (by rw [temp]; simp)
  have other : ∀ r, o r ≠ .temp → Function.update o t (.table q d) r = o r := by
    intro r notTemp
    apply Function.update_of_ne
    rintro rfl
    exact notTemp temp
  have back : ∀ r, r ≠ t → Function.update o t (.table q d) r = o r :=
    fun r other => Function.update_of_ne other _ _
  have isDirBack : ∀ q', Function.update o t (.table q d) q' = .dir → o q' = .dir := by
    intro q' owner
    rwa [back q' (by rintro rfl; simp at owner)] at owner
  -- No table is linked where the new one goes.
  have unlinked : ∀ t' q' d', o t' = .table q' d' → ¬(q' = q ∧ d' = d) := by
    rintro t' q' d' table ⟨rfl, rfl⟩
    have linked := (owned.table t' q' d' table).2.2
    exact linked.ne_zero none
  have dirEntry : ∀ q' d', ¬(q' = q ∧ d' = d) →
      (m.setEntry q d (pdeOf t)).entry q' d' = m.entry q' d' := by
    intro q' d' there
    by_cases eq : q' = q
    · subst eq
      exact Mem.entry_setEntry_of_index fun same => there ⟨rfl, same⟩
    · exact Mem.entry_setEntry_of_page eq
  have new : Links ((m.setEntry q d (pdeOf t)).entry q d) t := by
    rw [Mem.entry_setEntry_self index (pdeOf_lt page)]
    exact links_pdeOf t
  constructor
  case range =>
    intro r
    rw [← owned.range r]
    by_cases same : r = t
    · subst same
      simp [temp]
    · rw [back r same]
  case nodup => exact owned.nodup
  case free =>
    intro r
    rw [show (m.setEntry q d (pdeOf t)).freelist = m.freelist from rfl, owned.free r]
    by_cases same : r = t
    · subst same
      simp [temp]
    · rw [back r same]
  case pde =>
    intro q' d' owner index'
    have was := isDirBack q' owner
    by_cases here : q' = q ∧ d' = d
    · rcases here with ⟨rfl, rfl⟩
      exact Or.inr ⟨t, new, Function.update_self _ _ _⟩
    · rw [dirEntry q' d' here]
      rcases owned.pde q' d' was index' with none | ⟨t', linked, table⟩
      · exact Or.inl none
      · exact Or.inr ⟨t', linked, by rw [other t' (by rw [table]; simp), table]⟩
  case table =>
    intro t' q' d' owner
    by_cases same : t' = t
    · subst same
      rw [Function.update_self] at owner
      cases owner
      exact ⟨by rw [other q (by rw [isDir]; simp), isDir], index, new⟩
    · rw [back t' same] at owner
      rcases owned.table t' q' d' owner with ⟨dir, index', linked⟩
      refine ⟨by rw [other q' (by rw [dir]; simp), dir], index', ?_⟩
      rwa [dirEntry q' d' (unlinked t' q' d' owner)]
  case entries =>
    intro t' q' d' i owner index'
    by_cases same : t' = t
    · subst same
      left
      rw [Mem.entry_setEntry_of_page, zeroed]
      rintro rfl
      rw [isDir] at temp
      cases temp
    · rw [back t' same] at owner
      rw [Mem.entry_setEntry_of_page (by rintro rfl; rw [isDir] at owner; cases owner)]
      rcases owned.entries t' q' d' i owner index' with zero | ⟨here, low, high⟩
      · exact Or.inl zero
      · refine Or.inr ⟨here, fun below => ?_, high⟩
        rcases low below with user | sharedEntry
        · exact Or.inl (by rw [other _ (by rw [user]; simp), user])
        · exact Or.inr sharedEntry
  case user =>
    intro r q' v owner
    have was : o r = .user q' v := by
      rwa [back r (by rintro rfl; simp at owner)] at owner
    rcases owned.user r q' v was with ⟨dir, top, here, page⟩
    have inside : v < 2 ^ 20 := by
      simp only [USERTOP, KERNBASE, PGSIZE] at top
      omega
    rw [owned.link_pte temp zeroed isDir none index dir inside]
    exact ⟨by rw [other q' (by rw [dir]; simp), dir], top, here, page⟩

end Owned

/-- Page `r` is part of the address space of directory `q`. -/
def Belongs (o : ℕ → Owner) (q r : ℕ) : Prop :=
  r = q ∨ (∃ d, o r = .table q d) ∨ ∃ v, o r = .user q v

/-- The owners when the pages of directory `q` are handed to `x`. -/
def retired (x : Owner) (o : ℕ → Owner) (q r : ℕ) : Owner :=
  if r = q then x
  else match o r with
    | .table q' d => if q' = q then x else .table q' d
    | .user q' v => if q' = q then x else .user q' v
    | other => other

/-- What belongs to the directory is retired. -/
theorem retired_of_belongs {x : Owner} {r : ℕ} (belongs : Belongs o q r) : retired x o q r = x := by
  rw [retired]
  split
  next => rfl
  next other =>
    rcases belongs with same | ⟨d, table⟩ | ⟨v, user⟩
    · exact absurd same other
    · simp [table]
    · simp [user]

theorem retired_of_not_belongs {x : Owner} {r : ℕ} (other : ¬Belongs o q r) :
    retired x o q r = o r := by
  rw [retired, if_neg fun same => other (Or.inl same)]
  split
  next q' d eq =>
    rw [if_neg, eq]
    rintro rfl
    exact other (Or.inr (Or.inl ⟨d, eq⟩))
  next q' v eq =>
    rw [if_neg, eq]
    rintro rfl
    exact other (Or.inr (Or.inr ⟨v, eq⟩))
  next => rfl

namespace Owned

/-- A directory is given up, with all its pages. -/
theorem retire {x : Owner} (owned : Owned L m o) (isDir : o q = .dir) (target : x.Atom)
    (notFree : x ≠ .free) : Owned L m (retired x o q) := by
  have notOwner : ∀ y : Owner, ¬y.Atom → y ≠ x := by
    rintro y notAtom rfl
    exact notAtom target
  have back : ∀ r, retired x o q r ≠ x → retired x o q r = o r ∧ ¬Belongs o q r := by
    intro r notTarget
    by_cases belongs : Belongs o q r
    · exact absurd (retired_of_belongs belongs) notTarget
    · exact ⟨retired_of_not_belongs belongs, belongs⟩
  have keepsDir : ∀ r, o r = .dir → r ≠ q → retired x o q r = .dir := by
    intro r dir other
    rw [retired_of_not_belongs, dir]
    rintro (same | ⟨d, table⟩ | ⟨v, user⟩)
    · exact other same
    · rw [dir] at table
      cases table
    · rw [dir] at user
      cases user
  constructor
  case range =>
    intro r
    rw [← owned.range r]
    by_cases belongs : Belongs o q r
    · rw [retired_of_belongs belongs]
      constructor
      · rintro _ outside
        rcases belongs with rfl | ⟨d, table⟩ | ⟨v, user⟩
        · rw [isDir] at outside
          cases outside
        · rw [table] at outside
          cases outside
        · rw [user] at outside
          cases outside
      · rintro _ outside
        rw [outside] at target
        exact target
    · rw [retired_of_not_belongs belongs]
  case nodup => exact owned.nodup
  case free =>
    intro r
    rw [owned.free r]
    constructor
    · intro isFree
      rw [retired_of_not_belongs, isFree]
      rintro (rfl | ⟨d, table⟩ | ⟨v, user⟩)
      · rw [isDir] at isFree
        cases isFree
      · rw [isFree] at table
        cases table
      · rw [isFree] at user
        cases user
    · intro isFree
      rw [← (back r (by rw [isFree]; exact notFree.symm)).1, isFree]
  case pde =>
    intro q' d owner index
    rcases back q' (by rw [owner]; exact notOwner _ id) with ⟨eq, other⟩
    rw [eq] at owner
    rcases owned.pde q' d owner index with none | ⟨t, linked, table⟩
    · exact Or.inl none
    · refine Or.inr ⟨t, linked, ?_⟩
      rw [retired_of_not_belongs, table]
      rintro (rfl | ⟨d', table'⟩ | ⟨v, user⟩)
      · rw [isDir] at table
        cases table
      · rw [table] at table'
        cases table'
        exact other (Or.inl rfl)
      · rw [table] at user
        cases user
  case table =>
    intro t q' d owner
    rcases back t (by rw [owner]; exact notOwner _ id) with ⟨eq, other⟩
    rw [eq] at owner
    rcases owned.table t q' d owner with ⟨dir, rest⟩
    refine ⟨keepsDir q' dir ?_, rest⟩
    rintro rfl
    exact other (Or.inr (Or.inl ⟨d, owner⟩))
  case entries =>
    intro t q' d i owner index
    rcases back t (by rw [owner]; exact notOwner _ id) with ⟨eq, other⟩
    rw [eq] at owner
    rcases owned.entries t q' d i owner index with zero | ⟨here, low, high⟩
    · exact Or.inl zero
    · refine Or.inr ⟨here, fun below => ?_, high⟩
      rcases low below with user | sharedEntry
      · left
        rw [retired_of_not_belongs, user]
        rintro (same | ⟨d', table⟩ | ⟨v, user'⟩)
        · rw [same, isDir] at user
          cases user
        · rw [user] at table
          cases table
        · rw [user] at user'
          cases user'
          exact other (Or.inr (Or.inl ⟨d, owner⟩))
      · exact Or.inr sharedEntry
  case user =>
    intro r q' v owner
    rcases back r (by rw [owner]; exact notOwner _ id) with ⟨eq, other⟩
    rw [eq] at owner
    rcases owned.user r q' v owner with ⟨dir, rest⟩
    refine ⟨keepsDir q' dir ?_, rest⟩
    rintro rfl
    exact other (Or.inr (Or.inr ⟨v, owner⟩))

end Owned

end Xv6.Vm
