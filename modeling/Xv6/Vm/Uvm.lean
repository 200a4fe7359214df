import Xv6.Vm.Space

/-!
# Growing and shrinking an address space

`deallocuvm` and `allocuvm`, and the step that `allocuvm` and `copyuvm` share: a page
is allocated, filled, and mapped at the next address. The contents of the page do not
matter to the owners.
-/

namespace Xv6.Vm

open Prog

variable {L : Link} {m m' m'' : Mem} {o o' o'' : ℕ → Owner} {p q v w n : ℕ} {E : Panic → Prop}

theorem pages_le_usertop {sz : ℕ} (small : sz ≤ KERNBASE) : pages sz ≤ USERTOP := by
  simp only [pages, USERTOP, KERNBASE, PGSIZE] at *
  omega

theorem pages_mono {sz sz' : ℕ} (le : sz ≤ sz') : pages sz ≤ pages sz' := by
  simp only [pages, PGSIZE]
  omega

/-! ## `deallocuvm` -/

/-- `deallocuvm` frees the pages between the sizes. -/
theorem meets_deallocuvm {oldsz newsz : ℕ} {Q : ℕ → Mem → Prop} (owned : Owned L m o)
    (isDir : o q = .dir) (small : oldsz ≤ KERNBASE)
    (user : ∀ v' ∈ Set.Ico (pages newsz) (pages oldsz), m.pte q v' ≠ 0 →
      o (pteAddr (m.pte q v')) = .user q v')
    (same : oldsz ≤ newsz → Q oldsz m)
    (less : newsz < oldsz → ∀ m' o', Cleared L q (pages newsz) (pages oldsz) m m' o o' →
      Q newsz m') :
    Meets (deallocuvm L q oldsz newsz) m E Q := by
  refine meets_ite (fun atMost => meets_pure (same atMost)) fun above => ?_
  have below : newsz < oldsz := Nat.not_le.mp above
  have ordered := pages_mono below.le
  have total : pages newsz + (pages oldsz - pages newsz) = pages oldsz :=
    Nat.add_sub_cancel' ordered
  rw [PGROUNDUP_eq (below.le.trans small)]
  refine meets_bind (meets_of_eq (deallocLoop_eq small ordered) ?_)
  refine (meets_visitAll_owned owned isDir ?_ ?_).mono (fun _ => False.elim) ?_
  · rw [total]
    exact (pages_le_usertop small).trans (by decide)
  · rwa [total]
  · rintro _ m' ⟨o', cleared⟩
    rw [total] at cleared
    exact meets_pure (less below m' o' cleared)

/-! ## A page for the running call -/

/-- Page `p` has been taken from the free list and filled. -/
structure Held (L : Link) (q p : ℕ) (m m' : Mem) (o : ℕ → Owner) : Prop where
  free : o p = .free
  owned : Owned L m' (Function.update o p .temp)
  frame : Frame q m m' o (Function.update o p .temp)
  pte : ∀ q' v, o q' = .dir → v < 2 ^ 20 → m'.pte q' v = m.pte q' v
  pde : ∀ d, m'.entry q d = m.entry q d

/-- A page has been taken for the directory, and filled. -/
theorem Taken.held (taken : Taken L p m m' o) (isDir : o q = .dir) (contents : Page) :
    Held L q p m (m'.fill p contents) o := by
  have temp : Function.update o p .temp p = .temp := Function.update_self _ _ _
  have notDir : ∀ q', o q' = .dir → q' ≠ p := by
    rintro q' isDir' rfl
    rw [taken.free] at isDir'
    cases isDir'
  have kept : ∀ r, (Function.update o p .temp r).HoldsEntries →
      (m'.fill p contents).page r = m'.page r := by
    intro r holds
    apply Mem.fill_page_of_ne
    rintro rfl
    rw [temp] at holds
    exact holds
  have frame := taken.frame isDir
  refine ⟨taken.free, taken.owned.of_kept kept rfl rfl, ⟨isDir, frame.owner, ?_, taken.smAddr,
    frame.failed, frame.clean⟩, ?_, ?_⟩
  · intro r other notMine known
    rw [Mem.fill_page_of_ne, taken.page]
    rintro rfl
    rw [taken.free] at notMine
    exact notMine trivial
  · intro q' v isDir' inside
    have dir : Function.update o p .temp q' = .dir := by
      rw [Function.update_of_ne (notDir q' isDir'), isDir']
    rw [taken.owned.pte_congr kept dir inside, taken.pte]
  · intro d
    rw [Mem.entry_fill_of_ne (notDir q isDir), taken.entry]

theorem Taken.drawn_fill (taken : Taken L p m m' o) (isDir : o q = .dir) (contents : Page)
    (S : Finset ℕ) : Drawn S q 1 m (m'.fill p contents) := by
  refine (taken.drawn S).congr rfl rfl fun d => Mem.entry_fill_of_ne ?_ _
  rintro rfl
  rw [taken.free] at isDir
  cases isDir

theorem Held.temp (_held : Held L q p m m' o) : Function.update o p .temp p = .temp :=
  Function.update_self _ _ _

theorem Held.isDir (held : Held L q p m m' o) : Function.update o p .temp q = .dir :=
  held.frame.dir_iff.mpr held.frame.isDir

theorem Held.of_quiet (held : Held L q p m m' o) (quiet : Quiet m' m'') : Held L q p m m'' o where
  free := held.free
  owned := held.owned.of_quiet quiet
  frame := held.frame.trans (Kept.of_quiet held.isDir quiet).toFrame
  pte q' v isDir inside := by rw [quiet.pte, held.pte q' v isDir inside]
  pde d := by rw [quiet.entry, held.pde d]

/-- Page `p` has been mapped at page number `v`. -/
structure Mapped (L : Link) (q v p perm : ℕ) (m m' : Mem) (o o' : ℕ → Owner) : Prop where
  edited : Edited L q {v} m m' o o'
  free : o p = .free
  owner : o' p = .user q v
  pte : m'.pte q v = p * PGSIZE ||| perm ||| PTE_P
  stays : ∀ r, o r ≠ .free → o' r = o r
  drawn : ∀ S, v / NPTENTRIES ∈ S → Drawn S q 1 m m'

theorem mappages_one {perm pa : ℕ} (inside : v < 2 ^ 20) :
    mappages q (v * PGSIZE) PGSIZE pa perm = mapLoop q perm 1 (v * PGSIZE) pa := by
  have one : mappages q (v * PGSIZE) (1 * PGSIZE) pa perm = mapLoop q perm 1 (v * PGSIZE) pa :=
    mappages_eq Nat.one_pos inside
  rwa [Nat.one_mul] at one

/-- Page `p` has been filled, and no other page but page tables has been written. -/
structure Filling (contents : Mem → Page) (p : ℕ) (m m' : Mem) (o : ℕ → Owner) : Prop where
  spared : Spared m m' o
  contents : ∃ m₁ : Mem, m₁.page = m.page ∧ m'.page p = contents m₁

/-- A page has been taken and is filled. -/
theorem Taken.filling {m₁ : Mem} {contents : Mem → Page} (taken : Taken L p m m₁ o)
    (spared : Spared (m₁.fill p (contents m₁)) m' (Function.update o p .temp)) :
    Filling contents p m m' o where
  spared := by
    intro r notFree notEntries
    have other : r ≠ p := by
      rintro rfl
      exact notFree taken.free
    rw [spared r, Mem.fill_page_of_ne other, taken.page]
    all_goals rwa [Function.update_of_ne other]
  contents := by
    refine ⟨m₁, taken.page, ?_⟩
    rw [spared p, Mem.fill_page_self]
    all_goals
      rw [Function.update_self]
      nofun

/-- The step of `allocuvm` and `copyuvm`: a page is allocated and mapped. -/
theorem meets_alloc_map {β : Type} {perm : ℕ} {none : MemProg β} {fails : ℕ → MemProg β}
    {next : MemProg β} {contents : Mem → Page} {Q : β → Mem → Prop} (owned : Owned L m o)
    (isDir : o q = .dir) (below : v < USERTOP) (flags : perm < PGSIZE)
    (remap : m.pte q v ≠ 0 → E .remap)
    (noPage : ∀ m', Quiet m m' → (∀ S, Short S q 1 m) → Meets none m' E Q)
    (noTable : ∀ p m', Held L q p m m' o → m'.failed = true →
      (∀ S, v / NPTENTRIES ∈ S → Short S q 1 m) → Meets (fails p) m' E Q)
    (mapped : ∀ p m' o', Mapped L q v p perm m m' o o' → Filling contents p m m' o →
      Meets next m' E Q) :
    Meets (do
      match ← kalloc with
      | Option.none => none
      | some p =>
          modify fun m => m.fill p (contents m)
          if ← mappages q (v * PGSIZE) PGSIZE (p * PGSIZE) perm then next
          else fails p) m E Q := by
  have inside : v < 2 ^ 20 := by
    simp only [USERTOP, KERNBASE, PGSIZE] at below
    omega
  refine meets_bind (meets_kalloc owned ?_ ?_)
  · intro m' quiet fails
    exact noPage m' quiet fun S => ⟨0, Nat.succ_pos _, fails⟩
  · intro p m₁ taken
    have held := taken.held isDir (contents m₁)
    have drawn := taken.drawn_fill isDir (contents m₁)
    refine meets_bind (meets_modify ?_)
    rw [mappages_one inside]
    have spared : Meets (mapLoop q perm 1 (v * PGSIZE) (p * PGSIZE)) (m₁.fill p (contents m₁))
      (fun _ => True)
        fun _ m' => Spared (m₁.fill p (contents m₁)) m' (Function.update o p .temp) :=
      mapLoop_spared held.owned held.isDir inside
    refine meets_bind (spared.and_then
      (meets_map_user held.owned held.isDir below flags held.temp ?_ ?_ ?_))
    · intro there
      rw [held.pte q v isDir inside] at there
      exact remap there
    · intro m' quiet absent fails _
      refine noTable p m' (held.of_quiet quiet) quiet.failed fun S table => ?_
      exact Short.of_drawn (drawn S) (fails.short absent table)
    · intro m' o' edited drawn' owner pte stays _ kept
      refine mapped p m' o' ⟨⟨edited.owned, Kept.of_alloc held.frame edited.kept ?_, ?_, ?_⟩,
        held.free, owner, pte, ?_, ?_⟩ (taken.filling kept)
      · rw [owner]
        simp
      · intro v' outside inside'
        rw [edited.pte v' outside inside', held.pte q v' isDir inside']
      · intro d none
        rw [edited.pde d none, held.pde d]
      · intro r notFree
        have other : r ≠ p := by
          rintro rfl
          exact notFree held.free
        rw [stays r other (by rwa [Function.update_of_ne other]), Function.update_of_ne other]
      · intro S table
        exact (drawn S).trans (drawn' S table)

/-- The page is given back after all. -/
theorem Held.dropped {V : Set ℕ} (held : Held L q p m m' o)
    (edited : Edited L q V m' m'' (Function.update o p .temp) o') (temp : o' p = .temp) :
    Edited L q V m (m''.release p) o (Function.update o' p .free) := by
  have frame := held.frame.trans edited.kept.toFrame
  have atom : (o' p).Atom := by
    rw [temp]
    trivial
  have notFree : o' p ≠ .free := by
    rw [temp]
    simp
  refine ⟨edited.owned.release atom notFree, ⟨⟨frame.isDir, ?_, ?_, frame.smAddr, frame.failed, ?_⟩,
    ?_⟩, ?_, ?_⟩
  · intro r
    by_cases same : r = p
    · subst same
      rw [Function.update_self, held.free]
      exact Or.inl rfl
    · rw [Function.update_of_ne same]
      exact frame.owner r
  · intro r other notMine known
    rw [show (m''.release p).page r = m''.page r from Mem.fill_page_of_ne ?_ _]
    · exact frame.page r other notMine known
    · rintro rfl
      rw [held.free] at notMine
      exact notMine trivial
  · intro tidy
    exact edited.owned.release_clean (frame.tidy tidy) atom notFree
  · intro r isTemp
    by_cases same : r = p
    · rw [same, Function.update_self] at isTemp
      cases isTemp
    · rw [Function.update_of_ne same] at isTemp
      have was := edited.kept.temps r isTemp
      rwa [Function.update_of_ne same] at was
  · intro v' outside inside
    rw [edited.owned.release_pte atom edited.isDir inside, edited.pte v' outside inside,
      held.pte q v' held.frame.isDir inside]
  · intro d none
    have notPage : q ≠ p := by
      rintro rfl
      rw [edited.isDir] at temp
      cases temp
    rw [Mem.release_entry notPage, edited.pde d none, held.pde d]

/-! ## Ranges of pages -/

/-- New pages have been mapped in a range of `q`, with the given flags. -/
structure Grown (L : Link) (q v w : ℕ) (flags : ℕ → ℕ) (m m' : Mem) (o o' : ℕ → Owner) : Prop where
  edited : Edited L q (Set.Ico v w) m m' o o'
  mapped : ∀ v' ∈ Set.Ico v w, ∃ p, m'.pte q v' = p * PGSIZE ||| flags v' ||| PTE_P ∧
    o' p = .user q v'
  stays : ∀ r, o r ≠ .free → o' r = o r
  drawn : ∀ S : Finset ℕ, (∀ v' ∈ Set.Ico v w, v' / NPTENTRIES ∈ S) → Drawn S q (w - v) m m'

/-- Mapping pages in a range of `q` has failed for want of memory. -/
structure Failed (L : Link) (q v w : ℕ) (m m' : Mem) (o o' : ℕ → Owner) : Prop where
  edited : Edited L q (Set.Ico v w) m m' o o'
  failed : m'.failed = true
  short : ∀ S : Finset ℕ, (∀ v' ∈ Set.Ico v w, v' / NPTENTRIES ∈ S) → Short S q (w - v) m

theorem Short.mono {S : Finset ℕ} (short : Short S q n m) (le : n ≤ w) : Short S q w m := by
  rcases short with ⟨k, below, fails⟩
  exact ⟨k, by omega, fails⟩

namespace Grown

variable {flags : ℕ → ℕ}

theorem refl (owned : Owned L m o) (isDir : o q = .dir) : Grown L q v v flags m m o o where
  edited := Edited.refl owned isDir
  mapped := by simp
  stays := fun _ _ => rfl
  drawn := by
    intro S _
    rw [Nat.sub_self]
    exact Drawn.refl

/-- One page more has been mapped. -/
theorem step (grown : Grown L q v w flags m m' o o') (lower : v ≤ w) (inside : w < 2 ^ 20)
    (mapped : Mapped L q w p (flags w) m' m'' o' o'') : Grown L q v (w + 1) flags m m'' o o'' where
  edited := by
    refine (grown.edited.mono (Set.Ico_subset_Ico_right (Nat.le_succ w))).trans
      (mapped.edited.mono ?_)
    intro v' here
    rw [Set.mem_singleton_iff.mp here]
    exact Set.mem_Ico.mpr ⟨lower, Nat.lt_succ_self w⟩
  mapped := by
    intro v' mem
    rw [Set.mem_Ico] at mem
    by_cases last : v' = w
    · rw [last]
      exact ⟨p, mapped.pte, mapped.owner⟩
    · rcases grown.mapped v' (Set.mem_Ico.mpr ⟨mem.1, by omega⟩) with ⟨r, pte, owner⟩
      refine ⟨r, ?_, ?_⟩
      · rw [mapped.edited.pte v' (by simpa using last) (by omega), pte]
      · rw [mapped.stays r (by rw [owner]; simp), owner]
  stays := by
    intro r notFree
    have same := grown.stays r notFree
    rw [mapped.stays r (by rwa [same]), same]
  drawn := by
    intro S tables
    have before := grown.drawn S fun v' mem =>
      tables v' (Set.Ico_subset_Ico_right (Nat.le_succ w) mem)
    have last := mapped.drawn S (tables w (Set.mem_Ico.mpr ⟨lower, Nat.lt_succ_self w⟩))
    have total : w - v + 1 = w + 1 - v := by omega
    rw [← total]
    exact before.trans last

/-- The pages that have been mapped belong to the directory. -/
theorem user (grown : Grown L q v w flags m m' o o') (small : ∀ v', flags v' < PGSIZE) {x : ℕ}
    (mem : x ∈ Set.Ico v w) : o' (pteAddr (m'.pte q x)) = .user q x := by
  rcases grown.mapped x mem with ⟨p, pte, owner⟩
  rw [pte, pteAddr_encode (small x), owner]

theorem present (grown : Grown L q v w flags m m' o o') {x : ℕ} (mem : x ∈ Set.Ico v w) :
    Vm.present (m'.pte q x) = true := by
  rcases grown.mapped x mem with ⟨p, pte, _⟩
  rw [pte, present_encode]

end Grown

/-! ## `allocuvm` -/

/-- The flags of the pages that `allocuvm` maps. -/
abbrev UVMFLAGS : ℕ := PTE_W ||| PTE_U

/-- What `allocuvm` leaves when it fails: no page of the range is mapped. -/
structure Restored (L : Link) (q v w : ℕ) (m m' : Mem) (o o' : ℕ → Owner) : Prop
    extends Failed L q v w m m' o o' where
  zero : ∀ v' ∈ Set.Ico v w, m'.pte q v' = 0
  stays : ∀ r, o r ≠ .free → o' r = o r

section Alloc

variable {m₁ m₂ : Mem} {o₁ o₂ : ℕ → Owner}

/-- The pages of the range that the loop has mapped are the only ones there. -/
theorem Grown.user_of_ne_zero (grown : Grown L q v n (fun _ => UVMFLAGS) m m' o o')
    (upper : w ≤ USERTOP) (zero : ∀ v' ∈ Set.Ico v w, m.pte q v' = 0) {x : ℕ}
    (mem : x ∈ Set.Ico v w) (mapped : m'.pte q x ≠ 0) : o' (pteAddr (m'.pte q x)) = .user q x := by
  by_cases early : x < n
  · exact grown.user (fun _ => by decide) (Set.mem_Ico.mpr ⟨(Set.mem_Ico.mp mem).1, early⟩)
  · have inside : x < 2 ^ 20 := by
      have := (Set.mem_Ico.mp mem).2
      simp only [USERTOP, KERNBASE, PGSIZE] at upper
      omega
    rw [grown.edited.pte x (by rw [Set.mem_Ico]; omega) inside, zero x mem] at mapped
    exact absurd rfl mapped

/-- A page whose owner is not free keeps it when what has been mapped is taken away again. -/
theorem Grown.stays_cleared (grown : Grown L q v n (fun _ => UVMFLAGS) m m' o o')
    (owned : Owned L m o) (zero : ∀ v' ∈ Set.Ico v w, m.pte q v' = 0) {r : ℕ}
    (notFree : o r ≠ .free) (freed : o₂ r = o' r ∨ o₂ r = .free ∧
      ∃ v' ∈ Set.Ico v w, o' r = .user q v') : o₂ r = o r := by
  have same := grown.stays r notFree
  rcases freed with kept | ⟨_, v', mem, user⟩
  · rw [kept, same]
  · rw [same] at user
    exact absurd user (owned.not_user (zero v' mem))

/-- The loop fails, and what it has mapped is taken away again. -/
theorem Grown.restored (grown : Grown L q v n (fun _ => UVMFLAGS) m m' o o') (owned : Owned L m o)
    (lower : v ≤ n) (more : n < w) (zero : ∀ v' ∈ Set.Ico v w, m.pte q v' = 0)
    (edited : Edited L q (Set.Ico v w) m' m'' o' o'') (failed : m''.failed = true)
    (short : ∀ S : Finset ℕ, (∀ v' ∈ Set.Ico v w, v' / NPTENTRIES ∈ S) → Short S q 1 m')
    (cleared : ∀ v' ∈ Set.Ico v w, m''.pte q v' = 0)
    (freed : ∀ r, o r ≠ .free → o'' r = o' r ∨ o'' r = .free ∧
      ∃ v' ∈ Set.Ico v w, o' r = .user q v') :
    Restored L q v w m m'' o o'' where
  edited := (grown.edited.mono (Set.Ico_subset_Ico_right more.le)).trans edited
  failed := failed
  short := by
    intro S tables
    have before := grown.drawn S fun v' mem => tables v' (Set.Ico_subset_Ico_right more.le mem)
    exact (Short.of_drawn before (short S tables)).mono (by omega)
  zero := cleared
  stays := fun r notFree => grown.stays_cleared owned zero notFree (freed r notFree)

/-- The loop of `allocuvm` maps page by page. -/
theorem meets_allocLoop {oldsz newsz : ℕ} {Q : ℕ → Mem → Prop} (owned : Owned L m o)
    (grown : Grown L q (pages oldsz) v (fun _ => UVMFLAGS) m m₁ o o₁) (small : newsz < KERNBASE)
    (lower : pages oldsz ≤ v) (upper : v ≤ pages newsz)
    (zero : ∀ v' ∈ Set.Ico (pages oldsz) (pages newsz), m.pte q v' = 0)
    (failure : ∀ m' o', Restored L q (pages oldsz) (pages newsz) m m' o o' → Q 0 m')
    (success : ∀ m' o', Grown L q (pages oldsz) (pages newsz) (fun _ => UVMFLAGS) m m' o o' →
      Q newsz m') :
    Meets (allocLoop L q oldsz newsz (v * PGSIZE)) m₁ E Q := by
  have top : pages newsz ≤ USERTOP := pages_le_usertop small.le
  induction gap : pages newsz - v using Nat.strong_induction_on generalizing v m₁ o₁ with
  | _ gap ih =>
      rcases upper.eq_or_lt with rfl | more
      · have done : ¬pages newsz * PGSIZE < newsz := fun more => lt_irrefl _ (lt_pages_iff.mpr more)
        rw [allocLoop, if_neg done]
        exact success m₁ o₁ grown
      · have below : v < USERTOP := by omega
        have inside : v < 2 ^ 20 := by
          simp only [USERTOP, KERNBASE, PGSIZE] at below
          omega
        have isDir := grown.edited.isDir
        have shrinks : oldsz < newsz := by
          have := lt_pages_iff.mp more
          by_contra above
          have := pages_mono (Nat.not_lt.mp above)
          omega
        have absent : m₁.pte q v = 0 := by
          rw [grown.edited.pte v (by simp) inside]
          exact zero v (Set.mem_Ico.mpr ⟨lower, more⟩)
        have user : ∀ x ∈ Set.Ico (pages oldsz) (pages newsz), m₁.pte q x ≠ 0 →
            o₁ (pteAddr (m₁.pte q x)) = .user q x :=
          fun x mem mapped => grown.user_of_ne_zero top zero mem mapped
        have next : v * PGSIZE + PGSIZE = (v + 1) * PGSIZE := by ring
        rw [allocLoop, if_pos (lt_pages_iff.mp more), next]
        refine meets_alloc_map grown.edited.owned isDir below (by decide)
          (fun there => absurd absent there) ?_ ?_ ?_
        · intro m₂ quiet short
          refine meets_bind (meets_deallocuvm (grown.edited.owned.of_quiet quiet) isDir small.le ?_
            (fun le => absurd shrinks (Nat.not_lt.mpr le)) ?_)
          · intro x mem mapped
            rw [quiet.pte] at mapped ⊢
            exact user x mem mapped
          · intro _ m₃ o₃ cleared
            refine meets_pure (failure m₃ o₃ (grown.restored owned lower more zero
              ((Edited.of_quiet grown.edited.owned isDir quiet).trans cleared.edited) ?_
              (fun S _ => short S) cleared.zero fun r _ => cleared.freed r))
            rw [cleared.failed, quiet.failed]
        · intro p m₂ held failed short
          refine meets_bind (meets_deallocuvm held.owned held.isDir small.le ?_
            (fun le => absurd shrinks (Nat.not_lt.mpr le)) ?_)
          · intro x mem mapped
            have insideX : x < 2 ^ 20 := by
              have := (Set.mem_Ico.mp mem).2
              simp only [USERTOP, KERNBASE, PGSIZE] at top
              omega
            rw [held.pte q x isDir insideX] at mapped ⊢
            have owner := user x mem mapped
            rw [Function.update_of_ne, owner]
            intro same
            rw [same, held.free] at owner
            cases owner
          · intro _ m₃ o₃ cleared
            have temp : o₃ p = .temp := by
              rcases cleared.freed p with same | ⟨_, x, _, user'⟩
              · rw [same, held.temp]
              · rw [held.temp] at user'
                cases user'
            refine meets_bind (meets_kfree cleared.edited.owned (by rw [temp]; simp)
              (meets_pure ?_))
            refine failure _ _ (grown.restored owned lower more zero
              (held.dropped cleared.edited temp) ?_ ?_ ?_ ?_)
            · show m₃.failed = true
              rw [cleared.failed, failed]
            · intro S tables
              exact short S (tables v (Set.mem_Ico.mpr ⟨lower, more⟩))
            · intro x mem
              have insideX : x < 2 ^ 20 := by
                have := (Set.mem_Ico.mp mem).2
                simp only [USERTOP, KERNBASE, PGSIZE] at top
                omega
              rw [cleared.edited.owned.release_pte (by rw [temp]; trivial) cleared.edited.isDir
                insideX]
              exact cleared.zero x mem
            · intro r notFree
              have was := grown.stays r notFree
              have other : r ≠ p := by
                rintro rfl
                exact notFree (was ▸ held.free)
              rw [Function.update_of_ne other]
              have freed := cleared.freed r
              rwa [Function.update_of_ne other] at freed
        · intro p m₂ o₂ mapped _
          exact ih (pages newsz - (v + 1)) (by omega)
            (grown.step lower inside mapped) (by omega) (by omega) rfl

/-- `allocuvm` maps the pages between the sizes, or undoes what it has done. -/
theorem meets_allocuvm {oldsz newsz : ℕ} {Q : ℕ → Mem → Prop} (owned : Owned L m o)
    (isDir : o q = .dir) (zero : newsz < KERNBASE → ∀ v' ∈ Set.Ico (pages oldsz) (pages newsz),
      m.pte q v' = 0)
    (large : KERNBASE ≤ newsz → Q 0 m) (less : newsz < oldsz → newsz < KERNBASE → Q oldsz m)
    (failure : oldsz ≤ newsz → newsz < KERNBASE →
      ∀ m' o', Restored L q (pages oldsz) (pages newsz) m m' o o' → Q 0 m')
    (success : oldsz ≤ newsz → newsz < KERNBASE →
      ∀ m' o', Grown L q (pages oldsz) (pages newsz) (fun _ => UVMFLAGS) m m' o o' → Q newsz m') :
    Meets (allocuvm L q oldsz newsz) m E Q := by
  refine meets_ite (fun tooLarge => meets_pure (large tooLarge)) fun notLarge => ?_
  have small : newsz < KERNBASE := Nat.not_le.mp notLarge
  refine meets_ite (fun below => meets_pure (less below small)) fun notLess => ?_
  have above : oldsz ≤ newsz := Nat.not_lt.mp notLess
  rw [PGROUNDUP_eq (above.trans small.le)]
  exact meets_allocLoop owned (Grown.refl owned isDir) small le_rfl (pages_mono above) (zero small)
    (failure above small) (success above small)

end Alloc

end Xv6.Vm
