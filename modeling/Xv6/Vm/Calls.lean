import Xv6.Vm.Attached

/-!
# The system calls

What each call leaves behind when it finds the process table in order. Only a `fork` that
fails on the page table for the shared pages does damage: it gives up the child's slot, in
which it has entered the parent's shared pages.
-/

namespace Xv6.Vm

open Prog

variable {L : Link} {m m' : Mem} {o o' : ℕ → Owner} {i j np : Fin NPROC} {k : Fin NSHAREPAGE}
  {s s' : Kernel} {S T : Set (Fin NPROC)} {p q r : ℕ} {E : Panic → Prop}

/-! ## allocproc -/

/-- A page becomes a kernel stack. -/
theorem Taken.stack (taken : Taken L p m m' o) (i : Fin NPROC) :
    Owned L m' (Function.update o p (.kstack i)) := by
  have temp : Function.update o p .temp p = .temp := Function.update_self _ _ _
  have free : ∀ r, r ∈ m'.freelist ↔
      Function.update (Function.update o p .temp) p (.kstack i) r = .free := by
    intro r
    rw [Function.update_idem, taken.owned.free r]
    by_cases same : r = p
    · subst same
      simp
    · rw [Function.update_of_ne same, Function.update_of_ne same]
  have plain : Owner.Plain (.kstack i) := trivial
  have owned := taken.owned.relabel (by rw [temp]; trivial) plain (fun _ _ => rfl) (fun _ _ => rfl)
    taken.owned.nodup free
  rwa [Function.update_idem] at owned

theorem Taken.aside {x : Owner} (taken : Taken L p m m' o) :
    Aside m m' o (Function.update o p x) := by
  have written := Aside.of_taken (x := x) taken (m'.page p)
  rwa [Mem.fill, Function.update_eq_self] at written

/-- Slot `i`, which was not used, has been written. -/
structure Allocproc (i : Fin NPROC) (s s' : Kernel) : Prop where
  unused : ¬s.Used i
  others : ∀ j, j ≠ i → s'.proc j = s.proc j
  pages : (s'.proc i).sharedPage = (s.proc i).sharedPage
  rest : s' = { s with mem := s'.mem, proc := s'.proc, nextpid := s'.nextpid }

theorem Allocproc.alike (found : Allocproc i s s') (other : j ∈ ({i}ᶜ : Set (Fin NPROC))) :
    (s.proc j).Alike (s'.proc j) := by
  rw [found.others j other]
  exact .refl _

/-- `allocproc` takes a free slot and a page for its stack. -/
theorem meets_allocproc {Q : Option (Fin NPROC) → Kernel → Prop} (owned : Owned L s.mem o)
    (full : (∀ i, s.Used i) → Q none s)
    (failure : ∀ i s', Allocproc i s s' → ¬s'.Used i → Quiet s.mem s'.mem → FailsAt 0 s.mem →
      Q none s') (success : ∀ i s', Allocproc i s s' → (s'.proc i).state = .embryo →
      Taken L (s'.proc i).kstack s.mem s'.mem o → Q (some i) s') : Meets allocproc s E Q := by
  refine meets_bind (meets_get ?_)
  cases found : (List.finRange NPROC).find? fun i => (s.proc i).state = .unused with
  | none =>
      refine meets_pure (full fun i unused => ?_)
      have never := List.find?_eq_none.mp found i (List.mem_finRange i)
      exact never (decide_eq_true unused)
  | some i =>
      have unused : (s.proc i).state = .unused := by simpa using List.find?_some found
      refine meets_bind (meets_modify (meets_bind (meets_onMem (meets_kalloc owned ?_ ?_))))
      · intro m' quiet fails
        refine meets_bind (meets_modify (meets_pure (failure i _ ⟨?_, ?_, ?_, rfl⟩ ?_ quiet fails)))
        · exact fun used => used unused
        · intro j other
          simp [Kernel.setProc, other]
        · simp [Kernel.setProc]
        · simp [Kernel.Used, Kernel.setProc]
      · intro p m' taken
        refine meets_bind (meets_modify (meets_pure (success i _ ⟨?_, ?_, ?_, rfl⟩ ?_ ?_)))
        · exact fun used => used unused
        · intro j other
          simp [Kernel.setProc, other]
        · simp [Kernel.setProc]
        · simp [Kernel.setProc]
        · simpa [Kernel.setProc] using taken

/-! ## fork -/

/-- A slot that is not used has shared pages. -/
def Stale (s : Kernel) : Prop := ∃ j k, ¬s.Used j ∧ (s.proc j).Attached k

/-- There is a slot for a child of process `i`, which has shared pages, and the first call of
`kalloc` that fails is the one for the child's page table for them. -/
structure Stuck (s : Kernel) (i : Fin NPROC) : Prop where
  slot : ∃ j, ¬s.Used j
  pages : ∃ k, (s.proc i).Attached k
  detached : Detached (s.proc i).sz
  fails : FailsAt (1 + copyCalls (s.proc i).sz) s.mem

theorem SharesOnly.alike (only : SharesOnly i s s') (other : j ∈ ({i}ᶜ : Set (Fin NPROC))) :
    (s.proc j).Alike (s'.proc j) := by
  rw [only.others j other]
  exact .refl _

theorem alike_setProc {p : Proc} (other : j ∈ ({i}ᶜ : Set (Fin NPROC)))
    (alike : (s.proc j).Alike (s'.proc j)) :
    (s.proc j).Alike ((s'.setProc i p).proc j) := by
  rwa [Kernel.setProc_proc_of_ne _ other]

/-- The end of a `fork` that fails: the child's stack is given back, and its slot. -/
theorem Settled.meets_forkFailed {Q : Bool → Kernel → Prop} (settled : Settled L {np}ᶜ s o)
    (stack : o (s.proc np).kstack = .kstack np)
    (post : ∀ s' o', Settled L {np}ᶜ s' o' → ¬s'.Used np →
      (s'.proc np).sharedPage = (s.proc np).sharedPage →
      (∀ j ∈ ({np}ᶜ : Set (Fin NPROC)), (s.proc j).Alike (s'.proc j)) → s'.smCounts = s.smCounts →
      s'.mem.failed = s.mem.failed → Q false s') :
    Meets (do
      onMem (kfree L ((← get).proc np).kstack)
      modifyProc np fun p => { p with pgdir := 0, kstack := 0, state := .unused }
      return false : KernelProg Bool) s E Q := by
  refine meets_bind (meets_get (meets_bind (meets_onMem ?_)))
  refine meets_kfree_atom settled.owned (by rw [stack]; trivial) (by rw [stack]; nofun)
    fun m' o' released => ?_
  have alike : ∀ j ∈ ({np}ᶜ : Set (Fin NPROC)), (s.proc j).Alike (({ s with mem := m' }.setProc np
      { s.proc np with pgdir := 0, kstack := 0, state := .unused }).proc j) :=
    fun j other => alike_setProc other (.refl _)
  refine meets_bind (meets_modify (meets_pure (post _ o' ?_ ?_ ?_ alike rfl released.failed)))
  · refine settled.released alike released ?_
    intro j other used same
    have stack' := settled.stack j other used
    rw [same, stack] at stack'
    cases stack'
    exact other rfl
  · simp [Kernel.Used, Kernel.setProc]
  · simp [Kernel.setProc]

/-- The child has attached what its parent has. -/
theorem Copied.sharedPage {d : ℕ} {parent : Fin NPROC} (copied : Copied L d i parent s s' o o')
    (none : ∀ k, ¬(s.proc i).Attached k) : (s'.proc i).sharedPage = (s.proc parent).sharedPage := by
  funext k
  rw [copied.pages k]
  split
  next => rfl
  next absent => rw [not_not.mp (none k), not_not.mp absent]

/-- The child's address space. -/
theorem Copied.spaced {d : ℕ} {parent : Fin NPROC} (copied : Copied L d i parent s s' o o')
    (spaced : Spaced s.mem o (s.proc parent)) {child : Proc} (pgdir : child.pgdir = d)
    (sz : child.sz = (s.proc parent).sz) (pages : child.sharedPage = (s.proc parent).sharedPage) :
    Spaced s'.mem o' child := by
  have same : ∀ k, child.Attached k ↔ (s.proc parent).Attached k :=
    fun k => by rw [Proc.Attached, pages]; exact Iff.rfl
  constructor
  case isDir => rw [pgdir]; exact copied.isDir
  case small => rw [sz]; exact spaced.small
  case positive => rw [sz]; exact spaced.positive
  case attached =>
    intro k here
    have was := (same k).mp here
    rw [pages, pgdir, copied.mapped k was]
    exact ⟨(spaced.attached k was).1, (mapsPage_sharedEntry _ k).of_smAddr copied.aside.smAddr⟩
  case apart =>
    intro k absent
    rw [pgdir]
    exact copied.unmapped k fun was => absent ((same k).mpr was)

/-- The process table is in order, and the counts still are if they were. -/
structure InOrder (L : Link) (s s' : Kernel) : Prop where
  settled : ∃ o, Settled L Set.univ s' o
  counted : Counted s → Counted s'

/-- The slots other than `i` are what they were, and slot `i` has no shared pages. -/
theorem Settled.inOrder_unused (settled : Settled L {i}ᶜ s' o) (unused' : ¬s'.Used i)
    (none : ∀ k, ¬(s'.proc i).Attached k) (unused : ¬s.Used i)
    (alike : ∀ j ∈ ({i}ᶜ : Set (Fin NPROC)), (s.proc j).Alike (s'.proc j))
    (counts : s'.smCounts = s.smCounts) :
    InOrder L s s' := by
  refine ⟨⟨o, settled.with_unused unused' none⟩, fun counted => counted.other alike fun k => ?_⟩
  rw [counts, if_neg fun holds => unused holds.1, if_neg fun holds => unused' holds.1]

/-- The table is in order, unless `fork` was stuck. -/
structure Forked (L : Link) (i : Fin NPROC) (s s' : Kernel) : Prop where
  fine : ¬Stuck s i → InOrder L s s'
  stale : Stuck s i → Stale s' ∧ s'.mem.failed = true

/-- `fork` gives the child a copy, or leaves everything as it was. -/
theorem Settled.meets_fork (settled : Settled L Set.univ s o) (used : s.Used i)
    (hole : ∀ v ∈ Set.Ico 1 (pages (s.proc i).sz), s.mem.pte (s.proc i).pgdir v = 0 →
      E .copyuvmPte ∧ E .copyuvmPage)
    (remap : ∀ k, (s.proc i).Attached k → slot k < pages (s.proc i).sz → E .remap) :
    Meets (fork L i) s E fun _ s' => Forked L i s s' := by
  refine meets_bind (meets_allocproc settled.owned ?_ ?_ ?_)
  · intro full
    refine meets_pure ⟨fun _ => ⟨⟨o, settled⟩, id⟩, fun stuck => ?_⟩
    rcases stuck.slot with ⟨j, unused⟩
    exact absurd (full j) unused
  · intro np s₁ found unused quiet fails
    refine meets_pure ⟨fun _ => ?_, fun stuck => ?_⟩
    · have others := (settled.mono (Set.subset_univ {np}ᶜ)).aside (fun j => found.alike)
        (settled.owned.of_quiet quiet) (.of_quiet quiet)
      refine others.inOrder_unused unused (fun k => ?_) found.unused (fun j => found.alike)
        (by rw [found.rest])
      rw [Proc.Attached, found.pages]
      exact settled.clean np trivial found.unused k
    · have := stuck.fails.unique fails
      omega
  · intro np s₁ found embryo taken
    have other : np ≠ i := by
      rintro rfl
      exact found.unused used
    have parent : s₁.proc i = s.proc i := found.others i other.symm
    have clean : ∀ k, ¬(s₁.proc np).Attached k := by
      intro k
      rw [Proc.Attached, found.pages]
      exact settled.clean np trivial found.unused k
    have aside : Aside s.mem s₁.mem o (Function.update o (s₁.proc np).kstack (.kstack np)) :=
      taken.aside
    have settled₁ : Settled L {np}ᶜ s₁ (Function.update o (s₁.proc np).kstack (.kstack np)) :=
      (settled.mono (Set.subset_univ _)).aside (fun j => found.alike) (taken.stack np) aside
    have stack : Function.update o (s₁.proc np).kstack (.kstack np) (s₁.proc np).kstack =
        .kstack np :=
      Function.update_self _ _ _
    generalize Function.update o (s₁.proc np).kstack (.kstack np) = o₁ at aside settled₁ stack
    have used₁ : s₁.Used i := by rwa [Kernel.Used, parent]
    have spaced := settled₁.spaced i other.symm used₁
    refine meets_bind (meets_get ?_)
    refine meets_bind (meets_copyuvm settled₁.owned settled₁.tidy spaced.isDir other settled₁.set
      (fun k here => (spaced.attached k here).1) spaced.small spaced.positive ?_ ?_ ?_ ?_ ?_)
    · intro v mem none
      rw [parent] at mem none
      refine hole v mem ?_
      rwa [aside.pte settled.owned (settled.spaced i trivial used).isDir
        (inside_of_user ((Set.mem_Ico.mp mem).2.trans_le
        (pages_le_usertop (settled.spaced i trivial used).small)))] at none
    · intro k here within
      rw [parent] at here within
      exact remap k here within
    · intro m' o' owned' aside' _ short
      have settled' : Settled L {np}ᶜ { s₁ with mem := m' } o' :=
        settled₁.aside (fun j _ => .refl _) owned' aside'
      have stack' : o' (s₁.proc np).kstack = .kstack np := by
        rw [aside'.stays, stack]
        rw [stack]
        exact id
      refine settled'.meets_forkFailed stack' fun s' o'' done unused same alike counts _ =>
        ⟨fun _ => ?_, fun stuck => ?_⟩
      · refine done.inOrder_unused unused (fun k => ?_) found.unused (fun j other => ?_) ?_
        · rw [Proc.Attached, same]
          exact clean k
        · exact (found.alike other).trans (alike j other)
        · rw [counts, found.rest]
      · rcases short with ⟨n, below, fails⟩
        have := stuck.fails.unique (taken.allocs.failsAt fails)
        rw [parent] at below
        omega
    · intro s₂ o₂ owned' aside' failed only fails detached both
      have settled' : Settled L {np}ᶜ s₂ o₂ := settled₁.aside (fun j => only.alike) owned' aside'
      have stack' : o₂ (s₂.proc np).kstack = .kstack np := by
        rw [only.self, aside'.stays, stack]
        rw [stack]
        exact id
      rcases both with ⟨k, here, entered⟩
      rw [parent] at here detached fails
      have stuck : Stuck s i :=
        ⟨⟨np, found.unused⟩, ⟨k, here⟩, detached, taken.allocs.failsAt fails⟩
      refine settled'.meets_forkFailed stack' fun s' o'' _ unused same _ _ failed' =>
        ⟨fun fine => absurd stuck fine, fun _ => ⟨⟨np, k, unused, ?_⟩, failed'.trans failed⟩⟩
      rw [Proc.Attached, same]
      exact entered
    · intro d s₂ o₂ copied enough
      refine meets_bind (meets_modify
        (meets_pure ⟨fun _ => ⟨⟨o₂, ?_⟩, fun counted => ?_⟩, fun stuck => ?_⟩))
      · refine Settled.with_used (i := np) ?_ ?_ ?_ ?_ ?_
        · exact settled₁.aside (fun j other => alike_setProc other (copied.only.alike other))
            copied.owned copied.aside
        · simp [Kernel.Used]
        · refine copied.spaced spaced ?_ ?_ ?_
          · simp
          · simp
          · rw [Kernel.setProc_proc_self]
            exact copied.sharedPage clean
        · rw [Kernel.setProc_proc_self, copied.only.self]
          change o₂ (s₁.proc np).kstack = _
          rw [copied.aside.stays, stack]
          rw [stack]
          exact id
        · intro j other' used' same
          rw [Kernel.Used, Kernel.setProc_proc_of_ne _ other', copied.only.others j other'] at used'
          rw [Kernel.setProc_proc_self, Kernel.setProc_proc_of_ne _ other',
            copied.only.others j other'] at same
          have isDir := (settled₁.spaced j other' used').isDir
          rw [same] at isDir
          change o₁ d = _ at isDir
          rw [copied.free] at isDir
          cases isDir
      · refine counted.other (i := np) (fun j other => ?_) fun k => ?_
        · exact alike_setProc other ((found.alike other).trans (copied.only.alike other))
        · have before : ¬s.Holds k np := fun holds => found.unused holds.1
          have after : (s₂.setProc np { s₂.proc np with
              pgdir := d, sz := (s₁.proc i).sz, parent := some i, state := .runnable }).Holds k np ↔
              (s₁.proc i).Attached k := by
            rw [Kernel.Holds, Kernel.Used, Kernel.setProc_proc_self, Proc.Attached,
              copied.sharedPage clean]
            exact and_iff_right (by rintro ⟨⟩)
          rw [if_neg before, if_congr after rfl rfl]
          change s₂.smCounts k + 0 = _
          rw [add_zero, copied.counts k, found.rest]
      · refine absurd (taken.allocs.failsAt_rest stuck.fails) ?_
        rw [← parent]
        refine enough ?_ ?_
        all_goals rw [parent]
        · exact stuck.pages
        · exact stuck.detached

/-! ## exec -/

/-- `exec` has put the new address space in place of the old one, and given that back. -/
theorem Settled.committed {sz : ℕ} {m₁ : Mem} {o₁ : ℕ → Owner} (settled : Settled L Set.univ s o)
    (used : s.Used i) (filled : Filled L q sz s.mem m₁ o o₁)
    (freed : Freed L (s.proc i).pgdir m₁ s'.mem o₁ o')
    (self : s'.proc i = { s.proc i with sharedPage := fun _ => 0, pgdir := q, sz := sz })
    (others : ∀ j, j ≠ i → s'.proc j = s.proc j) : Settled L Set.univ s' o' := by
  have spaced := settled.spaced i trivial used
  have aside := filled.aside
  have isDir : o₁ (s.proc i).pgdir = .dir := aside.isDir spaced.isDir
  have alike : ∀ j ∈ ({i}ᶜ : Set (Fin NPROC)), (s.proc j).Alike (s'.proc j) := by
    intro j other
    rw [others j other]
    exact .refl _
  have settled₁ : Settled L {i}ᶜ { s' with mem := m₁ } o₁ :=
    (settled.mono (Set.subset_univ _)).aside alike filled.owned aside
  have settled₂ : Settled L {i}ᶜ s' o' := by
    refine settled₁.freed (fun j _ => .refl _) freed isDir fun j other used' same => other ?_
    change (s'.proc j).state ≠ _ at used'
    change (s'.proc j).pgdir = _ at same
    rw [others j other] at used' same
    exact settled.distinct j trivial i trivial used' used same
  have pgdir : (s'.proc i).pgdir = q := by rw [self]
  refine settled₂.with_used ?_ ?_ ?_ ?_
  · rwa [Kernel.Used, self]
  · have new : q ≠ (s.proc i).pgdir := by
      rintro rfl
      have free := filled.free
      rw [spaced.isDir] at free
      cases free
    have fresh : Spaced m₁ o₁ (s'.proc i) := by
      rw [self]
      exact ⟨filled.isDir, filled.small, filled.positive, fun k here => absurd rfl here,
        fun k _ => filled.own _ (slot_lt k)⟩
    refine fresh.kept (.refl _) freed.owned (aside.tidy settled.tidy) freed.smAddr ?_ fun v => ?_
    · rw [pgdir, freed.stays _ new, filled.isDir]
      rw [filled.isDir]
      exact id
    · rw [pgdir]
      exact freed.pte q v new filled.isDir
  · have stack : o₁ (s.proc i).kstack = .kstack i := by
      rw [aside.stays, settled.stack i trivial used]
      rw [settled.stack i trivial used]
      exact id
    rw [self, freed.stays, stack]
    · rw [stack]
      exact id
    · intro same
      rw [same, isDir] at stack
      cases stack
  · intro j other used' same
    rw [pgdir, others j other] at same
    rw [Kernel.Used, others j other] at used'
    have free := filled.free
    rw [← same, (settled.spaced j trivial used').isDir] at free
    cases free

/-- `exec` gets to its commit in a process that has attached shared pages, and forgets them. -/
def Forgets (L : Link) (s : Kernel) (i : Fin NPROC) (img : Option Image)
    (argv : List (List Byte)) : Prop :=
  (∃ k, (s.proc i).Attached k) ∧
    ∃ r m', img.map (fun img => execImage L img argv s.mem) = some (.ok (some r, m'))

/-- `exec` keeps the processes settled, and the counts unless it forgets a page. -/
theorem Settled.meets_exec {img : Option Image} {argv : List (List Byte)}
    (settled : Settled L Set.univ s o) (used : s.Used i) :
    Meets (exec L i img argv) s (fun _ => True) fun _ s' =>
      (∃ o', Settled L Set.univ s' o') ∧ (Counted s → (Counted s' ↔ ¬Forgets L s i img argv)) := by
  cases img with
  | none =>
      refine meets_pure ⟨⟨o, settled⟩, fun counted => iff_of_true counted ?_⟩
      rintro ⟨_, r, m₁, made⟩
      cases made
  | some img =>
      refine meets_bind (meets_onMem (Meets.run (meets_execImage settled.owned ?_ ?_)))
      · intro m' o' owned' aside built
        refine meets_pure ⟨⟨o', settled.aside (fun j _ => .refl _) owned' aside⟩, fun counted => ?_⟩
        refine iff_of_true (counted.alike (fun j => .refl _) rfl) ?_
        rintro ⟨_, r, m₁, made⟩
        rw [Option.map_some, built] at made
        cases made
      · intro q sz sp m₁ o₁ filled built
        refine meets_bind (meets_get (meets_bind (meets_modify (meets_bind (meets_onMem ?_)))))
        refine meets_freevm filled.owned (filled.aside.isDir (settled.spaced i trivial used).isDir)
          fun m₂ o₂ freed _ => ?_
        have gone : ∀ {t : Kernel} {p : Proc} k,
            ¬(t.setProc i { p with sharedPage := fun _ => 0, pgdir := q, sz := sz }).Holds k i := by
          intro t p k holds
          rw [Kernel.Holds, Kernel.setProc_proc_self] at holds
          exact holds.2 rfl
        refine meets_pure ⟨⟨o₂, settled.committed used filled freed ?_ ?_⟩,
          fun counted => ⟨?_, fun keeps => ?_⟩⟩
        · exact Kernel.setProc_proc_self _
        · exact fun j other => Kernel.setProc_proc_of_ne _ other
        · rintro counted' ⟨⟨k, here⟩, _⟩
          exact counted.not_counted ⟨used, here⟩ (gone k)
            (fun j other => Kernel.setProc_proc_of_ne _ other) rfl counted'
        · refine counted.other (i := i) (fun j other => alike_setProc other (.refl _)) fun k => ?_
          rw [if_neg fun holds => keeps ⟨⟨k, holds.2⟩, _, _, congrArg some built⟩, if_neg]
          · rfl
          · exact gone k

/-! ## wait -/

/-- The loop of `wait` has let go of the pages `ks`. -/
structure Dropped (i : Fin NPROC) (ks : List (Fin NSHAREPAGE)) (s s' : Kernel) : Prop where
  only : SharesOnly i s s'
  mem : s'.mem = s.mem
  pages : ∀ k, (s'.proc i).sharedPage k = if k ∈ ks then 0 else (s.proc i).sharedPage k
  counts : ∀ k, s'.smCounts k = s.smCounts k - if k ∈ ks ∧ (s.proc i).Attached k then 1 else 0

/-- The loop drops the shared pages of the process. -/
theorem meets_dropLoop {ks : List (Fin NSHAREPAGE)} {Q : Unit → Kernel → Prop} (nodup : ks.Nodup)
    (post : ∀ s', Dropped i ks s s' → Q () s') : Meets (dropLoop i ks) s E Q := by
  induction ks generalizing s with
  | nil =>
      refine meets_pure (post s ⟨.refl s, rfl, fun k => ?_, fun k => ?_⟩)
      · rw [if_neg List.not_mem_nil]
      · rw [if_neg fun both => List.not_mem_nil both.1, sub_zero]
  | cons k ks ih =>
      rcases List.nodup_cons.mp nodup with ⟨fresh, nodup⟩
      rw [dropLoop]
      refine meets_bind (meets_get (meets_ite (fun here => ?_) fun absent => ?_))
      · refine meets_bind (meets_modify (meets_bind (meets_modify ?_)))
        refine ih nodup fun s' rest => post s' ?_
        refine ⟨SharesOnly.trans ⟨?_, ?_, rfl⟩ rest.only, rest.mem, ?_, ?_⟩
        · simp
        · exact fun j other => Kernel.setProc_proc_of_ne _ other
        · intro k'
          rw [rest.pages k']
          by_cases same : k' = k
          · subst same
            simp [fresh]
          · simp [same]
        · intro k'
          rw [rest.counts k']
          by_cases same : k' = k
          · subst same
            have attached : (s.proc i).Attached k' := here
            simp [fresh, attached]
          · simp [same, Proc.Attached]
      · refine ih nodup fun s' rest => post s' ⟨rest.only, rest.mem, ?_, ?_⟩
        · intro k'
          rw [rest.pages k']
          by_cases same : k' = k
          · subst same
            simp [fresh, not_not.mp absent]
          · simp [same]
        · intro k'
          rw [rest.counts k']
          by_cases same : k' = k
          · subst same
            have detached : ¬(s.proc i).Attached k' := absent
            simp [detached]
          · simp [same]

/-- `wait` frees the memory of a zombie. -/
theorem Settled.meets_wait (settled : Settled L Set.univ s o) :
    Meets (wait L i) s (fun _ => True) fun _ s' => InOrder L s s' := by
  refine meets_bind (meets_get ?_)
  cases found : (List.finRange NPROC).find? fun j => (s.proc j).parent = some i ∧
    (s.proc j).state = .zombie with
  | none => exact meets_pure ⟨⟨o, settled⟩, id⟩
  | some j =>
      have zombie : (s.proc j).parent = some i ∧ (s.proc j).state = .zombie := by
        simpa using List.find?_some found
      have used : s.Used j := by
        rw [Kernel.Used, zombie.2]
        rintro ⟨⟩
      have spaced := settled.spaced j trivial used
      have stack := settled.stack j trivial used
      refine meets_bind (meets_dropLoop (List.nodup_finRange _) fun s₁ dropped => ?_)
      have settled₁ : Settled L {j}ᶜ s₁ o := by
        refine (settled.mono (Set.subset_univ _)).aside
          (fun _ other => dropped.only.alike other) ?_ ?_
        · rw [dropped.mem]
          exact settled.owned
        · rw [dropped.mem]
          exact .refl
      refine meets_bind (meets_onMem (meets_kfree_atom settled₁.owned (by rw [stack]; trivial)
        (by rw [stack]; rintro ⟨⟩) fun m₂ o₂ released => ?_))
      have settled₂ : Settled L {j}ᶜ { s₁ with mem := m₂ } o₂ := by
        refine settled₁.released (fun _ _ => .refl _) released fun j' other used' same => other ?_
        have stack' := settled₁.stack j' other used'
        rw [same, stack] at stack'
        cases stack'
        rfl
      have isDir : o₂ (s.proc j).pgdir = .dir := by
        rw [released.stays, spaced.isDir]
        rw [spaced.isDir]
        exact id
      refine meets_bind (meets_modify
        (meets_bind (meets_onMem (meets_freevm released.owned isDir fun m₃ o₃ freed _ => ?_))))
      refine meets_bind (meets_modify
        (meets_pure ⟨⟨o₃, Settled.with_unused (i := j) ?_ ?_ ?_⟩, fun counted => ?_⟩))
      · refine settled₂.freed (fun _ other => alike_setProc other (alike_setProc other (.refl _)))
          freed isDir ?_
        intro j' other used' same
        change (s₁.proc j').state ≠ _ at used'
        change (s₁.proc j').pgdir = _ at same
        rw [dropped.only.others j' other] at used' same
        exact other (settled.distinct j' trivial j trivial used' used same)
      · simp [Kernel.Used]
      · intro k here
        refine here ?_
        simp [dropped.pages]
      · refine counted.other (i := j) (fun j' other => ?_) fun k => ?_
        · exact alike_setProc other (alike_setProc other (dropped.only.alike other))
        · have after : s₁.smCounts k + (if s.Holds k j then 1 else 0) = s.smCounts k := by
            rw [dropped.counts k,
              if_congr (and_congr_left' (iff_of_true (List.mem_finRange k) used)) rfl rfl]
            exact sub_add_cancel _ _
          refine after.trans ?_
          rw [if_neg, add_zero]
          exact fun holds => holds.1 (by simp)

/-! ## exit, and the scheduler -/

/-- No process has changed its memory. -/
theorem Settled.inOrder_alike (settled : Settled L Set.univ s o)
    (alike : ∀ j, (s.proc j).Alike (s'.proc j)) (mem : s'.mem = s.mem)
    (counts : s'.smCounts = s.smCounts) : InOrder L s s' := by
  refine ⟨⟨o, settled.aside (fun j _ => alike j) ?_ ?_⟩, fun counted => counted.alike alike counts⟩
  · rw [mem]
    exact settled.owned
  · rw [mem]
    exact .refl

theorem alike_update {f : Fin NPROC → Proc} {p : Proc} (others : ∀ j, (s.proc j).Alike (f j))
    (self : (s.proc i).Alike p) (j : Fin NPROC) : (s.proc j).Alike (Function.update f i p j) := by
  by_cases same : j = i
  · subst same
    rwa [Function.update_self]
  · rw [Function.update_of_ne same]
    exact others j

/-- `exit` keeps the memory until it is waited for. -/
theorem Settled.meets_exit (settled : Settled L Set.univ s o) (used : s.Used i) :
    Meets (exit i) s (fun _ => True) fun _ s' => InOrder L s s' := by
  refine meets_bind (meets_get
    (meets_ite (fun _ => meets_bind (meets_throw trivial)) fun _ => meets_modify ?_))
  have passed : ∀ j, (s.proc j).Alike
      (if (s.proc j).parent = some i then { s.proc j with parent := some s.initproc }
      else s.proc j) := by
    intro j
    split
    · exact ⟨rfl, rfl, rfl, rfl, Iff.rfl⟩
    · exact .refl _
  have zombie := passed i
  refine settled.inOrder_alike (alike_update passed ?_) rfl rfl
  exact ⟨zombie.sz, zombie.pgdir, zombie.kstack, zombie.pages, iff_of_false nofun used⟩

theorem Settled.meets_dispatch {state : Sched.State} (settled : Settled L Set.univ s o)
    (used : s.Used i) (now : state ≠ .unused) :
    Meets (modifyProc i fun p => { p with state := state }) s (fun _ => True) fun _ s' =>
      InOrder L s s' :=
  meets_modify (settled.inOrder_alike
    (alike_update (fun _ => .refl _) ⟨rfl, rfl, rfl, rfl, iff_of_false now used⟩) rfl rfl)

/-! ## shmem_access -/

theorem slot_mul (k : Fin NSHAREPAGE) : KERNBASE - (k + 1) * PGSIZE = slot k * PGSIZE := by
  have := k.isLt
  simp only [slot, USERTOP, KERNBASE, PGSIZE, NSHAREPAGE] at *
  omega

/-- `shmem_access` has returned. -/
structure Accessed (L : Link) (i : Fin NPROC) (pageNumber : ℤ) (s s' : Kernel) : Prop where
  inOrder : InOrder L s s'
  only : SharesOnly i s s'
  list : s.mem.freelist.length ≤ s'.mem.freelist.length + 1
  attached : ∀ k : Fin NSHAREPAGE, pageNumber = k → (s'.proc i).Attached k

/-- `shmem_access` maps its page, or finds it mapped, or fails. -/
theorem Settled.meets_shmemAccess {pageNumber : ℤ} (settled : Settled L Set.univ s o)
    (used : s.Used i) (remap : ∀ k, ¬(s.proc i).Attached k →
      s.mem.pte (s.proc i).pgdir (slot k) ≠ 0 → E .remap)
    (failure : FailsAt 0 s.mem → E .shmemAccess) :
    Meets (shmemAccess i pageNumber) s E fun _ s' => Accessed L i pageNumber s s' := by
  have spaced := settled.spaced i trivial used
  have unchanged : (∀ k : Fin NSHAREPAGE, pageNumber = k → (s.proc i).Attached k) →
      Accessed L i pageNumber s s :=
    fun attached => ⟨⟨⟨o, settled⟩, id⟩, .refl s, Nat.le_succ _, attached⟩
  rw [shmemAccess]
  split
  case isFalse illegal =>
    refine meets_pure (unchanged fun k same => absurd ⟨?_, ?_⟩ illegal)
    · rw [same]
      exact Int.natCast_nonneg _
    · rw [same]
      exact k.isLt
  case isTrue legal =>
    obtain ⟨k, rfl⟩ : ∃ k : Fin NSHAREPAGE, pageNumber = k :=
      ⟨⟨pageNumber.toNat, legal.2⟩, (Int.toNat_of_nonneg legal.1).symm⟩
    have index : ∀ k' : Fin NSHAREPAGE, (k : ℤ) = k' → k' = k :=
      fun k' same => Fin.ext (Int.ofNat_inj.mp same).symm
    simp only [Int.toNat_natCast, Fin.eta]
    refine meets_bind (meets_get (meets_ite (fun here => ?_) fun absent => ?_))
    · exact meets_pure (unchanged fun k' same => index k' same ▸ here)
    · have fits : ¬(s.proc i).sz > (KERNBASE - (k + 1) * PGSIZE + 2 ^ 32 - KERNBASE) % 2 ^ 32 := by
        have := k.isLt
        have small := spaced.small
        simp only [KERNBASE, PGSIZE, NSHAREPAGE] at *
        omega
      rw [if_neg fits, slot_mul k]
      refine meets_bind (meets_onMem
        (meets_map_shared settled.owned settled.tidy spaced.isDir (settled.set k)
        (remap k absent) ?_ ?_))
      · exact fun m' _ _ fails => meets_throw (failure fails)
      · intro m' o' edited pte _ drawn
        refine meets_bind (meets_modify (meets_bind (meets_modify (meets_pure ?_))))
        have maps : MapsPage s.mem k (m'.pte (s.proc i).pgdir (slot k)) := by
          rw [pte]
          exact mapsPage_sharedEntry _ _
        have alone : ∀ j, j ≠ i → s.Used j → (s.proc j).pgdir ≠ (s.proc i).pgdir :=
          fun j other used' same => other (settled.distinct j trivial i trivial used' used same)
        refine ⟨⟨⟨o', Settled.with_used (i := i) ?_ ?_ ?_ ?_ ?_⟩, fun counted => ?_⟩, ⟨?_, ?_, rfl⟩,
          ?_, fun k' same => ?_⟩
        · exact (settled.mono (Set.subset_univ _)).edited
            (fun j other => alike_setProc other (.refl _)) edited
            fun j other => alone j other
        · simpa [Kernel.Used] using used
        · rw [Kernel.setProc_proc_self]
          exact spaced.attach settled.tidy edited maps rfl rfl rfl
        · rw [Kernel.setProc_proc_self]
          have stack := settled.stack i trivial used
          change o' (s.proc i).kstack = _
          rw [edited.kept.same, stack]
          rw [stack]
          exact id
        · intro j other used'
          rw [Kernel.Used, Kernel.setProc_proc_of_ne _ other] at used'
          rw [Kernel.setProc_proc_self, Kernel.setProc_proc_of_ne _ other]
          exact alone j other used'
        · refine counted.other (i := i) (fun j other => alike_setProc other (.refl _)) fun k' => ?_
          have usedNow : ¬(s.proc i).state = .unused := used
          by_cases same : k' = k
          · subst same
            have detached : ¬(s.proc i).sharedPage k' ≠ 0 := absent
            simp [Kernel.Holds, Kernel.Used, Proc.Attached, usedNow, detached, slot_ne_zero]
          · simp [Kernel.Holds, Kernel.Used, Proc.Attached, usedNow, same]
        · simp
        · exact fun j other => Kernel.setProc_proc_of_ne _ other
        · rcases drawn with ⟨c, allocs, count⟩
          have := allocs.length
          rw [missing_singleton, missing_singleton] at count
          simp only [Kernel.setProc_mem]
          split_ifs at count
          all_goals omega
        · rw [index k' same, Proc.Attached, Kernel.setProc_proc_self]
          simpa using slot_ne_zero k

end Xv6.Vm
