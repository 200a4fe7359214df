import Xv6.Vm.Kvm
import Xv6.Vm.Process

/-!
# Copying an address space

`copyuvm`: the loop over the user pages, and the one over the shared pages, which belongs to
the process table as well. How many pages `fork` has taken when it comes to the page table
for the shared pages decides which failure of `kalloc` hits that page table.
-/

namespace Xv6.Vm

open Prog

variable {L : Link} {m m' m₁ : Mem} {o o' o₁ : ℕ → Owner} {p q t d i v w n sz : ℕ}
  {E : Panic → Prop} {S : Finset ℕ}

theorem pteFlags_lt (e : ℕ) : pteFlags e < PGSIZE := Nat.mod_lt _ (by decide)

theorem pages_pos (some : 0 < sz) : 1 ≤ pages sz := by
  simp only [pages, PGSIZE]
  omega

/-- What has been mapped so far is an edit of the whole range. -/
theorem Grown.failed {flags : ℕ → ℕ} {m'' : Mem} {o'' : ℕ → Owner}
    (grown : Grown L q v n flags m m' o o') (upper : n ≤ w)
    (edited : Edited L q (Set.Ico v w) m' m'' o' o'') (failed : m''.failed = true) (lower : v ≤ n)
    (more : n < w) (short : ∀ S : Finset ℕ, (∀ v' ∈ Set.Ico v w, v' / NPTENTRIES ∈ S) →
      Short S q 1 m') :
    Failed L q v w m m'' o o'' where
  edited := (grown.edited.mono (Set.Ico_subset_Ico_right upper)).trans edited
  failed := failed
  short := by
    intro S tables
    have before := grown.drawn S fun v' mem => tables v' (Set.Ico_subset_Ico_right upper mem)
    exact (Short.of_drawn before (short S tables)).mono (by omega)

/-- The flags of the pages that `copyuvm` maps. -/
def copiedFlags (m : Mem) (q v : ℕ) : ℕ := pteFlags (m.pte q v)

/-- The pages in a range of `d` hold what the own pages of `q` there held. -/
def Copies (q d v w : ℕ) (m m' : Mem) (o : ℕ → Owner) : Prop :=
  ∀ x ∈ Set.Ico v w, o (pteAddr (m.pte q x)) = .user q x →
    m'.page (pteAddr (m'.pte d x)) = m.page (pteAddr (m.pte q x))

/-- One more page has been copied. -/
theorem Copies.step {o₂ : ℕ → Owner} {m₂ : Mem} (copies : Copies q d w v m m₁ o) (other : q ≠ d)
    (grown : Grown L d w v (copiedFlags m q) m m₁ o o₁) (inside : v < 2 ^ 20)
    (mapped : Mapped L d v p (copiedFlags m q v) m₁ m₂ o₁ o₂)
    (filling : Filling (fun m₁ => m₁.page (pteAddr (m.pte q v))) p m₁ m₂ o₁) :
    Copies q d w (v + 1) m m₂ o := by
  intro x mem own
  rw [Set.mem_Ico] at mem
  by_cases last : x = v
  · subst last
    rcases filling.contents with ⟨m₃, same, contents⟩
    have notDir : pteAddr (m.pte q x) ≠ d := by
      intro same
      rw [same, grown.edited.kept.isDir] at own
      cases own
    have flags : copiedFlags m q x < PGSIZE := pteFlags_lt _
    rw [mapped.pte, pteAddr_encode flags, contents, same]
    apply grown.edited.kept.page _ notDir <;> rw [own]
    · exact other
    · nofun
  · have early : x ∈ Set.Ico w v := Set.mem_Ico.mpr ⟨mem.1, by omega⟩
    have user := grown.user (fun _ => pteFlags_lt _) early
    rw [mapped.edited.pte x (by simpa using last) (by omega), filling.spared, copies x early own]
    all_goals
      rw [user]
      nofun

/-- The loop of `copyuvm` copies page by page. -/
theorem meets_copyLoop {Q : Bool → Mem → Prop} (owned : Owned L m o) (parent : o q = .dir)
    (other : q ≠ d) (grown : Grown L d w v (copiedFlags m q) m m₁ o o₁)
    (copies : Copies q d w v m m₁ o) (small : sz ≤ KERNBASE) (lower : w ≤ v) (upper : v ≤ pages sz)
    (zero : ∀ v' ∈ Set.Ico w (pages sz), m.pte d v' = 0)
    (hole : ∀ v' ∈ Set.Ico w (pages sz), m.pte q v' = 0 → E .copyuvmPte ∧ E .copyuvmPage)
    (failure : ∀ m' o', Failed L d w (pages sz) m m' o o' → Q false m')
    (success : ∀ m' o', Grown L d w (pages sz) (copiedFlags m q) m m' o o' →
      Copies q d w (pages sz) m m' o → Q true m') :
    Meets (copyLoop L d q sz (v * PGSIZE)) m₁ E Q := by
  have top : pages sz ≤ USERTOP := pages_le_usertop small
  -- The pages from `v` on are still to be copied.
  induction gap : pages sz - v using Nat.strong_induction_on generalizing v m₁ o₁ with
  | _ gap ih =>
      rcases upper.eq_or_lt with rfl | more
      · have done : ¬pages sz * PGSIZE < sz := fun more => lt_irrefl _ (lt_pages_iff.mpr more)
        rw [copyLoop, if_neg done]
        exact meets_pure (success m₁ o₁ grown copies)
      · have mem : v ∈ Set.Ico w (pages sz) := Set.mem_Ico.mpr ⟨lower, more⟩
        have below : v < USERTOP := by omega
        have inside : v < 2 ^ 20 := by
          simp only [USERTOP, KERNBASE, PGSIZE] at below
          omega
        have dir : o₁ q = .dir := grown.edited.kept.dir_iff.mpr parent
        have same : m₁.pte q v = m.pte q v := grown.edited.kept.pte owned other parent inside
        have absent : m₁.pte d v = 0 := by
          rw [grown.edited.pte v (by simp) inside]
          exact zero v mem
        have next : v * PGSIZE + PGSIZE = (v + 1) * PGSIZE := by ring
        rw [copyLoop, if_pos (lt_pages_iff.mp more), next]
        refine meets_bind (meets_walk grown.edited.owned dir inside ?_ ?_)
        · intro _ none
          exact meets_throw (hole v mem (same.symm.trans none)).1
        · intro t table entry
          refine meets_bind (meets_get ?_)
          simp only [← entry, same]
          refine meets_ite (fun absent => ?_) fun here => ?_
          · refine meets_bind (meets_throw (hole v mem ?_).2)
            by_contra mapped
            exact absent (owned.present_of_ne_zero parent inside mapped)
          · refine meets_alloc_map grown.edited.owned grown.edited.isDir below (pteFlags_lt _)
              (fun there => absurd absent there) ?_ ?_ ?_
            · intro m₂ quiet short
              refine meets_pure (failure m₂ o₁ (grown.failed more.le
                (Edited.of_quiet grown.edited.owned grown.edited.isDir quiet) quiet.failed lower
                more ?_))
              exact fun S _ => short S
            · intro p m₂ held failed short
              have temp := held.temp
              refine meets_bind (meets_kfree held.owned (by rw [temp]; rintro ⟨⟩) (meets_pure ?_))
              refine failure _ _ (grown.failed more.le
                (held.dropped (Edited.refl held.owned held.isDir) temp) failed lower more ?_)
              exact fun S tables => short S (tables v mem)
            · intro p m₂ o₂ mapped filling
              exact ih (pages sz - (v + 1)) (by omega) (grown.step lower inside mapped)
                (copies.step other grown inside mapped filling) (by omega) (by omega) rfl

/-! ## A shared page -/

/-- The entry that maps a shared page. -/
def sharedEntry (m : Mem) (k : Fin NSHAREPAGE) : ℕ := m.smAddr k * PGSIZE ||| UVMFLAGS ||| PTE_P

/-- Entry `e` maps shared page `k` for the user to write. The other flags are the processor's. -/
def MapsPage (m : Mem) (k : Fin NSHAREPAGE) (e : ℕ) : Prop :=
  pteAddr e = m.smAddr k ∧ present e = true ∧ e.testBit 1 = true ∧ userBit e = true

theorem mapsPage_sharedEntry (m : Mem) (k : Fin NSHAREPAGE) : MapsPage m k (sharedEntry m k) := by
  refine ⟨pteAddr_encode (by decide), present_encode, ?_, ?_⟩
  · rw [sharedEntry, Nat.testBit_or, Nat.testBit_or, show Nat.testBit UVMFLAGS 1 = true by decide]
    simp
  · rw [userBit, sharedEntry, Nat.testBit_or, Nat.testBit_or,
      show Nat.testBit UVMFLAGS 2 = true by decide]
    simp

theorem MapsPage.of_smAddr {e : ℕ} (maps : MapsPage m k e) (same : m'.smAddr = m.smAddr) :
    MapsPage m' k e := by
  rw [MapsPage, same]
  exact maps

/-- The index of the page table for the shared pages. -/
abbrev SHAREDTABLE : ℕ := USERTOP / NPTENTRIES - 1

theorem slot_div (k : Fin NSHAREPAGE) : slot k / NPTENTRIES = SHAREDTABLE := by
  have := k.isLt
  simp only [slot, SHAREDTABLE, USERTOP, KERNBASE, PGSIZE, NPTENTRIES, NSHAREPAGE] at *
  omega

/-- The places of the shared pages. -/
def window : Set ℕ := Set.range slot

/-- A shared page is mapped in a directory. -/
theorem meets_map_shared {k : Fin NSHAREPAGE} {Q : Bool → Mem → Prop} (owned : Owned L m o)
    (tidy : Tidy m o) (isDir : o d = .dir) (set : m.smAddr k ≠ 0)
    (remap : m.pte d (slot k) ≠ 0 → E .remap)
    (failure : ∀ m', Quiet m m' → m.entry d SHAREDTABLE = 0 → FailsAt 0 m → Q false m')
    (success : ∀ m' o', Edited L d {slot k} m m' o o' → m'.pte d (slot k) = sharedEntry m k →
      m'.entry d SHAREDTABLE ≠ 0 → Drawn {SHAREDTABLE} d 0 m m' → Q true m') :
    Meets (mappages d (slot k * PGSIZE) PGSIZE (m.smAddr k * PGSIZE) UVMFLAGS) m E Q := by
  have below := slot_lt k
  have inside : slot k < 2 ^ 20 := by
    simp only [USERTOP, KERNBASE, PGSIZE] at below
    omega
  have page : m.smAddr k < 2 ^ 20 := by
    refine owned.page_lt ?_
    rw [(tidy.shared k).resolve_left set]
    nofun
  rw [mappages_one inside]
  refine meets_mapLoop_step owned isDir inside remap ?_ ?_ rfl
  · intro m' quiet absent fails
    rw [slot_div] at absent
    exact failure m' quiet absent fails
  · intro t m₁ o₁ linked zero
    have ok : EntryOk m₁.smAddr o₁ d (slot k) (m.smAddr k * PGSIZE ||| UVMFLAGS ||| PTE_P) := by
      refine Or.inr ⟨present_encode, fun _ => Or.inr ⟨k, rfl, ?_, ?_⟩,
        fun above => absurd above (by omega)⟩
      · rw [pteAddr_encode (by decide), linked.kept.smAddr]
      · rwa [linked.kept.smAddr]
    rcases linked.owned.edited_setPte linked.table inside (encode_lt (by decide) page)
      (fun _ => Or.inl rfl)
      (fun _ => id) ok (fun r user => absurd user (linked.owned.not_user zero))
        with ⟨edited, written⟩
    have some : m₁.entry d SHAREDTABLE ≠ 0 := by
      rw [← slot_div k]
      exact (linked.owned.table t d _ linked.table).2.2.ne_zero
    refine meets_pure (success _ _ ((linked.edited (Set.mem_singleton _)).trans edited)
      written ?_ ?_)
    · rwa [Mem.entry_setEntry_of_page linked.ne.symm]
    · refine (linked.drawn {SHAREDTABLE} ?_).setEntry linked.ne
      rw [slot_div]
      exact Finset.mem_singleton_self _

theorem missing_singleton : missing {d} q m = if m.entry q d = 0 then 1 else 0 := by
  rw [missing, Finset.filter_singleton]
  split
  next => exact Finset.card_singleton _
  next => exact Finset.card_empty

/-- A page table that was missing has taken a page. -/
theorem Drawn.not_failsAt (drawn : Drawn {t} d 0 m m') (none : m.entry d t = 0)
    (some : m'.entry d t ≠ 0) :
    ¬FailsAt 0 m := by
  intro fails
  rcases drawn with ⟨c, allocs, count⟩
  rw [missing_singleton, missing_singleton, if_pos none, if_neg some] at count
  have := allocs.le_of_failsAt fails
  omega

/-! ## The shared pages of the parent -/

/-- A program on the memory leaves the rest of the kernel as it is. -/
theorem meets_onMem {α : Type} {program : MemProg α} {s : Kernel} {Q : α → Kernel → Prop}
    (meets : Meets program s.mem E fun a m => Q a { s with mem := m }) :
    Meets (onMem program) s E Q := by
  unfold Meets onMem at *
  cases ran : program s.mem with
  | ok r =>
      rw [ran] at meets
      simpa only [ran] using meets
  | error e =>
      rw [ran] at meets
      simpa only [ran] using meets

/-- Process `i` has attached shared page `k`. -/
def Proc.Attached (p : Proc) (k : Fin NSHAREPAGE) : Prop := p.sharedPage k ≠ 0

instance (p : Proc) (k : Fin NSHAREPAGE) :
    Decidable (p.Attached k) := inferInstanceAs (Decidable (_ ≠ _))

/-- Only memory, the counts and the shared pages of one process have changed. -/
structure SharesOnly (i : Fin NPROC) (s s' : Kernel) : Prop where
  self : s'.proc i = { s.proc i with sharedPage := (s'.proc i).sharedPage }
  others : ∀ j, j ≠ i → s'.proc j = s.proc j
  rest : s' = { s with mem := s'.mem, smCounts := s'.smCounts, proc := s'.proc }

theorem SharesOnly.refl {i : Fin NPROC} (s : Kernel) :
    SharesOnly i s s := ⟨rfl, fun _ _ => rfl, rfl⟩

theorem SharesOnly.trans {i : Fin NPROC} {s s' s'' : Kernel} (first : SharesOnly i s s')
    (second : SharesOnly i s' s'') : SharesOnly i s s'' where
  self := by rw [second.self, first.self]
  others j other := (second.others j other).trans (first.others j other)
  rest := by rw [second.rest, first.rest]

/-- The loop of `copyuvm` over the shared pages `ks` is done. -/
structure Shared (L : Link) (d : ℕ) (child parent : Fin NPROC) (ks : List (Fin NSHAREPAGE))
    (s s' : Kernel)
    (o o' : ℕ → Owner) : Prop where
  edited : Edited L d window s.mem s'.mem o o'
  only : SharesOnly child s s'
  pages : ∀ k, (s'.proc child).sharedPage k =
    if k ∈ ks ∧ (s.proc parent).Attached k then (s.proc parent).sharedPage k
      else (s.proc child).sharedPage k
  ptes : ∀ k, s'.mem.pte d (slot k) =
    if k ∈ ks ∧ (s.proc parent).Attached k then sharedEntry s.mem k else s.mem.pte d (slot k)
  counts : ∀ k, s'.smCounts k = s.smCounts k + if k ∈ ks ∧ (s.proc parent).Attached k then 1 else 0

namespace Shared

variable {child parent : Fin NPROC} {k : Fin NSHAREPAGE} {ks ks' : List (Fin NSHAREPAGE)}
  {s s' s'' : Kernel} {o'' : ℕ → Owner}

theorem refl (owned : Owned L s.mem o) (isDir : o d = .dir)
    (none : ∀ k ∈ ks, ¬(s.proc parent).Attached k) :
    Shared L d child parent ks s s o o := by
  have never : ∀ k, ¬(k ∈ ks ∧ (s.proc parent).Attached k) := fun k both => none k both.1 both.2
  refine ⟨Edited.refl owned isDir, SharesOnly.refl s, ?_, ?_, ?_⟩
  all_goals
    intro k
    rw [if_neg (never k)]
  rw [add_zero]

theorem parent_eq (shared : Shared L d child parent ks s s' o o') (other : child ≠ parent) :
    s'.proc parent = s.proc parent := shared.only.others parent other.symm

theorem entry (shared : Shared L d child parent ks s s' o o') (k : Fin NSHAREPAGE) :
    sharedEntry s'.mem k = sharedEntry s.mem k := by
  rw [sharedEntry, sharedEntry, shared.edited.kept.smAddr]

theorem trans (first : Shared L d child parent ks s s' o o')
    (second : Shared L d child parent ks' s' s'' o' o'') (other : child ≠ parent)
    (disjoint : ∀ k ∈ ks, k ∉ ks') :
    Shared L d child parent (ks ++ ks') s s'' o o'' := by
  have same := first.parent_eq other
  refine ⟨first.edited.trans second.edited, first.only.trans second.only, ?_, ?_, ?_⟩
  · intro k
    rw [second.pages k, first.pages k, same]
    simp only [List.mem_append]
    split_ifs <;> tauto
  · intro k
    rw [second.ptes k, first.ptes k, same, first.entry]
    simp only [List.mem_append]
    split_ifs <;> tauto
  · intro k
    have apart := disjoint k
    rw [second.counts k, first.counts k, same]
    simp only [List.mem_append]
    split_ifs <;> first | tauto | omega

/-- A shared page has been mapped, and counted. -/
theorem one {m' : Mem} {o' : ℕ → Owner} (edited : Edited L d {slot k} s.mem m' o o')
    (pte : m'.pte d (slot k) = sharedEntry s.mem k) (here : (s.proc parent).Attached k) :
    Shared L d child parent [k] s
      { s.setProc child { s.proc child with
          sharedPage := Function.update (s.proc child).sharedPage k ((s.proc parent).sharedPage k) }
            with
        mem := m'
        smCounts := Function.update s.smCounts k (s.smCounts k + 1) } o o' := by
  refine ⟨edited.mono (Set.singleton_subset_iff.mpr ⟨k, rfl⟩), ⟨?_, ?_, rfl⟩, ?_, ?_, ?_⟩
  · simp [Kernel.setProc]
  · exact fun j other => Function.update_of_ne other _ _
  · intro k'
    by_cases same : k' = k
    · subst same
      simp [Kernel.setProc, here]
    · simp [Kernel.setProc, same]
  · intro k'
    by_cases same : k' = k
    · subst same
      simp [pte, here]
    · have below := slot_lt k'
      rw [if_neg fun both => same (List.mem_singleton.mp both.1)]
      refine edited.pte _ (fun at_ => same (slot_inj at_)) ?_
      simp only [USERTOP, KERNBASE, PGSIZE] at below
      omega
  · intro k'
    by_cases same : k' = k
    · subst same
      simp [here]
    · simp [same]

end Shared

/-- The child gets the shared pages of its parent. -/
theorem meets_shareLoop {child parent : Fin NPROC} {ks : List (Fin NSHAREPAGE)} {s : Kernel}
    (nodup : ks.Nodup) {Q : Bool → Kernel → Prop} (owned : Owned L s.mem o) (tidy : Tidy s.mem o)
    (isDir : o d = .dir) (other : child ≠ parent) (set : ∀ k, s.mem.smAddr k ≠ 0)
    (place : ∀ k, (s.proc parent).Attached k → (s.proc parent).sharedPage k = slot k * PGSIZE)
    (remap : ∀ k ∈ ks, (s.proc parent).Attached k → s.mem.pte d (slot k) ≠ 0 → E .remap)
    (failure : ∀ s', Quiet s.mem s'.mem → SharesOnly child s s' → s.mem.entry d SHAREDTABLE = 0 →
      FailsAt 0 s.mem → (∃ k ∈ ks, (s.proc parent).Attached k ∧ (s'.proc child).Attached k) →
      Q false s') (success : ∀ s' o', Shared L d child parent ks s s' o o' →
      ((∃ k ∈ ks, (s.proc parent).Attached k) → s.mem.entry d SHAREDTABLE = 0 → ¬FailsAt 0 s.mem) →
      Q true s') :
    Meets (shareLoop d child parent ks) s E Q := by
  induction ks generalizing s o with
  | nil =>
      refine meets_pure (success s o
        (Shared.refl owned isDir fun k none => absurd none List.not_mem_nil) ?_)
      rintro ⟨k, none, _⟩
      exact absurd none List.not_mem_nil
  | cons k ks ih =>
      rcases List.nodup_cons.mp nodup with ⟨fresh, nodup⟩
      rw [shareLoop]
      refine meets_bind (meets_get (meets_ite (fun here => ?_) fun absent => ?_))
      · refine meets_bind (meets_modify (meets_bind (meets_onMem ?_)))
        rw [place k here]
        refine meets_map_shared owned tidy isDir (set k) (remap k List.mem_cons_self here) ?_ ?_
        · intro m' quiet none fails
          refine meets_pure (failure _ quiet ⟨?_, ?_, rfl⟩ none fails
            ⟨k, List.mem_cons_self, here, ?_⟩)
          · simp [Kernel.setProc]
          · exact fun j other => Function.update_of_ne other _ _
          · have nonzero : slot k * PGSIZE ≠ 0 := place k here ▸ here
            simpa [Kernel.setProc, Proc.Attached] using nonzero
        · intro m' o' edited pte some drawn
          refine meets_bind (meets_modify ?_)
          have first : Shared L d child parent [k] s _ o o' := Shared.one edited pte here
          rw [place k here] at first
          have same := first.parent_eq other
          have notHead : ∀ k' ∈ ks, k' ∉ [k] :=
            fun k' mem is => fresh (List.mem_singleton.mp is ▸ mem)
          refine ih nodup first.edited.owned (first.edited.kept.tidy tidy) first.edited.isDir ?_ ?_
            ?_ ?_ ?_
          · intro k'
            rw [first.edited.kept.smAddr]
            exact set k'
          · intro k' here'
            rw [same] at here' ⊢
            exact place k' here'
          · intro k' mem here' mapped
            rw [same] at here'
            rw [first.ptes k', if_neg fun both => notHead k' mem both.1] at mapped
            exact remap k' (List.mem_cons_of_mem _ mem) here' mapped
          · exact fun s' _ _ none _ _ => absurd none some
          · intro s' o'' shared _
            exact success s' o'' (first.trans shared other fun k' mem is => notHead k' is mem)
              fun _ none => drawn.not_failsAt none some
      · have skip : Shared L d child parent [k] s s o o :=
          Shared.refl owned isDir fun k' mem => List.mem_singleton.mp mem ▸ absent
        refine ih nodup owned tidy isDir set place
          (fun k' mem => remap k' (List.mem_cons_of_mem _ mem)) ?_ ?_
        · intro s' quiet only none fails stuck
          rcases stuck with ⟨k', mem, both⟩
          exact failure s' quiet only none fails ⟨k', List.mem_cons_of_mem _ mem, both⟩
        · intro s' o' shared enough
          refine success s' o'
            (skip.trans shared other fun k' mem => List.mem_singleton.mp mem ▸ fresh) ?_
          rintro ⟨k', mem, here⟩
          refine enough ⟨k', (List.mem_cons.mp mem).resolve_left ?_, here⟩
          rintro rfl
          exact absent here

/-! ## `copyuvm` -/

/-- The indices of the page tables for the user pages that are copied. -/
def userTables (sz : ℕ) : Finset ℕ := (Finset.Ico 1 (pages sz)).image (· / NPTENTRIES)

/-- The calls of `kalloc` in `copyuvm` before the page table for the shared pages. -/
def copyCalls (sz : ℕ) : ℕ := 1 + kernelTables.card + ((userTables sz).card + (pages sz - 1))

/-- The page table for the shared pages is not one of those for the user pages. -/
def Detached (sz : ℕ) : Prop := pages sz ≤ SHAREDTABLE * NPTENTRIES

theorem entry_ne_zero (mapped : m.pte q v ≠ 0) : m.entry q (v / NPTENTRIES) ≠ 0 :=
  fun none => mapped (Mem.pte_of_none none)

theorem mem_userTables (mem : v ∈ Set.Ico 1 (pages sz)) : v / NPTENTRIES ∈ userTables sz :=
  Finset.mem_image_of_mem _ (Finset.mem_Ico.mpr (Set.mem_Ico.mp mem))

/-- What is known when all user pages have been copied. -/
theorem Kvm.copied {flags : ℕ → ℕ} (kvm : Kvm L d m m₁ o o₁) (small : sz ≤ KERNBASE)
    (grown : Grown L d 1 (pages sz) flags m₁ m' o₁ o') :
    Allocs (copyCalls sz) m m' ∧ (m'.entry d SHAREDTABLE = 0 → Detached sz) := by
  have top := pages_le_usertop small
  have mapped : ∀ v ∈ Set.Ico 1 (pages sz), m'.pte d v ≠ 0 :=
    fun v mem => ne_zero_of_present (grown.present mem)
  constructor
  · rcases grown.drawn (userTables sz) (fun v mem => mem_userTables mem) with ⟨c, allocs, count⟩
    have before : missing (userTables sz) d m₁ = (userTables sz).card := by
      rw [missing, Finset.filter_true_of_mem]
      intro e mem
      rcases Finset.mem_image.mp mem with ⟨v, range, rfl⟩
      refine kvm.pde _ ?_
      rw [Finset.mem_Ico] at range
      simp only [USERTOP, KERNBASE, PGSIZE, NPTENTRIES] at *
      omega
    have after : missing (userTables sz) d m' = 0 := by
      rw [missing, Finset.card_eq_zero, Finset.filter_eq_empty_iff]
      intro e mem
      rcases Finset.mem_image.mp mem with ⟨v, range, rfl⟩
      exact entry_ne_zero (mapped v (Set.mem_Ico.mpr (Finset.mem_Ico.mp range)))
    rw [before, after, add_zero] at count
    rw [copyCalls, ← count]
    exact kvm.allocs.trans allocs
  · intro none
    by_contra covered
    have mem : SHAREDTABLE * NPTENTRIES ∈ Set.Ico 1 (pages sz) :=
      Set.mem_Ico.mpr ⟨by decide, Nat.not_le.mp covered⟩
    refine entry_ne_zero (mapped _ mem) ?_
    rwa [Nat.mul_div_cancel _ (by decide)]

/-- The child has got a copy `d` of the parent's address space. -/
structure Copied (L : Link) (d : ℕ) (child parent : Fin NPROC) (s s' : Kernel) (o o' : ℕ → Owner) :
    Prop where
  owned : Owned L s'.mem o'
  aside : Aside s.mem s'.mem o o'
  free : o d = .free
  isDir : o' d = .dir
  only : SharesOnly child s s'
  pages : ∀ k, (s'.proc child).sharedPage k =
    if (s.proc parent).Attached k then (s.proc parent).sharedPage k else (s.proc child).sharedPage k
  mapped : ∀ k, (s.proc parent).Attached k → s'.mem.pte d (slot k) = sharedEntry s.mem k
  unmapped : ∀ k, ¬(s.proc parent).Attached k → Private s'.mem o' d (slot k)
  counts : ∀ k, s'.smCounts k = s.smCounts k + if (s.proc parent).Attached k then 1 else 0

section Copy

variable {child parent : Fin NPROC} {s s' : Kernel}

/-- With the shared pages the copy is complete. -/
theorem Shared.copied {flags : ℕ → ℕ} {m₂ : Mem} {o₂ : ℕ → Owner} (kvm : Kvm L d s.mem m₁ o o₁)
    (owned : Owned L s.mem o) (tidy : Tidy s.mem o)
    (grown : Grown L d 1 (Vm.pages sz) flags m₁ m₂ o₁ o₂) (small : ∀ v, flags v < PGSIZE)
    (shared : Shared L d child parent (List.finRange NSHAREPAGE) { s with mem := m₂ } s' o₂ o') :
    Copied L d child parent s s' o o' := by
  have loose : (o d).Loose := by
    rw [kvm.free]
    trivial
  have all : ∀ k, (k ∈ List.finRange NSHAREPAGE ∧ (s.proc parent).Attached k) ↔
      (s.proc parent).Attached k :=
    fun k => and_iff_right (List.mem_finRange k)
  have aside := (kvm.aside.frame owned loose grown.edited.kept.toFrame).frame owned loose
    shared.edited.kept.toFrame
  have sm : m₂.smAddr = s.mem.smAddr := grown.edited.kept.smAddr.trans kvm.aside.smAddr
  refine ⟨shared.edited.owned, aside, kvm.free, shared.edited.isDir,
    ⟨shared.only.self, shared.only.others, ?_⟩,
    ?_, ?_, ?_, ?_⟩
  · rw [shared.only.rest]
  · intro k
    rw [shared.pages k]
    exact if_congr (all k) rfl rfl
  · intro k here
    rw [shared.ptes k, if_pos ((all k).mpr here)]
    change m₂.smAddr k * PGSIZE ||| _ ||| _ = s.mem.smAddr k * PGSIZE ||| _ ||| _
    rw [sm]
  · intro k absent
    have pte : s'.mem.pte d (slot k) = m₂.pte d (slot k) := by
      rw [shared.ptes k, if_neg fun both => absent both.2]
    have inside : slot k < 2 ^ 20 := by
      have := slot_lt k
      simp only [USERTOP, KERNBASE, PGSIZE] at this
      omega
    rw [Private, pte]
    by_cases range : slot k ∈ Set.Ico 1 (Vm.pages sz)
    · right
      have user := grown.user small range
      have tidy₂ := grown.edited.kept.tidy (kvm.aside.tidy tidy)
      rcases shared.edited.owned.entryOk shared.edited.isDir inside with zero | ⟨_, low, _⟩
      · rw [pte] at zero
        exact absurd zero (ne_zero_of_present (grown.present range))
      · rw [pte] at low
        refine (low (slot_lt k)).resolve_right ?_
        rintro ⟨k', place, page, set⟩
        cases slot_inj place
        rw [shared.edited.kept.smAddr] at page set
        rw [page, (tidy₂.shared k).resolve_left set] at user
        cases user
    · left
      rw [grown.edited.pte _ range inside]
      exact kvm.empty (slot_lt k)
  · intro k
    rw [shared.counts k]
    exact congrArg _ (if_congr (all k) rfl rfl)

/-- `copyuvm` makes a copy of the address space, or fails and frees what it has made. -/
theorem meets_copyuvm {Q : Option ℕ → Kernel → Prop} (owned : Owned L s.mem o) (tidy : Tidy s.mem o)
    (isDir : o q = .dir) (other : child ≠ parent) (set : ∀ k, s.mem.smAddr k ≠ 0)
    (place : ∀ k, (s.proc parent).Attached k → (s.proc parent).sharedPage k = slot k * PGSIZE)
    (small : sz ≤ KERNBASE) (positive : 0 < sz)
    (hole : ∀ v ∈ Set.Ico 1 (pages sz), s.mem.pte q v = 0 → E .copyuvmPte ∧ E .copyuvmPage)
    (remap : ∀ k, (s.proc parent).Attached k → slot k < pages sz → E .remap)
    (early : ∀ m' o', Owned L m' o' → Aside s.mem m' o o' → m'.failed = true →
      (∃ k < copyCalls sz, FailsAt k s.mem) → Q none { s with mem := m' })
    (late : ∀ s' o', Owned L s'.mem o' → Aside s.mem s'.mem o o' → s'.mem.failed = true →
      SharesOnly child s s' → FailsAt (copyCalls sz) s.mem → Detached sz →
      (∃ k, (s.proc parent).Attached k ∧ (s'.proc child).Attached k) → Q none s')
    (success : ∀ d s' o', Copied L d child parent s s' o o' →
      ((∃ k, (s.proc parent).Attached k) → Detached sz → ¬FailsAt (copyCalls sz) s.mem) →
      Q (some d) s') :
    Meets (copyuvm L q sz child parent) s E Q := by
  refine meets_bind (meets_onMem (meets_setupkvm owned ?_ ?_))
  · intro m' o' owned' aside _ failed short
    rcases short with ⟨k, below, fails⟩
    exact early m' o' owned' aside failed ⟨k, below.trans_le (Nat.le_add_right _ _), fails⟩
  · intro d m₁ o₁ kvm _
    have notParent : q ≠ d := by
      rintro rfl
      have free := kvm.free
      rw [isDir] at free
      cases free
    have loose : (o d).Loose := by
      rw [kvm.free]
      trivial
    have top := pages_le_usertop small
    have inside : ∀ v ∈ Set.Ico 1 (pages sz), v < USERTOP :=
      fun v mem => (Set.mem_Ico.mp mem).2.trans_le top
    have tidy₁ := kvm.aside.tidy tidy
    refine meets_bind (meets_onMem (meets_copyLoop kvm.owned (kvm.aside.isDir isDir) notParent
      (Grown.refl kvm.owned kvm.isDir) (by simp [Copies]) small le_rfl (pages_pos positive)
      (fun v mem => kvm.empty (inside v mem)) ?_ ?_ ?_))
    · intro v mem none
      have below := inside v mem
      rw [kvm.aside.pte owned isDir (by simp only [USERTOP, KERNBASE, PGSIZE] at below; omega)]
        at none
      exact hole v mem none
    · intro m₂ o₂ failed
      have aside := kvm.aside.frame owned loose failed.edited.kept.toFrame
      refine meets_bind (meets_onMem
        (meets_freevm failed.edited.owned failed.edited.isDir fun m₃ o₃ freed _ => ?_))
      refine meets_pure (early m₃ o₃ freed.owned (aside.freed owned loose freed)
        (freed.failed.trans failed.failed) ?_)
      rcases failed.short (userTables sz) fun v mem => mem_userTables mem with ⟨k, below, fails⟩
      have atMost : missing (userTables sz) d m₁ ≤ (userTables sz).card := Finset.card_filter_le _ _
      exact ⟨_, by rw [copyCalls]; omega, kvm.allocs.failsAt fails⟩
    · intro m₂ o₂ grown _
      have aside := kvm.aside.frame owned loose grown.edited.kept.toFrame
      have copied := kvm.copied small grown
      have sm : m₂.smAddr = s.mem.smAddr := aside.smAddr
      refine meets_bind (meets_shareLoop (List.nodup_finRange _) grown.edited.owned
        (grown.edited.kept.tidy tidy₁) grown.edited.isDir other (fun k => by rw [sm]; exact set k)
        place ?_ ?_ ?_)
      · intro k _ here there
        refine remap k here ?_
        by_contra beyond
        have below := slot_lt k
        refine there ?_
        rw [grown.edited.pte _ (fun mem => beyond (Set.mem_Ico.mp mem).2)
          (by simp only [USERTOP, KERNBASE, PGSIZE] at below; omega)]
        exact kvm.empty below
      · intro s' quiet only none fails stuck
        have owned' : Owned L s'.mem o₂ := grown.edited.owned.of_quiet quiet
        refine meets_bind (meets_onMem
          (meets_freevm owned' grown.edited.isDir fun m₃ o₃ freed _ => ?_))
        refine meets_pure (late _ o₃ freed.owned ?_ (freed.failed.trans quiet.failed) ?_ ?_
          (copied.2 none) ?_)
        · exact (aside.trans (.of_quiet quiet)).freed owned loose freed
        · exact ⟨only.self, only.others, by rw [only.rest]⟩
        · have after := copied.1.failsAt fails
          rwa [Nat.add_zero] at after
        · rcases stuck with ⟨k, _, both⟩
          exact ⟨k, both⟩
      · intro s' o' shared enough
        refine meets_pure (success d s' o'
          (shared.copied kvm owned tidy grown fun v => pteFlags_lt _) ?_)
        rintro ⟨k, here⟩ detached fails
        rw [← Nat.add_zero (copyCalls sz)] at fails
        refine enough ⟨k, List.mem_finRange k, here⟩ ?_ (copied.1.failsAt_rest fails)
        change m₂.entry d SHAREDTABLE = 0
        rw [grown.edited.pde, kvm.pde _ (by decide)]
        intro v mem same
        have below := (Set.mem_Ico.mp mem).2.trans_le detached
        simp only [SHAREDTABLE, USERTOP, KERNBASE, PGSIZE, NPTENTRIES] at same below
        omega

end Copy

end Xv6.Vm
