import Xv6.Vm.Calls

/-!
# Starting the kernel

`main`: memory goes to the free list in two parts, with the kernel's own directory and
the stacks of the other CPUs taken in between, then the first process is made and the shared
pages are set up. After that the process table is in order.
-/

namespace Xv6.Vm

open Prog

variable {L : Link} {m m' m'' : Mem} {o o' o'' : ℕ → Owner} {i j : Fin NPROC} {k : Fin NSHAREPAGE}
  {s s' : Kernel} {p q n : ℕ} {E : Panic → Prop} {ks : List (Fin NSHAREPAGE)}

/-! ## Enough memory -/

/-- The next `n` calls of `kalloc` succeed. -/
structure Ample (n : ℕ) (m : Mem) : Prop where
  room : n ≤ m.freelist.length
  faults : m.faults = []

namespace Ample

theorem not_failsAt {k : ℕ} (ample : Ample n m) (less : k < n) : ¬FailsAt k m := by
  intro fails
  rcases fails.stuck with fault | all
  · rw [ample.faults] at fault
    cases fault
  · have := ample.room
    omega

theorem allocs {c : ℕ} (ample : Ample (c + n) m) (allocs : Allocs c m m') : Ample n m' where
  room := by
    have := ample.room
    rw [allocs.length] at this
    omega
  faults := by rw [allocs.faults, ample.faults, List.drop_nil]

theorem mono {n' : ℕ} (ample : Ample n m) (less : n' ≤ n) :
    Ample n' m := ⟨less.trans ample.room, ample.faults⟩

theorem released {T : Finset ℕ} (ample : Ample n m) (released : Released L T m m' o o') :
    Ample (T.card + n) m' where
  room := by
    have := ample.room
    rcases released.list with ⟨c, list, length⟩
    rw [list, List.length_append]
    omega
  faults := by rw [released.faults, ample.faults]

end Ample

/-! ## freerange -/

/-- `freerange` frees every page of its range. -/
theorem meets_freerange {Q : Unit → Mem → Prop} (owned : Owned L m o)
    (objects : ∀ r ∈ Finset.Ico p (p + n), o r = .object)
    (post : ∀ m' o', Released L (Finset.Ico p (p + n)) m m' o o' → Q () m') :
    Meets (freerange L n p) m E Q := by
  induction n generalizing p m o with
  | zero =>
      refine meets_pure (post m o ?_)
      rw [Nat.add_zero, Finset.Ico_self]
      exact .refl owned
  | succ n ih =>
      have object : o p = .object := objects p (Finset.mem_Ico.mpr ⟨le_rfl, by omega⟩)
      refine meets_bind (meets_kfree_atom owned (by rw [object]; trivial) (by rw [object]; nofun)
        fun m₁ o₁ one => ?_)
      have apart : p ∉ Finset.Ico (p + 1) (p + 1 + n) := by
        rw [Finset.mem_Ico]
        omega
      refine ih one.owned (fun r mem => ?_) fun m' o' rest => post m' o' ?_
      · have later : r ∉ ({p} : Finset ℕ) := by
          rw [Finset.mem_singleton]
          rintro rfl
          exact apart mem
        rw [one.of_notMem later]
        refine objects r ?_
        rw [Finset.mem_Ico] at mem ⊢
        omega
      · have both := one.trans rest (Finset.disjoint_singleton_left.mpr apart)
        rwa [← Finset.insert_eq, ← Nat.add_right_comm, Nat.add_assoc,
          Finset.insert_Ico_add_one_left_eq_Ico] at both
        omega

/-- Before `main`, every page is the kernel's. -/
def startOwner (L : Link) (p : ℕ) : Owner := if L.first ≤ p ∧ p < LASTPAGE then .object
      else .outside

theorem startOwner_cases (L : Link) (p : ℕ) :
    startOwner L p = .object ∨ startOwner L p = .outside := by
  rw [startOwner]
  split
  · exact Or.inl rfl
  · exact Or.inr rfl

/-- At first every page is an object. -/
theorem owned_start (L : Link) : Owned L Kernel.start.mem (startOwner L) := by
  have other : ∀ {p : ℕ} {x : Owner}, startOwner L p = x → x ≠ .object → x ≠ .outside → False := by
    rintro p x rfl notObject notOutside
    rcases startOwner_cases L p with object | outside
    · exact notObject object
    · exact notOutside outside
  refine ⟨fun p => ?_, List.nodup_nil,
    fun p => ⟨fun none => absurd none List.not_mem_nil, fun free => (other free nofun nofun).elim⟩,
    fun q d dir => (other dir nofun nofun).elim, fun t q d table => (other table nofun nofun).elim,
    fun t q d i table => (other table nofun nofun).elim, fun p q v user =>
    (other user nofun nofun).elim⟩
  rw [startOwner]
  split
  next inside => exact iff_of_true nofun inside
  next outside => exact iff_of_false (fun known => known rfl) outside

theorem tidy_start (L : Link) : Tidy Kernel.start.mem (startOwner L) := ⟨fun _ => Or.inl rfl, rfl⟩

/-! ## The stacks of the other CPUs -/

/-- Nothing but memory and the list of objects has changed. -/
theorem meets_startothers {Q : Unit → Kernel → Prop} (owned : Owned L s.mem o)
    (faults : s.mem.faults = []) (short : s.mem.freelist.length < n → E .trap)
    (post : ∀ m' o' objects, Owned L m' o' → Aside s.mem m' o o' → Allocs n s.mem m' →
      Q () { s with mem := m', objects := objects }) : Meets (startothers n) s E Q := by
  induction n generalizing s o with
  | zero => exact meets_pure (post s.mem o s.objects owned .refl .refl)
  | succ n ih =>
      refine meets_bind (meets_bind
        (meets_onMem (meets_kalloc owned (fun m' quiet fails => ?_) fun p m' taken => ?_)))
      · refine meets_pure (meets_throw (short ?_))
        rcases fails.stuck with fault | none
        · rw [faults] at fault
          cases fault
        · omega
      · refine meets_bind (meets_modify (meets_pure ?_))
        refine ih taken.owned ?_ (fun less => short ?_) fun m'' o' objects owned' aside allocs => ?_
        · rw [show (_ : Mem).faults = _ from taken.faults, faults]
          rfl
        · have := taken.allocs.length
          simp only at less
          omega
        · refine post m'' o' objects owned' (taken.aside.trans aside) ?_
          rw [Nat.add_comm]
          exact taken.allocs.trans allocs

/-! ## The first process -/

/-- A page of the directory gets contents. -/
theorem Frame.fill (frame : Frame q m m' o o') (mine : Mine q (o p)) (contents : Page) :
    Frame q m (m'.fill p contents) o o' where
  isDir := frame.isDir
  owner := frame.owner
  page := by
    intro r other notMine known
    rw [Mem.fill_page_of_ne, frame.page r other notMine known]
    rintro rfl
    exact notMine mine
  smAddr := frame.smAddr
  failed := frame.failed
  clean := frame.clean

/-- The directory has got its first page, and nothing else. -/
theorem meets_inituvm {init : List Byte} {Q : Unit → Mem → Prop} (owned : Owned L m o)
    (isDir : o q = .dir) (ample : Ample (2 + n) m) (zero : m.pte q 0 = 0)
    (large : PGSIZE ≤ init.length → E .inituvm)
    (post : ∀ m' o', Owned L m' o' → Frame q m m' o o' →
      (∀ v ≠ 0, v < 2 ^ 20 → m'.pte q v = m.pte q v) → Ample n m' → Q () m') :
    Meets (inituvm q init) m E Q := by
  have one : ∀ pa perm, mappages q 0 PGSIZE pa perm = mapLoop q perm 1 (0 * PGSIZE) pa :=
    fun pa perm => mappages_one (v := 0) (by decide)
  refine meets_ite (fun tooLarge => meets_bind (meets_throw (large tooLarge))) fun _ => ?_
  refine meets_bind (meets_kalloc owned
    (fun m' _ fails => absurd fails (ample.not_failsAt (by omega))) ?_)
  intro p m₁ taken
  have held : Held L q p m (m₁.zero p) o := taken.held isDir _
  have ample₁ : Ample (1 + n) (m₁.zero p) := by
    have left := Ample.allocs (c := 1) (n := 1 + n) (by rwa [← Nat.add_assoc]) taken.allocs
    exact ⟨left.room, left.faults⟩
  refine meets_bind (meets_modify ?_)
  rw [one]
  refine meets_bind (meets_map_user held.owned held.isDir (by decide)
    (by decide) held.temp ?_ ?_ ?_)
  · intro there
    rw [held.pte q 0 isDir (by decide)] at there
    exact absurd zero there
  · exact fun m' _ _ fails => absurd fails (ample₁.not_failsAt (by omega))
  · intro m₂ o₂ edited drawn owner _ _ _
    refine meets_modify ?_
    generalize Bytes.move (m₂.page p) 0 init.length (fun j => init.getD j 0) = contents
    have kept : ∀ r, (o₂ r).HoldsEntries → (m₂.fill p contents).page r = m₂.page r := by
      intro r holds
      apply Mem.fill_page_of_ne
      rintro rfl
      rw [owner] at holds
      exact holds
    have mine : Mine q (o p) := by
      rw [held.free]
      trivial
    refine post _ o₂ (edited.owned.of_kept kept rfl rfl)
      ((held.frame.trans edited.kept.toFrame).fill mine contents)
      (fun v other inside => ?_) ?_
    · rw [edited.owned.pte_congr kept edited.isDir inside,
        edited.pte v (by simpa using other) inside,
        held.pte q v isDir inside]
    · rcases drawn {0 / NPTENTRIES} (Finset.mem_singleton_self _) with ⟨c, allocs, count⟩
      rw [missing_singleton, missing_singleton] at count
      have few : c ≤ 1 := by
        split_ifs at count
        all_goals omega
      have left := (ample₁.mono (Nat.add_le_add_right few n)).allocs allocs
      exact ⟨left.room, left.faults⟩

/-! ## The shared pages -/

/-- A page of the running call becomes shared page `k`. -/
theorem Owned.share (owned : Owned L m o) (temp : o p = .temp) (unset : m.smAddr k = 0) :
    Owned L { m.zero p with smAddr := Function.update m.smAddr k p }
      (Function.update o p (.shared k)) := by
  refine owned.relabel (by rw [temp]; trivial) trivial (fun r holds => ?_)
    (fun k' set => ?_) owned.nodup fun r => ?_
  · apply Mem.fill_page_of_ne
    rintro rfl
    rw [temp] at holds
    exact holds
  · refine Function.update_of_ne ?_ _ _
    rintro rfl
    exact set unset
  · change r ∈ m.freelist ↔ _
    rw [owned.free r]
    by_cases same : r = p
    · subst same
      simp [temp]
    · rw [Function.update_of_ne same]

/-- There is one process, the first, and the shared pages `ks` are still to be set up. -/
structure First (L : Link) (i : Fin NPROC) (ks : List (Fin NSHAREPAGE)) (s : Kernel)
    (o : ℕ → Owner) : Prop where
  owned : Owned L s.mem o
  tidy : Tidy s.mem o
  unset : ∀ k, s.mem.smAddr k = 0 ↔ k ∈ ks
  isDir : o (s.proc i).pgdir = .dir
  stack : o (s.proc i).kstack = .kstack i
  sz : (s.proc i).sz = PGSIZE
  state : (s.proc i).state = .runnable
  empty : ∀ k, s.mem.pte (s.proc i).pgdir (slot k) = 0
  others : ∀ j, j ≠ i → ¬s.Used j
  pages : ∀ j k, ¬(s.proc j).Attached k
  counts : ∀ k, s.smCounts k = 0

namespace First

/-- The first process is settled. -/
theorem settled (first : First L i [] s o) : Settled L Set.univ s o := by
  have only : ∀ j, s.Used j → j = i := by
    intro j used
    by_contra other
    exact first.others j other used
  refine ⟨first.owned, first.tidy, fun k zero => absurd ((first.unset k).mp zero) List.not_mem_nil,
    fun j _ used => ?_, fun j _ used => ?_, fun j _ j' _ used used' _ => ?_, fun j _ _ =>
    first.pages j⟩
  · rw [only j used]
    refine ⟨first.isDir, ?_, ?_, fun k here => absurd here (first.pages i k), fun k _ =>
      Or.inl (first.empty k)⟩
    all_goals
      rw [first.sz]
      decide
  · rw [only j used]
    exact first.stack
  · rw [only j used, only j' used']

/-- A page has become shared page `k`. -/
theorem share {m' : Mem} (first : First L i (k :: ks) s o) (fresh : k ∉ ks)
    (taken : Taken L p s.mem m' o) (smCounts : Fin NSHAREPAGE → ℤ) (counts : ∀ k, smCounts k = 0) :
    First L i ks
      { s with
        smCounts := smCounts
        mem := { m'.zero p with smAddr := Function.update m'.smAddr k p } }
      (Function.update o p (.shared k)) := by
  have other : ∀ r x, o r = x → x ≠ .free → Function.update o p (.shared k) r = x := by
    rintro r x rfl notFree
    apply Function.update_of_ne
    rintro rfl
    exact notFree taken.free
  have unset : s.mem.smAddr k = 0 := (first.unset k).mpr List.mem_cons_self
  have page : p ≠ 0 := first.owned.page_pos (by rw [taken.free]; nofun)
  have owned := taken.owned.share (Function.update_self _ _ _) (by rw [taken.smAddr]; exact unset)
  rw [Function.update_idem] at owned
  refine ⟨owned, ⟨fun k' => ?_, taken.misfreed.trans first.tidy.clean⟩,
    fun k' => ?_, other _ _ first.isDir nofun,
    other _ _ first.stack nofun, first.sz, first.state, fun k' => ?_, first.others,
    first.pages, counts⟩
  · by_cases same : k' = k
    · subst same
      right
      simp
    · simp only [Function.update_of_ne same, taken.smAddr]
      exact (first.tidy.shared k').imp_right fun owner => other _ _ owner nofun
  · by_cases same : k' = k
    · subst same
      simp [page, fresh]
    · simp only [Function.update_of_ne same, taken.smAddr]
      rw [first.unset k', List.mem_cons]
      exact or_iff_right same
  · have held : Held L _ p s.mem (m'.zero p) o := taken.held first.isDir _
    exact (held.pte _ _ first.isDir (slot_inside k')).trans (first.empty k')

theorem counted (first : First L i ks s o) : Counted s := by
  intro k
  rw [first.counts k, Finset.filter_false_of_mem fun j _ holds => first.pages j k holds.2]
  rfl

end First

/-- `shmeminit` takes a page for every number. -/
theorem meets_shmemInit {Q : Unit → Kernel → Prop} (nodup : ks.Nodup) (first : First L i ks s o)
    (ample : Ample (ks.length + n) s.mem)
    (post : ∀ s' o', First L i [] s' o' → s'.initproc = s.initproc → Ample n s'.mem → Q () s') :
    Meets (shmemInit ks) s E Q := by
  induction ks generalizing s o with
  | nil =>
      rw [List.length_nil, Nat.zero_add] at ample
      exact meets_pure (post s o first rfl ample)
  | cons k ks ih =>
      rcases List.nodup_cons.mp nodup with ⟨fresh, nodup⟩
      rw [List.length_cons, Nat.add_comm ks.length 1, Nat.add_assoc] at ample
      refine meets_bind (meets_modify (meets_bind (meets_onMem (meets_kalloc first.owned ?_ ?_))))
      · exact fun m' _ fails => absurd fails (ample.not_failsAt (by omega))
      · intro p m' taken
        refine meets_bind (meets_onMem (meets_modify ?_))
        have left := ample.allocs taken.allocs
        refine ih nodup (first.share fresh taken _ fun k' => ?_) ⟨left.room, left.faults⟩ post
        by_cases same : k' = k
        · subst same
          exact Function.update_self _ _ _
        · exact (Function.update_of_ne same _ _).trans (first.counts k')

/-- Only the kernel's own directory and objects are there. -/
theorem meets_userinit {initcode : List Byte} {Q : Unit → Kernel → Prop} (owned : Owned L s.mem o)
    (tidy : Tidy s.mem o) (ample : Ample (1 + (1 + kernelTables.card) + (2 + n)) s.mem)
    (unset : ∀ k, s.mem.smAddr k = 0) (unused : ∀ j, ¬s.Used j)
    (pages : ∀ j k, ¬(s.proc j).Attached k) (counts : ∀ k, s.smCounts k = 0)
    (large : PGSIZE ≤ initcode.length → E .inituvm)
    (post : ∀ s' o', First L s'.initproc (List.finRange NSHAREPAGE) s' o' → Ample n s'.mem →
      Q () s') :
    Meets (userinit L initcode) s E Q := by
  rw [Nat.add_assoc] at ample
  refine meets_bind (meets_allocproc owned (fun full => absurd (full 0) (unused 0)) ?_ ?_)
  · exact fun _ _ _ _ _ fails => absurd fails (ample.not_failsAt (by omega))
  · intro i s₁ found embryo taken
    have ample₁ := ample.allocs taken.allocs
    have owned₁ := taken.stack i
    have aside₁ : Aside s.mem s₁.mem o (Function.update o (s₁.proc i).kstack (.kstack i)) :=
      taken.aside
    have stack₁ : Function.update o (s₁.proc i).kstack (.kstack i) (s₁.proc i).kstack = .kstack i :=
      Function.update_self _ _ _
    generalize Function.update o (s₁.proc i).kstack (.kstack i) = o₁ at owned₁ aside₁ stack₁
    refine meets_bind (meets_modify (meets_bind (meets_onMem (meets_setupkvm owned₁ ?_ ?_))))
    · rintro m' o' _ _ _ _ ⟨k, below, fails⟩
      exact absurd fails (ample₁.not_failsAt (by omega))
    · intro q m₂ o₂ kvm _
      refine meets_bind (meets_modify (meets_bind (meets_onMem ?_)))
      refine meets_inituvm kvm.owned kvm.isDir (ample₁.allocs kvm.allocs)
        (kvm.empty (by decide)) large ?_
      intro m₃ o₃ owned₃ frame ptes ample₃
      have aside : Aside s₁.mem m₃ o₁ o₃ := kvm.aside.frame owned₁ (by rw [kvm.free]; trivial) frame
      have first : ∀ s', s'.mem = m₃ → s'.smCounts = s₁.smCounts →
          s'.proc i = { s₁.proc i with pgdir := q, sz := PGSIZE, state := .runnable } →
          (∀ j, j ≠ i → s'.proc j = s₁.proc j) → First L i (List.finRange NSHAREPAGE) s' o₃ := by
        intro s' mem smCounts self others
        constructor
        case owned => rw [mem]; exact owned₃
        case tidy => rw [mem]; exact aside.tidy (aside₁.tidy tidy)
        case unset =>
          intro k
          refine iff_of_true ?_ (List.mem_finRange k)
          rw [mem, aside.smAddr, aside₁.smAddr]
          exact unset k
        case isDir => rw [self]; exact frame.dir_iff.mpr kvm.isDir
        case stack =>
          rw [self, aside.stays, stack₁]
          rw [stack₁]
          exact id
        case sz => rw [self]
        case state => rw [self]
        case empty =>
          intro k
          rw [self, mem, ptes _ (slot_ne_zero k) (slot_inside k)]
          exact kvm.empty (slot_lt k)
        case others =>
          intro j other
          rw [Kernel.Used, others j other, found.others j other]
          exact unused j
        case pages =>
          intro j k
          rw [Proc.Attached]
          by_cases same : j = i
          · rw [same, self]
            change ¬(s₁.proc i).sharedPage k ≠ 0
            rw [found.pages]
            exact pages i k
          · rw [others j same, found.others j same]
            exact pages j k
        case counts =>
          intro k
          rw [smCounts, found.rest]
          exact counts k
      refine meets_modify (post _ o₃ (first _ rfl rfl ?_ fun j other => ?_) ample₃)
      · simp
      · simp [other]

/-! ## main -/

theorem first_le (L : Link) : L.first ≤ 1024 := by
  have := L.low
  simp only [Link.first, PGSIZE]
  omega

theorem card_kernelTables : kernelTables.card = 64 := by
  rw [kernelTables, Finset.card_union_of_disjoint, Nat.card_Ico, Nat.card_Ico]
  rw [Finset.disjoint_left]
  intro d low high
  rw [Finset.mem_Ico] at low high
  omega

/-- The pages that the kernel's directory and the stacks of `n` CPUs need of the first part of
memory. -/
def Fits (L : Link) (n : ℕ) : Prop := L.first + (1 + kernelTables.card) + n ≤ 1024

/-- The boot comes to its end with the memory of the machine, or panics for the reasons given. -/
theorem meets_boot {initcode : List Byte} {Q : Unit → Kernel → Prop}
    (short : ¬Fits L n → E .trap) (large : PGSIZE ≤ initcode.length → E .inituvm)
    (post : ∀ s o, First L s.initproc [] s o → Ample 50000 s.mem → Q () s) :
    Meets (boot L n initcode) Kernel.start E Q := by
  have below := first_le L
  have object : ∀ r, L.first ≤ r → r < LASTPAGE → startOwner L r = .object :=
    fun r lower upper => if_pos ⟨lower, upper⟩
  have first : ∀ r ∈ Finset.Ico L.first (L.first + (4 * 1024 * 1024 / PGSIZE - L.first)),
      startOwner L r = .object := by
    intro r mem
    rw [Finset.mem_Ico] at mem
    simp only [PGSIZE] at mem
    refine object r mem.1 ?_
    simp only [LASTPAGE, PHYSTOP, PGSIZE]
    omega
  refine meets_bind (meets_onMem (meets_freerange (owned_start L) first fun m₁ o₁ low => ?_))
  have ample₁ := Ample.released ⟨Nat.le_refl 0, rfl⟩ low
  rw [Nat.card_Ico, Nat.add_zero, Nat.add_sub_cancel_left] at ample₁
  have enough : Fits L n → Ample (1 + kernelTables.card + n) m₁ := by
    intro fits
    refine ample₁.mono ?_
    simp only [Fits, PGSIZE] at fits ⊢
    omega
  refine meets_bind (meets_onMem (meets_setupkvm low.owned ?_ ?_))
  · rintro m' o' _ _ _ _ ⟨k, less, fails⟩
    exact meets_throw (short fun fits => (enough fits).not_failsAt (by omega) fails)
  · intro kpgdir m₂ o₂ kvm _
    have faults₂ : m₂.faults = [] := by rw [kvm.allocs.faults, ample₁.faults, List.drop_nil]
    refine meets_bind (meets_modify
      (meets_bind (meets_startothers kvm.owned faults₂ (fun less => short fun fits => ?_) ?_)))
    · have := ((enough fits).allocs kvm.allocs).room
      simp only at less
      omega
    · intro m₃ o₃ objects owned₃ aside₃ allocs₃
      have later : ∀ r ∈ Finset.Ico (4 * 1024 * 1024 / PGSIZE)
          (4 * 1024 * 1024 / PGSIZE + (LASTPAGE - 4 * 1024 * 1024 / PGSIZE)), o₃ r = .object := by
        intro r mem
        rw [Finset.mem_Ico] at mem
        simp only [LASTPAGE, PHYSTOP, PGSIZE] at mem
        have was : o₁ r = .object := by
          rw [low.of_notMem, object r (by omega) (by simp only [LASTPAGE, PHYSTOP, PGSIZE]; omega)]
          rw [Finset.mem_Ico, PGSIZE]
          omega
        have now : o₂ r = .object := by
          rw [kvm.aside.stays, was]
          rw [was]
          exact id
        rw [aside₃.stays, now]
        rw [now]
        exact id
      refine meets_bind (meets_onMem (meets_freerange owned₃ later fun m₄ o₄ high => ?_))
      have ample₄ := Ample.released
        ⟨Nat.zero_le _, by rw [allocs₃.faults, faults₂, List.drop_nil]⟩ high
      rw [Nat.card_Ico, Nat.add_zero, Nat.add_sub_cancel_left] at ample₄
      have unset : m₄.smAddr = Kernel.start.mem.smAddr := by
        rw [high.smAddr, aside₃.smAddr, kvm.aside.smAddr, low.smAddr]
      have tidy := high.tidy (aside₃.tidy (kvm.aside.tidy (low.tidy (tidy_start L))))
      have enough₄ : Ample (1 + (1 + kernelTables.card) + (2 + (NSHAREPAGE + 50000))) m₄ := by
        refine ample₄.mono ?_
        rw [card_kernelTables]
        simp only [LASTPAGE, PHYSTOP, PGSIZE, NSHAREPAGE]
        omega
      refine meets_bind (meets_userinit high.owned tidy enough₄ (fun k => congrFun unset k)
        (fun j used => used rfl)
        (fun j k here => here rfl) (fun k => rfl) large fun s₅ o₅ made ample₅ => ?_)
      refine meets_shmemInit (n := 50000) (List.nodup_finRange _) made ?_
        fun s₆ o₆ ready same ample₆ => ?_
      · rwa [List.length_finRange]
      · rw [← same] at ready
        exact post s₆ o₆ ready ample₆

/-- With enough memory and a small program the boot succeeds. -/
theorem boot_returns {initcode : List Byte} (fits : Fits L n) (small : initcode.length < PGSIZE) :
    ∃ s o, boot L n initcode Kernel.start = .ok ((), s) ∧ First L s.initproc [] s o ∧
      Ample 50000 s.mem := by
  have booted : Meets (boot L n initcode) Kernel.start (fun _ => False) fun _ s =>
      ∃ o, First L s.initproc [] s o ∧ Ample 50000 s.mem :=
    meets_boot (fun short => short fits) (Nat.not_le.mpr small) fun s o first ample =>
      ⟨o, first, ample⟩
  rcases booted.returns fun _ => id with ⟨_, s, started, o, first, ample⟩
  exact ⟨s, o, started, first, ample⟩

end Xv6.Vm
