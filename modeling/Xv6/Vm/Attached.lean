import Xv6.Vm.Copy
import Xv6.Vm.Load

/-!
# The process table

What holds of every slot of the process table between two system calls: a process that
is there has a directory and a kernel stack of its own, and its directory maps exactly the
shared pages that it has attached; a slot that is not used has none. `Settled` says this of
some slots, so that a call can be followed while it works on the others.
-/

namespace Xv6.Vm

open Prog

variable {L : Link} {m m' : Mem} {o o' : ℕ → Owner} {p : Proc} {i j : Fin NPROC}
  {k : Fin NSHAREPAGE} {s s' : Kernel} {S T : Set (Fin NPROC)} {q r : ℕ}

/-- The address space of a process. -/
structure Spaced (m : Mem) (o : ℕ → Owner) (p : Proc) : Prop where
  isDir : o p.pgdir = .dir
  small : p.sz ≤ KERNBASE
  positive : 0 < p.sz
  attached : ∀ k, p.Attached k →
    p.sharedPage k = slot k * PGSIZE ∧ MapsPage m k (m.pte p.pgdir (slot k))
  apart : ∀ k, ¬p.Attached k → Private m o p.pgdir (slot k)

/-- Two states of a process with the same memory. -/
structure Proc.Alike (p p' : Proc) : Prop where
  sz : p'.sz = p.sz
  pgdir : p'.pgdir = p.pgdir
  kstack : p'.kstack = p.kstack
  pages : p'.sharedPage = p.sharedPage
  state : p'.state = .unused ↔ p.state = .unused

theorem Proc.Alike.refl (p : Proc) : p.Alike p := ⟨rfl, rfl, rfl, rfl, Iff.rfl⟩

theorem Proc.Alike.trans {p p' p'' : Proc} (first : p.Alike p') (second : p'.Alike p'') :
    p.Alike p'' :=
  ⟨second.sz.trans first.sz, second.pgdir.trans first.pgdir, second.kstack.trans first.kstack,
    second.pages.trans first.pages, second.state.trans first.state⟩

theorem slot_ne_zero (k : Fin NSHAREPAGE) : slot k ≠ 0 := by
  have := k.isLt
  simp only [slot, USERTOP, KERNBASE, PGSIZE, NSHAREPAGE] at *
  omega

theorem slot_inside (k : Fin NSHAREPAGE) : slot k < 2 ^ 20 := inside_of_user (slot_lt k)

/-- A process keeps its address space, whatever happens elsewhere. -/
theorem Spaced.kept {p' : Proc} (spaced : Spaced m o p) (alike : p.Alike p') (owned : Owned L m' o')
    (tidy : Tidy m o) (smAddr : m'.smAddr = m.smAddr) (isDir : o' p.pgdir = .dir)
    (pte : ∀ v < 2 ^ 20, m'.pte p.pgdir v = m.pte p.pgdir v) : Spaced m' o' p' := by
  have same : ∀ k, p'.Attached k ↔ p.Attached k :=
    fun k => by rw [Proc.Attached, alike.pages]; exact Iff.rfl
  constructor
  case isDir => rwa [alike.pgdir]
  case small => rw [alike.sz]; exact spaced.small
  case positive => rw [alike.sz]; exact spaced.positive
  case attached =>
    intro k here
    rw [alike.pages, alike.pgdir, pte _ (slot_inside k)]
    rcases spaced.attached k ((same k).mp here) with ⟨place, maps⟩
    exact ⟨place, maps.of_smAddr smAddr⟩
  case apart =>
    intro k absent
    rw [alike.pgdir]
    exact (spaced.apart k fun here => absent ((same k).mpr here)).kept owned tidy smAddr isDir
      (pte _ (slot_inside k))

/-- Shared page `k` has been mapped, and entered. -/
theorem Spaced.attach {p' : Proc} (spaced : Spaced m o p) (tidy : Tidy m o)
    (edited : Edited L p.pgdir {slot k} m m' o o') (maps : MapsPage m k (m'.pte p.pgdir (slot k)))
    (pgdir : p'.pgdir = p.pgdir) (sz : p'.sz = p.sz)
    (pages : p'.sharedPage = Function.update p.sharedPage k (slot k * PGSIZE)) :
    Spaced m' o' p' := by
  have page : p'.sharedPage k = slot k * PGSIZE := by rw [pages, Function.update_self]
  have others : ∀ k' ≠ k, p'.sharedPage k' = p.sharedPage k' ∧
      m'.pte p.pgdir (slot k') = m.pte p.pgdir (slot k') :=
    fun k' other => ⟨by rw [pages, Function.update_of_ne other],
      edited.pte _ (fun same => other (slot_inj same)) (slot_inside k')⟩
  refine ⟨pgdir ▸ edited.isDir, sz ▸ spaced.small, sz ▸ spaced.positive,
    fun k' here => ?_, fun k' absent => ?_⟩
  · rw [pgdir]
    by_cases same : k' = k
    · subst same
      exact ⟨page, maps.of_smAddr edited.kept.smAddr⟩
    · rw [Proc.Attached, (others k' same).1] at here
      rw [(others k' same).1, (others k' same).2]
      rcases spaced.attached k' here with ⟨place, maps'⟩
      exact ⟨place, maps'.of_smAddr edited.kept.smAddr⟩
  · have other : k' ≠ k := by
      rintro rfl
      rw [Proc.Attached, page] at absent
      exact absent (Nat.mul_ne_zero (slot_ne_zero k') (by decide))
    rw [Proc.Attached, (others k' other).1] at absent
    rw [pgdir]
    exact (spaced.apart k' absent).kept edited.owned tidy edited.kept.smAddr edited.isDir
      (others k' other).2

/-- There is a process in slot `i`. -/
def Kernel.Used (s : Kernel) (i : Fin NPROC) : Prop := (s.proc i).state ≠ .unused

instance : Decidable (s.Used i) := inferInstanceAs (Decidable (_ ≠ _))

/-- The slots `S` of the process table are in order. -/
structure Settled (L : Link) (S : Set (Fin NPROC)) (s : Kernel) (o : ℕ → Owner) : Prop where
  owned : Owned L s.mem o
  tidy : Tidy s.mem o
  set : ∀ k, s.mem.smAddr k ≠ 0
  spaced : ∀ i ∈ S, s.Used i → Spaced s.mem o (s.proc i)
  stack : ∀ i ∈ S, s.Used i → o (s.proc i).kstack = .kstack i
  distinct : ∀ i ∈ S, ∀ j ∈ S, s.Used i → s.Used j → (s.proc i).pgdir = (s.proc j).pgdir → i = j
  clean : ∀ i ∈ S, ¬s.Used i → ∀ k, ¬(s.proc i).Attached k

namespace Settled

theorem mono (settled : Settled L S s o) (subset : T ⊆ S) : Settled L T s o where
  owned := settled.owned
  tidy := settled.tidy
  set := settled.set
  spaced := fun i mem => settled.spaced i (subset mem)
  stack := fun i mem => settled.stack i (subset mem)
  distinct := fun i mem j mem' => settled.distinct i (subset mem) j (subset mem')
  clean := fun i mem => settled.clean i (subset mem)

/-- The memory of these processes has not changed. -/
theorem kept (settled : Settled L S s o) (alike : ∀ i ∈ S, (s.proc i).Alike (s'.proc i))
    (owned : Owned L s'.mem o') (tidy : Tidy s'.mem o') (smAddr : s'.mem.smAddr = s.mem.smAddr)
    (dirs : ∀ i ∈ S, s.Used i →
      o' (s.proc i).pgdir = .dir ∧
      ∀ v < 2 ^ 20, s'.mem.pte (s.proc i).pgdir v = s.mem.pte (s.proc i).pgdir v)
    (stackOwner : ∀ i ∈ S, s.Used i → o' (s.proc i).kstack = o (s.proc i).kstack) :
    Settled L S s' o' := by
  have used : ∀ i ∈ S, s'.Used i ↔ s.Used i := fun i mem => not_congr (alike i mem).state
  constructor
  case owned => exact owned
  case tidy => exact tidy
  case set => rw [smAddr]; exact settled.set
  case spaced =>
    intro i mem here
    have was := (used i mem).mp here
    exact (settled.spaced i mem was).kept (alike i mem) owned settled.tidy smAddr (dirs i mem was).1
      (dirs i mem was).2
  case stack =>
    intro i mem here
    have was := (used i mem).mp here
    rw [(alike i mem).kstack, stackOwner i mem was]
    exact settled.stack i mem was
  case distinct =>
    intro i mem j mem' here here' same
    rw [(alike i mem).pgdir, (alike j mem').pgdir] at same
    exact settled.distinct i mem j mem' ((used i mem).mp here) ((used j mem').mp here') same
  case clean =>
    intro i mem absent k
    rw [Proc.Attached, (alike i mem).pages]
    exact settled.clean i mem (fun here => absent ((used i mem).mpr here)) k

/-- What happens aside leaves all processes settled. -/
theorem aside (settled : Settled L S s o) (alike : ∀ i ∈ S, (s.proc i).Alike (s'.proc i))
    (owned : Owned L s'.mem o') (aside : Aside s.mem s'.mem o o') : Settled L S s' o' := by
  refine settled.kept alike owned (aside.tidy settled.tidy) aside.smAddr (fun i mem used => ?_)
    fun i mem used => ?_
  · have isDir := (settled.spaced i mem used).isDir
    exact ⟨aside.isDir isDir, fun v => aside.pte settled.owned isDir⟩
  · refine aside.stays _ ?_
    rw [settled.stack i mem used]
    exact id

/-- An address space that none of these processes uses is given back. -/
theorem freed (settled : Settled L S s o) (alike : ∀ i ∈ S, (s.proc i).Alike (s'.proc i))
    (freed : Freed L q s.mem s'.mem o o') (isDir : o q = .dir)
    (other : ∀ i ∈ S, s.Used i → (s.proc i).pgdir ≠ q) :
    Settled L S s' o' := by
  refine settled.kept alike freed.owned ⟨fun k => ?_, freed.clean settled.tidy⟩ freed.smAddr
    (fun i mem used => ?_)
    fun i mem used => ?_
  · rw [freed.smAddr]
    refine (settled.tidy.shared k).imp_right fun owner => ?_
    rw [freed.stays, owner]
    · rw [owner]
      exact id
    · rintro same
      rw [same, isDir] at owner
      cases owner
  · have dir := (settled.spaced i mem used).isDir
    refine ⟨?_, fun v => freed.pte _ v (other i mem used) dir⟩
    rw [freed.stays _ (other i mem used), dir]
    rw [dir]
    exact id
  · have stack := settled.stack i mem used
    refine freed.stays ?_ ?_
    · rw [stack]
      exact id
    · rintro same
      rw [same, isDir] at stack
      cases stack

/-- A page that is no stack of these processes is put on the free list. -/
theorem released (settled : Settled L S s o) (alike : ∀ i ∈ S, (s.proc i).Alike (s'.proc i))
    (released : Released L {r} s.mem s'.mem o o')
    (other : ∀ i ∈ S, s.Used i → (s.proc i).kstack ≠ r) :
    Settled L S s' o' := by
  refine settled.kept alike released.owned (released.tidy settled.tidy) released.smAddr
    (fun i mem used => ?_)
    fun i mem used => ?_
  · have dir := (settled.spaced i mem used).isDir
    refine ⟨?_, fun v => released.pte settled.owned dir⟩
    rw [released.stays, dir]
    rw [dir]
    exact id
  · refine released.of_notMem ?_
    rw [Finset.mem_singleton]
    exact other i mem used

/-- Entries of a directory that none of these processes uses are written. -/
theorem edited {V : Set ℕ} (settled : Settled L S s o)
    (alike : ∀ i ∈ S, (s.proc i).Alike (s'.proc i)) (edited : Edited L q V s.mem s'.mem o o')
    (other : ∀ i ∈ S, s.Used i → (s.proc i).pgdir ≠ q) :
    Settled L S s' o' := by
  refine settled.kept alike edited.owned (edited.kept.tidy settled.tidy) edited.kept.smAddr
    (fun i mem used => ?_)
    fun i mem used => ?_
  · have dir := (settled.spaced i mem used).isDir
    exact ⟨edited.kept.dir_iff.mpr dir,
      fun v => edited.kept.pte settled.owned (other i mem used) dir⟩
  · refine edited.kept.same ?_
    rw [settled.stack i mem used]
    exact id

/-- The last slot is in order, and not used. -/
theorem with_unused (settled : Settled L {i}ᶜ s o) (unused : ¬s.Used i)
    (none : ∀ k, ¬(s.proc i).Attached k) :
    Settled L Set.univ s o := by
  have other : ∀ j, s.Used j → j ∈ ({i}ᶜ : Set (Fin NPROC)) := by
    rintro j used rfl
    exact unused used
  refine ⟨settled.owned, settled.tidy, settled.set,
    fun j _ used => settled.spaced j (other j used) used,
    fun j _ used => settled.stack j (other j used) used,
    fun j _ j' _ used used' =>
    settled.distinct j (other j used) j' (other j' used') used used', fun j _ unused' => ?_⟩
  by_cases same : j = i
  · rw [same]
    exact none
  · exact settled.clean j same unused'

/-- The last slot is in order, and used. -/
theorem with_used (settled : Settled L {i}ᶜ s o) (used : s.Used i)
    (spaced : Spaced s.mem o (s.proc i)) (stack : o (s.proc i).kstack = .kstack i)
    (alone : ∀ j, j ≠ i → s.Used j → (s.proc j).pgdir ≠ (s.proc i).pgdir) :
    Settled L Set.univ s o := by
  refine ⟨settled.owned, settled.tidy, settled.set, ?_, ?_, ?_, ?_⟩
  · intro j _ used'
    by_cases same : j = i
    · rwa [same]
    · exact settled.spaced j same used'
  · intro j _ used'
    by_cases same : j = i
    · rwa [same]
    · exact settled.stack j same used'
  · intro j _ j' _ used₁ used₂ eq
    by_cases same : j = i
    · by_contra other
      subst same
      exact alone j' (Ne.symm other) used₂ eq.symm
    · by_cases same' : j' = i
      · subst same'
        exact absurd eq (alone j same used₁)
      · exact settled.distinct j same j' same' used₁ used₂ eq
  · intro j _ unused
    by_cases same : j = i
    · exact absurd used (same ▸ unused)
    · exact settled.clean j same unused

end Settled

/-! ## The counts -/

/-- Process `i` counts for shared page `k`. -/
def Kernel.Holds (s : Kernel) (k : Fin NSHAREPAGE) (i : Fin NPROC) :
    Prop := s.Used i ∧ (s.proc i).Attached k

instance : Decidable (s.Holds k i) := inferInstanceAs (Decidable (_ ∧ _))

/-- The counts are those of the processes that have attached the pages. -/
def Counted (s : Kernel) : Prop := ∀ k, s.smCounts k = (Finset.univ.filter (s.Holds k)).card

theorem Proc.Alike.holds (alike : (s.proc i).Alike (s'.proc i)) : s'.Holds k i ↔ s.Holds k i := by
  rw [Kernel.Holds, Kernel.Holds, Kernel.Used, Kernel.Used, Proc.Attached, Proc.Attached,
    alike.pages]
  exact and_congr_left' (not_congr alike.state)

theorem Counted.alike (counted : Counted s) (alike : ∀ i, (s.proc i).Alike (s'.proc i))
    (counts : s'.smCounts = s.smCounts) : Counted s' := by
  intro k
  rw [counts, counted k, Finset.filter_congr fun i _ => (alike i).holds]

/-- Only process `i` may have attached or given up pages. -/
theorem Counted.other (counted : Counted s)
    (alike : ∀ j ∈ ({i}ᶜ : Set (Fin NPROC)), (s.proc j).Alike (s'.proc j))
    (counts : ∀ k, s'.smCounts k + (if s.Holds k i then 1 else 0) =
      s.smCounts k + if s'.Holds k i then 1 else 0) :
    Counted s' := by
  intro k
  have split : ∀ t : Kernel, (Finset.univ.filter (t.Holds k)).card =
      (if t.Holds k i then 1 else 0) + ∑ j ∈ ({i}ᶜ : Finset (Fin NPROC)), if t.Holds k j then 1
        else 0 := by
    intro t
    rw [Finset.card_filter, Fintype.sum_eq_add_sum_compl i]
  have rest : ∑ j ∈ ({i}ᶜ : Finset (Fin NPROC)), (if s'.Holds k j then 1 else 0) =
      ∑ j ∈ ({i}ᶜ : Finset (Fin NPROC)), if s.Holds k j then 1 else 0 := by
    refine Finset.sum_congr rfl fun j mem => ?_
    rw [if_congr (alike j (by simpa using mem)).holds rfl rfl]
  have before := counted k
  have change := counts k
  rw [split s] at before
  rw [split s', rest]
  push_cast at before ⊢
  omega

/-- Process `i` has been forgotten, but the count is what it was. -/
theorem Counted.not_counted (counted : Counted s) (held : s.Holds k i) (gone : ¬s'.Holds k i)
    (others : ∀ j, j ≠ i → s'.proc j = s.proc j) (counts : s'.smCounts k = s.smCounts k) :
    ¬Counted s' := by
  intro counted'
  have fewer : (Finset.univ.filter (s'.Holds k)).card < (Finset.univ.filter (s.Holds k)).card := by
    apply Finset.card_lt_card
    rw [Finset.ssubset_iff_of_subset]
    · refine ⟨i, ?_, ?_⟩
      · simpa using held
      · simpa using gone
    · intro j mem
      simp only [Finset.mem_filter, Finset.mem_univ, true_and] at mem ⊢
      have other : j ≠ i := by
        rintro rfl
        exact gone mem
      rwa [Kernel.Holds, Kernel.Used, others j other] at mem
  have before := counted k
  have after := counted' k
  omega

end Xv6.Vm
