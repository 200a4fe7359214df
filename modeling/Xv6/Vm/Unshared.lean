import Xv6.Vm.Boot

/-!
# Memory without shared pages

In part2 there are no shared pages. `kalloc.c`, `growproc` and most of `vm.c` are those of
part1, so they are what they were, in memory where `sm_addr` stays zero. Then every user page
that a directory maps belongs to it alone.
-/

namespace Xv6.Vm

open Prog

variable {L : Link} {m m' : Mem} {o o' : ℕ → Owner} {p q v sz : ℕ}

def Mem.Unshared (m : Mem) : Prop := ∀ k, m.smAddr k = 0

/-- The user pages that directory `q` maps are those below `sz`. -/
def UserPages (m : Mem) (q sz : ℕ) :
    Prop := ∀ v < USERTOP, present (m.pte q v) = true ↔ v < pages sz

theorem Owned.present_iff (owned : Owned L m o) (isDir : o q = .dir) (inside : v < 2 ^ 20) :
    present (m.pte q v) = true ↔ m.pte q v ≠ 0 :=
  ⟨ne_zero_of_present, owned.present_of_ne_zero isDir inside⟩

theorem inside_of_below (below : v < USERTOP) : v < 2 ^ 20 := by
  simp only [USERTOP, KERNBASE, PGSIZE] at below
  omega

namespace Mem.Unshared

theorem of_eq (unshared : m.Unshared) (same : m'.smAddr = m.smAddr) : m'.Unshared := by
  intro k
  rw [same]
  exact unshared k

/-- The pages behind user addresses are the directory's own. -/
theorem user (unshared : m.Unshared) (owned : Owned L m o) (isDir : o q = .dir)
    (below : v < USERTOP) (mapped : m.pte q v ≠ 0) : o (pteAddr (m.pte q v)) = .user q v := by
  rcases owned.entryOk isDir (inside_of_below below) with zero | ⟨_, low, _⟩
  · exact absurd zero mapped
  · apply (low below).resolve_right
    rintro ⟨k, _, _, set⟩
    exact set (unshared k)

end Mem.Unshared

namespace UserPages

theorem zero (exactly : UserPages m q sz) (owned : Owned L m o) (isDir : o q = .dir)
    (above : pages sz ≤ v) (below : v < USERTOP) : m.pte q v = 0 := by
  by_contra mapped
  have here := (owned.present_iff isDir (inside_of_below below)).mpr mapped
  have := (exactly v below).mp here
  omega

theorem ne_zero (exactly : UserPages m q sz) (inside : v < pages sz) (below : v < USERTOP) :
    m.pte q v ≠ 0 :=
  ne_zero_of_present ((exactly v below).mpr inside)

end UserPages

/-! ## A small address space -/

/-- An address space of `sz` bytes in memory with room for `n` pages more. -/
structure Roomy (L : Link) (n q sz : ℕ) (m : Mem) (o : ℕ → Owner) : Prop where
  owned : Owned L m o
  isDir : o q = .dir
  unshared : m.Unshared
  quiescent : Quiescent o
  exactly : UserPages m q sz
  ample : Ample n m
  failed : m.failed = false

namespace Roomy

variable {n : ℕ}

/-- Which calls of `kalloc` fail, and whether one has, is no matter of the owners. -/
theorem withFaults (roomy : Roomy L n q sz m o) (faults : List Bool) :
    Owned L { m with faults := faults } o ∧ Mem.Unshared { m with faults := faults } ∧
      UserPages { m with faults := faults } q sz :=
  ⟨roomy.owned.of_kept (fun _ _ => rfl) rfl rfl, roomy.unshared, roomy.exactly⟩

end Roomy

/-- All of memory but for one page of a process. -/
theorem exists_roomy (L : Link) {room : ℕ} (few : room ≤ 50000) :
    ∃ m o q, Roomy L room q PGSIZE m o := by
  have first := first_le L
  have objects : ∀ r ∈ Finset.Ico L.first (L.first + (LASTPAGE - L.first)), startOwner L r =
      .object := by
    intro r mem
    rw [Finset.mem_Ico] at mem
    apply if_pos
    simp only [LASTPAGE, PHYSTOP, PGSIZE] at *
    omega
  have built : Meets (do
      freerange L (LASTPAGE - L.first) L.first
      let made ← setupkvm L
      made.elim (return 0) fun q => do
        let _ ← allocuvm L q 0 PGSIZE
        return q) Kernel.start.mem (fun _ => False) fun q m => ∃ o, Owned L m o ∧ o q = .dir ∧
        m.Unshared ∧
            Quiescent o ∧ UserPages m q PGSIZE ∧ Ample room m := by
    refine meets_bind (meets_freerange (owned_start L) objects fun m₁ o₁ released => ?_)
    have all := Ample.released ⟨Nat.le_refl 0, rfl⟩ released
    rw [Nat.card_Ico, Nat.add_zero, Nat.add_sub_cancel_left] at all
    have ample₁ : Ample (1 + kernelTables.card + (2 + room)) m₁ := by
      refine all.mono ?_
      rw [card_kernelTables]
      simp only [LASTPAGE, PHYSTOP, PGSIZE]
      omega
    have quiescent₁ : Quiescent o₁ := by
      intro r temp
      rw [released.owner] at temp
      split_ifs at temp
      rcases startOwner_cases L r with object | outside
      · rw [object] at temp
        cases temp
      · rw [outside] at temp
        cases temp
    refine meets_bind (meets_setup_kernel released.owned ?_ ?_ fun q m₂ o₂ kvm lent _ => ?_)
    · exact fun m' _ fails => absurd fails (ample₁.not_failsAt (by omega))
    · rintro q m' o' _ _ _ _ _ _ _ ⟨k, less, fails⟩
      exact absurd fails (ample₁.not_failsAt (by omega))
    · have ample₂ := ample₁.allocs kvm.allocs
      have empty : ∀ v ∈ Set.Ico (pages 0) (pages PGSIZE), m₂.pte q v = 0 := by
        intro v mem
        apply kvm.empty
        exact (Set.mem_Ico.mp mem).2.trans_le (pages_le_usertop (by decide))
      have tables : ∀ v ∈ Set.Ico (pages 0) (pages PGSIZE), v / NPTENTRIES ∈ ({0} : Finset ℕ) := by
        intro v mem
        rw [Set.mem_Ico, show pages PGSIZE = 1 by decide] at mem
        rw [Finset.mem_singleton, NPTENTRIES]
        omega
      have one : pages PGSIZE - pages 0 = 1 := by decide
      refine meets_bind (meets_allocuvm kvm.owned kvm.isDir (fun _ => empty) ?_ ?_ ?_ ?_)
      · exact fun large => absurd large (by decide)
      · exact fun less => absurd less (by decide)
      · intro _ _ m' o' restored
        rcases restored.short {0} tables with ⟨k, less, fails⟩
        rw [one, missing_singleton] at less
        refine absurd fails (ample₂.not_failsAt ?_)
        split_ifs at less
        all_goals omega
      · intro _ _ m₃ o₃ grown
        have quiescent₂ := (lent quiescent₁).quiescent kvm.isDir quiescent₁
        refine meets_pure ⟨o₃, grown.edited.owned, grown.edited.isDir, ?_,
          fun r temp => quiescent₂ r (grown.edited.kept.temps r temp), ?_, ?_⟩
        · intro k
          rw [grown.edited.kept.smAddr, kvm.aside.smAddr, released.smAddr]
          rfl
        · intro v below
          by_cases mem : v ∈ Set.Ico (pages 0) (pages PGSIZE)
          · exact iff_of_true (grown.present mem) (Set.mem_Ico.mp mem).2
          · rw [grown.edited.pte v mem (inside_of_below below), kvm.empty below]
            rw [Set.mem_Ico] at mem
            exact iff_of_false (by rintro ⟨⟩) fun less => mem ⟨Nat.zero_le v, less⟩
        · rcases grown.drawn {0} tables with ⟨c, allocs, count⟩
          rw [one, missing_singleton, missing_singleton] at count
          refine (ample₂.mono ?_).allocs allocs
          split_ifs at count
          all_goals omega
  rcases built.returns fun _ =>
    id with ⟨q, m, _, o, owned, isDir, unshared, quiescent, exactly, ample⟩
  refine ⟨{ m with failed := false }, o, q, ?_, isDir, unshared, quiescent, exactly,
    ⟨ample.room, ample.faults⟩, rfl⟩
  exact owned.of_kept (fun _ _ => rfl) rfl rfl

end Xv6.Vm
