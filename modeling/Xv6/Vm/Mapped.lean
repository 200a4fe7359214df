import Xv6.Lib.Runs
import Xv6.Vm.Boot

/-!
# Attached shared pages are mapped

What a user sees of the shared pages, after any calls that a `fork` does not get stuck in:
a process has attached a page exactly when its page table maps it.
-/

namespace Xv6.Vm

open Prog

variable {L : Link} {m m' : Mem} {o o' : ℕ → Owner} {i j : Fin NPROC} {k : Fin NSHAREPAGE}
  {s s' : Kernel} {call : Call} {faults : List Bool}

/-- The page table of process `i` maps the place of shared page `k` to it, for the user to write. -/
def Kernel.MapsShared (s : Kernel) (i : Fin NPROC) (k : Fin NSHAREPAGE) : Prop :=
  let e := s.mem.pte (s.proc i).pgdir ((KERNBASE - (k + 1) * PGSIZE) / PGSIZE)
  pteAddr e = s.mem.smAddr k ∧ present e = true ∧ e.testBit 1 = true ∧ userBit e = true

structure AttachedMapped (s : Kernel) : Prop where
  mapped : ∀ i, s.Used i → ∀ k, (s.proc i).sharedPage k ≠ 0 ↔ s.MapsShared i k
  place : ∀ i, s.Used i → ∀ k, (s.proc i).sharedPage k ≠ 0 →
    (s.proc i).sharedPage k = KERNBASE - (k + 1) * PGSIZE
  unused : ∀ i, ¬s.Used i → ∀ k, (s.proc i).sharedPage k = 0

/-- The shared page is mapped exactly if the process is attached to it. -/
theorem Spaced.mapsShared_iff (spaced : Spaced s.mem o (s.proc i)) (tidy : Tidy s.mem o)
    (set : s.mem.smAddr k ≠ 0) :
    s.MapsShared i k ↔ (s.proc i).Attached k := by
  have place : (KERNBASE - (k + 1) * PGSIZE) / PGSIZE = slot k := by
    rw [slot_mul, Nat.mul_div_cancel _ (by decide)]
  rw [Kernel.MapsShared, place]
  constructor
  · rintro ⟨page, here, _⟩
    by_contra absent
    rcases spaced.apart k absent with zero | user
    · rw [zero] at here
      cases here
    · rw [page, (tidy.shared k).resolve_left set] at user
      cases user
  · intro here
    exact (spaced.attached k here).2

theorem Settled.attachedMapped (settled : Settled L Set.univ s o) : AttachedMapped s where
  mapped := fun i used k => ((settled.spaced i trivial used).mapsShared_iff settled.tidy
    (settled.set k)).symm
  place := by
    intro i used k here
    rw [slot_mul]
    exact ((settled.spaced i trivial used).attached k here).1
  unused := fun i unused k => not_not.mp (settled.clean i trivial unused k)

theorem Stale.not_attachedMapped (stale : Stale s) : ¬AttachedMapped s := by
  rintro ⟨_, _, unused⟩
  rcases stale with ⟨j, k, notUsed, here⟩
  exact here (unused j notUsed k)

/-! ## Steps -/

/-- The system calls that work with shared pages, and the scheduler. -/
def Call.Shares : Call → Prop
  | .growproc _ _ | .objectAlloc | .objectFree _ => False
  | _ => True

/-- State `s`, with `kalloc` failing as `faults` says. -/
def Kernel.withFaults (s : Kernel) (faults : List Bool) :
    Kernel := { s with mem := { s.mem with faults := faults } }

/-- A `fork` in state `s` does not get stuck. -/
def Call.Safe (s : Kernel) : Call → Prop
  | .fork i => alive (s.proc i).state = true → ¬Stuck s i
  | _ => True

theorem used_of_alive (running : alive (s.proc i).state = true) : s.Used i := by
  intro unused
  rw [unused] at running
  exact absurd running (by decide)

/-- It says nothing about whether `kalloc` fails, or has failed. -/
theorem Settled.flags (settled : Settled L Set.univ s o) (faults : List Bool) (failed : Bool) :
    Settled L Set.univ { s with mem := { s.mem with faults := faults, failed := failed } } o :=
  settled.kept (fun _ _ => .refl _) (settled.owned.of_kept (fun _ _ => rfl) rfl rfl)
    ⟨settled.tidy.shared, settled.tidy.clean⟩ rfl
    (fun i mem used => ⟨(settled.spaced i mem used).isDir, fun _ _ => rfl⟩) fun _ _ _ => rfl

theorem Settled.withFaults (settled : Settled L Set.univ s o) (faults : List Bool) :
    Settled L Set.univ (s.withFaults faults) o := settled.flags faults s.mem.failed

/-- What a step does to a process table in order. -/
structure Outcome (L : Link) (call : Call) (s s' : Kernel) : Prop where
  settled : call.Safe s → ∃ o, Settled L Set.univ s' o
  stale : ¬call.Safe s → Stale s'

theorem InOrder.outcome (inOrder : InOrder L s s') (safe : call.Safe s) : Outcome L call s s' :=
  ⟨fun _ => inOrder.settled, fun stuck => absurd safe stuck⟩

theorem Settled.outcome (settled : Settled L Set.univ s o) (safe : call.Safe s) :
    Outcome L call s s :=
  ⟨fun _ => ⟨o, settled⟩, fun stuck => absurd safe stuck⟩

/-- Every call has one of its outcomes. -/
theorem Settled.meets_run (settled : Settled L Set.univ s o) (shares : call.Shares) :
    Meets (call.run L s) s (fun _ => True) fun _ s' => Outcome L call s s' := by
  cases call with
  | fork i =>
      refine meets_ite (fun running => meets_discard ?_) fun idle =>
        meets_pure (settled.outcome fun running => absurd running idle)
      refine (settled.meets_fork (used_of_alive running) (fun _ _ _ => ⟨trivial, trivial⟩)
        fun _ _ _ => trivial).mono (fun _ => id) fun _ s' forked => ?_
      refine ⟨fun safe => (forked.fine (safe running)).settled, fun stuck => (forked.stale ?_).1⟩
      by_contra fine
      exact stuck fun _ => fine
  | exec i img argv =>
      refine meets_ite (fun running => meets_discard ?_) fun _ =>
        meets_pure (settled.outcome trivial)
      exact (settled.meets_exec (used_of_alive running)).mono (fun _ => id)
        fun _ s' done => ⟨fun _ => done.1, fun stuck => absurd trivial stuck⟩
  | shmemAccess i pageNumber =>
      refine meets_ite (fun running => meets_discard ?_) fun _ =>
        meets_pure (settled.outcome trivial)
      exact (settled.meets_shmemAccess (used_of_alive running) (fun _ _ _ => trivial) fun _ =>
        trivial).mono
        (fun _ => id) fun _ s' accessed => accessed.inOrder.outcome trivial
  | exit i =>
      refine meets_ite (fun running => ?_) fun _ => meets_pure (settled.outcome trivial)
      exact (settled.meets_exit (used_of_alive running)).mono (fun _ => id) fun _ s' done =>
        done.outcome trivial
  | wait i =>
      refine meets_ite (fun _ => meets_discard ?_) fun _ => meets_pure (settled.outcome trivial)
      exact settled.meets_wait.mono (fun _ => id) fun _ s' done => done.outcome trivial
  | dispatch i state =>
      refine meets_ite (fun both => ?_) fun _ => meets_pure (settled.outcome trivial)
      refine (settled.meets_dispatch (used_of_alive both.1) ?_).mono (fun _ => id) fun _ s' done =>
        done.outcome trivial
      rintro rfl
      exact absurd both.2 (by decide)
  | growproc | objectAlloc | objectFree => exact shares.elim

theorem Step.outcome (settled : Settled L Set.univ s o) (shares : call.Shares)
    (step : Step L s s' call faults) :
    Outcome L call (s.withFaults faults) s' := by
  have run := (settled.withFaults faults).meets_run shares
  exact run.of_ok step

/-- The table that a step leaves shows the pages as they are attached, unless a `fork` got stuck. -/
theorem Step.attachedMapped_iff (settled : Settled L Set.univ s o) (shares : call.Shares)
    (step : Step L s s' call faults) : AttachedMapped s' ↔ call.Safe (s.withFaults faults) := by
  have outcome := Step.outcome settled shares step
  constructor
  · intro attachedMapped
    by_contra stuck
    exact (outcome.stale stuck).not_attachedMapped attachedMapped
  · intro safe
    rcases outcome.settled safe with ⟨o', settled'⟩
    exact settled'.attachedMapped

/-! ## Runs -/

/-- One of these calls is carried out. -/
def ShareStep (L : Link) (s s' : Kernel) :
    Prop := ∃ call faults, call.Shares ∧ Step L s s' call faults

/-- One of these calls is carried out, and is not a `fork` that gets stuck. -/
def SafeStep (L : Link) (s s' : Kernel) : Prop :=
  ∃ call faults, call.Shares ∧ call.Safe (s.withFaults faults) ∧ Step L s s' call faults

theorem settled_of_boot {n : ℕ} {initcode : List Byte}
    (booted : boot L n initcode Kernel.start = .ok ((), s)) :
    ∃ o, Settled L Set.univ s o := by
  have meets : Meets (boot L n initcode) Kernel.start (fun _ => True) fun _ s =>
      ∃ o, Settled L Set.univ s o :=
    meets_boot (fun _ => trivial) (fun _ => trivial) fun s o first _ => ⟨o, first.settled⟩
  exact meets.of_ok booted

theorem SafeStep.settled (step : SafeStep L s s') (settled : ∃ o, Settled L Set.univ s o) :
    ∃ o, Settled L Set.univ s' o := by
  rcases step with ⟨call, faults, shares, safe, step⟩
  rcases settled with ⟨o, settled⟩
  exact (Step.outcome settled shares step).settled safe

/-- The first process has attached shared page 0. -/
structure Sharing (L : Link) (i : Fin NPROC) (s : Kernel) : Prop where
  settled : ∃ o, Settled L Set.univ s o
  running : alive (s.proc i).state = true
  sz : (s.proc i).sz = PGSIZE
  attached : (s.proc i).Attached 0
  alone : ∃ j, ¬s.Used j
  room : 1000 ≤ s.mem.freelist.length

/-- The first process attaches a page after the boot. -/
theorem sharing_of_boot (fits : Fits L 0) : ∃ s₀ s₁ i, boot L 0 [] Kernel.start = .ok ((), s₀) ∧
    Step L s₀ s₁ (.shmemAccess i 0) [] ∧ Sharing L i s₁ := by
  have empty : ([] : List Byte).length < PGSIZE := by decide
  rcases boot_returns fits empty with ⟨s₀, o, started, first, ample⟩
  have running : alive (s₀.proc s₀.initproc).state = true := by
    rw [first.state]
    rfl
  have accessed : Meets ((Call.shmemAccess s₀.initproc 0).run L s₀) (s₀.withFaults [])
    (fun _ => False)
      fun _ s₁ => Accessed L s₀.initproc 0 (s₀.withFaults []) s₁ := by
    refine meets_ite (fun _ => meets_discard ?_) fun idle => absurd running idle
    refine (first.settled.withFaults []).meets_shmemAccess (used_of_alive running)
      (fun k _ mapped => ?_) fun fails => ?_
    · exact mapped (first.empty k)
    · exact Ample.not_failsAt (m := (s₀.withFaults []).mem) (n := 50000) ⟨ample.room, rfl⟩
        (by decide) fails
  rcases accessed.returns fun _ => id with ⟨_, s₁, stepped, accessed⟩
  refine ⟨s₀, s₁, s₀.initproc, started, stepped, accessed.inOrder.settled, ?_, ?_,
    accessed.attached 0 rfl, ?_, ?_⟩
  · rw [accessed.only.self]
    exact running
  · rw [accessed.only.self]
    exact first.sz
  · rcases exists_ne s₀.initproc with ⟨j, other⟩
    refine ⟨j, ?_⟩
    rw [Kernel.Used, accessed.only.others j other]
    exact first.others j other
  · have room := ample.room
    have list : s₀.mem.freelist.length ≤ s₁.mem.freelist.length + 1 := accessed.list
    omega

theorem fits_link : Fits link 0 := by
  rw [Fits, card_kernelTables]
  decide

/-- As long as no `fork` gets stuck, a process has attached a shared page exactly when its page
table maps it; the first one that does breaks this. -/
theorem attached_mapped {n : ℕ} {initcode : List Byte} {s₀ : Kernel}
    (booted : boot L n initcode Kernel.start = .ok ((), s₀))
    (run : Relation.ReflTransGen (SafeStep L) s₀ s) :
    AttachedMapped s ∧ ∀ call faults s', call.Shares → Step L s s' call faults →
      (AttachedMapped s' ↔ call.Safe (s.withFaults faults)) := by
  rcases Runs.invariant_of_run (fun _ _ step => step.settled) run (settled_of_boot booted)
    with ⟨o, settled⟩
  exact ⟨settled.attachedMapped, fun call faults s' shares step =>
    step.attachedMapped_iff settled shares⟩

/-- The first process attaches a shared page, and has it mapped. -/
theorem attached_mapped_sharing :
    ∃ s₀ s₁ i, boot link 0 [] Kernel.start = .ok ((), s₀) ∧ SafeStep link s₀ s₁ ∧
    (s₁.proc i).sharedPage 0 ≠ 0 ∧ AttachedMapped s₁ := by
  rcases sharing_of_boot fits_link with ⟨s₀, s₁, i, booted, accessed, sharing⟩
  have step : SafeStep link s₀ s₁ := ⟨.shmemAccess i 0, [], trivial, trivial, accessed⟩
  exact ⟨s₀, s₁, i, booted, step, sharing.attached, (attached_mapped booted (.single step)).1⟩

/-! ## A `fork` that gets stuck -/

/-- The faults say which allocation fails. -/
theorem failsAt_of_faults {n : ℕ} (room : n ≤ m.freelist.length)
    (faults : m.faults = List.replicate n false ++ [true]) : FailsAt n m where
  room := room
  fine := by
    intro k below
    rw [faults, List.getD_eq_getElem?_getD,
      List.getElem?_append_left (by rwa [List.length_replicate])]
    simp [below]
  stuck := by
    left
    rw [faults, List.getD_eq_getElem?_getD,
      List.getElem?_append_right (by rw [List.length_replicate])]
    simp

/-- The page table for the shared page cannot be allocated, and the process counts as attached. -/
theorem attached_not_mapped : ¬∀ (L : Link) (n : ℕ) (initcode : List Byte) (s₀ s : Kernel),
    boot L n initcode Kernel.start = .ok ((), s₀) → Relation.ReflTransGen (ShareStep L) s₀ s →
      AttachedMapped s := by
  intro always
  rcases sharing_of_boot fits_link with ⟨s₀, s₁, i, booted, accessed, sharing⟩
  rcases sharing.settled with ⟨o, settled⟩
  have noCopies : userTables PGSIZE = ∅ := by decide
  have calls : 1 + copyCalls PGSIZE = 66 := by
    rw [copyCalls, card_kernelTables, noCopies]
    decide
  generalize failing : List.replicate 66 false ++ [true] = faults
  have stuck : Stuck (s₁.withFaults faults) i := by
    refine ⟨sharing.alone, ⟨0, sharing.attached⟩, ?_, ?_⟩
    · change Detached (s₁.proc i).sz
      rw [sharing.sz, Detached]
      decide
    · change FailsAt (1 + copyCalls (s₁.proc i).sz) _
      rw [sharing.sz, calls]
      exact failsAt_of_faults ((by decide : 66 ≤ 1000).trans sharing.room) failing.symm
  have small : pages (s₁.proc i).sz = 1 := by
    rw [sharing.sz]
    decide
  have forked : Meets ((Call.fork i).run link s₁) (s₁.withFaults faults) (fun _ => False)
      fun _ s₂ => Forked link i (s₁.withFaults faults) s₂ := by
    refine meets_ite (fun _ => meets_discard ?_) fun idle => absurd sharing.running idle
    refine (settled.withFaults faults).meets_fork (used_of_alive sharing.running) (fun v mem => ?_)
      fun k _ within => ?_
    · change v ∈ Set.Ico 1 (pages (s₁.proc i).sz) at mem
      rw [small, Set.mem_Ico] at mem
      omega
    · change slot k < pages (s₁.proc i).sz at within
      have := slot_ne_zero k
      omega
  rcases forked.returns fun _ => id with ⟨_, s₂, stepped, forked⟩
  refine (forked.stale stuck).1.not_attachedMapped (always link 0 [] s₀ s₂ booted ?_)
  exact (Relation.ReflTransGen.single ⟨.shmemAccess i 0, [], trivial, accessed⟩).tail
    ⟨.fork i, faults, trivial, stepped⟩

end Xv6.Vm
