import Xv6.Vm.Arguments
import Xv6.Vm.Growproc
import Xv6.Vm.Mapped

/-!
# The counts of the shared pages

`sm_counts` is to say for each shared page how many processes have attached it. `fork`,
`shmem_access` and `wait` keep it so. `exec` forgets the pages of the old image without
counting them down, so the counts are exact until a process that has attached a page
replaces its image.
-/

namespace Xv6.Vm

open Prog

variable {L : Link} {m m' : Mem} {o o' : ℕ → Owner} {i : Fin NPROC} {k : Fin NSHAREPAGE}
  {s s' : Kernel} {call : Call} {faults : List Bool} {q : ℕ}

/-- An `exec` that forgets shared pages. -/
def Call.Forgets (L : Link) (s : Kernel) : Call → Prop
  | .exec i img argv => alive (s.proc i).state = true ∧ Vm.Forgets L s i img argv
  | _ => False

/-- What a step does to counts that are exact. -/
structure Tallied (L : Link) (call : Call) (s s' : Kernel) : Prop where
  settled : ∃ o, Settled L Set.univ s' o
  counted : Counted s → (Counted s' ↔ ¬call.Forgets L s)

theorem InOrder.tallied (inOrder : InOrder L s s') (keeps : ¬call.Forgets L s) :
    Tallied L call s s' :=
  ⟨inOrder.settled, fun counted => iff_of_true (inOrder.counted counted) keeps⟩

theorem Settled.tallied (settled : Settled L Set.univ s o) (keeps : ¬call.Forgets L s) :
    Tallied L call s s :=
  ⟨⟨o, settled⟩, fun counted => iff_of_true counted keeps⟩

/-- A call counts the processes of every shared page. -/
theorem Settled.run_tallied (settled : Settled L Set.univ s o) (shares : call.Shares) :
    Meets (call.run L s) s (fun _ => True) fun _ s' => s'.mem.failed = false →
      Tallied L call s s' := by
  cases call with
  | fork i =>
      refine meets_ite (fun running => meets_discard ?_) fun _ => meets_pure fun _ =>
        settled.tallied id
      refine (settled.meets_fork (used_of_alive running) (fun _ _ _ => ⟨trivial, trivial⟩)
        fun _ _ _ => trivial).mono (fun _ => id) fun _ s' forked calm =>
        (forked.fine fun stuck => ?_).tallied id
      have failed := (forked.stale stuck).2
      rw [calm] at failed
      cases failed
  | exec i img argv =>
      refine meets_ite (fun running => meets_discard ?_) fun idle => ?_
      · refine (settled.meets_exec (used_of_alive running)).mono (fun _ => id) fun _ s' done _ =>
          ⟨done.1, fun counted => ?_⟩
        exact (done.2 counted).trans (not_congr (and_iff_right running).symm)
      · exact meets_pure fun _ => settled.tallied fun forgets => idle forgets.1
  | shmemAccess i pageNumber =>
      refine meets_ite (fun running => meets_discard ?_) fun _ => meets_pure fun _ =>
        settled.tallied id
      exact (settled.meets_shmemAccess (used_of_alive running) (fun _ _ _ => trivial) fun _ =>
        trivial).mono
        (fun _ => id) fun _ s' accessed _ => accessed.inOrder.tallied id
  | exit i =>
      refine meets_ite (fun running => ?_) fun _ => meets_pure fun _ => settled.tallied id
      exact (settled.meets_exit (used_of_alive running)).mono (fun _ => id) fun _ s' done _ =>
        done.tallied id
  | wait i =>
      refine meets_ite (fun _ => meets_discard ?_) fun _ => meets_pure fun _ => settled.tallied id
      exact settled.meets_wait.mono (fun _ => id) fun _ s' done _ => done.tallied id
  | dispatch i state =>
      refine meets_ite (fun both => ?_) fun _ => meets_pure fun _ => settled.tallied id
      refine (settled.meets_dispatch (used_of_alive both.1) ?_).mono (fun _ => id)
        fun _ s' done _ => done.tallied id
      rintro rfl
      exact absurd both.2 (by decide)
  | growproc | objectAlloc | objectFree => exact shares.elim

/-! ## Runs -/

/-- State `s`, before a step in which no call of `kalloc` is to fail. -/
def Kernel.untroubled (s : Kernel) :
    Kernel := { s with mem := { s.mem with faults := [], failed := false } }

/-- One call completes, and no call of `kalloc` has failed. -/
def Calm (L : Link) (s s' : Kernel) (call : Call) : Prop :=
  call.run L s s.untroubled = .ok ((), s') ∧ s'.mem.failed = false

/-- One of the calls that work with shared pages is carried out. -/
def CalmStep (L : Link) (s s' : Kernel) : Prop := ∃ call, call.Shares ∧ Calm L s s' call

/-- It is not an `exec` that forgets shared pages. -/
def CountStep (L : Link) (s s' : Kernel) : Prop :=
  ∃ call, call.Shares ∧ ¬call.Forgets L s.untroubled ∧ Calm L s s' call

theorem Settled.untroubled (settled : Settled L Set.univ s o) : Settled L Set.univ s.untroubled o :=
  settled.flags [] false

theorem Call.run_untroubled (L : Link) (s : Kernel) (call : Call) :
    call.run L s.untroubled = call.run L s := by
  cases call <;> rfl

theorem Calm.tallied (calm : Calm L s s' call) (settled : Settled L Set.univ s o)
    (shares : call.Shares) :
    Tallied L call s.untroubled s' := by
  have run := settled.untroubled.run_tallied shares
  rw [Call.run_untroubled] at run
  exact run.of_ok calm.1 calm.2

/-- The process table is in order, and the counts are those of the processes in it. -/
def Exact (L : Link) (s : Kernel) : Prop := (∃ o, Settled L Set.univ s o) ∧ Counted s

theorem exact_of_boot {n : ℕ} {initcode : List Byte}
    (booted : boot L n initcode Kernel.start = .ok ((), s)) :
    Exact L s := by
  have meets : Meets (boot L n initcode) Kernel.start (fun _ => True) fun _ s => Exact L s :=
    meets_boot (fun _ => trivial) (fun _ => trivial) fun s o first _ =>
      ⟨⟨o, first.settled⟩, first.counted⟩
  exact meets.of_ok booted

theorem CountStep.exact (step : CountStep L s s') (before : Exact L s) : Exact L s' := by
  rcases step with ⟨call, shares, keeps, calm⟩
  rcases before with ⟨⟨o, settled⟩, counted⟩
  have tallied := calm.tallied settled shares
  exact ⟨tallied.settled, (tallied.counted counted).mpr keeps⟩

/-- The counts are exact as long as no process that has attached a shared page replaces its image;
the first `exec` that does leaves them wrong. -/
theorem counts_exact {n : ℕ} {initcode : List Byte} {s₀ : Kernel}
    (booted : boot L n initcode Kernel.start = .ok ((), s₀))
    (run : Relation.ReflTransGen (CountStep L) s₀ s) :
    Counted s ∧ ∀ call s', call.Shares → Calm L s s' call →
      (Counted s' ↔ ¬call.Forgets L s.untroubled) := by
  rcases Runs.invariant_of_run (fun _ _ step => step.exact) run (exact_of_boot booted)
    with ⟨⟨o, settled⟩, counted⟩
  exact ⟨counted, fun call s' shares calm => (calm.tallied settled shares).counted counted⟩

/-! ## A process that attaches a page -/

/-- `shmem_access` returns only where no allocation has failed. -/
theorem shmemAccess_failed (i : Fin NPROC) (pageNumber : ℤ) (s : Kernel) :
    Meets (shmemAccess i pageNumber) s (fun _ => True) fun _ s' =>
      s'.mem.failed = s.mem.failed := by
  rw [shmemAccess]
  split
  case isFalse => exact meets_pure rfl
  case isTrue =>
    refine meets_bind (meets_get (meets_ite (fun _ => meets_pure rfl) fun _ => ?_))
    refine meets_ite (fun _ => meets_pure rfl) fun _ => ?_
    refine meets_bind (meets_onMem
      ((mappages_failed _ _ _ _ _ _).mono (fun _ => id) fun mapped m' same => ?_))
    cases mapped with
    | false => exact meets_throw trivial
    | true => exact meets_bind (meets_modify (meets_bind (meets_modify (meets_pure (same rfl)))))

/-- The first process attaches shared page 0. -/
theorem calm_access :
    ∃ s₀ s₁ i, boot link 0 [] Kernel.start = .ok ((), s₀) ∧ Calm link s₀ s₁ (.shmemAccess i 0) ∧
    alive (s₁.proc i).state = true ∧ (s₁.proc i).Attached 0 ∧ 1000 ≤ s₁.mem.freelist.length := by
  have empty : ([] : List Byte).length < PGSIZE := by decide
  rcases boot_returns fits_link empty with ⟨s₀, o₀, booted, first, ample⟩
  have running : alive (s₀.proc s₀.initproc).state = true := by
    rw [first.state]
    rfl
  generalize s₀.initproc = i at *
  have accessed : Meets ((Call.shmemAccess i 0).run link s₀) s₀.untroubled (fun _ => False)
    fun _ s₁ =>
      Accessed link i 0 s₀.untroubled s₁ ∧ s₁.mem.failed = false := by
    refine meets_ite (fun _ =>
      meets_discard (Meets.and_then (shmemAccess_failed i 0 s₀.untroubled) ?_))
      fun idle => absurd running idle
    refine (first.settled.untroubled.meets_shmemAccess (used_of_alive running)
      (fun k _ mapped => ?_)
      fun fails => ?_).mono (fun _ => id) fun _ s₁ accessed same => ⟨accessed, same⟩
    · exact mapped (first.empty k)
    · exact Ample.not_failsAt (m := s₀.untroubled.mem) (n := 50000) ⟨ample.room, rfl⟩
        (by decide) fails
  rcases accessed.returns fun _ => id with ⟨_, s₁, stepped, accessed, calm⟩
  refine ⟨s₀, s₁, i, booted, ⟨stepped, calm⟩, ?_, accessed.attached 0 rfl, ?_⟩
  · rw [accessed.only.self]
    exact running
  · have room := ample.room
    have list : s₀.mem.freelist.length ≤ s₁.mem.freelist.length + 1 := accessed.list
    omega

/-- The first process attaches a shared page. -/
theorem counts_exact_sharing :
    ∃ s₀ s₁ i, boot link 0 [] Kernel.start = .ok ((), s₀) ∧ CountStep link s₀ s₁ ∧
    (s₁.proc i).sharedPage 0 ≠ 0 ∧ Counted s₁ := by
  rcases calm_access with ⟨s₀, s₁, i, booted, calm, _, attached, _⟩
  have step : CountStep link s₀ s₁ := ⟨.shmemAccess i 0, trivial, id, calm⟩
  exact ⟨s₀, s₁, i, booted, step, attached, (counts_exact booted (.single step)).1⟩

/-! ## An `exec` that forgets -/

/-- The kernel is mapped only where no allocation has failed. -/
theorem mapKernel_failed (q : ℕ) (ks : List Kmap) (m : Mem) :
    Meets (mapKernel q ks) m (fun _ => True) fun done m' => done = true → m'.failed = m.failed := by
  induction ks generalizing m with
  | nil => exact meets_pure fun _ => rfl
  | cons k ks ih =>
      refine (mappages_failed q _ _ _ _ m).bind fun mapped m₁ same => ?_
      cases mapped with
      | false => exact meets_pure (by rintro ⟨⟩)
      | true => exact (ih m₁).mono (fun _ => id) fun _ _ same' done => (same' done).trans (same rfl)

theorem setupkvm_failed (m : Mem) :
    Meets (setupkvm L) m (fun _ => True) fun r m' => r ≠ none → m'.failed = m.failed := by
  unfold setupkvm
  refine (kalloc_failed m).bind fun r m₁ same => ?_
  cases r with
  | none => exact meets_pure fun some => absurd rfl some
  | some q =>
      refine meets_bind (meets_modify
        (meets_ite (fun _ => meets_bind (meets_throw trivial)) fun _ => ?_))
      refine (mapKernel_failed q _ _).bind fun mapped m₂ same' => ?_
      cases mapped with
      | false => exact (meets_any _ m₂).bind fun _ _ _ => meets_pure fun some => absurd rfl some
      | true => exact meets_pure fun _ => (same' rfl).trans (same (by rintro ⟨⟩))

theorem makeStack_failed (q loaded : ℕ) (m : Mem) :
    Meets (makeStack L q loaded) m (fun _ => True) fun r m' => r ≠ none → m'.failed = m.failed := by
  rw [makeStack]
  generalize PGROUNDUP loaded = base
  generalize base + 2 * PGSIZE = top
  refine (allocuvm_noted q base top m).bind fun sz m₁ same => ?_
  refine meets_ite (fun _ => meets_pure fun some => absurd rfl some) fun nonzero => ?_
  refine Meets.bind ((walkpgdir_failed q _ false m₁).bind fun place m₂ same' => ?_)
    fun _ m₃ same₃ =>
    meets_pure fun _ => same₃
  rcases place with _ | ⟨t, j⟩
  · exact meets_throw trivial
  · exact meets_modify ((same' (by rintro ⟨⟩)).trans (same nonzero))

theorem uva2ka_failed (q va : ℕ) : Fixes Mem.failed (uva2ka q va) := by
  refine fun m => (walkpgdir_failed q va false m).bind fun place m₁ same => ?_
  rcases place with _ | ⟨t, j⟩
  · exact meets_throw trivial
  · have same := same (by rintro ⟨⟩)
    exact meets_bind (meets_get (meets_ite (fun _ => meets_pure same) fun _ => meets_pure same))

/-- `copyout` allocates nothing. -/
theorem copyout_failed (q va : ℕ) (bytes : List Byte) : Fixes Mem.failed (copyout q va bytes) := by
  induction left : bytes.length using Nat.strong_induction_on generalizing va bytes with
  | _ left' ih =>
      rw [copyout]
      split
      case isTrue => exact fixes_pure
      case isFalse more =>
        refine (uva2ka_failed q _).bind fun page => ?_
        cases page with
        | none => exact fixes_pure
        | some p =>
            refine Fixes.bind (fixes_modify fun m => rfl) fun _ => ih _ ?_ _ _ rfl
            have := Nat.div_add_mod va PGSIZE
            have := Nat.mod_lt va (show 0 < PGSIZE by decide)
            simp only [List.length_drop, PGROUNDDOWN, PGSIZE] at *
            omega

theorem copyArgs_failed (q sz : ℕ) (argv : List (List Byte)) :
    Fixes Mem.failed (copyArgs q sz argv) := by
  have push : ∀ (argv : List (List Byte)) sp ustack,
      Fixes Mem.failed (pushArgs q argv sp ustack) := by
    intro argv
    induction argv with
    | nil => exact fun _ _ => fixes_pure
    | cons arg argv ih =>
        refine fun sp ustack => fixes_ite fixes_pure ((copyout_failed q _ _).bind fun copied => ?_)
        exact fixes_ite (ih _ _) fixes_pure
  refine (push argv sz []).bind fun r => ?_
  rcases r with _ | ⟨sp, args⟩
  · exact fixes_pure
  · exact (copyout_failed q _ _).bind fun copied => fixes_ite fixes_pure fixes_pure

/-- With enough memory a program without segments is loaded. -/
theorem execImage_empty (owned : Owned L m o) (ample : Ample (1 + kernelTables.card + 3) m) :
    ∃ q sz sp m' o',
    execImage L (Image.ofBytes emptyProgram) [[0x61]] m = .ok (some (q, sz, sp), m') ∧
      Filled L q sz m m' o o' ∧
      m'.failed = m.failed := by
  have length : ((Image.ofBytes emptyProgram).readi 0 ElfHdr.size).length = ElfHdr.size := by
    decide +kernel
  have run : Meets (execImage L (Image.ofBytes emptyProgram) [[0x61]]) m (fun _ => False)
    fun r m' =>
      r.isSome = true ∧ m'.failed = m.failed := by
    rw [execImage, decode_emptyProgram, length, if_neg fun other => other rfl, if_neg fun other =>
      other rfl]
    refine meets_bind (Meets.and_then (setupkvm_failed m)
      (meets_setupkvm owned ?_ fun q m₁ o₁ kvm lent same => ?_))
    · rintro m' o' _ _ _ _ ⟨k, less, fails⟩
      exact absurd fails (ample.not_failsAt (by omega))
    have fresh := Fresh.of_kvm kvm owned lent
    rcases fresh.makeStack_ok (ample.allocs kvm.allocs) with ⟨sz, m₂, o₂, made, fresh₂, guarded⟩
    rcases (fresh₂.stackPage guarded).runs (Nat.sub_add_cancel guarded.page_le)
      with ⟨esp, m₃, copied⟩
    refine meets_bind ?_
    rw [fillSpace]
    refine meets_bind (meets_pure (meets_bind (meets_ok made (meets_bind (meets_ok copied ?_)))))
    refine meets_pure (meets_pure ⟨rfl, ?_⟩)
    have made := (makeStack_failed q PGSIZE m₁).of_ok made
    have copied := (copyArgs_failed q sz [[0x61]] m₂).of_ok copied
    exact copied.trans ((made (by rintro ⟨⟩)).trans (same (by rintro ⟨⟩)))
  have built : Meets (execImage L (Image.ofBytes emptyProgram) [[0x61]]) m (fun _ => True)
    fun r m' =>
      ∀ q sz sp, r = some (q, sz, sp) → ∃ o', Filled L q sz m m' o o' := by
    refine meets_execImage owned (fun _ _ _ _ _ _ _ none => by cases none) ?_
    intro q sz sp m' o' filled _ _ _ eq
    cases eq
    exact ⟨o', filled⟩
  rcases run.returns fun _ => id with ⟨r, m', returned, made, same⟩
  rcases Option.isSome_iff_exists.mp made with ⟨⟨q, sz, sp⟩, rfl⟩
  rcases built.of_ok returned q sz sp rfl with ⟨o', filled⟩
  exact ⟨q, sz, sp, m', o', returned, filled, same⟩

/-- It is run, and what it replaces is forgotten. -/
theorem Settled.exec_forgets (settled : Settled L Set.univ s o)
    (ample : Ample (1 + kernelTables.card + 3) s.untroubled.mem)
    (running : alive (s.proc i).state = true) (here : (s.proc i).Attached k) :
    ∃ (call : Call) (s' : Kernel), call.Shares ∧ call.Forgets L s.untroubled ∧
      Calm L s s' call := by
  rcases execImage_empty settled.untroubled.owned ample with ⟨q, sz, sp, m', o', made, filled, same⟩
  generalize replaced : Call.exec i (some (Image.ofBytes emptyProgram)) [[0x61]] = call
  have run : Meets (call.run L s) s.untroubled (fun _ => False) fun _ s' =>
      s'.mem.failed = false := by
    subst replaced
    refine meets_ite (fun _ => meets_discard ?_) fun idle => absurd running idle
    refine meets_bind (meets_onMem (meets_ok made ?_))
    refine meets_bind (meets_get (meets_bind (meets_modify (meets_bind (meets_onMem ?_)))))
    have isDir := (settled.untroubled.spaced i trivial (used_of_alive running)).isDir
    exact meets_freevm filled.owned (filled.aside.isDir isDir) fun _ _ freed _ =>
      meets_pure (freed.failed.trans same)
  rcases run.returns fun _ => id with ⟨_, s', returned, calm⟩
  refine ⟨call, s', ?_, ?_, returned, calm⟩
  · rw [← replaced]
    trivial
  · rw [← replaced]
    exact ⟨running, ⟨k, here⟩, _, _, congrArg some made⟩

/-- The first process attaches a page and then runs another program. -/
theorem counts_not_exact : ¬∀ (L : Link) (n : ℕ) (initcode : List Byte) (s₀ s : Kernel),
    boot L n initcode Kernel.start = .ok ((), s₀) → Relation.ReflTransGen (CalmStep L) s₀ s →
      Counted s := by
  intro always
  rcases calm_access with ⟨s₀, s₁, i, booted, calm, running, attached, room⟩
  have run : Relation.ReflTransGen (CalmStep link) s₀ s₁ :=
    .single ⟨.shmemAccess i 0, trivial, calm⟩
  rcases exact_of_boot booted with ⟨⟨o, settled⟩, counted⟩
  have tallied := calm.tallied settled trivial
  rcases tallied.settled with ⟨o₁, settled₁⟩
  have ample : Ample (1 + kernelTables.card + 3) s₁.untroubled.mem := by
    rw [card_kernelTables]
    exact ⟨(by decide : 1 + 64 + 3 ≤ 1000).trans room, rfl⟩
  rcases settled₁.exec_forgets ample running attached with ⟨call, s₂, shares, forgets, calm₂⟩
  have counted₁ : Counted s₁ := always link 0 [] s₀ s₁ booted run
  have counted₂ : Counted s₂ := always link 0 [] s₀ s₂ booted (run.tail ⟨call, shares, calm₂⟩)
  exact ((calm₂.tallied settled₁ shares).counted counted₁).mp counted₂ forgets

end Xv6.Vm
