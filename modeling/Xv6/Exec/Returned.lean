import Xv6.Exec.Failed
import Xv6.Vm.Arguments

/-!
# A new image

When `exec` returns 0, the process runs in the address space that the call has built. The old
one has been freed after the arguments were copied, which leaves the new one as it is.
-/

namespace Xv6.Exec

open Prog
open Vm (Image ElfHdr Link Mem Owner Owned Fresh Freed Settled Prepared ArgStack OnlyStack quiesced
    USERTOP PGSIZE)
open Names (Text slash)

variable {L : Link} {files : ℕ → Image} {s s₀ s' : System} {o o' : ℕ → Owner} {p : Fin NPROC}
  {i : Fin NINODE} {d q v sz sp : ℕ} {path : Text} {argv : List (List Byte)}

/-- A call that began in `s₀` has replaced the address space of process `p`. -/
structure Replaced (L : Link) (files : ℕ → Image) (p : Fin NPROC) (argv : List (List Byte))
    (s₀ s : System) : Prop where
  stages : ∃ inum m₁ m₂, Prepared L (files inum) (s.kernel.proc p).pgdir
    (s.kernel.proc p).sz s₀.kernel.mem m₁ ∧
    Vm.copyArgs (s.kernel.proc p).pgdir (s.kernel.proc p).sz argv m₁ = .ok (some (s.tf p).esp, m₂) ∧
    Vm.freevm L (s₀.kernel.proc p).pgdir m₂ = .ok ((), s.kernel.mem)
  sharedPage : ∀ k, (s.kernel.proc p).sharedPage k = 0

/-- Where a call may end that does not fail. -/
def Succeeds (L : Link) (files : ℕ → Image) (p : Fin NPROC) (argv : List (List Byte))
    (s₀ : System) (returned : Bool) (s : System) :
    Prop := returned = true → Replaced L files p argv s₀ s

/-- The way over `bad` is no success. -/
theorem meets_bad {pgdir : Option ℕ} {ip : Option (Fin NINODE)} :
    Meets (bad L pgdir ip) s (fun _ => True) (Succeeds L files p argv s₀) := by
  have put : ∀ s₁, Meets (bad L none ip) s₁ (fun _ => True) (Succeeds L files p argv s₀) := by
    intro s₁
    cases ip with
    | none => exact meets_pure (by rintro ⟨⟩)
    | some ip => exact meets_bind (meets_of_ok fun _ _ _ =>
        meets_bind (meets_of_ok fun _ _ _ => meets_pure (by rintro ⟨⟩)))
  cases pgdir with
  | none => exact put s
  | some q => exact meets_bind (meets_of_ok fun _ s₁ _ => put s₁)

attribute [local irreducible] Vm.makeStack Vm.setupkvm

/-- The last statements put the new image in place. -/
theorem Replaced.meets_commit {inum entry : ℕ} {m₁ : Mem}
    (prepared : Prepared L (files inum) q sz s₀.kernel.mem m₁)
    (copied : Vm.copyArgs q sz argv m₁ = .ok (some sp, s.kernel.mem))
    (same : s.kernel.proc = s₀.kernel.proc) :
    Meets (commit L p path q sz entry sp) s (fun _ => True) (Succeeds L files p argv s₀) := by
  refine meets_bind (meets_modify
    (meets_bind (meets_get (meets_bind (meets_modify (meets_bind (meets_onMem ?_)))))))
  refine meets_of_ok fun _ m₂ freed => meets_pure fun _ => ?_
  have old : ((s.kernel.setProc p { s.kernel.proc p with sharedPage := fun _ => 0 }).proc p).pgdir =
      (s₀.kernel.proc p).pgdir := by rw [Vm.Kernel.setProc_proc_self, same]
  simp only [old] at freed
  constructor
  case stages =>
    refine ⟨inum, m₁, s.kernel.mem, ?_, ?_, freed⟩
    · simpa only [Vm.Kernel.setProc_proc_self] using prepared
    · simpa only [Vm.Kernel.setProc_proc_self, Function.update_self] using copied
  case sharedPage =>
    intro k
    simp only [Vm.Kernel.setProc_proc_self]

/-- After the segments come the stack and its arguments. -/
theorem Replaced.meets_finish {inum loaded entry : ℕ} {m₁ m₂ : Mem} (mem : s.kernel.mem = m₂)
    (made : Vm.setupkvm L s₀.kernel.mem = .ok (some q, m₁))
    (segments : Vm.loadSegments L (files inum) q
      (ElfHdr.decode ((files inum).readi 0 ElfHdr.size)).phnum
      (ElfHdr.decode ((files inum).readi 0 ElfHdr.size)).phoff PGSIZE m₁ = .ok (some loaded, m₂))
    (same : s.kernel.proc = s₀.kernel.proc) :
    Meets (finish L p path argv q loaded entry) s (fun _ => True) (Succeeds L files p argv s₀) := by
  subst mem
  refine meets_bind (meets_onMem (meets_of_ok fun r m₃ stack => ?_))
  cases r with
  | none => exact meets_bad
  | some sz =>
      refine meets_bind (meets_onMem (meets_of_ok fun r m₄ copied => ?_))
      cases r with
      | none => exact meets_bad
      | some sp => exact Replaced.meets_commit ⟨loaded, m₁, s.kernel.mem, made,
        segments, stack⟩ copied same

/-- The file is read and loaded into a new page table. -/
theorem Replaced.meets_load (same : s.kernel = s₀.kernel) :
    Meets (load L files p path argv i) s (fun _ => True) (Succeeds L files p argv s₀) := by
  refine meets_bind (meets_get
    (meets_ite (fun _ => meets_bad) fun _ => meets_ite (fun _ => meets_bad) fun _ => ?_))
  refine meets_bind (meets_onMem (meets_of_ok fun r m₁ made => ?_))
  rw [same] at made
  cases r with
  | none => exact meets_bad
  | some q =>
      refine meets_bind (meets_onMem (meets_of_ok fun r m₂ segments => ?_))
      cases r with
      | none => exact meets_bad
      | some loaded =>
          refine meets_bind (meets_onNames (meets_of_ok fun _ w _ => ?_))
          refine meets_endOp.bind fun _ s' ended => ?_
          have kernel := ended.2.1
          exact Replaced.meets_finish (by rw [kernel]) made segments (by rw [kernel, same])

theorem Replaced.meets_exec :
    Meets (exec L files p path argv) s (fun _ => True) (Succeeds L files p argv s) := by
  refine meets_beginOp.bind ?_
  rintro _ _ rfl
  refine meets_bind (meets_onNames (meets_of_ok fun r w₁ _ => ?_))
  cases r with
  | none => exact meets_bind (meets_of_ok fun _ _ _ => meets_pure nofun)
  | some i => exact meets_bind (meets_onNames (meets_of_ok fun _ w₂ _ => Replaced.meets_load rfl))

/-! ## Freeing the old address space -/

/-- What is mapped by the new directory is not the old one's. -/
theorem spared {m₀ m m' : Mem} {o₀ : ℕ → Owner} (fresh : Fresh L q sz m₀ m o₀ o)
    (isDir : o d = .dir) (other : q ≠ d) (freed : Freed L d m m' o o') (below : v < USERTOP) :
    m'.pte q v = m.pte q v ∧ (m.pte q v ≠ 0 →
      m'.page (Vm.pteAddr (m.pte q v)) = m.page (Vm.pteAddr (m.pte q v))) := by
  refine ⟨freed.pte q v other fresh.isDir (Vm.inside_of_user below), fun mapped => ?_⟩
  have owner := (fresh.own v below).resolve_left mapped
  apply freed.page
  · intro same
    rw [same, isDir] at owner
    cases owner
  · rw [owner]
    exact other
  · rw [owner]
    nofun

/-- When `exec` returns 0, what the process finds on its stack decodes to the arguments. They lie in
the last page below the new size, and copying them has changed no other page. -/
theorem exec_argStack (settled : Settled L {p} s.kernel o) (used : s.kernel.Used p)
    (returned : exec L files p path argv s = .ok (true, s')) :
    ∃ inum m₁, Prepared L (files inum) (s'.kernel.proc p).pgdir
      (s'.kernel.proc p).sz s.kernel.mem m₁ ∧
      ArgStack s'.kernel.mem (s'.kernel.proc p).pgdir (s'.kernel.proc p).sz (s'.tf p).esp argv ∧
      OnlyStack (s'.kernel.proc p).pgdir (s'.kernel.proc p).sz m₁ s'.kernel.mem := by
  rcases (Replaced.meets_exec.of_ok returned rfl).stages
    with ⟨inum, m₁, m₂, prepared, copied, freed⟩
  generalize (s'.kernel.proc p).pgdir = q at prepared copied ⊢
  generalize (s'.kernel.proc p).sz = sz at prepared copied ⊢
  have isDir : quiesced o (s.kernel.proc p).pgdir = .dir :=
    (Vm.quiesced_eq_iff (x := .dir) nofun nofun).mpr (settled.spaced p rfl used).isDir
  rcases prepared.fresh settled.owned with ⟨o₁, fresh, guarded⟩
  have other : q ≠ (s.kernel.proc p).pgdir := by
    rintro rfl
    have free := fresh.free
    rw [isDir] at free
    cases free
  have old : o₁ (s.kernel.proc p).pgdir = .dir := fresh.aside.isDir isDir
  rcases fresh.argStack guarded copied with ⟨argStack, only⟩
  have fresh₂ := fresh.meets_copyArgs.of_ok copied
  have given : Meets (Vm.freevm L (s.kernel.proc p).pgdir) m₂ (fun _ => True) fun _ m' =>
      ∃ o', Freed L (s.kernel.proc p).pgdir m₂ m' o₁ o' :=
    Vm.meets_freevm fresh₂.owned old fun m' o' freed _ => ⟨o', freed⟩
  rcases given.of_ok freed with ⟨o', freed⟩
  have spared := fun v below => spared (v := v) fresh₂ old other freed below
  have top : sz / PGSIZE - 1 < USERTOP := by
    have small := fresh.small
    have large := guarded.large
    simp only [USERTOP, Vm.KERNBASE, PGSIZE] at *
    omega
  rcases spared _ top with ⟨stackPte, stackPage⟩
  have stackPage := stackPage (Vm.ne_zero_of_present argStack.accessible.1)
  refine ⟨inum, m₁, prepared, argStack.congr stackPte fun a low high => ?_, fun v below apart => ?_⟩
  · have aligned := guarded.aligned
    have page : a / PGSIZE = sz / PGSIZE - 1 := by
      simp only [PGSIZE] at *
      omega
    rw [Mem.userByte, Mem.userByte, page, stackPte, stackPage]
  · rcases only v below apart with ⟨pte, page⟩
    rcases spared v below with ⟨pte', page'⟩
    refine ⟨pte'.trans pte, fun mapped => ?_⟩
    rw [← page mapped, ← pte]
    exact page' (pte ▸ mapped)

theorem commit_returns {entry : ℕ} {E : Stop → Prop} (owned : Owned L s.kernel.mem o)
    (isDir : o (s.kernel.proc p).pgdir = .dir) :
    Meets (commit L p path q sz entry sp) s E fun r _ => r = true := by
  refine meets_bind (meets_modify
    (meets_bind (meets_get (meets_bind (meets_modify (meets_bind (meets_onMem ?_)))))))
  have old : ((s.kernel.setProc p { s.kernel.proc p with sharedPage := fun _ => 0 }).proc p).pgdir =
      (s.kernel.proc p).pgdir := by rw [Vm.Kernel.setProc_proc_self]
  simp only [old]
  exact Vm.meets_freevm owned isDir fun _ _ _ _ => meets_pure rfl

/-- With enough memory a program without segments is run. -/
theorem exec_booted {k : Vm.Kernel} {img : Image} (settled : Settled L {p} k o) (used : k.Used p)
    (ample : Vm.Ample (1 + Vm.kernelTables.card + 3) k.mem)
    (length : (img.readi 0 ElfHdr.size).length = ElfHdr.size)
    (header : ElfHdr.decode (img.readi 0 ElfHdr.size) = ⟨Vm.ELF_MAGIC, 0, 0, 0⟩) :
    ∃ s', exec L (fun _ => img) p [slash] [[0x61]] (booted k) = .ok (true, s') := by
  rcases booted_root k p with ⟨w₁, w₂, w₃, looked, locked, put⟩
  have begun : beginOp (booted k) = .ok ((), { booted k with log := ⟨0, 1, false⟩ }) := rfl
  have run : Meets (exec L (fun _ => img) p [slash] [[0x61]]) (booted k) (fun _ => False) fun r _ =>
      r = true := by
    rw [exec]
    refine meets_bind_ok begun (meets_bind (meets_onNames (meets_ok looked ?_)))
    refine meets_bind (meets_onNames (meets_ok locked (meets_bind (meets_get ?_))))
    refine meets_ite (fun short => absurd length short) fun _ => ?_
    rw [header]
    refine meets_ite (fun other => absurd rfl other) fun _ => ?_
    refine meets_bind (meets_onMem (Vm.meets_setupkvm settled.owned ?_ fun q m₁ o₁ kvm lent => ?_))
    · rintro m' o' _ _ _ _ ⟨k, less, fails⟩
      exact absurd fails (ample.not_failsAt (by omega))
    have fresh := Fresh.of_kvm kvm settled.owned lent
    rcases fresh.makeStack_ok (ample.allocs kvm.allocs) with ⟨sz, m₂, o₂, made, fresh₂, guarded⟩
    rcases (fresh₂.stackPage guarded).runs (Nat.sub_add_cancel guarded.page_le)
      with ⟨esp, m₃, copied⟩
    have old : o₂ (k.proc p).pgdir = .dir := fresh₂.aside.isDir (settled.spaced p rfl used).isDir
    refine meets_bind (meets_onMem (meets_pure (meets_bind (meets_onNames (meets_ok put ?_)))))
    refine meets_bind (meets_bind (meets_modify (meets_bind (meets_get ?_))))
    refine meets_ite (fun committing => absurd committing Bool.false_ne_true) fun _ => ?_
    refine meets_ite (fun _ => meets_modify ?_) fun more => absurd rfl more
    refine meets_bind (meets_onMem (meets_ok made (meets_bind (meets_onMem (meets_ok copied ?_)))))
    exact commit_returns (fresh₂.meets_copyArgs.of_ok copied).owned old
  rcases run.returns fun _ => id with ⟨_, s', returned, rfl⟩
  exact ⟨s', returned⟩

/-- A program with one argument, from the boot on. -/
theorem exec_argStack_one :
    ∃ img s p s' m₁, exec Vm.link (fun _ => img) p [slash] [[0x61]] s = .ok (true, s') ∧
    Prepared Vm.link img (s'.kernel.proc p).pgdir (s'.kernel.proc p).sz s.kernel.mem m₁ ∧
    ArgStack s'.kernel.mem (s'.kernel.proc p).pgdir (s'.kernel.proc p).sz (s'.tf p).esp [[0x61]] ∧
    OnlyStack (s'.kernel.proc p).pgdir (s'.kernel.proc p).sz m₁ s'.kernel.mem := by
  have none : ([] : List Byte).length < PGSIZE := by decide
  rcases Vm.boot_returns Vm.fits_link none with ⟨k, o, _, first, ample⟩
  have enough : Vm.Ample (1 + Vm.kernelTables.card + 3) k.mem := by
    rw [Vm.card_kernelTables]
    exact ample.mono (by decide)
  have used : k.Used k.initproc := by
    rw [Vm.Kernel.Used, first.state]
    rintro ⟨⟩
  have settled : Settled Vm.link {k.initproc} k o := first.settled.mono (Set.subset_univ _)
  have length : ((Image.ofBytes Vm.emptyProgram).readi 0 ElfHdr.size).length = ElfHdr.size := by
    decide +kernel
  rcases exec_booted settled used enough length Vm.decode_emptyProgram with ⟨s', returned⟩
  rcases exec_argStack (s := booted k) settled used returned with ⟨_, m₁, argStack⟩
  exact ⟨_, booted k, k.initproc, s', m₁, returned, argStack⟩

end Xv6.Exec
