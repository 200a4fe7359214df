import Xv6.Exec.Machine
import Xv6.Names.Locks
import Xv6.Vm.Arguments
import Xv6.Vm.Mapped

/-!
# A failed exec changes nothing

Each `goto bad` leaves behind what the call has made and taken so far: an address space or
none, and the locked inode within its transaction or none. The code at the label gives back
either of them, whatever the other is.
-/

namespace Xv6.Exec

open Prog
open Vm (Image ElfHdr Link Mem Owner Owned Fresh Settled Restituted quiesced USERTOP)
open Names (Text Balanced Holding slash)

variable {L : Link} {files : ℕ → Image} {s s₀ s' : System} {o o₀ : ℕ → Owner} {p : Fin NPROC}
  {i : Fin NINODE} {q : ℕ} {path : Text} {argv : List (List Byte)}

/-- What a call of `exec` in process `p` has not changed. -/
structure Unchanged (p : Fin NPROC) (s s' : System) : Prop where
  proc : s'.kernel.proc = s.kernel.proc
  smCounts : s'.kernel.smCounts = s.kernel.smCounts
  mappings : ∀ v < 2 ^ 20, s'.kernel.mem.pte (s.kernel.proc p).pgdir v =
    s.kernel.mem.pte (s.kernel.proc p).pgdir v
  contents : ∀ v < USERTOP, s.kernel.mem.pte (s.kernel.proc p).pgdir v ≠ 0 →
    s'.kernel.mem.page (Vm.pteAddr (s.kernel.mem.pte (s.kernel.proc p).pgdir v)) =
      s.kernel.mem.page (Vm.pteAddr (s.kernel.mem.pte (s.kernel.proc p).pgdir v))
  free : ∀ r, r ∈ s'.kernel.mem.freelist ↔ r ∈ s.kernel.mem.freelist
  outstanding : s'.log.outstanding = s.log.outstanding
  tf : s'.tf = s.tf
  name : s'.name = s.name
  balanced : Balanced s.names s'.names

/-! ## What there is to give back -/

/-- The address space that `bad` is to free. -/
def Made (L : Link) (m₀ : Mem) (o₀ : ℕ → Owner) (m : Mem) : Option ℕ → Prop
  | none => Restituted L m₀ m o₀
  | some q => ∃ sz o, Fresh L q sz m₀ m o₀ o

/-- The inode that `bad` is to put, in the transaction that it is to end. -/
def Kept (p : Fin NPROC) (s₀ s : System) : Option (Fin NINODE) → Prop
  | none => Balanced s₀.names s.names ∧ s.log.outstanding = s₀.log.outstanding
  | some ip => Holding p ip s₀.names s.names ∧ s.log.outstanding = s₀.log.outstanding + 1

/-- Only memory, names and the log are not what they were. -/
def Elsewhere (s : System) :
    (Fin NPROC → Vm.Proc) × (Fin NSHAREPAGE → ℤ) × (Fin NPROC → TrapFrame) × (Fin NPROC → Text) :=
  (s.kernel.proc, s.kernel.smCounts, s.tf, s.name)

/-- A call that began in `s₀` has come to `s`, and gives up. -/
structure Pending (L : Link) (p : Fin NPROC) (o₀ : ℕ → Owner) (s₀ s : System) (pgdir : Option ℕ)
    (ip : Option (Fin NINODE)) :
    Prop where
  made : Made L s₀.kernel.mem o₀ s.kernel.mem pgdir
  kept : Kept p s₀ s ip
  elsewhere : Elsewhere s = Elsewhere s₀

section Parts

variable {α : Type} {E : Stop → Prop} {Q : α → System → Prop}

theorem meets_onMem {program : Vm.MemProg α}
    (meets : Meets program s.kernel.mem (fun e => E (.vm e)) fun a m =>
      Q a { s with kernel := { s.kernel with mem := m } }) : Meets (onMem program) s E Q :=
  meets_zoom meets

theorem meets_onNames {program : Names.NameM α}
    (meets : Meets program s.names (fun e => E (.names e)) fun a w => Q a { s with names := w }) :
    Meets (onNames program) s E Q := meets_zoom meets

end Parts

/-- `end_op` after `begin_op`. -/
theorem meets_endOp : Meets endOp s (fun _ => True) fun _ s' =>
    s'.log.outstanding = s.log.outstanding - 1 ∧ s'.kernel = s.kernel ∧ s'.names = s.names ∧
      Elsewhere s' = Elsewhere s := by
  refine meets_bind (meets_modify (meets_bind (meets_get ?_)))
  refine meets_ite (fun _ => meets_bind (meets_throw trivial)) fun _ => ?_
  exact meets_ite (fun _ => meets_modify ⟨rfl, rfl, rfl, rfl⟩) fun _ =>
    meets_pure ⟨rfl, rfl, rfl, rfl⟩

namespace Pending

variable {pgdir : Option ℕ} {ip : Option (Fin NINODE)}

/-- The inode is put and the transaction ends, whatever there is of an address space. -/
theorem meets_put {α : Type} {rest : ExecM α} {Q : α → System → Prop}
    (pending : Pending L p o₀ s₀ s pgdir (some i))
    (next : ∀ s', Pending L p o₀ s₀ s' pgdir none → s'.kernel = s.kernel →
      Meets rest s' (fun _ => True) Q) :
    Meets (do
      onNames (Names.iunlockput i)
      endOp
      rest) s (fun _ => True) Q := by
  refine meets_bind (meets_onNames
    (pending.kept.1.meets_iunlockput.mono (fun _ => id) fun _ w balanced => ?_))
  refine meets_endOp.bind fun _ s' ended => ?_
  rcases ended with ⟨outstanding, kernel, names, elsewhere⟩
  refine next s' ⟨?_, ⟨?_, ?_⟩, elsewhere.trans pending.elsewhere⟩ kernel
  · rw [kernel]
    exact pending.made
  · rw [names]
    exact balanced
  · exact outstanding.trans (by rw [pending.kept.2, Nat.add_sub_cancel])

/-- The address space is freed. -/
theorem meets_freevm (quiescent : Vm.Quiescent o₀) (pending : Pending L p o₀ s₀ s (some q) ip) :
    Meets (onMem (Vm.freevm L q)) s (fun _ => True) fun _ s' => Pending L p o₀ s₀ s' none ip := by
  rcases pending.made with ⟨sz, o, fresh⟩
  refine meets_onMem ((fresh.meets_freevm quiescent).mono (fun _ => id) fun _ m restituted => ?_)
  refine ⟨restituted, ?_, pending.elsewhere⟩
  cases ip with
  | none => exact pending.kept
  | some ip => exact pending.kept

/-- The label `bad` frees what has been built so far. -/
theorem meets_bad (quiescent : Vm.Quiescent o₀) (pending : Pending L p o₀ s₀ s pgdir ip) :
    Meets (bad L pgdir ip) s (fun _ => True) fun _ s' => Pending L p o₀ s₀ s' none none := by
  have put : ∀ s₁, Pending L p o₀ s₀ s₁ none ip →
      Meets (bad L none ip) s₁ (fun _ => True) fun _ s' => Pending L p o₀ s₀ s' none none := by
    intro s₁ pending₁
    cases ip with
    | none => exact meets_pure pending₁
    | some ip => exact pending₁.meets_put fun s' done _ => meets_pure done
  cases pgdir with
  | none => exact put s pending
  | some q => exact (pending.meets_freevm quiescent).bind fun _ s₁ freed => put s₁ freed

end Pending

/-! ## The call -/

/-- Where a call that began in `s₀` may end. -/
def Fails (L : Link) (p : Fin NPROC) (o₀ : ℕ → Owner) (s₀ : System) (returned : Bool)
    (s : System) : Prop :=
  returned = false → Pending L p o₀ s₀ s none none

theorem Pending.fails {pgdir : Option ℕ} {ip : Option (Fin NINODE)}
    (pending : Pending L p o₀ s₀ s pgdir ip) (quiescent : Vm.Quiescent o₀) :
    Meets (bad L pgdir ip) s (fun _ => True) (Fails L p o₀ s₀) :=
  (pending.meets_bad quiescent).mono (fun _ => id) fun _ _ done _ => done

theorem meets_commit {sz entry sp : ℕ} :
    Meets (commit L p path q sz entry sp) s (fun _ => True) (Fails L p o₀ s₀) := by
  refine meets_bind (meets_modify
    (meets_bind (meets_get (meets_bind (meets_modify (meets_bind (meets_onMem ?_)))))))
  exact meets_of_ok fun _ _ _ => meets_pure nofun

attribute [local irreducible] Vm.makeStack

/-- After the inode has been put. -/
theorem meets_finish {loaded entry : ℕ} {o : ℕ → Owner} (quiescent : Vm.Quiescent o₀)
    (fresh : Fresh L q loaded s₀.kernel.mem s.kernel.mem o₀ o) (kept : Kept p s₀ s none)
    (elsewhere : Elsewhere s = Elsewhere s₀) :
    Meets (finish L p path argv q loaded entry) s (fun _ => True) (Fails L p o₀ s₀) := by
  refine meets_bind (meets_onMem (fresh.meets_makeStack.mono (fun _ => id) fun r m₁ made => ?_))
  rcases made with ⟨⟨⟨sz, o₁, fresh₁, size⟩, _⟩, _⟩
  cases r with
  | none => exact Pending.fails ⟨⟨sz, o₁, fresh₁⟩, kept, elsewhere⟩ quiescent
  | some _ =>
      cases size _ rfl
      refine meets_bind (meets_onMem
        (fresh₁.meets_copyArgs.mono (fun _ _ => trivial) fun r m₂ fresh₂ => ?_))
      cases r with
      | none => exact Pending.fails ⟨⟨sz, o₁, fresh₂⟩, kept, elsewhere⟩ quiescent
      | some sp => exact meets_commit

/-- With the inode locked. -/
theorem meets_load (quiescent : Vm.Quiescent o₀) (owned : Owned L s₀.kernel.mem o₀)
    (same : s.kernel = s₀.kernel) (kept : Kept p s₀ s (some i))
    (elsewhere : Elsewhere s = Elsewhere s₀) :
    Meets (load L files p path argv i) s (fun _ => True) (Fails L p o₀ s₀) := by
  have nothing : Restituted L s₀.kernel.mem s.kernel.mem o₀ := by
    rw [same]
    exact ⟨owned, .refl⟩
  have none : Meets (bad L none (some i)) s (fun _ => True) (Fails L p o₀ s₀) :=
    Pending.fails ⟨nothing, kept, elsewhere⟩ quiescent
  refine meets_bind (meets_get ?_)
  refine meets_ite (fun _ => none) fun _ => meets_ite (fun _ => none) fun _ => ?_
  have elsewhere : ∀ m, Elsewhere { s with kernel := { s₀.kernel with mem := m } } =
      Elsewhere s₀ := by
    intro m
    rw [← same]
    exact elsewhere
  refine meets_bind (meets_onMem ?_)
  rw [same]
  refine Vm.meets_setupkvm owned (fun m₁ o₁ owned₁ aside back _ _ => ?_) fun q m₁ o₁ kvm lent => ?_
  · rw [back quiescent] at owned₁ aside
    exact Pending.fails ⟨⟨owned₁, aside⟩, kept, elsewhere m₁⟩ quiescent
  · have fresh := Fresh.of_kvm kvm owned lent
    refine meets_bind (meets_onMem
      (fresh.meets_loadSegments.mono (fun _ _ => trivial) fun r m₂ ends => ?_))
    rcases ends with ⟨loaded, o₂, fresh₂, size⟩
    have pending : Pending L p o₀ s₀ { s with kernel := { s₀.kernel with mem := m₂ } } (some q)
        (some i) :=
      ⟨⟨loaded, o₂, fresh₂⟩, kept, elsewhere m₂⟩
    cases r with
    | none => exact pending.fails quiescent
    | some _ =>
        cases size _ rfl
        refine pending.meets_put fun s' done kernel => ?_
        have fresh₃ : Fresh L q loaded s₀.kernel.mem s'.kernel.mem o₀ o₂ := by
          rw [kernel]
          exact fresh₂
        exact meets_finish quiescent fresh₃ done.kept done.elsewhere

theorem meets_beginOp : Meets beginOp s (fun _ => True) fun _ s' =>
    s' = { s with log := { s.log with outstanding := s.log.outstanding + 1 } } :=
  meets_bind (meets_get (meets_ite (fun _ => meets_bind (meets_throw trivial)) fun _ =>
    meets_modify rfl))

/-- Whatever happens in `exec`, a failure leaves the process as it was. -/
theorem meets_exec (quiescent : Vm.Quiescent o₀) (owned : Owned L s.kernel.mem o₀)
    (tidy : Names.Tidy s.names) :
    Meets (exec L files p path argv) s (fun _ => True) (Fails L p o₀ s) := by
  refine meets_beginOp.bind ?_
  rintro _ _ rfl
  refine meets_bind (meets_onNames
    ((Names.meets_namei tidy path).mono (fun _ _ => trivial) fun r w₁ looked => ?_))
  rcases looked with ⟨after, same⟩
  cases r with
  | none =>
      refine meets_endOp.bind fun _ s' ended => meets_pure fun _ => ?_
      rcases ended with ⟨outstanding, kernel, names, elsewhere⟩
      refine ⟨?_, ⟨?_, outstanding⟩, elsewhere⟩
      · rw [kernel]
        exact ⟨owned, .refl⟩
      · rw [names]
        exact after.balanced same
  | some i =>
      refine meets_bind (meets_onNames
        ((Names.meets_ilock_found after same).mono (fun _ _ => trivial) ?_))
      exact fun _ w₂ holding => meets_load quiescent owned rfl ⟨holding, rfl⟩ rfl

/-- What is known of a call that has given everything back. -/
theorem Pending.unchanged (pending : Pending L p (quiesced o) s s' none none)
    (settled : Settled L {p} s.kernel o) (used : s.kernel.Used p) : Unchanged p s s' := by
  have owned := settled.owned.quiesce
  have aside := pending.made.aside
  have isDir : quiesced o (s.kernel.proc p).pgdir = .dir :=
    (Vm.quiesced_eq_iff (x := .dir) nofun nofun).mpr (settled.spaced p rfl used).isDir
  refine ⟨congrArg Prod.fst pending.elsewhere, congrArg (fun x => x.2.1) pending.elsewhere,
    fun v inside => aside.pte owned isDir inside, fun v below mapped => ?_, fun r =>
    ?_, pending.kept.2,
    congrArg (fun x => x.2.2.1) pending.elsewhere, congrArg (fun x => x.2.2.2) pending.elsewhere,
    pending.kept.1⟩
  · rcases owned.entryOk isDir (Vm.inside_of_user below) with zero | ⟨_, low, _⟩
    · exact absurd zero mapped
    have known : quiesced o (Vm.pteAddr (s.kernel.mem.pte (s.kernel.proc p).pgdir v)) =
      .user (s.kernel.proc p).pgdir v ∨
        ∃ k, quiesced o (Vm.pteAddr (s.kernel.mem.pte (s.kernel.proc p).pgdir v)) = .shared k := by
      refine (low below).imp id ?_
      rintro ⟨k, _, page, here⟩
      rw [page]
      exact ⟨k, (Vm.quiesced_eq_iff (x := .shared k) nofun nofun).mpr
        ((settled.tidy.shared k).resolve_left here)⟩
    rcases known with user | ⟨k, shared⟩
    · exact aside.page _ (by rw [user]; exact id) (by rw [user]; nofun)
    · exact aside.page _ (by rw [shared]; exact id) (by rw [shared]; nofun)
  · rw [pending.made.owned.free r, owned.free r]

/-- When `exec` returns -1, the process has the memory, the registers and the name that it had,
the same pages are free, and the transaction is over; the inodes have the references and locks
that they had. -/
theorem exec_failed (settled : Settled L {p} s.kernel o) (used : s.kernel.Used p)
    (tidy : Names.Tidy s.names) (failed : exec L files p path argv s = .ok (false, s')) :
    Unchanged p s s' :=
  ((meets_exec Vm.quiescent_quiesced settled.owned.quiesce tidy).of_ok failed rfl).unchanged
    settled used

/-- After booting, with an empty directory for a root. -/
def booted (k : Vm.Kernel) : System where
  kernel := k
  names := Names.boot 200 fun _ =>
    { type := Fs.T_DIR, major := 0, minor := 0, nlink := 1, entries := [] }
  log := ⟨0, 0, false⟩
  tf := fun _ => ⟨0, 0⟩
  name := fun _ => []

/-- The root directory of `booted` is found, locked and put. -/
theorem booted_root (k : Vm.Kernel) (p : Fin NPROC) : ∃ w₁ w₂ w₃,
    Names.namei p [slash] (booted k).names = .ok (some 0, w₁) ∧ Names.ilock 0 w₁ = .ok ((), w₂) ∧
      Names.iunlockput 0 w₂ = .ok ((), w₃) := ⟨_, _, _, rfl, rfl, rfl⟩

/-- `exec` gives up with a directory and all its page tables in hand. -/
theorem exec_booted_none {k : Vm.Kernel} {img : Image} (owned : Owned L k.mem o)
    (fails : Vm.FailsAt (1 + Vm.kernelTables.card + 1) k.mem)
    (length : (img.readi 0 ElfHdr.size).length = ElfHdr.size)
    (header : ElfHdr.decode (img.readi 0 ElfHdr.size) = ⟨Vm.ELF_MAGIC, 0, 0, 0⟩) :
    ∃ s', exec L (fun _ => img) p [slash] [[0x61]] (booted k) = .ok (false, s') ∧
      s'.kernel.mem.failed = true := by
  rcases booted_root k p with ⟨w₁, w₂, w₃, looked, locked, put⟩
  have begun : beginOp (booted k) = .ok ((), { booted k with log := ⟨0, 1, false⟩ }) := rfl
  have run : Meets (exec L (fun _ => img) p [slash] [[0x61]]) (booted k) (fun _ => False)
      fun r s' => r = false ∧ s'.kernel.mem.failed = true := by
    rw [exec]
    refine meets_bind_ok begun (meets_bind (meets_onNames (meets_ok looked ?_)))
    refine meets_bind (meets_onNames (meets_ok locked (meets_bind (meets_get ?_))))
    refine meets_ite (fun short => absurd length short) fun _ => ?_
    rw [header]
    refine meets_ite (fun other => absurd rfl other) fun _ => ?_
    refine meets_bind (meets_onMem (Vm.meets_setupkvm owned ?_ fun q m₁ o₁ kvm lent => ?_))
    · rintro m' o' _ _ _ _ ⟨n, less, fails'⟩
      have := fails.unique fails'
      omega
    have fresh := Fresh.of_kvm kvm owned lent
    refine meets_bind (meets_onMem (meets_pure (meets_bind (meets_onNames (meets_ok put ?_)))))
    refine meets_bind (meets_bind (meets_modify (meets_bind (meets_get ?_))))
    refine meets_ite (fun committing => by cases committing) fun _ => ?_
    refine meets_ite (fun _ => meets_modify ?_) fun more => absurd rfl more
    refine meets_bind (meets_onMem ((fresh.makeStack_none (kvm.allocs.failsAt_rest fails)).mono
      (fun _ => id) ?_))
    rintro _ m₂ ⟨rfl, failed, o₂, fresh₂⟩
    refine meets_bind (meets_onMem (Vm.meets_freevm fresh₂.owned fresh₂.isDir ?_))
    exact fun m₃ _ freed _ => meets_pure ⟨rfl, freed.failed.trans failed⟩
  rcases run.returns fun _ => id with ⟨_, s', returned, rfl, failed⟩
  exact ⟨s', returned, failed⟩

/-- The second page of the stack cannot be had: the first process stays as it is, and 66 pages go
back to the free list. -/
theorem exec_failed_noStack : ∃ files s p path argv s',
    s.kernel.mem.failed = false ∧ s.kernel.mem.faults = List.replicate 66 false ++ [true] ∧
      exec Vm.link files p path argv s = .ok (false, s') ∧ s'.kernel.mem.failed = true ∧
      Unchanged p s s' := by
  have none : ([] : List Byte).length < Vm.PGSIZE := by decide
  rcases Vm.boot_returns Vm.fits_link none with ⟨k, o, _, first, ample⟩
  have settled := first.settled.flags (List.replicate 66 false ++ [true]) false
  generalize made : ({ k with mem := { k.mem with
    faults := List.replicate 66 false ++ [true], failed := false } } : Vm.Kernel) = k' at settled
  have used : k'.Used k.initproc := by
    rw [← made, Vm.Kernel.Used, first.state]
    rintro ⟨⟩
  have fails : Vm.FailsAt (1 + Vm.kernelTables.card + 1) k'.mem := by
    rw [Vm.card_kernelTables, ← made]
    exact Vm.failsAt_of_faults ((by decide : 66 ≤ 50000).trans ample.room) rfl
  have length : ((Image.ofBytes Vm.emptyProgram).readi 0 ElfHdr.size).length = ElfHdr.size := by
    decide +kernel
  rcases exec_booted_none (p := k.initproc) settled.owned fails length Vm.decode_emptyProgram
    with ⟨s', returned, failed⟩
  have unchanged := exec_failed (s := booted k') (settled.mono (Set.subset_univ _)) used
    (fun _ _ => rfl) returned
  exact ⟨_, booted k', _, _, _, s', by rw [← made]; rfl, by rw [← made]; rfl, returned, failed,
    unchanged⟩

end Xv6.Exec
