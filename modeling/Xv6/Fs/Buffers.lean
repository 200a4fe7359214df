import Xv6.Dir.Directory
import Xv6.Fs.Checksum
import Xv6.Fs.Stat
import Xv6.Lib.Held

/-!
# Buffers are given back

`bread` adds to the `refcnt` of a block's buffer and takes its sleep-lock, and `brelse` undoes both.
Every function of `fs.c` releases the buffers it reads, with one exception: `readi` returns from the
middle of its loop for a file with checksums, and keeps the buffer of the block.
-/

namespace Xv6.Fs

open Prog Held

/-- What a call means to the buffer of its block. -/
def Call.use : Call → Option (Use ℕ)
  | .bread b => some (.take b)
  | .brelse b => some (.give b)
  | .logWrite _ _ => none
  | .bwrite _ _ => none

/-- The buffers taken and released so far. -/
def uses (s : St) : List (Use ℕ) := s.calls.filterMap Call.use

variable {α β : Type} {s : St} {b : ℕ} {held : List ℕ} {post : Locks ℕ → Locks ℕ → Prop}
  {f : Block → FsM α}

/-! ## One block after the other -/

theorem takes_bread (b : ℕ) : Takes uses b (bread b) := by
  refine fun s => meets_ite (fun _ => meets_bind (meets_throw trivial)) fun _ => ?_
  exact meets_bind (meets_modify (meets_bind (meets_get (meets_pure List.filterMap_append))))

theorem gives_brelse (b : ℕ) :
    Gives uses b (brelse b) := fun _ => meets_modify List.filterMap_append

theorem fixes_logWrite (b : ℕ) (data : Block) : Fixes uses (logWrite b data) := fun _ =>
  meets_modify (List.filterMap_append.trans (List.append_nil _))

theorem fixes_bwrite (b : ℕ) (data : Block) : Fixes uses (bwrite b data) := fun _ =>
  meets_modify (List.filterMap_append.trans (List.append_nil _))

theorem restores_get : Restores uses (get : FsM St) := restores_of_fixes fixes_get

theorem restores_logWrite (b : ℕ) (data : Block) : Restores uses (logWrite b data) :=
  restores_of_fixes (fixes_logWrite b data)

theorem restores_bwrite (b : ℕ) (data : Block) : Restores uses (bwrite b data) :=
  restores_of_fixes (fixes_bwrite b data)

/-- A block that is read and then released in every branch. -/
theorem restores_bread (rest : ∀ data s, Ends uses [b] (f data) s fun locks locks' =>
      locks' = locks) :
    Restores uses (bread b >>= f) :=
  restores_of_ends fun _ => (takes_bread b).then rest

/-- The rest of a function that releases its block. -/
theorem ends_brelse {m : Unit → FsM α} (rest : ∀ a, Restores uses (m a)) :
    Ends uses [b] (brelse b >>= m) s fun locks locks' => locks' = locks :=
  (gives_brelse b).then fun a _ => (rest a).ends

theorem restores_readsb : Restores uses readsb := by
  refine restores_bread fun data s => ?_
  exact (restores_of_fixes (fixes_modify fun _ => rfl)).then fun _ _ => (gives_brelse 1).ends

theorem restores_bzero (b : ℕ) : Restores uses (bzero b) :=
  restores_bread fun _ _ => (restores_logWrite b _).then fun _ _ => (gives_brelse b).ends

/-- The scan for a free block gives every buffer back. -/
theorem restores_ballocFrom (b fuel : ℕ) : Restores uses (ballocFrom b fuel) := by
  induction fuel generalizing b with
  | zero => exact restores_throw
  | succ fuel ih =>
      refine restores_get.bind fun s =>
        restores_ite (restores_bread fun data s' => ?_) restores_throw
      split
      · refine (restores_logWrite _ _).then fun _ _ => ends_brelse fun _ => ?_
        exact (restores_bzero _).bind fun _ => restores_pure
      · exact ends_brelse fun _ => ih _

theorem restores_balloc : Restores uses balloc := restores_get.bind fun _ => restores_ballocFrom _ _

theorem restores_bfree (b : ℕ) : Restores uses (bfree b) := by
  refine restores_readsb.bind fun _ => restores_get.bind fun s => restores_bread fun data s' => ?_
  refine meets_ite (fun _ => meets_bind (meets_throw trivial)) fun _ => ?_
  exact (restores_logWrite _ _).then fun _ _ => (gives_brelse _).ends

/-! ## Inodes -/

theorem restores_iupdate (ip : Inode) : Restores uses (iupdate ip) := by
  refine restores_get.bind fun s => restores_bread fun data s' => ?_
  exact (restores_logWrite _ _).then fun _ _ => (gives_brelse _).ends

theorem restores_loadAddr (ip : Inode) (i : ℕ) : Restores uses (loadAddr ip i) :=
  restores_ite (restores_balloc.bind fun _ => restores_pure) restores_pure

theorem restores_loadEntry (indirect e : ℕ) : Restores uses (loadEntry indirect e) := by
  refine restores_bread fun data s => meets_ite (fun _ => ?_) fun _ => ends_brelse fun _ =>
    restores_pure
  exact restores_balloc.then fun b _ => (restores_logWrite _ _).then fun _ _ => ends_brelse fun _ =>
    restores_pure

theorem restores_bmap (ip : Inode) (bn : ℕ) : Restores uses (bmap ip bn) := by
  refine restores_ite ((restores_loadAddr ip bn).bind fun _ => restores_pure)
    (restores_ite ?_ restores_throw)
  exact (restores_loadAddr ip NDIRECT).bind fun _ => (restores_loadEntry _ _).bind fun _ =>
    restores_pure

theorem restores_freeDirect (fuel i : ℕ) (ip : Inode) : Restores uses (freeDirect fuel i ip) := by
  induction fuel generalizing i ip with
  | zero => exact restores_pure
  | succ fuel ih => exact restores_ite ((restores_bfree _).bind fun _ => ih _ _) (ih _ _)

theorem restores_freeIndirect (data : Block) (fuel j : ℕ) :
    Restores uses (freeIndirect data fuel j) := by
  induction fuel generalizing j with
  | zero => exact restores_pure
  | succ fuel ih => exact restores_ite ((restores_bfree _).bind fun _ => ih _) (ih _)

theorem restores_itrunc (ip : Inode) : Restores uses (itrunc ip) := by
  refine (restores_freeDirect _ _ ip).bind fun ip => ?_
  have finish : ∀ ip : Inode, Restores uses (do
      iupdate { ip with size := 0 }
      return { ip with size := 0 } : FsM Inode) :=
      fun ip => (restores_iupdate _).bind fun _ => restores_pure
  refine restores_ite (restores_bread fun data s => ?_) (finish ip)
  refine (restores_freeIndirect _ _ _).then fun _ _ => ends_brelse fun _ => ?_
  exact (restores_bfree _).bind fun _ => finish _

theorem restores_freeInode (ip : Inode) : Restores uses (freeInode ip) :=
  (restores_itrunc ip).bind fun _ => (restores_iupdate _).bind fun _ => restores_pure

theorem restores_iallocFrom (type : Half) (fuel inum : ℕ) :
    Restores uses (iallocFrom type fuel inum) := by
  induction fuel generalizing inum with
  | zero => exact restores_throw
  | succ fuel ih =>
      refine restores_get.bind fun s =>
        restores_ite (restores_bread fun data s' => ?_) restores_throw
      refine meets_ite (fun _ => ?_) fun _ => ends_brelse fun _ => ih _
      exact (restores_logWrite _ _).then fun _ _ => ends_brelse fun _ => restores_pure

theorem restores_iallocDisk (type : Half) : Restores uses (iallocDisk type) :=
  restores_get.bind fun _ => restores_iallocFrom type _ _

/-- `stati` gives every buffer back. -/
theorem restores_stati (dev : Word) (ip : Inode) (st : Stat) : Restores uses (stati dev ip st) := by
  have read : ∀ b : ℕ, ∀ g : Block → StatM Stat, (∀ data, Restores uses (g data)) →
    Restores uses (do
      let data ← onSt (bread b)
      onSt (brelse b)
      g data) := by
    intro b g rest
    have taken : Takes uses b (onSt (bread b)) := fun s =>
      meets_zoom ((takes_bread b s).mono (fun _ _ => trivial) fun _ _ => id)
    have given : Gives uses b (onSt (brelse b)) := fun s =>
      meets_zoom ((gives_brelse b s).mono (fun _ _ => trivial) fun _ _ => id)
    exact restores_of_ends fun s => taken.then fun data _ => given.then fun _ _ => (rest data).ends
  refine restores_ite (restores_ite ?_ restores_pure) restores_pure
  refine Restores.bind ?_ fun indirect => read _ _ fun data => restores_pure
  exact restores_ite restores_pure restores_throw

theorem restores_readTag (ip : Inode) (block : Word) : Restores uses (readTag ip block) := by
  rw [readTag]
  split
  · exact restores_pure
  · exact restores_ite (restores_bread fun _ _ => ends_brelse fun _ => restores_pure) restores_pure

theorem restores_writeTag (ip : Inode) (block : Word) (data : Block) :
    Restores uses (writeTag ip block data) := by
  refine restores_ite ?_ restores_pure
  split
  · exact restores_pure
  · exact restores_bread fun _ _ => (restores_bwrite _ _).then fun _ _ => ends_brelse fun _ =>
      restores_pure

/-! ## Contents -/

theorem loadAddr_type (ip : Inode) (i : ℕ) :
    Meets (loadAddr ip i) s (fun _ => True) fun r _ => r.2.type = ip.type :=
  meets_ite (fun _ => Meets.bind (restores_balloc s) fun _ _ _ => meets_pure rfl) fun _ =>
    meets_pure rfl

theorem bmap_type (ip : Inode) (bn : ℕ) :
    Meets (bmap ip bn) s (fun _ => True) fun r _ => r.2.type = ip.type := by
  refine meets_ite (fun _ => (loadAddr_type ip bn).bind fun r _ same => meets_pure same) fun _ => ?_
  refine meets_ite (fun _ => (loadAddr_type ip NDIRECT).bind fun r s' same => ?_) fun _ =>
    meets_throw trivial
  exact Meets.bind (restores_loadEntry r.1.toNat (bn - NDIRECT) s') fun _ _ _ => meets_pure same

theorem bmap_restores (ip : Inode) (bn : ℕ) : Meets (bmap ip bn) s (fun _ => True) fun r s' =>
    r.2.type = ip.type ∧ Restored uses s s' :=
  ((bmap_type ip bn).and (restores_bmap ip bn s)).mono (fun _ _ => trivial) fun _ _ => id

/-- The loop of `readi` for a file without checksums. -/
theorem readiLoop_restores {n fuel tot off : ℕ} {ip : Inode} {dst : Mem}
    (plain : ip.type ≠ T_CHECKED) :
    Meets (readiLoop n fuel tot off ip dst) s (fun _ => True) fun r s' => Restored uses s s' ∧
      r.ip.type = ip.type := by
  induction fuel generalizing tot off ip dst s with
  | zero => exact meets_pure ⟨Restored.refl s, rfl⟩
  | succ fuel ih =>
      refine meets_ite (fun _ => ?_) fun _ => meets_pure ⟨Restored.refl s, rfl⟩
      refine (bmap_restores ip (off / BSIZE)).bind fun r₁ s₁ ⟨type₁, first⟩ => ?_
      refine (bmap_restores r₁.2 (off / BSIZE)).bind fun r₂ s₂ ⟨type₂, second⟩ => ?_
      have type : r₂.2.type = ip.type := type₂.trans type₁
      refine (takes_bread r₂.1.toNat s₂).bind fun data s₃ taken => ?_
      refine meets_ite (fun checked => absurd checked (type ▸ plain)) fun _ => ?_
      refine (gives_brelse r₂.1.toNat s₃).bind fun _ s₄ given => ?_
      rw [taken] at given
      refine (ih (type ▸ plain)).mono (fun _ => id) fun r s' ⟨rest, same⟩ => ?_
      exact ⟨first.trans (second.trans ((Restored.of_pair given).trans rest)), same.trans type⟩

/-- The loop of `readi` for a file with checksums. -/
theorem readiLoop_leaks {n fuel tot off : ℕ} {ip : Inode} {dst : Mem}
    (checked : ip.type = T_CHECKED) (more : tot < n) :
    Ends uses [] (readiLoop n (fuel + 1) tot off ip dst) s fun locks locks' => locks' ≠ locks := by
  refine meets_ite (fun _ => ?_) fun done => absurd more done
  refine Ends.bind ((bmap_restores ip (off / BSIZE)).mono (fun _ => id) fun r₁ s₁ ⟨type₁, first⟩ =>
    ⟨first, ?_⟩)
  refine Ends.bind ((bmap_restores r₁.2 (off / BSIZE)).mono (fun _ => id) fun r₂ s₂
    ⟨type₂, second⟩ => ⟨second, ?_⟩)
  refine (takes_bread r₂.1.toNat).then fun data s₃ => ?_
  refine meets_ite (fun _ => ?_) fun plain => absurd ((type₂.trans type₁).trans checked) plain
  exact (restores_readTag r₂.2 r₁.1).then fun tag _ => ends_pure fun locks => taken_ne locks _

/-- How much `readi` reads. -/
def clipped (ip : Inode) (off n : Word) : Word := if off + n > ip.size then ip.size - off else n

/-- `readi` reads a block of a file with checksums. -/
def Leaks (ip : Inode) (off n : Word) : Prop :=
  ip.type = T_CHECKED ∧ ¬(off > ip.size ∨ off + n < off) ∧ 0 < (clipped ip off n).toNat

/-- `readi` gives every buffer back, but for its early return. -/
theorem readi_restores {dev : Devsw} {ip : Inode} {dst : Mem} {off n : Word}
    (noLeak : ¬Leaks ip off n) :
    Meets (readi dev ip dst off n) s (fun _ => True) fun r s' => Restored uses s s' ∧
      (ip.type ≠ T_CHECKED → r.ip.type = ip.type) := by
  refine meets_ite (fun _ => ?_) fun _ =>
    meets_ite (fun _ => meets_pure ⟨Restored.refl s, fun _ => rfl⟩) fun inside => ?_
  · split
    · exact meets_pure ⟨Restored.refl s, fun _ => rfl⟩
    · exact meets_pure ⟨Restored.refl s, fun _ => rfl⟩
  · by_cases checked : ip.type = T_CHECKED
    · have none : (clipped ip off n).toNat = 0 :=
        Nat.eq_zero_of_not_pos fun some_ => noLeak ⟨checked, inside, some_⟩
      change Meets (readiLoop (clipped ip off n).toNat (clipped ip off n).toNat 0 off.toNat ip dst)
        s _ _
      rw [none]
      exact meets_pure ⟨Restored.refl s, fun plain => absurd checked plain⟩
    · exact (readiLoop_restores checked).mono (fun _ => id) fun _ _ both =>
        ⟨both.1, fun _ => both.2⟩

/-- The early return keeps a buffer locked. -/
theorem readi_leaks {dev : Devsw} {ip : Inode} {dst : Mem} {off n : Word} (leaks : Leaks ip off n) :
    Ends uses [] (readi dev ip dst off n) s fun locks locks' => locks' ≠ locks := by
  have noDevice : ip.type ≠ T_DEV := by
    rw [leaks.1]
    decide
  refine meets_ite (fun device => absurd device noDevice) fun _ =>
    meets_ite (fun outside => absurd outside leaks.2.1) fun _ => ?_
  obtain ⟨fuel, enough⟩ := Nat.exists_eq_add_of_lt leaks.2.2
  change Ends uses [] (readiLoop (clipped ip off n).toNat (clipped ip off n).toNat 0 off.toNat ip
    dst) s _
  rw [enough, Nat.zero_add]
  exact readiLoop_leaks leaks.1 (Nat.succ_pos fuel)

/-- The loop of `writei` gives every buffer back. -/
theorem restores_writeiLoop (src : Mem) (n fuel tot off : ℕ) (ip : Inode) :
    Restores uses (writeiLoop src n fuel tot off ip) := by
  induction fuel generalizing tot off ip with
  | zero => exact restores_pure
  | succ fuel ih =>
      refine restores_ite ?_ restores_pure
      refine (restores_bmap _ _).bind fun r => (restores_bmap _ _).bind fun r' =>
        restores_bread fun data s => ?_
      refine (restores_writeTag _ _ _).then fun _ _ => (restores_logWrite _ _).then fun _ _ => ?_
      exact (restores_bwrite _ _).then fun _ _ => ends_brelse fun _ => ih _ _ _

theorem restores_writei (dev : Devsw) (ip : Inode) (src : Mem) (off n : Word) :
    Restores uses (writei dev ip src off n) := by
  refine restores_ite ?_ (restores_ite restores_pure (restores_ite restores_pure ?_))
  · split
    · exact restores_pure
    · exact restores_pure
  · refine (restores_writeiLoop _ _ _ _ _ _).bind fun r => restores_ite ?_ restores_pure
    exact (restores_iupdate _).bind fun _ => restores_pure

/-! ## Directories -/

section

open Dir

variable {k k' k'' : Kernel} {dev : Devsw} {dp : Fin NINODE} {name : Mem}

def kernelUses (k : Kernel) : List (Use ℕ) := uses k.fs

/-- All buffers are given back, and a directory is still an inode of its type. -/
def Released (dp : Fin NINODE) (k k' : Kernel) : Prop :=
  Restored kernelUses k k' ∧ (k'.icache dp).type = (k.icache dp).type

theorem Released.refl (dp : Fin NINODE) (k : Kernel) : Released dp k k := ⟨Restored.refl k, rfl⟩

theorem Released.trans (first : Released dp k k') (second : Released dp k' k'') :
    Released dp k k'' :=
  ⟨first.1.trans second.1, second.2.trans first.2⟩

/-- The disk is as it was, but for what has been done to it with its buffers given back. -/
theorem Restored.kernel (restored : Restored uses k.fs k'.fs) : Restored kernelUses k k' := restored

/-- Reading an entry of a directory, which is not a T_CHECKED file, gives every buffer back. -/
theorem meets_readEntry {off : ℕ} {panic : Dir.Stop} (plain : (k.icache dp).type ≠ T_CHECKED) :
    Meets (readEntry dev dp off panic) k (fun _ => True) fun _ k' => Released dp k k' := by
  refine meets_bind (meets_get (meets_bind (meets_zoom ?_)))
  refine (readi_restores fun leaks => plain leaks.1).mono (fun _ _ => trivial) ?_
  rintro r fs ⟨restored, type⟩
  refine meets_bind (meets_modify
    (meets_ite (fun _ => meets_bind (meets_throw trivial)) fun _ => meets_pure ?_))
  refine ⟨Restored.kernel restored, ?_⟩
  simp only [Kernel.set, Function.update_self]
  exact type plain

theorem meets_lookupLoop {fuel off : ℕ} (plain : (k.icache dp).type ≠ T_CHECKED) :
    Meets (lookupLoop dev dp name fuel off) k (fun _ => True) fun _ k' => Released dp k k' := by
  induction fuel generalizing off k with
  | zero => exact meets_pure (.refl dp k)
  | succ fuel ih =>
      refine meets_bind (meets_get (meets_ite (fun _ => ?_) fun _ => meets_pure (.refl dp k)))
      refine (meets_readEntry plain).bind fun de k₁ first => ?_
      have later (off' : ℕ) :
          Meets (lookupLoop dev dp name fuel off') k₁ (fun _ => True) fun _ k' =>
          Released dp k k' :=
        (ih (first.2.symm ▸ plain)).mono (fun _ => id) fun _ _ => first.trans
      exact meets_ite (fun _ => later _) fun _ =>
        meets_ite (fun _ => meets_pure first) fun _ => later _

theorem meets_emptyLoop {fuel off : ℕ} (plain : (k.icache dp).type ≠ T_CHECKED) :
    Meets (emptyLoop dev dp fuel off) k (fun _ => True) fun _ k' => Released dp k k' := by
  induction fuel generalizing off k with
  | zero => exact meets_pure (.refl dp k)
  | succ fuel ih =>
      refine meets_bind (meets_get (meets_ite (fun _ => ?_) fun _ => meets_pure (.refl dp k)))
      refine (meets_readEntry plain).bind fun de k₁ first => ?_
      refine meets_ite (fun _ => meets_pure first) fun _ => ?_
      exact (ih (first.2.symm ▸ plain)).mono (fun _ => id) fun _ _ => first.trans

theorem restores_writeEntry {off : ℕ} {de : List Byte} {panic : Dir.Stop} :
    Restores kernelUses (writeEntry dev dp off de panic) := by
  refine fun k => meets_bind (meets_get (meets_bind (meets_zoom ?_)))
  refine (restores_writei _ _ _ _ _ k.fs).mono (fun _ _ => trivial) ?_
  rintro r fs restored
  exact meets_bind (meets_modify
    (meets_ite (fun _ => meets_throw trivial) fun _ => meets_pure (Restored.kernel restored)))

theorem restores_iget (inum : ℕ) : Restores kernelUses (Dir.iget inum) := by
  refine fun k => meets_bind (meets_get ?_)
  split
  · exact meets_bind (meets_modify (f := fun _ => _) (meets_pure (Restored.of_eq rfl)))
  · split
    · exact meets_bind (meets_modify (f := fun _ => _) (meets_pure (Restored.of_eq rfl)))
    · exact meets_throw trivial

/-- What a call of the file system gives back, the kernel has back. -/
theorem call_restores {α : Type} {m : FsM α} {r : α × Kernel} (restores : Restores uses m)
    (returned : k.call m = some r) :
    Restored kernelUses k r.2 := by
  rw [Kernel.call] at returned
  cases outcome : m k.fs with
  | ok a =>
      rw [outcome] at returned
      cases returned
      exact Restored.kernel ((restores k.fs).of_ok outcome)
  | error e =>
      rw [outcome] at returned
      cases returned

/-- `iput` gives every buffer back. -/
theorem iput_restores {i : Fin NINODE} (put : k.iput i = some k') : Restored kernelUses k k' := by
  simp only [Kernel.iput] at put
  split at put
  case isTrue => cases put
  case isFalse =>
    split at put
    case isTrue =>
      rcases Option.map_eq_some_iff.mp put with ⟨r, freed, same⟩
      cases same
      exact (call_restores (restores_freeInode _) freed).trans (Restored.of_eq rfl)
    case isFalse =>
      cases put
      exact Restored.of_eq rfl

theorem restores_iput (i : Fin NINODE) : Restores kernelUses (Dir.iput i) := by
  refine fun k => meets_bind (meets_get ?_)
  split
  case h_1 k' put => exact meets_modify (f := fun _ => _) (iput_restores put)
  case h_2 => exact meets_throw trivial

/-- `dirlookup` panics unless it is given a directory, so that no block it reads has a checksum. -/
theorem meets_dirlookup : Meets (dirlookup dev dp name) k (fun _ => True) fun r k' =>
    Restored kernelUses k k' ∧ (r = none → (k'.icache dp).type ≠ T_CHECKED) := by
  refine meets_bind (meets_get
    (meets_ite (fun _ => meets_bind (meets_throw trivial)) fun isDir => ?_))
  have plain : (k.icache dp).type ≠ T_CHECKED := by
    rw [not_not.mp isDir]
    decide
  refine meets_bind (meets_get ((meets_lookupLoop plain).bind fun r k₁ seen => ?_))
  cases r with
  | none => exact meets_pure ⟨seen.1, fun _ => seen.2.symm ▸ plain⟩
  | some x =>
      refine Meets.bind (restores_iget _ k₁) fun i k₂ got =>
        meets_pure ⟨seen.1.trans got, fun none => ?_⟩
      cases none

theorem restores_dirlookup (dp : Fin NINODE) (name : Mem) :
    Restores kernelUses (dirlookup dev dp name) := fun _ =>
  meets_dirlookup.mono (fun _ => id) fun _ _ looked => looked.1

/-- `dirlink` gives every buffer back. -/
theorem restores_dirlink (dp : Fin NINODE) (name : Mem) (inum : Word) :
    Restores kernelUses (dirlink dev dp name inum) := by
  refine fun k => meets_dirlookup.bind fun r k₁ looked => ?_
  cases r with
  | some x =>
      exact Meets.bind (restores_iput _ k₁) fun _ k₂ put => meets_pure (looked.1.trans put)
  | none =>
      refine meets_bind (meets_get ((meets_emptyLoop (looked.2 rfl)).bind fun off k₂ seen => ?_))
      refine Meets.bind (restores_writeEntry k₂) fun _ k₃ written => meets_pure ?_
      exact looked.1.trans (seen.1.trans written)

/-! ## All calls -/

/-- A call of a function of `fs.c`. -/
inductive FsFunction where
  | balloc
  | bfree (b : ℕ)
  | ialloc (type : Half)
  | iupdate (ip : Inode)
  | bmap (ip : Inode) (bn : ℕ)
  | itrunc (ip : Inode)
  | stati (inodeDev : Word) (ip : Inode) (st : Stat)
  | readi (ip : Inode) (dst : Mem) (off n : Word)
  | writei (ip : Inode) (src : Mem) (off n : Word)
  | dirlookup (dp : Fin NINODE) (name : Mem)
  | dirlink (dp : Fin NINODE) (name : Mem) (inum : Word)

namespace FsFunction

/-- The kernel after a call, if it returns. -/
def run (dev : Devsw) (k : Kernel) : FsFunction → Option Kernel
  | .balloc => (k.call Fs.balloc).map Prod.snd
  | .bfree b => (k.call (Fs.bfree b)).map Prod.snd
  | .ialloc type => k.ialloc type
  | .iupdate ip => (k.call (Fs.iupdate ip)).map Prod.snd
  | .bmap ip bn => (k.call (Fs.bmap ip bn)).map Prod.snd
  | .itrunc ip => (k.call (Fs.itrunc ip)).map Prod.snd
  | .stati inodeDev ip st => (Fs.stati inodeDev ip st k.fs).toOption.map fun r =>
      { k with fs := r.2 }
  | .readi ip dst off n => (k.call (Fs.readi dev ip dst off n)).map Prod.snd
  | .writei ip src off n => (k.call (Fs.writei dev ip src off n)).map Prod.snd
  | .dirlookup dp name => (Dir.dirlookup dev dp name k).toOption.map Prod.snd
  | .dirlink dp name inum => (Dir.dirlink dev dp name inum k).toOption.map Prod.snd

/-- The call returns, and its `bread`s and `brelse`s have made `locks'` of the buffers' `locks`. -/
def Returns (dev : Devsw) (f : FsFunction) (k : Kernel) (locks : Locks ℕ) (k' : Kernel)
    (locks' : Locks ℕ) : Prop :=
  f.run dev k = some k' ∧ ∃ new, kernelUses k' = kernelUses k ++ new ∧
    follow new locks = some locks'

/-- It is a `readi` that reads a block of a file with checksums. -/
def Leaks : FsFunction → Prop
  | .readi ip _ off n => Fs.Leaks ip off n
  | _ => False

variable {f : FsFunction} {locks locks' : Locks ℕ}

theorem ok_of_toOption {ε α : Type} {x : Except ε α} {a : α} (some_ : x.toOption = some a) :
    x = .ok a := by
  cases x with
  | ok b =>
      cases some_
      rfl
  | error e => cases some_

theorem call_run {α : Type} {m : FsM α} (restores : Restores uses m)
    (returned : (k.call m).map Prod.snd = some k') :
    Restored kernelUses k k' := by
  rcases Option.map_eq_some_iff.mp returned with ⟨r, called, same⟩
  cases same
  exact call_restores restores called

theorem dir_run {α : Type} {m : DirM α} (restores : Restores kernelUses m)
    (returned : (m k).toOption.map Prod.snd = some k') : Restored kernelUses k k' := by
  rcases Option.map_eq_some_iff.mp returned with ⟨r, done, same⟩
  cases same
  exact (restores k).of_ok (ok_of_toOption done)

/-- A call without the leak gives every buffer back. -/
theorem restored (returned : f.run dev k = some k') (noLeak : ¬f.Leaks) :
    Restored kernelUses k k' := by
  cases f with
  | balloc => exact call_run restores_balloc returned
  | bfree b => exact call_run (restores_bfree b) returned
  | ialloc type =>
      rcases Option.bind_eq_some_iff.mp returned with ⟨r, called, got⟩
      refine (call_restores (restores_iallocDisk type) called).trans (Restored.of_eq ?_)
      simp only [Kernel.iget] at got
      split at got
      · cases got
        rfl
      · split at got
        · cases got
          rfl
        · cases got
  | iupdate ip => exact call_run (restores_iupdate ip) returned
  | bmap ip bn => exact call_run (restores_bmap ip bn) returned
  | itrunc ip => exact call_run (restores_itrunc ip) returned
  | stati inodeDev ip st =>
      rcases Option.map_eq_some_iff.mp returned with ⟨r, done, same⟩
      cases same
      exact Restored.kernel ((restores_stati inodeDev ip st k.fs).of_ok (ok_of_toOption done))
  | readi ip dst off n =>
      rcases Option.map_eq_some_iff.mp returned with ⟨r, called, same⟩
      cases same
      rw [Kernel.call] at called
      cases outcome : Fs.readi dev ip dst off n k.fs with
      | ok a =>
          rw [outcome] at called
          cases called
          exact Restored.kernel ((readi_restores noLeak).of_ok outcome).1
      | error e =>
          rw [outcome] at called
          cases called
  | writei ip src off n => exact call_run (restores_writei dev ip src off n) returned
  | dirlookup dp name => exact dir_run (restores_dirlookup dp name) returned
  | dirlink dp name inum => exact dir_run (restores_dirlink dp name inum) returned

/-- A call with the leak does not. -/
theorem ne_of_leaks (returns : f.Returns dev k locks k' locks') (leaks : f.Leaks) :
    locks' ≠ locks := by
  rcases returns with ⟨returned, new, recorded, followed⟩
  cases f with
  | readi ip dst off n =>
      rcases Option.map_eq_some_iff.mp returned with ⟨r, called, same⟩
      cases same
      rw [Kernel.call] at called
      cases outcome : Fs.readi dev ip dst off n k.fs with
      | ok a =>
          rw [outcome] at called
          cases called
          rcases (readi_leaks leaks).of_ok outcome with ⟨new', recorded', ends⟩
          have same : new = new' := List.append_cancel_left (recorded.symm.trans recorded')
          exact ends locks locks' trivial (same ▸ followed)
      | error e =>
          rw [outcome] at called
          cases called
  | _ => exact leaks.elim

end FsFunction

/-- A call that returns leaves every buffer's `refcnt` and lock as they were, unless it is a `readi`
that reads a block of a file with checksums, which never does. -/
theorem gives_back_iff {f : FsFunction} {locks locks' : Locks ℕ}
    (returns : f.Returns dev k locks k' locks') :
    locks' = locks ↔ ¬f.Leaks := by
  constructor
  · intro same leaks
    exact FsFunction.ne_of_leaks returns leaks same
  · intro noLeak
    rcases returns with ⟨returned, new, recorded, followed⟩
    rcases FsFunction.restored returned noLeak with ⟨new', recorded', ends⟩
    have same : new = new' := List.append_cancel_left (recorded.symm.trans recorded')
    exact ends locks locks' (same ▸ followed)

/-- A file with checksums of one byte, in block 59. -/
def oneByte : Inode := { emptyInode T_CHECKED 2 with size := 1, addrs := fun i => if i = 0 then 59
      else 0 }

/-- Nothing is cached. -/
def emptyKernel : Kernel := ⟨emptySt, fun _ => ⟨emptyInode 0 0, 0, false, false⟩⟩

def readOne : FsFunction := .readi oneByte (fun _ => 0) 0 1

theorem returns_readOne :
    ∃ k' locks', readOne.Returns noDevices emptyKernel (fun _ => ⟨0, false⟩) k' locks' :=
  ⟨_, _, rfl, [.take 59], rfl, rfl⟩

/-- `readi` keeps the buffer of the block that it has read. -/
theorem not_gives_back_readOne :
    ¬∀ (dev : Devsw) (f : FsFunction) (k k' : Kernel) (locks locks' : Locks ℕ),
    f.Returns dev k locks k' locks' → locks' = locks := by
  intro givesBack
  rcases returns_readOne with ⟨k', locks', returns⟩
  have leaks : readOne.Leaks := ⟨rfl, by decide, by decide⟩
  exact FsFunction.ne_of_leaks returns leaks (givesBack _ _ _ _ _ _ returns)

/-- A `readi` of one byte of an ordinary file returns with all buffers given back. -/
theorem gives_back_iff_readOne : ∃ k' locks',
    readOne.Returns noDevices emptyKernel (fun _ => ⟨0, false⟩) k' locks' ∧
      (locks' = (fun _ => ⟨0, false⟩) ↔ ¬readOne.Leaks) := by
  rcases returns_readOne with ⟨k', locks', returns⟩
  exact ⟨k', locks', returns, gives_back_iff returns⟩

end

end Xv6.Fs
