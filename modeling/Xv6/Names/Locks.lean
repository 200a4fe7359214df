import Xv6.Names.Refs

/-!
# Locks are released

The resolution of a path locks one directory after the other and unlocks each again. With the
balance of references this says that a call that has found an inode, locked it and put it
back has left the inode cache as it was, up to the slots that are not in use.
-/

namespace Xv6.Names

open Prog

variable {γ : Type} {g : World → γ} {w w' w'' : World} {i : Fin NINODE} {p : Fin NPROC}

/-- The sleep-locks of the inodes. -/
def locks (w : World) : Fin NINODE → Bool := fun i => (w.icache i).locked

/-- Open files and processes. -/
def tables (w : World) : (Fin NFILE → File) × (Fin NPROC → Proc) := (w.ftable, w.proc)

/-- The disk does not matter to `g`, nor does an inode apart from its lock. -/
structure Blind (g : World → γ) : Prop where
  inode : ∀ w i ip, ip.locked = (w.icache i).locked → g (w.setInode i ip) = g w
  disk : ∀ w inum d, g (w.setDisk inum d) = g w

theorem locks_setInode {ip : Inode} :
    locks (w.setInode i ip) = Function.update (locks w) i ip.locked := by
  funext j
  by_cases same : j = i
  · subst same
    simp [locks, World.setInode]
  · simp [locks, World.setInode, same]

/-- What a call may have to put back, apart from references. -/
def surroundings (w : World) : (Fin NINODE → Bool) × (Fin NFILE → File) × (Fin NPROC → Proc) :=
  (locks w, tables w)

theorem blind_surroundings : Blind surroundings where
  inode w i ip same := by
    rw [surroundings, locks_setInode, same]
    exact congrArg (·, tables w) (Function.update_eq_self i (locks w))
  disk _ _ _ := rfl

namespace Blind

theorem modifyInode {f : Inode → Inode} (blind : Blind g) (same : ∀ ip, (f ip).locked = ip.locked) :
    Fixes g (modifyInode i f) :=
  fixes_modify fun w => blind.inode w i _ (same _)

theorem iget (blind : Blind g) (inum : ℕ) : Fixes g (iget inum) := by
  refine fixes_get.bind fun w => ?_
  split
  · exact Fixes.bind (modifyInode blind fun _ => rfl) fun _ => fixes_pure
  · split
    · exact Fixes.bind (modifyInode blind fun _ => rfl) fun _ => fixes_pure
    · exact fixes_throw

theorem idup (blind : Blind g) (i : Fin NINODE) :
    Fixes g (idup i) := Fixes.bind (modifyInode blind fun _ => rfl) fun _ => fixes_pure

theorem iupdate (blind : Blind g) (i : Fin NINODE) :
    Fixes g (iupdate i) := fixes_modify fun w => blind.disk w _ _

theorem itrunc (blind : Blind g) (i : Fin NINODE) : Fixes g (itrunc i) :=
  Fixes.bind (fixes_modify fun w => blind.disk w _ _) fun _ => blind.iupdate i

/-- The part of `ilock` that reads the inode. -/
theorem fetch (blind : Blind g) (i : Fin NINODE) : Fixes g (do
    let ip ← getInode i
    if ip.valid = false then
      let d := (← get).disk ip.inum
      Names.modifyInode i fun ip => { ip with toFields := d.toFields, valid := true }
      if d.type = 0 then throw .noType) := by
  refine (fixes_getInode i).bind fun ip => fixes_ite (fixes_get.bind fun w => ?_) fixes_pure
  exact Fixes.bind (modifyInode blind fun _ => rfl) fun _ => fixes_ite fixes_throw fixes_pure

theorem dirlookup (blind : Blind g) (dp : Fin NINODE) (name : Text) :
    Fixes g (dirlookup dp name) := by
  refine (fixes_getInode dp).bind fun ip => fixes_ite (fixes_throw.bind fun _ => ?_) ?_
  all_goals
    refine ((fixes_getInode dp).bind fun _ => fixes_get.bind fun _ => fixes_pure).bind
      fun entries => ?_
    split
    · exact (blind.iget _).bind fun _ => fixes_pure
    · exact fixes_pure

end Blind

/-! ## Locking and unlocking -/

/-- The lock of inode `i` has been taken or released, and nothing else. -/
structure Turned (i : Fin NINODE) (held : Bool) (w w' : World) : Prop where
  locks : locks w' = Function.update (locks w) i held
  tables : tables w' = tables w

theorem Turned.after (same : surroundings w' = surroundings w) {held : Bool}
    (turned : Turned i held w' w'') :
    Turned i held w w'' :=
  have before : Names.locks w' = Names.locks w := congrArg Prod.fst same
  ⟨by rw [turned.locks, before], turned.tables.trans (congrArg Prod.snd same)⟩

theorem Turned.before {held : Bool} (turned : Turned i held w w')
    (same : surroundings w'' = surroundings w') :
    Turned i held w w'' :=
  ⟨(congrArg Prod.fst same).trans turned.locks, (congrArg Prod.snd same).trans turned.tables⟩

/-- A lock that is taken and released is as free as it was. -/
theorem Turned.back (free : Names.locks w i = false) (taken : Turned i true w w')
    (released : Turned i false w' w'') :
    surroundings w'' = surroundings w := by
  refine Prod.ext ?_ (released.tables.trans taken.tables)
  change Names.locks w'' = Names.locks w
  rw [released.locks, taken.locks, Function.update_idem, ← free]
  exact Function.update_eq_self i (Names.locks w)

theorem meets_acquiresleep : Meets (acquiresleep i) w (fun _ => True) fun _ w' =>
    locks w i = false ∧ Turned i true w w' := by
  refine meets_bind (meets_bind (meets_get (meets_pure ?_)))
  refine meets_ite (fun _ => meets_bind (meets_throw trivial)) fun free =>
    meets_modify ⟨?_, locks_setInode, rfl⟩
  exact Bool.not_eq_true _ ▸ free

theorem meets_releasesleep :
    Meets (releasesleep i) w (fun _ => True) fun _ w' => Turned i false w w' :=
  meets_modify ⟨locks_setInode, rfl⟩

theorem meets_ilock :
    Meets (ilock i) w (fun _ => True) fun _ w' => locks w i = false ∧ Turned i true w w' := by
  refine meets_bind (meets_bind (meets_get (meets_pure ?_)))
  refine meets_ite (fun _ => meets_bind (meets_throw trivial)) fun _ => ?_
  refine meets_acquiresleep.bind fun _ w₁ acquired => ?_
  refine (blind_surroundings.fetch i w₁).mono (fun _ => id) fun _ w' same => ?_
  exact ⟨acquired.1, acquired.2.before same⟩

theorem meets_iunlock : Meets (iunlock i) w (fun _ => True) fun _ w' => Turned i false w w' := by
  refine meets_bind (meets_bind (meets_get (meets_pure ?_)))
  exact meets_ite (fun _ => meets_bind (meets_throw trivial)) fun _ => meets_releasesleep

/-- `iput` leaves everything but the cache as it is. -/
theorem fixes_iput_surroundings (i : Fin NINODE) : Fixes surroundings (iput i) := by
  intro w
  refine meets_acquiresleep.bind fun _ w₁ acquired => ?_
  have drop : ∀ w₂, surroundings w₂ = surroundings w₁ → Meets (do
      releasesleep i
      modifyInode i fun ip => { ip with ref := ip.ref - 1 }) w₂ (fun _ => True) fun _ w' =>
        surroundings w' = surroundings w := by
    intro w₂ same
    refine meets_releasesleep.bind fun _ w₃ released => ?_
    have fewer : Fixes surroundings (modifyInode i fun ip => { ip with ref := ip.ref - 1 }) :=
      blind_surroundings.modifyInode fun _ => rfl
    refine (fewer w₃).mono (fun _ => id) fun _ w' kept => ?_
    exact kept.trans (acquired.2.back acquired.1 (released.after same))
  have untyped : Fixes surroundings (modifyInode i fun ip => { ip with type := 0 }) :=
    blind_surroundings.modifyInode fun _ => rfl
  have invalid : Fixes surroundings (modifyInode i fun ip => { ip with valid := false }) :=
    blind_surroundings.modifyInode fun _ => rfl
  refine meets_bind (meets_bind (meets_get (meets_pure ?_)))
  refine meets_ite (fun _ => ?_) fun _ => drop w₁ rfl
  refine (blind_surroundings.itrunc i w₁).bind fun _ w₂ first => ?_
  refine (untyped w₂).bind fun _ w₃ second => ?_
  refine (blind_surroundings.iupdate i w₃).bind fun _ w₄ third => ?_
  refine (invalid w₄).bind fun _ w₅ fourth => ?_
  exact drop w₅ (fourth.trans (third.trans (second.trans first)))

theorem meets_iunlockput : Meets (iunlockput i) w (fun _ => True) fun _ w' => Turned i false w w' :=
  meets_iunlock.bind fun _ w₁ released =>
    (fixes_iput_surroundings i w₁).mono (fun _ => id) fun _ _ same => released.before same

/-! ## Paths -/

theorem fixes_pathEnd (parent : Bool) (ip : Fin NINODE) (last : Text) :
    Fixes surroundings (pathEnd parent ip last) :=
  fixes_ite ((fixes_iput_surroundings ip).bind fun _ => fixes_pure) fixes_pure

/-- Each turn unlocks the directory again. -/
theorem fixes_walk (parent : Bool) (turns : ℕ) (ip : Fin NINODE) (path last : Text) :
    Fixes surroundings (walk parent turns ip path last) := by
  induction turns generalizing ip path last with
  | zero => exact fixes_pathEnd parent ip last
  | succ turns ih =>
      rw [walk]
      split
      case h_1 => exact fixes_pathEnd parent ip last
      case h_2 name rest _ =>
        intro w
        refine meets_ilock.bind fun _ w₁ taken => ?_
        have stop : ∀ w₂, surroundings w₂ = surroundings w₁ → Meets (do
            iunlockput ip
            return none : NameM (Option (Fin NINODE × Text))) w₂ (fun _ => True) fun _ w' =>
              surroundings w' = surroundings w := fun w₂ same =>
          meets_iunlockput.bind fun _ w₃ released =>
            meets_pure (taken.2.back taken.1 (released.after same))
        have read : Fixes surroundings (getInode ip) := fixes_getInode ip
        refine (read w₁).bind fun inode w₂ same => ?_
        refine meets_ite (fun _ => stop w₂ same) fun _ => meets_ite (fun _ => ?_) fun _ => ?_
        · exact meets_iunlock.bind fun _ w₃ released =>
            meets_pure (taken.2.back taken.1 (released.after same))
        refine (blind_surroundings.dirlookup ip name w₂).bind fun r w₃ kept => ?_
        rcases r with _ | ⟨off, next⟩
        · exact stop w₃ (kept.trans same)
        · refine meets_iunlockput.bind fun _ w₄ released => ?_
          refine (ih next rest name w₄).mono (fun _ => id) fun _ w' last => ?_
          exact last.trans (taken.2.back taken.1 (released.after (kept.trans same)))

theorem fixes_namei (path : Text) : Fixes surroundings (namei p path) := by
  have found : Fixes surroundings (namex p path false) := by
    rw [namex]
    refine fixes_ite ((blind_surroundings.iget _).bind fun ip => fixes_walk _ _ _ _ _) ?_
    refine fixes_get.bind fun w => ?_
    split
    · exact fixes_throw
    · exact (blind_surroundings.idup _).bind fun ip => fixes_walk _ _ _ _ _
  exact found.bind fun _ => fixes_pure

/-! ## References -/

/-- All references and locks are as they were. -/
structure Balanced (w w' : World) : Prop where
  refs : ∀ i, (w'.icache i).ref = (w.icache i).ref
  surroundings : surroundings w' = surroundings w

/-- The call has a reference to inode `i` and its lock, and no others. -/
structure Holding (p : Fin NPROC) (i : Fin NINODE) (w w' : World) : Prop where
  after : After p w (ofInode i) w'
  free : locks w i = false
  turned : Turned i true w w'

/-- Without a change in the tables the balance is that of the reference counts. -/
theorem After.balanced (after : After p w 0 w')
    (same : Names.surroundings w' = Names.surroundings w) : Balanced w w' where
  refs := by
    intro i
    have shift := congrFun (congrArg Prod.snd after.shift) i
    have files : w'.ftable = w.ftable := congrArg (fun x => x.2.1) same
    have procs : w'.proc = w.proc := congrArg (fun x => x.2.2) same
    rw [add_zero] at shift
    simp only [balance, users, cwds, files, procs] at shift
    omega
  surroundings := same

theorem meets_namei (tidy : Tidy w) (path : Text) :
    Meets (namei p path) w (fun _ => True) fun r w' =>
    After p w (found r) w' ∧ surroundings w' = surroundings w :=
  (shifts_namei path).fixing (fixes_namei path) tidy

theorem meets_ilock_found (after : After p w (ofInode i) w')
    (same : surroundings w' = surroundings w) :
    Meets (ilock i) w' (fun _ => True) fun _ w'' => Holding p i w w'' := by
  refine ((shifts_ilock (p := p) i w' after.tidy).and meets_ilock).mono (fun _ _ => trivial)
    fun _ w'' both => ?_
  refine ⟨after.total both.1 (add_zero _), ?_, both.2.2.after same⟩
  rw [← both.2.1]
  exact (congrFun (congrArg Prod.fst same) i).symm

theorem Holding.meets_iunlockput (holding : Holding p i w w') :
    Meets (iunlockput i) w' (fun _ => True) fun _ w'' => Balanced w w'' := by
  refine ((shifts_iunlockput (p := p) i w' holding.after.tidy).and Names.meets_iunlockput).mono
    (fun _ _ => trivial) ?_
  intro _ w'' both
  exact (holding.after.total both.1 (add_neg_cancel _)).balanced
    (holding.turned.back holding.free both.2)

end Xv6.Names
