import Xv6.Lib.Runs
import Xv6.Names.Calls

/-!
# Reference counts are conserved

The balance of a world compares each reference count with the references there are: it is
0 for every open file and every cached inode when no call is in progress. Inside a call it
counts the references that the call holds in its own variables. A function shifts the
balance by what it hands out, less what it takes over, whatever path it takes; a system
call as a whole shifts it by 0.
-/

namespace Xv6.Names

open Prog Relation
open Fs (T_DIR T_FILE T_DEV)

variable {α β : Type} {w w' w'' : World} {m : NameM α} {i : Fin NINODE} {f : Fin NFILE}
  {p : Fin NPROC}

/-! ## The balance -/

/-- The descriptors, over all processes, that point to file `f`. -/
def slots (w : World) (f : Fin NFILE) : ℤ :=
  ∑ p, ∑ fd, if (w.proc p).ofile fd = some f then 1 else 0

/-- The files of type `FD_INODE` that inode `i` belongs to. -/
def users (w : World) (i : Fin NINODE) : ℤ :=
  ∑ f, if (w.ftable f).type = .inode ∧ (w.ftable f).ip = i then 1 else 0

/-- The processes whose current directory inode `i` is. -/
def cwds (w : World) (i : Fin NINODE) : ℤ := ∑ p, if (w.proc p).cwd = some i then 1 else 0

abbrev Balance := (Fin NFILE → ℤ) × (Fin NINODE → ℤ)

def balance (w : World) : Balance :=
  (fun f => (w.ftable f).ref - slots w f, fun i => (w.icache i).ref - users w i - cwds w i)

/-- One reference to a file, and one to an inode. -/
def ofFile (f : Fin NFILE) : Balance := (Pi.single f 1, 0)

def ofInode (i : Fin NINODE) : Balance := (0, Pi.single i 1)

/-- A file that is not in use keeps no inode. -/
def Tidy (w : World) : Prop := ∀ f, (w.ftable f).ref ≤ 0 → (w.ftable f).type = .none

/-- Only the files and the directory of process `p` have changed, of all processes. -/
structure Frame (p : Fin NPROC) (w w' : World) : Prop where
  others : ∀ q, q ≠ p → w'.proc q = w.proc q
  state : (w'.proc p).state = (w.proc p).state

theorem Frame.refl (w : World) : Frame p w w := ⟨fun _ _ => rfl, rfl⟩

theorem Frame.trans (first : Frame p w w') (second : Frame p w' w'') : Frame p w w'' where
  others q other := (second.others q other).trans (first.others q other)
  state := second.state.trans first.state

/-- Process `p` has gone from `w` to `w'`, and its call has shifted the balance by `δ`. -/
structure After (p : Fin NPROC) (w : World) (δ : Balance) (w' : World) : Prop where
  tidy : Tidy w'
  frame : Frame p w w'
  shift : balance w' = balance w + δ

theorem After.trans {δ₁ δ₂ : Balance} (first : After p w δ₁ w') (second : After p w' δ₂ w'') :
    After p w (δ₁ + δ₂) w'' where
  tidy := second.tidy
  frame := first.frame.trans second.frame
  shift := by rw [second.shift, first.shift, add_assoc]

theorem After.refl (tidy : Tidy w) : After p w 0 w := ⟨tidy, Frame.refl w, (add_zero _).symm⟩

/-! ## Shifts -/

/-- Called by process `p`, the program returns with the balance shifted by `δ` of its result. -/
def Shifts (p : Fin NPROC) (m : NameM α) (δ : α → Balance) : Prop :=
  ∀ w, Tidy w → Meets m w (fun _ => True) fun a w' => After p w (δ a) w'

/-- The rest of a function, after its first part has shifted the balance by `δ`. -/
theorem After.next {δ : Balance} {τ : α → Balance} (first : After p w δ w')
    (rest : Meets m w' (fun _ => True) fun a w'' => After p w' (τ a - δ) w'') :
    Meets m w' (fun _ => True) fun a w'' => After p w (τ a) w'' := by
  refine rest.mono (fun _ => id) fun a w'' second => ?_
  have both := first.trans second
  rwa [add_sub_cancel] at both

theorem After.total {δ₁ δ₂ δ : Balance} (first : After p w δ₁ w') (second : After p w' δ₂ w'')
    (sum : δ₁ + δ₂ = δ) : After p w δ w'' := sum ▸ first.trans second

theorem After.run {δ : Balance} {ε τ : α → Balance} (first : After p w δ w') (rest : Shifts p m ε)
    (total : ∀ a, δ + ε a = τ a) : Meets m w' (fun _ => True) fun a w'' => After p w (τ a) w'' := by
  refine (rest w' first.tidy).mono (fun _ => id) fun a w'' second => ?_
  rw [← total]
  exact first.trans second

namespace Shifts

variable {δ τ : α → Balance}

theorem bind {f : α → NameM β} {τ : β → Balance} (first : Shifts p m δ)
    (next : ∀ a, Shifts p (f a) fun b => τ b - δ a) : Shifts p (m >>= f) τ :=
  fun w tidy => (first w tidy).bind fun a w₁ after => after.next (next a w₁ after.tidy)

theorem pure {a : α} (zero : δ a = 0) : Shifts p (pure a) δ := by
  intro w tidy
  refine meets_pure ?_
  rw [zero]
  exact After.refl tidy

theorem throw {e : Stop} : Shifts p (throw e) δ := fun _ _ => meets_throw trivial

theorem ite {c : Prop} [Decidable c] {m' : NameM α} (yes : c → Shifts p m δ)
    (no : ¬c → Shifts p m' δ) :
    Shifts p (if c then m else m') δ := by
  split
  case isTrue test => exact yes test
  case isFalse test => exact no test

/-- `if (c) panic;` before the rest of a function. -/
theorem panic {c : Prop} [Decidable c] {e : Stop} {rest : Unit → NameM α}
    (no : ¬c → Shifts p (rest ()) δ) :
    Shifts p (if c then (do let r ← MonadExcept.throw e; rest r) else rest ()) δ := by
  split
  case isTrue => exact fun _ _ => meets_bind (meets_throw trivial)
  case isFalse test => exact no test

theorem of_eq (shifts : Shifts p m δ) (same : ∀ a, δ a = τ a) : Shifts p m τ := by
  have : δ = τ := funext same
  rwa [← this]

/-- Reading the state shifts nothing. -/
theorem read {f : World → NameM β} {τ : β → Balance} (next : ∀ w, Shifts p (f w) τ) :
    Shifts p (get >>= f) τ := by
  refine bind (δ := 0) (fun w tidy => meets_get (After.refl tidy)) fun w => ?_
  exact (next w).of_eq fun b => (sub_zero _).symm

theorem readInode {f : Inode → NameM β} {τ : β → Balance} (next : ∀ ip, Shifts p (f ip) τ) :
    Shifts p (getInode i >>= f) τ := by
  rw [getInode, bind_assoc]
  exact read fun w => next _

end Shifts

/-! ## Changes to one entry -/

/-- A changed reference count tips the balance. -/
theorem balance_setInode (w : World) (i : Fin NINODE) (ip : Inode) :
    balance (w.setInode i ip) = balance w + (0, Pi.single i (ip.ref - (w.icache i).ref)) := by
  refine Prod.ext ?_ (funext fun j => ?_)
  · exact (add_zero _).symm
  · change (Function.update w.icache i ip j).ref - users w j - cwds w j = _
    by_cases same : j = i
    · subst same
      rw [Function.update_self]
      simp only [balance, Prod.snd_add, Pi.add_apply, Pi.single_eq_same]
      ring
    · rw [Function.update_of_ne same]
      simp [balance, same]

theorem sum_update {ι γ : Type} [Fintype ι] [DecidableEq ι] (F : ι → γ) (i : ι) (v : γ)
    (g : γ → ℤ) : ∑ x, g (Function.update F i v x) = ∑ x, g (F x) + (g v - g (F i)) := by
  have composed : ∀ x, g (Function.update F i v x) = Function.update (g ∘ F) i (g v) x :=
    fun x => congrFun (Function.comp_update g F i v) x
  simp only [composed]
  rw [Finset.sum_update_of_mem (Finset.mem_univ i), Finset.sdiff_singleton_eq_erase,
    ← Finset.add_sum_erase Finset.univ (fun x => g (F x)) (Finset.mem_univ i)]
  simp only [Function.comp_apply]
  ring

/-- The inode that an open file keeps. -/
def File.keeps (file : File) : Balance := if file.type = .inode then ofInode file.ip else 0

theorem balance_setFile (w : World) (f : Fin NFILE) (file : File) :
    balance (w.setFile f file) = balance w +
      ((Pi.single f (file.ref - (w.ftable f).ref), 0) + ((w.ftable f).keeps - file.keeps)) := by
  have first : ∀ file : File, file.keeps.1 = 0 := by
    intro file
    rw [File.keeps]
    split <;> rfl
  have second : ∀ (file : File) (i : Fin NINODE),
      file.keeps.2 i = if file.type = .inode ∧ file.ip = i then 1 else 0 := by
    intro file i
    rw [File.keeps]
    split_ifs with inode both both
    · rw [← both.2]
      exact Pi.single_eq_same _ _
    · exact Pi.single_eq_of_ne (fun same => both ⟨inode, same.symm⟩) _
    · exact absurd both.1 inode
    · rfl
  refine Prod.ext (funext fun g => ?_) (funext fun i => ?_)
  · simp only [balance, Prod.fst_add, Prod.fst_sub, first, sub_zero, add_zero, Pi.add_apply]
    change (Function.update w.ftable f file g).ref - slots w g = _
    by_cases same : g = f
    · subst same
      rw [Function.update_self, Pi.single_eq_same]
      ring
    · rw [Function.update_of_ne same, Pi.single_eq_of_ne same, add_zero]
  · have sum := sum_update w.ftable f file fun file =>
      if file.type = .inode ∧ file.ip = i then (1 : ℤ) else 0
    have now : users (w.setFile f file) i = users w i + _ := sum
    simp only [balance, Prod.snd_add, Prod.snd_sub, Pi.add_apply, Pi.sub_apply, second]
    rw [now]
    change (w.icache i).ref - _ - cwds w i = _
    simp only [Pi.zero_apply]
    ring

/-- The references of a process. -/
def Proc.holds (proc : Proc) : Balance :=
  (fun f => ∑ fd, if proc.ofile fd = some f then 1
    else 0, fun i => if proc.cwd = some i then 1 else 0)

theorem balance_setProc (w : World) (p : Fin NPROC) (proc : Proc) :
    balance (w.setProc p proc) = balance w + ((w.proc p).holds - proc.holds) := by
  refine Prod.ext (funext fun f => ?_) (funext fun i => ?_)
  · have sum := sum_update w.proc p proc fun proc => proc.holds.1 f
    simp only [balance, Prod.fst_add, Prod.fst_sub, Pi.add_apply, Pi.sub_apply]
    change (w.ftable f).ref - (∑ q, (Function.update w.proc p proc q).holds.1 f) = _
    rw [sum]
    change _ = (w.ftable f).ref - (∑ q, (w.proc q).holds.1 f) + _
    ring
  · have sum := sum_update w.proc p proc fun proc => proc.holds.2 i
    simp only [balance, Prod.snd_add, Prod.snd_sub, Pi.add_apply, Pi.sub_apply]
    change (w.icache i).ref - users w i - (∑ q, (Function.update w.proc p proc q).holds.2 i) = _
    rw [sum]
    change _ = (w.icache i).ref - users w i - (∑ q, (w.proc q).holds.2 i) + _
    ring

/-- What a process holds with another file in a descriptor. -/
theorem holds_ofile (proc : Proc) (fd : Fin NOFILE) (file : Option (Fin NFILE)) :
    ({ proc with ofile := Function.update proc.ofile fd file } : Proc).holds =
      proc.holds + (file.elim 0 ofFile - (proc.ofile fd).elim 0 ofFile) := by
  have first : ∀ (o : Option (Fin NFILE)) (f : Fin NFILE),
      (o.elim 0 ofFile : Balance).1 f = if o = some f then 1 else 0 := by
    intro o f
    cases o with
    | none => rfl
    | some g =>
        by_cases same : f = g
        · subst same
          simp [ofFile]
        · simp [ofFile, same, Ne.symm same]
  have second : ∀ o : Option (Fin NFILE), (o.elim 0 ofFile : Balance).2 = 0 := by
    intro o
    cases o <;> rfl
  refine Prod.ext (funext fun f => ?_) ?_
  · have sum := sum_update proc.ofile fd file fun o => if o = some f then (1 : ℤ) else 0
    simp only [Prod.fst_add, Prod.fst_sub, Pi.add_apply, Pi.sub_apply, first]
    exact sum
  · simp only [Prod.snd_add, Prod.snd_sub, second, sub_zero, add_zero]
    rfl

/-- What a process holds with another working directory. -/
theorem holds_cwd (proc : Proc) (cwd : Option (Fin NINODE)) :
    ({ proc with cwd := cwd } : Proc).holds =
      proc.holds + (cwd.elim 0 ofInode - proc.cwd.elim 0 ofInode) := by
  have second : ∀ (o : Option (Fin NINODE)) (i : Fin NINODE),
      (o.elim 0 ofInode : Balance).2 i = if o = some i then 1 else 0 := by
    intro o i
    cases o with
    | none => rfl
    | some j =>
        by_cases same : i = j
        · subst same
          simp [ofInode]
        · simp [ofInode, same, Ne.symm same]
  have first : ∀ o : Option (Fin NINODE), (o.elim 0 ofInode : Balance).1 = 0 := by
    intro o
    cases o <;> rfl
  refine Prod.ext ?_ (funext fun i => ?_)
  · simp only [Prod.fst_add, Prod.fst_sub, first, sub_zero, add_zero]
    rfl
  · simp only [Prod.snd_add, Prod.snd_sub, Pi.add_apply, Pi.sub_apply, second]
    simp only [Proc.holds]
    ring

theorem shifts_modifyInode {δ : Balance} (i : Fin NINODE) (f : Inode → Inode)
    (shift : ∀ ip, δ = (0, Pi.single i ((f ip).ref - ip.ref))) :
    Shifts p (modifyInode i f) fun _ => δ := by
  intro w tidy
  refine meets_modify ⟨tidy, ⟨fun _ _ => rfl, rfl⟩, ?_⟩
  rw [balance_setInode, shift]

/-- The reference count stays. -/
theorem shifts_modifyInode_zero (i : Fin NINODE) (f : Inode → Inode)
    (same : ∀ ip, (f ip).ref = ip.ref) : Shifts p (modifyInode i f) fun _ => 0 := by
  refine shifts_modifyInode i f fun ip => ?_
  rw [same, sub_self, Pi.single_zero]
  rfl

theorem shifts_disk (f : World → World) (same : ∀ w, (f w).icache = w.icache ∧
    (f w).ftable = w.ftable ∧ (f w).proc = w.proc) : Shifts p (modify f) fun _ => 0 := by
  intro w tidy
  rcases same w with ⟨icache, ftable, proc⟩
  refine meets_modify ⟨?_, ⟨fun q _ => by rw [proc], by rw [proc]⟩, ?_⟩
  · intro f
    rw [ftable]
    exact tidy f
  · simp only [balance, slots, users, cwds, icache, ftable, proc, add_zero]

/-! ## The inode cache -/

/-- `iget` gives out one reference. -/
theorem shifts_iget (inum : ℕ) : Shifts p (iget inum) ofInode := by
  intro w tidy
  refine meets_bind (meets_get ?_)
  have counted : ∀ (i : Fin NINODE) (f : Inode → Inode), (f (w.icache i)).ref =
    (w.icache i).ref + 1 →
      Meets (modifyInode i f >>= fun _ => (Pure.pure i : NameM (Fin NINODE))) w (fun _ => True)
        fun i w' => After p w (ofInode i) w' := by
    intro i f more
    refine meets_bind (meets_modify (meets_pure ⟨tidy, ⟨fun _ _ => rfl, rfl⟩, ?_⟩))
    rw [balance_setInode, more, add_sub_cancel_left]
    rfl
  split
  · exact counted _ _ rfl
  · split
    case h_1 i found =>
      have unused : (w.icache i).ref = 0 := by simpa using List.find?_some found
      refine counted i _ ?_
      rw [unused]
      rfl
    case h_2 => exact meets_throw trivial

theorem shifts_idup (i : Fin NINODE) : Shifts p (idup i) ofInode := by
  refine (shifts_modifyInode (δ := ofInode i) i _ fun ip => ?_).bind fun _ => .pure (sub_self _)
  simp [ofInode]

theorem shifts_acquiresleep (i : Fin NINODE) : Shifts p (acquiresleep i) fun _ => 0 :=
  .readInode fun _ => .panic fun _ => shifts_modifyInode_zero i _ fun _ => rfl

theorem shifts_releasesleep (i : Fin NINODE) : Shifts p (releasesleep i) fun _ => 0 :=
  shifts_modifyInode_zero i _ fun _ => rfl

/-- A function that shifts nothing, before the rest of another. -/
theorem Shifts.still {f : α → NameM β} {τ : β → Balance} (first : Shifts p m fun _ => 0)
    (next : ∀ a, Shifts p (f a) τ) : Shifts p (m >>= f) τ :=
  first.bind fun a => (next a).of_eq fun _ => (sub_zero _).symm

theorem shifts_ilock (i : Fin NINODE) : Shifts p (ilock i) fun _ => 0 := by
  rw [ilock]
  refine .readInode fun ip => .panic fun _ => (shifts_acquiresleep i).still fun _ => ?_
  refine .readInode fun ip => .ite (fun _ => .read fun w => ?_) fun _ => .pure rfl
  refine Shifts.still (shifts_modifyInode_zero i _ fun _ => rfl) fun _ => ?_
  exact .ite (fun _ => .throw) fun _ => .pure rfl

theorem shifts_iunlock (i : Fin NINODE) : Shifts p (iunlock i) fun _ => 0 :=
  .readInode fun _ => .panic fun _ => shifts_releasesleep i

theorem shifts_iupdate (i : Fin NINODE) : Shifts p (iupdate i) fun _ => 0 :=
  shifts_disk _ fun _ => ⟨rfl, rfl, rfl⟩

theorem shifts_readDir (i : Fin NINODE) : Shifts p (readDir i) fun _ => 0 :=
  .readInode fun _ => .read fun _ => .pure rfl

theorem shifts_writeDir (i : Fin NINODE) (entries : List Dirent) :
    Shifts p (writeDir i entries) fun _ => 0 :=
  shifts_disk _ fun _ => ⟨rfl, rfl, rfl⟩

theorem shifts_itrunc (i : Fin NINODE) : Shifts p (itrunc i) fun _ => 0 :=
  (shifts_writeDir i []).still fun _ => shifts_iupdate i

/-- `iput` takes one back. -/
theorem shifts_iput (i : Fin NINODE) : Shifts p (iput i) fun _ => -ofInode i := by
  have drop : Shifts p (releasesleep i >>= fun _ =>
      modifyInode i fun ip => { ip with ref := ip.ref - 1 }) fun _ => -ofInode i := by
    refine (shifts_releasesleep i).still fun _ => shifts_modifyInode i _ fun ip => ?_
    refine Prod.ext neg_zero ?_
    simp [ofInode, ← Pi.single_neg]
  rw [iput]
  refine (shifts_acquiresleep i).still fun _ => .readInode fun ip =>
    .ite (fun _ => ?_) fun _ => drop
  refine (shifts_itrunc i).still fun _ =>
    Shifts.still (shifts_modifyInode_zero i _ fun _ => rfl) fun _ => ?_
  exact (shifts_iupdate i).still fun _ =>
    Shifts.still (shifts_modifyInode_zero i _ fun _ => rfl) fun _ => drop

theorem shifts_iunlockput (i : Fin NINODE) : Shifts p (iunlockput i) fun _ => -ofInode i :=
  (shifts_iunlock i).still fun _ => shifts_iput i

theorem shifts_ialloc (type : Half) : Shifts p (ialloc type) ofInode := by
  rw [ialloc]
  refine .read fun w => ?_
  split
  · exact Shifts.still (shifts_disk _ fun _ => ⟨rfl, rfl, rfl⟩) fun _ => shifts_iget _
  · exact .throw

/-! ## Directories and paths -/

/-- The reference in the result of a function that may find nothing. -/
def found (r : Option (Fin NINODE)) : Balance := r.elim 0 ofInode

theorem shifts_dirlookup (dp : Fin NINODE) (name : Text) :
    Shifts p (dirlookup dp name) fun r => found (r.map Prod.snd) := by
  rw [dirlookup]
  refine .readInode fun ip => .panic fun _ => (shifts_readDir dp).still fun entries => ?_
  split
  · exact (shifts_iget _).bind fun i => .pure (sub_self _)
  · exact .pure rfl

theorem shifts_dirlink (dp : Fin NINODE) (name : Text) (inum : ℕ) :
    Shifts p (dirlink dp name inum) fun _ => 0 := by
  rw [dirlink]
  refine (shifts_dirlookup dp name).bind fun r => ?_
  rcases r with _ | ⟨off, ip⟩
  · refine (shifts_readDir dp).still fun entries => .panic fun _ =>
      (shifts_writeDir dp _).still fun _ => ?_
    exact .ite (fun _ => (shifts_iupdate dp).still fun _ => .pure rfl) fun _ => .pure rfl
  · exact (shifts_iput ip).bind fun _ => .pure (by simp [found])

theorem shifts_pathEnd (parent : Bool) (ip : Fin NINODE) (last : Text) :
    Shifts p (pathEnd parent ip last) fun r => found (r.map Prod.fst) - ofInode ip := by
  refine .ite (fun _ => (shifts_iput ip).bind fun _ => .pure ?_) fun _ => .pure ?_
  · simp [found]
  · simp [found]

/-- Each turn hands the reference on to the next inode. -/
theorem shifts_walk (parent : Bool) (turns : ℕ) (ip : Fin NINODE) (path last : Text) :
    Shifts p (walk parent turns ip path last) fun r => found (r.map Prod.fst) - ofInode ip := by
  induction turns generalizing ip path last with
  | zero => exact shifts_pathEnd parent ip last
  | succ turns ih =>
      rw [walk]
      split
      case h_1 => exact shifts_pathEnd parent ip last
      case h_2 name rest _ =>
        refine (shifts_ilock ip).still fun _ => .readInode fun inode =>
          .ite (fun _ => ?_) fun _ => ?_
        · exact (shifts_iunlockput ip).bind fun _ => .pure (by simp [found])
        refine .ite (fun _ => (shifts_iunlock ip).still fun _ => .pure (by simp [found])) fun _ =>
          ?_
        refine (shifts_dirlookup ip name).bind fun r => ?_
        rcases r with _ | ⟨off, next⟩
        · exact (shifts_iunlockput ip).bind fun _ => .pure (by simp [found])
        · refine (shifts_iunlockput ip).bind fun _ => (ih next rest name).of_eq fun r => ?_
          simp only [found, Option.map_some, Option.elim_some]
          abel

theorem shifts_namex (path : Text) (parent : Bool) :
    Shifts p (namex p path parent) fun r => found (r.map Prod.fst) := by
  rw [namex]
  refine .ite (fun _ => (shifts_iget ROOTINO).bind fun ip => shifts_walk _ _ _ _ _) fun _ => ?_
  refine .read fun w => ?_
  split
  · exact .throw
  · exact (shifts_idup _).bind fun ip => shifts_walk _ _ _ _ _

theorem shifts_namei (path : Text) : Shifts p (namei p path) found :=
  (shifts_namex path false).bind fun _ => .pure (sub_self _)

theorem shifts_nameiparent (path : Text) :
    Shifts p (nameiparent p path) fun r => found (r.map Prod.fst) :=
  shifts_namex path true

/-! ## What leaves processes alone -/

theorem fixes_getInode {γ : Type} {g : World → γ} (i : Fin NINODE) : Fixes g (getInode i) :=
  fixes_get.bind fun _ => fixes_pure

theorem fixes_acquiresleep (i : Fin NINODE) : Fixes World.proc (acquiresleep i) := by
  refine (fixes_getInode i).bind fun ip => fixes_ite ?_ (fixes_modify fun _ => rfl)
  exact fixes_throw.bind fun _ => fixes_modify fun _ => rfl

theorem fixes_iput (i : Fin NINODE) : Fixes World.proc (iput i) := by
  have drop : Fixes World.proc (releasesleep i >>= fun _ =>
      modifyInode i fun ip => { ip with ref := ip.ref - 1 }) :=
    Fixes.bind (fixes_modify fun _ => rfl) fun _ => fixes_modify fun _ => rfl
  refine (fixes_acquiresleep i).bind fun _ => (fixes_getInode i).bind fun ip => fixes_ite ?_ drop
  refine Fixes.bind ?_ fun _ => Fixes.bind (fixes_modify fun _ => rfl) fun _ =>
    Fixes.bind (fixes_modify fun _ => rfl) fun _ =>
    Fixes.bind (fixes_modify fun _ => rfl) fun _ => drop
  exact Fixes.bind (fixes_modify fun _ => rfl) fun _ => fixes_modify fun _ => rfl

theorem fixes_fileclose (f : Fin NFILE) : Fixes World.proc (fileclose f) := by
  have last : ∀ ff : File, Fixes World.proc (do
      modify fun w => w.setFile f { w.ftable f with ref := 0, type := .none }
      if ff.type = .inode then iput ff.ip : NameM Unit) :=
    fun ff => Fixes.bind (fixes_modify fun _ => rfl) fun _ => fixes_ite (fixes_iput _) fixes_pure
  refine fixes_get.bind fun w => fixes_ite (fixes_throw.bind fun _ => ?_) ?_
  · exact fixes_ite (fixes_modify fun _ => rfl) (last _)
  · exact fixes_ite (fixes_modify fun _ => rfl) (last _)

theorem fixes_iunlock (i : Fin NINODE) : Fixes World.ftable (iunlock i) :=
  (fixes_getInode i).bind fun _ =>
    fixes_ite (fixes_throw.bind fun _ => fixes_modify fun _ => rfl) (fixes_modify fun _ => rfl)

/-- What a function shifts, and what it leaves alone. -/
theorem Shifts.fixing {γ : Type} {g : World → γ} {δ : α → Balance} (shifts : Shifts p m δ)
    (fixes : Fixes g m) (tidy : Tidy w) :
    Meets m w (fun _ => True) fun a w' => After p w (δ a) w' ∧ g w' = g w :=
  ((shifts w tidy).and (fixes w)).mono (fun _ _ => trivial) fun _ _ => id

/-! ## Open files -/

/-- A file that stays in use is changed. -/
theorem After.setFile (f : Fin NFILE) (file : File) (tidy : Tidy w)
    (used : 0 < file.ref ∨ file.type = .none) :
    After p w ((Pi.single f (file.ref - (w.ftable f).ref), 0) + ((w.ftable f).keeps - file.keeps))
      (w.setFile f file) where
  tidy := by
    intro g unused
    change (Function.update w.ftable f file g).ref ≤ 0 at unused
    change (Function.update w.ftable f file g).type = _
    by_cases same : g = f
    · subst same
      rw [Function.update_self] at unused ⊢
      exact used.resolve_left (not_lt.mpr unused)
    · rw [Function.update_of_ne same] at unused ⊢
      exact tidy g unused
  frame := ⟨fun _ _ => rfl, rfl⟩
  shift := balance_setFile w f file

/-- A new file gets its type. -/
theorem After.fill (f : Fin NFILE) (file : File) (tidy : Tidy w) (type : (w.ftable f).type = .none)
    (used : 0 < (w.ftable f).ref) (same : file.ref = (w.ftable f).ref) :
    After p w (-file.keeps) (w.setFile f file) := by
  have after := After.setFile (p := p) f file tidy (Or.inl (same ▸ used))
  have nothing : (w.ftable f).keeps = 0 := if_neg (by rw [type]; exact nofun)
  rw [same, sub_self, Pi.single_zero, nothing, zero_sub] at after
  rwa [← Prod.zero_eq_mk, zero_add] at after

/-- `filealloc` gives out a file that nobody refers to. -/
theorem meets_filealloc (tidy : Tidy w) : Meets filealloc w (fun _ => True) fun r w' =>
    After p w (r.elim 0 ofFile) w' ∧
      (∀ g, (w.ftable g).ref ≠ 0 → w'.ftable g = w.ftable g) ∧
      ∀ f, r = some f → (w.ftable f).ref = 0 ∧ (w'.ftable f).type = .none ∧
        (w'.ftable f).ref = 1 := by
  refine meets_bind (meets_get ?_)
  split
  case h_1 f first =>
    have unused : (w.ftable f).ref = 0 := by simpa using List.find?_some first
    have type := tidy f (by rw [unused])
    refine meets_bind (meets_modify (meets_pure ⟨?_, fun g used => ?_, fun g is => ?_⟩))
    · have after := After.setFile (p := p) f { w.ftable f with ref := 1 } tidy (Or.inl one_pos)
      rw [unused] at after
      simpa [File.keeps, type, ofFile] using after
    · refine Function.update_of_ne ?_ _ _
      rintro rfl
      exact used unused
    · cases is
      change _ ∧ (Function.update w.ftable f _ f).type = _ ∧
        (Function.update w.ftable f _ f).ref = _
      rw [Function.update_self]
      exact ⟨unused, type, rfl⟩
  case h_2 =>
    refine meets_pure ⟨After.refl tidy, fun _ _ => rfl, fun _ is => ?_⟩
    cases is

theorem meets_filedup (f : Fin NFILE) (tidy : Tidy w) :
    Meets (filedup f) w (fun _ => True) fun g w' =>
    After p w (ofFile f) w' ∧ w'.proc = w.proc ∧ g = f := by
  refine meets_bind (meets_get
    (meets_ite (fun _ => meets_bind (meets_throw trivial)) fun used => ?_))
  refine meets_bind (meets_modify (meets_pure ⟨?_, rfl, rfl⟩))
  have after := After.setFile (p := p) f
    { w.ftable f with ref := (w.ftable f).ref + 1 } tidy (Or.inl (by simp at used ⊢; omega))
  simpa [File.keeps, ofFile] using after

theorem shifts_filedup (f : Fin NFILE) : Shifts p (filedup f) fun _ => ofFile f :=
  fun _ tidy => (meets_filedup f tidy).mono (fun _ => id) fun _ _ post => post.1

/-- `fileclose` takes one reference to the file back, and with the last one what the file refers to.
-/
theorem shifts_fileclose (f : Fin NFILE) : Shifts p (fileclose f) fun _ => -ofFile f := by
  intro w tidy
  refine meets_bind (meets_get
    (meets_ite (fun _ => meets_bind (meets_throw trivial)) fun used => ?_))
  refine meets_ite (fun more => meets_modify ?_) fun last => ?_
  · have after := After.setFile (p := p) f { w.ftable f with ref := (w.ftable f).ref - 1 } tidy
      (Or.inl more)
    simpa [File.keeps, ofFile, ← Pi.single_neg] using after
  · have one : (w.ftable f).ref = 1 := by omega
    have after := After.setFile (p := p) f { w.ftable f with ref := 0, type := .none } tidy
      (Or.inr rfl)
    have closed : After p w (-ofFile f + (w.ftable f).keeps)
        (w.setFile f { w.ftable f with ref := 0, type := .none }) := by
      simpa [File.keeps, ofFile, one, ← Pi.single_neg] using after
    refine meets_bind (meets_modify (meets_ite (fun inode => ?_) fun other => meets_pure ?_))
    · refine closed.run (shifts_iput _) fun _ => ?_
      rw [File.keeps, if_pos inode, add_neg_cancel_right]
    · rwa [File.keeps, if_neg other, add_zero] at closed

/-! ## Descriptors and directories of processes -/

theorem setProc_self (w : World) (p : Fin NPROC) (proc : Proc) : (w.setProc p proc).proc p = proc :=
  Function.update_self _ _ _

theorem After.setProc (proc : Proc) (tidy : Tidy w) (state : proc.state = (w.proc p).state) :
    After p w ((w.proc p).holds - proc.holds) (w.setProc p proc) where
  tidy := tidy
  frame := ⟨fun _ other => Function.update_of_ne other _ _, by rw [setProc_self, state]⟩
  shift := balance_setProc w p proc

/-- A descriptor gets another file. -/
theorem meets_setOfile {fd : Fin NOFILE} {file : Option (Fin NFILE)} (tidy : Tidy w) :
    Meets (setOfile p fd file) w (fun _ => True) fun _ w' =>
      After p w (((w.proc p).ofile fd).elim 0 ofFile - file.elim 0 ofFile) w' ∧
        w' = w.setProc p { w.proc p with ofile := Function.update (w.proc p).ofile fd file } := by
  refine meets_modify ⟨?_, rfl⟩
  have after := After.setProc (p := p)
    { w.proc p with ofile := Function.update (w.proc p).ofile fd file } tidy rfl
  rw [holds_ofile (w.proc p) fd file] at after
  have same : (w.proc p).holds - ((w.proc p).holds +
      (file.elim 0 ofFile - ((w.proc p).ofile fd).elim 0 ofFile)) =
      ((w.proc p).ofile fd).elim 0 ofFile - file.elim 0 ofFile := by abel
  rwa [same] at after

/-- A process gets another working directory. -/
theorem meets_setCwd {cwd : Option (Fin NINODE)} (tidy : Tidy w) :
    Meets (setCwd p cwd) w (fun _ => True) fun _ w' =>
      After p w ((w.proc p).cwd.elim 0 ofInode - cwd.elim 0 ofInode) w' ∧
        w' = w.setProc p { w.proc p with cwd := cwd } := by
  refine meets_modify ⟨?_, rfl⟩
  have after := After.setProc (p := p) { w.proc p with cwd := cwd } tidy rfl
  rw [holds_cwd (w.proc p) cwd] at after
  have same : (w.proc p).holds - ((w.proc p).holds +
      (cwd.elim 0 ofInode - (w.proc p).cwd.elim 0 ofInode)) =
      (w.proc p).cwd.elim 0 ofInode - cwd.elim 0 ofInode := by abel
  rwa [same] at after

/-- `fdalloc` hands a reference over to a descriptor. -/
theorem meets_fdalloc (tidy : Tidy w) : Meets (fdalloc p f) w (fun _ => True) fun r w' =>
    After p w (r.elim 0 fun _ => -ofFile f) w' ∧ w'.ftable = w.ftable ∧
      r.elim (w' = w) fun fd => (w'.proc p).ofile fd = some f := by
  refine meets_bind (meets_get ?_)
  split
  case h_1 fd first =>
    have free : (w.proc p).ofile fd = none := by simpa using List.find?_some first
    refine (meets_setOfile tidy).bind fun _ w' set => meets_pure ⟨?_, ?_, ?_⟩
    · have after := set.1
      rw [free] at after
      simpa using after
    · rw [set.2]
      rfl
    · change (w'.proc p).ofile fd = some f
      rw [set.2, setProc_self]
      exact Function.update_self _ _ _
  case h_2 => exact meets_pure ⟨After.refl tidy, rfl, rfl⟩

theorem shifts_fdalloc (f : Fin NFILE) :
    Shifts p (fdalloc p f) fun r => r.elim 0 fun _ => -ofFile f :=
  fun _ tidy => (meets_fdalloc tidy).mono (fun _ => id) fun _ _ post => post.1

theorem shifts_argfd (fd : Option (Fin NOFILE)) : Shifts p (argfd p fd) fun _ => 0 :=
  .read fun _ => .pure rfl

/-! ## System calls -/

theorem shifts_sysDup (fd : Option (Fin NOFILE)) : Shifts p (sysDup p fd) fun _ => 0 := by
  refine (shifts_argfd fd).still fun r => ?_
  rcases r with _ | ⟨_, f⟩
  · exact .pure rfl
  · refine (shifts_fdalloc f).bind fun r => ?_
    cases r with
    | none => exact .pure (by simp)
    | some fd => exact (shifts_filedup f).bind fun _ => .pure (by simp)

/-- `sys_close` is balanced. -/
theorem shifts_sysClose (fd : Option (Fin NOFILE)) : Shifts p (sysClose p fd) fun _ => 0 := by
  intro w tidy
  refine meets_bind (meets_bind (meets_get (meets_pure ?_)))
  cases is : fd.bind fun fd => ((w.proc p).ofile fd).map fun f => (fd, f) with
  | none => exact meets_pure (After.refl tidy)
  | some r =>
      rcases Option.bind_eq_some_iff.mp is with ⟨fd, _, mapped⟩
      rcases Option.map_eq_some_iff.mp mapped with ⟨f, points, rfl⟩
      refine (meets_setOfile tidy).bind fun _ w' set => ?_
      refine set.1.run ((shifts_fileclose f).bind fun _ => .pure ?_) (ε := fun _ => -ofFile f)
        fun _ => ?_
      · simp
      · simp [points]

theorem shifts_addLinks (i : Fin NINODE) (d : ℤ) : Shifts p (addLinks i d) fun _ => 0 :=
  Shifts.still (shifts_modifyInode_zero i _ fun _ => rfl) fun _ => shifts_iupdate i

/-- `sys_link` is balanced. -/
theorem shifts_sysLink (old new : Option Text) : Shifts p (sysLink p old new) fun _ => 0 := by
  have bad : ∀ ip, Shifts p (unlinkAgain ip) fun _ => -ofInode ip := by
    intro ip
    refine (shifts_ilock ip).still fun _ => (shifts_addLinks ip _).still fun _ => ?_
    exact (shifts_iunlockput ip).bind fun _ => .pure (sub_self _)
  cases old with
  | none => exact .pure rfl
  | some old =>
      cases new with
      | none => exact .pure rfl
      | some new =>
          refine (shifts_namei old).bind fun r => ?_
          cases r with
          | none => exact .pure (by simp [found])
          | some ip =>
              refine (shifts_ilock ip).still fun _ => .readInode fun inode =>
                .ite (fun _ => ?_) fun _ => ?_
              · exact (shifts_iunlockput ip).bind fun _ => .pure (by simp [found])
              refine (shifts_addLinks ip 1).still fun _ => (shifts_iunlock ip).still fun _ => ?_
              refine (shifts_nameiparent new).bind fun r => ?_
              rcases r with _ | ⟨dp, name⟩
              · exact (bad ip).of_eq fun _ => by simp [found]
              refine (shifts_ilock dp).still fun _ => .readInode fun inode => ?_
              refine (shifts_dirlink dp name _).still fun linked => .ite (fun _ => ?_) fun _ => ?_
              · refine (shifts_iunlockput dp).bind fun _ => (shifts_iput ip).bind fun _ => .pure ?_
                simp [found]
              · refine (shifts_iunlockput dp).bind fun _ => (bad ip).of_eq fun _ => ?_
                simp [found]

/-- `sys_unlink` is balanced. -/
theorem shifts_sysUnlink (path : Option Text) : Shifts p (sysUnlink p path) fun _ => 0 := by
  cases path with
  | none => exact .pure rfl
  | some path =>
      refine (shifts_nameiparent path).bind fun r => ?_
      rcases r with _ | ⟨dp, name⟩
      · exact .pure (by simp [found])
      have bad : Shifts p (do iunlockput dp; return none : NameM (Option ℕ)) fun _ => -ofInode dp :=
        (shifts_iunlockput dp).bind fun _ => .pure (sub_self _)
      refine (shifts_ilock dp).still fun _ =>
        .ite (fun _ => bad.of_eq fun _ => by simp [found]) fun _ => ?_
      refine (shifts_dirlookup dp name).bind fun r => ?_
      rcases r with _ | ⟨off, ip⟩
      · exact bad.of_eq fun _ => by simp [found]
      refine (shifts_ilock ip).still fun _ => .readInode fun inode => .panic fun _ => ?_
      refine .readInode fun inode => (shifts_readDir ip).still fun entries =>
        .ite (fun _ => ?_) fun _ => ?_
      · refine (shifts_iunlockput ip).bind fun _ => bad.of_eq fun _ => ?_
        simp [found]
      refine (shifts_readDir dp).still fun entries => (shifts_writeDir dp _).still fun _ => ?_
      have rest : Shifts p (do
          iunlockput dp
          addLinks ip (-1)
          iunlockput ip
          return some 0 : NameM (Option ℕ)) fun _ => -ofInode dp - ofInode ip := by
        refine (shifts_iunlockput dp).bind fun _ => (shifts_addLinks ip _).still fun _ => ?_
        exact (shifts_iunlockput ip).bind fun _ => .pure (by abel)
      refine .readInode fun inode => .ite (fun _ => ?_) fun _ => ?_
      · refine (shifts_addLinks dp _).still fun _ => rest.of_eq fun _ => ?_
        simp [found, sub_eq_add_neg]
      · refine rest.of_eq fun _ => ?_
        simp [found, sub_eq_add_neg]

/-- `create` gives out a reference to what it has found or made. -/
theorem shifts_create (path : Text) (type major minor : Half) :
    Shifts p (create p path type major minor) found := by
  refine (shifts_nameiparent path).bind fun r => ?_
  rcases r with _ | ⟨dp, name⟩
  · exact .pure (by simp [found])
  refine (shifts_ilock dp).still fun _ => (shifts_dirlookup dp name).bind fun r => ?_
  rcases r with _ | ⟨off, ip⟩
  · refine (shifts_ialloc type).bind fun ip => (shifts_ilock ip).still fun _ => ?_
    refine Shifts.still (shifts_modifyInode_zero ip _ fun _ => rfl) fun _ =>
      (shifts_iupdate ip).still fun _ => ?_
    have rest : Shifts p (do
        if (← dirlink dp name (← getInode ip).inum) = false then throw .createDirlink
        iunlockput dp
        return some ip : NameM (Option (Fin NINODE))) fun r =>
        found r - ofInode dp - ofInode ip := by
      refine .readInode fun inode => (shifts_dirlink dp name _).still fun _ => .panic fun _ => ?_
      refine (shifts_iunlockput dp).bind fun _ => .pure ?_
      simp only [found, Option.elim_some]
      abel
    have total : ∀ r, found r - ofInode dp - ofInode ip =
        found r - found (Option.map Prod.fst (some (dp, name))) -
          found (Option.map Prod.snd (none : Option (ℕ × Fin NINODE))) - ofInode ip := by
      intro r
      simp [found]
    refine .ite (fun _ => ?_) fun _ => rest.of_eq total
    refine (shifts_addLinks dp 1).still fun _ => .readInode fun inode => ?_
    refine (shifts_dirlink ip dot _).still fun _ => .panic fun _ => .readInode fun inode => ?_
    exact (shifts_dirlink ip dotdot _).still fun _ => .panic fun _ => rest.of_eq total
  · refine (shifts_iunlockput dp).bind fun _ => (shifts_ilock ip).still fun _ => ?_
    refine .readInode fun inode => .ite (fun _ => .pure (by simp [found])) fun _ => ?_
    refine (shifts_iunlockput ip).bind fun _ => .pure ?_
    simp only [found, Option.map_some, Option.elim_some, Option.elim_none]
    abel

theorem shifts_openInode (path : Text) (omode : Word) :
    Shifts p (openInode p path omode) found := by
  refine .ite (fun _ => shifts_create _ _ _ _) fun _ => (shifts_namei path).bind fun r => ?_
  cases r with
  | none => exact .pure (sub_self _)
  | some ip =>
      refine (shifts_ilock ip).still fun _ => .readInode fun inode => .ite (fun _ => ?_) fun _ => ?_
      · exact (shifts_iunlockput ip).bind fun _ => .pure (by simp [found])
      · exact .pure (sub_self _)

/-- The file that `open` has allocated takes over the inode. -/
theorem shifts_sysOpen (path : Option Text) (omode : Option Word) :
    Shifts p (sysOpen p path omode) fun _ => 0 := by
  rcases path with _ | path
  · exact .pure rfl
  rcases omode with _ | omode
  · exact .pure rfl
  refine (shifts_openInode path omode).bind fun r => ?_
  rcases r with _ | ip
  · exact .pure (by simp [found])
  intro w tidy
  refine (meets_filealloc (p := p) tidy).bind fun r w₁ allocated => ?_
  rcases r with _ | f
  · refine allocated.1.run ((shifts_iunlockput ip).bind fun _ => .pure (sub_self _))
      (ε := fun _ => -ofInode ip) fun _ => ?_
    simp [found]
  rcases allocated with ⟨allocated, _, fresh⟩
  refine (meets_fdalloc allocated.tidy).bind fun r w₂ placed => ?_
  have two := allocated.trans placed.1
  rcases r with _ | fd
  · refine two.run ((shifts_fileclose f).bind fun _ => (shifts_iunlockput ip).bind fun _ =>
      .pure ?_)
      (ε := fun _ => -ofFile f - ofInode ip) fun _ => ?_
    · abel
    · simp only [found, Option.elim_some, Option.elim_none]
      abel
  refine ((shifts_iunlock (p := p) ip).fixing (fixes_iunlock ip) two.tidy).bind fun _ w₃ unlocked =>
    ?_
  have three := two.trans unlocked.1
  have same : w₃.ftable = w₁.ftable := unlocked.2.trans placed.2.1
  rcases fresh f rfl with ⟨_, type, ref⟩
  have four := After.fill (p := p) f { w₃.ftable f with
    type := .inode
    ip := ip
    readable := omode &&& O_WRONLY = 0
    writable := omode &&& O_WRONLY ≠ 0 ∨ omode &&& O_RDWR ≠ 0 } three.tidy (by rw [same, type])
    (by rw [same, ref]; exact one_pos) rfl
  refine meets_bind (meets_modify (meets_pure (three.total four ?_)))
  simp [File.keeps, found]

theorem shifts_sysMkdir (path : Option Text) : Shifts p (sysMkdir p path) fun _ => 0 := by
  cases path with
  | none => exact .pure rfl
  | some path =>
      refine (shifts_create path T_DIR 0 0).bind fun r => ?_
      cases r with
      | none => exact .pure (by simp [found])
      | some ip => exact (shifts_iunlockput ip).bind fun _ => .pure (by simp [found])

/-- `sys_mknod` is balanced. -/
theorem shifts_sysMknod (path : Option Text) (major minor : Option Half) :
    Shifts p (sysMknod p path major minor) fun _ => 0 := by
  rcases path with _ | path
  · exact .pure rfl
  rcases major with _ | major
  · exact .pure rfl
  rcases minor with _ | minor
  · exact .pure rfl
  refine (shifts_create path T_DEV major minor).bind fun r => ?_
  cases r with
  | none => exact .pure (by simp [found])
  | some ip => exact (shifts_iunlockput ip).bind fun _ => .pure (by simp [found])

/-- The current directory is given up, and replaced by an inode that the caller has. -/
theorem meets_putCwd (cwd : Option (Fin NINODE)) (tidy : Tidy w) :
    Meets (putCwd p >>= fun _ => setCwd p cwd) w (fun _ => True) fun _ w' =>
      After p w (-cwd.elim 0 ofInode) w' ∧ (w'.proc p).ofile = (w.proc p).ofile ∧
        (w'.proc p).cwd = cwd := by
  rw [putCwd, bind_assoc]
  refine meets_bind (meets_get ?_)
  cases is : (w.proc p).cwd with
  | none => exact meets_bind (meets_throw trivial)
  | some old =>
      refine ((shifts_iput (p := p) old).fixing (fixes_iput old) tidy).bind fun _ w₁ put => ?_
      refine (meets_setCwd put.1.tidy).mono (fun _ => id) fun _ w₂ set => ?_
      have same : w₁.proc p = w.proc p := congrFun put.2 p
      refine ⟨?_, ?_, ?_⟩
      · have both := put.1.trans set.1
        rw [same, is] at both
        have total : -ofInode old + ((some old).elim 0 ofInode - cwd.elim 0 ofInode) =
            -cwd.elim 0 ofInode := by
          rw [Option.elim_some]
          abel
        rwa [total] at both
      · rw [set.2, setProc_self, same]
      · rw [set.2, setProc_self]

/-- `sys_chdir` is balanced. -/
theorem shifts_sysChdir (path : Option Text) : Shifts p (sysChdir p path) fun _ => 0 := by
  cases path with
  | none => exact .pure rfl
  | some path =>
      refine (shifts_namei path).bind fun r => ?_
      cases r with
      | none => exact .pure (by simp [found])
      | some ip =>
          refine (shifts_ilock ip).still fun _ => .readInode fun inode =>
            .ite (fun _ => ?_) fun _ => ?_
          · exact (shifts_iunlockput ip).bind fun _ => .pure (by simp [found])
          refine (shifts_iunlock ip).still fun _ => ?_
          have replaced : Shifts p (putCwd p >>= fun _ => setCwd p (some ip)) fun _ =>
              -ofInode ip :=
            fun w tidy => (meets_putCwd (some ip) tidy).mono (fun _ => id) fun _ _ put => put.1
          have rest : Shifts p (putCwd p >>= fun _ => setCwd p (some ip) >>= fun _ => return some 0)
              fun _ => -ofInode ip := by
            rw [← bind_assoc]
            exact replaced.bind fun _ => .pure (sub_self _)
          exact rest.of_eq fun _ => by simp [found]

/-! ## Pipes -/

/-- The two files of a pipe. -/
def both (r : Option (Fin NFILE × Fin NFILE)) : Balance := r.elim 0 fun r => ofFile r.1 + ofFile r.2

/-- Both files of a pipe are closed. -/
theorem shifts_closeBoth (f₀ f₁ : Option (Fin NFILE)) :
    Shifts p (closeBoth f₀ f₁) fun _ => -f₀.elim 0 ofFile - f₁.elim 0 ofFile := by
  have one : ∀ f, Shifts p (fileclose f >>= fun _ => Pure.pure ()) fun _ => -ofFile f :=
    fun f => (shifts_fileclose f).bind fun _ => .pure (sub_self _)
  cases f₀ with
  | none =>
      cases f₁ with
      | none => exact .pure (by simp)
      | some f => exact (shifts_fileclose f).of_eq fun _ => by simp
  | some f₀ =>
      cases f₁ with
      | none => exact (one f₀).of_eq fun _ => by simp
      | some f =>
          refine (shifts_fileclose f₀).bind fun _ => (shifts_fileclose f).of_eq fun _ => ?_
          simp only [Option.elim_some]
          abel

/-- `pipealloc` gives out two references, or none. -/
theorem shifts_pipealloc (memory : Bool) : Shifts p (pipealloc memory) both := by
  intro w tidy
  have close : ∀ f₀ f₁, Shifts p
    (do closeBoth f₀ f₁; return none : NameM (Option (Fin NFILE × Fin NFILE)))
      fun r => both r - (f₀.elim 0 ofFile + f₁.elim 0 ofFile) := by
    refine fun f₀ f₁ => (shifts_closeBoth f₀ f₁).bind fun _ => .pure ?_
    simp only [both, Option.elim_none]
    abel
  refine (meets_filealloc (p := p) tidy).bind fun r w₁ one => ?_
  rcases r with _ | f₀
  · exact one.1.run (close none none) fun r => by simp
  refine (meets_filealloc (p := p) one.1.tidy).bind fun r w₂ two => ?_
  have after := one.1.trans two.1
  rcases r with _ | f₁
  · exact after.run (close (some f₀) none) fun r => by simp
  refine meets_ite (fun enough => ?_) fun _ =>
    after.run (close (some f₀) (some f₁)) fun r => by simp
  rcases one.2.2 f₀ rfl with ⟨_, type₀, ref₀⟩
  rcases two.2.2 f₁ rfl with ⟨unused, type₁, ref₁⟩
  have same₀ : w₂.ftable f₀ = w₁.ftable f₀ := two.2.1 f₀ (by rw [ref₀]; exact one_ne_zero)
  have apart : f₁ ≠ f₀ := by
    rintro rfl
    rw [ref₀] at unused
    exact one_ne_zero unused
  have three := After.fill (p := p) f₀
    { w₂.ftable f₀ with type := .pipe, readable := true, writable := false } after.tidy
    (by rw [same₀, type₀]) (by rw [same₀, ref₀]; exact one_pos) rfl
  refine meets_bind (meets_modify ?_)
  generalize opened : w₂.setFile f₀ _ = w₃ at three
  have same₁ : w₃.ftable f₁ = w₂.ftable f₁ := by
    rw [← opened]
    exact Function.update_of_ne apart _ _
  have four := After.fill (p := p) f₁
    { w₃.ftable f₁ with type := .pipe, readable := false, writable := true } three.tidy
    (by rw [same₁, type₁]) (by rw [same₁, ref₁]; exact one_pos) rfl
  refine meets_bind (meets_modify (meets_pure ((after.trans three).total four ?_)))
  simp [File.keeps, both]

/-- `sys_pipe` is balanced. -/
theorem shifts_sysPipe (fd : Option Unit) (memory : Bool) :
    Shifts p (sysPipe p fd memory) fun _ => 0 := by
  cases fd with
  | none => exact .pure rfl
  | some _ =>
      have close : ∀ rf wf, Shifts p (do fileclose rf; fileclose wf; return none : NameM (Option ℕ))
          fun _ => -ofFile rf - ofFile wf := by
        refine fun rf wf => (shifts_fileclose rf).bind fun _ => (shifts_fileclose wf).bind fun _ =>
          .pure ?_
        abel
      intro w tidy
      refine (shifts_pipealloc (p := p) memory w tidy).bind fun r w₁ allocated => ?_
      rcases r with _ | ⟨rf, wf⟩
      · exact meets_pure allocated
      refine (meets_fdalloc allocated.tidy).bind fun r w₂ placed => ?_
      have two := allocated.trans placed.1
      rcases r with _ | fd₀
      · refine two.run (close rf wf) fun _ => ?_
        simp only [both, Option.elim_some, Option.elim_none]
        abel
      refine (meets_fdalloc two.tidy).bind fun r w₃ placed' => ?_
      have three := two.trans placed'.1
      rcases r with _ | fd₁
      · refine (meets_setOfile three.tidy).bind fun _ w₄ set => ?_
        have four := three.trans set.1
        rw [show w₃ = w₂ from placed'.2.2, show (w₂.proc p).ofile fd₀ = some rf from placed.2.2]
          at four
        refine four.run (close rf wf) fun _ => ?_
        simp only [both, Option.elim_some, Option.elim_none]
        abel
      · refine meets_pure (three.total (After.refl three.tidy) ?_)
        simp [both]

/-- `exec` is balanced, as far as inodes are concerned. -/
theorem shifts_exec (path : Option Text) (loading : Loading) :
    Shifts p (exec p path loading) fun _ => 0 := by
  cases path with
  | none => exact .pure rfl
  | some path =>
      refine (shifts_namei path).bind fun r => ?_
      cases r with
      | none => exact .pure (by simp [found])
      | some ip =>
          refine (shifts_ilock ip).still fun _ => (shifts_iunlockput ip).bind fun _ => .pure ?_
          simp [found]

/-! ## Processes -/

/-- Every reference is counted, and a process that cannot make calls holds none. -/
structure Conserved (w : World) : Prop where
  balanced : balance w = 0
  tidy : Tidy w
  vacant : ∀ p, (w.proc p).state.alive = false → (∀ fd, (w.proc p).ofile fd = none) ∧
    (w.proc p).cwd = none

/-- A call has changed only process `q`, to a state in which it may keep what it holds. -/
theorem Conserved.of_frame {q : Fin NPROC} (conserved : Conserved w) (tidy : Tidy w')
    (balanced : balance w' = balance w) (others : ∀ r, r ≠ q → w'.proc r = w.proc r)
    (vacant : (w'.proc q).state.alive = false →
      (∀ fd, (w'.proc q).ofile fd = none) ∧ (w'.proc q).cwd = none) : Conserved w' where
  balanced := balanced.trans conserved.balanced
  tidy := tidy
  vacant := by
    intro r ended
    by_cases same : r = q
    · subst same
      exact vacant ended
    · rw [others r same] at ended ⊢
      exact conserved.vacant r ended

theorem Conserved.of_after (conserved : Conserved w) (alive : (w.proc p).state.alive)
    (after : After p w 0 w') : Conserved w' := by
  refine conserved.of_frame after.tidy (after.shift.trans (add_zero _)) after.frame.others
    fun ended => ?_
  rw [after.frame.state, alive] at ended
  cases ended

theorem balance_setState (w : World) (p : Fin NPROC) (state : Sched.State) :
    balance (w.setProc p { w.proc p with state := state }) = balance w := by
  rw [balance_setProc]
  exact (congrArg (balance w + ·) (sub_self _)).trans (add_zero _)

/-- The descriptors of the new process are free before the loop comes to them. -/
theorem meets_dupFiles {np : Fin NPROC} (fds : List (Fin NOFILE)) (nodup : fds.Nodup)
    (tidy : Tidy w) (free : ∀ fd ∈ fds, (w.proc np).ofile fd = none) :
    Meets (dupFiles p np fds) w (fun _ => True) fun _ w' =>
      After np w 0 w' ∧ (w'.proc np).cwd = (w.proc np).cwd := by
  induction fds generalizing w with
  | nil => exact meets_pure ⟨After.refl tidy, rfl⟩
  | cons fd fds ih =>
      rcases List.nodup_cons.mp nodup with ⟨fresh, nodup⟩
      rw [dupFiles]
      refine meets_bind (meets_get ?_)
      cases (w.proc p).ofile fd with
      | none => exact ih nodup tidy fun fd mem => free fd (List.mem_cons_of_mem _ mem)
      | some f =>
          refine (meets_filedup (p := np) f tidy).bind fun g w₁ dup => ?_
          rcases dup with ⟨dup, proc, rfl⟩
          have same : w₁.proc np = w.proc np := congrFun proc np
          refine (meets_setOfile dup.tidy).bind fun _ w₂ set => ?_
          have two := dup.trans set.1
          rw [same, free fd List.mem_cons_self] at two
          refine (ih nodup two.tidy fun fd' mem => ?_).mono (fun _ => id) fun _ w' post =>
            ⟨two.total post.1 ?_, ?_⟩
          · rw [set.2, setProc_self, same]
            change Function.update (w.proc np).ofile fd _ fd' = none
            rw [Function.update_of_ne fun is : fd' = fd => fresh (is ▸ mem)]
            exact free fd' (List.mem_cons_of_mem _ mem)
          · simp
          · rw [post.2, set.2, setProc_self, same]

/-- The loop of `exit` empties the descriptors. -/
theorem meets_closeFiles (fds : List (Fin NOFILE)) (tidy : Tidy w) :
    Meets (closeFiles p fds) w (fun _ => True) fun _ w' =>
      After p w 0 w' ∧ ∀ fd, fd ∈ fds ∨ (w.proc p).ofile fd = none →
        (w'.proc p).ofile fd = none := by
  induction fds generalizing w with
  | nil => exact meets_pure ⟨After.refl tidy, fun fd is => is.resolve_left (List.not_mem_nil)⟩
  | cons fd fds ih =>
      rw [closeFiles]
      refine meets_bind (meets_get ?_)
      cases is : (w.proc p).ofile fd with
      | none =>
          refine (ih tidy).mono (fun _ => id) fun _ w' post =>
            ⟨post.1, fun fd' is' => post.2 fd' ?_⟩
          rcases is' with mem | free
          · rcases List.mem_cons.mp mem with rfl | mem
            · exact Or.inr is
            · exact Or.inl mem
          · exact Or.inr free
      | some f =>
          refine ((shifts_fileclose (p := p) f).fixing (fixes_fileclose f) tidy).bind
            fun _ w₁ closed => ?_
          have same : w₁.proc p = w.proc p := congrFun closed.2 p
          refine (meets_setOfile closed.1.tidy).bind fun _ w₂ set => ?_
          have two := closed.1.trans set.1
          rw [same, is] at two
          refine (ih two.tidy).mono (fun _ => id) fun _ w' post =>
            ⟨two.total post.1 ?_, fun fd' is' => post.2 fd' ?_⟩
          · simp
          · rw [set.2, setProc_self, same]
            change _ ∨ Function.update (w.proc p).ofile fd none fd' = none
            by_cases now : fd' = fd
            · subst now
              exact Or.inr (Function.update_self _ _ _)
            · rw [Function.update_of_ne now]
              exact is'.imp_left fun mem => (List.mem_cons.mp mem).resolve_left now

theorem fixes_idup (i : Fin NINODE) : Fixes World.proc (idup i) :=
  Fixes.bind (fixes_modify fun _ => rfl) fun _ => fixes_pure

/-- `fork` counts what the child holds. -/
theorem fork_conserves (memory : Bool) (conserved : Conserved w) :
    Meets (fork p memory) w (fun _ => True) fun _ w' => Conserved w' := by
  refine meets_bind (meets_get ?_)
  split
  case h_1 => exact meets_pure conserved
  case h_2 np first =>
    have unused : (w.proc np).state = .unused := by simpa using List.find?_some first
    rcases conserved.vacant np (by rw [unused]; rfl) with ⟨free, nowhere⟩
    refine meets_bind (meets_modify ?_)
    generalize embryo : w.setProc np _ = w₁
    have tidy : Tidy w₁ := embryo ▸ conserved.tidy
    have balanced : balance w₁ = balance w := embryo ▸ balance_setState w np _
    have others : ∀ r, r ≠ np → w₁.proc r = w.proc r := by
      intro r other
      rw [← embryo]
      exact Function.update_of_ne other _ _
    have proc : w₁.proc np = { w.proc np with state := .embryo } := by rw [← embryo, setProc_self]
    refine meets_ite (fun _ => ?_) fun _ => meets_bind (meets_modify (meets_pure ?_))
    · refine (meets_dupFiles _ (List.nodup_finRange NOFILE) tidy fun fd _ => ?_).bind
        fun _ w₂ dup => ?_
      · rw [proc]
        exact free fd
      refine meets_bind (meets_get ?_)
      cases (w₂.proc p).cwd with
      | none => exact meets_throw trivial
      | some cwd =>
          refine ((shifts_idup (p := np) cwd).fixing (fixes_idup cwd) dup.1.tidy).bind
            fun i w₃ idup => ?_
          have three := dup.1.trans idup.1
          have none : (w₃.proc np).cwd = none := by rw [idup.2, dup.2, proc, ← nowhere]
          refine (meets_setCwd three.tidy).bind fun _ w₄ set => ?_
          have four := three.trans set.1
          rw [none] at four
          refine meets_bind (meets_modify (meets_pure ?_))
          refine conserved.of_frame (q := np) four.tidy ?_ (fun r other => ?_) fun ended => ?_
          · rw [balance_setState, four.shift, balanced]
            simp
          · refine (Function.update_of_ne other _ _).trans ?_
            exact (four.frame.others r other).trans (others r other)
          · rw [setProc_self] at ended
            cases ended
    · refine conserved.of_frame (q := np) tidy ((balance_setState w₁ np _).trans balanced) ?_
        fun _ => ?_
      · exact fun r other => (Function.update_of_ne other _ _).trans (others r other)
      · rw [setProc_self, proc]
        exact ⟨free, nowhere⟩

/-- `exit` gives everything back. -/
theorem exit_conserves (conserved : Conserved w) :
    Meets (exit p) w (fun _ => True) fun _ w' => Conserved w' := by
  refine meets_ite (fun _ => meets_bind (meets_throw trivial)) fun _ => ?_
  refine (meets_closeFiles _ conserved.tidy).bind fun _ w₁ closed => ?_
  rw [← bind_assoc]
  refine (meets_putCwd none closed.1.tidy).bind fun _ w₂ put => ?_
  have two := closed.1.trans put.1
  refine meets_bind (meets_modify (meets_pure ?_))
  refine conserved.of_frame (q := p) two.tidy ?_ ?_ fun _ => ?_
  · rw [balance_setState, two.shift]
    simp
  · exact fun r other => (Function.update_of_ne other _ _).trans (two.frame.others r other)
  · rw [setProc_self]
    refine ⟨fun fd => ?_, put.2.2⟩
    change (w₂.proc p).ofile fd = none
    rw [put.2.1]
    exact closed.2 fd (Or.inl (List.mem_finRange fd))

theorem wait_conserves {child : Fin NPROC} (conserved : Conserved w) :
    Meets (wait child) w (fun _ => True) fun _ w' => Conserved w' := by
  refine meets_bind (meets_get (meets_ite (fun zombie => ?_) fun _ => meets_pure conserved))
  refine meets_bind (meets_modify (meets_pure ?_))
  refine conserved.of_frame (q := child) conserved.tidy (balance_setState w child _) ?_ fun _ => ?_
  · exact fun r other => Function.update_of_ne other _ _
  · rw [setProc_self]
    exact conserved.vacant child (by rw [zombie]; rfl)

theorem Shifts.conserves {m : NameM (Option ℕ)} (shifts : Shifts p m fun _ => 0)
    (alive : (w.proc p).state.alive) (conserved : Conserved w) :
    Meets m w (fun _ => True) fun _ w' => Conserved w' :=
  (shifts w conserved.tidy).mono (fun _ => id) fun _ _ after => conserved.of_after alive after

/-- Every call keeps the balance. -/
theorem run_conserves (call : Call) (alive : (w.proc p).state.alive) (conserved : Conserved w) :
    Meets (call.run p) w (fun _ => True) fun _ w' => Conserved w' := by
  cases call with
  | «open» path omode => exact (shifts_sysOpen path omode).conserves alive conserved
  | dup fd => exact (shifts_sysDup fd).conserves alive conserved
  | pipe fd memory => exact (shifts_sysPipe fd memory).conserves alive conserved
  | close fd => exact (shifts_sysClose fd).conserves alive conserved
  | fork memory => exact fork_conserves memory conserved
  | exit => exact exit_conserves conserved
  | wait child => exact wait_conserves conserved
  | exec path loading => exact (shifts_exec path loading).conserves alive conserved
  | chdir path => exact (shifts_sysChdir path).conserves alive conserved
  | link old new => exact (shifts_sysLink old new).conserves alive conserved
  | unlink path => exact (shifts_sysUnlink path).conserves alive conserved
  | mkdir path => exact (shifts_sysMkdir path).conserves alive conserved
  | mknod path major minor => exact (shifts_sysMknod path major minor).conserves alive conserved

theorem Step.conserves (step : Step w w') (conserved : Conserved w) : Conserved w' := by
  rcases step with ⟨p, call, r, alive, returned⟩
  exact (run_conserves call alive conserved).of_ok returned

theorem conserved_boot (ninodes : ℕ) (disk : ℕ → Dinode) : Conserved (boot ninodes disk) where
  balanced := by
    refine Prod.ext (funext fun f => ?_) (funext fun i => ?_)
    · simp [balance, slots, boot]
    · have start : cwds (boot ninodes disk) i = if i = 0 then 1 else 0 := by
        rw [cwds, Finset.sum_eq_single initproc]
        · exact if_congr (by simp [boot, eq_comm]) rfl rfl
        · exact fun p _ other => if_neg (by simp [boot, other])
        · exact fun out => absurd (Finset.mem_univ _) out
      simp only [balance, start]
      simp [users, boot]
  tidy := fun _ _ => rfl
  vacant := by
    intro p ended
    by_cases first : p = initproc
    · subst first
      simp [boot, Sched.State.alive] at ended
    · exact ⟨fun _ => rfl, if_neg first⟩

theorem conserved_of_run {ninodes : ℕ} {disk : ℕ → Dinode}
    (run : ReflTransGen Step (boot ninodes disk) w) :
    Conserved w :=
  Runs.invariant_of_run (fun _ _ => Step.conserves) run (conserved_boot ninodes disk)

theorem Conserved.file (conserved : Conserved w) (f : Fin NFILE) : (w.ftable f).ref =
    (Finset.univ.filter fun at_ : Fin NPROC × Fin NOFILE =>
      (w.proc at_.1).ofile at_.2 = some f).card := by
  have zero : (w.ftable f).ref - slots w f = 0 := congrFun (congrArg Prod.fst conserved.balanced) f
  rw [Finset.card_filter, Fintype.sum_prod_type]
  push_cast
  exact sub_eq_zero.mp zero

/-- The count of an inode is the number of files and working directories that refer to it. -/
theorem Conserved.inode (conserved : Conserved w) (i : Fin NINODE) : (w.icache i).ref =
    (Finset.univ.filter fun f => (w.ftable f).type = .inode ∧ 0 < (w.ftable f).ref ∧
      (w.ftable f).ip = i).card +
      (Finset.univ.filter fun p => (w.proc p).cwd = some i).card := by
  have zero : (w.icache i).ref - users w i - cwds w i = 0 :=
    congrFun (congrArg Prod.snd conserved.balanced) i
  have used : ∀ f, (w.ftable f).type = .inode → 0 < (w.ftable f).ref := by
    intro f type
    by_contra unused
    rw [conserved.tidy f (not_lt.mp unused)] at type
    cases type
  have same : (Finset.univ.filter fun f => (w.ftable f).type = .inode ∧ 0 < (w.ftable f).ref ∧
    (w.ftable f).ip = i) =
      Finset.univ.filter fun f => (w.ftable f).type = .inode ∧ (w.ftable f).ip = i :=
    Finset.filter_congr fun f _ =>
      ⟨fun all => ⟨all.1, all.2.2⟩, fun both => ⟨both.1, used f both.1, both.2⟩⟩
  rw [same, Finset.card_filter, Finset.card_filter]
  push_cast
  rw [sub_sub, sub_eq_zero] at zero
  exact zero

/-- Whatever calls have been made, and however they ended, each count is the number of references.
-/
theorem refs_conserved (ninodes : ℕ) (disk : ℕ → Dinode) (w : World)
    (run : ReflTransGen Step (boot ninodes disk) w) :
    (∀ f, (w.ftable f).ref =
      (Finset.univ.filter fun at_ : Fin NPROC × Fin NOFILE =>
        (w.proc at_.1).ofile at_.2 = some f).card) ∧
    ∀ i, (w.icache i).ref =
      (Finset.univ.filter fun f => (w.ftable f).type = .inode ∧ 0 < (w.ftable f).ref ∧
        (w.ftable f).ip = i).card +
        (Finset.univ.filter fun p => (w.proc p).cwd = some i).card :=
  ⟨(conserved_of_run run).file, (conserved_of_run run).inode⟩

/-- The step in which a process makes a call. -/
def call? (w : World) (turn : Fin NPROC × Call) : Option World :=
  if (w.proc turn.1).state.alive then (turn.2.run turn.1 w).toOption.map Prod.snd else none

/-- A call that returns is a step. -/
theorem Step.of_call {turn : Fin NPROC × Call} (called : call? w turn = some w') : Step w w' := by
  rw [call?] at called
  split_ifs at called with alive
  rcases Option.map_eq_some_iff.mp called with ⟨⟨r, w₁⟩, returned, rfl⟩
  refine ⟨turn.1, turn.2, r, alive, ?_⟩
  cases is : turn.2.run turn.1 w with
  | ok outcome =>
      rw [is] at returned
      exact congrArg Except.ok (Option.some.inj returned)
  | error e =>
      rw [is] at returned
      cases returned

theorem run_of_calls {turns : List (Fin NPROC × Call)} (done : turns.foldlM call? w = some w') :
    ReflTransGen Step w w' :=
  ReflTransGen.mono (fun _ _ called => called.elim fun _ => Step.of_call) _ _
    (Runs.run_of_foldlM turns done)

/-- A disk with an empty root directory. -/
def rootOnly : ℕ → Dinode := Function.update (fun _ => zeroDinode) ROOTINO
  { zeroDinode with type := T_DIR, nlink := 1, entries := [⟨ROOTINO, dot⟩, ⟨ROOTINO, dotdot⟩] }

/-- The child of the first process has opened the root, and has a second descriptor for it. -/
theorem refs_conserved_dup : ∃ w, ReflTransGen Step (boot 200 rootOnly) w ∧
    ((w.ftable 0).ref = 2 ∧ (w.icache 0).ref = 3) ∧
    (∀ f, (w.ftable f).ref =
      (Finset.univ.filter fun at_ : Fin NPROC × Fin NOFILE =>
        (w.proc at_.1).ofile at_.2 = some f).card) ∧
    ∀ i, (w.icache i).ref =
      (Finset.univ.filter fun f => (w.ftable f).type = .inode ∧ 0 < (w.ftable f).ref ∧
        (w.ftable f).ip = i).card +
        (Finset.univ.filter fun p => (w.proc p).cwd = some i).card := by
  have done : ([(0, .fork true), (1, .open (some [slash]) (some 0)),
    (1, .dup (some 0))].foldlM call?
      (boot 200 rootOnly)).map (fun w => ((w.ftable 0).ref, (w.icache 0).ref)) = some (2, 3) := by
    decide +kernel
  rcases Option.map_eq_some_iff.mp done with ⟨w, is, counts⟩
  have run := run_of_calls is
  exact ⟨w, run, Prod.mk.inj counts, refs_conserved 200 rootOnly w run⟩

end Xv6.Names
