import Xv6.Fs.OpenLog
import Xv6.Fs.Trace
import Xv6.Fs.WriteThrough
import Xv6.Log.Atomicity

/-!
# Transactions of the file system

The file system of part2 over its log. An operation calls functions of the file
system between `begin_op` and `end_op`; their calls to the buffer cache and the log
are made one by one, and the machine may stop between any two of them. Functions
run one at a time, while other processes may begin, end and commit operations.

`writei` calls `bwrite` on a block right after `log_write`. So a crash before the
commit leaves the new contents in place, unless they were there before.
-/

namespace Xv6.Fs

open Prog Relation

/-- The functions of which file-system operations are made. -/
inductive FsCall where
  | readi (ip : Inode) (dst : Mem) (off n : Word)
  | writei (ip : Inode) (src : Mem) (off n : Word)
  | iupdate (ip : Inode)
  | ialloc (type : Half)
  | ilock (inum : ℕ)
  /-- `iput` of the last reference to an inode without links. -/
  | iput (ip : Inode)

def FsCall.run (dev : Devsw) : FsCall → FsM Unit
  | .readi ip dst off n => Fs.readi dev ip dst off n >>= fun _ => pure ()
  | .writei ip src off n => Fs.writei dev ip src off n >>= fun _ => pure ()
  | .iupdate ip => Fs.iupdate ip
  | .ialloc type => iallocDisk type >>= fun _ => pure ()
  | .ilock inum => loadInode inum >>= fun _ => pure ()
  | .iput ip => freeInode ip >>= fun _ => pure ()

/-- The log, and the process that runs a function, with the calls it still has to make. -/
structure Machine where
  w : Log.World
  running : Option (ℕ × List Call)

/-- One call made by process `p`. -/
def execCall (c : Log.Config) (w : Log.World) (p : ℕ) : Call → Option Log.World
  | .bread b => Log.step c w (.bread b)
  | .brelse _ => some w
  | .logWrite b data =>
      (Log.step c w (.logWriteTest p b)).bind fun w => Log.step c w (.logWrite p data)
  | .bwrite b data => Log.step c w (.bwrite p b data)

/-- The log as `log_write` finds it in a state of the machine. -/
def openLog (c : Log.Config) (w : Log.World) : OpenLog := ⟨c.size, w.lh, w.outstanding⟩

/-- The machine takes a call of `log_write` exactly as `OpenLog` does, panics included. -/
theorem execCall_logWrite {c : Log.Config} {w : Log.World} {p op b : ℕ} {data : Block}
    (up : w.boot = .up) (at_pc : w.pc p = .inOp op) (home : b ∈ c.Home ∧ b < FSSIZE)
    (cached : (w.bufs b).isSome = true) :
    (execCall c w p (.logWrite b data)).map (openLog c) = ((openLog c w).logWrite b).toOption := by
  have tested : Log.step c w (.logWriteTest p b) = w.logWriteTest c p b := by
    rw [Log.step_of_no_reads rfl, Log.perform, if_pos up]
  have appended : Log.step c (w.goto p (.logging op b)) (.logWrite p data) =
      (w.goto p (.logging op b)).logWrite p data := by
    simp [Log.step, Log.perform, Log.Act.reads, Log.World.goto, Log.World.fetch, Log.World.bget,
      cached, up]
  simp only [execCall, tested, Log.World.logWriteTest, at_pc]
  rw [OpenLog.logWrite]
  by_cases full : w.lh.length ≥ LOGSIZE ∨ w.lh.length ≥ c.size - 1
  · have full' : (openLog c w).lh.length ≥ LOGSIZE ∨
        (openLog c w).lh.length ≥ (openLog c w).size - 1 := full
    rw [if_pos full, if_pos full']
    rfl
  · have room : ¬((openLog c w).lh.length ≥ LOGSIZE ∨
        (openLog c w).lh.length ≥ (openLog c w).size - 1) := full
    rw [if_neg full, if_neg room]
    by_cases outside : w.outstanding < 1
    · have outside' : (openLog c w).outstanding < 1 := outside
      rw [if_pos outside, if_pos outside']
      rfl
    · have inTrans : ¬(openLog c w).outstanding < 1 := outside
      rw [if_neg outside, if_neg inTrans, if_pos home, Option.bind_some, appended]
      simp only [Log.World.logWrite, Log.World.goto, Function.update_self]
      rfl

/-- Steps outside the functions of the file system. A process that runs one does not end its
operation. -/
def Machine.outside (m : Machine) : Log.Act → Bool
  | .logWriteTest _ _ | .logWrite _ _ | .bwrite _ _ _ => false
  | .endOp p => m.running.all fun r => r.1 ≠ p
  | _ => true

inductive Event where
  | crash
  | log (act : Log.Act)
  /-- Process `p` calls a function of the file system. -/
  | call (p : ℕ) (f : FsCall)
  /-- The running function makes its next call, or returns. -/
  | next

def Machine.step (c : Log.Config) (sb : Superblock) (dev : Devsw) (m : Machine) :
    Event → Option Machine
  | .crash => some ⟨m.w.crash, none⟩
  | .log act =>
      match act with
      | .crash => none
      | act => if m.outside act then (Log.step c m.w act).map fun w => ⟨w, m.running⟩ else none
  | .call p f =>
      match m.running, m.w.boot, m.w.pc p, f.run dev ⟨sb, m.w.bread, []⟩ with
      | none, .up, .inOp _, .ok (_, s) => some ⟨m.w, some (p, s.calls)⟩
      | _, _, _, _ => none
  | .next =>
      match m.running with
      | none => none
      | some (_, []) => some ⟨m.w, none⟩
      | some (p, call :: calls) => (execCall c m.w p call).map fun w => ⟨w, some (p, calls)⟩

/-- The condition on an event: a `writei` leaves the disk as it is. -/
def Event.Quiet (sb : Superblock) (m : Machine) : Event → Prop
  | .call _ (.writei ip src off n) => QuietWrite m.w.disk ⟨sb, m.w.bread, []⟩ ip src off n
  | _ => True

/-- A step of the machine. -/
def MachineStep (c : Log.Config) (sb : Superblock) (dev : Devsw) (m m' : Machine) : Prop :=
  ∃ e, m.step c sb dev e = some m'

/-- A step of the machine that meets the condition. -/
def QuietStep (c : Log.Config) (sb : Superblock) (dev : Devsw) (m m' : Machine) : Prop :=
  ∃ e, e.Quiet sb m ∧ m.step c sb dev e = some m'

/-! ## The invariant -/

/-- The log is in order, and the calls that are left are quiet. -/
structure Tidy (c : Log.Config) (base : Disk) (m : Machine) : Prop where
  inv : Log.Inv c base m.w
  running : ∀ p calls, m.running = some (p, calls) →
    m.w.boot = .up ∧ (∃ op, m.w.pc p = .inOp op) ∧ QuietCalls m.w.disk m.w.bread calls

/-- A quiet call leaves a quiet trace. -/
theorem FsCall.run_quiet {dev : Devsw} {disk : Disk} {s : St} {f : FsCall}
    (quiet : ∀ ip src off n, f = .writei ip src off n → QuietWrite disk s ip src off n) :
    Meets (f.run dev) s (fun _ => True) fun _ s' => Traced disk s s' := by
  cases f with
  | readi ip dst off n => exact quiet_bind (quiet_readi _ _ _ _ _) (fun _ => quiet_pure _) disk s
  | writei ip src off n =>
      exact (writei_quiet (quiet ip src off n rfl)).bind fun _ _ traced => meets_pure traced
  | iupdate ip => exact quiet_iupdate ip disk s
  | ialloc type => exact quiet_bind (quiet_iallocDisk type) (fun _ => quiet_pure _) disk s
  | ilock inum => exact quiet_bind (quiet_loadInode inum) (fun _ => quiet_pure _) disk s
  | iput ip => exact quiet_bind (quiet_freeInode ip) (fun _ => quiet_pure _) disk s

namespace Tidy

variable {c : Log.Config} {sb : Superblock} {dev : Devsw} {base : Disk} {m m' : Machine}

theorem crash (tidy : Tidy c base m) : Tidy c base ⟨m.w.crash, none⟩ :=
  ⟨tidy.inv.crash, fun _ _ impossible => by cases impossible⟩

/-- A call begins. -/
theorem call {p : ℕ} {f : FsCall} (tidy : Tidy c base m) (quiet : (Event.call p f).Quiet sb m)
    (stepped : m.step c sb dev (.call p f) = some m') : Tidy c base m' := by
  simp only [Machine.step] at stepped
  split at stepped
  next op r s idle up at_pc returned =>
    cases stepped
    refine ⟨tidy.inv, ?_⟩
    rintro q calls ⟨⟩
    have traced : Traced m.w.disk ⟨sb, m.w.bread, []⟩ s := by
      refine (FsCall.run_quiet ?_).of_ok returned
      rintro ip src off n rfl
      exact quiet
    rcases traced with ⟨calls, recorded, _, quietCalls⟩
    rw [List.nil_append] at recorded
    rw [recorded]
    exact ⟨up, ⟨op, at_pc⟩, quietCalls⟩
  next => cases stepped

end Tidy

/-! ## Steps around a running function -/

/-- The step touches neither the disk nor what readers see, and does not move process `p`. -/
structure Untouched (w w' : Log.World) (p : ℕ) : Prop where
  boot : w'.boot = w.boot
  pc : w'.pc p = w.pc p
  disk : w'.disk = w.disk
  bread : w'.bread = w.bread

namespace Untouched

variable {c : Log.Config} {base : Disk} {w w' : Log.World} {p q op : ℕ} (at_pc : w.pc p = .inOp op)
include at_pc

/-- `begin_op` of one process does not touch another one. -/
theorem of_beginOp (stepped : w.beginOp q = some w') : Untouched w w' p := by
  unfold Log.World.beginOp at stepped
  split at stepped
  next waiting =>
    have other : p ≠ q := by
      rintro rfl
      rw [at_pc] at waiting
      rcases waiting with impossible | impossible
      · cases impossible
      · cases impossible
    split_ifs at stepped
    all_goals
      cases stepped
      exact ⟨rfl, Function.update_of_ne other _ _, rfl, rfl⟩
  next => cases stepped

theorem of_kill (asleep : w.pc q = .sleeping) : Untouched w (w.goto q .woken) p := by
  refine ⟨rfl, Function.update_of_ne ?_ _ _, rfl, rfl⟩
  rintro rfl
  rw [at_pc] at asleep
  cases asleep

theorem of_endOp (other : p ≠ q) (stepped : w.endOp q = some w') : Untouched w w' p := by
  unfold Log.World.endOp at stepped
  split at stepped
  next op' _ =>
    split_ifs at stepped
    · cases stepped
      exact ⟨rfl, Function.update_of_ne other _ _, rfl, rfl⟩
    · cases stepped
      refine ⟨rfl, ?_, rfl, rfl⟩
      have stays : (w.goto q .out).pc p = .inOp op := (Function.update_of_ne other _ _).trans at_pc
      show (if (w.goto q .out).pc p = .sleeping then Log.Pc.woken else (w.goto q .out).pc p) =
        w.pc p
      rw [stays, at_pc, if_neg (by simp)]
  next => cases stepped

omit at_pc in
theorem of_fetch {bs : List ℕ} (fetched : w.fetch bs = some w') : Untouched w w' p := by
  have seen := Log.fetch_bread fetched
  rcases Log.fetch_eq fetched with ⟨bufs, free, rfl⟩
  exact ⟨rfl, rfl, rfl, seen⟩

omit at_pc in
theorem trans {w'' : Log.World} (first : Untouched w w' p) (second : Untouched w' w'' p) :
    Untouched w w'' p :=
  ⟨second.boot.trans first.boot, second.pc.trans first.pc, second.disk.trans first.disk,
    second.bread.trans first.bread⟩

omit at_pc in
theorem of_recycle {b : ℕ} {data : Block} (inv : Log.Inv c base w)
    (cached : w.bufs b = some ⟨data, false⟩) :
    Untouched w { w with bufs := Function.update w.bufs b none, free := w.free + 1 } p := by
  refine ⟨rfl, rfl, rfl, ?_⟩
  funext b'
  by_cases same : b' = b
  · subst same
    simp [Log.World.bread, cached, inv.coherent b' data cached]
  · simp [Log.World.bread, Function.update_of_ne same]

/-- Nobody commits while an operation is open. -/
theorem not_commit (inv : Log.Inv c base w) (stepped : w.commit c q = some w') : False := by
  have quiet := inv.counted.committing_eq_false (p := p) (by rw [at_pc]; rfl)
  have outside := inv.counted.notCommits quiet q
  unfold Log.World.commit at stepped
  split at stepped
  next at_q => exact outside (by rw [at_q]; trivial)
  next at_q => exact outside (by rw [at_q]; trivial)
  next at_q => exact outside (by rw [at_q]; trivial)
  next at_q => exact outside (by rw [at_q]; trivial)
  next at_q => exact outside (by rw [at_q]; trivial)
  next at_q => exact outside (by rw [at_q]; trivial)
  next => cases stepped

end Untouched

namespace Tidy

variable {c : Log.Config} {sb : Superblock} {dev : Devsw} {base : Disk} {m m' : Machine}

/-- An action outside the running function leaves it alone. -/
theorem untouched_perform {act : Log.Act} {w w' : Log.World} {p op : ℕ} (inv : Log.Inv c base w)
    (up : w.boot = .up) (at_pc : w.pc p = .inOp op)
    (outside : ∀ q b data, act ≠ .logWriteTest q b ∧ act ≠ .logWrite q data ∧
      act ≠ .bwrite q b data ∧ act ≠ .endOp p) (notCrash : act ≠ .crash)
    (performed : Log.perform c w act = some w') : Untouched w w' p := by
  cases act with
  | crash => exact absurd rfl notCrash
  | recover =>
      have stuck : w.recoverFromLog c = some w' := performed
      simp [Log.World.recoverFromLog, up] at stuck
  | beginOp q =>
      simp only [Log.perform, Option.ite_none_right_eq_some] at performed
      exact Untouched.of_beginOp at_pc performed.2
  | kill q =>
      simp only [Log.perform, Option.ite_none_right_eq_some] at performed
      rcases performed with ⟨⟨_, asleep⟩, performed⟩
      cases performed
      exact Untouched.of_kill at_pc asleep
  | bread b =>
      simp only [Log.perform, Option.ite_none_right_eq_some] at performed
      rcases performed with ⟨_, performed⟩
      cases performed
      exact ⟨rfl, rfl, rfl, rfl⟩
  | recycle b =>
      simp only [Log.perform] at performed
      split at performed
      next buf cached =>
        rcases buf with ⟨data, dirty⟩
        cases dirty with
        | true => cases performed
        | false =>
            cases performed
            exact Untouched.of_recycle inv cached
      next => cases performed
  | logWriteTest q b => exact absurd rfl (outside q b (fun _ => 0)).1
  | logWrite q data => exact absurd rfl (outside q 0 data).2.1
  | bwrite q b data => exact absurd rfl (outside q b data).2.2.1
  | endOp q =>
      simp only [Log.perform, Option.ite_none_right_eq_some] at performed
      have other : p ≠ q := by
        rintro rfl
        exact (outside p 0 (fun _ => 0)).2.2.2 rfl
      exact Untouched.of_endOp at_pc other performed.2
  | commit q =>
      simp only [Log.perform, Option.ite_none_right_eq_some] at performed
      exact (Untouched.not_commit at_pc inv performed.2).elim

/-- A step outside the running function leaves it alone. -/
theorem untouched {act : Log.Act} {w : Log.World} (tidy : Tidy c base m)
    (outside : m.outside act = true) (notCrash : act ≠ .crash)
    (stepped : Log.step c m.w act = some w) {p : ℕ} {calls : List Call}
    (running : m.running = some (p, calls)) : Untouched m.w w p := by
  rcases tidy.running p calls running with ⟨up, ⟨op, at_pc⟩, _⟩
  rcases Option.bind_eq_some_iff.mp stepped with ⟨w₁, fetched, performed⟩
  have first : Untouched m.w w₁ p := Untouched.of_fetch fetched
  refine first.trans (untouched_perform (tidy.inv.fetch fetched) (first.boot.trans up)
    (first.pc.trans at_pc) (fun q b data => ⟨?_, ?_, ?_, ?_⟩) notCrash performed)
  all_goals
    rintro rfl
    simp [Machine.outside, running] at outside

theorem of_untouched {w : Log.World} (tidy : Tidy c base m) (inv : Log.Inv c base w)
    (untouched : ∀ p calls, m.running = some (p, calls) → Untouched m.w w p) :
    Tidy c base ⟨w, m.running⟩ := by
  refine ⟨inv, fun p calls running => ?_⟩
  rcases tidy.running p calls running with ⟨up, ⟨op, at_pc⟩, quiet⟩
  have same := untouched p calls running
  refine ⟨same.boot.trans up, ⟨op, same.pc.trans at_pc⟩, ?_⟩
  rw [same.disk, same.bread]
  exact quiet

/-- A step of the log. -/
theorem log {act : Log.Act} (tidy : Tidy c base m)
    (stepped : m.step c sb dev (.log act) = some m') : Tidy c base m' := by
  have facts : act ≠ .crash ∧ m.outside act = true ∧
      ∃ w, Log.step c m.w act = some w ∧ m' = ⟨w, m.running⟩ := by
    simp only [Machine.step] at stepped
    split at stepped
    next => cases stepped
    next act notCrash =>
      simp only [Option.ite_none_right_eq_some] at stepped
      rcases stepped with ⟨outside, mapped⟩
      rcases Option.map_eq_some_iff.mp mapped with ⟨w, logged, rfl⟩
      exact ⟨fun same => notCrash same, outside, w, logged, rfl⟩
  rcases facts with ⟨notCrash, outside, w, logged, rfl⟩
  have harmless : act.Quiet m.w ∧ act.roomy c m.w = true := by
    cases act <;> first | exact ⟨trivial, rfl⟩ | cases outside
  exact tidy.of_untouched (tidy.inv.step harmless.1 harmless.2 logged)
    fun p calls running => tidy.untouched outside notCrash logged running

/-! ## The calls of a running function -/

/-- `log_write` as a whole: the tests and the append. -/
theorem logWrite {w w' : Log.World} {p op b : ℕ} {data : Block} {calls : List Call}
    (inv : Log.Inv c base w) (up : w.boot = .up) (at_pc : w.pc p = .inOp op)
    (quiet : QuietCalls w.disk (Function.update w.bread b data) calls)
    (stepped : execCall c w p (.logWrite b data) = some w') :
    Tidy c base ⟨w', some (p, calls)⟩ := by
  rcases Option.bind_eq_some_iff.mp stepped with ⟨w₁, tested, appended⟩
  rw [Log.step_of_no_reads rfl, Log.perform, if_pos up] at tested
  have inv₁ := inv.logWriteTest up tested
  simp only [Log.World.logWriteTest, at_pc] at tested
  split_ifs at tested with full idle home
  cases tested
  have room : Log.hasRoom c (w.goto p (.logging op b)) p = true := by
    rw [not_or] at full
    simp only [Log.hasRoom, Log.World.goto, Function.update_self]
    refine decide_eq_true (Or.inr ?_)
    omega
  rcases Option.bind_eq_some_iff.mp appended with ⟨w₂, fetched, performed⟩
  have same : Untouched (w.goto p (.logging op b)) w₂ p := Untouched.of_fetch fetched
  have up₂ : w₂.boot = .up := same.boot.trans up
  have here : w₂.pc p = .logging op b := same.pc.trans (Function.update_self _ _ _)
  have room₂ : (Log.Act.logWrite p data).roomy c w₂ = true := Log.Act.roomy_of_fetch room fetched
  have appended₂ : w₂.logWrite p data = some w' := by
    simpa only [Log.perform, if_pos up₂] using performed
  have inv' := (inv₁.fetch fetched).logWrite up₂ room₂ appended₂
  simp only [Log.World.logWrite, here] at appended₂
  cases appended₂
  refine ⟨inv', ?_⟩
  rintro q calls' ⟨⟩
  refine ⟨up₂, ⟨op, Function.update_self _ _ _⟩, ?_⟩
  have disk : w₂.disk = w.disk := same.disk
  have seen : w₂.bread = w.bread := same.bread
  have view : (fun b' => Log.World.bread { w₂ with
      bufs := Function.update w₂.bufs b (some ⟨data, true⟩) } b') =
        Function.update w.bread b data := by
    funext b'
    by_cases same : b' = b
    · subst same
      simp [Log.World.bread]
    · rw [Function.update_of_ne same, ← seen]
      simp [Log.World.bread, Function.update_of_ne same]
  rw [← view, ← disk] at quiet
  exact quiet

/-- The next disk access of the call. -/
theorem next (tidy : Tidy c base m) (stepped : m.step c sb dev .next = some m') :
    Tidy c base m' := by
  simp only [Machine.step] at stepped
  split at stepped
  next => cases stepped
  next =>
    cases stepped
    exact ⟨tidy.inv, fun _ _ impossible => by cases impossible⟩
  next p call calls running =>
    rcases tidy.running p _ running with ⟨up, ⟨op, at_pc⟩, quiet⟩
    rcases Option.map_eq_some_iff.mp stepped with ⟨w, made, rfl⟩
    cases call with
    | bread b =>
        have same : Log.Inv c base w ∧ Untouched m.w w p := by
          rcases Option.bind_eq_some_iff.mp made with ⟨w₁, fetched, performed⟩
          simp only [Log.perform, Option.ite_none_right_eq_some] at performed
          rcases performed with ⟨_, performed⟩
          cases performed
          exact ⟨tidy.inv.fetch fetched, Untouched.of_fetch fetched⟩
        refine ⟨same.1, ?_⟩
        rintro q calls' ⟨⟩
        refine ⟨same.2.boot.trans up, ⟨op, same.2.pc.trans at_pc⟩, ?_⟩
        rw [same.2.disk, same.2.bread]
        exact quiet
    | brelse b =>
        cases made
        refine ⟨tidy.inv, ?_⟩
        rintro q calls' ⟨⟩
        exact ⟨up, ⟨op, at_pc⟩, quiet⟩
    | logWrite b data => exact logWrite tidy.inv up at_pc quiet made
    | bwrite b data =>
        rcases Option.bind_eq_some_iff.mp made with ⟨w₁, fetched, performed⟩
        have same : Untouched m.w w₁ p := Untouched.of_fetch fetched
        have up₁ : w₁.boot = .up := same.boot.trans up
        have at_pc₁ : w₁.pc p = .inOp op := same.pc.trans at_pc
        simp only [Log.perform, at_pc₁, Option.ite_none_right_eq_some] at performed
        cases performed.2
        rw [← same.disk, ← same.bread] at quiet
        rcases quiet with ⟨seen, onDisk, rest⟩
        refine ⟨(tidy.inv.fetch fetched).bwrite_same up₁ at_pc₁ seen onDisk, ?_⟩
        rintro q calls' ⟨⟩
        refine ⟨up₁, ⟨op, at_pc₁⟩, ?_⟩
        have disk : (w₁.bwrite b data).disk = w₁.disk := by
          rw [Log.World.bwrite, ← onDisk, Function.update_eq_self]
        have view : (w₁.bwrite b data).bread = w₁.bread := by
          funext b'
          by_cases same : b' = b
          · subst same
            rw [seen]
            simp [Log.World.bwrite, Log.World.bread]
          · simp [Log.World.bwrite, Log.World.bread, Function.update_of_ne same]
        rw [disk, view]
        exact rest

theorem step {e : Event} (tidy : Tidy c base m) (quiet : e.Quiet sb m)
    (stepped : m.step c sb dev e = some m') : Tidy c base m' := by
  cases e with
  | crash =>
      cases stepped
      exact tidy.crash
  | log act => exact tidy.log stepped
  | call p f => exact tidy.call quiet stepped
  | next => exact tidy.next stepped

theorem run (tidy : Tidy c base m) (run : ReflTransGen (QuietStep c sb dev) m m') :
    Tidy c base m' := by
  induction run with
  | refl => exact tidy
  | tail _ last ih =>
      rcases last with ⟨e, quiet, stepped⟩
      exact ih.step quiet stepped

end Tidy

/-! ## Crashes before the commit -/

/-- The machine as it is switched on. -/
def Machine.init (disk : Disk) : Machine := ⟨Log.World.init disk, none⟩

/-- A transaction begins here: nothing is logged and no commit is under way. -/
structure Begins (w : Log.World) : Prop where
  up : w.boot = .up
  quiet : w.committing = false
  lh : w.lh = []

/-- If the machine stops in `m`, recovery completes and restores what readers saw in `m₀`. -/
structure Restores (c : Log.Config) (m₀ m : Machine) : Prop where
  completes : ∃ w, ReflTransGen (Log.RecoverStep c) m.w.crash w ∧ w.boot = .up
  restored : ∀ w, ReflTransGen (Log.RecoverStep c) m.w.crash w → w.boot = .up →
    ∀ b ∈ c.Home, w.disk b = m₀.w.bread b

section Crash

variable {c : Log.Config} {sb : Superblock} {dev : Devsw} {base : Disk} {m₀ m : Machine}

/-- Recovery is no new commit. -/
theorem recoverFromLog_keeps {w w' : Log.World} (stepped : w.recoverFromLog c = some w') :
    w'.hist = w.hist ∧ w'.committing = w.committing := by
  unfold Log.World.recoverFromLog at stepped
  split at stepped
  · cases stepped
    exact ⟨rfl, rfl⟩
  · split at stepped
    · cases stepped
      exact ⟨rfl, rfl⟩
    · cases stepped
      exact ⟨rfl, rfl⟩
  · cases stepped
    exact ⟨rfl, rfl⟩
  · cases stepped

/-- Recovery keeps the history of the commits. -/
theorem recover_run {w w' : Log.World} (inv : Log.Inv c base w)
    (run : ReflTransGen (Log.RecoverStep c) w w') :
    Log.Inv c base w' ∧ w'.hist = w.hist ∧ w'.committing = w.committing := by
  induction run with
  | refl => exact ⟨inv, rfl, rfl⟩
  | tail _ last ih =>
      rcases ih with ⟨inv', hist, committing⟩
      rcases last with recovers | ⟨b, recycles⟩
      · rcases Option.bind_eq_some_iff.mp recovers with ⟨w₁, fetched, performed⟩
        have inv₁ := inv'.fetch fetched
        rcases Log.fetch_eq fetched with ⟨bufs, free, rfl⟩
        rcases recoverFromLog_keeps performed with ⟨hist', committing'⟩
        exact ⟨inv₁.recoverFromLog performed, hist'.trans hist, committing'.trans committing⟩
      · have inv₁ := inv'.step (show (Log.Act.recycle b).Quiet _ from trivial) rfl recycles
        rw [Log.step_of_no_reads rfl, Log.perform] at recycles
        split at recycles
        · split_ifs at recycles
          cases recycles
          exact ⟨inv₁, hist, committing⟩
        · cases recycles

/-- At the beginning of a transaction readers see what is committed. -/
theorem Begins.bread_eq {w : Log.World} (begins : Begins w) (inv : Log.Inv c base w) {b : ℕ}
    (home : b ∈ c.Home) : w.bread b = Log.contents base w.hist b := by
  have opened := inv.idle begins.up begins.quiet
  rw [inv.bread_eq_disk, inv.settled_of_open opened b home]
  intro data dirty
  have listed := opened.dirty b data dirty
  rw [begins.lh] at listed
  cases listed

/-- An operation that begins with an empty header and stops before its commit, at any of its disk
writes, leaves no trace: recovery restores what readers saw when it began, as long as the calls of
the run are quiet. -/
theorem restores_of_quiet_run {disk : Disk} (empty : Log.getHead (disk c.start) = [])
    (start : ReflTransGen (QuietStep c sb dev) (Machine.init disk) m₀) (begins : Begins m₀.w)
    (run : ReflTransGen (QuietStep c sb dev) m₀ m) (uncommitted : m.w.hist = m₀.w.hist) :
    Restores c m₀ m := by
  have initial : Tidy c disk (Machine.init disk) :=
    ⟨Log.Inv.init empty, fun _ _ impossible => by cases impossible⟩
  have before := initial.run start
  have after := before.run run
  refine ⟨?_, ?_⟩
  · rcases Log.crash_completes c m.w with ⟨w, recovery, up, _⟩
    exact ⟨w, recovery, up⟩
  · intro w recovery up b home
    rcases recover_run after.inv.crash recovery with ⟨inv, hist, committing⟩
    have hist' : w.hist = m₀.w.hist := hist.trans uncommitted
    rw [inv.settled_of_open (inv.idle up committing) b home, hist', begins.bread_eq before.inv home]

end Crash

/-! ## Executing runs -/

/-- Perform a sequence of events. -/
def runEvents (c : Log.Config) (sb : Superblock) (dev : Devsw) :
    Machine → List Event → Option Machine
  | m, [] => some m
  | m, e :: es => (m.step c sb dev e).bind fun m' => runEvents c sb dev m' es

/-- Events that can be carried out are a run. -/
theorem run_of_events {c : Log.Config} {sb : Superblock} {dev : Devsw} {es : List Event}
    {m m' : Machine} (executed : runEvents c sb dev m es = some m') :
    ReflTransGen (MachineStep c sb dev) m m' := by
  induction es generalizing m with
  | nil =>
      cases executed
      exact .refl
  | cons e es ih =>
      rcases Option.bind_eq_some_iff.mp executed with ⟨m₁, stepped, rest⟩
      exact .head ⟨e, stepped⟩ (ih rest)

/-- Events other than calls of `writei` meet the condition anyway. -/
theorem quiet_run_of_events {c : Log.Config} {sb : Superblock} {dev : Devsw} {es : List Event}
    {m m' : Machine} (quiet : ∀ e ∈ es, ∀ m, e.Quiet sb m)
    (executed : runEvents c sb dev m es = some m') : ReflTransGen (QuietStep c sb dev) m m' := by
  induction es generalizing m with
  | nil =>
      cases executed
      exact .refl
  | cons e es ih =>
      rcases Option.bind_eq_some_iff.mp executed with ⟨m₁, stepped, rest⟩
      exact .head ⟨e, quiet e List.mem_cons_self m, stepped⟩
        (ih (fun e' mem => quiet e' (List.mem_cons_of_mem e mem)) rest)

/-- Recovery at boot. -/
def bootEvents : List Event := List.replicate 3 (.log .recover)

/-- The log after boot from the disk of `mkfs`. -/
def bootWorld : Log.World :=
  { Log.World.init rootDisk with
    bufs := Function.update (fun _ => none) 2 (some ⟨rootDisk 2, false⟩)
    free := NBUF - 1
    boot := .up }

theorem bread_bootWorld : bootWorld.bread = rootDisk := by
  funext b
  by_cases header : b = 2
  · subst header
    rfl
  · simp [Log.World.bread, bootWorld, Log.World.init, Function.update_of_ne header]

/-- The first recovery finds an empty header. -/
theorem boot_rootDisk : runEvents .mkfs .mkfs noDevices (Machine.init rootDisk) bootEvents =
    some ⟨bootWorld, none⟩ := by
  have empty : Log.getHead (rootDisk 2) = [] := by decide +kernel
  have header : Log.putHead (rootDisk 2) [] = rootDisk 2 := by
    funext j
    revert j
    decide +kernel
  have start : Log.Config.mkfs.start = 2 := rfl
  simp [runEvents, bootEvents, List.replicate, Machine.step, Machine.outside, Machine.init,
    Log.step, Log.perform, Log.Act.reads, Log.World.recoverReads, Log.World.fetch, Log.World.bget,
    Log.World.recoverFromLog, Log.World.init, Log.World.bread, Log.World.writeHead,
    Log.World.bwrite, empty, header, start, bootWorld]

theorem Owned.single {ι : Type} {sb : Superblock} {blk : Disk} {ips : ι → Inode}
    (own : Owned sb blk ips) (i : ι) : Owned sb blk (single (ips i)) where
  layout := own.layout
  low := own.low
  inum := fun _ => own.inum i
  data := fun _ => own.data i
  used := fun _ => own.used i
  distinct := fun _ k _ l b first second => ⟨rfl, (own.distinct i k i l b first second).2⟩
  allocated := fun _ => own.allocated i

/-- Writing the entry `.` of the root again leaves the disk as it is. -/
theorem quietWrite_root :
    QuietWrite rootDisk ⟨.mkfs, rootDisk, []⟩ rootInode (Bytes.get rootBlock) 0 16 := by
  have first : ∀ k, Touches 0 16 k → k = 0 := by
    rintro k ⟨x, _, upper, rfl⟩
    simp only [BSIZE]
    omega
  have root : dinodes .mkfs rootDisk ⟨1, by decide⟩ = rootInode := by
    rw [dinodes, diskInode_rootDisk (by decide)]
    rfl
  have contents : rootDisk 59 = rootBlock := by
    rw [rootDisk, Function.update_of_ne (by decide), Function.update_self]
  refine Or.inr (Or.inr (Or.inr ⟨?_, ?_, ?_, ?_⟩))
  · rw [← root]
    exact consistent_rootDisk.owned.single _
  · intro k touch
    rw [first k touch, slot_rootInode]
    decide
  · intro k b touch refers
    rw [first k touch] at refers ⊢
    rw [← root] at refers
    rw [(ref_rootDisk refers).2.2, contents]
    funext x
    rw [overwrite]
    split
    · simp
    · rfl
  · intro checked
    cases checked

/-- The machine may stop while the entry `.` is written again. -/
theorem restores_rewritten : ∃ m₀ m, Begins m₀.w ∧ m.running.isSome ∧ m.w.cur.length = 1 ∧
    Restores .mkfs m₀ m := by
  have booted := quiet_run_of_events (by simp [bootEvents, Event.Quiet]) boot_rootDisk
  have rewritten : ((runEvents .mkfs .mkfs noDevices ⟨bootWorld, none⟩ [.log (.beginOp 0)]).bind
      fun m₁ => (m₁.step .mkfs .mkfs noDevices
      (.call 0 (.writei rootInode (Bytes.get rootBlock) 0 16))).bind
        fun m₂ => (runEvents .mkfs .mkfs noDevices m₂ [.next, .next, .next]).map fun m =>
          (m.running.isSome, m.w.cur.length, m.w.hist.length)) = some (true, 1, 0) := by
    decide +kernel
  rcases Option.bind_eq_some_iff.mp rewritten with ⟨m₁, opened, rewritten⟩
  rcases Option.bind_eq_some_iff.mp rewritten with ⟨m₂, called, rewritten⟩
  rcases Option.map_eq_some_iff.mp rewritten with ⟨m, made, observed⟩
  simp only [Prod.mk.injEq, List.length_eq_zero_iff] at observed
  rcases observed with ⟨running, logged, hist⟩
  have quiet : (Event.call 0 (.writei rootInode (Bytes.get rootBlock) 0 16)).Quiet .mkfs m₁ := by
    cases opened
    show QuietWrite rootDisk ⟨.mkfs, bootWorld.bread, []⟩ _ _ _ _
    rw [bread_bootWorld]
    exact quietWrite_root
  have run := ((quiet_run_of_events (by simp [Event.Quiet]) opened).tail ⟨_, quiet, called⟩).trans
    (quiet_run_of_events (by simp [Event.Quiet]) made)
  exact ⟨⟨bootWorld, none⟩, m, ⟨rfl, rfl, rfl⟩, running, logged,
    restores_of_quiet_run (by decide +kernel) booted ⟨rfl, rfl, rfl⟩ run hist⟩

/-- The entry of a file `a` with inode 2, as `dirlink` writes it. -/
def dirEntry : Mem := fun j => if j = 0 then 2 else if j = 2 then 0x61 else 0

/-- `dirlink` adds an entry to the root; the machine stops after the `bwrite` in `writei`. -/
def linkEvents : List Event :=
  [.log (.beginOp 0), .call 0 (.writei rootInode dirEntry 32 16), .next, .next, .next]

def isRecover : Log.Act → Bool
  | .recover => true
  | _ => false

theorem recover_of_execute {c : Log.Config} {acts : List Log.Act} {w w' : Log.World}
    (executed : Log.execute c (fun _ act => isRecover act) w acts = some w') :
    ReflTransGen (Log.RecoverStep c) w w' := by
  refine Log.run_of_execute ?_ executed
  intro w w' act allowed stepped
  cases act <;> first | exact Or.inl stepped | cases allowed

/-- The new entry is in the directory after recovery, although nothing was committed. -/
theorem not_restores_dirlink : ¬∀ (c : Log.Config) (sb : Superblock) (dev : Devsw) (disk : Disk)
    (m₀ m : Machine), Log.getHead (disk c.start) = [] →
    ReflTransGen (MachineStep c sb dev) (Machine.init disk) m₀ → Begins m₀.w →
    ReflTransGen (MachineStep c sb dev) m₀ m → m.w.hist = m₀.w.hist → Restores c m₀ m := by
  intro restores
  have outcome : ((runEvents .mkfs .mkfs noDevices (Machine.init rootDisk) bootEvents).bind
    fun m₀ =>
      (runEvents .mkfs .mkfs noDevices m₀ linkEvents).bind fun m =>
        (Log.execute .mkfs (fun _ act => isRecover act) m.w.crash (List.replicate 3 .recover)).map
          fun w => ((m₀.w.boot, m₀.w.committing, m₀.w.lh), (m.w.hist.length, m₀.w.hist.length),
            w.boot, w.disk 59 32, m₀.w.bread 59 32)) =
        some ((.up, false, []), (0, 0), .up, 2, 0) := by
    decide +kernel
  rcases Option.bind_eq_some_iff.mp outcome with ⟨m₀, booted, outcome⟩
  rcases Option.bind_eq_some_iff.mp outcome with ⟨m, linked, outcome⟩
  rcases Option.map_eq_some_iff.mp outcome with ⟨w, recovered, observed⟩
  simp only [Prod.mk.injEq, List.length_eq_zero_iff] at observed
  rcases observed with ⟨⟨up, quiet, lh⟩, ⟨hist, hist₀⟩, up', written, seen⟩
  have same := (restores .mkfs .mkfs noDevices rootDisk m₀ m (by decide +kernel)
    (run_of_events booted)
    ⟨up, quiet, lh⟩ (run_of_events linked) (hist.trans hist₀.symm)).restored w
      (recover_of_execute recovered) up' 59 (by decide)
  rw [same, seen] at written
  exact absurd written (by decide)

end Xv6.Fs
