import Xv6.Log.Crash
import Xv6.Lib.Runs

/-!
# Runs of the log

The runs considered here change home blocks through `log_write` only. In every
such run whose appends find room in the header, recovery restores exactly the
committed transactions, after any crash and however often it is interrupted.

Recovery completes although there are only `NBUF` buffers: all of them are
clean, so `bget` can recycle them.
-/

namespace Xv6.Log

open Relation

/-- File-system code writes no block to the disk itself. -/
def Act.logOnly : Act → Bool
  | .bwrite _ _ _ => false
  | _ => true

/-- A `bwrite` of file-system code changes neither the disk nor what readers see. -/
def Act.Quiet (w : World) : Act → Prop
  | .bwrite _ b data => w.bread b = data ∧ w.disk b = data
  | _ => True

theorem Act.quiet_of_logOnly {act : Act} (logOnly : act.logOnly = true) (w : World) :
    act.Quiet w := by
  cases act <;> trivial

/-- An append of `log_write` finds room in the header. -/
def Act.roomy (c : Config) (w : World) : Act → Bool
  | .logWrite p _ => hasRoom c w p
  | _ => true

/-- One step of a machine whose home blocks are modified only through `log_write`. -/
def LogStep (c : Config) (w w' : World) : Prop :=
  ∃ act : Act, act.logOnly = true ∧ step c w act = some w'

/-- A step that moreover leaves the header within its bounds. -/
def RoomyStep (c : Config) (w w' : World) : Prop :=
  ∃ act : Act, act.logOnly = true ∧ act.roomy c w = true ∧ step c w act = some w'

/-- One step of an undisturbed recovery, in which `bget` may recycle buffers. -/
def RecoverStep (c : Config) (w w' : World) : Prop :=
  step c w .recover = some w' ∨ ∃ b, step c w (.recycle b) = some w'

/--
What a state says about crashes: the next boot completes its recovery, a
recovery that completes leaves the committed transactions and nothing else in
the home blocks, and no operation is spread over two transactions.
-/
structure CrashAtomic (c : Config) (base : Disk) (w : World) : Prop where
  completes : ∃ w', ReflTransGen (RecoverStep c) w.crash w' ∧ w'.boot = .up ∧ w'.hist = w.hist
  recovered : ∀ w', step c w .recover = some w' → w'.boot = .up →
    ∀ b ∈ c.Home, w'.disk b = contents base w'.hist b
  single : (w.hist ++ [w.cur]).Pairwise Separate

/-- Every quiet action keeps the invariant, if the header has room. -/
theorem Inv.perform {c : Config} {base : Disk} {w w' : World} {act : Act} (inv : Inv c base w)
    (quiet : act.Quiet w) (roomy : act.roomy c w = true)
    (performed : Log.perform c w act = some w') : Inv c base w' := by
  cases act with
  | crash =>
      cases performed
      exact inv.crash
  | recover => exact inv.recoverFromLog performed
  | beginOp p =>
      simp only [Log.perform, Option.ite_none_right_eq_some] at performed
      exact inv.beginOp performed.1 performed.2
  | kill p =>
      simp only [Log.perform, Option.ite_none_right_eq_some] at performed
      rcases performed with ⟨⟨up, asleep⟩, performed⟩
      cases performed
      exact inv.kill up asleep
  | bread b =>
      simp only [Log.perform, Option.ite_none_right_eq_some] at performed
      rcases performed with ⟨_, performed⟩
      cases performed
      exact inv
  | recycle b =>
      simp only [Log.perform] at performed
      split at performed
      next buf cached =>
        rcases buf with ⟨data, dirty⟩
        cases dirty with
        | true => cases performed
        | false =>
            cases performed
            exact inv.recycle cached _
      next => cases performed
  | logWriteTest p b =>
      simp only [Log.perform, Option.ite_none_right_eq_some] at performed
      exact inv.logWriteTest performed.1 performed.2
  | logWrite p data =>
      simp only [Log.perform, Option.ite_none_right_eq_some] at performed
      exact inv.logWrite performed.1 roomy performed.2
  | bwrite p b data =>
      simp only [Log.perform] at performed
      split at performed
      next op at_pc =>
        simp only [Option.ite_none_right_eq_some] at performed
        rcases performed with ⟨⟨up, _⟩, performed⟩
        cases performed
        exact inv.bwrite_same up at_pc quiet.1 quiet.2
      next => cases performed
  | endOp p =>
      simp only [Log.perform, Option.ite_none_right_eq_some] at performed
      exact inv.endOp performed.1 performed.2
  | commit p =>
      simp only [Log.perform, Option.ite_none_right_eq_some] at performed
      exact inv.commit performed.1 performed.2

/-- The condition on an action does not depend on the buffers that it gets. -/
theorem Act.quiet_of_fetch {w w' : World} {bs : List ℕ} {act : Act} (quiet : act.Quiet w)
    (fetched : w.fetch bs = some w') : act.Quiet w' := by
  cases act with
  | bwrite p b data =>
      rw [Act.Quiet, fetch_bread fetched]
      rcases fetch_eq fetched with ⟨bufs, free, rfl⟩
      exact quiet
  | _ => trivial

theorem Act.roomy_of_fetch {c : Config} {w w' : World} {bs : List ℕ} {act : Act}
    (roomy : act.roomy c w = true) (fetched : w.fetch bs = some w') : act.roomy c w' = true := by
  rcases fetch_eq fetched with ⟨bufs, free, rfl⟩
  cases act <;> exact roomy

theorem Inv.step {c : Config} {base : Disk} {w w' : World} {act : Act} (inv : Inv c base w)
    (quiet : act.Quiet w) (roomy : act.roomy c w = true) (stepped : Log.step c w act = some w') :
    Inv c base w' := by
  rcases Option.bind_eq_some_iff.mp stepped with ⟨w₁, fetched, performed⟩
  exact (inv.fetch fetched).perform (Act.quiet_of_fetch quiet fetched)
    (Act.roomy_of_fetch roomy fetched) performed

theorem Inv.run {c : Config} {base : Disk} {w w' : World} (inv : Inv c base w)
    (run : ReflTransGen (RoomyStep c) w w') : Inv c base w' := by
  induction run with
  | refl => exact inv
  | tail _ last ih =>
      rcases last with ⟨act, logOnly, roomy, stepped⟩
      exact ih.step (Act.quiet_of_logOnly logOnly _) roomy stepped

/-! ## Recovery completes -/

/-- No buffer is dirty, so all of them can be recycled. -/
structure Spare (w : World) : Prop where
  pooled : ∃ cached, Pooled w cached
  clean : ∀ b data, w.bufs b ≠ some ⟨data, true⟩

theorem Spare.crash (w : World) : Spare w.crash where
  pooled := ⟨∅, .empty rfl rfl⟩
  clean := fun _ _ impossible => by cases impossible

/-- All clean buffers can be given back. -/
theorem recycle_all (c : Config) {w : World} (spare : Spare w) : ReflTransGen (RecoverStep c) w
    { w with bufs := fun _ => none, free := NBUF } := by
  rcases spare with ⟨⟨cached, pooled⟩, clean⟩
  generalize count : cached.card = n
  induction n generalizing w cached with
  | zero =>
      have none : w.bufs = fun _ => none := by
        funext b
        have absent : b ∉ cached := by
          rw [Finset.card_eq_zero.mp count]
          exact Finset.notMem_empty b
        rw [pooled.mem] at absent
        simpa using absent
      have free : w.free = NBUF := by
        have card := pooled.card
        omega
      rw [← none, ← free]
  | succ n ih =>
      have positive : 0 < cached.card := count ▸ n.succ_pos
      rcases Finset.card_pos.mp positive with ⟨b, mem⟩
      rcases Option.isSome_iff_exists.mp ((pooled.mem b).mp mem) with ⟨⟨data, dirty⟩, here⟩
      cases dirty with
      | true => exact absurd here (clean b data)
      | false =>
          have stepped : step c w (.recycle b) =
              some { w with bufs := Function.update w.bufs b none, free := w.free + 1 } := by
            simp [step, Act.reads, World.fetch, perform, here]
          refine .head (Or.inr ⟨b, stepped⟩) (ih ?_ _ (pooled.recycle (by rw [here]; rfl)) ?_)
          · intro b' data'
            by_cases same : b' = b
            · subst same
              simp
            · simpa [Function.update_of_ne same] using clean b' data'
          · rw [Finset.card_erase_of_mem mem, count, Nat.add_sub_cancel]

/-- Recovery never needs more buffers than there are. -/
theorem recoverReads_length (c : Config) (w : World) (boot : Boot) :
    (w.recoverReads c boot).length ≤ NBUF := by
  have two : 2 ≤ NBUF := by decide
  unfold World.recoverReads
  split
  · exact Nat.le_of_succ_le two
  · exact Nat.le_of_succ_le two
  · split
    · exact two
    · exact Nat.zero_le _
  · exact Nat.zero_le _

/-- Recovery leaves no dirty buffer. -/
theorem recoverFromLog_clean {c : Config} {w w' : World}
    (clean : ∀ b data, w.bufs b ≠ some ⟨data, true⟩) (stepped : w.recoverFromLog c = some w')
    (b : ℕ) (data : Block) : w'.bufs b ≠ some ⟨data, true⟩ := by
  have written : ∀ b' contents, (w.bwrite b' contents).bufs b ≠ some ⟨data, true⟩ := by
    intro b' contents
    by_cases same : b = b'
    · subst same
      simp [World.bwrite]
    · simpa [World.bwrite, Function.update_of_ne same] using clean b data
  unfold World.recoverFromLog at stepped
  split at stepped
  · cases stepped
    exact clean b data
  · split at stepped
    · cases stepped
      exact written _ _
    · cases stepped
      exact clean b data
  · cases stepped
    exact written _ _
  · cases stepped

/-- With all buffers recycled, the next step of the recovery gets those that it needs. -/
theorem Spare.recovers {w : World} (spare : Spare w) (c : Config) :
    ∃ bufs free, ∀ w', ({ w with bufs := bufs, free := free } : World).recoverFromLog c = some w' →
      ReflTransGen (RecoverStep c) w w' ∧ Spare w' := by
  have recycled := recycle_all c spare
  generalize emptied : ({ w with bufs := fun _ => none, free := NBUF } : World) = w₀ at recycled
  have spare₀ : Spare w₀ := by
    rw [← emptied]
    exact ⟨⟨∅, .empty rfl rfl⟩, fun _ _ impossible => by cases impossible⟩
  have enough : (w₀.recoverReads c w₀.boot).length ≤ w₀.free := by
    rw [← emptied]
    exact recoverReads_length _ _ _
  rcases fetch_of_free enough with ⟨w₁, fetched⟩
  rcases spare₀.pooled with ⟨cached, pooled⟩
  rcases pooled.fetch fetched with ⟨cached₁, pooled₁⟩
  have clean₁ : ∀ b data, w₁.bufs b ≠ some ⟨data, true⟩ :=
    fun b data dirty => spare₀.clean b data ((fetch_dirty fetched).mp dirty)
  have same : ∃ bufs free, w₁ = { w with bufs := bufs, free := free } := by
    rcases fetch_eq fetched with ⟨bufs, free, rfl⟩
    exact ⟨bufs, free, by rw [← emptied]⟩
  rcases same with ⟨bufs, free, rfl⟩
  refine ⟨bufs, free, fun w' recovers => ⟨?_, ?_, recoverFromLog_clean clean₁ recovers⟩⟩
  · refine recycled.tail (Or.inl ?_)
    rw [step, Act.reads, fetched]
    exact recovers
  · refine ⟨cached₁, pooled₁.congr (sameCached_recoverFromLog (fun b mem => ?_) recovers)⟩
    refine fetch_cached fetched ?_
    rw [← emptied]
    exact mem

theorem clearHead_completes (c : Config) {w : World} (spare : Spare w)
    (at_boot : w.boot = .clearHead) :
    ∃ w', ReflTransGen (RecoverStep c) w w' ∧ w'.boot = .up ∧ w'.hist = w.hist := by
  rcases spare.recovers c with ⟨bufs, free, recovers⟩
  have next : ∃ w', ({ w with bufs := bufs, free := free } : World).recoverFromLog c = some w' ∧
      w'.boot = .up ∧ w'.hist = w.hist := by
    simp [World.recoverFromLog, at_boot, World.writeHead, World.bwrite]
  rcases next with ⟨w', stepped, up, hist⟩
  exact ⟨w', (recovers w' stepped).1, up, hist⟩

/-- `install_trans` runs to its end: each step leaves fewer blocks to install. -/
theorem installTrans_completes (c : Config) {w : World} (spare : Spare w) {tail : ℕ}
    (at_boot : w.boot = .installTrans tail) :
    ∃ w', ReflTransGen (RecoverStep c) w w' ∧ w'.boot = .up ∧ w'.hist = w.hist := by
  generalize remaining : w.lh.length - tail = n
  induction n generalizing w tail with
  | zero =>
      have done : w.lh[tail]? = none := by
        rw [List.getElem?_eq_none_iff]
        omega
      rcases spare.recovers c with ⟨bufs, free, recovers⟩
      have next : ∃ w', ({ w with bufs := bufs, free := free } : World).recoverFromLog c = some w' ∧
          w'.boot = .clearHead ∧ w'.hist = w.hist := by
        simp [World.recoverFromLog, at_boot, done]
      rcases next with ⟨w₁, stepped, clearing, hist₁⟩
      rcases recovers w₁ stepped with ⟨run₁, spare₁⟩
      rcases clearHead_completes c spare₁ clearing with ⟨w', run, up, hist⟩
      exact ⟨w', run₁.trans run, up, hist.trans hist₁⟩
  | succ n ih =>
      have bound : tail < w.lh.length := by omega
      rcases spare.recovers c with ⟨bufs, free, recovers⟩
      have next : ∃ w', ({ w with bufs := bufs, free := free } : World).recoverFromLog c = some w' ∧
          w'.boot = .installTrans (tail + 1) ∧ w'.hist = w.hist ∧ w'.lh = w.lh := by
        simp [World.recoverFromLog, at_boot, List.getElem?_eq_getElem bound, World.installTrans,
          World.bwrite]
      rcases next with ⟨w₁, stepped, installing, hist₁, lh⟩
      rcases recovers w₁ stepped with ⟨run₁, spare₁⟩
      rcases ih spare₁ installing (by rw [lh]; omega) with ⟨w', run, up, hist⟩
      exact ⟨w', run₁.trans run, up, hist.trans hist₁⟩

/-- After a crash the recovery can come to its end, with the same commits. -/
theorem crash_completes (c : Config) (w : World) :
    ∃ w', ReflTransGen (RecoverStep c) w.crash w' ∧ w'.boot = .up ∧ w'.hist = w.hist := by
  rcases (Spare.crash w).recovers c with ⟨bufs, free, recovers⟩
  have next : ∃ w', ({ w.crash with bufs := bufs, free := free } : World).recoverFromLog c =
      some w' ∧ w'.boot = .installTrans 0 ∧ w'.hist = w.hist := by
    simp [World.recoverFromLog, World.crash]
  rcases next with ⟨w₁, stepped, installing, hist₁⟩
  rcases recovers w₁ stepped with ⟨run₁, spare₁⟩
  rcases installTrans_completes c spare₁ installing with ⟨w', run, up, hist⟩
  exact ⟨w', run₁.trans run, up, hist.trans hist₁⟩

/-- Recovery moves no process. -/
theorem recoverFromLog_pc {c : Config} {w w' : World} (stepped : w.recoverFromLog c = some w') :
    w'.pc = w.pc := by
  unfold World.recoverFromLog at stepped
  split at stepped
  · cases stepped
    rfl
  · split at stepped
    · cases stepped
      rfl
    · cases stepped
      rfl
  · cases stepped
    rfl
  · cases stepped

/-- The invariant says that a crash leads back to the last commit. -/
theorem Inv.crashAtomic {c : Config} {base : Disk} {w : World} (inv : Inv c base w) :
    CrashAtomic c base w where
  completes := crash_completes c w
  recovered := by
    intro w' stepped up
    rcases Option.bind_eq_some_iff.mp stepped with ⟨w₁, fetched, recovers⟩
    have inv₁ := inv.fetch fetched
    have inv' := inv₁.recoverFromLog recovers
    have quiet : w'.committing = false := by
      by_contra commits
      rcases inv'.counted.committing.mp (by simpa using commits) with ⟨p, commitsP⟩
      have booting : w₁.boot ≠ .up := by
        intro done
        have stuck : w₁.recoverFromLog c = some w' := recovers
        simp [World.recoverFromLog, done] at stuck
      have moved : w'.pc = w₁.pc := recoverFromLog_pc recovers
      rw [moved, inv₁.counted.booting booting p] at commitsP
      exact commitsP
    exact inv'.settled_of_open (inv'.idle up quiet)
  single := inv.ledger.separate

/--
Crash atomicity for a log of any size: every state is crash atomic if each append of the run
finds room in the header, as it does when the tests of `log_write` still hold.
-/
theorem crashAtomic_of_roomy_run {c : Config} {disk : Disk} (empty : getHead (disk c.start) = [])
    {w : World} (run : ReflTransGen (RoomyStep c) (World.init disk) w) : CrashAtomic c disk w :=
  ((Inv.init empty).run run).crashAtomic

/-! ## Executing runs -/

/-- Perform a sequence of actions, each of which must be allowed. -/
def execute (c : Config) (allowed : World → Act → Bool) (w : World) (acts : List Act) :
    Option World :=
  Runs.follow (fun w act => allowed w act = true) (step c) acts w

theorem run_of_execute {c : Config} {allowed : World → Act → Bool} {R : World → World → Prop}
    (permits : ∀ w w' act, allowed w act = true → step c w act = some w' → R w w')
    {acts : List Act} {w w' : World} (executed : execute c allowed w acts = some w') :
    ReflTransGen R w w' := by
  refine ReflTransGen.mono (fun w₁ w₂ performed => ?_) _ _ (Runs.run_of_follow executed)
  rcases performed with ⟨act, allowed_act, stepped⟩
  exact permits w₁ w₂ act allowed_act stepped

/-- `log_write` calls of process `p` on `count` blocks from `first` on, filling them with ones. -/
def logCalls (p first count : ℕ) : List Act :=
  (List.range count).flatMap fun i => [.logWriteTest p (first + i), .logWrite p fun _ => 1]

/-- The blank disk: every block is zero, so the header is empty. -/
def blank : Disk := fun _ _ => 0

/-- A log that is smaller than the buffer cache. -/
def Config.small : Config where
  start := 2
  size := 20
  size_pos := by decide
  fits := by decide

/--
With 18 blocks listed, processes 0 and 1 both pass the tests of `log_write` before either
appends, and there are 20 blocks for 19 places. The machine stops after the last block that
`write_log` copies, and recovers.
-/
def race : List Act :=
  List.replicate 3 .recover ++ [.beginOp 0, .beginOp 1] ++ logCalls 0 100 9 ++ logCalls 1 110 9 ++
    [.logWriteTest 0 130, .logWriteTest 1 131, .logWrite 0 fun _ => 1, .logWrite 1 fun _ => 1] ++
    [.endOp 0, .endOp 1, .commit 1] ++
    (List.range 20).flatMap (fun i => [.commit 1, .recycle (3 + i)]) ++
    [.crash] ++ List.replicate 2 .recover

/-- Where the log is smaller than the cache, the condition on the appends is needed. -/
theorem not_crashAtomic_race : ¬∀ w, ReflTransGen (LogStep .small) (World.init blank) w →
    CrashAtomic .small blank w := by
  intro atomic
  have outcome : ((execute .small (fun _ act => act.logOnly) (World.init blank) race).bind
      fun w => (step .small w .recover).map fun w' =>
        (w'.boot, w'.disk 22 0, w'.hist.length)) = some (.up, 1, 0) := by
    decide +kernel
  rcases Option.bind_eq_some_iff.mp outcome with ⟨w, executed, recovery⟩
  rcases Option.map_eq_some_iff.mp recovery with ⟨w', recovered, observed⟩
  simp only [Prod.mk.injEq, List.length_eq_zero_iff] at observed
  rcases observed with ⟨up, corrupted, uncommitted⟩
  have run : ReflTransGen (LogStep .small) (World.init blank) w := by
    apply run_of_execute _ executed
    intro w w' act allowed stepped
    exact ⟨act, allowed, stepped⟩
  have expected := (atomic w run).recovered w' recovered up 22 (by decide)
  rw [uncommitted] at expected
  rw [expected] at corrupted
  exact absurd corrupted (by decide)

end Xv6.Log
