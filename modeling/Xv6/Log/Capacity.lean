import Xv6.Log.Header
import Mathlib.Data.Finset.Card

/-!
# The buffer cache bounds a transaction

Two processes may pass the tests of `log_write` for the last slot of the log. Both append,
and the header then lists more blocks than the log area holds. But a listed block stays in
a dirty buffer until it is installed, and there are no more buffers than slots: where the
log has `LOGSIZE` blocks, as `mkfs` makes it, all buffers are dirty by then, and `bread` of
the first log block finds no buffer to recycle. `write_log` panics before it has written
anything, and the next boot finds the disk as the last commit left it.
-/

namespace Xv6.Log

open Relation

variable {c : Config} {base : Disk} {w w' : World} {p : ℕ}

/-! ## Listed blocks are in dirty buffers -/

/-- Until it is installed, a listed block is in a dirty buffer. -/
def Pinned (w : World) : Prop :=
  w.boot = .up → (∀ p tail, w.pc p ≠ .installTrans tail) →
    ∀ b ∈ w.lh, ∃ data, w.bufs b = some ⟨data, true⟩

namespace Pinned

/-- What does not touch the header and its buffers keeps them pinned. -/
theorem congr (pinned : Pinned w) (boot : w'.boot = w.boot) (lh : w'.lh = w.lh)
    (kept : ∀ b ∈ w.lh, ∀ data, w.bufs b = some ⟨data, true⟩ →
      ∃ data, w'.bufs b = some ⟨data, true⟩)
    (installs : ∀ p tail, w.pc p = .installTrans tail → w'.pc p = .installTrans tail) :
    Pinned w' := by
  intro up outside b mem
  rw [boot] at up
  rw [lh] at mem
  rcases pinned up (fun p tail at_pc => outside p tail (installs p tail at_pc)) b mem with
    ⟨data, dirty⟩
  exact kept b mem data dirty

/-- A process that installs nothing moves. -/
theorem of_goto (pinned : Pinned w) {pc : Pc} (boot : w'.boot = w.boot) (lh : w'.lh = w.lh)
    (bufs : w'.bufs = w.bufs) (moved : w'.pc = Function.update w.pc p pc)
    (outside : ∀ tail, w.pc p ≠ .installTrans tail) : Pinned w' := by
  refine pinned.congr boot lh (fun b _ data dirty => ⟨data, bufs ▸ dirty⟩) fun q tail at_pc => ?_
  have other : q ≠ p := by
    rintro rfl
    exact outside tail at_pc
  rw [moved, Function.update_of_ne other, at_pc]

/-- The same, where the process wakes the sleepers up. -/
theorem of_wakeup (pinned : Pinned w) {pc : Pc} (boot : w'.boot = w.boot) (lh : w'.lh = w.lh)
    (bufs : w'.bufs = w.bufs) (moved : w'.pc = (w.goto p pc).wakeup.pc)
    (outside : ∀ tail, w.pc p ≠ .installTrans tail) : Pinned w' := by
  refine pinned.congr boot lh (fun b _ data dirty => ⟨data, bufs ▸ dirty⟩) fun q tail at_pc => ?_
  have other : q ≠ p := by
    rintro rfl
    exact outside tail at_pc
  rw [moved]
  simp [World.wakeup, World.goto, other, at_pc]

theorem of_empty (lh : w.lh = []) : Pinned w := by
  intro _ _ b mem
  rw [lh] at mem
  cases mem

theorem of_down (down : w.boot ≠ .up) : Pinned w := fun up => absurd up down

theorem of_installTrans {tail : ℕ} (at_pc : w.pc p = .installTrans tail) : Pinned w :=
  fun _ outside => absurd at_pc (outside p tail)

theorem fetch (pinned : Pinned w) {bs : List ℕ} (fetched : w.fetch bs = some w') : Pinned w' := by
  have kept : ∀ b ∈ w.lh, ∀ data, w.bufs b = some ⟨data, true⟩ →
      ∃ data, w'.bufs b = some ⟨data, true⟩ :=
    fun b _ data dirty => ⟨data, (fetch_dirty fetched).mpr dirty⟩
  rcases fetch_eq fetched with ⟨bufs, free, rfl⟩
  exact pinned.congr rfl rfl kept fun _ _ at_pc => at_pc

theorem logWrite (pinned : Pinned w) {data : Block} (stepped : w.logWrite p data = some w') :
    Pinned w' := by
  unfold World.logWrite at stepped
  split at stepped
  next op b at_pc =>
    cases stepped
    intro up outside b' mem
    by_cases same : b' = b
    · subst same
      exact ⟨data, by simp⟩
    · have old : b' ∈ w.lh := by
        change b' ∈ (if b ∈ w.lh then w.lh else w.lh ++ [b]) at mem
        split at mem
        · exact mem
        · rcases List.mem_append.mp mem with old | new
          · exact old
          · exact absurd (List.mem_singleton.mp new) same
      have before : ∀ q tail, w.pc q ≠ .installTrans tail := by
        intro q tail installs
        have other : q ≠ p := by
          rintro rfl
          rw [at_pc] at installs
          cases installs
        refine outside q tail ?_
        simpa [World.goto, other] using installs
      rcases pinned up before b' old with ⟨data', dirty⟩
      exact ⟨data', by simpa [Function.update_of_ne same] using dirty⟩
  next => cases stepped

/-- `write_log` copies into the log area, where no listed block is. -/
theorem writeLog (pinned : Pinned w) (opened : Open c base w) {tail : ℕ}
    (at_pc : w.pc p = .writeLog tail) (bound : tail < w.lh.length) {data : Block} {pc : Pc} :
    Pinned ((w.bwrite (c.start + tail + 1) data).goto p pc) := by
  refine pinned.congr rfl rfl (fun b mem data' dirty => ⟨data', ?_⟩) fun q tail' installs => ?_
  · have inside := opened.room.2
    have apart := Config.ne_slot (opened.home b mem).1 (i := tail) (by omega)
    simpa [World.goto, World.bwrite, Function.update_of_ne apart] using dirty
  · have other : q ≠ p := by
      rintro rfl
      rw [at_pc] at installs
      cases installs
    simpa [World.goto, World.bwrite, other] using installs

theorem commit (pinned : Pinned w) (inv : Inv c base w) (up : w.boot = .up)
    (stepped : w.commit c p = some w') : Pinned w' := by
  have stage := inv.stage up p
  unfold World.commit at stepped
  split at stepped
  next at_pc =>
    have outside : ∀ tail, w.pc p ≠ .installTrans tail := by simp [at_pc]
    split_ifs at stepped
    · cases stepped
      exact pinned.of_goto rfl rfl rfl rfl outside
    · cases stepped
      exact pinned.of_goto rfl rfl rfl rfl outside
  next tail at_pc =>
    rw [at_pc] at stage
    split at stepped
    next b listed =>
      cases stepped
      exact pinned.writeLog stage.1 at_pc (List.getElem?_eq_some_iff.mp listed).1
    next =>
      cases stepped
      exact pinned.of_goto rfl rfl rfl rfl (by simp [at_pc])
  next at_pc =>
    cases stepped
    exact of_installTrans (p := p) (show _ = Pc.installTrans 0 by simp [World.goto])
  next tail at_pc =>
    split at stepped
    · cases stepped
      exact of_installTrans (p := p) (show _ = Pc.installTrans (tail + 1) by simp [World.goto])
    · cases stepped
      exact of_empty rfl
  next at_pc =>
    rw [at_pc] at stage
    cases stepped
    exact of_empty stage.lh
  next at_pc =>
    cases stepped
    exact pinned.of_wakeup rfl rfl rfl rfl (by simp [at_pc])
  next => cases stepped

/-- Recovery pins nothing. -/
theorem recoverFromLog (inv : Inv c base w) (stepped : w.recoverFromLog c = some w') :
    Pinned w' := by
  have stage := inv.boot
  unfold World.recoverFromLog at stepped
  split at stepped
  next =>
    cases stepped
    exact of_down (by simp)
  next =>
    split at stepped
    · cases stepped
      exact of_down (by simp)
    · cases stepped
      exact of_down (by simp)
  next at_boot =>
    rw [at_boot] at stage
    cases stepped
    exact of_empty stage.lh
  next => cases stepped

theorem perform (pinned : Pinned w) (inv : Inv c base w) {act : Act} (logOnly : act.logOnly = true)
    (performed : Log.perform c w act = some w') : Pinned w' := by
  cases act with
  | crash =>
      cases performed
      exact of_down (by simp [World.crash])
  | recover => exact recoverFromLog inv performed
  | beginOp p =>
      simp only [Log.perform, World.beginOp, Option.ite_none_right_eq_some] at performed
      rcases performed with ⟨_, waiting, performed⟩
      have outside : ∀ tail, w.pc p ≠ .installTrans tail := by
        intro tail
        rcases waiting with out | woken
        · simp [out]
        · simp [woken]
      split_ifs at performed
      all_goals
        cases performed
        exact pinned.of_goto rfl rfl rfl rfl outside
  | kill p =>
      simp only [Log.perform, Option.ite_none_right_eq_some] at performed
      rcases performed with ⟨⟨_, asleep⟩, performed⟩
      cases performed
      exact pinned.of_goto rfl rfl rfl rfl (by simp [asleep])
  | bread b =>
      simp only [Log.perform, Option.ite_none_right_eq_some] at performed
      rcases performed with ⟨_, performed⟩
      cases performed
      exact pinned
  | recycle b =>
      simp only [Log.perform] at performed
      split at performed
      next buf cached =>
        split_ifs at performed with clean
        cases performed
        refine pinned.congr rfl rfl (fun b' _ data dirty => ⟨data, ?_⟩) fun _ _ at_pc => at_pc
        have other : b' ≠ b := by
          rintro rfl
          rw [cached] at dirty
          cases dirty
          exact clean rfl
        simpa [Function.update_of_ne other] using dirty
      next => cases performed
  | logWriteTest p b =>
      simp only [Log.perform, World.logWriteTest, Option.ite_none_right_eq_some] at performed
      rcases performed with ⟨_, performed⟩
      split at performed
      next op at_pc =>
        split_ifs at performed
        cases performed
        exact pinned.of_goto rfl rfl rfl rfl (by simp [at_pc])
      next => cases performed
  | logWrite p data =>
      simp only [Log.perform, Option.ite_none_right_eq_some] at performed
      exact pinned.logWrite performed.2
  | bwrite p b data => cases logOnly
  | endOp p =>
      simp only [Log.perform, World.endOp, Option.ite_none_right_eq_some] at performed
      rcases performed with ⟨_, performed⟩
      split at performed
      next op at_pc =>
        have outside : ∀ tail, w.pc p ≠ .installTrans tail := by simp [at_pc]
        split_ifs at performed
        · cases performed
          exact pinned.of_goto rfl rfl rfl rfl outside
        · cases performed
          exact pinned.of_wakeup rfl rfl rfl rfl outside
      next => cases performed
  | commit p =>
      simp only [Log.perform, Option.ite_none_right_eq_some] at performed
      exact pinned.commit inv performed.1 performed.2

end Pinned

/-! ## Too many listed blocks -/

/--
Every buffer is dirty and holds a listed block. Nothing can be read any more, so a commit
does not get past the first iteration of `write_log`.
-/
structure Overfull (c : Config) (base : Disk) (w : World) : Prop where
  counted : Counted w
  ledger : Ledger w
  recoverable : Recoverable c base w
  up : w.boot = .up
  home : ∀ b ∈ w.lh, b ∈ c.Home
  listed : w.lh ≠ []
  full : w.free = 0
  dirty : ∀ b buf, w.bufs b = some buf → b ∈ w.lh ∧ buf.dirty = true
  early : ∀ p, (w.pc p).Commits → w.pc p = .commit ∨ w.pc p = .writeLog 0

namespace Overfull

/-- A block that is not listed cannot be read: `panic("bget: no buffers")`. -/
theorem fetch (stuck : Overfull c base w) {bs : List ℕ} (fetched : w.fetch bs = some w') :
    w' = w ∧ ∀ b ∈ bs, b ∈ w.lh := by
  induction bs with
  | nil =>
      cases fetched
      exact ⟨rfl, fun _ impossible => by cases impossible⟩
  | cons b bs ih =>
      rcases Option.bind_eq_some_iff.mp fetched with ⟨w₁, got, rest⟩
      unfold World.bget at got
      split_ifs at got with cached none
      · cases got
        rcases ih rest with ⟨same, listed⟩
        rcases Option.isSome_iff_exists.mp cached with ⟨buf, here⟩
        refine ⟨same, fun b' mem => ?_⟩
        rcases List.mem_cons.mp mem with rfl | later
        · exact (stuck.dirty b' buf here).1
        · exact listed b' later
      · exact absurd stuck.full none

/-- A process moves, and no commit gets past its first iteration. -/
theorem moved (stuck : Overfull c base w) (counted : Counted w') (ledger : Ledger w')
    (disk : w'.disk = w.disk) (hist : w'.hist = w.hist) (boot : w'.boot = w.boot)
    (lh : w'.lh = w.lh) (bufs : w'.bufs = w.bufs) (free : w'.free = w.free)
    (early : ∀ q, (w'.pc q).Commits → w'.pc q = .commit ∨ w'.pc q = .writeLog 0) :
    Overfull c base w' where
  counted := counted
  ledger := ledger
  recoverable := stuck.recoverable.congr disk hist
  up := boot.trans stuck.up
  home := by
    rw [lh]
    exact stuck.home
  listed := by
    rw [lh]
    exact stuck.listed
  full := free.trans stuck.full
  dirty := by
    rw [bufs, lh]
    exact stuck.dirty
  early := early

/-- A commit that has not begun to write has not got further. -/
theorem early_goto (stuck : Overfull c base w) {pc : Pc}
    (early : pc.Commits → pc = .commit ∨ pc = .writeLog 0) (q : ℕ)
    (commits : ((w.goto p pc).pc q).Commits) :
    (w.goto p pc).pc q = .commit ∨ (w.goto p pc).pc q = .writeLog 0 := by
  by_cases same : q = p
  · subst same
    simp only [World.goto, Function.update_self] at commits ⊢
    exact early commits
  · simp only [World.goto, Function.update_of_ne same] at commits ⊢
    exact stuck.early q commits

theorem beginOp (stuck : Overfull c base w) (counted : Counted w')
    (stepped : w.beginOp p = some w') : Overfull c base w' := by
  have ledger := stuck.ledger.beginOp stepped
  unfold World.beginOp at stepped
  split_ifs at stepped
  all_goals
    cases stepped
    exact stuck.moved counted ledger rfl rfl rfl rfl rfl rfl (stuck.early_goto fun impossible => by
      cases impossible)

theorem logWrite (stuck : Overfull c base w) (counted : Counted w') {data : Block}
    (here : ∀ op b, w.pc p = .logging op b → b ∈ w.lh) (stepped : w.logWrite p data = some w') :
    Overfull c base w' := by
  have ledger := stuck.ledger.logWrite stepped
  unfold World.logWrite at stepped
  split at stepped
  next op b at_pc =>
    cases stepped
    have listed := here op b at_pc
    have lh : (if b ∈ w.lh then w.lh else w.lh ++ [b]) = w.lh := if_pos listed
    refine ⟨counted, ledger, stuck.recoverable.congr rfl rfl, stuck.up, ?_, ?_, stuck.full, ?_,
      stuck.early_goto fun impossible => by cases impossible⟩
    · change ∀ b' ∈ (if b ∈ w.lh then w.lh else w.lh ++ [b]), _
      rw [lh]
      exact stuck.home
    · change (if b ∈ w.lh then w.lh else w.lh ++ [b]) ≠ []
      rw [lh]
      exact stuck.listed
    · intro b' buf cached
      change b' ∈ (if b ∈ w.lh then w.lh else w.lh ++ [b]) ∧ _
      rw [lh]
      change Function.update w.bufs b (some ⟨data, true⟩) b' = some buf at cached
      by_cases same : b' = b
      · subst same
        rw [Function.update_self] at cached
        cases cached
        exact ⟨listed, rfl⟩
      · rw [Function.update_of_ne same] at cached
        exact stuck.dirty b' buf cached
  next => cases stepped

theorem endOp (stuck : Overfull c base w) (counted : Counted w') (stepped : w.endOp p = some w') :
    Overfull c base w' := by
  have ledger := stuck.ledger.endOp stepped
  unfold World.endOp at stepped
  split at stepped
  · split_ifs at stepped
    · cases stepped
      exact stuck.moved counted ledger rfl rfl rfl rfl rfl rfl
        (stuck.early_goto fun _ => Or.inl rfl)
    · cases stepped
      refine stuck.moved counted ledger rfl rfl rfl rfl rfl rfl fun q commits => ?_
      have awake := (Counted.wakeup_commits _ q).mp commits
      rcases stuck.early_goto (fun impossible => by cases impossible) q awake with at_pc | at_pc
      · exact Or.inl (by simp [World.wakeup, at_pc])
      · exact Or.inr (by simp [World.wakeup, at_pc])
  · cases stepped

/-- The first log block is not listed, so the copy to it does not begin. -/
theorem commit (stuck : Overfull c base w) (counted : Counted w')
    (here : ∀ b ∈ w.commitReads c (w.pc p), b ∈ w.lh) (stepped : w.commit c p = some w')
    (size : 1 < c.size) : Overfull c base w' := by
  have ledger := stuck.ledger.commit stuck.counted stepped
  have commits : (w.pc p).Commits := by
    by_contra outside
    unfold World.commit at stepped
    split at stepped <;> simp_all [Pc.Commits]
  rcases stuck.early p commits with at_pc | at_pc
  · have some : w.lh.length > 0 := List.length_pos_of_ne_nil stuck.listed
    simp only [World.commit, at_pc, if_pos some] at stepped
    cases stepped
    exact stuck.moved counted ledger rfl rfl rfl rfl rfl rfl
      (stuck.early_goto fun _ => Or.inr rfl)
  · exfalso
    rcases List.exists_cons_of_ne_nil stuck.listed with ⟨b, rest, listed⟩
    have slot : c.start + 0 + 1 ∈ w.lh := by
      apply here
      rw [at_pc, World.commitReads, listed]
      exact List.mem_cons_self
    exact Config.slot_notMem_home (by omega) (stuck.home _ slot)

theorem perform (stuck : Overfull c base w) {act : Act} (logOnly : act.logOnly = true)
    (size : 1 < c.size) (here : ∀ b ∈ act.reads c w, b ∈ w.lh)
    (performed : Log.perform c w act = some w') : Overfull c base w' ∨ act = .crash := by
  have counted := stuck.counted.perform performed
  cases act with
  | crash => exact Or.inr rfl
  | recover =>
      simp [Log.perform, World.recoverFromLog, stuck.up] at performed
  | beginOp p =>
      simp only [Log.perform, Option.ite_none_right_eq_some] at performed
      exact Or.inl (stuck.beginOp counted performed.2)
  | kill p =>
      simp only [Log.perform, Option.ite_none_right_eq_some] at performed
      rcases performed with ⟨_, performed⟩
      cases performed
      refine Or.inl (stuck.moved counted ?_ rfl rfl rfl rfl rfl rfl
        (stuck.early_goto fun impossible => by cases impossible))
      exact stuck.ledger.goto rfl rfl rfl rfl fun _ impossible => by cases impossible
  | bread b =>
      simp only [Log.perform, Option.ite_none_right_eq_some] at performed
      rcases performed with ⟨_, performed⟩
      cases performed
      exact Or.inl stuck
  | recycle b =>
      simp only [Log.perform] at performed
      split at performed
      next buf cached =>
        rw [(stuck.dirty b buf cached).2] at performed
        cases performed
      next => cases performed
  | logWriteTest p b =>
      simp only [Log.perform, World.logWriteTest, Option.ite_none_right_eq_some] at performed
      rcases performed with ⟨_, performed⟩
      split at performed
      next op at_pc =>
        split_ifs at performed
        cases performed
        refine Or.inl (stuck.moved counted ?_ rfl rfl rfl rfl rfl rfl
          (stuck.early_goto fun impossible => by cases impossible))
        refine stuck.ledger.goto rfl rfl rfl rfl fun op' same => ?_
        rw [at_pc]
        exact same
      next => cases performed
  | logWrite p data =>
      simp only [Log.perform, Option.ite_none_right_eq_some] at performed
      refine Or.inl (stuck.logWrite counted (fun op b at_pc => here b ?_) performed.2)
      simp [Act.reads, at_pc]
  | bwrite p b data => cases logOnly
  | endOp p =>
      simp only [Log.perform, Option.ite_none_right_eq_some] at performed
      exact Or.inl (stuck.endOp counted performed.2)
  | commit p =>
      simp only [Log.perform, Option.ite_none_right_eq_some] at performed
      exact Or.inl (stuck.commit counted here performed.2 size)

/-- Only a crash leads out of this state. -/
theorem step (stuck : Overfull c base w) {act : Act} (logOnly : act.logOnly = true)
    (size : 1 < c.size) (stepped : Log.step c w act = some w') :
    Overfull c base w' ∨ w' = w.crash := by
  rcases Option.bind_eq_some_iff.mp stepped with ⟨w₁, fetched, performed⟩
  rcases stuck.fetch fetched with ⟨same, here⟩
  rw [same] at performed
  rcases stuck.perform logOnly size here performed with stuck' | rfl
  · exact Or.inl stuck'
  · cases performed
    exact Or.inr rfl

theorem crashAtomic (stuck : Overfull c base w) : CrashAtomic c base w where
  completes := crash_completes c w
  recovered := by
    intro w' stepped
    rcases Option.bind_eq_some_iff.mp stepped with ⟨w₁, fetched, recovers⟩
    rw [(stuck.fetch fetched).1] at recovers
    simp [Log.perform, World.recoverFromLog, stuck.up] at recovers
  single := stuck.ledger.separate

/-- As many listed blocks as there are buffers leave no buffer to anything else. -/
theorem full_of_pinned {cached : Finset ℕ} (pooled : Pooled w cached) (nodup : w.lh.Nodup)
    (dirty : ∀ b ∈ w.lh, ∃ data, w.bufs b = some ⟨data, true⟩) (long : NBUF ≤ w.lh.length) :
    w.free = 0 ∧ ∀ b buf, w.bufs b = some buf → b ∈ w.lh ∧ buf.dirty = true := by
  have sub : w.lh.toFinset ⊆ cached := by
    intro b mem
    rcases dirty b (List.mem_toFinset.mp mem) with ⟨data, here⟩
    rw [pooled.mem, here]
    rfl
  have count := List.toFinset_card_of_nodup nodup
  have less := Finset.card_le_card sub
  have card := pooled.card
  have same : w.lh.toFinset = cached := Finset.eq_of_subset_of_card_le sub (by omega)
  refine ⟨by omega, fun b buf here => ?_⟩
  have mem : b ∈ w.lh := by
    rw [← List.mem_toFinset, same, pooled.mem, here]
    rfl
  rcases dirty b mem with ⟨data, here'⟩
  rw [here] at here'
  cases here'
  exact ⟨mem, rfl⟩

/-- The append for which there was no room leaves a full cache behind. -/
theorem of_logWrite (inv : Inv c base w) (up : w.boot = .up) (whole : LOGSIZE ≤ c.size)
    {data : Block} (noRoom : hasRoom c w p = false) (stepped : w.logWrite p data = some w')
    (filled : Filled w') (pinned : Pinned w') {cached : Finset ℕ} (pooled : Pooled w' cached) :
    Overfull c base w' := by
  have counted := inv.counted.logWrite up stepped
  have ledger := inv.ledger.logWrite stepped
  unfold World.logWrite at stepped
  split at stepped
  next op b at_pc =>
    have quiet : w.committing = false :=
      inv.counted.committing_eq_false (p := p) (by rw [at_pc]; rfl)
    simp only [hasRoom, at_pc, decide_eq_false_iff_not, not_or, not_and] at noRoom
    rcases noRoom with ⟨unlisted, noSlot⟩
    have opened := inv.idle up quiet
    rw [if_neg unlisted] at stepped
    have long : NBUF ≤ (w.lh ++ [b]).length := by
      simp only [NBUF, LOGSIZE, MAXOPBLOCKS, List.length_append, List.length_singleton] at *
      omega
    cases stepped
    have outside : ∀ q, ¬((w.goto p (.inOp op)).pc q).Commits := counted.notCommits quiet
    have full := full_of_pinned pooled (filled.listed up quiet).nodup
      (pinned up fun q tail installs => outside q (by
        rw [show (w.goto p (.inOp op)).pc q = .installTrans tail from installs]
        trivial)) long
    refine ⟨counted, ledger, inv.recoverable.congr rfl rfl, up, ?_, by simp, full.1, full.2,
      fun q commits => absurd commits (outside q)⟩
    intro b' mem
    rcases List.mem_append.mp mem with old | new
    · exact (opened.home b' old).1
    · rw [List.mem_singleton.mp new]
      exact (inv.target p op b at_pc).1
  next => cases stepped

end Overfull

/-! ## Runs -/

/-- The log works, or it is about to panic. -/
inductive Holds (c : Config) (base : Disk) (w : World) : Prop where
  | works (inv : Inv c base w) (pinned : Pinned w)
  | stuck (overfull : Overfull c base w)

theorem Holds.crashAtomic (holds : Holds c base w) : CrashAtomic c base w := by
  cases holds with
  | works inv _ => exact inv.crashAtomic
  | stuck overfull => exact overfull.crashAtomic

/-- Every step keeps the invariant, or the log has overflown and the machine waits for a crash. -/
theorem Holds.step (holds : Holds c base w) (whole : LOGSIZE ≤ c.size) {act : Act}
    (logOnly : act.logOnly = true) (stepped : Log.step c w act = some w') (filled : Filled w')
    {cached : Finset ℕ} (pooled : Pooled w' cached) : Holds c base w' := by
  cases holds with
  | works inv pinned =>
      rcases Option.bind_eq_some_iff.mp stepped with ⟨w₁, fetched, performed⟩
      have inv₁ := inv.fetch fetched
      have pinned' := (pinned.fetch fetched).perform inv₁ logOnly performed
      by_cases roomy : act.roomy c w₁ = true
      · exact .works (inv₁.perform (Act.quiet_of_logOnly logOnly w₁) roomy performed) pinned'
      · cases act with
        | logWrite p data =>
            simp only [perform, Option.ite_none_right_eq_some] at performed
            have noRoom : hasRoom c w₁ p = false := by simpa [Act.roomy] using roomy
            exact .stuck (.of_logWrite inv₁ performed.1 whole noRoom performed.2 filled pinned'
              pooled)
        | _ => exact absurd rfl roomy
  | stuck overfull =>
      have size : 1 < c.size := lt_of_lt_of_le (by decide) whole
      rcases overfull.step logOnly size stepped with overfull' | rfl
      · exact .stuck overfull'
      · exact .works (.of_crash overfull.ledger overfull.recoverable)
          (Pinned.of_down (by simp [World.crash]))

/-- The invariant holds in every state of every run. -/
theorem holds_of_run {disk : Disk} (whole : LOGSIZE ≤ c.size)
    (empty : getHead (disk c.start) = []) (run : ReflTransGen (LogStep c) (World.init disk) w) :
    Holds c disk w ∧ Counted w ∧ Filled w ∧ ∃ cached, Pooled w cached := by
  induction run with
  | refl =>
      exact ⟨.works (Inv.init empty) (Pinned.of_down (by simp [World.init])), Counted.init disk,
        Filled.init disk, ∅, .empty rfl rfl⟩
  | tail _ last ih =>
      rcases last with ⟨act, logOnly, stepped⟩
      rcases ih with ⟨holds, counted, filled, cached, pooled⟩
      have filled' := filled.step counted stepped
      rcases pooled.step stepped with ⟨cached', pooled'⟩
      exact ⟨holds.step whole logOnly stepped filled' pooled', counted.step stepped, filled',
        cached', pooled'⟩

/--
Crash atomicity. The log has `LOGSIZE` blocks or more, as `mkfs` makes it, and the disk holds
no transaction at first. Then every state of every run, with any number of operations at the
same time and a crash after any disk write, is crash atomic.
-/
theorem crashAtomic_of_run {disk : Disk} (whole : LOGSIZE ≤ c.size)
    (empty : getHead (disk c.start) = []) (run : ReflTransGen (LogStep c) (World.init disk) w) :
    CrashAtomic c disk w :=
  (holds_of_run whole empty run).1.crashAtomic

/--
Two operations log four blocks together. The machine stops when two of them are installed, a
second time in the middle of the recovery, and a third time in the middle of another commit.
-/
def interrupted : List Act :=
  List.replicate 3 .recover ++ [.beginOp 0, .beginOp 1] ++ logCalls 0 100 2 ++ logCalls 1 101 3 ++
    [.endOp 0, .endOp 1] ++ List.replicate 9 (.commit 1) ++ [.crash] ++
    List.replicate 3 .recover ++ [.crash] ++ List.replicate 7 .recover ++
    [.beginOp 2] ++ logCalls 2 104 1 ++ [.endOp 2] ++ List.replicate 2 (.commit 2) ++ [.crash] ++
    List.replicate 2 .recover

/-- Five blocks are committed, and the machine stops when one of them has been installed. -/
theorem crashAtomic_interrupted : ∃ w w', ReflTransGen (LogStep .mkfs) (World.init blank) w ∧
    CrashAtomic .mkfs blank w ∧ step .mkfs w .recover = some w' ∧ w'.boot = .up ∧
    w'.hist.map List.length = [5] ∧ w'.disk 103 0 = 1 ∧ w'.disk 104 0 = 0 := by
  have outcome : ((execute .mkfs (fun _ act => act.logOnly) (World.init blank) interrupted).bind
      fun w => (step .mkfs w .recover).map fun w' =>
        (w'.boot, w'.hist.map List.length, w'.disk 103 0, w'.disk 104 0)) =
      some (.up, [5], 1, 0) := by
    decide +kernel
  rcases Option.bind_eq_some_iff.mp outcome with ⟨w, executed, recovery⟩
  rcases Option.map_eq_some_iff.mp recovery with ⟨w', recovered, observed⟩
  simp only [Prod.mk.injEq] at observed
  have run : ReflTransGen (LogStep .mkfs) (World.init blank) w := by
    apply run_of_execute _ executed
    intro w w' act allowed stepped
    exact ⟨act, allowed, stepped⟩
  exact ⟨w, w', run, crashAtomic_of_run (by decide) (by decide +kernel) run, recovered, observed⟩

end Xv6.Log
