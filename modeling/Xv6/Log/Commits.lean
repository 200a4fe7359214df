import Xv6.Log.Header

/-!
# The commit protocol

A commit runs without `log.lock`, while other processes enter, wait and leave. Nobody is
inside an operation during a commit, so nobody but the commit itself changes the header;
and everybody who waits in `begin_op` waits for an operation or a commit, whose end wakes
all sleepers up.
-/

namespace Xv6.Log

open Relation

variable {c : Config} {w w' : World}

/-- What a state says about operations and commits, and about the step that follows it. -/
structure Protocol (c : Config) (w : World) : Prop where
  alone : w.committing = true → w.outstanding = 0
  /-- During a commit the header changes in the commit only, short of a power failure. -/
  header : ∀ act w', w.committing = true → step c w act = some w' → w'.lh ≠ w.lh →
    act = .crash ∨ ∃ p, act = .commit p
  /-- `end_op` does not reach its panic. -/
  endOp : ∀ p op, w.pc p = .inOp op → (step c w (.endOp p)).isSome
  unique : ∀ p q, (w.pc p).Commits → (w.pc q).Commits → p = q
  awaited : ∀ p, w.pc p = .sleeping → w.committing = true ∨ 0 < w.outstanding
  /-- The end of a commit, and of an operation that starts none, wakes every sleeper up. -/
  woken : ∀ act w', step c w act = some w' → w'.committing = false →
    w.committing = true ∨ w'.outstanding < w.outstanding → ∀ p, w'.pc p ≠ .sleeping

/-- Actions that concern no count and no header. -/
def Act.aside : Act → Bool
  | .kill _ | .bread _ | .recycle _ | .logWriteTest _ _ | .bwrite _ _ _ => true
  | _ => false

/-- Other actions do not touch the header. -/
theorem perform_aside {act : Act} (aside : act.aside = true)
    (performed : perform c w act = some w') :
    w'.lh = w.lh ∧ w'.outstanding = w.outstanding ∧ w'.committing = w.committing := by
  cases act with
  | kill p =>
      simp only [perform, Option.ite_none_right_eq_some] at performed
      rcases performed with ⟨_, performed⟩
      cases performed
      exact ⟨rfl, rfl, rfl⟩
  | bread b =>
      simp only [perform, Option.ite_none_right_eq_some] at performed
      rcases performed with ⟨_, performed⟩
      cases performed
      exact ⟨rfl, rfl, rfl⟩
  | recycle b =>
      simp only [perform] at performed
      split at performed
      · split_ifs at performed
        cases performed
        exact ⟨rfl, rfl, rfl⟩
      · cases performed
  | logWriteTest p b =>
      simp only [perform, World.logWriteTest, Option.ite_none_right_eq_some] at performed
      rcases performed with ⟨_, performed⟩
      split at performed
      · split_ifs at performed
        cases performed
        exact ⟨rfl, rfl, rfl⟩
      · cases performed
  | bwrite p b data =>
      simp only [perform] at performed
      split at performed
      · simp only [Option.ite_none_right_eq_some] at performed
        rcases performed with ⟨_, performed⟩
        cases performed
        exact ⟨rfl, rfl, rfl⟩
      · cases performed
  | crash => cases aside
  | recover => cases aside
  | beginOp p => cases aside
  | logWrite p data => cases aside
  | endOp p => cases aside
  | commit p => cases aside

/-- Inside a commit only its last step changes the counts. -/
theorem commit_counts (stepped : w.commit c p = some w') :
    w'.outstanding = w.outstanding ∧
      (w'.committing = w.committing ∨ ∀ q, w'.pc q ≠ .sleeping) := by
  unfold World.commit at stepped
  split at stepped
  · split_ifs at stepped
    · cases stepped
      exact ⟨rfl, Or.inl rfl⟩
    · cases stepped
      exact ⟨rfl, Or.inl rfl⟩
  · split at stepped
    · cases stepped
      exact ⟨rfl, Or.inl rfl⟩
    · cases stepped
      exact ⟨rfl, Or.inl rfl⟩
  · cases stepped
    exact ⟨rfl, Or.inl rfl⟩
  · split at stepped
    · cases stepped
      exact ⟨rfl, Or.inl rfl⟩
    · cases stepped
      exact ⟨rfl, Or.inl rfl⟩
  · cases stepped
    exact ⟨rfl, Or.inl rfl⟩
  · cases stepped
    exact ⟨rfl, Or.inr (Filled.wakeup_pc _)⟩
  · cases stepped

/-- While a commit is going on, only the commit and a crash change the header. -/
theorem header_of_perform (counted : Counted w) {act : Act} (commits : w.committing = true)
    (performed : perform c w act = some w') (changed : w'.lh ≠ w.lh) :
    act = .crash ∨ ∃ p, act = .commit p := by
  by_cases aside : act.aside = true
  · exact absurd (perform_aside aside performed).1 changed
  · cases act with
    | crash => exact Or.inl rfl
    | commit p => exact Or.inr ⟨p, rfl⟩
    | recover =>
        exfalso
        rcases counted.committing.mp commits with ⟨p, inCommit⟩
        have down : w.boot ≠ .up := by
          intro up
          simp [perform, World.recoverFromLog, up] at performed
        rw [counted.booting down p] at inCommit
        exact inCommit
    | beginOp p =>
        simp only [perform, World.beginOp, Option.ite_none_right_eq_some] at performed
        rcases performed with ⟨_, _, performed⟩
        rw [if_pos commits] at performed
        cases performed
        exact absurd rfl changed
    | logWrite p data =>
        -- A process in `log_write` is inside an operation, so no commit is going on.
        exfalso
        simp only [perform, World.logWrite, Option.ite_none_right_eq_some] at performed
        rcases performed with ⟨_, performed⟩
        split at performed
        next op b at_pc =>
          have none := counted.op?_eq_none commits p
          rw [at_pc] at none
          cases none
        next => cases performed
    | endOp p =>
        simp only [perform, World.endOp, Option.ite_none_right_eq_some] at performed
        rcases performed with ⟨_, performed⟩
        split at performed
        · rw [if_pos commits] at performed
          cases performed
        · cases performed
    | _ => exact absurd rfl aside

theorem header_of_committing (counted : Counted w) {act : Act} (commits : w.committing = true)
    (stepped : step c w act = some w') (changed : w'.lh ≠ w.lh) :
    act = .crash ∨ ∃ p, act = .commit p := by
  rcases Option.bind_eq_some_iff.mp stepped with ⟨w₁, fetched, performed⟩
  have counted₁ := counted.fetch fetched
  rcases fetch_eq fetched with ⟨bufs, free, rfl⟩
  exact header_of_perform counted₁ commits performed changed

/-- A step that ends a commit, or an operation without starting a commit, wakes all sleepers up. -/
theorem woken_of_perform (counted : Counted w) {act : Act} (performed : perform c w act = some w')
    (quiet : w'.committing = false)
    (ended : w.committing = true ∨ w'.outstanding < w.outstanding) (q : ℕ) :
    w'.pc q ≠ .sleeping := by
  -- A step that leaves both as they are ends nothing.
  have nothing : w'.outstanding = w.outstanding → w'.committing ≠ w.committing := by
    intro outstanding committing
    rcases ended with commits | fewer
    · rw [committing, commits] at quiet
      cases quiet
    · exact absurd outstanding fewer.ne
  by_cases aside : act.aside = true
  · rcases perform_aside aside performed with ⟨_, outstanding, committing⟩
    exact absurd committing (nothing outstanding)
  · cases act with
    | crash =>
        cases performed
        simp [World.crash]
    | recover =>
        have down : w.boot ≠ .up := by
          intro up
          simp [perform, World.recoverFromLog, up] at performed
        rw [recoverFromLog_pc performed, counted.booting down]
        simp
    | beginOp p =>
        simp only [perform, World.beginOp, Option.ite_none_right_eq_some] at performed
        rcases performed with ⟨_, _, performed⟩
        split_ifs at performed with commits
        · cases performed
          exact absurd rfl (nothing rfl)
        · cases performed
          exact absurd rfl (nothing rfl)
        · cases performed
          rcases ended with busy | fewer
          · exact absurd busy commits
          · exact absurd fewer (Nat.not_lt.mpr (Nat.le_succ _))
    | logWrite p data =>
        simp only [perform, World.logWrite, Option.ite_none_right_eq_some] at performed
        rcases performed with ⟨_, performed⟩
        split at performed
        · cases performed
          exact absurd rfl (nothing rfl)
        · cases performed
    | endOp p =>
        simp only [perform, World.endOp, Option.ite_none_right_eq_some] at performed
        rcases performed with ⟨_, performed⟩
        split at performed
        · split_ifs at performed
          · cases performed
            cases quiet
          · cases performed
            exact Filled.wakeup_pc _ q
        · cases performed
    | commit p =>
        simp only [perform, Option.ite_none_right_eq_some] at performed
        rcases commit_counts performed.2 with ⟨outstanding, committing | awake⟩
        · exact absurd committing (nothing outstanding)
        · exact awake q
    | _ => exact absurd rfl aside

theorem woken_of_step (counted : Counted w) {act : Act} (stepped : step c w act = some w')
    (quiet : w'.committing = false)
    (ended : w.committing = true ∨ w'.outstanding < w.outstanding) (q : ℕ) :
    w'.pc q ≠ .sleeping := by
  rcases Option.bind_eq_some_iff.mp stepped with ⟨w₁, fetched, performed⟩
  have counted₁ := counted.fetch fetched
  rcases fetch_eq fetched with ⟨bufs, free, rfl⟩
  exact woken_of_perform counted₁ performed quiet ended q

/-- In every state of every run the callers, the header and the commits are in step. -/
theorem protocol {disk : Disk} (run : ReflTransGen (fun w w' => ∃ act, step c w act = some w')
    (World.init disk) w) : Protocol c w := by
  rcases Filled.run run with ⟨counted, filled⟩
  refine ⟨counted.alone, fun act w' => header_of_committing counted, ?_, counted.unique,
    filled.waits, fun act w' => woken_of_step counted⟩
  intro p op at_pc
  have up : w.boot = .up := by
    by_contra down
    rw [counted.booting down p] at at_pc
    cases at_pc
  have quiet := counted.committing_eq_false (p := p) (by simp [at_pc, Pc.op?])
  rw [step_of_no_reads rfl, perform, if_pos up, World.endOp, at_pc]
  simp only [quiet, Bool.false_eq_true, if_false]
  split_ifs <;> rfl

/-- Three operations fill the reservation, and a fourth process waits for one of them. -/
def fullHouse : List Act :=
  List.replicate 3 .recover ++ [.beginOp 0, .beginOp 1, .beginOp 2, .beginOp 3]

/-- Three operations are open, and the fourth waits for the commit. -/
theorem protocol_fullHouse : ∃ w, w.pc 3 = .sleeping ∧ Protocol .mkfs w := by
  have waits : ((execute .mkfs (fun _ _ => true) (World.init blank) fullHouse).map
      fun w => w.pc 3) = some .sleeping := by
    decide +kernel
  rcases Option.map_eq_some_iff.mp waits with ⟨w, executed, asleep⟩
  have run := run_of_execute (fun w w' act _ stepped => ⟨act, stepped⟩) executed
    (R := fun w w' => ∃ act, step .mkfs w act = some w')
  exact ⟨w, asleep, protocol run⟩

end Xv6.Log
