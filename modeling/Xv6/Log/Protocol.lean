import Xv6.Log.Buffers

/-!
# Operations and commits

`outstanding` counts the processes between `begin_op` and `end_op`, and
`committing` says whether some process is inside `commit`. The two never
overlap: a commit starts only when the last operation ends, and `begin_op`
lets nobody in before it is over.
-/

namespace Xv6.Log

namespace Pc

/-- The operation a process is inside of. -/
def op? : Pc → Option ℕ
  | .inOp op | .logging op _ => some op
  | _ => none

/-- Inside `commit`, or in `end_op` around it. -/
def Commits : Pc → Prop
  | .commit | .writeLog _ | .writeHead | .installTrans _ | .clearHead | .finish => True
  | _ => False

theorem op?_of_commits {pc : Pc} (commits : pc.Commits) : pc.op? = none := by
  cases pc <;> first | rfl | cases commits

end Pc

/-- `outstanding` counts the open operations, and at most one process commits, alone. -/
structure Counted (w : World) : Prop where
  counted : ∃ ops : Finset ℕ, ops.card = w.outstanding ∧ ∀ p, p ∈ ops ↔ (w.pc p).op?.isSome
  committing : w.committing = true ↔ ∃ p, (w.pc p).Commits
  unique : ∀ p q, (w.pc p).Commits → (w.pc q).Commits → p = q
  alone : w.committing = true → w.outstanding = 0
  booting : w.boot ≠ .up → ∀ p, w.pc p = .out

namespace Counted

variable {w : World}

theorem op?_eq_none (inv : Counted w) (commits : w.committing = true) (p : ℕ) :
    (w.pc p).op? = none := by
  rcases inv.counted with ⟨ops, card, mem⟩
  rw [inv.alone commits, Finset.card_eq_zero] at card
  subst card
  simpa using mem p

theorem outstanding_pos (inv : Counted w) {p : ℕ} (active : (w.pc p).op?.isSome) :
    0 < w.outstanding := by
  rcases inv.counted with ⟨ops, card, mem⟩
  rw [← card]
  exact Finset.card_pos.mpr ⟨p, (mem p).mpr active⟩

theorem committing_eq_false (inv : Counted w) {p : ℕ} (active : (w.pc p).op?.isSome) :
    w.committing = false := by
  by_contra commits
  have none := inv.op?_eq_none (by simpa using commits) p
  simp [none] at active

theorem notCommits (inv : Counted w) (quiet : w.committing = false) (p : ℕ) :
    ¬(w.pc p).Commits := by
  intro commits
  have := inv.committing.mpr ⟨p, commits⟩
  simp [quiet] at this

/-- Positions may change as long as nobody enters or leaves an operation or a commit. -/
theorem congr (inv : Counted w) {w' : World}
    (sameOps : ∀ q, (w'.pc q).op?.isSome = (w.pc q).op?.isSome)
    (sameCommits : ∀ q, (w'.pc q).Commits ↔ (w.pc q).Commits)
    (outstanding : w'.outstanding = w.outstanding) (committing : w'.committing = w.committing)
    (booting : w'.boot ≠ .up → ∀ p, w'.pc p = .out) : Counted w' := by
  constructor
  · rcases inv.counted with ⟨ops, card, mem⟩
    refine ⟨ops, by rw [card, outstanding], ?_⟩
    intro q
    rw [mem q, sameOps q]
  · rw [committing, inv.committing]
    apply exists_congr
    intro q
    exact (sameCommits q).symm
  · intro q r commitsQ commitsR
    exact inv.unique q r ((sameCommits q).mp commitsQ) ((sameCommits r).mp commitsR)
  · rw [committing, outstanding]
    exact inv.alone
  · exact booting

theorem goto (inv : Counted w) {w' : World} {p : ℕ} {pc : Pc}
    (sameOps : pc.op?.isSome = (w.pc p).op?.isSome) (sameCommits : pc.Commits ↔ (w.pc p).Commits)
    (moved : w'.pc = Function.update w.pc p pc) (up : w'.boot = .up)
    (outstanding : w'.outstanding = w.outstanding)
    (committing : w'.committing = w.committing) : Counted w' := by
  apply inv.congr _ _ outstanding committing (fun notUp => absurd up notUp)
  · intro q
    rw [moved]
    by_cases same : q = p
    · subst same
      simpa using sameOps
    · rw [Function.update_of_ne same]
  · intro q
    rw [moved]
    by_cases same : q = p
    · subst same
      simpa using sameCommits
    · rw [Function.update_of_ne same]

theorem wakeup_op? (w : World) (q : ℕ) : (w.wakeup.pc q).op? = (w.pc q).op? := by
  by_cases asleep : w.pc q = .sleeping
  · simp [World.wakeup, asleep, Pc.op?]
  · simp [World.wakeup, asleep]

theorem wakeup_commits (w : World) (q : ℕ) : (w.wakeup.pc q).Commits ↔ (w.pc q).Commits := by
  by_cases asleep : w.pc q = .sleeping
  · simp [World.wakeup, asleep, Pc.Commits]
  · simp [World.wakeup, asleep]

theorem beginOp (inv : Counted w) (up : w.boot = .up) {w' : World} {p : ℕ}
    (stepped : w.beginOp p = some w') : Counted w' := by
  unfold World.beginOp at stepped
  split at stepped
  next waiting =>
    have opNone : (w.pc p).op? = none := by
      rcases waiting with out | woken
      · simp [out, Pc.op?]
      · simp [woken, Pc.op?]
    have notCommits : ¬(w.pc p).Commits := by
      rcases waiting with out | woken
      · simp [out, Pc.Commits]
      · simp [woken, Pc.Commits]
    split at stepped
    · cases stepped
      exact inv.goto (by rw [opNone]; rfl) (iff_of_false id notCommits) rfl up rfl rfl
    · split at stepped
      · cases stepped
        exact inv.goto (by rw [opNone]; rfl) (iff_of_false id notCommits) rfl up rfl rfl
      next quiet _ =>
        cases stepped
        have nobody := inv.notCommits (by simpa using quiet)
        rcases inv.counted with ⟨ops, card, mem⟩
        have fresh : p ∉ ops := by simp [mem, opNone]
        have commitsIff : ∀ q, (Function.update w.pc p (.inOp w.nextOp) q).Commits ↔ False := by
          intro q
          by_cases same : q = p
          · subst same
            simp [Pc.Commits]
          · simp [Function.update_of_ne same, nobody q]
        refine ⟨⟨insert p ops, ?_, ?_⟩, ?_, ?_, ?_, ?_⟩
        · simp [Finset.card_insert_of_notMem fresh, card]
        · intro q
          by_cases same : q = p
          · subst same
            simp [World.goto, Pc.op?]
          · simp [World.goto, same, mem]
        · simpa [World.goto, commitsIff] using quiet
        · intro q r commits
          exact absurd commits (by simp [World.goto, commitsIff])
        · intro commits
          exact absurd commits (by simpa [World.goto] using quiet)
        · intro notUp
          exact absurd up notUp
  next => cases stepped

theorem endOp (inv : Counted w) (up : w.boot = .up) {w' : World} {p : ℕ}
    (stepped : w.endOp p = some w') : Counted w' := by
  unfold World.endOp at stepped
  split at stepped
  next op at_pc =>
    have active : (w.pc p).op?.isSome := by simp [at_pc, Pc.op?]
    have nobody := inv.notCommits (inv.committing_eq_false active)
    rcases inv.counted with ⟨ops, card, mem⟩
    have erased : (ops.erase p).card = w.outstanding - 1 := by
      rw [Finset.card_erase_of_mem ((mem p).mpr active), card]
    split at stepped
    · cases stepped
    · split at stepped
      next last =>
        cases stepped
        have commitsIff : ∀ q, (Function.update w.pc p .commit q).Commits ↔ q = p := by
          intro q
          by_cases same : q = p
          · subst same
            simp [Pc.Commits]
          · simp [nobody q, same]
        refine ⟨⟨ops.erase p, erased, ?_⟩, ?_, ?_, ?_, ?_⟩
        · intro q
          by_cases same : q = p
          · subst same
            simp [World.goto, Pc.op?]
          · simp [World.goto, same, mem]
        · simp [World.goto, commitsIff]
        · intro q r commitsQ commitsR
          simp only [World.goto, commitsIff] at commitsQ commitsR
          rw [commitsQ, commitsR]
        · intro _
          exact last
        · intro notUp
          exact absurd up notUp
      next =>
        cases stepped
        have commitsIff : ∀ q, ((w.goto p .out).wakeup.pc q).Commits ↔ False := by
          intro q
          rw [wakeup_commits]
          by_cases same : q = p
          · subst same
            simp [World.goto, Pc.Commits]
          · simp [World.goto, Function.update_of_ne same, nobody q]
        have quiet := inv.committing_eq_false active
        refine ⟨⟨ops.erase p, erased, ?_⟩, ?_, ?_, ?_, ?_⟩
        · intro q
          change q ∈ ops.erase p ↔ ((w.goto p .out).wakeup.pc q).op?.isSome
          rw [wakeup_op?]
          by_cases same : q = p
          · subst same
            simp [World.goto, Pc.op?]
          · simp [World.goto, same, mem]
        · change w.committing = true ↔ ∃ q, ((w.goto p .out).wakeup.pc q).Commits
          simp [commitsIff, quiet]
        · intro q r commits
          exact absurd commits ((commitsIff q).mp ·)
        · intro commits
          exact absurd commits (by simp [World.wakeup, World.goto, quiet])
        · intro notUp
          exact absurd up notUp
  next => cases stepped

theorem finish (inv : Counted w) (up : w.boot = .up) {p : ℕ} (at_pc : w.pc p = .finish) :
    Counted { (w.goto p .out).wakeup with committing := false } := by
  have commits : w.committing = true := inv.committing.mpr ⟨p, by simp [at_pc, Pc.Commits]⟩
  have commitsIff : ∀ q, ((w.goto p .out).wakeup.pc q).Commits ↔ False := by
    intro q
    rw [wakeup_commits]
    by_cases same : q = p
    · subst same
      simp [World.goto, Pc.Commits]
    · simp only [World.goto, Function.update_of_ne same, iff_false]
      intro other
      exact same (inv.unique q p other (by simp [at_pc, Pc.Commits]))
  refine ⟨⟨∅, ?_, ?_⟩, ?_, ?_, ?_, ?_⟩
  · exact (inv.alone commits).symm
  · intro q
    change q ∈ ∅ ↔ ((w.goto p .out).wakeup.pc q).op?.isSome
    rw [wakeup_op?]
    by_cases same : q = p
    · subst same
      simp [World.goto, Pc.op?]
    · simp [World.goto, Function.update_of_ne same, inv.op?_eq_none commits q]
  · change false = true ↔ ∃ q, ((w.goto p .out).wakeup.pc q).Commits
    simp [commitsIff]
  · intro q r commits
    exact absurd commits ((commitsIff q).mp ·)
  · intro impossible
    cases impossible
  · intro notUp
    exact absurd up notUp

/-- A committing process may move on inside its commit. -/
theorem advance (inv : Counted w) {w' : World} {p : ℕ} {pc : Pc}
    (moved : w'.pc = Function.update w.pc p pc) (start : (w.pc p).Commits) (next : pc.Commits)
    (up : w'.boot = .up) (outstanding : w'.outstanding = w.outstanding)
    (committing : w'.committing = w.committing) : Counted w' := by
  apply inv.goto _ (iff_of_true next start) moved up outstanding committing
  rw [Pc.op?_of_commits next, Pc.op?_of_commits start]

theorem commit (inv : Counted w) (up : w.boot = .up) {c : Config} {w' : World} {p : ℕ}
    (stepped : w.commit c p = some w') : Counted w' := by
  unfold World.commit at stepped
  split at stepped
  next at_pc =>
    split at stepped
    · cases stepped
      exact inv.advance rfl (by rw [at_pc]; trivial) trivial up rfl rfl
    · cases stepped
      exact inv.advance rfl (by rw [at_pc]; trivial) trivial up rfl rfl
  next tail at_pc =>
    split at stepped
    · cases stepped
      exact inv.advance rfl (by rw [at_pc]; trivial) trivial up rfl rfl
    · cases stepped
      exact inv.advance rfl (by rw [at_pc]; trivial) trivial up rfl rfl
  next at_pc =>
    cases stepped
    exact inv.advance rfl (by rw [at_pc]; trivial) trivial up rfl rfl
  next tail at_pc =>
    split at stepped
    · cases stepped
      exact inv.advance rfl (by rw [at_pc]; trivial) trivial up rfl rfl
    · cases stepped
      exact inv.advance rfl (by rw [at_pc]; trivial) trivial up rfl rfl
  next at_pc =>
    cases stepped
    exact inv.advance rfl (by rw [at_pc]; trivial) trivial up rfl rfl
  next at_pc =>
    cases stepped
    exact inv.finish up at_pc
  next => cases stepped

theorem logWriteTest (inv : Counted w) (up : w.boot = .up) {c : Config} {w' : World} {p b : ℕ}
    (stepped : w.logWriteTest c p b = some w') : Counted w' := by
  unfold World.logWriteTest at stepped
  split at stepped
  next op at_pc =>
    split at stepped
    · cases stepped
    · split at stepped
      · cases stepped
      · split at stepped
        · cases stepped
          exact inv.goto (by rw [at_pc]; rfl) (iff_of_false id (by rw [at_pc]; exact id)) rfl up
            rfl rfl
        · cases stepped
  next => cases stepped

theorem logWrite (inv : Counted w) (up : w.boot = .up) {w' : World} {p : ℕ} {data : Block}
    (stepped : w.logWrite p data = some w') : Counted w' := by
  unfold World.logWrite at stepped
  split at stepped
  next op b at_pc =>
    cases stepped
    exact inv.goto (by rw [at_pc]; rfl) (iff_of_false id (by rw [at_pc]; exact id)) rfl up
      rfl rfl
  next => cases stepped

theorem recoverFromLog (inv : Counted w) {c : Config} {w' : World}
    (stepped : w.recoverFromLog c = some w') : Counted w' := by
  unfold World.recoverFromLog at stepped
  split at stepped
  next at_boot =>
    cases stepped
    exact inv.congr (fun _ => rfl) (fun _ => Iff.rfl) rfl rfl
      (fun _ => inv.booting (by simp [at_boot]))
  next tail at_boot =>
    split at stepped
    · cases stepped
      exact inv.congr (fun _ => rfl) (fun _ => Iff.rfl) rfl rfl
        (fun _ => inv.booting (by simp [at_boot]))
    · cases stepped
      exact inv.congr (fun _ => rfl) (fun _ => Iff.rfl) rfl rfl
        (fun _ => inv.booting (by simp [at_boot]))
  next at_boot =>
    cases stepped
    exact inv.congr (fun _ => rfl) (fun _ => Iff.rfl) rfl rfl
      (fun _ => inv.booting (by simp [at_boot]))
  next => cases stepped

theorem crash (w : World) : Counted w.crash where
  counted := ⟨∅, rfl, by simp [World.crash, Pc.op?]⟩
  committing := by simp [World.crash, Pc.Commits]
  unique := by simp [World.crash, Pc.Commits]
  alone := by simp [World.crash]
  booting := fun _ _ => rfl

theorem init (disk : Disk) : Counted (World.init disk) := crash (World.init disk)

theorem fetch (inv : Counted w) {w' : World} {bs : List ℕ} (fetched : w.fetch bs = some w') :
    Counted w' := by
  rcases fetch_eq fetched with ⟨bufs, free, rfl⟩
  exact inv.congr (fun _ => rfl) (fun _ => Iff.rfl) rfl rfl inv.booting

theorem perform (inv : Counted w) {c : Config} {w' : World} {act : Act}
    (performed : Log.perform c w act = some w') : Counted w' := by
  cases act with
  | crash =>
      cases performed
      exact crash w
  | recover => exact inv.recoverFromLog performed
  | beginOp p =>
      simp only [Log.perform, Option.ite_none_right_eq_some] at performed
      exact inv.beginOp performed.1 performed.2
  | kill p =>
      simp only [Log.perform, Option.ite_none_right_eq_some] at performed
      rcases performed with ⟨⟨up, asleep⟩, performed⟩
      cases performed
      exact inv.goto (by rw [asleep]; rfl) (iff_of_false id (by rw [asleep]; exact id)) rfl up
        rfl rfl
  | bread b =>
      simp only [Log.perform, Option.ite_none_right_eq_some] at performed
      rcases performed with ⟨_, performed⟩
      cases performed
      exact inv
  | recycle b =>
      simp only [Log.perform] at performed
      split at performed
      · split at performed
        · cases performed
        · cases performed
          exact inv.congr (fun _ => rfl) (fun _ => Iff.rfl) rfl rfl inv.booting
      · cases performed
  | logWriteTest p b =>
      simp only [Log.perform, Option.ite_none_right_eq_some] at performed
      exact inv.logWriteTest performed.1 performed.2
  | logWrite p data =>
      simp only [Log.perform, Option.ite_none_right_eq_some] at performed
      exact inv.logWrite performed.1 performed.2
  | bwrite p b data =>
      simp only [Log.perform] at performed
      split at performed
      · simp only [Option.ite_none_right_eq_some] at performed
        rcases performed with ⟨_, performed⟩
        cases performed
        exact inv.congr (fun _ => rfl) (fun _ => Iff.rfl) rfl rfl inv.booting
      · cases performed
  | endOp p =>
      simp only [Log.perform, Option.ite_none_right_eq_some] at performed
      exact inv.endOp performed.1 performed.2
  | commit p =>
      simp only [Log.perform, Option.ite_none_right_eq_some] at performed
      exact inv.commit performed.1 performed.2

/-- Every action of the machine keeps the counts. -/
theorem step (inv : Counted w) {c : Config} {w' : World} {act : Act}
    (stepped : Log.step c w act = some w') : Counted w' := by
  rcases Option.bind_eq_some_iff.mp stepped with ⟨w₁, fetched, performed⟩
  exact (inv.fetch fetched).perform performed

end Counted

end Xv6.Log
