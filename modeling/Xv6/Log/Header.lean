import Xv6.Log.Protocol
import Xv6.Log.Atomicity

/-!
# The header in memory

Outside a commit the header lists the distinct blocks of the running transaction, and it
is empty when no operation is open. So `begin_op` always finds room when nobody else is
around, and a process sleeps in it only while an operation or a commit is going on.
-/

namespace Xv6.Log

open Relation

variable {c : Config} {w w' : World} {p q : ℕ}

/-- The header lists the blocks of the running transaction, each once. -/
structure Listed (w : World) : Prop where
  nodup : w.lh.Nodup
  mem : ∀ b, b ∈ w.lh ↔ ∃ u ∈ w.cur, u.block = b

/-- What holds of the header while a process is at the given place. -/
def Phase (w : World) : Pc → Prop
  | .commit | .writeLog _ | .writeHead => Listed w
  | .installTrans _ => w.cur = []
  | .clearHead | .finish => w.lh = [] ∧ w.cur = []
  | _ => True

theorem Phase.of_not_commits {pc : Pc} (outside : ¬pc.Commits) : Phase w pc := by
  cases pc <;> first | trivial | exact absurd trivial outside

theorem Listed.congr (listed : Listed w) (lh : w'.lh = w.lh) (cur : w'.cur = w.cur) :
    Listed w' where
  nodup := by
    rw [lh]
    exact listed.nodup
  mem := by
    rw [lh, cur]
    exact listed.mem

theorem Listed.empty (lh : w.lh = []) (cur : w.cur = []) : Listed w where
  nodup := by
    rw [lh]
    exact List.nodup_nil
  mem := by simp [lh, cur]

theorem Phase.congr {pc : Pc} (phase : Phase w pc) (lh : w'.lh = w.lh) (cur : w'.cur = w.cur) :
    Phase w' pc := by
  cases pc with
  | commit => exact Listed.congr phase lh cur
  | writeLog _ => exact Listed.congr phase lh cur
  | writeHead => exact Listed.congr phase lh cur
  | installTrans _ => exact cur.trans phase
  | clearHead => exact ⟨lh.trans phase.1, cur.trans phase.2⟩
  | finish => exact ⟨lh.trans phase.1, cur.trans phase.2⟩
  | out => trivial
  | sleeping => trivial
  | woken => trivial
  | inOp _ => trivial
  | logging _ _ => trivial

structure Filled (w : World) : Prop where
  listed : w.boot = .up → w.committing = false → Listed w
  idle : w.boot = .up → w.committing = false → w.outstanding = 0 → w.lh = []
  phase : ∀ p, Phase w (w.pc p)
  booting : w.boot ≠ .up → w.cur = []
  cleared : w.boot = .clearHead → w.lh = []
  /-- A sleeper in `begin_op` waits for an operation or a commit to end. -/
  waits : ∀ p, w.pc p = .sleeping → w.committing = true ∨ 0 < w.outstanding

namespace Filled

/-- Nothing moves but processes outside of commits, and none of them goes to sleep. -/
theorem congr (inv : Filled w) (boot : w'.boot = w.boot) (lh : w'.lh = w.lh)
    (cur : w'.cur = w.cur) (outstanding : w'.outstanding = w.outstanding)
    (committing : w'.committing = w.committing)
    (moved : ∀ q, w'.pc q = w.pc q ∨ ¬(w'.pc q).Commits ∧ w'.pc q ≠ .sleeping) : Filled w' where
  listed := by
    rw [boot, committing]
    exact fun up quiet => (inv.listed up quiet).congr lh cur
  idle := by
    rw [boot, committing, outstanding, lh]
    exact inv.idle
  phase := by
    intro q
    rcases moved q with same | ⟨outside, _⟩
    · rw [same]
      exact (inv.phase q).congr lh cur
    · exact Phase.of_not_commits outside
  booting := by
    rw [boot, cur]
    exact inv.booting
  cleared := by
    rw [boot, lh]
    exact inv.cleared
  waits := by
    intro q asleep
    rw [committing, outstanding]
    rcases moved q with same | ⟨_, awake⟩
    · exact inv.waits q (same ▸ asleep)
    · exact absurd asleep awake

theorem goto_pc {pc : Pc} (outside : ¬pc.Commits) (awake : pc ≠ .sleeping) (q : ℕ) :
    (w.goto p pc).pc q = w.pc q ∨ ¬((w.goto p pc).pc q).Commits ∧
      (w.goto p pc).pc q ≠ .sleeping := by
  by_cases same : q = p
  · subst same
    right
    simpa [World.goto] using ⟨outside, awake⟩
  · left
    simp [World.goto, same]

/-- After a wakeup nobody sleeps. -/
theorem wakeup_pc (w : World) (q : ℕ) : w.wakeup.pc q ≠ .sleeping := by
  by_cases asleep : w.pc q = .sleeping
  · simp [World.wakeup, asleep]
  · simp [World.wakeup, asleep]

theorem phase_wakeup (outside : ∀ q, ¬(w.pc q).Commits) (q : ℕ) :
    Phase w' (w.wakeup.pc q) := by
  refine Phase.of_not_commits ?_
  rw [Counted.wakeup_commits]
  exact outside q

theorem sleeps (inv : Filled w) (busy : w.committing = true ∨ 0 < w.outstanding) :
    Filled (w.goto p .sleeping) where
  listed := fun up quiet => (inv.listed up quiet).congr rfl rfl
  idle := inv.idle
  phase := by
    intro q
    by_cases same : q = p
    · subst same
      simp [World.goto, Phase]
    · have phase : Phase (w.goto p .sleeping) (w.pc q) := (inv.phase q).congr rfl rfl
      simpa [World.goto, same] using phase
  booting := inv.booting
  cleared := inv.cleared
  waits := fun _ _ => busy

theorem beginOp (inv : Filled w) (up : w.boot = .up) (stepped : w.beginOp p = some w') :
    Filled w' := by
  unfold World.beginOp at stepped
  split_ifs at stepped with _ commits full
  · cases stepped
    exact inv.sleeps (Or.inl commits)
  · cases stepped
    refine inv.sleeps (Or.inr ?_)
    -- An empty header has room for an operation.
    by_contra none
    have nobody : w.outstanding = 0 := Nat.eq_zero_of_not_pos none
    rw [inv.idle up (by simpa using commits) nobody, nobody] at full
    simp [LOGSIZE, MAXOPBLOCKS] at full
  · cases stepped
    have quiet : w.committing = false := by simpa using commits
    refine ⟨fun up quiet => (inv.listed up quiet).congr rfl rfl, ?_, ?_, inv.booting,
      inv.cleared, ?_⟩
    · intro _ _ none
      exact absurd none (Nat.succ_ne_zero _)
    · intro q
      by_cases same : q = p
      · subst same
        simp [World.goto, Phase]
      · have phase : Phase { w.goto p (.inOp w.nextOp) with
            outstanding := w.outstanding + 1, nextOp := w.nextOp + 1 } (w.pc q) :=
          (inv.phase q).congr rfl rfl
        simpa [World.goto, same] using phase
    · exact fun _ _ => Or.inr (Nat.succ_pos _)

theorem logWrite (inv : Filled w) (counted : Counted w) (up : w.boot = .up) {data : Block}
    (stepped : w.logWrite p data = some w') : Filled w' := by
  unfold World.logWrite at stepped
  split at stepped
  next op b at_pc =>
    have active : (w.pc p).op?.isSome := by simp [at_pc, Pc.op?]
    have quiet := counted.committing_eq_false active
    have listed := inv.listed up quiet
    cases stepped
    refine ⟨?_, ?_, ?_, fun notUp => absurd up notUp, ?_, ?_⟩
    · intro _ _
      constructor
      · change (if b ∈ w.lh then w.lh else w.lh ++ [b]).Nodup
        split_ifs with known
        · exact listed.nodup
        · exact List.nodup_append.mpr ⟨listed.nodup, List.nodup_singleton b, by
            rintro a mem a' last rfl
            exact known (List.mem_singleton.mp last ▸ mem)⟩
      · intro b'
        change b' ∈ (if b ∈ w.lh then w.lh else w.lh ++ [b]) ↔ _
        have now : (∃ u ∈ w.cur ++ [⟨op, b, data⟩], u.block = b') ↔ b' ∈ w.lh ∨ b = b' := by
          simp [listed.mem, or_and_right, exists_or]
        rw [now]
        split_ifs with known
        · constructor
          · exact Or.inl
          · rintro (mem | rfl)
            · exact mem
            · exact known
        · simp [eq_comm]
    · intro _ _ none
      exact absurd none (counted.outstanding_pos active).ne'
    · intro q
      by_cases same : q = p
      · subst same
        simp [World.goto, Phase]
      · refine Phase.of_not_commits ?_
        simpa [World.goto, same] using counted.notCommits quiet q
    · intro clearing
      exact absurd (up.symm.trans clearing) (by simp)
    · exact fun _ _ => Or.inr (counted.outstanding_pos active)
  next => cases stepped

theorem endOp (inv : Filled w) (counted : Counted w) (up : w.boot = .up)
    (stepped : w.endOp p = some w') : Filled w' := by
  unfold World.endOp at stepped
  split at stepped
  next op at_pc =>
    have active : (w.pc p).op?.isSome := by simp [at_pc, Pc.op?]
    have quiet := counted.committing_eq_false active
    have nobody := counted.notCommits quiet
    split_ifs at stepped with _ last
    · cases stepped
      refine ⟨?_, ?_, ?_, inv.booting, inv.cleared, fun _ _ => Or.inl rfl⟩
      · intro _ impossible
        cases impossible
      · intro _ impossible
        cases impossible
      · intro q
        by_cases same : q = p
        · subst same
          have listed : Listed { w.goto q .commit with
              outstanding := w.outstanding - 1, committing := true } :=
            (inv.listed up quiet).congr rfl rfl
          simpa [World.goto, Phase] using listed
        · refine Phase.of_not_commits ?_
          simpa [World.goto, same] using nobody q
    · cases stepped
      have outside : ∀ q, ¬((w.goto p .out).pc q).Commits := by
        intro q
        by_cases same : q = p
        · subst same
          simp [World.goto, Pc.Commits]
        · simpa [World.goto, same] using nobody q
      refine ⟨fun up quiet => (inv.listed up quiet).congr rfl rfl, ?_, phase_wakeup outside,
        inv.booting, inv.cleared, fun q asleep => absurd asleep (wakeup_pc _ q)⟩
      intro _ _ none
      exact absurd none last
  next => cases stepped

/-- A committing process goes on, and the header is as its new place says. -/
theorem advance (counted : Counted w) {pc : Pc} (commits : (w.pc p).Commits)
    (moved : w'.pc = Function.update w.pc p pc) (boot : w'.boot = w.boot)
    (committing : w'.committing = w.committing) (phase : Phase w' pc) (up : w.boot = .up) :
    Filled w' := by
  have busy : w'.committing = true := by
    rw [committing]
    exact counted.committing.mpr ⟨p, commits⟩
  refine ⟨?_, ?_, ?_, ?_, ?_, fun _ _ => Or.inl busy⟩
  · intro _ quiet
    rw [busy] at quiet
    cases quiet
  · intro _ quiet
    rw [busy] at quiet
    cases quiet
  · intro q
    rw [moved]
    by_cases same : q = p
    · subst same
      rwa [Function.update_self]
    · rw [Function.update_of_ne same]
      refine Phase.of_not_commits fun other => same ?_
      exact counted.unique q p other commits
  · rw [boot]
    exact fun notUp => absurd up notUp
  · rw [boot, up]
    intro impossible
    cases impossible

theorem commit (inv : Filled w) (counted : Counted w) (up : w.boot = .up)
    (stepped : w.commit c p = some w') : Filled w' := by
  have phase := inv.phase p
  unfold World.commit at stepped
  split at stepped
  next at_pc =>
    rw [at_pc] at phase
    have commits : (w.pc p).Commits := by
      rw [at_pc]
      trivial
    split_ifs at stepped with some
    · cases stepped
      exact advance counted commits rfl rfl rfl (Listed.congr phase rfl rfl) up
    · cases stepped
      have empty : w.lh = [] := List.eq_nil_of_length_eq_zero (Nat.eq_zero_of_not_pos some)
      have nothing : w.cur = [] := by
        refine List.eq_nil_iff_forall_not_mem.mpr fun u mem => ?_
        have listed := (phase.mem u.block).mpr ⟨u, mem, rfl⟩
        rw [empty] at listed
        cases listed
      exact advance counted commits rfl rfl rfl ⟨empty, nothing⟩ up
  next tail at_pc =>
    rw [at_pc] at phase
    have commits : (w.pc p).Commits := by
      rw [at_pc]
      trivial
    split at stepped
    · cases stepped
      exact advance counted commits rfl rfl rfl (Listed.congr phase rfl rfl) up
    · cases stepped
      exact advance counted commits rfl rfl rfl (Listed.congr phase rfl rfl) up
  next at_pc =>
    cases stepped
    exact advance counted (by rw [at_pc]; trivial) rfl rfl rfl rfl up
  next tail at_pc =>
    rw [at_pc] at phase
    have commits : (w.pc p).Commits := by
      rw [at_pc]
      trivial
    split at stepped
    · cases stepped
      exact advance counted commits rfl rfl rfl phase up
    · cases stepped
      exact advance counted commits rfl rfl rfl ⟨rfl, phase⟩ up
  next at_pc =>
    rw [at_pc] at phase
    cases stepped
    exact advance counted (by rw [at_pc]; trivial) rfl rfl rfl phase up
  next at_pc =>
    rw [at_pc] at phase
    have commits : (w.pc p).Commits := by
      rw [at_pc]
      trivial
    cases stepped
    have outside : ∀ q, ¬((w.goto p .out).pc q).Commits := by
      intro q
      by_cases same : q = p
      · subst same
        simp [World.goto, Pc.Commits]
      · simp only [World.goto, Function.update_of_ne same]
        exact fun other => same (counted.unique q p other commits)
    exact ⟨fun _ _ => Listed.empty phase.1 phase.2, fun _ _ _ => phase.1, phase_wakeup outside,
      inv.booting, inv.cleared, fun q asleep => absurd asleep (wakeup_pc _ q)⟩
  next => cases stepped

theorem recoverFromLog (inv : Filled w) (counted : Counted w)
    (stepped : w.recoverFromLog c = some w') : Filled w' := by
  have down : w.boot ≠ .up := by
    intro up
    simp [World.recoverFromLog, up] at stepped
  have still : w'.pc = w.pc := recoverFromLog_pc stepped
  have out : ∀ q, w'.pc q = .out := by
    intro q
    rw [still, counted.booting down]
  have phase : ∀ q, Phase w' (w'.pc q) := by
    intro q
    rw [out]
    trivial
  have waits : ∀ q, w'.pc q = .sleeping → w'.committing = true ∨ 0 < w'.outstanding := by
    intro q asleep
    rw [out] at asleep
    cases asleep
  have none := inv.booting down
  unfold World.recoverFromLog at stepped
  split at stepped
  next =>
    cases stepped
    exact ⟨(fun up => by cases up), (fun up => by cases up), phase, fun _ => none,
      (fun clearing => by cases clearing), waits⟩
  next tail at_boot =>
    split at stepped
    · cases stepped
      exact ⟨(fun up => by cases up), (fun up => by cases up), phase, fun _ => none,
        (fun clearing => by cases clearing), waits⟩
    · cases stepped
      exact ⟨(fun up => by cases up), (fun up => by cases up), phase,
        fun _ => none, fun _ => rfl, waits⟩
  next at_boot =>
    cases stepped
    have empty := inv.cleared at_boot
    exact ⟨fun _ _ => Listed.empty empty none, fun _ _ _ => empty, phase, fun _ => none,
      (fun clearing => by cases clearing), waits⟩
  next => cases stepped

theorem crash (w : World) : Filled w.crash where
  listed := fun up => by cases up
  idle := fun up => by cases up
  phase := fun _ => trivial
  booting := fun _ => rfl
  cleared := fun clearing => by cases clearing
  waits := fun _ asleep => by cases asleep

theorem init (disk : Disk) : Filled (World.init disk) := crash (World.init disk)

theorem perform (inv : Filled w) (counted : Counted w) {act : Act}
    (performed : Log.perform c w act = some w') : Filled w' := by
  cases act with
  | crash =>
      cases performed
      exact crash w
  | recover => exact inv.recoverFromLog counted performed
  | beginOp p =>
      simp only [Log.perform, Option.ite_none_right_eq_some] at performed
      exact inv.beginOp performed.1 performed.2
  | kill p =>
      simp only [Log.perform, Option.ite_none_right_eq_some] at performed
      rcases performed with ⟨_, performed⟩
      cases performed
      exact inv.congr rfl rfl rfl rfl rfl (goto_pc id (by simp))
  | bread b =>
      simp only [Log.perform, Option.ite_none_right_eq_some] at performed
      rcases performed with ⟨_, performed⟩
      cases performed
      exact inv
  | recycle b =>
      simp only [Log.perform] at performed
      split at performed
      · split at performed
        · cases performed
        · cases performed
          exact inv.congr rfl rfl rfl rfl rfl fun _ => Or.inl rfl
      · cases performed
  | logWriteTest p b =>
      simp only [Log.perform, World.logWriteTest, Option.ite_none_right_eq_some] at performed
      rcases performed with ⟨_, performed⟩
      split at performed
      · split_ifs at performed
        cases performed
        exact inv.congr rfl rfl rfl rfl rfl (goto_pc id (by simp))
      · cases performed
  | logWrite p data =>
      simp only [Log.perform, Option.ite_none_right_eq_some] at performed
      exact inv.logWrite counted performed.1 performed.2
  | bwrite p b data =>
      simp only [Log.perform] at performed
      split at performed
      · simp only [Option.ite_none_right_eq_some] at performed
        rcases performed with ⟨_, performed⟩
        cases performed
        exact inv.congr rfl rfl rfl rfl rfl fun _ => Or.inl rfl
      · cases performed
  | endOp p =>
      simp only [Log.perform, Option.ite_none_right_eq_some] at performed
      exact inv.endOp counted performed.1 performed.2
  | commit p =>
      simp only [Log.perform, Option.ite_none_right_eq_some] at performed
      exact inv.commit counted performed.1 performed.2

theorem fetch (inv : Filled w) {bs : List ℕ} (fetched : w.fetch bs = some w') : Filled w' := by
  rcases fetch_eq fetched with ⟨bufs, free, rfl⟩
  exact inv.congr rfl rfl rfl rfl rfl fun _ => Or.inl rfl

theorem step (inv : Filled w) (counted : Counted w) {act : Act}
    (stepped : Log.step c w act = some w') : Filled w' := by
  rcases Option.bind_eq_some_iff.mp stepped with ⟨w₁, fetched, performed⟩
  exact (inv.fetch fetched).perform (counted.fetch fetched) performed

theorem run {disk : Disk} (run : ReflTransGen (fun w w' => ∃ act, Log.step c w act = some w')
    (World.init disk) w) : Counted w ∧ Filled w := by
  induction run with
  | refl => exact ⟨Counted.init disk, init disk⟩
  | tail _ last ih =>
      rcases last with ⟨act, stepped⟩
      exact ⟨ih.1.step stepped, ih.2.step ih.1 stepped⟩

end Filled

end Xv6.Log
