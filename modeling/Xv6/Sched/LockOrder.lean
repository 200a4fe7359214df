import Xv6.Sched.Smp
import Mathlib.Logic.Relation

/-!
# The order of the two locks

`scheduler` holds `ptable.lock` when it calls `sys_uptime`, which takes `tickslock`; the
timer interrupt and `sys_sleep` hold `tickslock` when they take `ptable.lock` in `wakeup`
and `sleep`. On two CPUs these meet, and neither goes on. A run without such a meeting is
one in which a CPU with one of the locks reaches for the other only when nobody has it.
-/

namespace Xv6.Sched.Smp

open Relation

variable {n : ℕ} {m m' : Machine n} {c : Fin n} {e : Event}

def Step (m m' : Machine n) : Prop := ∃ c e, step m c e = some m'

/-- Two CPUs wait for each other. -/
def Deadlock (m : Machine n) : Prop :=
  ∃ a b, a ≠ b ∧ m.ptable = some a ∧ (m.pc a).wantsTicks ∧ m.tickslock = some b ∧
    (m.pc b).wantsTable

/-- A CPU that has one of the locks begins to wait for the other only while no other CPU has it. -/
structure Ordered (m m' : Machine n) (c : Fin n) : Prop where
  table : m.tickslock = some c → (m'.pc c).wantsTable → ∀ a, a ≠ c → m.ptable ≠ some a
  ticks : m.ptable = some c → (m'.pc c).wantsTicks → ∀ b, b ≠ c → m.tickslock ≠ some b

def OrderedStep (m m' : Machine n) : Prop := ∃ c e, step m c e = some m' ∧ Ordered m m' c

/-! ## What a step does to the locks -/

/-- A step of CPU `c`: it takes a lock that is free, drops a lock, or only moves on. -/
structure Moves (c : Fin n) (m m' : Machine n) : Prop where
  others : ∀ d, d ≠ c → m'.pc d = m.pc d
  table : m'.ptable = m.ptable ∨ m'.ptable = none ∨
    m.ptable = none ∧ m'.ptable = some c ∧ (m'.pc c).wantsTicks = false
  ticks : m'.tickslock = m.tickslock ∨ m'.tickslock = none ∨
    m.tickslock = none ∧ m'.tickslock = some c ∧ (m'.pc c).wantsTable = false

namespace Machine

theorem goto_others (m : Machine n) (pc : Pc) {d : Fin n} (other : d ≠ c) :
    (m.goto c pc).pc d = m.pc d :=
  Function.update_of_ne other _ _

@[simp]
theorem goto_self (m : Machine n) (pc : Pc) : (m.goto c pc).pc c = pc :=
  Function.update_self _ _ _

theorem moves_goto (m : Machine n) (pc : Pc) (proc : Table) (ticks : Word)
    (resume : Fin NPROC → Resume) :
    Moves c m { m.goto c pc with proc := proc, ticks := ticks, resume := resume } where
  others := fun _ other => m.goto_others pc other
  table := Or.inl rfl
  ticks := Or.inl rfl

theorem moves_dropTable (m : Machine n) (pc : Pc) (proc : Table) :
    Moves c m { m.dropTable c pc with proc := proc } where
  others := fun _ other => m.goto_others pc other
  table := Or.inr (Or.inl rfl)
  ticks := Or.inl rfl

theorem moves_dropTicks (m : Machine n) (pc : Pc) (proc : Table) (resume : Fin NPROC → Resume) :
    Moves c m { m.dropTicks c pc with proc := proc, resume := resume } where
  others := fun _ other => m.goto_others pc other
  table := Or.inl rfl
  ticks := Or.inr (Or.inl rfl)

theorem takeTable_of_free (free : m.ptable = none) (pc : Pc) :
    m.takeTable c pc = some { m.goto c pc with ptable := some c } :=
  if_pos free

theorem takeTicks_of_free (free : m.tickslock = none) (pc : Pc) :
    m.takeTicks c pc = some { m.goto c pc with tickslock := some c } :=
  if_pos free

theorem moves_takeTable {pc : Pc} (taken : m.takeTable c pc = some m')
    (next : pc.wantsTicks = false) : Moves c m m' := by
  simp only [takeTable, Option.ite_none_right_eq_some] at taken
  rcases taken with ⟨free, taken⟩
  cases taken
  refine ⟨fun _ other => m.goto_others pc other, Or.inr (Or.inr ⟨free, rfl, ?_⟩), Or.inl rfl⟩
  change ((m.goto c pc).pc c).wantsTicks = false
  rw [goto_self, next]

theorem moves_takeTicks {pc : Pc} (taken : m.takeTicks c pc = some m')
    (next : pc.wantsTable = false) : Moves c m m' := by
  simp only [takeTicks, Option.ite_none_right_eq_some] at taken
  rcases taken with ⟨free, taken⟩
  cases taken
  refine ⟨fun _ other => m.goto_others pc other, Or.inl rfl, Or.inr (Or.inr ⟨free, rfl, ?_⟩)⟩
  change ((m.goto c pc).pc c).wantsTable = false
  rw [goto_self, next]

theorem moves_account {p : Fin NPROC} {search : ℕ} (resumed : m.account c p search = some m') :
    Moves c m m' := by
  rcases Option.map_eq_some_iff.mp resumed with ⟨q, _, rfl⟩
  exact m.moves_dropTicks _ _ _

/-- A step of one CPU takes or gives back what its next statement says. -/
theorem moves_run (stepped : m.run c = some m') : Moves c m m' := by
  unfold run at stepped
  split at stepped
  case h_1 =>
    cases stepped
    exact m.moves_goto _ _ _ _
  case h_2 => exact moves_takeTable stepped rfl
  case h_3 =>
    split at stepped
    · cases stepped
      exact m.moves_goto _ _ _ _
    · split_ifs at stepped
      · cases stepped
        exact m.moves_goto _ _ _ _
      · cases stepped
        exact m.moves_dropTable _ _
  case h_4 => exact moves_takeTicks stepped rfl
  case h_5 =>
    cases stepped
    exact m.moves_dropTicks _ _ _
  case h_6 =>
    split at stepped
    · cases stepped
      exact m.moves_dropTable _ _
    · cases stepped
      exact m.moves_dropTable _ _
  case h_7 => cases stepped
  case h_8 => exact moves_takeTicks stepped rfl
  case h_9 =>
    cases stepped
    exact m.moves_dropTicks _ _ _
  case h_10 => exact moves_takeTicks stepped rfl
  case h_11 =>
    split_ifs at stepped
    · cases stepped
      exact m.moves_goto _ _ _ _
    · cases stepped
      exact m.moves_goto _ _ _ _
  case h_12 => exact moves_takeTable stepped rfl
  case h_13 =>
    cases stepped
    exact m.moves_dropTicks _ _ _
  case h_14 => exact moves_takeTable stepped rfl
  case h_15 =>
    cases stepped
    exact m.moves_goto _ _ _ _
  case h_16 => exact moves_takeTicks stepped rfl
  case h_17 => exact moves_account stepped
  case h_18 => exact moves_takeTicks stepped rfl
  case h_19 =>
    cases stepped
    exact m.moves_goto _ _ _ _
  case h_20 => exact moves_takeTable stepped rfl
  case h_21 =>
    cases stepped
    exact m.moves_dropTable _ _
  case h_22 =>
    split at stepped
    · cases stepped
      exact m.moves_dropTicks _ _ _
    · cases stepped
      exact m.moves_dropTicks _ _ _

end Machine

theorem moves_step (stepped : step m c e = some m') : Moves c m m' := by
  cases e with
  | run => exact Machine.moves_run stepped
  | timer =>
      simp only [step, Machine.timer] at stepped
      split at stepped
      · split_ifs at stepped
        · cases stepped
          exact m.moves_goto _ _ _ _
        · cases stepped
          exact ⟨fun _ _ => rfl, Or.inl rfl, Or.inl rfl⟩
      · split_ifs at stepped
        · cases stepped
          exact m.moves_goto _ _ _ _
        · cases stepped
          exact m.moves_goto _ _ _ _
      · cases stepped
  | uptime =>
      simp only [step] at stepped
      split at stepped
      · cases stepped
        exact m.moves_goto _ _ _ _
      · cases stepped
  | sleep k =>
      simp only [step] at stepped
      split at stepped
      · cases stepped
        exact m.moves_goto _ _ _ _
      · cases stepped

/-! ## Runs in order -/

/-- An ordered step does not close a cycle. -/
theorem Moves.deadlock (moves : Moves c m m') (ordered : Ordered m m' c) (after : Deadlock m') :
    Deadlock m := by
  rcases after with ⟨a, b, ne, hasTable, wantsTicks, hasTicks, wantsTable⟩
  -- A CPU that waits for one lock has not just taken the other.
  have table : m.ptable = some a := by
    rcases moves.table with same | none | ⟨_, taken, busy⟩
    · rw [← same, hasTable]
    · rw [none] at hasTable
      cases hasTable
    · rw [hasTable] at taken
      cases taken
      rw [busy] at wantsTicks
      cases wantsTicks
  have ticks : m.tickslock = some b := by
    rcases moves.ticks with same | none | ⟨_, taken, busy⟩
    · rw [← same, hasTicks]
    · rw [none] at hasTicks
      cases hasTicks
    · rw [hasTicks] at taken
      cases taken
      rw [busy] at wantsTable
      cases wantsTable
  by_cases isA : a = c
  · subst isA
    exact absurd ticks (ordered.ticks table wantsTicks b ne.symm)
  · by_cases isB : b = c
    · subst isB
      exact absurd table (ordered.table ticks wantsTable a ne)
    · rw [moves.others a isA] at wantsTicks
      rw [moves.others b isB] at wantsTable
      exact ⟨a, b, ne, table, wantsTicks, ticks, wantsTable⟩

theorem no_deadlock_of_ordered (run : ReflTransGen OrderedStep (Machine.init n) m) :
    ¬Deadlock m := by
  induction run with
  | refl =>
      rintro ⟨a, _, _, hasTable, _⟩
      cases hasTable
  | tail _ last ih =>
      rcases last with ⟨c, e, stepped, ordered⟩
      exact fun after => ih ((moves_step stepped).deadlock ordered after)

/-! ## The deadlock -/

theorem searchPri_firstTable : searchPri firstTable (List.finRange NPROC) = LOW_PRI := by
  decide

/-- CPU 1 has found `init` and waits for `tickslock`; CPU 0 has counted a tick. -/
def entangled (c₀ c₁ : Fin n) : Machine n where
  proc := firstTable.set 0 { firstTable 0 with state := .running }
  ticks := 1
  ptable := some c₁
  tickslock := some c₀
  pc := Function.update (Function.update (fun _ => .idle) c₁ (.startAcquire 0 LOW_PRI)) c₀
    (.timerTable none)
  resume := fun _ => .user

/-- CPU 1 begins a round and finds `init`, and CPU 0 is interrupted by the timer. -/
theorem run_entangled {c₀ c₁ : Fin n} (first : c₀.val = 0) (other : c₁ ≠ c₀) :
    ReflTransGen Step (Machine.init n) (entangled c₀ c₁) := by
  let start := Machine.init n
  let scanning : Machine n := { start.goto c₁ (.scan 0 LOW_PRI) with ptable := some c₁ }
  let found : Machine n := { scanning.goto c₁ (.startAcquire 0 LOW_PRI) with
    proc := firstTable.set 0 { firstTable 0 with state := .running } }
  let counting : Machine n := { found.goto c₀ (.timerTick none) with tickslock := some c₀ }
  have one : Step start (start.goto c₁ .roundAcquire) := ⟨c₁, .run, rfl⟩
  have two : Step (start.goto c₁ .roundAcquire) scanning := by
    refine ⟨c₁, .run, ?_⟩
    simp only [step, Machine.run, Machine.goto_self]
    rw [Machine.takeTable_of_free rfl]
    simp only [scanning, Machine.goto, Function.update_idem, start, Machine.init,
      searchPri_firstTable]
  have three : Step scanning found := by
    refine ⟨c₁, .run, ?_⟩
    have candidate : scanning.proc.candidate 0 LOW_PRI = some 0 := rfl
    have at_pc : scanning.pc c₁ = .scan 0 LOW_PRI := Function.update_self _ _ _
    simp only [step, Machine.run, at_pc, candidate]
    rfl
  have four : Step found (found.goto c₀ (.timerAcquire none)) := by
    refine ⟨c₀, .timer, ?_⟩
    have at_pc : found.pc c₀ = .idle := by
      simp [found, scanning, start, Machine.goto, Machine.init, other.symm]
    simp only [step, Machine.timer, at_pc, if_pos first]
  have five : Step (found.goto c₀ (.timerAcquire none)) counting := by
    refine ⟨c₀, .run, ?_⟩
    simp only [step, Machine.run, Machine.goto_self]
    rw [Machine.takeTicks_of_free rfl]
    simp only [counting, Machine.goto, Function.update_idem]
  have six : Step counting (entangled c₀ c₁) := by
    refine ⟨c₀, .run, ?_⟩
    have at_pc : counting.pc c₀ = .timerTick none := Function.update_self _ _ _
    simp only [step, Machine.run, at_pc]
    simp only [entangled, counting, found, scanning, start, Machine.goto, Machine.init,
      Function.update_idem]
    rfl
  exact .head one (.head two (.head three (.head four (.head five (.single six)))))

theorem deadlock_entangled {c₀ c₁ : Fin n} (other : c₁ ≠ c₀) : Deadlock (entangled c₀ c₁) := by
  refine ⟨c₁, c₀, other, rfl, ?_, rfl, ?_⟩
  · simp [entangled, other, Pc.wantsTicks]
  · simp [entangled, Pc.wantsTable]

/--
With one CPU there is no deadlock of the two locks, and with more there always is one to
be reached; but with any number of CPUs a run in which the locks are taken in order stays
clear of it.
-/
theorem no_deadlock_iff (n : ℕ) (some : 1 ≤ n) (_few : n ≤ NCPU) :
    ((∀ m, ReflTransGen Step (Machine.init n) m → ¬Deadlock m) ↔ n = 1) ∧
      ∀ m, ReflTransGen OrderedStep (Machine.init n) m → ¬Deadlock m := by
  refine ⟨⟨?_, ?_⟩, fun m run => no_deadlock_of_ordered run⟩
  · intro never
    by_contra notOne
    have two : 1 < n := by omega
    let c₀ : Fin n := ⟨0, by omega⟩
    let c₁ : Fin n := ⟨1, two⟩
    have other : c₁ ≠ c₀ := by simp [c₀, c₁]
    exact never _ (run_entangled rfl other) (deadlock_entangled other)
  · rintro rfl m _ ⟨a, b, ne, _⟩
    exact ne (Subsingleton.elim a b)

/-- One CPU cannot wait for itself. -/
theorem no_deadlock_iff_one : ¬∃ m, ReflTransGen Step (Machine.init 1) m ∧ Deadlock m := by
  rintro ⟨m, run, deadlock⟩
  exact (no_deadlock_iff 1 le_rfl (by decide)).1.mpr rfl m run deadlock

/-- One CPU has `ptable.lock` and wants `tickslock`, and the timer interrupt on the other one has
them the other way round. -/
theorem deadlock_twoCpus : ¬∀ k, 1 ≤ k → k ≤ NCPU →
    ∀ m, ReflTransGen Step (Machine.init k) m → ¬Deadlock m := by
  intro never
  have other : (1 : Fin 2) ≠ 0 := by decide
  exact never 2 (by decide) (by decide) _ (run_entangled rfl other) (deadlock_entangled other)

end Xv6.Sched.Smp
