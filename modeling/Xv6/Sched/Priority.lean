import Xv6.Lib.Runs
import Xv6.Sched.Scheduler

/-!
# Strict priority

A round searches for `HIGH_PRI` if some process is runnable with that priority, and
afterwards raises the level only to the priority of the process it has switched to.
So while the level is low there must be no runnable process of high priority. The
round itself keeps this true; a wakeup of a sleeping process of high priority does
not, since it leaves the level where it is.
-/

namespace Xv6.Sched

open Relation

/-- Process `j` is runnable with high priority. -/
def High (t : Table) (j : Fin NPROC) : Prop := (t j).state = .runnable ∧ (t j).pri = HIGH_PRI

/-- If the scheduler switches to a process now, it is one of the highest priority there is. -/
def StrictNow (m : Machine) : Prop :=
  ∀ p j, m.switchesTo = some p → High m.proc j → (m.proc p).pri = HIGH_PRI

/-- Process `j`, which sleeps, is made runnable by the event. -/
def Wakes (m : Machine) (j : Fin NPROC) : Event → Prop
  | .tick => (m.proc j).chan = some .ticks
  | .interrupt chan => (m.proc j).chan = some chan
  | .wakeup chan => (m.proc j).chan = some chan
  | .kill pid => (List.finRange NPROC).find? (fun i => (m.proc i).pid = pid) = some j
  | .exit => ∃ i search, m.pc = .slice i search ∧
      ((m.proc j).chan = (m.proc i).parent.map .proc ∨
        m.proc.hasZombie i ∧ (m.proc j).chan = some (.proc m.initproc))
  | _ => False

/-- While the level of the round is low, no sleeping process of high priority is woken up. -/
def Calm (m : Machine) (e : Event) : Prop :=
  ∀ i search, m.pc = .slice i search → search ≠ HIGH_PRI →
    ∀ j, (m.proc j).state = .sleeping → Wakes m j e → (m.proc j).pri ≠ HIGH_PRI

def Step (m m' : Machine) : Prop := ∃ e, step m e = some m'

def CalmStep (m m' : Machine) : Prop := ∃ e, Calm m e ∧ step m e = some m'

/-! ## The level of a round -/

/-- The level is low only if nobody of high priority can run. -/
theorem searchPri_eq {t : Table} {l : List (Fin NPROC)} :
    searchPri t l = HIGH_PRI ∨
      searchPri t l = LOW_PRI ∧ ∀ j ∈ l, (t j).state = .runnable → (t j).pri ≠ HIGH_PRI := by
  induction l with
  | nil => exact Or.inr ⟨rfl, fun _ impossible => by cases impossible⟩
  | cons i rest ih =>
      have skip : ((t i).state = .runnable → (t i).pri ≠ HIGH_PRI) →
          searchPri t rest = HIGH_PRI ∨ searchPri t rest = LOW_PRI ∧
            ∀ j ∈ i :: rest, (t j).state = .runnable → (t j).pri ≠ HIGH_PRI := by
        intro low
        rcases ih with high | ⟨level, others⟩
        · exact Or.inl high
        · refine Or.inr ⟨level, fun j mem => ?_⟩
          rcases List.mem_cons.mp mem with rfl | later
          · exact low
          · exact others j later
      simp only [searchPri]
      split_ifs with notCandidate high
      · apply skip
        rintro runnable equal
        rcases notCandidate with other | below
        · exact other runnable
        · rw [equal] at below
          exact absurd below (by decide)
      · exact Or.inl high.2
      · apply skip
        rintro _ equal
        exact high ⟨by rw [equal]; decide, equal⟩

/-- The level is high, or it is low and nothing runnable has high priority. -/
def Level (t : Table) (search : ℕ) : Prop :=
  search = HIGH_PRI ∨ search = LOW_PRI ∧ ∀ j, (t j).state = .runnable → (t j).pri ≠ HIGH_PRI

theorem Level.of_searchPri (t : Table) : Level t (searchPri t (List.finRange NPROC)) := by
  rcases searchPri_eq (t := t) (l := List.finRange NPROC) with high | ⟨low, none⟩
  · exact Or.inl high
  · exact Or.inr ⟨low, fun j => none j (List.mem_finRange j)⟩

/-- No process becomes runnable with high priority. -/
theorem Level.mono {t t' : Table} {search : ℕ} (level : Level t search)
    (same : search ≠ HIGH_PRI → ∀ j, (t' j).state = .runnable → (t' j).pri = HIGH_PRI →
      (t j).state = .runnable ∧ (t j).pri = HIGH_PRI) : Level t' search := by
  rcases level with high | ⟨low, none⟩
  · exact Or.inl high
  · refine Or.inr ⟨low, fun j runnable equal => ?_⟩
    have was := same (by rw [low]; decide) j runnable equal
    exact none j was.1 was.2

/-- What holds at each place of the CPU. -/
def Invariant (m : Machine) : Prop :=
  match m.pc with
  | .idle => True
  | .scan _ search => Level m.proc search
  | .slice i search => Level m.proc search ∧ (m.proc i).state = .running ∧
      ((m.proc i).pri = LOW_PRI ∨ (m.proc i).pri = HIGH_PRI)

/-! ## Steps -/

section Steps

variable {m m' : Machine} {i : Fin NPROC} {search : ℕ} {t : Table}

theorem Invariant.acquire (stepped : step m .acquire = some m') : Invariant m' := by
  simp only [step, Option.ite_none_right_eq_some] at stepped
  cases stepped.2
  exact Level.of_searchPri m.proc

/-- The scan keeps to its level. -/
theorem Invariant.look (inv : Invariant m) (stepped : step m .look = some m') : Invariant m' := by
  simp only [step, Machine.look] at stepped
  split at stepped
  next k search at_pc =>
    simp only [Invariant, at_pc] at inv
    split at stepped
    next p found =>
      cases stepped
      have chosen : (m.proc p).pri = search := by
        simp only [Machine.switchesTo, at_pc] at found
        exact (Table.candidate_eq_some.mp found).2.2
      refine ⟨inv.mono ?_, ?_, ?_⟩
      · intro _ j runnable high
        by_cases same : j = p
        · subst same
          simp only [Table.set_self] at runnable
          cases runnable
        · simp only [m.proc.set_of_ne same] at runnable high
          exact ⟨runnable, high⟩
      · simp only [Table.set_self]
      · simp only [Table.set_self, chosen]
        rcases inv with high | ⟨low, _⟩
        · exact Or.inr high
        · exact Or.inl low
    next =>
      split_ifs at stepped
      · cases stepped
        exact inv
      · cases stepped
        trivial
  next => cases stepped

/-- The scheduler goes on after a slice. -/
theorem Invariant.resume (level : search = HIGH_PRI ∨
      search = LOW_PRI ∧ ∀ j, j ≠ i → (t j).state = .runnable → (t j).pri ≠ HIGH_PRI)
    (resumed : m.resume i search t = some m') : Invariant m' := by
  have goesOn : ∀ p : Proc, p.state = (t i).state → p.pri = (t i).pri →
      ((t i).pri = LOW_PRI ∨ (t i).pri = HIGH_PRI) →
      Level (t.set i p) ((t i).raise search) := by
    intro p state pri known
    rw [Proc.raise]
    rcases level with high | ⟨low, none⟩
    · left
      rw [if_neg]
      · exact high
      · rintro ⟨_, above⟩
        simp only [LOW_PRI, HIGH_PRI] at known high
        omega
    · by_cases raised : (t i).state ≠ .zombie ∧ (t i).pri > search
      · rw [if_pos raised]
        left
        rcases known with low' | high
        · omega
        · exact high
      · rw [if_neg raised]
        refine Or.inr ⟨low, fun j runnable high => ?_⟩
        by_cases same : j = i
        · rw [same, t.set_self] at runnable high
          rw [state] at runnable
          rw [pri] at high
          apply raised
          rw [runnable, high, low]
          decide
        · rw [t.set_of_ne same] at runnable high
          exact none j same runnable high
  rcases Option.map_eq_some_iff.mp resumed with ⟨p, accounted, rfl⟩
  rcases Proc.account_eq_some.mp accounted with ⟨low, rfl⟩ | ⟨high, rfl⟩
  · exact goesOn _ rfl rfl (Or.inl low)
  · exact goesOn _ rfl rfl (Or.inr high)

theorem high_wakeup1 {chan : Option Chan} {j : Fin NPROC} (high : High (t.wakeup1 chan) j) :
    High t j ∨ (t j).state = .sleeping ∧ (t j).chan = chan ∧ (t j).pri = HIGH_PRI := by
  simp only [High, Table.wakeup1] at high
  split_ifs at high with wakes
  · exact Or.inr ⟨wakes.1, wakes.2, high.2⟩
  · exact Or.inl high

theorem wakeup1_running {chan : Option Chan} (running : (t i).state = .running) :
    t.wakeup1 chan i = t i := by
  rw [Table.wakeup1, if_neg]
  rintro ⟨asleep, _⟩
  rw [running] at asleep
  cases asleep

/-- A step of a slice that goes on: the running process and the high ones are as before. -/
theorem Invariant.of_slice (inv : Invariant m) (at_pc : m.pc = .slice i search)
    (table : m'.proc = t) (stays : m'.pc = m.pc) (running : (t i).state = .running)
    (pri : (t i).pri = (m.proc i).pri ∨ (t i).pri = LOW_PRI ∨ (t i).pri = HIGH_PRI)
    (others : search ≠ HIGH_PRI → ∀ j, High t j → High m.proc j) : Invariant m' := by
  simp only [Invariant, at_pc] at inv
  rcases inv with ⟨level, _, known⟩
  simp only [Invariant, stays, at_pc, table]
  refine ⟨level.mono fun low j runnable high => others low j ⟨runnable, high⟩, running, ?_⟩
  rcases pri with same | new
  · rw [same]
    exact known
  · exact new

/-- A wakeup is calm if it raises no level. -/
theorem Invariant.wakeup1 {chan : Chan} (inv : Invariant m) (at_pc : m.pc = .slice i search)
    (calm : search ≠ HIGH_PRI → ∀ j, (m.proc j).state = .sleeping → (m.proc j).chan = some chan →
      (m.proc j).pri ≠ HIGH_PRI)
    (table : m'.proc = m.proc.wakeup1 (some chan)) (stays : m'.pc = m.pc) : Invariant m' := by
  have running : (m.proc i).state = .running := by
    simp only [Invariant, at_pc] at inv
    exact inv.2.1
  refine inv.of_slice at_pc table stays ?_ ?_ ?_
  · rw [wakeup1_running running, running]
  · rw [wakeup1_running running]
    exact Or.inl rfl
  · intro low j high
    rcases high_wakeup1 high with before | ⟨asleep, same, equal⟩
    · exact before
    · exact absurd equal (calm low j asleep same)

/-- A step of a slice that changes one entry, other than the running one. -/
theorem Invariant.set {j : Fin NPROC} {p : Proc} (inv : Invariant m)
    (at_pc : m.pc = .slice i search) (table : m'.proc = m.proc.set j p) (stays : m'.pc = m.pc)
    (other : (m.proc j).state ≠ .running)
    (low : search ≠ HIGH_PRI → p.state = .runnable → p.pri = HIGH_PRI → High m.proc j) :
    Invariant m' := by
  have running : (m.proc i).state = .running := by
    simp only [Invariant, at_pc] at inv
    exact inv.2.1
  have distinct : i ≠ j := by
    rintro rfl
    exact other running
  refine inv.of_slice at_pc table stays ?_ ?_ ?_
  · rw [m.proc.set_of_ne distinct, running]
  · rw [m.proc.set_of_ne distinct]
    exact Or.inl rfl
  · intro below k high
    by_cases same : k = j
    · subst same
      rw [High, m.proc.set_self] at high
      exact low below high.1 high.2
    · rwa [High, m.proc.set_of_ne same] at high

/-- The running process leaves the CPU and nobody else changes. -/
theorem Invariant.leave {p : Proc} (inv : Invariant m) (at_pc : m.pc = .slice i search)
    (resumed : m.resume i search (m.proc.set i p) = some m') : Invariant m' := by
  simp only [Invariant, at_pc] at inv
  refine Invariant.resume ?_ resumed
  rcases inv.1 with high | ⟨low, none⟩
  · exact Or.inl high
  · refine Or.inr ⟨low, fun j other runnable => ?_⟩
    rw [m.proc.set_of_ne other] at runnable ⊢
    exact none j runnable

theorem Invariant.exit (inv : Invariant m) (at_pc : m.pc = .slice i search)
    (calm : Calm m .exit) (resumed : m.resume i search (m.proc.exit i m.initproc) = some m') :
    Invariant m' := by
  simp only [Invariant, at_pc] at inv
  refine Invariant.resume ?_ resumed
  rcases inv.1 with level | ⟨low, none⟩
  · exact Or.inl level
  have below : search ≠ HIGH_PRI := by
    rw [low]
    decide
  have first : ∀ j, High (m.proc.wakeup1 ((m.proc i).parent.map .proc)) j → High m.proc j := by
    intro j high
    rcases high_wakeup1 high with before | ⟨asleep, chan, equal⟩
    · exact before
    · exact absurd equal (calm i search at_pc below j asleep ⟨i, search, at_pc, Or.inl chan⟩)
  have passed : ∀ j, High ((m.proc.wakeup1 ((m.proc i).parent.map .proc)).passChildren i m.initproc)
    j →
      High m.proc j := by
    intro j high
    apply first j
    simpa [High] using high
  have second : m.proc.hasZombie i → ∀ j, High (((m.proc.wakeup1 ((m.proc i).parent.map
      .proc)).passChildren i m.initproc).wakeup1 (some (.proc m.initproc))) j → High m.proc j := by
    intro zombie j high
    rcases high_wakeup1 high with before | ⟨asleep, chan, equal⟩
    · exact passed j before
    · simp only [Table.passChildren_state, Table.passChildren_chan, Table.passChildren_pri,
        Table.wakeup1_chan, Table.wakeup1_pri] at asleep chan equal
      exact absurd equal (calm i search at_pc below j (Table.sleeping_of_wakeup1 _ j asleep)
        ⟨i, search, at_pc, Or.inr ⟨zombie, chan⟩⟩)
  refine Or.inr ⟨low, fun j other runnable equal => ?_⟩
  have high : High (m.proc.exit i m.initproc) j := ⟨runnable, equal⟩
  rw [High, Table.exit, Table.set_of_ne _ other] at high
  have before : High m.proc j := by
    by_cases zombie : m.proc.hasZombie i
    · rw [if_pos zombie] at high
      exact second zombie j high
    · rw [if_neg zombie] at high
      exact passed j high
  exact none j before.1 before.2

/-- A process that `kill` finds sleeping becomes runnable; any other keeps its state. -/
theorem Invariant.kill {pid : Word} (inv : Invariant m) (at_pc : m.pc = .slice i search)
    (calm : Calm m (.kill pid)) (table : m'.proc = m.proc.kill pid) (stays : m'.pc = m.pc) :
    Invariant m' := by
  have running : (m.proc i).state = .running := by
    simp only [Invariant, at_pc] at inv
    exact inv.2.1
  rw [Table.kill] at table
  split at table
  next j found =>
    have pri : ∀ k, (m'.proc k).pri = (m.proc k).pri := by
      intro k
      rw [table]
      by_cases same : k = j
      · rw [same, Table.set_self]
      · rw [Table.set_of_ne _ same]
    refine inv.of_slice at_pc rfl stays ?_ (Or.inl (pri i)) ?_
    · rw [table]
      by_cases same : i = j
      · subst same
        simp only [Table.set_self, running]
        decide
      · rw [Table.set_of_ne _ same, running]
    · intro low k high
      refine ⟨?_, (pri k).symm.trans high.2⟩
      have runnable := high.1
      rw [table] at runnable
      by_cases same : k = j
      · subst same
        simp only [Table.set_self] at runnable
        split_ifs at runnable with asleep
        · exact absurd ((pri k).symm.trans high.2) (calm i search at_pc low k asleep found)
        · exact runnable
      · rwa [Table.set_of_ne _ same] at runnable
  next =>
    refine inv.of_slice at_pc table stays running (Or.inl rfl) fun _ _ high => high

/-- A calm event of the running process keeps the invariant. -/
theorem Invariant.runStep {e : Event} (inv : Invariant m) (calm : Calm m e)
    (at_pc : m.pc = .slice i search) (stepped : runStep m i search e = some m') : Invariant m' := by
  have running : (m.proc i).state = .running := by
    simp only [Invariant, at_pc] at inv
    exact inv.2.1
  cases e with
  | acquire => cases stepped
  | look => cases stepped
  | tick => cases stepped
  | interrupt chan => cases stepped
  | setpri priority =>
      cases stepped
      by_cases illegal : priority < 1 ∨ priority > 2
      · refine inv.of_slice at_pc rfl rfl ?_ ?_ ?_
        · rw [Table.setpri, if_pos illegal, running]
        · rw [Table.setpri, if_pos illegal]
          exact Or.inl rfl
        · rw [Table.setpri, if_pos illegal]
          exact fun _ _ high => high
      · have value : priority.toNat = LOW_PRI ∨ priority.toNat = HIGH_PRI := by
          simp only [LOW_PRI, HIGH_PRI]
          omega
        refine inv.of_slice at_pc rfl rfl ?_ ?_ ?_
        · simp only [Table.setpri, if_neg illegal, Table.set_self, running]
        · simp only [Table.setpri, if_neg illegal, Table.set_self]
          exact Or.inr value
        · intro _ j high
          by_cases same : j = i
          · subst same
            simp only [High, Table.setpri, if_neg illegal, Table.set_self, running] at high
            cases high.1
          · simpa only [High, Table.setpri, if_neg illegal, Table.set_of_ne _ same] using high
  | allocproc =>
      simp only [Sched.runStep, Table.allocproc] at stepped
      split at stepped
      next j t found =>
        split at found
        next k unused =>
          cases found
          cases stepped
          have free := List.find?_some unused
          simp only [decide_eq_true_eq] at free
          refine inv.set at_pc rfl rfl (by rw [free]; decide) fun _ runnable => ?_
          cases runnable
        next => cases found
      next =>
        cases stepped
        exact inv
  | discard child =>
      simp only [Sched.runStep, Option.ite_none_right_eq_some] at stepped
      rcases stepped with ⟨embryo, stepped⟩
      cases stepped
      refine inv.set at_pc rfl rfl (by rw [embryo]; decide) fun _ runnable => ?_
      cases runnable
  | fork child =>
      simp only [Sched.runStep, Option.ite_none_right_eq_some] at stepped
      rcases stepped with ⟨embryo, stepped⟩
      cases stepped
      refine inv.set at_pc rfl rfl (by rw [embryo]; decide) fun _ _ high => ?_
      exact absurd (show LOW_PRI = HIGH_PRI from high) (by decide)
  | wakeup chan =>
      cases stepped
      exact inv.wakeup1 at_pc (fun low j asleep same => calm i search at_pc low j asleep same) rfl
        rfl
  | kill pid =>
      simp only [Sched.runStep] at stepped
      cases stepped
      exact inv.kill at_pc calm rfl rfl
  | wait =>
      simp only [Sched.runStep, Table.wait] at stepped
      split at stepped
      next t waited =>
        split at waited
        next j zombie =>
          cases waited
          cases stepped
          have dead := List.find?_some zombie
          simp only [decide_eq_true_eq] at dead
          refine inv.set at_pc rfl rfl (by rw [dead.2]; decide) fun _ runnable => ?_
          cases runnable
        next => split_ifs at waited
      next =>
        cases stepped
        exact inv
      next t waited =>
        split at waited
        next => cases waited
        next =>
          split_ifs at waited
          cases waited
          exact inv.leave at_pc stepped
  | sleep chan => exact inv.leave at_pc stepped
  | yield => exact inv.leave at_pc stepped
  | exit =>
      simp only [Sched.runStep] at stepped
      split_ifs at stepped
      exact inv.exit at_pc calm stepped

/-- An interrupt handler runs between two rounds or in a slice. -/
theorem Invariant.interrupt {chan : Chan} (inv : Invariant m) (open_ : m.pc.interruptible)
    (calm : ∀ i search, m.pc = .slice i search → search ≠ HIGH_PRI → ∀ j,
      (m.proc j).state = .sleeping → (m.proc j).chan = some chan → (m.proc j).pri ≠ HIGH_PRI)
    (table : m'.proc = m.proc.wakeup1 (some chan)) (stays : m'.pc = m.pc) : Invariant m' := by
  cases at_pc : m.pc with
  | idle => simp only [Invariant, stays, at_pc]
  | scan k search =>
      rw [at_pc] at open_
      cases open_
  | slice i search => exact inv.wakeup1 at_pc (calm i search at_pc) table stays

theorem Invariant.step {e : Event} (inv : Invariant m) (calm : Calm m e)
    (stepped : step m e = some m') : Invariant m' := by
  have inSlice : (∃ i search, m.pc = .slice i search ∧ Sched.runStep m i search e = some m') →
      Invariant m' := by
    rintro ⟨i, search, at_pc, ran⟩
    exact inv.runStep calm at_pc ran
  cases e with
  | acquire => exact Invariant.acquire stepped
  | look => exact inv.look stepped
  | tick =>
      simp only [Sched.step, Option.ite_none_right_eq_some] at stepped
      rcases stepped with ⟨open_, stepped⟩
      cases stepped
      exact inv.interrupt open_ calm rfl rfl
  | interrupt chan =>
      simp only [Sched.step, Option.ite_none_right_eq_some] at stepped
      rcases stepped with ⟨open_, stepped⟩
      cases stepped
      exact inv.interrupt open_ calm rfl rfl
  | setpri priority => exact inSlice (exists_slice stepped)
  | allocproc => exact inSlice (exists_slice stepped)
  | discard child => exact inSlice (exists_slice stepped)
  | fork child => exact inSlice (exists_slice stepped)
  | wakeup chan => exact inSlice (exists_slice stepped)
  | kill pid => exact inSlice (exists_slice stepped)
  | wait => exact inSlice (exists_slice stepped)
  | sleep chan => exact inSlice (exists_slice stepped)
  | yield => exact inSlice (exists_slice stepped)
  | exit => exact inSlice (exists_slice stepped)

end Steps

/-! ## Runs -/

theorem Invariant.run {m₀ m : Machine} (start : m₀.pc = .idle)
    (run : ReflTransGen CalmStep m₀ m) : Invariant m := by
  induction run with
  | refl => simp only [Invariant, start]
  | tail _ calmStep ih =>
      rcases calmStep with ⟨e, calm, stepped⟩
      exact ih.step calm stepped

/-- The invariant says that no waiting process has a higher priority. -/
theorem Invariant.strictNow {m : Machine} (inv : Invariant m) : StrictNow m := by
  rintro p j chosen high
  simp only [Machine.switchesTo] at chosen
  split at chosen
  next k search at_pc =>
    simp only [Invariant, at_pc] at inv
    rcases inv with level | ⟨_, none⟩
    · rw [(Table.candidate_eq_some.mp chosen).2.2, level]
    · exact absurd high.2 (none j high.1)
  next => cases chosen

/-- From any process table, in every calm run, the scheduler never switches to a process of low
priority while one of high priority is runnable. -/
theorem strictNow_of_calm_run (m₀ m : Machine) (start : m₀.pc = .idle)
    (run : ReflTransGen CalmStep m₀ m) : StrictNow m :=
  (Invariant.run start run).strictNow

/-! ## Two runs

Slots 0 and 1 hold runnable processes, and the process of slot 2 sleeps with high priority. -/

def slot (state : State) (pri : ℕ) : Proc where
  state := state
  pid := 1
  parent := none
  chan := some (.addr 0)
  killed := false
  schedTime := 0
  lopTicks := 0
  hipTicks := 0
  pri := pri

/-- The process of slot 0 has priority `pri`. -/
def threeProcs (pri : ℕ) : Machine where
  proc := fun i =>
    if i = 0 then slot .runnable pri
    else if i = 1 then slot .runnable LOW_PRI
    else if i = 2 then slot .sleeping HIGH_PRI
    else slot .unused 0
  initproc := 0
  nextpid := 4
  ticks := 0
  pc := .idle

/-- The process of slot 0 is dispatched, wakes up the one of slot 2 and yields. -/
def wakeAndYield : List Event := [.acquire, .look, .wakeup (.addr 0), .yield]

def steps (m : Machine) (events : List Event) : Option Machine := events.foldlM step m

theorem calm_of_high {m : Machine} {e : Event} {i : Fin NPROC} (at_pc : m.pc = .slice i HIGH_PRI) :
    Calm m e := by
  rintro j search other low
  rw [at_pc] at other
  cases other
  exact absurd rfl low

theorem reaches_of_steps {events : List Event} {m m' : Machine}
    (ran : steps m events = some m') : ReflTransGen Step m m' := Runs.run_of_foldlM events ran

/-- In a round of low level the scheduler goes on to the process of slot 1, although the one of
slot 2 is runnable by then. -/
theorem not_strictNow_wakeAndYield :
    ¬ ∀ m₀ m, m₀.pc = .idle → ReflTransGen Step m₀ m → StrictNow m := by
  intro strict
  have ran := (steps (threeProcs LOW_PRI) wakeAndYield).some_get rfl
  have low := strict _ _ rfl (reaches_of_steps ran.symm) 1 2 rfl ⟨rfl, rfl⟩
  exact absurd low (by decide)

/-- If the process of slot 0 has high priority, the level is high and slot 1 is passed over. -/
theorem strictNow_wakeAndYield : ∃ m, m.switchesTo = some 2 ∧
    ReflTransGen CalmStep (threeProcs HIGH_PRI) m ∧ StrictNow m := by
  have quiet : ∀ m : Machine, ∀ e, (∀ j, ¬ Wakes m j e) → Calm m e :=
    fun _ _ none _ _ _ _ j _ wakes => absurd wakes (none j)
  have run : ReflTransGen CalmStep (threeProcs HIGH_PRI)
      ((steps (threeProcs HIGH_PRI) (wakeAndYield ++ [.look])).get rfl) := by
    refine ReflTransGen.head ⟨.acquire, quiet _ _ fun _ => id, rfl⟩ ?_
    refine ReflTransGen.head ⟨.look, quiet _ _ fun _ => id, rfl⟩ ?_
    refine ReflTransGen.head ⟨.wakeup (.addr 0), calm_of_high rfl, rfl⟩ ?_
    refine ReflTransGen.head ⟨.yield, quiet _ _ fun _ => id, rfl⟩ ?_
    exact ReflTransGen.single ⟨.look, quiet _ _ fun _ => id, rfl⟩
  exact ⟨_, rfl, run, strictNow_of_calm_run _ _ rfl run⟩

end Xv6.Sched
