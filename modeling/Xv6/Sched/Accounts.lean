import Xv6.Sched.Rounds

/-!
# The accounts of the processes

`scheduler` of part2 on `n` CPUs, with what its processes do to the table, and the timer.
A CPU reads `ticks` when it has dispatched a process, and again when the process is back,
and adds the difference to the account of the priority that the process has by then. The
timer takes `tickslock` for a tick and then waits for `ptable.lock` in `wakeup`, so a CPU that
holds `ptable.lock` and has to read `ticks` gets no further once a tick has come. The
machine also counts, for every process, the ticks that come while it is running.
-/

namespace Xv6.Sched.Accounts

open Relation

/-! ## The machine -/

/-- Where a CPU is; a process is in slot `p`. -/
inductive Pc where
  /-- In `scheduler` between two rounds. -/
  | idle
  /-- About to look at slot `i`, with `ptable.lock` held. -/
  | scan (i search : ℕ)
  /-- About to call `sys_uptime` before the switch, with `ptable.lock` held. -/
  | start (p : Fin NPROC) (search : ℕ)
  /-- The process runs. -/
  | slice (p : Fin NPROC) (search : ℕ)
  /-- About to call `sys_uptime` after the switch back, with `ptable.lock` held. -/
  | stop (p : Fin NPROC) (search : ℕ)

namespace Pc

/-- `c->proc`. -/
def proc : Pc → Option (Fin NPROC)
  | .start p _ | .slice p _ | .stop p _ => some p
  | _ => none

/-- The process that is in state `RUNNING` on the CPU. -/
def runs : Pc → Option (Fin NPROC)
  | .start p _ | .slice p _ => some p
  | _ => none

def holds : Pc → Bool
  | .scan _ _ | .start _ _ | .stop _ _ => true
  | _ => false

theorem proc_of_runs {pc : Pc} {p : Fin NPROC} (runs : pc.runs = some p) : pc.proc = some p := by
  cases pc <;> simp_all [Pc.runs, Pc.proc]

end Pc

structure Machine (n : ℕ) where
  proc : Table
  initproc : Fin NPROC
  nextpid : Word
  ticks : Word
  /-- The CPU that holds `ptable.lock`. -/
  ptable : Option (Fin n)
  /-- The timer interrupt is being handled, and `tickslock` is held. -/
  trap : Bool
  pc : Fin n → Pc
  /-- The ticks since its fork that came while the process was running with high priority. -/
  high : Fin NPROC → ℕ
  /-- The ticks since its fork that came while the process was running with low priority. -/
  low : Fin NPROC → ℕ
  /-- The priorities at the ticks of the last slice. -/
  slice : Fin NPROC → List ℕ

variable {n : ℕ}

namespace Machine

variable (m : Machine n) (c : Fin n)

def goto (pc : Pc) : Machine n := { m with pc := Function.update m.pc c pc }

/-- The scheduler goes on with its code; none when it spins. -/
def run : Option (Machine n) :=
  match m.pc c with
  | .idle =>
      if m.ptable = none then
        some { m.goto c (.scan 0 (searchPri m.proc (List.finRange NPROC))) with ptable := some c }
      else none
  | .scan i search =>
      match m.proc.candidate i search with
      | some p => some { m.goto c (.start p search) with
          proc := m.proc.set p { m.proc p with state := .running } }
      | none =>
          if i < NPROC then some (m.goto c (.scan (i + 1) search))
          else some { m.goto c .idle with ptable := none }
  | .start p search =>
      if m.trap then none
      else some { m.goto c (.slice p search) with
        proc := m.proc.set p { m.proc p with schedTime := m.ticks, chan := none }
        slice := Function.update m.slice p [] }
  | .slice _ _ => none
  | .stop p search =>
      if m.trap then none
      else
        ((m.proc p).account m.ticks).map fun proc =>
          { m.goto c (.scan (p + 1) ((m.proc p).raise search)) with proc := m.proc.set p proc }

/-- A process is created in slot `i`, and its accounts are empty. -/
def born (i : Fin NPROC) (t : Table) : Machine n := { m with
  proc := t, high := Function.update m.high i 0, low := Function.update m.low i 0 }

/-- A critical section of the process in slot `p` after which it still runs. -/
def call (p : Fin NPROC) : Event → Option (Machine n)
  | .setpri priority => some { m with proc := m.proc.setpri p priority }
  | .allocproc =>
      match m.proc.allocproc m.nextpid with
      | some (i, t) => some { m.born i t with nextpid := m.nextpid + 1 }
      | none => some m
  | .discard child =>
      if (m.proc child).state = .embryo then some { m with proc := m.proc.discard child } else none
  | .fork child =>
      if (m.proc child).state = .embryo then some (m.born child (m.proc.fork p child)) else none
  | .wakeup chan => some { m with proc := m.proc.wakeup1 (some chan) }
  | .kill pid => some { m with proc := m.proc.kill pid }
  | .wait =>
      match m.proc.wait p with
      | .reaped t => some { m with proc := t }
      | .failed => some m
      | .sleeps _ => none
  | _ => none

/-- The process on CPU `c` does something under `ptable.lock`. -/
def process (e : Event) : Option (Machine n) :=
  match m.pc c with
  | .slice p search =>
      if m.ptable = none then
        match m.proc.leaves m.initproc p e with
        | some t => some { m.goto c (.stop p search) with proc := t, ptable := some c }
        | none => m.call p e
      else none
  | _ => none

/-- A process that has just been switched to releases `ptable.lock`. -/
def release : Option (Machine n) :=
  match m.pc c with
  | .slice _ _ => if m.ptable = some c then some { m with ptable := none } else none
  | _ => none

/-- The timer takes `tickslock` and counts. -/
def tick : Option (Machine n) :=
  if m.trap then none
  else some { m with
    ticks := m.ticks + 1
    trap := true
    high := fun p => if (m.proc p).state = .running ∧ (m.proc p).pri = HIGH_PRI then m.high p + 1
    else m.high p
    low := fun p => if (m.proc p).state = .running ∧ (m.proc p).pri = LOW_PRI then m.low p + 1
    else m.low p
    slice := fun p => if (m.proc p).state = .running then m.slice p ++ [(m.proc p).pri]
    else m.slice p }

/-- `wakeup(&ticks)`, and the timer is done. -/
def tickDone : Option (Machine n) :=
  if m.trap ∧ m.ptable = none then
    some { m with proc := m.proc.wakeup1 (some .ticks), trap := false }
  else none

end Machine

inductive Action (n : ℕ) where
  | run (c : Fin n)
  | release (c : Fin n)
  | process (c : Fin n) (e : Event)
  | tick
  | tickDone
  /-- Another interrupt handler calls `wakeup`. -/
  | interrupt (chan : Chan)

def act (m : Machine n) : Action n → Option (Machine n)
  | .run c => m.run c
  | .release c => m.release c
  | .process c e => m.process c e
  | .tick => m.tick
  | .tickDone => m.tickDone
  | .interrupt chan =>
      if m.ptable = none then some { m with proc := m.proc.wakeup1 (some chan) } else none

/-- After `userinit`, with all CPUs in `scheduler`. -/
def booted (n : ℕ) : Machine n where
  proc := firstTable
  initproc := 0
  nextpid := 2
  ticks := 0
  ptable := none
  trap := false
  pc := fun _ => .idle
  high := fun _ => 0
  low := fun _ => 0
  slice := fun _ => []

def Step (m m' : Machine n) : Prop := ∃ a, act m a = some m'

/-- No CPU has the process of slot `p`. -/
def OffCpu (m : Machine n) (p : Fin NPROC) : Prop := ∀ c, (m.pc c).proc ≠ some p

/-- The accounts of the process are the numbers of ticks. -/
def Exact (m : Machine n) (p : Fin NPROC) : Prop :=
  (m.proc p).hipTicks = BitVec.ofNat 32 (m.high p) ∧ (m.proc p).lopTicks = BitVec.ofNat 32 (m.low p)

def Accurate (m : Machine n) : Prop := ∀ p, OffCpu m p → Exact m p

/-- When a slice is accounted for, all its ticks have come at the priority that the process has now.
-/
def Steady (m : Machine n) (a : Action n) : Prop :=
  ∀ c p search, a = .run c → m.pc c = .stop p search → ∀ pri ∈ m.slice p, pri = (m.proc p).pri

/-- What the accounts depend on is as before, but for the state. -/
structure Carried (q q' : Proc) : Prop where
  schedTime : q'.schedTime = q.schedTime
  lop : q'.lopTicks = q.lopTicks
  hip : q'.hipTicks = q.hipTicks

/-- And the process is running as before. -/
structure Kept (q q' : Proc) : Prop extends Carried q q' where
  running : q'.state = .running ↔ q.state = .running

theorem Kept.refl (q : Proc) : Kept q q := ⟨⟨rfl, rfl, rfl⟩, Iff.rfl⟩

section Table

variable {t t' : Table} {i cur initproc : Fin NPROC}

theorem kept_wakeup1 (t : Table) (chan : Option Chan) (i : Fin NPROC) :
    Kept (t i) (t.wakeup1 chan i) := by
  rw [Table.wakeup1]
  split_ifs with wakes
  · refine ⟨⟨rfl, rfl, rfl⟩, iff_of_false (by rintro ⟨⟩) ?_⟩
    rw [wakes.1]
    rintro ⟨⟩
  · exact .refl _

theorem kept_passChildren (t : Table) (cur initproc i : Fin NPROC) :
    Kept (t i) (t.passChildren cur initproc i) := by
  rw [Table.passChildren]
  split_ifs
  · exact ⟨⟨rfl, rfl, rfl⟩, Iff.rfl⟩
  · exact .refl _

theorem kept_set {q : Proc} (kept : Kept (t cur) q) (i : Fin NPROC) :
    Kept (t i) (t.set cur q i) := by
  by_cases same : i = cur
  · subst same
    rw [Table.set_self]
    exact kept
  · rw [t.set_of_ne same]
    exact .refl _

/-- `kill` touches no account. -/
theorem kept_kill (t : Table) (pid : Word) (i : Fin NPROC) : Kept (t i) (t.kill pid i) := by
  cases found : (List.finRange NPROC).find? fun j => (t j).pid = pid with
  | none =>
      simp only [Table.kill, found]
      exact .refl _
  | some j =>
      simp only [Table.kill, found]
      refine kept_set ?_ i
      refine ⟨⟨rfl, rfl, rfl⟩, ?_⟩
      by_cases asleep : (t j).state = .sleeping
      · simp [asleep]
      · simp [asleep]

theorem kept_setpri (t : Table) (cur : Fin NPROC) (priority : ℤ) (i : Fin NPROC) :
    Kept (t i) (t.setpri cur priority i) := by
  rw [Table.setpri]
  split_ifs
  · exact .refl _
  · refine kept_set ?_ i
    exact ⟨⟨rfl, rfl, rfl⟩, Iff.rfl⟩

theorem Kept.trans {p q r : Proc} (first : Kept p q) (second : Kept q r) : Kept p r :=
  ⟨⟨second.schedTime.trans first.schedTime, second.lop.trans first.lop, second.hip.trans first.hip⟩,
    second.running.trans first.running⟩

/-- `wait` touches no account but that of the child it frees. -/
theorem kept_reaped (reaped : t.wait cur = .reaped t') (i : Fin NPROC) : Kept (t i) (t' i) := by
  rw [Table.wait] at reaped
  split at reaped
  next j zombie =>
    cases reaped
    have dead := List.find?_some zombie
    simp only [decide_eq_true_eq] at dead
    refine kept_set ?_ i
    refine ⟨⟨rfl, rfl, rfl⟩, iff_of_false (by rintro ⟨⟩) fun running => ?_⟩
    rw [dead.2] at running
    cases running
  next => split_ifs at reaped

/-- Leaving the CPU changes only the state of the process, and wakes up others. -/
theorem kept_leaves {e : Event} (left : t.leaves initproc cur e = some t') :
    (∀ i, i ≠ cur → Kept (t i) (t' i)) ∧ Carried (t cur) (t' cur) ∧ (t' cur).state ≠ .running := by
  have self : ∀ {s : Table} {q : Proc}, (∀ i, Kept (t i) (s i)) → Carried (s cur) q →
    q.state ≠ .running →
      (∀ i, i ≠ cur → Kept (t i) (s.set cur q i)) ∧ Carried (t cur) (s.set cur q cur) ∧
        (s.set cur q cur).state ≠ .running := by
    intro s q before carried stopped
    refine ⟨fun i other => ?_, ?_, ?_⟩
    · rw [s.set_of_ne other]
      exact before i
    · rw [Table.set_self]
      have := (before cur).toCarried
      exact ⟨carried.schedTime.trans this.schedTime, carried.lop.trans this.lop,
        carried.hip.trans this.hip⟩
    · rw [Table.set_self]
      exact stopped
  have same : ∀ i, Kept (t i) (t i) := fun i => .refl _
  cases e with
  | wait =>
      simp only [Table.leaves] at left
      split at left
      next sleeps =>
        cases left
        rw [leaves_wait sleeps]
        exact self same ⟨rfl, rfl, rfl⟩ (by rintro ⟨⟩)
      next => cases left
  | sleep chan =>
      cases left
      exact self same ⟨rfl, rfl, rfl⟩ (by rintro ⟨⟩)
  | yield =>
      cases left
      exact self same ⟨rfl, rfl, rfl⟩ (by rintro ⟨⟩)
  | exit =>
      simp only [Table.leaves, Option.ite_none_left_eq_some] at left
      cases left.2
      refine self (fun i => ?_) ⟨rfl, rfl, rfl⟩ (by rintro ⟨⟩)
      have first := (kept_wakeup1 t ((t cur).parent.map .proc) i).trans
        (kept_passChildren _ cur initproc i)
      split_ifs
      · exact first.trans (kept_wakeup1 _ _ i)
      · exact first
  | _ => cases left

end Table

/-! ## The invariant -/

/-- The accounts of a process that runs lack the ticks of the slice. -/
structure Open (m : Machine n) (p : Fin NPROC) : Prop where
  hip : (m.proc p).hipTicks + BitVec.ofNat 32 ((m.slice p).count HIGH_PRI) =
    BitVec.ofNat 32 (m.high p)
  lop : (m.proc p).lopTicks + BitVec.ofNat 32 ((m.slice p).count LOW_PRI) =
    BitVec.ofNat 32 (m.low p)
  clock : m.ticks = (m.proc p).schedTime + BitVec.ofNat 32 (m.slice p).length

/-- What holds of the process of a CPU at the given place. -/
def Billed (m : Machine n) : Pc → Prop
  | .start p _ => m.trap = false → Exact m p
  | .slice p _ => Open m p
  | .stop p _ => m.trap = false → Open m p
  | _ => True

structure Inv (m : Machine n) : Prop where
  locked : ∀ c, (m.pc c).holds = true → m.ptable = some c
  running : ∀ c p, (m.pc c).runs = some p → (m.proc p).state = .running
  onCpu : ∀ p, (m.proc p).state = .running → ∃ c, (m.pc c).runs = some p
  single : ∀ c c' p, (m.pc c).proc = some p → (m.pc c').proc = some p → c = c'
  off : Accurate m
  billed : ∀ c, Billed m (m.pc c)

/-- Slot `i` is as before. -/
structure KeptAt (m m' : Machine n) (i : Fin NPROC) : Prop where
  proc : Kept (m.proc i) (m'.proc i)
  high : m'.high i = m.high i
  low : m'.low i = m.low i
  slice : m'.slice i = m.slice i

section Kept

variable {m m' : Machine n} {i : Fin NPROC}

theorem KeptAt.exact (kept : KeptAt m m' i) (before : Exact m i) : Exact m' i := by
  rw [Exact, kept.proc.hip, kept.proc.lop, kept.high, kept.low]
  exact before

theorem KeptAt.open_ (kept : KeptAt m m' i) (clock : m'.ticks = m.ticks) (before : Open m i) :
    Open m' i := by
  refine ⟨?_, ?_, ?_⟩
  · rw [kept.proc.hip, kept.high, kept.slice]
    exact before.hip
  · rw [kept.proc.lop, kept.low, kept.slice]
    exact before.lop
  · rw [clock, kept.proc.schedTime, kept.slice]
    exact before.clock

/-- An account that is open stays open. -/
theorem Billed.kept {pc : Pc} (before : Billed m pc) (kept : ∀ p, pc.proc = some p → KeptAt m m' p)
    (clock : m'.ticks = m.ticks) (trap : pc.holds = true → m'.trap = m.trap) : Billed m' pc := by
  cases pc with
  | idle => trivial
  | scan => trivial
  | start p search =>
      intro free
      exact (kept p rfl).exact (before (trap rfl ▸ free))
  | slice p search => exact (kept p rfl).open_ clock before
  | stop p search =>
      intro free
      exact (kept p rfl).open_ clock (before (trap rfl ▸ free))

/-- A slot that is not on a CPU may change if its accounts stay right. -/
theorem Inv.table (inv : Inv m) (pc : m'.pc = m.pc) (clock : m'.ticks = m.ticks)
    (lock : m'.ptable = m.ptable) (trap : m'.trap = m.trap ∨ m.ptable = none)
    (kept : ∀ i, KeptAt m m' i ∨ OffCpu m i ∧ (m'.proc i).state ≠ .running ∧ Exact m' i) :
    Inv m' := by
  have onCpu : ∀ c i, (m.pc c).proc = some i → KeptAt m m' i := by
    intro c i has
    rcases kept i with same | ⟨off, _⟩
    · exact same
    · exact absurd has (off c)
  refine ⟨?_, ?_, ?_, ?_, ?_, ?_⟩
  · rw [pc, lock]
    exact inv.locked
  · intro c p runs
    rw [pc] at runs
    exact (onCpu c p (Pc.proc_of_runs runs)).proc.running.mpr (inv.running c p runs)
  · intro p running
    rw [pc]
    rcases kept p with same | ⟨_, stopped, _⟩
    · exact inv.onCpu p (same.proc.running.mp running)
    · exact absurd running stopped
  · rw [pc]
    exact inv.single
  · intro p off
    rw [OffCpu, pc] at off
    rcases kept p with same | ⟨_, _, exact'⟩
    · exact same.exact (inv.off p off)
    · exact exact'
  · intro c
    rw [pc]
    refine (inv.billed c).kept (fun p has => onCpu c p has) clock fun holds => ?_
    rcases trap with same | free
    · exact same
    · rw [inv.locked c holds] at free
      cases free

/-- A CPU goes from one place to another, with the process `q` if there is one. -/
structure Moved (m m' : Machine n) (c : Fin n) (q : Option (Fin NPROC)) (new : Pc) : Prop where
  pc : m'.pc = Function.update m.pc c new
  free : m.ptable = none ∨ m.ptable = some c
  holds : new.holds = true → m'.ptable = some c
  clock : m'.ticks = m.ticks
  trap : m'.trap = m.trap
  before : ∀ p, (m.pc c).proc = some p → q = some p
  after : ∀ p, new.proc = some p → q = some p
  others : ∀ i, q ≠ some i → KeptAt m m' i
  only : ∀ p, q = some p → (∀ c', c' ≠ c → (m.pc c').proc ≠ some p) ∧
    ((m'.proc p).state = .running ↔ new.runs = some p) ∧ (new.proc = none → Exact m' p)
  billed : Billed m' new

/-- A CPU goes on, and the accounts stay. -/
theorem Inv.moved (c : Fin n) (q : Option (Fin NPROC)) (new : Pc) (inv : Inv m)
    (moved : Moved m m' c q new) :
    Inv m' := by
  have here : m'.pc c = new := by rw [moved.pc, Function.update_self]
  have there : ∀ c', c' ≠ c → m'.pc c' = m.pc c' := fun c' other => by
    rw [moved.pc, Function.update_of_ne other]
  have unlocked : ∀ c', c' ≠ c → (m.pc c').holds ≠ true := by
    intro c' other holds
    have owner := inv.locked c' holds
    rcases moved.free with free | mine
    · rw [owner] at free
      cases free
    · rw [owner] at mine
      exact other (Option.some.inj mine)
  have elsewhere : ∀ c' p, c' ≠ c → (m.pc c').proc = some p → KeptAt m m' p := by
    intro c' p other has
    refine moved.others p fun mine => ?_
    exact (moved.only p mine).1 c' other has
  refine ⟨?_, ?_, ?_, ?_, ?_, ?_⟩
  · intro c' holds
    by_cases same : c' = c
    · subst same
      rw [here] at holds
      exact moved.holds holds
    · rw [there c' same] at holds
      exact absurd holds (unlocked c' same)
  · intro c' p runs
    by_cases same : c' = c
    · subst same
      rw [here] at runs
      exact (moved.only p (moved.after p (Pc.proc_of_runs runs))).2.1.mpr runs
    · rw [there c' same] at runs
      exact (elsewhere c' p same (Pc.proc_of_runs runs)).proc.running.mpr (inv.running c' p runs)
  · intro p running
    by_cases mine : q = some p
    · exact ⟨c, by rw [here]; exact (moved.only p mine).2.1.mp running⟩
    · rcases inv.onCpu p ((moved.others p mine).proc.running.mp running) with ⟨c', runs⟩
      refine ⟨c', ?_⟩
      rw [there c']
      · exact runs
      · rintro rfl
        exact mine (moved.before p (Pc.proc_of_runs runs))
  · have apart : ∀ c' p, c' ≠ c → (m'.pc c').proc = some p → (m'.pc c).proc ≠ some p := by
      intro c' p other has mine
      rw [there c' other] at has
      rw [here] at mine
      exact (moved.only p (moved.after p mine)).1 c' other has
    intro c₁ c₂ p has₁ has₂
    by_cases same₁ : c₁ = c
    · by_cases same₂ : c₂ = c
      · rw [same₁, same₂]
      · rw [same₁] at has₁
        exact absurd has₁ (apart c₂ p same₂ has₂)
    · by_cases same₂ : c₂ = c
      · rw [same₂] at has₂
        exact absurd has₂ (apart c₁ p same₁ has₁)
      · rw [there c₁ same₁] at has₁
        rw [there c₂ same₂] at has₂
        exact inv.single c₁ c₂ p has₁ has₂
  · intro p off
    by_cases mine : q = some p
    · refine (moved.only p mine).2.2 ?_
      cases has : new.proc with
      | none => rfl
      | some p' =>
          have same := moved.after p' has
          rw [mine] at same
          cases same
          exact absurd (by rw [here, has]) (off c)
    · refine (moved.others p mine).exact (inv.off p fun c' has => ?_)
      by_cases same : c' = c
      · subst same
        exact mine (moved.before p has)
      · exact off c' (by rw [there c' same]; exact has)
  · intro c'
    by_cases same : c' = c
    · subst same
      rw [here]
      exact moved.billed
    · rw [there c' same]
      exact (inv.billed c').kept (fun p has => elsewhere c' p same has) moved.clock fun _ =>
        moved.trap

end Kept

/-! ## Steps -/

section Steps

variable {m m' : Machine n} {c : Fin n} {p : Fin NPROC} {search : ℕ}

/-- The scheduler moves on, and no process is concerned. -/
theorem Inv.goto {new : Pc} {lock : Option (Fin n)} (inv : Inv m)
    (free : m.ptable = none ∨ m.ptable = some c) (before : (m.pc c).proc = none)
    (after : new.proc = none) (holds : new.holds = true → lock = some c) :
    Inv { m.goto c new with ptable := lock } := by
  refine inv.moved c none new ⟨rfl, free, holds, rfl, rfl, ?_, ?_, ?_, nofun, ?_⟩
  · intro p has
    rw [before] at has
    cases has
  · intro p has
    rw [after] at has
    cases has
  · exact fun i _ => ⟨.refl _, rfl, rfl, rfl⟩
  · cases new with
    | idle => trivial
    | scan => trivial
    | start => cases after
    | slice => cases after
    | stop => cases after

/-- While a CPU scans the table, a runnable process is on no CPU. -/
theorem Inv.offCpu_of_runnable {i : ℕ} (inv : Inv m) (at_pc : m.pc c = .scan i search)
    (runnable : (m.proc p).state = .runnable) : OffCpu m p := by
  intro c' has
  have mine : m.ptable = some c := inv.locked c (by rw [at_pc]; rfl)
  cases at_pc' : m.pc c' with
  | idle =>
      rw [at_pc'] at has
      cases has
  | scan =>
      rw [at_pc'] at has
      cases has
  | stop p' search' =>
      have owner := inv.locked c' (by rw [at_pc']; rfl)
      rw [mine] at owner
      cases owner
      rw [at_pc] at at_pc'
      cases at_pc'
  | start p' search' =>
      rw [at_pc'] at has
      have running := inv.running c' p (by rw [at_pc']; exact has)
      rw [runnable] at running
      cases running
  | slice p' search' =>
      rw [at_pc'] at has
      have running := inv.running c' p (by rw [at_pc']; exact has)
      rw [runnable] at running
      cases running

/-- The process in slot `p` gets a new entry as a CPU moves on. -/
theorem keptAt_set {q : Proc} {new : Pc} {lock : Option (Fin n)} {slices : Fin NPROC → List ℕ}
    {i : Fin NPROC} (other : some p ≠ some i) (same : slices i = m.slice i) :
    KeptAt m { m.goto c new with proc := m.proc.set p q, ptable := lock, slice := slices } i := by
  have apart : i ≠ p := fun equal => other (congrArg some equal.symm)
  refine ⟨?_, rfl, rfl, same⟩
  change Kept (m.proc i) (m.proc.set p q i)
  rw [Table.set_of_ne _ apart]
  exact .refl _

/-- The scheduler has found a process to run. -/
theorem Inv.dispatch {i : ℕ} (inv : Inv m) (at_pc : m.pc c = .scan i search)
    (found : m.proc.candidate i search = some p) :
    Inv { m.goto c (.start p search)
      with proc := m.proc.set p { m.proc p with state := .running } } := by
  have off := inv.offCpu_of_runnable at_pc (Table.candidate_eq_some.mp found).2.1
  have mine : m.ptable = some c := inv.locked c (by rw [at_pc]; rfl)
  refine inv.moved c (some p) (.start p search)
    ⟨rfl, .inr mine, fun _ => mine, rfl, rfl, ?_, fun _ => id, ?_, ?_, fun _ => ?_⟩
  · intro p' has
    rw [at_pc] at has
    cases has
  · exact fun j other => keptAt_set other rfl
  · rintro _ ⟨⟩
    refine ⟨fun c' _ => off c', iff_of_true ?_ rfl, nofun⟩
    change (m.proc.set p _ p).state = _
    rw [Table.set_self]
  · have before := inv.off p off
    simp only [Exact, Machine.goto, Table.set_self] at before ⊢
    exact before

theorem Inv.elsewhere {c' : Fin n} (inv : Inv m) (has : (m.pc c).proc = some p) (other : c' ≠ c) :
    (m.pc c').proc ≠ some p := fun has' => other (inv.single c' c p has' has)

/-- A slice begins, and with it the account. -/
theorem Inv.start (inv : Inv m) (at_pc : m.pc c = .start p search) (free : m.trap = false) :
    Inv { m.goto c (.slice p search) with
      proc := m.proc.set p { m.proc p with schedTime := m.ticks, chan := none }
      slice := Function.update m.slice p [] } := by
  have has : (m.pc c).proc = some p := by rw [at_pc]; rfl
  have mine : m.ptable = some c := inv.locked c (by rw [at_pc]; rfl)
  have before : Exact m p := by
    have billed := inv.billed c
    rw [at_pc] at billed
    exact billed free
  refine inv.moved c (some p) (.slice p search)
    ⟨rfl, .inr mine, nofun, rfl, rfl, ?_, fun _ => id, ?_, ?_, ?_⟩
  · intro p' has'
    rw [has] at has'
    exact has'
  · exact fun j other => keptAt_set other
      (Function.update_of_ne (fun equal => other (congrArg some equal.symm)) _ _)
  · rintro _ ⟨⟩
    refine ⟨fun c' other => inv.elsewhere has other, iff_of_true ?_ rfl, nofun⟩
    change (m.proc.set p _ p).state = _
    rw [Table.set_self]
    exact inv.running c p (by rw [at_pc]; rfl)
  · refine ⟨?_, ?_, ?_⟩
    · simpa only [Machine.goto, Table.set_self, Function.update_self, List.count_nil,
        BitVec.ofNat_eq_ofNat,
        BitVec.add_zero] using before.1
    · simpa only [Machine.goto, Table.set_self, Function.update_self, List.count_nil,
        BitVec.ofNat_eq_ofNat,
        BitVec.add_zero] using before.2
    · simp only [Machine.goto, Table.set_self, Function.update_self, List.length_nil,
        BitVec.add_zero]

/-- If all ticks of the slice came at the priority of the process, the account is right afterwards.
-/
theorem Open.account {q : Proc} (open_ : Open m p)
    (steady : ∀ pri ∈ m.slice p, pri = (m.proc p).pri)
    (accounted : (m.proc p).account m.ticks = some q) :
    q.hipTicks = BitVec.ofNat 32 (m.high p) ∧ q.lopTicks = BitVec.ofNat 32 (m.low p) ∧
      q.state = (m.proc p).state := by
  have counts : ∀ pri, (m.slice p).count pri = if pri = (m.proc p).pri then (m.slice p).length
      else 0 := by
    intro pri
    split_ifs with same
    · exact List.count_eq_length.mpr fun x mem => same.trans (steady x mem).symm
    · exact List.count_eq_zero.mpr fun mem => same (steady pri mem)
  have elapsed : m.ticks - (m.proc p).schedTime = BitVec.ofNat 32 (m.slice p).length := by
    rw [open_.clock, BitVec.add_comm, BitVec.add_sub_cancel]
  have hip := open_.hip
  have lop := open_.lop
  rw [counts] at hip lop
  rcases Proc.account_eq_some.mp accounted with ⟨low, rfl⟩ | ⟨high, rfl⟩
  · rw [low, if_neg (by decide)] at hip
    rw [low, if_pos rfl] at lop
    refine ⟨?_, ?_, rfl⟩
    · simpa using hip
    · change (m.proc p).lopTicks + (m.ticks - (m.proc p).schedTime) = _
      rw [elapsed]
      exact lop
  · rw [high, if_pos rfl] at hip
    rw [high, if_neg (by decide)] at lop
    refine ⟨?_, ?_, rfl⟩
    · change (m.proc p).hipTicks + (m.ticks - (m.proc p).schedTime) = _
      rw [elapsed]
      exact hip
    · simpa using lop

theorem ofNat_inj_of_lt {a b : ℕ} (smallA : a < 2 ^ 32) (smallB : b < 2 ^ 32)
    (equal : BitVec.ofNat 32 a = BitVec.ofNat 32 b) : a = b := by
  have numbers := congrArg BitVec.toNat equal
  rwa [BitVec.toNat_ofNat, BitVec.toNat_ofNat, Nat.mod_eq_of_lt smallA, Nat.mod_eq_of_lt smallB]
    at numbers

/-- Otherwise it is wrong: the ticks at the other priority have been charged to this one. -/
theorem Open.account_iff {q : Proc} (open_ : Open m p) (short : (m.slice p).length < 2 ^ 32)
    (accounted : (m.proc p).account m.ticks = some q) :
    q.hipTicks = BitVec.ofNat 32 (m.high p) ∧ q.lopTicks = BitVec.ofNat 32 (m.low p) ↔
      ∀ pri ∈ m.slice p, pri = (m.proc p).pri := by
  refine ⟨fun right => ?_, fun steady => ?_⟩
  · have elapsed : m.ticks - (m.proc p).schedTime = BitVec.ofNat 32 (m.slice p).length := by
      rw [open_.clock, BitVec.add_comm, BitVec.add_sub_cancel]
    have all : ∀ pri, BitVec.ofNat 32 ((m.slice p).count pri) = BitVec.ofNat 32 (m.slice p).length →
        ∀ x ∈ m.slice p, x = pri := by
      intro pri equal x mem
      have counts := ofNat_inj_of_lt (List.count_le_length.trans_lt short) short equal
      exact (List.count_eq_length.mp counts x mem).symm
    rcases Proc.account_eq_some.mp accounted with ⟨low, rfl⟩ | ⟨high, rfl⟩
    · rw [low]
      have charged : (m.proc p).lopTicks + (m.ticks - (m.proc p).schedTime) = _ := right.2
      rw [elapsed, ← open_.lop] at charged
      exact all _ ((BitVec.add_right_inj _).mp charged).symm
    · rw [high]
      have charged : (m.proc p).hipTicks + (m.ticks - (m.proc p).schedTime) = _ := right.1
      rw [elapsed, ← open_.hip] at charged
      exact all _ ((BitVec.add_right_inj _).mp charged).symm
  · rcases open_.account steady accounted with ⟨hip, lop, _⟩
    exact ⟨hip, lop⟩

/-- A slice ends, and its ticks are charged to the priority of the process. -/
theorem Inv.stop {q : Proc} {level : ℕ} (inv : Inv m) (at_pc : m.pc c = .stop p search)
    (free : m.trap = false) (steady : ∀ pri ∈ m.slice p, pri = (m.proc p).pri)
    (accounted : (m.proc p).account m.ticks = some q) :
    Inv { m.goto c (.scan (p + 1) level) with proc := m.proc.set p q } := by
  have has : (m.pc c).proc = some p := by rw [at_pc]; rfl
  have mine : m.ptable = some c := inv.locked c (by rw [at_pc]; rfl)
  have open_ : Open m p := by
    have billed := inv.billed c
    rw [at_pc] at billed
    exact billed free
  rcases open_.account steady accounted with ⟨hip, lop, state⟩
  have stopped : (m.proc p).state ≠ .running := by
    intro running
    rcases inv.onCpu p running with ⟨c', runs⟩
    cases inv.single c' c p (Pc.proc_of_runs runs) has
    rw [at_pc] at runs
    cases runs
  refine inv.moved c (some p) (.scan (p + 1) level)
    ⟨rfl, .inr mine, fun _ => mine, rfl, rfl, ?_, nofun, ?_, ?_, trivial⟩
  · intro p' has'
    rw [has] at has'
    exact has'
  · exact fun j other => keptAt_set other rfl
  · rintro _ ⟨⟩
    refine ⟨fun c' other => inv.elsewhere has other, iff_of_false ?_ nofun, fun _ => ?_⟩
    · change (m.proc.set p _ p).state ≠ _
      rw [Table.set_self, state]
      exact stopped
    · simp only [Exact, Machine.goto, Table.set_self]
      exact ⟨hip, lop⟩

/-- Every step of a CPU keeps the accounts. -/
theorem Inv.run (inv : Inv m) (steady : Steady m (.run c)) (ran : m.run c = some m') : Inv m' := by
  simp only [Machine.run] at ran
  split at ran
  next at_pc =>
    split_ifs at ran with free
    cases ran
    exact inv.goto (.inl free) (by rw [at_pc]; rfl) rfl fun _ => rfl
  next i search at_pc =>
    have mine : m.ptable = some c := inv.locked c (by rw [at_pc]; rfl)
    split at ran
    next p found =>
      cases ran
      exact inv.dispatch at_pc found
    next =>
      split_ifs at ran
      · cases ran
        exact inv.goto (.inr mine) (by rw [at_pc]; rfl) rfl fun _ => mine
      · cases ran
        exact inv.goto (.inr mine) (by rw [at_pc]; rfl) rfl nofun
  next p search at_pc =>
    split_ifs at ran with busy
    cases ran
    exact inv.start at_pc (Bool.eq_false_iff.mpr busy)
  next => cases ran
  next p search at_pc =>
    rcases Option.ite_none_left_eq_some.mp ran with ⟨busy, ran⟩
    rcases Option.map_eq_some_iff.mp ran with ⟨q, accounted, rfl⟩
    exact inv.stop at_pc (Bool.eq_false_iff.mpr busy) (steady c p search rfl at_pc) accounted

/-- The table changes, and everybody keeps what the accounts depend on. -/
theorem Inv.kept {t : Table} {nextpid : Word} {trap : Bool} (inv : Inv m)
    (kept : ∀ i, Kept (m.proc i) (t i)) (free : trap = m.trap ∨ m.ptable = none) :
    Inv { m with proc := t, nextpid := nextpid, trap := trap } :=
  inv.table rfl rfl rfl free fun i => .inl ⟨kept i, rfl, rfl, rfl⟩

/-- A slot that no process is running in is on no CPU if nobody holds the lock. -/
theorem Inv.offCpu_of_stopped (inv : Inv m) (free : m.ptable = none)
    (stopped : (m.proc p).state ≠ .running) :
    OffCpu m p := by
  intro c has
  have unlocked : (m.pc c).holds ≠ true := fun holds => by
    rw [inv.locked c holds] at free
    cases free
  have runs : (m.pc c).runs = some p := by
    cases at_pc : m.pc c with
    | slice p' search =>
        rw [at_pc] at has
        exact has
    | idle =>
        rw [at_pc] at has
        cases has
    | _ => exact absurd (by rw [at_pc]; rfl) unlocked
  exact stopped (inv.running c p runs)

/-- A new process has no ticks yet. -/
theorem Inv.born {q : Proc} {nextpid : Word} (inv : Inv m) (free : m.ptable = none)
    (stopped : (m.proc p).state ≠ .running) (fresh : q.state ≠ .running) (hip : q.hipTicks = 0)
    (lop : q.lopTicks = 0) : Inv { m.born p (m.proc.set p q) with nextpid := nextpid } := by
  refine inv.table rfl rfl rfl (.inl rfl) fun i => ?_
  by_cases same : i = p
  · subst same
    refine .inr ⟨inv.offCpu_of_stopped free stopped, ?_, ?_⟩
    · change (m.proc.set i q i).state ≠ _
      rw [Table.set_self]
      exact fresh
    · simp only [Exact, Machine.born, Table.set_self, Function.update_self, hip, lop]
      exact ⟨rfl, rfl⟩
  · refine .inl ⟨?_, Function.update_of_ne same _ _, Function.update_of_ne same _ _, rfl⟩
    change Kept _ (m.proc.set p q i)
    rw [Table.set_of_ne _ same]
    exact .refl _

/-- A call of a process keeps the accounts. -/
theorem Inv.call {e : Event} (inv : Inv m) (free : m.ptable = none)
    (called : m.call p e = some m') : Inv m' := by
  cases e with
  | setpri priority =>
      cases called
      exact inv.kept (kept_setpri _ _ _) (.inl rfl)
  | allocproc =>
      simp only [Machine.call, Table.allocproc] at called
      split at called
      next j t found =>
        split at found
        next k unused =>
          cases found
          cases called
          have empty := List.find?_some unused
          simp only [decide_eq_true_eq] at empty
          exact inv.born free (by rw [empty]; rintro ⟨⟩) (by rintro ⟨⟩) rfl rfl
        next => cases found
      next =>
        cases called
        exact inv
  | discard child =>
      simp only [Machine.call, Option.ite_none_right_eq_some] at called
      rcases called with ⟨embryo, called⟩
      cases called
      refine inv.kept (fun i => kept_set ?_ i) (.inl rfl)
      refine ⟨⟨rfl, rfl, rfl⟩, iff_of_false (by rintro ⟨⟩) ?_⟩
      rw [embryo]
      rintro ⟨⟩
  | fork child =>
      simp only [Machine.call, Option.ite_none_right_eq_some] at called
      rcases called with ⟨embryo, called⟩
      cases called
      exact inv.born free (by rw [embryo]; rintro ⟨⟩) (by rintro ⟨⟩) rfl rfl
  | wakeup chan =>
      cases called
      exact inv.kept (kept_wakeup1 _ _) (.inl rfl)
  | kill pid =>
      cases called
      exact inv.kept (kept_kill _ _) (.inl rfl)
  | wait =>
      simp only [Machine.call] at called
      split at called
      next t reaped =>
        cases called
        exact inv.kept (kept_reaped reaped) (.inl rfl)
      next =>
        cases called
        exact inv
      next => cases called
  | _ => cases called

/-- A process that leaves the CPU keeps its account open until the scheduler closes it. -/
theorem Inv.leave {e : Event} {t : Table} (inv : Inv m) (at_pc : m.pc c = .slice p search)
    (free : m.ptable = none) (left : m.proc.leaves m.initproc p e = some t) :
    Inv { m.goto c (.stop p search) with proc := t, ptable := some c } := by
  have has : (m.pc c).proc = some p := by rw [at_pc]; rfl
  rcases kept_leaves left with ⟨others, own, stopped⟩
  refine inv.moved c (some p) (.stop p search)
    ⟨rfl, .inl free, fun _ => rfl, rfl, rfl, ?_, fun _ => id, ?_, ?_, fun _ => ?_⟩
  · intro p' has'
    rw [has] at has'
    exact has'
  · exact fun i other => ⟨others i fun same => other (congrArg some same.symm), rfl, rfl, rfl⟩
  · rintro _ ⟨⟩
    exact ⟨fun c' other => inv.elsewhere has other, iff_of_false stopped nofun, nofun⟩
  · have open_ := inv.billed c
    rw [at_pc] at open_
    refine ⟨?_, ?_, ?_⟩
    · exact (congrArg (· + _) own.hip).trans open_.hip
    · exact (congrArg (· + _) own.lop).trans open_.lop
    · exact open_.clock.trans (congrArg (· + _) own.schedTime.symm)

/-- What a process does keeps the accounts. -/
theorem Inv.process {e : Event} (inv : Inv m) (done : m.process c e = some m') : Inv m' := by
  simp only [Machine.process] at done
  split at done
  next p search at_pc =>
    split_ifs at done with free
    split at done
    next t left =>
      cases done
      exact inv.leave at_pc free left
    next => exact inv.call free done
  next => cases done

/-- `ptable.lock` is given back. -/
theorem Inv.release (inv : Inv m) (done : m.release c = some m') : Inv m' := by
  simp only [Machine.release] at done
  split at done
  next p search at_pc =>
    split_ifs at done with mine
    cases done
    refine ⟨fun c' holds => ?_, inv.running, inv.onCpu, inv.single, inv.off, fun c' => ?_⟩
    · have owner := inv.locked c' holds
      rw [mine] at owner
      cases owner
      change (m.pc c).holds = true at holds
      rw [at_pc] at holds
      cases holds
    · exact (inv.billed c').kept (fun p _ => ⟨.refl _, rfl, rfl, rfl⟩) rfl fun _ => rfl
  next => cases done

/-- A tick is charged later to the priority at which it came. -/
theorem Open.tick (open_ : Open m p) (running : (m.proc p).state = .running)
    (ticked : m.tick = some m') :
    Open m' p := by
  simp only [Machine.tick] at ticked
  split_ifs at ticked
  cases ticked
  have counts : ∀ pri, (m.slice p ++ [(m.proc p).pri]).count pri =
      (m.slice p).count pri + if (m.proc p).pri = pri then 1 else 0 := by
    intro pri
    rw [List.count_append, List.count_singleton]
    simp only [beq_iff_eq]
  refine ⟨?_, ?_, ?_⟩
  · simp only [running, if_true, counts, true_and]
    split_ifs
    · rw [BitVec.ofNat_add, BitVec.ofNat_add, ← BitVec.add_assoc, open_.hip]
    · exact open_.hip
  · simp only [running, if_true, counts, true_and]
    split_ifs
    · rw [BitVec.ofNat_add, BitVec.ofNat_add, ← BitVec.add_assoc, open_.lop]
    · exact open_.lop
  · simp only [running, if_true, List.length_append, List.length_singleton]
    rw [open_.clock, BitVec.ofNat_add, BitVec.add_assoc]
    rfl

/-- A tick counts for everybody who is running. -/
theorem Inv.tick (inv : Inv m) (ticked : m.tick = some m') : Inv m' := by
  have result := ticked
  simp only [Machine.tick] at result
  split_ifs at result
  cases result
  refine ⟨inv.locked, inv.running, inv.onCpu, inv.single, fun p off => ?_, fun c => ?_⟩
  · have stopped : (m.proc p).state ≠ .running := by
      intro running
      rcases inv.onCpu p running with ⟨c, runs⟩
      exact off c (Pc.proc_of_runs runs)
    have before := inv.off p off
    simp only [Exact, stopped, false_and, if_false]
    exact before
  · have before := inv.billed c
    change Billed _ (m.pc c)
    cases at_pc : m.pc c with
    | idle => trivial
    | scan => trivial
    | start p search => exact nofun
    | stop p search => exact nofun
    | slice p search =>
        rw [at_pc] at before
        exact Open.tick before (inv.running c p (by rw [at_pc]; rfl)) ticked

/-- Every steady action keeps the accounts. -/
theorem Inv.act {a : Action n} (inv : Inv m) (steady : Steady m a) (acted : act m a = some m') :
    Inv m' := by
  cases a with
  | run c => exact inv.run steady acted
  | release c => exact inv.release acted
  | process c e => exact inv.process acted
  | tick => exact inv.tick acted
  | tickDone =>
      simp only [Accounts.act, Machine.tickDone, Option.ite_none_right_eq_some] at acted
      rcases acted with ⟨⟨_, free⟩, acted⟩
      cases acted
      exact inv.kept (kept_wakeup1 _ _) (.inr free)
  | interrupt chan =>
      simp only [Accounts.act, Option.ite_none_right_eq_some] at acted
      cases acted.2
      exact inv.kept (kept_wakeup1 _ _) (.inl rfl)

end Steps

/-! ## Runs -/

/-- The process yields, and is accounted for. -/
def account : List (Action 1) := [.process 0 .yield, .run 0]

def acts (m : Machine n) (actions : List (Action n)) : Option (Machine n) := actions.foldlM act m

end Xv6.Sched.Accounts
