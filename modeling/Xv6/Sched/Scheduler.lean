import Xv6.Sched.Table

/-!
# The scheduler

`scheduler` of part2 on one CPU, as a machine. A round takes `ptable.lock`, chooses
the priority to search for, and looks at the slots in order. When it finds a
process it switches to it; the process runs until it yields, sleeps or exits, and
the scheduler goes on with the next slot. While a process runs, and between two
rounds, interrupts may come.
-/

namespace Xv6.Sched

/-- Where the CPU is. -/
inductive Pc where
  /-- In `scheduler` between two rounds, with interrupts enabled. -/
  | idle
  /-- About to look at slot `i`. -/
  | scan (i search : ℕ)
  /-- The process in slot `i` runs. -/
  | slice (i : Fin NPROC) (search : ℕ)
  deriving DecidableEq

structure Machine where
  proc : Table
  initproc : Fin NPROC
  nextpid : Word
  ticks : Word
  pc : Pc

/-- The loop that chooses the priority to search for. -/
def searchPri (t : Table) : List (Fin NPROC) → ℕ
  | [] => LOW_PRI
  | i :: rest =>
      if (t i).state ≠ .runnable ∨ (t i).pri < LOW_PRI then searchPri t rest
      else if (t i).pri > LOW_PRI ∧ (t i).pri = HIGH_PRI then (t i).pri
      else searchPri t rest

/-- The process in slot `i`, if the scheduler switches to it. -/
def Table.candidate (t : Table) (i search : ℕ) : Option (Fin NPROC) :=
  if bound : i < NPROC then
    if (t ⟨i, bound⟩).state = .runnable ∧ (t ⟨i, bound⟩).pri = search then some ⟨i, bound⟩ else none
  else none

/-- The scan chooses a runnable process of its level. -/
theorem Table.candidate_eq_some {t : Table} {i search : ℕ} {p : Fin NPROC} :
    t.candidate i search = some p ↔ p.val = i ∧ (t p).state = .runnable ∧ (t p).pri = search := by
  rw [candidate]
  constructor
  · intro found
    split_ifs at found with bound ready
    cases found
    exact ⟨rfl, ready⟩
  · rintro ⟨rfl, ready⟩
    rw [dif_pos p.isLt, if_pos ready]

namespace Proc

variable {p q : Proc} {ticks : Word}

/-- The account of the process, once it is back. -/
def account (p : Proc) (ticks : Word) : Option Proc :=
  let tdif := ticks - p.schedTime
  if p.pri = LOW_PRI then some { p with lopTicks := p.lopTicks + tdif }
  else if p.pri = HIGH_PRI then some { p with hipTicks := p.hipTicks + tdif }
  else none -- panic("priority")

theorem account_eq_some : p.account ticks = some q ↔
    p.pri = LOW_PRI ∧ q = { p with lopTicks := p.lopTicks + (ticks - p.schedTime) } ∨
      p.pri = HIGH_PRI ∧ q = { p with hipTicks := p.hipTicks + (ticks - p.schedTime) } := by
  by_cases low : p.pri = LOW_PRI
  · simp [account, low, eq_comm]
  · by_cases high : p.pri = HIGH_PRI
    · simp [account, high, eq_comm]
    · simp [account, low, high]

theorem account_ne_none (known : p.pri = LOW_PRI ∨ p.pri = HIGH_PRI) : p.account ticks ≠ none := by
  refine Option.ne_none_iff_exists'.mpr ?_
  rcases known with low | high
  · exact ⟨_, account_eq_some.mpr (.inl ⟨low, rfl⟩)⟩
  · exact ⟨_, account_eq_some.mpr (.inr ⟨high, rfl⟩)⟩

/-- `search_pri` after that. -/
def raise (p : Proc) (search : ℕ) : ℕ := if p.state ≠ .zombie ∧ p.pri > search then p.pri
      else search

end Proc

namespace Machine

variable (m : Machine)

/-- The process that the scheduler switches to in this step. -/
def switchesTo : Option (Fin NPROC) :=
  match m.pc with
  | .scan i search => m.proc.candidate i search
  | _ => none

/-- One iteration of the loop over the slots, or its end. A process that slept forgets its channel.
-/
def look : Option Machine :=
  match m.pc with
  | .scan i search =>
      match m.switchesTo with
      | some p => some { m with
          proc := m.proc.set p
            { m.proc p with state := .running, schedTime := m.ticks, chan := none }
          pc := .slice p search }
      | none => if i < NPROC then some { m with pc := .scan (i + 1) search }
          else some { m with pc := .idle }
  | _ => none

/-- The process in slot `i` has called `sched`, and the scheduler goes on. -/
def resume (i : Fin NPROC) (search : ℕ) (t : Table) : Option Machine :=
  ((t i).account m.ticks).map fun p =>
    { m with proc := t.set i p, pc := .scan (i + 1) ((t i).raise search) }

end Machine

inductive Event where
  /-- `scheduler` takes the lock and begins a round. -/
  | acquire
  | look
  /-- The timer interrupt. -/
  | tick
  /-- Another interrupt handler calls `wakeup`. -/
  | interrupt (chan : Chan)
  /-- This and the following are steps of the running process. -/
  | setpri (priority : ℤ)
  | allocproc
  | discard (child : Fin NPROC)
  | fork (child : Fin NPROC)
  | wakeup (chan : Chan)
  | kill (pid : Word)
  | wait
  | sleep (chan : Chan)
  | yield
  | exit

/-- A step of the running process, in slot `i`. -/
def runStep (m : Machine) (i : Fin NPROC) (search : ℕ) : Event → Option Machine
  | .setpri priority => some { m with proc := m.proc.setpri i priority }
  | .allocproc =>
      match m.proc.allocproc m.nextpid with
      | some (_, t) => some { m with proc := t, nextpid := m.nextpid + 1 }
      | none => some m
  | .discard child =>
      if (m.proc child).state = .embryo then some { m with proc := m.proc.discard child } else none
  | .fork child =>
      if (m.proc child).state = .embryo then some { m with proc := m.proc.fork i child } else none
  | .wakeup chan => some { m with proc := m.proc.wakeup1 (some chan) }
  | .kill pid => some { m with proc := m.proc.kill pid }
  | .wait =>
      match m.proc.wait i with
      | .reaped t => some { m with proc := t }
      | .failed => some m
      | .sleeps t => m.resume i search t
  | .sleep chan => m.resume i search (m.proc.sleep i chan)
  | .yield => m.resume i search (m.proc.yield i)
  | .exit =>
      if i = m.initproc then none -- panic("init exiting")
      else m.resume i search (m.proc.exit i m.initproc)
  | _ => none

/-- Interrupts are enabled between rounds and while a process runs. -/
def Pc.interruptible : Pc → Bool
  | .scan _ _ => false
  | _ => true

def step (m : Machine) : Event → Option Machine
  | .acquire =>
      if m.pc = .idle then some { m with pc := .scan 0 (searchPri m.proc (List.finRange NPROC)) }
      else none
  | .look => m.look
  | .tick =>
      if m.pc.interruptible then
        some { m with ticks := m.ticks + 1, proc := m.proc.wakeup1 (some .ticks) }
      else none
  | .interrupt chan =>
      if m.pc.interruptible then some { m with proc := m.proc.wakeup1 (some chan) } else none
  | e =>
      match m.pc with
      | .slice i search => runStep m i search e
      | _ => none

/-- The other events are steps of the process that runs. -/
theorem exists_slice {m m' : Machine} {e : Event} (ran : (match m.pc with
      | .slice i search => runStep m i search e
      | _ => none) = some m') :
      ∃ i search, m.pc = .slice i search ∧ runStep m i search e = some m' := by
  split at ran
  next i search at_pc => exact ⟨i, search, at_pc, ran⟩
  next => cases ran

end Xv6.Sched
