import Xv6.Sched.Accounts

/-!
# One CPU

The machine of the rounds, where the lock and the timer take no step of their own, is the
machine of the accounts on one CPU: each of its steps is a run of that machine, which
releases the lock for a process that it has switched to, and counts a tick and handles it
without a break.
-/

namespace Xv6.Sched.Accounts

open Relation

/-- The same place. -/
def Pc.of : Sched.Pc → Pc
  | .idle => .idle
  | .scan i search => .scan i search
  | .slice p search => .slice p search

/-- Both machines are at the same place with the same table, and no tick is being handled. -/
structure Mirrors (m : Sched.Machine) (a : Machine 1) : Prop where
  proc : a.proc = m.proc
  initproc : a.initproc = m.initproc
  nextpid : a.nextpid = m.nextpid
  ticks : a.ticks = m.ticks
  /-- The scheduler has the lock while it scans. -/
  ptable : a.ptable = if m.pc.interruptible then none else some 0
  trap : a.trap = false
  pc : a.pc 0 = .of m.pc

section Steps

variable {m m' : Sched.Machine} {a a' : Machine 1} {e : Event} {i p : Fin NPROC} {search : ℕ}
  {t : Table}

theorem goto_pc (a : Machine 1) (pc : Pc) : (a.goto 0 pc).pc 0 = pc := by
  simp [Machine.goto]

theorem Mirrors.free (mirrors : Mirrors m a)
    (open_ : m.pc.interruptible = true) : a.ptable = none := by
  rw [mirrors.ptable, if_pos open_]

/-- The scheduler takes the lock. -/
theorem Mirrors.acquire (mirrors : Mirrors m a) (stepped : Sched.step m .acquire = some m') :
    ∃ a', ReflTransGen Step a a' ∧ Mirrors m' a' := by
  simp only [Sched.step, Option.ite_none_right_eq_some] at stepped
  rcases stepped with ⟨idle, stepped⟩
  cases stepped
  have place := mirrors.pc
  rw [idle] at place
  have free := mirrors.free (by rw [idle]; rfl)
  have ran : act a (.run 0) =
      some { a.goto 0 (.scan 0 (searchPri a.proc (List.finRange NPROC)))
        with ptable := some 0 } := by
    simp only [act, Machine.run, place, Pc.of, if_pos free]
  refine ⟨_, .single ⟨.run 0, ran⟩, mirrors.proc, mirrors.initproc,
    mirrors.nextpid, mirrors.ticks, rfl,
    mirrors.trap, ?_⟩
  rw [goto_pc, mirrors.proc]
  rfl

/-- The scheduler switches to a process, which releases the lock. -/
theorem Mirrors.dispatch {k : ℕ} (mirrors : Mirrors m a) (at_pc : m.pc = .scan k search)
    (found : m.proc.candidate k search = some p) :
    ∃ a', ReflTransGen Step a a' ∧ Mirrors { m with
      proc := m.proc.set p { m.proc p with state := .running, schedTime := m.ticks, chan := none }
      pc := .slice p search } a' := by
  have place := mirrors.pc
  have locked := mirrors.ptable
  rw [at_pc] at place locked
  rw [← mirrors.proc] at found
  let a₁ := { a.goto 0 (.start p search)
      with proc := a.proc.set p { a.proc p with state := .running } }
  have first : act a (.run 0) = some a₁ := by
    simp only [act, Machine.run, place, Pc.of, found, a₁]
  let a₂ := { a₁.goto 0 (.slice p search) with
    proc := a₁.proc.set p { a₁.proc p with schedTime := a₁.ticks, chan := none }
    slice := Function.update a₁.slice p [] }
  have second : act a₁ (.run 0) = some a₂ := by
    have started : a₁.pc 0 = .start p search := goto_pc a _
    have quiet : a₁.trap = false := mirrors.trap
    simp only [act, Machine.run, started, quiet, a₂]
    rfl
  have third : act a₂ (.release 0) = some { a₂ with ptable := none } := by
    have running : a₂.pc 0 = .slice p search := goto_pc a₁ _
    have mine : a₂.ptable = some 0 := locked
    simp only [act, Machine.release, running, if_pos mine]
  refine ⟨_, .head ⟨_, first⟩ (.head ⟨_, second⟩ (.single ⟨_, third⟩)), ?_, mirrors.initproc,
    mirrors.nextpid,
    mirrors.ticks, rfl, mirrors.trap, goto_pc a₁ _⟩
  change (a.proc.set p _).set p { (a.proc.set p _) p with schedTime := a.ticks, chan := none } = _
  rw [Table.set_self, mirrors.proc, mirrors.ticks]
  exact Function.update_idem _ _ _

/-- The scheduler of the rounds looks at a slot, and the CPU does. -/
theorem Mirrors.look (mirrors : Mirrors m a) (stepped : Sched.step m .look = some m') :
    ∃ a', ReflTransGen Step a a' ∧ Mirrors m' a' := by
  simp only [Sched.step, Sched.Machine.look] at stepped
  split at stepped
  next k search at_pc =>
    have chooses : m.switchesTo = m.proc.candidate k search := by
      rw [Sched.Machine.switchesTo, at_pc]
    rw [chooses] at stepped
    cases found : m.proc.candidate k search with
    | some p =>
        rw [found] at stepped
        cases stepped
        exact mirrors.dispatch at_pc found
    | none =>
        rw [found] at stepped
        have place := mirrors.pc
        have locked := mirrors.ptable
        rw [at_pc] at place locked
        rw [← mirrors.proc] at found
        dsimp only at stepped
        split_ifs at stepped with inside
        · cases stepped
          have ran : act a (.run 0) = some (a.goto 0 (.scan (k + 1) search)) := by
            simp only [act, Machine.run, place, Pc.of, found, if_pos inside]
          exact ⟨_, .single ⟨_, ran⟩, mirrors.proc, mirrors.initproc, mirrors.nextpid,
            mirrors.ticks, locked,
            mirrors.trap, goto_pc a _⟩
        · cases stepped
          have ran : act a (.run 0) = some { a.goto 0 .idle with ptable := none } := by
            simp only [act, Machine.run, place, Pc.of, found, if_neg inside]
          exact ⟨_, .single ⟨_, ran⟩, mirrors.proc, mirrors.initproc, mirrors.nextpid,
            mirrors.ticks, rfl,
            mirrors.trap, goto_pc a _⟩
  next => cases stepped

/-- The timer is handled without a break. -/
theorem Mirrors.tick (mirrors : Mirrors m a) (stepped : Sched.step m .tick = some m') :
    ∃ a', ReflTransGen Step a a' ∧ Mirrors m' a' := by
  simp only [Sched.step, Option.ite_none_right_eq_some] at stepped
  rcases stepped with ⟨open_, stepped⟩
  cases stepped
  have free := mirrors.free open_
  have quiet : ¬a.trap = true := by
    rw [mirrors.trap]
    exact Bool.false_ne_true
  have first : act a .tick = some _ := if_neg quiet
  refine ⟨_, .head ⟨_, first⟩ (.single ⟨.tickDone, if_pos ⟨rfl, free⟩⟩), ?_, mirrors.initproc,
    mirrors.nextpid, ?_,
    mirrors.ptable, rfl, mirrors.pc⟩
  · exact congrArg (Table.wakeup1 · (some .ticks)) mirrors.proc
  · exact congrArg (· + 1) mirrors.ticks

/-- An interrupt wakes up the same processes in both machines. -/
theorem Mirrors.interrupt {chan : Chan} (mirrors : Mirrors m a)
    (stepped : Sched.step m (.interrupt chan) = some m') :
    ∃ a', ReflTransGen Step a a' ∧ Mirrors m' a' := by
  simp only [Sched.step, Option.ite_none_right_eq_some] at stepped
  rcases stepped with ⟨open_, stepped⟩
  cases stepped
  refine ⟨_, .single ⟨.interrupt chan, if_pos (mirrors.free open_)⟩, ?_, mirrors.initproc,
    mirrors.nextpid,
    mirrors.ticks, mirrors.ptable, mirrors.trap, mirrors.pc⟩
  exact congrArg (Table.wakeup1 · (some chan)) mirrors.proc

/-- The process calls `sched`, and the scheduler accounts for it. -/
theorem Mirrors.leaves (mirrors : Mirrors m a) (at_pc : m.pc = .slice i search)
    (left : m.proc.leaves m.initproc i e = some t) (back : m.resume i search t = some m') :
    ∃ a', ReflTransGen Step a a' ∧ Mirrors m' a' := by
  rcases Option.map_eq_some_iff.mp back with ⟨q, accounted, rfl⟩
  have place := mirrors.pc
  rw [at_pc] at place
  have free := mirrors.free (by rw [at_pc]; rfl)
  rw [← mirrors.proc, ← mirrors.initproc] at left
  let a₁ := { a.goto 0 (.stop i search) with proc := t, ptable := some (0 : Fin 1) }
  have first : act a (.process 0 e) = some a₁ := by
    simp only [act, Machine.process, place, Pc.of, if_pos free, left, a₁]
  have second : act a₁ (.run 0) =
      some { a₁.goto 0 (.scan (i + 1) ((t i).raise search)) with proc := t.set i q } := by
    have stopped : a₁.pc 0 = .stop i search := goto_pc a _
    have quiet : a₁.trap = false := mirrors.trap
    have account : (a₁.proc i).account a₁.ticks = some q := by
      rw [← accounted, ← mirrors.ticks]
      rfl
    simp only [act, Machine.run, stopped, quiet, account]
    rfl
  exact ⟨_, .head ⟨_, first⟩ (.single ⟨_, second⟩), rfl, mirrors.initproc, mirrors.nextpid,
    mirrors.ticks, rfl,
    mirrors.trap, goto_pc a₁ _⟩

/-- The process does something after which it still runs. -/
theorem Mirrors.call (mirrors : Mirrors m a) (at_pc : m.pc = .slice i search)
    (stays : m.proc.leaves m.initproc i e = none) (stepped : runStep m i search e = some m') :
    ∃ a', ReflTransGen Step a a' ∧ Mirrors m' a' := by
  have place := mirrors.pc
  rw [at_pc] at place
  have free := mirrors.free (by rw [at_pc]; rfl)
  have goesOn : act a (.process 0 e) = a.call i e := by
    rw [← mirrors.proc, ← mirrors.initproc] at stays
    simp only [act, Machine.process, place, Pc.of, if_pos free, stays]
  have done : ∀ b, a.call i e = some b → b.pc = a.pc ∧ b.ptable = a.ptable ∧ b.trap = a.trap ∧
      b.initproc = a.initproc ∧ b.ticks = a.ticks → m'.pc = m.pc ∧ m'.initproc = m.initproc ∧
        m'.ticks = m.ticks →
      b.proc = m'.proc → b.nextpid = m'.nextpid → ∃ a', ReflTransGen Step a a' ∧ Mirrors m' a' := by
    rintro b called ⟨pc, ptable, trap, initproc, ticks⟩ ⟨pc', initproc', ticks'⟩ proc nextpid
    refine ⟨b, .single ⟨_, goesOn.trans called⟩, proc, ?_, nextpid, ?_, ?_,
      trap.trans mirrors.trap, ?_⟩
    · rw [initproc, initproc', mirrors.initproc]
    · rw [ticks, ticks', mirrors.ticks]
    · rw [ptable, pc', mirrors.ptable]
    · rw [pc, pc', mirrors.pc]
  have proc := mirrors.proc
  have nextpid := mirrors.nextpid
  cases e with
  | setpri priority =>
      cases stepped
      exact done _ rfl ⟨rfl, rfl, rfl, rfl, rfl⟩ ⟨rfl, rfl, rfl⟩
        (congrArg (Table.setpri · i priority) proc) nextpid
  | allocproc =>
      have same : a.proc.allocproc a.nextpid = m.proc.allocproc m.nextpid := by rw [proc, nextpid]
      cases found : m.proc.allocproc m.nextpid with
      | none =>
          simp only [runStep, found] at stepped
          cases stepped
          refine done a ?_ ⟨rfl, rfl, rfl, rfl, rfl⟩ ⟨rfl, rfl, rfl⟩ proc nextpid
          simp only [Machine.call, same, found]
      | some slot =>
          simp only [runStep, found] at stepped
          cases stepped
          refine done { a.born slot.1 slot.2 with nextpid := a.nextpid + 1 } ?_
            ⟨rfl, rfl, rfl, rfl, rfl⟩
            ⟨rfl, rfl, rfl⟩ rfl (congrArg (· + 1) nextpid)
          simp only [Machine.call, same, found]
  | discard child =>
      simp only [runStep, Option.ite_none_right_eq_some] at stepped
      cases stepped.2
      refine done { a with proc := a.proc.discard child } ?_ ⟨rfl, rfl, rfl, rfl, rfl⟩
        ⟨rfl, rfl, rfl⟩
        (congrArg (Table.discard · child) proc) nextpid
      exact if_pos (by rw [proc]; exact stepped.1)
  | fork child =>
      simp only [runStep, Option.ite_none_right_eq_some] at stepped
      cases stepped.2
      refine done (a.born child (a.proc.fork i child)) ?_ ⟨rfl, rfl, rfl, rfl, rfl⟩ ⟨rfl, rfl, rfl⟩
        (congrArg (Table.fork · i child) proc) nextpid
      exact if_pos (by rw [proc]; exact stepped.1)
  | wakeup chan =>
      cases stepped
      exact done _ rfl ⟨rfl, rfl, rfl, rfl, rfl⟩ ⟨rfl, rfl, rfl⟩
        (congrArg (Table.wakeup1 · (some chan)) proc) nextpid
  | kill pid =>
      cases stepped
      exact done _ rfl ⟨rfl, rfl, rfl, rfl, rfl⟩ ⟨rfl, rfl, rfl⟩
        (congrArg (Table.kill · pid) proc) nextpid
  | wait =>
      have same : a.proc.wait i = m.proc.wait i := by rw [proc]
      cases found : m.proc.wait i with
      | reaped t =>
          simp only [runStep, found] at stepped
          cases stepped
          refine done { a with proc := t } ?_ ⟨rfl, rfl, rfl, rfl, rfl⟩ ⟨rfl, rfl, rfl⟩ rfl nextpid
          simp only [Machine.call, same, found]
      | failed =>
          simp only [runStep, found] at stepped
          cases stepped
          refine done a ?_ ⟨rfl, rfl, rfl, rfl, rfl⟩ ⟨rfl, rfl, rfl⟩ proc nextpid
          simp only [Machine.call, same, found]
      | sleeps t =>
          simp only [Table.leaves, found] at stays
          cases stays
  | sleep chan => cases stays
  | yield => cases stays
  | exit =>
      simp only [Table.leaves, ite_eq_left_iff, reduceCtorEq, imp_false, not_not] at stays
      simp only [runStep, if_pos stays] at stepped
      cases stepped
  | acquire | look | tick | interrupt chan => cases stepped

/-- A step of the process that runs. -/
theorem Mirrors.runStep (mirrors : Mirrors m a) (at_pc : m.pc = .slice i search)
    (stepped : Sched.runStep m i search e = some m') :
    ∃ a', ReflTransGen Step a a' ∧ Mirrors m' a' := by
  cases left : m.proc.leaves m.initproc i e with
  | none => exact mirrors.call at_pc left stepped
  | some t =>
      rw [runStep_of_leaves left] at stepped
      exact mirrors.leaves at_pc left stepped

/-- A step of the machine of the rounds is a run of the machine of the accounts. -/
theorem Mirrors.step (mirrors : Mirrors m a) (stepped : Sched.step m e = some m') :
    ∃ a', ReflTransGen Step a a' ∧ Mirrors m' a' := by
  cases e with
  | acquire => exact mirrors.acquire stepped
  | look => exact mirrors.look stepped
  | tick => exact mirrors.tick stepped
  | interrupt chan => exact mirrors.interrupt stepped
  | _ =>
      rcases exists_slice stepped with ⟨i, search, at_pc, ran⟩
      exact mirrors.runStep at_pc ran

end Steps

theorem mirrors_booted : Mirrors Sched.booted (booted 1) := ⟨rfl, rfl, rfl, rfl, rfl, rfl, rfl⟩

/-- What the machine of the rounds comes to, the machine of the accounts comes to on one CPU. -/
theorem mirrored_of_run {m : Sched.Machine} (run : ReflTransGen Sched.Step Sched.booted m) :
    ∃ a : Machine 1, ReflTransGen Step (booted 1) a ∧ Mirrors m a := by
  refine Runs.simulates_run (fun m m' a step mirrors => ?_) run mirrors_booted
  rcases step with ⟨e, stepped⟩
  exact mirrors.step stepped

end Xv6.Sched.Accounts
