import Xv6.Sched.Scheduler

/-!
# Several CPUs

The lock steps of `scheduler`, of the timer case of `trap`, of `sys_sleep` and of
`sys_uptime` in part2, on `n` CPUs that share `ptable.lock` and `tickslock`. A CPU that
waits for a lock spins with interrupts disabled and can do nothing else. What a process
does without these locks is left out: it is in state `user` all the while.
-/

namespace Xv6.Sched.Smp

abbrev NCPU : ℕ := 8

/-- Where a process goes on when it is switched to, with `ptable.lock` held. -/
inductive Resume where
  /-- In `forkret`, or at the end of `yield`. -/
  | user
  /-- In `sleep`, called by `sys_sleep` of `n` ticks. -/
  | sleeping (n ticks0 : Word)

/-- Where a CPU is. A process runs in slot `p` after a search for priority `search`. -/
inductive Pc where
  /-- In `scheduler` between two rounds, with interrupts enabled. -/
  | idle
  /-- `scheduler` waits for `ptable.lock`. -/
  | roundAcquire
  | scan (i search : ℕ)
  /-- `sys_uptime` before the switch waits for `tickslock`, and then releases it. -/
  | startAcquire (p : Fin NPROC) (search : ℕ)
  | startRelease (p : Fin NPROC) (search : ℕ)
  /-- The process has been switched to. -/
  | switched (p : Fin NPROC) (search : ℕ)
  | user (p : Fin NPROC) (search : ℕ)
  /-- The process waits for `tickslock` in `sys_uptime`. -/
  | uptimeAcquire (p : Fin NPROC) (search : ℕ)
  /-- The process releases `tickslock` and returns. -/
  | ticksRelease (p : Fin NPROC) (search : ℕ)
  /-- `sys_sleep` waits for `tickslock`: at its start, or in `sleep` once it has been woken up. -/
  | sleepAcquire (p : Fin NPROC) (search : ℕ) (n : Word) (ticks0 : Option Word)
  | sleepTest (p : Fin NPROC) (search : ℕ) (n ticks0 : Word)
  /-- `sleep` waits for `ptable.lock`, and then releases `tickslock`. -/
  | sleepTable (p : Fin NPROC) (search : ℕ) (n ticks0 : Word)
  | sleepRelease (p : Fin NPROC) (search : ℕ) (n ticks0 : Word)
  /-- `yield` waits for `ptable.lock`. -/
  | yieldAcquire (p : Fin NPROC) (search : ℕ)
  | yieldSwitch (p : Fin NPROC) (search : ℕ)
  /-- `sys_uptime` after the switch back waits for `tickslock`, and then releases it. -/
  | stopAcquire (p : Fin NPROC) (search : ℕ)
  | stopRelease (p : Fin NPROC) (search : ℕ)
  /-- The timer case of `trap` waits for `tickslock`; `back` is the process interrupted, if any. -/
  | timerAcquire (back : Option (Fin NPROC × ℕ))
  | timerTick (back : Option (Fin NPROC × ℕ))
  /-- `wakeup` waits for `ptable.lock`. -/
  | timerTable (back : Option (Fin NPROC × ℕ))
  | timerWakeup (back : Option (Fin NPROC × ℕ))
  | timerRelease (back : Option (Fin NPROC × ℕ))

/-- The CPU spins in `acquire(&ptable.lock)`. -/
def Pc.wantsTable : Pc → Bool
  | .roundAcquire | .sleepTable _ _ _ _ | .yieldAcquire _ _ | .timerTable _ => true
  | _ => false

/-- The CPU spins in `acquire(&tickslock)`. -/
def Pc.wantsTicks : Pc → Bool
  | .startAcquire _ _ | .uptimeAcquire _ _ | .sleepAcquire _ _ _ _ | .stopAcquire _ _
  | .timerAcquire _ => true
  | _ => false

structure Machine (n : ℕ) where
  proc : Table
  ticks : Word
  /-- The CPUs that hold the two locks. -/
  ptable : Option (Fin n)
  tickslock : Option (Fin n)
  pc : Fin n → Pc
  resume : Fin NPROC → Resume

variable {n : ℕ}

namespace Machine

variable (m : Machine n) (c : Fin n)

def goto (pc : Pc) : Machine n := { m with pc := Function.update m.pc c pc }

/-- `acquire(&ptable.lock)`, if it gets the lock. -/
def takeTable (pc : Pc) : Option (Machine n) :=
  if m.ptable = none then some { m.goto c pc with ptable := some c } else none

/-- `acquire(&tickslock)`, if it gets the lock. -/
def takeTicks (pc : Pc) : Option (Machine n) :=
  if m.tickslock = none then some { m.goto c pc with tickslock := some c } else none

def dropTable (pc : Pc) : Machine n := { m.goto c pc with ptable := none }

def dropTicks (pc : Pc) : Machine n := { m.goto c pc with tickslock := none }

/-- `scheduler` after the switch back: the account of the process, and the next slot. -/
def account (p : Fin NPROC) (search : ℕ) : Option (Machine n) :=
  ((m.proc p).account m.ticks).map fun proc =>
    { m.dropTicks c (.scan (p + 1) ((m.proc p).raise search)) with proc := m.proc.set p proc }

/-- CPU `c` goes on with its code; none when it spins, or is outside of the code modelled here. -/
def run : Option (Machine n) :=
  match m.pc c with
  | .idle => some (m.goto c .roundAcquire)
  | .roundAcquire => m.takeTable c (.scan 0 (searchPri m.proc (List.finRange NPROC)))
  | .scan i search =>
      match m.proc.candidate i search with
      | some p => some { m.goto c (.startAcquire p search) with
          proc := m.proc.set p { m.proc p with state := .running } }
      | none => if i < NPROC then some (m.goto c (.scan (i + 1) search))
        else some (m.dropTable c .idle)
  | .startAcquire p search => m.takeTicks c (.startRelease p search)
  | .startRelease p search => some { m.dropTicks c (.switched p search) with
      proc := m.proc.set p { m.proc p with schedTime := m.ticks } }
  | .switched p search =>
      match m.resume p with
      | .user => some (m.dropTable c (.user p search))
      | .sleeping n ticks0 => some { m.dropTable c (.sleepAcquire p search n (some ticks0)) with
          proc := m.proc.set p { m.proc p with chan := none } }
  | .user _ _ => none
  | .uptimeAcquire p search => m.takeTicks c (.ticksRelease p search)
  | .ticksRelease p search => some (m.dropTicks c (.user p search))
  | .sleepAcquire p search n ticks0 => m.takeTicks c (.sleepTest p search n (ticks0.getD m.ticks))
  | .sleepTest p search n ticks0 =>
      if m.ticks - ticks0 < n ∧ (m.proc p).killed = false then
        some (m.goto c (.sleepTable p search n ticks0))
      else some (m.goto c (.ticksRelease p search))
  | .sleepTable p search n ticks0 => m.takeTable c (.sleepRelease p search n ticks0)
  | .sleepRelease p search n ticks0 => some { m.dropTicks c (.stopAcquire p search) with
      proc := m.proc.sleep p .ticks
      resume := Function.update m.resume p (.sleeping n ticks0) }
  | .yieldAcquire p search => m.takeTable c (.yieldSwitch p search)
  | .yieldSwitch p search => some { m.goto c (.stopAcquire p search) with
      proc := m.proc.yield p
      resume := Function.update m.resume p .user }
  | .stopAcquire p search => m.takeTicks c (.stopRelease p search)
  | .stopRelease p search => m.account c p search
  | .timerAcquire back => m.takeTicks c (.timerTick back)
  | .timerTick back => some { m.goto c (.timerTable back) with ticks := m.ticks + 1 }
  | .timerTable back => m.takeTable c (.timerWakeup back)
  | .timerWakeup back => some { m.dropTable c (.timerRelease back) with
      proc := m.proc.wakeup1 (some .ticks) }
  | .timerRelease back =>
      match back with
      | some (p, search) => some (m.dropTicks c (.yieldAcquire p search))
      | none => some (m.dropTicks c .idle)

/-- A timer interrupt on CPU `c`. Only CPU 0 counts it; a process yields. -/
def timer : Option (Machine n) :=
  match m.pc c with
  | .idle => if c.val = 0 then some (m.goto c (.timerAcquire none)) else some m
  | .user p search =>
      if c.val = 0 then some (m.goto c (.timerAcquire (some (p, search))))
      else some (m.goto c (.yieldAcquire p search))
  | _ => none

end Machine

inductive Event where
  | run
  | timer
  /-- The process on the CPU calls `sys_uptime`, or `sys_sleep` with the given argument. -/
  | uptime
  | sleep (n : Word)

def step (m : Machine n) (c : Fin n) : Event → Option (Machine n)
  | .run => m.run c
  | .timer => m.timer c
  | .uptime =>
      match m.pc c with
      | .user p search => some (m.goto c (.uptimeAcquire p search))
      | _ => none
  | .sleep n =>
      match m.pc c with
      | .user p search => some (m.goto c (.sleepAcquire p search n none))
      | _ => none

/-- All CPUs have entered `scheduler`. -/
def Machine.init (n : ℕ) : Machine n where
  proc := firstTable
  ticks := 0
  ptable := none
  tickslock := none
  pc := fun _ => .idle
  resume := fun _ => .user

end Xv6.Sched.Smp
