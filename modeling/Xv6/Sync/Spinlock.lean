import Xv6.Lib.Runs
import Mathlib.Tactic

/-!
# Spin locks and interrupts

This file models `spinlock.c`, with the context switches of `proc.c`, for any number of CPUs,
locks and kernel threads. A step is one access to memory that another CPU may see, with what
the CPU does on its own before the next one; interrupts come between any two steps while they
are enabled. A handler is code like any other: it takes and releases locks, and may switch to
another thread.

`held` and `base` are ghost state, which no step reads. They record the locks that a piece of
code has taken and not yet given back, and the interrupt flag that its `acquire` of the first
of them has found. A process keeps `base` while `sched` switches to other threads, since `sched`
saves `intena`. The scheduler saves nothing, so it forgets `base` when it switches.
-/

namespace Xv6.Sync

inductive Panic where
  | acquire
  | release
  /-- The panics of `popcli`. -/
  | interruptible
  | popcli
  /-- The panics of `sched`. -/
  | schedLock
  | schedLocks
  | schedRunning
  | schedInterruptible
  deriving DecidableEq

/-- Where a piece of code is. -/
inductive Pc (L : Type) where
  /-- Not in a function of `spinlock.c`. -/
  | rest
  /-- In the `pushcli` of `acquire`, before `readeflags` and before `cli`. -/
  | push (l : L)
  | cli (l : L) (eflags : Bool)
  /-- Before `holding` in `acquire`, and in it, with `lk->locked` read. -/
  | test (l : L)
  | testing (l : L) (locked : Bool)
  /-- Before `xchg`. -/
  | spin (l : L)
  /-- Before `lk->cpu = mycpu()`. -/
  | enter (l : L)
  /-- Before `holding` in `release`, which has interrupts off if the lock is held, and in it. -/
  | check (l : L)
  | checking (l : L) (locked : Bool)
  /-- Before `lk->cpu = 0`, before `lk->locked = 0` and before `popcli`. -/
  | clear (l : L)
  | unlock (l : L)
  | pop
  /-- In `swtch`, called by `sched` with its `intena`, or by `scheduler`. -/
  | switched (intena : Option Bool)
  deriving DecidableEq

/-- A piece of code: a thread, or a handler that has interrupted another piece. -/
structure Frame (L : Type) where
  pc : Pc L
  held : List L
  base : Option Bool
  deriving DecidableEq

/-- `below` is what has been interrupted, the last interrupted first. -/
structure Thread (L : Type) where
  top : Frame L
  below : List (Frame L)

/-- `struct cpu`, with the interrupt flag. -/
structure Cpu where
  iflag : Bool
  ncli : ℤ
  intena : Bool

/-- `struct spinlock` -/
structure Lock (n : ℕ) where
  locked : Bool
  cpu : Option (Fin n)

structure World (L : Type) (n : ℕ) where
  cpu : Fin n → Cpu
  lock : L → Lock n
  thread : ℕ → Thread L
  /-- The thread on a CPU. -/
  running : Fin n → ℕ
  /-- The process of a thread has `p->state == RUNNING`. -/
  isRunning : ℕ → Bool

namespace Cpu

/-- `pushcli` from `cli` on. -/
def cli (c : Cpu) (eflags : Bool) : Cpu where
  iflag := false
  ncli := c.ncli + 1
  intena := if c.ncli = 0 then eflags else c.intena

def pushcli (c : Cpu) : Cpu := c.cli c.iflag

def popcli (c : Cpu) : Except Panic Cpu :=
  if c.iflag then .error .interruptible
  else if c.ncli - 1 < 0 then .error .popcli
  else .ok { c with ncli := c.ncli - 1, iflag := c.ncli - 1 = 0 ∧ c.intena }

end Cpu

section

variable {L : Type} [DecidableEq L] {n : ℕ}

namespace World

variable (w : World L n) (c : Fin n)

/-- The code that runs on CPU `c`. -/
def top : Frame L := (w.thread (w.running c)).top

def setThread (t : Thread L) : World L n :=
  { w with thread := Function.update w.thread (w.running c) t }

def setTop (f : Frame L) : World L n := w.setThread c { w.thread (w.running c) with top := f }

def setCpu (cpu : Cpu) : World L n := { w with cpu := Function.update w.cpu c cpu }

def setLock (l : L) (lock : Lock n) : World L n := { w with lock := Function.update w.lock l lock }

/-- `p->state` of the process of thread `t` becomes `RUNNING`, or something else. -/
def setRunning (t : ℕ) (running : Bool) : World L n :=
  { w with isRunning := Function.update w.isRunning t running }

def goto (pc : Pc L) : World L n := w.setTop c { w.top c with pc := pc }

/-- What `holding` returns, where `lk->locked` has been read before. -/
def holds (l : L) (locked : Bool) : Bool := locked && (w.lock l).cpu == some c

/-- The next step of the code on CPU `c`. -/
def advance : Option (Except Panic (World L n)) :=
  match (w.top c).pc with
  | .push l => some (.ok (w.goto c (.cli l (w.cpu c).iflag)))
  | .cli l eflags => some (.ok ((w.setCpu c ((w.cpu c).cli eflags)).goto c (.test l)))
  | .test l => some (.ok ((w.setCpu c (w.cpu c).pushcli).goto c (.testing l (w.lock l).locked)))
  | .testing l locked => some (do
      let cpu ← (w.cpu c).popcli
      if w.holds c l locked then .error .acquire else return (w.setCpu c cpu).goto c (.spin l))
  | .spin l =>
      if (w.lock l).locked then some (.ok w)
      else some (.ok ((w.setLock l { w.lock l with locked := true }).setTop c
        { w.top c with pc := .enter l, held := l :: (w.top c).held }))
  | .enter l => some (.ok ((w.setLock l { w.lock l with cpu := some c }).goto c .rest))
  | .check l => some (.ok ((w.setCpu c (w.cpu c).pushcli).goto c (.checking l (w.lock l).locked)))
  | .checking l locked => some (do
      let cpu ← (w.cpu c).popcli
      if w.holds c l locked then return (w.setCpu c cpu).goto c (.clear l) else .error .release)
  | .clear l => some (.ok ((w.setLock l { w.lock l with cpu := none }).goto c (.unlock l)))
  | .unlock l => some (.ok ((w.setLock l { w.lock l with locked := false }).setTop c
      { w.top c with pc := .pop, held := (w.top c).held.erase l }))
  | .pop => some (do
      let cpu ← (w.cpu c).popcli
      return (w.setCpu c cpu).goto c .rest)
  | .rest => none
  | .switched _ => none

/-- `acquire`, up to `pushcli`. -/
def acquire (l : L) : World L n :=
  w.setTop c { w.top c with
    pc := .push l
    base := if (w.top c).held = [] then some (w.cpu c).iflag else (w.top c).base }

/-- CPU `c` goes on with thread `t`, which comes back from `swtch`. -/
def resume (t : ℕ) (intena : Option Bool) : World L n :=
  let cpu := { w.cpu c with intena := intena.getD (w.cpu c).intena }
  let w := ({ w with running := Function.update w.running c t } : World L n).setCpu c cpu
  w.goto c .rest

/-- `sched`, up to `swtch`. -/
def sched (ptable : L) : Except Panic (World L n) :=
  if !w.holds c ptable (w.lock ptable).locked then .error .schedLock
  else if (w.cpu c).ncli ≠ 1 then .error .schedLocks
  else if w.isRunning (w.running c) then .error .schedRunning
  else if (w.cpu c).iflag then .error .schedInterruptible
  else .ok (w.goto c (.switched (some (w.cpu c).intena)))

/-- `scheduler`, from `p->state = RUNNING` up to `swtch`, where `p` is the process of thread `t`. -/
def scheduler (t : ℕ) : World L n :=
  (w.setRunning t true).setTop c { w.top c with pc := .switched none, base := none }

end World

inductive Event (L : Type) where
  /-- The code on the CPU calls `acquire` or `release`. -/
  | acquire (l : L)
  | release (l : L)
  | advance
  /-- `sti`, as in the loop of `scheduler`. -/
  | sti
  | interrupt
  | iret
  /-- The process on the CPU gives `p->state` another value than `RUNNING`. -/
  | setState
  /-- `sched` switches to thread `t`, and so does `scheduler`, which saves nothing. -/
  | sched (t : ℕ)
  | scheduler (t : ℕ)

/-- An event on CPU `c`, where it is possible. -/
def step (ptable : L) (w : World L n) (c : Fin n) : Event L → Option (Except Panic (World L n))
  | .acquire l =>
      match (w.top c).pc with
      | .rest => some (.ok (w.acquire c l))
      | _ => none
  | .release l =>
      match (w.top c).pc with
      | .rest => some (.ok (w.goto c (.check l)))
      | _ => none
  | .advance => w.advance c
  | .sti =>
      match (w.top c).pc with
      | .rest => some (.ok (w.setCpu c { w.cpu c with iflag := true }))
      | _ => none
  | .interrupt =>
      if (w.cpu c).iflag then
        some (.ok ((w.setCpu c { w.cpu c with iflag := false }).setThread c
          ⟨⟨.rest, [], none⟩, w.top c :: (w.thread (w.running c)).below⟩))
      else none
  | .iret =>
      match (w.top c).pc, (w.thread (w.running c)).below with
      | .rest, f :: below =>
          some (.ok ((w.setCpu c { w.cpu c with iflag := true }).setThread c ⟨f, below⟩))
      | _, _ => none
  | .setState =>
      match (w.top c).pc with
      | .rest => some (.ok (w.setRunning (w.running c) false))
      | _ => none
  | .sched t =>
      match (w.top c).pc, (w.thread t).top.pc with
      | .rest, .switched intena => some (do
          let w ← w.sched c ptable
          return w.resume c t intena)
      | _, _ => none
  | .scheduler t =>
      match (w.top c).pc, (w.thread t).top.pc with
      | .rest, .switched intena => some (.ok ((w.scheduler c t).resume c t intena))
      | _, _ => none

/--
After `mpmain` on every CPU: threads `0` to `n - 1` are the schedulers, and every other thread
will return from `swtch` when it runs for the first time, as `allocproc` has arranged.
-/
def World.init (ptable : L) : World L n where
  cpu := fun _ => ⟨false, 0, false⟩
  lock := fun _ => ⟨false, none⟩
  thread := fun t =>
    if t < n then ⟨⟨.rest, [], none⟩, []⟩ else ⟨⟨.switched none, [ptable], none⟩, []⟩
  running := fun c => c
  isRunning := fun _ => false

end

end Xv6.Sync
