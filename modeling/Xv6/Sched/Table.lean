import Xv6.Param

/-!
# The process table

The part of part2's `proc.c` that works on `ptable`, under `ptable.lock`. Each
function below is one critical section: it takes the table and returns the table
at the release of the lock. The fields of `struct proc` that belong to memory and
files play no part here.
-/

namespace Xv6.Sched

/-- `enum procstate`. -/
inductive State where
  | unused
  | embryo
  | sleeping
  | runnable
  | running
  | zombie
  deriving DecidableEq

/-- The states of a process that can make calls. -/
def State.alive : State → Bool
  | .sleeping | .runnable | .running => true
  | _ => false

/-! `enum procpri`. -/

abbrev LOW_PRI : ℕ := 1
abbrev HIGH_PRI : ℕ := 2

/-- What a process can sleep on: `&ptable.proc[i]`, `&ticks`, or another address. -/
inductive Chan where
  | proc (i : Fin NPROC)
  | ticks
  | addr (a : ℕ)
  deriving DecidableEq

structure Proc where
  state : State
  pid : Word
  parent : Option (Fin NPROC)
  chan : Option Chan
  killed : Bool
  /-- When it started running. -/
  schedTime : Word
  lopTicks : Word
  hipTicks : Word
  pri : ℕ

abbrev Table := Fin NPROC → Proc

namespace Table

variable (t : Table)

/-- Replace one entry. -/
def set (i : Fin NPROC) (p : Proc) : Table := Function.update t i p

@[simp]
theorem set_self (i : Fin NPROC) (p : Proc) : t.set i p i = p :=
  Function.update_self _ _ _

theorem set_of_ne {i j : Fin NPROC} (other : j ≠ i) (p : Proc) : t.set i p j = t j :=
  Function.update_of_ne other _ _

/-- The part of `allocproc` under the lock: the slot it takes, and the table. -/
def allocproc (nextpid : Word) : Option (Fin NPROC × Table) :=
  match (List.finRange NPROC).find? fun i => (t i).state = .unused with
  | some i => some (i, t.set i { t i with
      state := .embryo, pid := nextpid, pri := 1, lopTicks := 0, hipTicks := 0 })
  | none => none

/-- `allocproc` and `fork` give a slot back when there is no memory. -/
def discard (i : Fin NPROC) : Table := t.set i { t i with state := .unused }

/-- The end of `fork` in process `cur`, for the child in slot `i`. -/
def fork (cur i : Fin NPROC) : Table :=
  t.set i { t i with
    parent := some cur, lopTicks := 0, hipTicks := 0, pri := LOW_PRI, state := .runnable }

def wakeup1 (chan : Option Chan) : Table := fun i =>
  if (t i).state = .sleeping ∧ (t i).chan = chan then { t i with state := .runnable } else t i

/-- `killed` is set, and a sleeping process is woken up. -/
def kill (pid : Word) : Table :=
  match (List.finRange NPROC).find? fun i => (t i).pid = pid with
  | some i => t.set i { t i with
      killed := true
      state := if (t i).state = .sleeping then .runnable else (t i).state }
  | none => t

/-- `setpri` ignores any other value. -/
def setpri (cur : Fin NPROC) (priority : ℤ) : Table :=
  if priority < 1 ∨ priority > 2 then t else t.set cur { t cur with pri := priority.toNat }

/-- Some child of `cur` is a zombie. -/
def hasZombie (cur : Fin NPROC) : Bool :=
  (List.finRange NPROC).any fun i => (t i).parent = some cur ∧ (t i).state = .zombie

/-- Pass abandoned children to init. -/
def passChildren (cur initproc : Fin NPROC) : Table := fun i =>
  if (t i).parent = some cur then { t i with parent := some initproc } else t i

/-- The part of `exit` under the lock. -/
def exit (cur initproc : Fin NPROC) : Table :=
  -- Parent might be sleeping in wait().
  let t₁ := (t.wakeup1 ((t cur).parent.map .proc)).passChildren cur initproc
  let t₂ := if t.hasZombie cur then t₁.wakeup1 (some (.proc initproc)) else t₁
  t₂.set cur { t₂ cur with state := .zombie }

/-- The outcomes of one pass through the loop of `wait`. -/
inductive Waited where
  | reaped (t : Table)
  /-- No children, or killed: -1 is returned. -/
  | failed
  | sleeps (t : Table)

def sleep (cur : Fin NPROC) (chan : Chan) : Table :=
  t.set cur { t cur with chan := some chan, state := .sleeping }

def wait (cur : Fin NPROC) : Waited :=
  match (List.finRange NPROC).find? fun i => (t i).parent = some cur ∧ (t i).state = .zombie with
  | some i => .reaped (t.set i { t i with
      pid := 0, parent := none, killed := false, state := .unused })
  | none =>
      if ((List.finRange NPROC).all fun i => (t i).parent ≠ some cur) ∨ (t cur).killed then .failed
      else .sleeps (t.sleep cur (.proc cur))

def yield (cur : Fin NPROC) : Table := t.set cur { t cur with state := .runnable }

variable (i : Fin NPROC)

@[simp]
theorem wakeup1_pri (chan : Option Chan) : (t.wakeup1 chan i).pri = (t i).pri := by
  rw [wakeup1]
  split <;> rfl

@[simp]
theorem wakeup1_chan (chan : Option Chan) : (t.wakeup1 chan i).chan = (t i).chan := by
  rw [wakeup1]
  split <;> rfl

theorem sleeping_of_wakeup1 {chan : Option Chan} (asleep : (t.wakeup1 chan i).state = .sleeping) :
    (t i).state = .sleeping := by
  rw [wakeup1] at asleep
  split at asleep
  · cases asleep
  · exact asleep

@[simp]
theorem passChildren_state (cur initproc : Fin NPROC) :
    (t.passChildren cur initproc i).state = (t i).state := by
  rw [passChildren]
  split <;> rfl

@[simp]
theorem passChildren_pri (cur initproc : Fin NPROC) :
    (t.passChildren cur initproc i).pri = (t i).pri := by
  rw [passChildren]
  split <;> rfl

@[simp]
theorem passChildren_chan (cur initproc : Fin NPROC) :
    (t.passChildren cur initproc i).chan = (t i).chan := by
  rw [passChildren]
  split <;> rfl

end Table

/-- The process table after `userinit`. -/
def firstTable : Table := fun i =>
  { state := if i.val = 0 then .runnable else .unused
    pid := if i.val = 0 then 1 else 0
    parent := none
    chan := none
    killed := false
    schedTime := 0
    lopTicks := 0
    hipTicks := 0
    pri := if i.val = 0 then LOW_PRI else 0 }

end Xv6.Sched
