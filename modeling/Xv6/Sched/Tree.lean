import Xv6.Sched.Table
import Mathlib.Logic.Relation

/-!
# The process tree

`fork`, `exit` and `wait` of part2 on any number of CPUs, cut into their critical sections
under `ptable.lock` and the writes to a new process that `fork` makes without it. The lock
is dropped between any two steps; in the code a process that is switched to in `wait` still
has it and goes on at once, which is one of the orders allowed here.

`forks`, `exited` and `reaps` are ghost state: how often `allocproc` has taken a slot, the
processes that have called `exit`, and what `wait` has returned to whom.
-/

namespace Xv6.Sched.Tree

/-- What a process is in the middle of. -/
inductive Doing where
  | other
  /-- In `fork`, with the slot of the child. -/
  | allocated (child : Fin NPROC)
  /-- In `fork`, after `np->parent = curproc`. -/
  | parented (child : Fin NPROC)
  /-- In the loop of `wait`. -/
  | waiting
  deriving DecidableEq

/-- `wait` of the process in slot `caller` has returned `pid`; the parent is that of the slot. -/
structure Reap where
  pid : Word
  caller : Fin NPROC
  parent : Option (Fin NPROC)

structure World where
  proc : Table
  initproc : Fin NPROC
  nextpid : Word
  doing : Fin NPROC → Doing
  forks : ℕ
  exited : List Word
  reaps : List Reap

inductive Action where
  /-- The steps of `fork`: `allocproc`, giving the slot back, the parent, and the end. -/
  | allocproc (i : Fin NPROC)
  | discard (i : Fin NPROC)
  | setParent (i : Fin NPROC)
  | fork (i : Fin NPROC)
  | wait (i : Fin NPROC)
  | exit (i : Fin NPROC)
  /-- `sleep` anywhere but in `wait`. -/
  | sleep (i : Fin NPROC) (chan : Chan)
  | yield (i : Fin NPROC)
  | schedule (i : Fin NPROC)
  | wakeup (chan : Chan)
  | kill (pid : Word)

namespace World

variable (w : World)

def running (i : Fin NPROC) : Prop := (w.proc i).state = .running

instance (i : Fin NPROC) : Decidable (w.running i) :=
  inferInstanceAs (Decidable ((w.proc i).state = .running))

def becomes (i : Fin NPROC) (doing : Doing) : World :=
  { w with doing := Function.update w.doing i doing }

/-- The child that a pass through the loop of `wait` finds. -/
def zombieOf (i : Fin NPROC) : Option (Fin NPROC) :=
  (List.finRange NPROC).find? fun j => (w.proc j).parent = some i ∧ (w.proc j).state = .zombie

def allocproc (i : Fin NPROC) : World :=
  match w.proc.allocproc w.nextpid with
  | some (child, t) => { w.becomes i (.allocated child) with
      proc := t
      nextpid := w.nextpid + 1
      forks := w.forks + 1 }
  | none => w

/-- One pass through the loop of `wait`. -/
def wait (i : Fin NPROC) : World :=
  match w.proc.wait i with
  | .reaped t => { w.becomes i .other with
      proc := t
      reaps := w.reaps ++ (w.zombieOf i).toList.map fun j =>
        ⟨(w.proc j).pid, i, (w.proc j).parent⟩ }
  | .failed => w.becomes i .other
  | .sleeps t => { w.becomes i .waiting with proc := t }

def exit (i : Fin NPROC) : World :=
  { w with
    proc := w.proc.exit i w.initproc
    exited := (w.proc i).pid :: w.exited }

end World

def step (w : World) : Action → Option World
  | .allocproc i => if w.running i ∧ w.doing i = .other then some (w.allocproc i) else none
  | .discard i =>
      match w.doing i with
      | .allocated child =>
          if w.running i then some { w.becomes i .other with proc := w.proc.discard child }
          else none
      | _ => none
  | .setParent i =>
      match w.doing i with
      | .allocated child =>
          if w.running i then some { w.becomes i (.parented child) with
            proc := w.proc.set child { w.proc child with parent := some i } }
          else none
      | _ => none
  | .fork i =>
      match w.doing i with
      | .parented child =>
          if w.running i then some { w.becomes i .other with proc := w.proc.fork i child }
          else none
      | _ => none
  | .wait i =>
      if w.running i ∧ (w.doing i = .other ∨ w.doing i = .waiting) then some (w.wait i) else none
  | .exit i =>
      if w.running i ∧ w.doing i = .other then
        if i = w.initproc then none -- panic("init exiting")
        else some (w.exit i)
      else none
  | .sleep i chan =>
      if w.running i ∧ w.doing i = .other ∧ ∀ j, chan ≠ .proc j then
        some { w with proc := w.proc.sleep i chan }
      else none
  | .yield i =>
      if w.running i ∧ w.doing i ≠ .waiting then some { w with proc := w.proc.yield i } else none
  | .schedule i =>
      -- A process that slept forgets its channel.
      if (w.proc i).state = .runnable then
        some { w with proc := w.proc.set i { w.proc i with state := .running, chan := none } }
      else none
  | .wakeup chan => some { w with proc := w.proc.wakeup1 (some chan) }
  | .kill pid => some { w with proc := w.proc.kill pid }

/-- After `userinit`. -/
def World.init : World where
  proc := firstTable
  initproc := 0
  nextpid := 2
  doing := fun _ => .other
  forks := 0
  exited := []
  reaps := []

end Xv6.Sched.Tree
