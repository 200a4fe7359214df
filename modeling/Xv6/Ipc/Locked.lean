import Xv6.Ipc.Pipe
import Xv6.Lib.Runs

/-!
# Pipes, one statement at a time

`pipe.c` of part2 under `p->lock`, in steps small enough for `kill` to come between any two
of them. What `wakeup` does under `ptable.lock` is one step, and so is `sleep`: nobody can
look at a process between its release of `p->lock` and its going to sleep, as it holds
`ptable.lock` all that time.
-/

namespace Xv6.Ipc.Locked

inductive Chan where
  | nread
  | nwrite
  deriving DecidableEq

/-- The statement that a process with `p->lock` comes to next. -/
inductive Held where
  /-- The tests of the two loops of `pipewrite`, with the bytes still to be stored. -/
  | writeTest (n : ℤ) (rest : List Byte)
  /-- The pipe is full. -/
  | writeFull (n : ℤ) (rest : List Byte)
  /-- `wakeup(&p->nread)` in the loop, then `sleep`. -/
  | writeWakeup (n : ℤ) (rest : List Byte)
  | writeSleep (n : ℤ) (rest : List Byte)
  /-- `wakeup(&p->nread)` after the loop. -/
  | writeDone (n : ℤ)
  | readTest (n : ℤ)
  /-- The pipe is empty. -/
  | readEmpty (n : ℤ)
  | readSleep (n : ℤ)
  /-- The copying loop, after `i` bytes. -/
  | readCopy (n : ℤ) (i : ℕ)
  | readDone (i : ℕ)
  | closeFlag (writable : Bool)
  | closeWakeup (writable : Bool)
  /-- `release(&p->lock)`, and the return of the call. -/
  | release
  deriving DecidableEq

inductive Pc where
  /-- Not in a call. -/
  | out
  /-- In `acquire(&p->lock)`, at the start of a call or at the end of `sleep`. -/
  | acquire (next : Held)
  | holds (next : Held)
  /-- SLEEPING, without the lock. -/
  | asleep (chan : Chan) (next : Held)
  deriving DecidableEq

structure World where
  pipe : Pipe
  lock : Option ℕ
  pc : ℕ → Pc
  killed : ℕ → Bool

namespace World

variable (w : World)

def goto (q : ℕ) (next : Held) : World := { w with pc := Function.update w.pc q (.holds next) }

/-- Process `q` releases `p->lock`. -/
def leave (q : ℕ) (pc : Pc) : World := { w with lock := none, pc := Function.update w.pc q pc }

def wakeup (chan : Chan) : World :=
  { w with pc := fun q => match w.pc q with
      | .asleep c next => if c = chan then .acquire next else .asleep c next
      | other => other }

def kill (q : ℕ) : World :=
  { w with
    killed := Function.update w.killed q true
    pc := Function.update w.pc q (match w.pc q with
      | .asleep _ next => .acquire next
      | other => other) }

/-- Process `q`, which has the lock, carries out a statement. -/
def statement (q : ℕ) : Held → World
  | .writeTest n [] => w.goto q (.writeDone n)
  | .writeTest n (b :: rest) =>
      if w.pipe.nwrite = w.pipe.nread + BitVec.ofNat 32 PIPESIZE then
        w.goto q (.writeFull n (b :: rest))
      else
        { w.goto q (.writeTest n rest) with
          pipe := { w.pipe with
            data := Function.update w.pipe.data (Fin.ofNat PIPESIZE w.pipe.nwrite.toNat) b
            nwrite := w.pipe.nwrite + 1 } }
  | .writeFull n rest =>
      if w.pipe.readopen = false ∨ w.killed q then w.goto q .release
        else w.goto q (.writeWakeup n rest)
  | .writeWakeup n rest => (w.wakeup .nread).goto q (.writeSleep n rest)
  | .writeSleep n rest => w.leave q (.asleep .nwrite (.writeTest n rest))
  | .writeDone _ => (w.wakeup .nread).goto q .release
  | .readTest n =>
      if w.pipe.nread = w.pipe.nwrite ∧ w.pipe.writeopen then w.goto q (.readEmpty n)
        else w.goto q (.readCopy n 0)
  | .readEmpty n => if w.killed q then w.goto q .release else w.goto q (.readSleep n)
  | .readSleep n => w.leave q (.asleep .nread (.readTest n))
  | .readCopy n i =>
      if i < n then
        if w.pipe.nread = w.pipe.nwrite then w.goto q (.readDone i)
        else { w.goto q (.readCopy n (i + 1)) with pipe :=
          { w.pipe with nread := w.pipe.nread + 1 } }
      else w.goto q (.readDone i)
  | .readDone _ => (w.wakeup .nwrite).goto q .release
  | .closeFlag writable =>
      { w.goto q (.closeWakeup writable) with
        pipe := if writable then { w.pipe with writeopen := false }
        else { w.pipe with readopen := false } }
  | .closeWakeup writable => (w.wakeup (if writable then .nread else .nwrite)).goto q .release
  | .release => w.leave q .out

end World

inductive Event where
  /-- Process `q` calls `pipewrite` of the given bytes. -/
  | pipewrite (q : ℕ) (bytes : List Byte)
  | piperead (q : ℕ) (n : ℤ)
  | pipeclose (q : ℕ) (writable : Bool)
  /-- Process `q` takes the lock, or carries out a statement with it. -/
  | run (q : ℕ)
  | kill (q : ℕ)

/-- Process `q` starts a call. -/
def start (w : World) (q : ℕ) (first : Held) : Option World :=
  match w.pc q with
  | .out => some { w with pc := Function.update w.pc q (.acquire first) }
  | _ => none

def step (w : World) : Event → Option World
  | .pipewrite q bytes => start w q (.writeTest bytes.length bytes)
  | .piperead q n => start w q (.readTest n)
  | .pipeclose q writable => start w q (.closeFlag writable)
  | .run q =>
      match w.pc q with
      | .acquire next =>
          -- With both ends closed the memory of the pipe has been freed.
          if w.lock = none ∧ (w.pipe.readopen ∨ w.pipe.writeopen) then
            some { w.goto q next with lock := some q } else none
      | .holds next => some (w.statement q next)
      | _ => none
  | .kill q => some (w.kill q)

/-- A pipe as `pipealloc` leaves it, in memory with arbitrary contents. -/
def World.init (data : Fin PIPESIZE → Byte) (killed : ℕ → Bool) : World where
  pipe := { data := data, nread := 0, nwrite := 0, readopen := true, writeopen := true }
  lock := none
  pc := fun _ => .out
  killed := killed

end Xv6.Ipc.Locked
