import Xv6.Param

/-!
# Pipes

`pipe.c` of part2, as a machine of which every stretch of a call under `p->lock` is one
step: from the entry of `pipewrite` or `piperead`, or the return of `sleep` in it, to the
next `sleep` or the return of the call.

`stored` and `delivered` are ghost state: what writers have put into the pipe and what
readers have taken out of it, in the order of the lock. No step reads them.
-/

namespace Xv6.Ipc

abbrev PIPESIZE : ℕ := 512

structure Pipe where
  data : Fin PIPESIZE → Byte
  /-- The number of bytes read, and written. -/
  nread : Word
  nwrite : Word
  readopen : Bool
  writeopen : Bool

/-- What a process is doing. -/
inductive Call where
  /-- Not in a call. -/
  | out
  /-- In `pipewrite` of `n` bytes, sleeping on `&p->nwrite` unless woken up; `rest` is not stored.
  -/
  | writing (n : ℤ) (rest : List Byte) (woken : Bool)
  /-- In `piperead` of `n` bytes, sleeping on `&p->nread` unless woken up. -/
  | reading (n : ℤ) (woken : Bool)

/-- What one stretch of a call does: the bytes it moves, its `wakeup`, and how it ends. -/
structure Stretch where
  pipe : Pipe
  bytes : List Byte
  wakes : Bool
  call : Call
  result : Option ℤ

/-- The loop of `pipewrite` from the first of the bytes `rest` on. -/
def pipewrite (killed : Bool) (n : ℤ) (p : Pipe) : List Byte → Stretch
  | [] => ⟨p, [], true, .out, some n⟩
  | b :: rest =>
      if p.nwrite = p.nread + BitVec.ofNat 32 PIPESIZE then
        if p.readopen = false ∨ killed then ⟨p, [], false, .out, some (-1)⟩
        else ⟨p, [], true, .writing n (b :: rest) false, none⟩
      else
        let after := pipewrite killed n
          { p with
            data := Function.update p.data (Fin.ofNat PIPESIZE p.nwrite.toNat) b
            nwrite := p.nwrite + 1 } rest
        { after with bytes := b :: after.bytes }

/-- The copying loop of `piperead`, for at most `n` bytes. -/
def copy (p : Pipe) : ℕ → List Byte × Pipe
  | 0 => ([], p)
  | n + 1 =>
      if p.nread = p.nwrite then ([], p)
      else
        let after := copy { p with nread := p.nread + 1 } n
        (p.data (Fin.ofNat PIPESIZE p.nread.toNat) :: after.1, after.2)

def piperead (killed : Bool) (n : ℤ) (p : Pipe) : Stretch :=
  if p.nread = p.nwrite ∧ p.writeopen then
    if killed then ⟨p, [], false, .out, some (-1)⟩
    else ⟨p, [], false, .reading n false, none⟩
  else
    let copied := copy p n.toNat
    ⟨copied.2, copied.1, true, .out, some copied.1.length⟩

structure World where
  pipe : Pipe
  call : ℕ → Call
  killed : ℕ → Bool
  stored : List Byte
  delivered : List Byte

inductive Event where
  /-- Process `p` calls `pipewrite` with the given bytes; there are `n` of them, or none. -/
  | pipewrite (p : ℕ) (bytes : List Byte) (n : ℤ)
  | piperead (p : ℕ) (n : ℤ)
  /-- Process `p` returns from `sleep`. -/
  | resume (p : ℕ)
  | kill (p : ℕ)
  | pipeclose (writable : Bool)

namespace World

variable (w : World)

/-- `wakeup(&p->nread)`. -/
def wakeReaders : World :=
  { w with call := fun q => match w.call q with
      | .reading n _ => .reading n true
      | other => other }

/-- `wakeup(&p->nwrite)`. -/
def wakeWriters : World :=
  { w with call := fun q => match w.call q with
      | .writing n rest _ => .writing n rest true
      | other => other }

/-- A stretch of `pipewrite` in process `p`, and the result if it returns. -/
def writes (p : ℕ) (n : ℤ) (rest : List Byte) : World × Option ℤ :=
  let stretch := Ipc.pipewrite (w.killed p) n w.pipe rest
  let woken := if stretch.wakes then w.wakeReaders else w
  ({ woken with
      pipe := stretch.pipe
      call := Function.update woken.call p stretch.call
      stored := w.stored ++ stretch.bytes }, stretch.result)

/-- A stretch of `piperead` in process `p`, and the result if it returns. -/
def reads (p : ℕ) (n : ℤ) : World × Option ℤ :=
  let stretch := Ipc.piperead (w.killed p) n w.pipe
  let woken := if stretch.wakes then w.wakeWriters else w
  ({ woken with
      pipe := stretch.pipe
      call := Function.update woken.call p stretch.call
      delivered := w.delivered ++ stretch.bytes }, stretch.result)

/-- `kill` wakes its process up, wherever it sleeps. -/
def kill (p : ℕ) : World :=
  { w with
    killed := Function.update w.killed p true
    call := Function.update w.call p (match w.call p with
      | .out => .out
      | .writing n rest _ => .writing n rest true
      | .reading n _ => .reading n true) }

def pipeclose (writable : Bool) : World :=
  if writable then { w.wakeReaders with pipe := { w.pipe with writeopen := false } }
  else { w.wakeWriters with pipe := { w.pipe with readopen := false } }

end World

/-- The state after an event, and the result of the call that it ends, if any. -/
def step (w : World) (e : Event) : Option (World × Option ℤ) :=
  -- With both ends closed the memory of the pipe has been freed.
  if w.pipe.readopen = false ∧ w.pipe.writeopen = false then none
  else match e with
    | .pipewrite p bytes n =>
        match w.call p with
        | .out => if bytes.length = n.toNat then some (w.writes p n bytes) else none
        | _ => none
    | .piperead p n =>
        match w.call p with
        | .out => some (w.reads p n)
        | _ => none
    | .resume p =>
        match w.call p with
        | .writing n rest true => some (w.writes p n rest)
        | .reading n true => some (w.reads p n)
        | _ => none
    | .kill p => some (w.kill p, none)
    | .pipeclose writable => some (w.pipeclose writable, none)

/-- A pipe as `pipealloc` leaves it, in memory with arbitrary contents. -/
def World.init (data : Fin PIPESIZE → Byte) (killed : ℕ → Bool) : World where
  pipe := { data := data, nread := 0, nwrite := 0, readopen := true, writeopen := true }
  call := fun _ => .out
  killed := killed
  stored := []
  delivered := []

end Xv6.Ipc
