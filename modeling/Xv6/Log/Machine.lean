import Xv6.Param
import Xv6.Lib.Redo

/-!
# The logging layer

This file models `log.c` (the same file in both kernels) together with the part
of the buffer cache it relies on, as a machine whose steps are the atomic
actions of the code:

* one pass through the loop of `begin_op`, and the first half of `end_op`, under
  `log.lock`;
* the two tests at the top of `log_write`, which run without the lock, and the
  rest of `log_write`, which runs under it;
* each single block that `write_log`, `write_head` and `install_trans` write,
  in a commit or in `recover_from_log`;
* `bread` of a block, recycling of a clean buffer, and a crash.

There are `NBUF` buffers. Every step first gets a buffer for each of the blocks
that it reads; where all buffers hold other blocks it is not enabled, since one
of them has to be recycled before, and `bget` panics when all of them are dirty.

A buffer's sleep-lock is held from `bread` until after `log_write`, so nobody
sees a caller's change of `b->data` before its `log_write`: the change is made
part of that step. The machine does not track the lock itself, which only
removes interleavings.

`hist` and `cur` are ghost state. They record what was passed to `log_write`,
under the identity of the operation that did it, and are read by no step.
-/

namespace Xv6.Log

/-- `log.start` and `log.size`, as `initlog` takes them from the superblock. -/
structure Config where
  start : ℕ
  size : ℕ
  size_pos : 0 < size
  fits : start + size ≤ FSSIZE

/-- The log of every image `mkfs` builds: `sb.logstart` is 2, `sb.nlog` is `LOGSIZE`. -/
def Config.mkfs : Config where
  start := 2
  size := LOGSIZE
  size_pos := by decide
  fits := by decide

/-- A block outside the log area. -/
def Config.Home (c : Config) : Set ℕ :=
  {b | b < c.start ∨ c.start + c.size ≤ b}

instance (c : Config) (b : ℕ) : Decidable (b ∈ c.Home) :=
  inferInstanceAs (Decidable (b < c.start ∨ c.start + c.size ≤ b))

/-- A cached block: its contents and `B_DIRTY`. -/
structure Buf where
  data : Block
  dirty : Bool

/-- The position of a process relative to the log. -/
inductive Pc where
  /-- Not inside an operation. -/
  | out
  /-- `SLEEPING` on `&log` in `begin_op`. -/
  | sleeping
  /-- Woken up and about to repeat the tests of `begin_op`. -/
  | woken
  /-- Between `begin_op` and `end_op`; `op` identifies the operation. -/
  | inOp (op : ℕ)
  /-- In `log_write` on block `b`, past the tests that run without the lock. -/
  | logging (op b : ℕ)
  /-- In `end_op` with `do_commit` set, about to call `commit`. -/
  | commit
  | writeLog (tail : ℕ)
  | writeHead
  | installTrans (tail : ℕ)
  | clearHead
  /-- Back in `end_op` after `commit`. -/
  | finish
  deriving DecidableEq

/-- The progress of `recover_from_log`; `up` once it has returned. -/
inductive Boot where
  | readHead
  | installTrans (tail : ℕ)
  | clearHead
  | up
  deriving DecidableEq

/-- One call of `log_write`: the operation, the block and its contents. -/
structure Upd where
  op : ℕ
  block : ℕ
  data : Block

/-- The disk, the kernel memory the log uses, and the ghost history. -/
structure World where
  disk : Disk
  /-- `log.lh`; `log.lh.n` is its length. -/
  lh : List ℕ
  outstanding : ℕ
  committing : Bool
  bufs : ℕ → Option Buf
  /-- The number of buffers that hold no block. -/
  free : ℕ
  pc : ℕ → Pc
  boot : Boot
  /-- Transactions whose committing `write_head` reached the disk. -/
  hist : List (List Upd)
  /-- Calls of `log_write` since then. -/
  cur : List Upd
  nextOp : ℕ

/-- The in-memory header stored over the header block's old contents. -/
def putHead (b : Block) (lh : List ℕ) : Block :=
  Bytes.putWords (Bytes.putWord b 0 (BitVec.ofNat 32 lh.length)) 4 (lh.map (BitVec.ofNat 32))

/-- The header as `read_head` takes it from the header block; `lh->n` is an `int`. -/
def getHead (b : Block) : List ℕ :=
  (Bytes.getWords b 4 (Bytes.getWord b 0).toInt.toNat).map BitVec.toNat

namespace World

/-- The contents `bread` returns. -/
def bread (w : World) (b : ℕ) : Block :=
  match w.bufs b with
  | some buf => buf.data
  | none => w.disk b

/-- The buffer of block `b`, which is read from the disk if it is not cached. -/
def bget (w : World) (b : ℕ) : Option World :=
  if (w.bufs b).isSome then some w
  else if w.free = 0 then
    none -- panic("bget: no buffers"), unless a buffer is recycled first
  else
    some { w with
      bufs := Function.update w.bufs b (some ⟨w.disk b, false⟩)
      free := w.free - 1 }

/-- The buffers of several blocks at once. -/
def fetch (w : World) : List ℕ → Option World
  | [] => some w
  | b :: bs => (w.bget b).bind fun w => w.fetch bs

/-- Change the buffer of `b` to `data`, `bwrite`: afterwards the buffer is clean. -/
def bwrite (w : World) (b : ℕ) (data : Block) : World :=
  { w with
    disk := Function.update w.disk b data
    bufs := Function.update w.bufs b (some ⟨data, false⟩) }

/-- Move process `p` to `pc`. -/
def goto (w : World) (p : ℕ) (pc : Pc) : World :=
  { w with pc := Function.update w.pc p pc }

/-- `wakeup(&log)`. -/
def wakeup (w : World) : World :=
  { w with pc := fun p => if w.pc p = .sleeping then .woken else w.pc p }

/-- One pass through the loop of `begin_op`. -/
def beginOp (w : World) (p : ℕ) : Option World :=
  if w.pc p = .out ∨ w.pc p = .woken then
    if w.committing then
      some (w.goto p .sleeping)
    else if w.lh.length + (w.outstanding + 1) * MAXOPBLOCKS > LOGSIZE then
      -- This operation might exhaust the log space.
      some (w.goto p .sleeping)
    else
      some { w.goto p (.inOp w.nextOp) with
        outstanding := w.outstanding + 1
        nextOp := w.nextOp + 1 }
  else none

/-- The tests of `log_write`, which read the header without `log.lock`. -/
def logWriteTest (c : Config) (w : World) (p b : ℕ) : Option World :=
  match w.pc p with
  | .inOp op =>
      if w.lh.length ≥ LOGSIZE ∨ w.lh.length ≥ c.size - 1 then
        none -- panic("too big a transaction")
      else if w.outstanding < 1 then
        none -- panic("log_write outside of trans")
      else if b ∈ c.Home ∧ b < FSSIZE then
        some (w.goto p (.logging op b))
      else none
  | _ => none

/-- The part of `log_write` under `log.lock`; `data` is what the caller left in the buffer. -/
def logWrite (w : World) (p : ℕ) (data : Block) : Option World :=
  match w.pc p with
  | .logging op b =>
      some { w.goto p (.inOp op) with
        -- Log absorption: a block that is already listed is not listed again.
        lh := if b ∈ w.lh then w.lh else w.lh ++ [b]
        bufs := Function.update w.bufs b (some ⟨data, true⟩)
        cur := w.cur ++ [⟨op, b, data⟩] }
  | _ => none

/-- The part of `end_op` before `commit`. -/
def endOp (w : World) (p : ℕ) : Option World :=
  match w.pc p with
  | .inOp _ =>
      if w.committing then
        none -- panic("log.committing")
      else if w.outstanding - 1 = 0 then
        some { w.goto p .commit with outstanding := w.outstanding - 1, committing := true }
      else
        some { (w.goto p .out).wakeup with outstanding := w.outstanding - 1 }
  | _ => none

/-- Write the in-memory header to the header block. -/
def writeHead (c : Config) (w : World) : World :=
  w.bwrite c.start (putHead (w.bread c.start) w.lh)

/-- One iteration of `install_trans`: copy log block `tail` to its home block. -/
def installTrans (c : Config) (w : World) (tail b : ℕ) : World :=
  w.bwrite b (w.bread (c.start + tail + 1))

/-- The blocks that the next step of a commit reads. -/
def commitReads (c : Config) (w : World) : Pc → List ℕ
  | .writeLog tail | .installTrans tail =>
      match w.lh[tail]? with
      | some b => [c.start + tail + 1, b]
      | none => []
  | .writeHead | .clearHead => [c.start]
  | _ => []

/-- The next step of process `p` inside `commit`, or in `end_op` after it. -/
def commit (c : Config) (w : World) (p : ℕ) : Option World :=
  match w.pc p with
  | .commit =>
      if w.lh.length > 0 then some (w.goto p (.writeLog 0)) else some (w.goto p .finish)
  | .writeLog tail =>
      match w.lh[tail]? with
      | some b => some ((w.bwrite (c.start + tail + 1) (w.bread b)).goto p (.writeLog (tail + 1)))
      | none => some (w.goto p .writeHead)
  | .writeHead =>
      some { (w.writeHead c).goto p (.installTrans 0) with
        hist := w.hist ++ [w.cur]
        cur := [] }
  | .installTrans tail =>
      match w.lh[tail]? with
      | some b => some ((w.installTrans c tail b).goto p (.installTrans (tail + 1)))
      | none => some { w.goto p .clearHead with lh := [] }
  | .clearHead => some ((w.writeHead c).goto p .finish)
  | .finish => some { (w.goto p .out).wakeup with committing := false }
  | _ => none

/-- The blocks that the next step of `recover_from_log` reads. -/
def recoverReads (c : Config) (w : World) : Boot → List ℕ
  | .readHead | .clearHead => [c.start]
  | .installTrans tail =>
      match w.lh[tail]? with
      | some b => [c.start + tail + 1, b]
      | none => []
  | .up => []

/-- The next step of `recover_from_log`. -/
def recoverFromLog (c : Config) (w : World) : Option World :=
  match w.boot with
  | .readHead => some { w with lh := getHead (w.bread c.start), boot := .installTrans 0 }
  | .installTrans tail =>
      match w.lh[tail]? with
      | some b => some { w.installTrans c tail b with boot := .installTrans (tail + 1) }
      | none => some { w with lh := [], boot := .clearHead }
  | .clearHead => some { w.writeHead c with boot := .up }
  | .up => none

/-- Power failure: everything but the disk is lost, and the next boot starts recovery. -/
def crash (w : World) : World :=
  { w with
    lh := []
    outstanding := 0
    committing := false
    bufs := fun _ => none
    free := NBUF
    pc := fun _ => .out
    boot := .readHead
    cur := [] }

end World

/-- The actions of the machine. -/
inductive Act where
  | beginOp (p : ℕ)
  /-- `kill` makes a sleeping process repeat its tests. -/
  | kill (p : ℕ)
  | bread (b : ℕ)
  /-- `bget` recycles the buffer of a block. -/
  | recycle (b : ℕ)
  | logWriteTest (p b : ℕ)
  | logWrite (p : ℕ) (data : Block)
  /-- A `bwrite` issued by file-system code inside an operation. -/
  | bwrite (p b : ℕ) (data : Block)
  | endOp (p : ℕ)
  | commit (p : ℕ)
  | recover
  | crash

/-- The blocks whose buffers an action needs. A caller of `log_write` or `bwrite` holds the buffer.
-/
def Act.reads (c : Config) (w : World) : Act → List ℕ
  | .bread b => [b]
  | .logWrite p _ =>
      match w.pc p with
      | .logging _ b => [b]
      | _ => []
  | .bwrite _ b _ => [b]
  | .commit p => w.commitReads c (w.pc p)
  | .recover => w.recoverReads c w.boot
  | _ => []

/-- What an action does once it has its buffers. -/
def perform (c : Config) (w : World) : Act → Option World
  | .crash => some w.crash
  | .recover => w.recoverFromLog c
  | .beginOp p => if w.boot = .up then w.beginOp p else none
  | .kill p => if w.boot = .up ∧ w.pc p = .sleeping then some (w.goto p .woken) else none
  | .bread b => if w.boot = .up ∧ b < FSSIZE then some w else none
  | .recycle b =>
      match w.bufs b with
      -- A dirty buffer is in use: it has been logged but not yet committed.
      | some buf =>
          if buf.dirty then none
          else some { w with bufs := Function.update w.bufs b none, free := w.free + 1 }
      | none => none
  | .logWriteTest p b => if w.boot = .up then w.logWriteTest c p b else none
  | .logWrite p data => if w.boot = .up then w.logWrite p data else none
  | .bwrite p b data =>
      match w.pc p with
      | .inOp _ => if w.boot = .up ∧ b < FSSIZE then some (w.bwrite b data) else none
      | _ => none
  | .endOp p => if w.boot = .up then w.endOp p else none
  | .commit p => if w.boot = .up then w.commit c p else none

/-- One action; `none` when it is not enabled or the kernel panics. -/
def step (c : Config) (w : World) (act : Act) : Option World :=
  (w.fetch (act.reads c w)).bind fun w => perform c w act

/-- The machine as it is switched on with the given disk. -/
def World.init (disk : Disk) : World where
  disk := disk
  lh := []
  outstanding := 0
  committing := false
  bufs := fun _ => none
  free := NBUF
  pc := fun _ => .out
  boot := .readHead
  hist := []
  cur := []
  nextOp := 0

/-- The contents produced by a sequence of transactions. -/
def contents (base : Disk) (hist : List (List Upd)) : Disk :=
  Redo.play base (hist.flatten.map fun u => (u.block, u.data))

end Xv6.Log
