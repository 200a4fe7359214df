import Xv6.Param
import Xv6.Lib.DList

/-!
# The buffer cache

This file models part2's `bio.c`, with the buffer side of `log_write` and `iderw`, for any
number of processes. A step is what a process does under `bcache.lock`, or while it holds
a buffer's sleep-lock. The contents of buffers play no part.

`clock` and `released` are ghost state: the number of buffers released so far, and when
each of them was released last (0 for a buffer that never was).
-/

namespace Xv6.Bio

open DList (Links)

/-- The nodes of the list: `bcache.head` and `bcache.buf[i]`. -/
inductive Node where
  | head
  | buf (i : Fin NBUF)
  deriving DecidableEq

/-- `struct buf`, but for its links. -/
structure Buf (P : Type) where
  /-- `B_VALID` and `B_DIRTY`. -/
  valid : Bool
  dirty : Bool
  dev : Word
  blockno : Word
  /-- The holder of the sleep-lock. -/
  lock : Option P
  /-- It counts processes, and so cannot overflow. -/
  refcnt : ℕ

/-- What a process is in the middle of. -/
inductive Doing where
  | other
  /-- In `bget`, with its reference but not yet the sleep-lock. -/
  | locking (b : Fin NBUF)
  /-- In `iderw`. -/
  | waiting (b : Fin NBUF)
  /-- In `brelse`, between `releasesleep` and `bcache.lock`. -/
  | releasing (b : Fin NBUF)
  deriving DecidableEq

structure World (P : Type) where
  buf : Fin NBUF → Buf P
  links : Links Node
  doing : P → Doing
  clock : ℕ
  released : Fin NBUF → ℕ

/-- `binit` links the buffers, each at the front of the list so far. -/
def binit (links : Links Node) : Links Node :=
  (List.finRange NBUF).foldl (fun links i => links.pushFront .head (.buf i))
    ((links.setPrev .head .head).setNext .head .head)

variable {P : Type}

namespace World

/-- After `binit`; a static array is zero. -/
def init (links : Links Node) : World P where
  buf := fun _ =>
    { valid := false, dirty := false, dev := 0, blockno := 0, lock := none, refcnt := 0 }
  links := binit links
  doing := fun _ => .other
  clock := 0
  released := fun _ => 0

variable (w : World P)

def set (b : Fin NBUF) (buf : Buf P) : World P := { w with buf := Function.update w.buf b buf }

@[simp]
theorem set_self (b : Fin NBUF) (buf : Buf P) : (w.set b buf).buf b = buf :=
  Function.update_self _ _ _

theorem set_of_ne {b c : Fin NBUF} (other : c ≠ b) (buf : Buf P) :
    (w.set b buf).buf c = w.buf c :=
  Function.update_of_ne other _ _

variable [DecidableEq P]

def becomes (p : P) (doing : Doing) : World P :=
  { w with doing := Function.update w.doing p doing }

/-- `b->dev == dev && b->blockno == blockno` -/
def isFor (dev blockno : Word) : Node → Bool
  | .head => false
  | .buf i => (w.buf i).dev = dev ∧ (w.buf i).blockno = blockno

/-- `b->refcnt == 0 && (b->flags & B_DIRTY) == 0` -/
def isUnused : Node → Bool
  | .head => false
  | .buf i => (w.buf i).refcnt = 0 ∧ (w.buf i).dirty = false

/-- The two loops of `bget`; neither goes on for longer than the list is. -/
def cached (dev blockno : Word) : Option (Option Node) :=
  Links.search w.links.next .head (w.isFor dev blockno) (NBUF + 1) (w.links.next .head)

def unused : Option (Option Node) :=
  Links.search w.links.prev .head w.isUnused (NBUF + 1) (w.links.prev .head)

/-- `bget`, up to `acquiresleep`. -/
def bget (p : P) (dev blockno : Word) : Option (World P) :=
  match w.cached dev blockno with
  | some (some (.buf i)) =>
      some ((w.set i { w.buf i with refcnt := (w.buf i).refcnt + 1 }).becomes p (.locking i))
  | some none =>
      match w.unused with
      | some (some (.buf i)) =>
          some ((w.set i { w.buf i with
            dev := dev, blockno := blockno, valid := false, dirty := false, refcnt := 1 }).becomes
              p (.locking i))
      | _ => none -- panic("bget: no buffers")
  | _ => none

/-- `brelse`, after `releasesleep`. -/
def relink (p : P) (i : Fin NBUF) : World P :=
  let w₁ := (w.set i { w.buf i with refcnt := (w.buf i).refcnt - 1 }).becomes p .other
  let w₂ := { w₁ with clock := w.clock + 1, released := Function.update w.released i (w.clock + 1) }
  if (w.buf i).refcnt - 1 = 0 then
    { w₂ with links := (w.links.unlink (.buf i)).pushFront .head (.buf i) }
  else w₂

end World

inductive Action (P : Type) where
  /-- `bread` of a block of `ROOTDEV`: the look-up, and the sleep-lock. -/
  | bget (p : P) (blockno : Word)
  | acquiresleep (p : P)
  /-- The disk is done with the buffer that `p` waits for, and `iderw` returns. -/
  | ideintr (p : P)
  | iderw (p : P)
  | bwrite (p : P) (i : Fin NBUF)
  | logWrite (i : Fin NBUF)
  /-- `brelse`: the sleep-lock, and the reference. -/
  | brelse (p : P) (i : Fin NBUF)
  | relink (p : P)

def step [DecidableEq P] (w : World P) : Action P → Option (World P)
  | .bget p blockno =>
      if w.doing p = .other then w.bget p (BitVec.ofNat 32 ROOTDEV) blockno else none
  | .acquiresleep p =>
      match w.doing p with
      | .locking i =>
          if (w.buf i).lock = none then
            some ((w.set i { w.buf i with lock := some p }).becomes p
              (if (w.buf i).valid then .other else .waiting i))
          else none
      | _ => none
  | .ideintr p =>
      match w.doing p with
      | .waiting i => some (w.set i { w.buf i with valid := true, dirty := false })
      | _ => none
  | .iderw p =>
      match w.doing p with
      | .waiting i =>
          if (w.buf i).valid ∧ (w.buf i).dirty = false then some (w.becomes p .other) else none
      | _ => none
  | .bwrite p i =>
      if w.doing p = .other ∧ (w.buf i).lock = some p then -- or panic("bwrite")
        some ((w.set i { w.buf i with dirty := true }).becomes p (.waiting i))
      else none
  | .logWrite i => some (w.set i { w.buf i with dirty := true })
  | .brelse p i =>
      if w.doing p = .other ∧ (w.buf i).lock = some p then -- or panic("brelse")
        some ((w.set i { w.buf i with lock := none }).becomes p (.releasing i))
      else none
  | .relink p =>
      match w.doing p with
      | .releasing i => some (w.relink p i)
      | _ => none

end Xv6.Bio
