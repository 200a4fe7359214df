import Xv6.Param
import Xv6.Lib.Chain
import Xv6.Lib.Runs

/-!
# The disk driver

This file models part2's `ide.c` for any number of processes, one controller and its two
disks. What is done under `idelock` is one step: `iderw` up to the `sleep` in its loop, each
later turn of that loop, and `ideintr`. The other steps are the drive's, which carries out
the command in its ports in its own time and then interrupts, those of `kill`, which makes a
sleeping process go round its loop once more, and what `bio.c` does to a buffer between two
transfers.
-/

namespace Xv6.Dev

abbrev SECTOR_SIZE : ℕ := 512
abbrev IDE_CMD_READ : Byte := 0x20
abbrev IDE_CMD_WRITE : Byte := 0x30
abbrev IDE_CMD_RDMUL : Byte := 0xc4
abbrev IDE_CMD_WRMUL : Byte := 0xc5

abbrev sectorPerBlock : ℕ := BSIZE / SECTOR_SIZE

inductive Stop where
  /-- `panic("idestart")` and `panic("incorrect blockno")`. -/
  | idestart
  | blockno
  /-- The panics of `iderw`. -/
  | notLocked
  | nothingToDo
  | noDisk1
  /-- The loop that looks for the end of the queue does not find it. -/
  | endless
  /-- `idewait` finds the drive busy, and spins with `idelock` held. -/
  | spins
  deriving DecidableEq

/-- `struct buf`, but for its links; `lock` is the process that holds the sleep-lock. -/
structure Buf where
  /-- `B_VALID` and `B_DIRTY`. -/
  valid : Bool
  dirty : Bool
  dev : Word
  blockno : Word
  lock : Option ℕ
  data : Block

/-- `(b->flags & (B_VALID|B_DIRTY)) == B_VALID` -/
def Buf.Clean (b : Buf) : Prop := b.valid = true ∧ b.dirty = false

instance (b : Buf) : Decidable b.Clean := inferInstanceAs (Decidable (_ ∧ _))

/-- The ports 0x1f2 to 0x1f7 of the controller, and what `outsl` has written to 0x1f0. -/
structure Command where
  count : Byte
  lba0 : Byte
  lba1 : Byte
  lba2 : Byte
  drive : Byte
  command : Byte
  out : Option Block

namespace Command

/-- The disk that the drive port selects. -/
def disk (c : Command) : Bool := c.drive.getLsbD 4

/-- The sector that the ports name, as the controller puts it together. -/
def sector (c : Command) : ℕ :=
  c.lba0.toNat + 2 ^ 8 * c.lba1.toNat + 2 ^ 16 * c.lba2.toNat + 2 ^ 24 * (c.drive.toNat % 16)

end Command

/-- `idestart`, but for `idewait`. -/
def idestart (b : Buf) : Except Stop Command :=
  if FSSIZE ≤ b.blockno.toNat then .error .blockno
  else if 7 < sectorPerBlock then .error .idestart
  else
    let sector := b.blockno.toNat * sectorPerBlock
    let readCmd := if sectorPerBlock = 1 then IDE_CMD_READ else IDE_CMD_RDMUL
    let writeCmd := if sectorPerBlock = 1 then IDE_CMD_WRITE else IDE_CMD_WRMUL
    .ok {
      count := .ofNat 8 sectorPerBlock
      lba0 := .ofNat 8 sector
      lba1 := .ofNat 8 (sector / 2 ^ 8)
      lba2 := .ofNat 8 (sector / 2 ^ 16)
      drive := 0xe0 ||| .ofNat 8 (b.dev.toNat % 2 * 2 ^ 4) ||| .ofNat 8 (sector / 2 ^ 24 % 16)
      command := if b.dirty then writeCmd else readCmd
      out := if b.dirty then some b.data else none }

/-- The controller. -/
inductive Drive where
  | ready
  | busy (c : Command)
  /-- It has carried out a command, or failed to, and asks for an interrupt; `sector` is in
  its data port. -/
  | done (ok : Bool) (sector : Block)

inductive Pc where
  /-- Not in `iderw`. -/
  | out
  /-- SLEEPING on the buffer. -/
  | asleep (b : Fin NBUF)
  /-- Back from `sleep`, about to take `idelock`. -/
  | woken (b : Fin NBUF)
  deriving DecidableEq

structure World where
  buf : Fin NBUF → Buf
  qnext : Fin NBUF → Option (Fin NBUF)
  idequeue : Option (Fin NBUF)
  havedisk1 : Bool
  drive : Drive
  disk : Bool → ℕ → Block
  pc : ℕ → Pc

namespace World

variable (w : World)

def setBuf (b : Fin NBUF) (buf : Buf) : World := { w with buf := Function.update w.buf b buf }

def goto (p : ℕ) (pc : Pc) : World := { w with pc := Function.update w.pc p pc }

def wakeup (b : Fin NBUF) : World :=
  { w with pc := fun p => if w.pc p = .asleep b then .woken b else w.pc p }

/-- `idestart(b)` -/
def start (b : Fin NBUF) : Except Stop World := do
  let c ← idestart (w.buf b)
  match w.drive with
  | .busy _ => .error .spins
  | _ => return { w with drive := .busy c }

/-- The loop of `iderw`, up to the next `sleep` or the return. -/
def wait (p : ℕ) (b : Fin NBUF) : World :=
  if (w.buf b).Clean then w.goto p .out else w.goto p (.asleep b)

def iderw (p : ℕ) (b : Fin NBUF) : Except Stop World :=
  if (w.buf b).lock ≠ some p then .error .notLocked
  else if (w.buf b).Clean then .error .nothingToDo
  else if (w.buf b).dev ≠ 0 ∧ w.havedisk1 = false then .error .noDisk1
  else
    match Chain.append w.qnext NBUF w.idequeue b with
    | none => .error .endless
    | some (head, next) => do
        let w := { w with idequeue := head, qnext := next }
        let w ← if head = some b then w.start b else pure w
        return w.wait p b

/-- `ideintr`, where the drive has `sector` in its data port, and `ok` unless its status
shows an error. -/
def ideintr (ok : Bool) (sector : Block) : Except Stop World :=
  let w := { w with drive := .ready }
  match w.idequeue with
  | none => .ok w
  | some b =>
      let buf := w.buf b
      let data := if buf.dirty = false ∧ ok then sector else buf.data
      let w := { w with idequeue := w.qnext b }
      let w := (w.setBuf b { buf with data := data, valid := true, dirty := false }).wakeup b
      match w.idequeue with
      | none => .ok w
      | some next => w.start next

/-- The drive carries out its command. A read brings the sector to the data port. -/
def finish (c : Command) (ok : Bool) : World :=
  let written := match c.out with
    | some data => if ok ∧ c.command = IDE_CMD_WRITE then
        Function.update w.disk c.disk (Function.update (w.disk c.disk) c.sector data) else w.disk
    | none => w.disk
  { w with disk := written, drive := .done ok (w.disk c.disk c.sector) }

end World

inductive Event where
  /-- `acquiresleep` and `releasesleep` of a buffer's lock. -/
  | acquiresleep (p : ℕ) (b : Fin NBUF)
  | releasesleep (p : ℕ) (b : Fin NBUF)
  /-- `bget` gives a buffer that nobody uses to another block. -/
  | recycle (b : Fin NBUF) (dev blockno : Word)
  /-- The holder of a buffer changes its data. -/
  | store (p : ℕ) (b : Fin NBUF) (data : Block)
  /-- `b->flags |= B_DIRTY`, in `bwrite` and `log_write`. -/
  | setDirty (p : ℕ) (b : Fin NBUF)
  | iderw (p : ℕ) (b : Fin NBUF)
  /-- The process comes back from `sleep`. -/
  | resume (p : ℕ)
  | kill (p : ℕ)
  | finish (ok : Bool)
  | ideintr

/-- An event, where it is possible. -/
def step (w : World) : Event → Option (Except Stop World)
  | .acquiresleep p b =>
      if w.pc p = .out ∧ (w.buf b).lock = none then
        some (.ok (w.setBuf b { w.buf b with lock := some p })) else none
  | .releasesleep p b =>
      if w.pc p = .out ∧ (w.buf b).lock = some p then
        some (.ok (w.setBuf b { w.buf b with lock := none })) else none
  | .recycle b dev blockno =>
      if (w.buf b).lock = none then
        some (.ok (w.setBuf b
          { w.buf b with dev := dev, blockno := blockno, valid := false, dirty := false }))
      else none
  | .store p b data =>
      if w.pc p = .out ∧ (w.buf b).lock = some p then
        some (.ok (w.setBuf b { w.buf b with data := data })) else none
  | .setDirty p b =>
      if w.pc p = .out ∧ (w.buf b).lock = some p then
        some (.ok (w.setBuf b { w.buf b with dirty := true })) else none
  | .iderw p b => if w.pc p = .out then some (w.iderw p b) else none
  | .resume p =>
      match w.pc p with
      | .woken b => some (.ok (w.wait p b))
      | _ => none
  | .kill p =>
      match w.pc p with
      | .asleep b => some (.ok (w.goto p (.woken b)))
      | _ => some (.ok w)
  | .finish ok =>
      match w.drive with
      | .busy c => some (.ok (w.finish c ok))
      | _ => none
  | .ideintr =>
      match w.drive with
      | .done ok sector => some (w.ideintr ok sector)
      | _ => none

/-- After `ideinit`; a static pointer is null. -/
def World.init (buf : Fin NBUF → Buf) (havedisk1 : Bool) (disk : Bool → ℕ → Block) : World where
  buf := fun b => { buf b with valid := false, dirty := false, lock := none }
  qnext := fun _ => none
  idequeue := none
  havedisk1 := havedisk1
  drive := .ready
  disk := disk
  pc := fun _ => .out

end Xv6.Dev
