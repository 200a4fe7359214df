import Xv6.Fs.Inode
import Xv6.Ipc.Pipe
import Xv6.Vm.Memory

/-!
# System calls that take a buffer

`sys_read`, `sys_write`, `sys_fstat`, `sys_pipe` and `sys_getpinfo` of part2, from their
arguments on the user stack down to the loops that access user memory. A call is modelled
by the addresses that it accesses through its pointer argument, in order. What is accessed
also depends on the rest of the kernel, which is given as what the call finds there: the
pipe whenever `sleep` returns, the inode whenever it is locked, and so on. A call that
panics or sleeps forever accesses nothing more.
-/

namespace Xv6.Syscall

open Ipc (Pipe)
open Fs (Inode T_DEV T_CHECKED chunk)

/-- A type of an open file. -/
inductive FileType where
  | none
  | pipe
  | inode
  deriving DecidableEq

structure File where
  type : FileType
  readable : Bool
  writable : Bool

/-- The calling process. -/
structure Proc where
  sz : Word
  /-- The saved user `%esp`. -/
  esp : Word
  mem : Word → Byte
  ofile : Fin NOFILE → Option File

/-- The `m` addresses from `a` on. -/
def span (a : Word) (m : ℕ) : List Word := (List.range m).map fun i => a + BitVec.ofNat 32 i

/-! ## Arguments -/

namespace Proc

variable (s : Proc)

/-- `*(int*)(addr)` -/
def loadInt (addr : Word) :
    Word := s.mem (addr + 3) ++ s.mem (addr + 2) ++ s.mem (addr + 1) ++ s.mem addr

def fetchint (addr : Word) : Option Word :=
  if addr ≥ s.sz ∨ addr + 4 > s.sz then none else some (s.loadInt addr)

def argint (n : ℕ) : Option Word := s.fetchint (s.esp + 4 + BitVec.ofNat 32 (4 * n))

def argptr (n : ℕ) (size : Word) : Option Word := do
  let i ← s.argint n
  if size.toInt < 0 ∨ i ≥ s.sz ∨ i + size > s.sz then none else some i

def argfd (n : ℕ) : Option File := do
  let fd ← s.argint n
  if fd.toInt < 0 ∨ NOFILE ≤ fd.toInt then none else s.ofile (Fin.ofNat NOFILE fd.toNat)

def fdalloc (f : File) : Option (Fin NOFILE × Proc) :=
  ((List.finRange NOFILE).find? fun fd => (s.ofile fd).isNone).map fun fd =>
    (fd, { s with ofile := Function.update s.ofile fd (some f) })

end Proc

/-! ## What the call finds in the kernel -/

/-- What `readi` or `writei` finds. -/
structure Visit where
  ip : Inode
  off : Word
  /-- With so many bytes moved, the next block can be had: `bmap` and `bread` return. -/
  block : ℕ → Bool
  /-- The characters of the console, each once it has come; `none` when the process is killed. -/
  input : List (Option Byte)

structure Kernel where
  /-- The pipe and `killed`: at first, and whenever `sleep` returns. -/
  pipe : Pipe × Bool
  sleeps : List (Pipe × Bool)
  /-- In order, as the loop of `filewrite` makes several. -/
  visit : ℕ → Visit
  pipealloc : Option (File × File)

/-! ## Pipes -/

/-- `pipewrite` of the bytes `rest`, of which the first is at `addr`. -/
def pipewrite (addr : Word) (n : ℤ) (rest : List Byte) (found : Pipe × Bool) :
    List (Pipe × Bool) → List Word
  | [] => span addr (Ipc.pipewrite found.2 n found.1 rest).bytes.length
  | next :: sleeps =>
      let stretch := Ipc.pipewrite found.2 n found.1 rest
      span addr stretch.bytes.length ++
        match stretch.call with
        | .writing _ rest _ =>
            pipewrite (addr + BitVec.ofNat 32 stretch.bytes.length) n rest next sleeps
        | _ => []

def piperead (addr : Word) (n : ℤ) (found : Pipe × Bool) : List (Pipe × Bool) → List Word
  | [] => span addr (Ipc.piperead found.2 n found.1).bytes.length
  | next :: sleeps =>
      let stretch := Ipc.piperead found.2 n found.1
      span addr stretch.bytes.length ++
        match stretch.call with
        | .reading _ _ => piperead addr n next sleeps
        | _ => []

/-! ## Inodes -/

abbrev CONSOLE : ℤ := 1

/-- The console is the one device with entries in `devsw`. -/
def hasDriver (ip : Inode) : Bool :=
  ¬(ip.major.toInt < 0 ∨ NDEV ≤ ip.major.toInt) ∧ ip.major.toInt = CONSOLE

/-- The loop of `consoleread` for `n` more characters. -/
def consoleread (dst : Word) : ℕ → List (Option Byte) → List Word
  | 0, _ => []
  | _, [] => []
  | _, none :: _ => []
  | n + 1, some c :: input =>
      if c = 4 then [] -- ^D
      else dst :: if c = 10 then [] else consoleread (dst + 1) n input

/-- The loop of `readi`; `n` turns are enough. -/
def readiLoop (v : Visit) (n : ℕ) : ℕ → ℕ → ℕ → Word → List Word
  | 0, _, _, _ => []
  | turns + 1, tot, off, dst =>
      if tot < n ∧ v.block tot then
        let m := chunk n tot off
        -- The checksum branch returns before the copy.
        if v.ip.type = T_CHECKED then []
        else span dst m ++ readiLoop v n turns (tot + m) (off + m) (dst + BitVec.ofNat 32 m)
      else []

def readi (v : Visit) (dst n : Word) : List Word :=
  if v.ip.type = T_DEV then
    if hasDriver v.ip then consoleread dst n.toNat v.input else []
  else if v.off > v.ip.size ∨ v.off + n < v.off then []
  else
    let n := if v.off + n > v.ip.size then v.ip.size - v.off else n
    readiLoop v n.toNat n.toNat 0 v.off.toNat dst

/-- The loop of `writei`, and whether it gets to its end. -/
def writeiLoop (v : Visit) (n : ℕ) : ℕ → ℕ → ℕ → Word → Bool × List Word
  | 0, _, _, _ => (true, [])
  | turns + 1, tot, off, src =>
      if tot < n then
        if v.block tot then
          let m := chunk n tot off
          let rest := writeiLoop v n turns (tot + m) (off + m) (src + BitVec.ofNat 32 m)
          (rest.1, span src m ++ rest.2)
        else (false, [])
      else (true, [])

/-- `writei`: whether it returns `n`, and the addresses. -/
def writei (v : Visit) (src n : Word) : Bool × List Word :=
  if v.ip.type = T_DEV then
    if hasDriver v.ip then (true, span src n.toNat) else (false, [])
  else if v.off > v.ip.size ∨ v.off + n < v.off then (false, [])
  else if v.off + n > BitVec.ofNat 32 (MAXFILE * BSIZE) then (false, [])
  else writeiLoop v n.toNat n.toNat 0 v.off.toNat src

/-- `max` in `filewrite`. -/
abbrev MAXWRITE : ℕ := ((MAXOPBLOCKS - 1 - 1 - 2) / 2) * 512

/-- The loop of `filewrite` over the pieces from byte `i` on. -/
def writePieces (k : Kernel) (addr : Word) (n : ℕ) : ℕ → ℕ → ℕ → List Word
  | 0, _, _ => []
  | turns + 1, visit, i =>
      if i < n then
        let n₁ := min (n - i) MAXWRITE
        let r := writei (k.visit visit) (addr + BitVec.ofNat 32 i) (BitVec.ofNat 32 n₁)
        r.2 ++ if r.1 then writePieces k addr n turns (visit + 1) (i + n₁) else []
      else []

/-! ## The calls -/

def fileread (k : Kernel) (f : File) (addr n : Word) : List Word :=
  if f.readable = false then []
  else match f.type with
    | .pipe => piperead addr n.toInt k.pipe k.sleeps
    | .inode => readi (k.visit 0) addr n
    | .none => [] -- panic("fileread")

def filewrite (s : Proc) (k : Kernel) (f : File) (addr n : Word) : List Word :=
  if f.writable = false then []
  else match f.type with
    | .pipe => pipewrite addr n.toInt ((span addr n.toNat).map s.mem) k.pipe k.sleeps
    | .inode => writePieces k addr n.toNat n.toNat 0 0
    | .none => [] -- panic("filewrite")

/-- `sizeof(struct stat)`: `type`, `dev`, `ino`, `nlink`, `size` and `checksum`. -/
abbrev STATSIZE : ℕ := 24

def stati (ip : Inode) (st : Word) : List Word :=
  span (st + 4) 4 ++ span (st + 8) 4 ++ span st 2 ++ span (st + 12) 2 ++ span (st + 16) 4 ++
    if ip.type = T_CHECKED then span (st + 20) 1 else []

def filestat (k : Kernel) (f : File) (st : Word) : List Word :=
  match f.type with
  | .inode => stati (k.visit 0).ip st
  | _ => []

/-- `sizeof(struct pstat)`: `inuse`, `pid`, `hticks` and `lticks`. -/
abbrev PSTATSIZE : ℕ := 16

/-- The four fields of `ps[count]`, for every slot of the table. -/
def getpinfo (ps : Word) : List Word :=
  (List.range NPROC).flatMap fun count =>
    let entry := ps + BitVec.ofNat 32 (PSTATSIZE * count)
    span entry 4 ++ span (entry + 4) 4 ++ span (entry + 8) 4 ++ span (entry + 12) 4

inductive Call where
  | read
  | write
  | fstat
  | pipe
  | getpinfo
  deriving DecidableEq

/-- `sizeof(ps)` in `sys_getpinfo`, where `ps` is a pointer. -/
abbrev POINTERSIZE : Word := 4

/-- The user addresses that a call accesses through its pointer argument; an argument that
cannot be fetched makes it return -1. -/
def touched (s : Proc) (k : Kernel) : Call → List Word
  | .read =>
      ((do
        let f ← s.argfd 0
        let n ← s.argint 2
        let p ← s.argptr 1 n
        return fileread k f p n) : Option (List Word)).getD []
  | .write =>
      ((do
        let f ← s.argfd 0
        let n ← s.argint 2
        let p ← s.argptr 1 n
        return filewrite s k f p n) : Option (List Word)).getD []
  | .fstat =>
      ((do
        let f ← s.argfd 0
        let st ← s.argptr 1 (BitVec.ofNat 32 STATSIZE)
        return filestat k f st) : Option (List Word)).getD []
  | .pipe =>
      ((do
        let fd ← s.argptr 0 (2 * 4)
        let (rf, wf) ← k.pipealloc
        let (_, s) ← s.fdalloc rf
        let _ ← s.fdalloc wf
        return span fd 4 ++ span (fd + 4) 4) : Option (List Word)).getD []
  | .getpinfo =>
      ((do
        let ps ← s.argptr 0 POINTERSIZE
        return getpinfo ps) : Option (List Word)).getD []

end Xv6.Syscall
