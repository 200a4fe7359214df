import Xv6.Lib.Ring
import Xv6.Param

/-!
# The console

`consoleintr` and `consoleread` of part2's `console.c`, as a machine whose steps are the stretches
under `cons.lock`: a call of `consoleintr` with the characters that `getc` has for it, and a call of
`consoleread` up to its next `sleep` or its return, or from the return of `sleep` on.

`heard`, `stored` and `zeros` are ghost state: the characters that have been delivered, each with
the number that were pending when it arrived, the bytes that have been put into the buffers of
readers, and how many reads of positive length have returned 0. No step reads them.
-/

namespace Xv6.Ipc

abbrev INPUT_BUF : ℕ := 128

instance : NeZero INPUT_BUF := ⟨by decide⟩

structure Input where
  buf : Fin INPUT_BUF → Byte
  /-- The read, write and edit indices. -/
  r : Word
  w : Word
  e : Word

/-- `C(x)` for `D`, `H`, `P` and `U`. -/
def ctrlD : Byte := 4
def ctrlH : Byte := 8
def ctrlP : Byte := 16
def ctrlU : Byte := 21
def delete : Byte := 0x7f
def newline : Byte := 10
def carriageReturn : Byte := 13

namespace Input

/-- `input.buf[i % INPUT_BUF]` -/
def char (s : Input) (i : Word) : Byte := s.buf (Fin.ofNat INPUT_BUF i.toNat)

/-- The loop of kill-line; as many turns as there are characters to edit are enough. -/
def killLine : ℕ → Input → Input
  | 0, s => s
  | turns + 1, s =>
      if s.e ≠ s.w ∧ s.char (s.e - 1) ≠ newline then killLine turns { s with e := s.e - 1 } else s

/-- `c == '\r' ? '\n' : c` -/
def translate (c : Byte) : Byte := if c = carriageReturn then newline else c

/-- The `switch` of `consoleintr`. -/
def intr (s : Input) (c : Byte) : Input :=
  if c = ctrlP then s
  else if c = ctrlU then killLine (s.e - s.w).toNat s
  else if c = ctrlH ∨ c = delete then
    if s.e ≠ s.w then { s with e := s.e - 1 } else s
  else if c ≠ 0 ∧ (s.e - s.r).toNat < INPUT_BUF then
    let c := translate c
    let s := { s with buf := Function.update s.buf (Fin.ofNat INPUT_BUF s.e.toNat) c, e := s.e + 1 }
    if c = newline ∨ c = ctrlD ∨ s.e = s.r + BitVec.ofNat 32 INPUT_BUF then
      { s with w := s.e } else s
  else s

end Input

/-- What a stretch of `consoleread` does: the bytes it stores, and how it ends: it sleeps with so
many bytes to read, or returns. -/
structure ReadStretch where
  input : Input
  bytes : List Byte
  asleep : Option ℕ
  result : Option ℤ

/-- The loop of `consoleread` with `n` bytes to read. -/
def readLoop (killed : Bool) (target : ℕ) : ℕ → Input → ReadStretch
  | 0, s => ⟨s, [], none, some target⟩
  | n + 1, s =>
      if s.r = s.w then
        if killed then ⟨s, [], none, some (-1)⟩ else ⟨s, [], some (n + 1), none⟩
      else
        let c := s.char s.r
        let s := { s with r := s.r + 1 }
        if c = ctrlD then
          -- Save ^D for next time, to make sure caller gets a 0-byte result.
          if n + 1 < target then ⟨{ s with r := s.r - 1 }, [], none, some (target - (n + 1 : ℕ))⟩
          else ⟨s, [], none, some (target - (n + 1 : ℕ))⟩
        else if c = newline then ⟨s, [c], none, some (target - n)⟩
        else
          let after := readLoop killed target n s
          { after with bytes := c :: after.bytes }

structure Console where
  input : Input
  /-- The target of a process that sleeps in `consoleread`, and how many bytes it still wants. -/
  waiting : ℕ → Option (ℕ × ℕ)
  heard : List (Byte × ℕ)
  stored : List Byte
  zeros : ℕ

namespace Console

def init : Console where
  input := ⟨fun _ => 0, 0, 0, 0⟩
  waiting := fun _ => none
  heard := []
  stored := []
  zeros := 0

/-- One character is delivered. -/
def hear (s : Console) (c : Byte) : Console :=
  { s with
    input := s.input.intr c
    heard := s.heard ++ [(c, (s.input.e - s.input.r).toNat)] }

/-- A stretch of `consoleread` in process `p`. -/
def reads (s : Console) (killed : Bool) (p target n : ℕ) : Console :=
  let stretch := readLoop killed target n s.input
  { s with
    input := stretch.input
    waiting := Function.update s.waiting p (stretch.asleep.map fun n => (target, n))
    stored := s.stored ++ stretch.bytes
    zeros := if 0 < target ∧ stretch.result = some 0 then s.zeros + 1 else s.zeros }

end Console

inductive ConsoleEvent where
  | consoleintr (cs : List Byte)
  /-- Process `p` calls `consoleread`. -/
  | consoleread (p : ℕ) (n : ℤ) (killed : Bool)
  /-- Process `p` returns from `sleep`. -/
  | resume (p : ℕ) (killed : Bool)

def consoleStep (s : Console) : ConsoleEvent → Option Console
  | .consoleintr cs => some (cs.foldl Console.hear s)
  | .consoleread p n killed =>
      match s.waiting p with
      | none => some (s.reads killed p n.toNat n.toNat)
      | some _ => none
  | .resume p killed =>
      match s.waiting p with
      | none => none
      | some (target, n) => some (s.reads killed p target n)

end Xv6.Ipc
