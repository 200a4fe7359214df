import Xv6.Lib.Program
import Xv6.User.Grep

/-!
# The parser of the shell

`gettoken` to `nulterminate` of part2's `sh.c`. Memory is the byte at each address, and the state of
the parsing functions is the pointer `*ps`. No function changes memory before `nulterminate`.
`malloc` is taken to succeed, so a command is a tree, whose strings are given by where they begin
and end.
-/

namespace Xv6.User.Sh

open Prog

abbrev MAXARGS : ℕ := 10

abbrev O_RDONLY : ℕ := 0x000
abbrev O_WRONLY : ℕ := 0x001
abbrev O_CREATE : ℕ := 0x200

/-- `struct cmd`, with strings in `S`. The arguments of `exec` are those before the null pointer. -/
inductive Cmd (S : Type) where
  | exec (argv : List S)
  | redir (cmd : Cmd S) (file : S) (mode fd : ℕ)
  | pipe (left right : Cmd S)
  | list (left right : Cmd S)
  | back (cmd : Cmd S)
  deriving DecidableEq

/-- The pointers `q` and `eq` to where a string begins and ends. -/
structure Slice where
  q : ℕ
  eq : ℕ
  deriving DecidableEq

inductive Stop where
  /-- `panic(s)` -/
  | panic (s : String)
  /-- What is left over is printed before `panic("syntax")`. -/
  | leftovers (s : ℕ)
  /-- A loop or a recursion has not ended within its fuel. -/
  | diverges
  deriving DecidableEq

/-! ## Tokens -/

def bar : Byte := 0x7c
def leftParen : Byte := 0x28
def rightParen : Byte := 0x29
def semicolon : Byte := 0x3b
def ampersand : Byte := 0x26
def less : Byte := 0x3c
def greater : Byte := 0x3e
def plusSign : Byte := 0x2b
def letterA : Byte := 0x61

def whitespace : List Byte := [0x20, 0x09, 0x0d, 0x0a, 0x0b]

def symbols : List Byte := [less, bar, greater, ampersand, semicolon, leftParen, rightParen]

/-- `strchr(s, c)` as a condition. -/
def among (c : Byte) (s : List Byte) : Bool := (strchr c s).isSome

section Parser

variable (mem : ℕ → Byte)

/-- `while(s < es && test(*s)) s++`, where `n` is `es - s`. -/
def advance (test : Byte → Bool) : ℕ → ℕ → ℕ
  | 0, s => s
  | n + 1, s => if test (mem s) then advance test n (s + 1) else s

/-- The value of `gettoken`, with `*q` and `*eq`. -/
structure Lexeme where
  ret : Byte
  slice : Slice
  deriving DecidableEq

/-- The `switch` of `gettoken` at `s`: the value, and where the token ends. -/
def scan (es s : ℕ) : Byte × ℕ :=
  let c := mem s
  if c = 0 then (c, s)
  else if c = bar ∨ c = leftParen ∨ c = rightParen ∨ c = semicolon ∨ c = ampersand ∨ c = less then
    (c, s + 1)
  else if c = greater then if mem (s + 1) = greater then (plusSign, s + 2) else (c, s + 1)
  else (letterA, advance mem (fun c => !among c whitespace && !among c symbols) (es - s) s)

abbrev Parse (α : Type) := Prog ℕ Stop α

def gettoken (es : ℕ) : Parse Lexeme := do
  let s ← get
  let q := advance mem (among · whitespace) (es - s) s
  let (ret, eq) := scan mem es q
  set (advance mem (among · whitespace) (es - eq) eq)
  return ⟨ret, ⟨q, eq⟩⟩

def peek (es : ℕ) (toks : List Byte) : Parse Bool := do
  let s ← get
  let s := advance mem (among · whitespace) (es - s) s
  set s
  return mem s ≠ 0 && among (mem s) toks

/-! ## Commands -/

/-- `cmd->argv[argc] = q` and `cmd->eargv[argc] = eq` for the `exec` command under the redirections,
which has `argc` arguments. -/
def Cmd.addArg {S : Type} (w : S) : Cmd S → Cmd S
  | .exec argv => .exec (argv ++ [w])
  | .redir cmd file mode fd => .redir (cmd.addArg w) file mode fd
  | cmd => cmd

def parseredirs (es : ℕ) : ℕ → Cmd Slice → Parse (Cmd Slice)
  | 0, _ => throw .diverges
  | fuel + 1, cmd => do
      if ← peek mem es [less, greater] then
        let tok ← gettoken mem es
        let w ← gettoken mem es
        if w.ret ≠ letterA then throw (.panic "missing file for redirection")
        let cmd :=
          if tok.ret = less then .redir cmd w.slice O_RDONLY 0
          else if tok.ret = greater then .redir cmd w.slice (O_WRONLY ||| O_CREATE) 1
          else if tok.ret = plusSign then .redir cmd w.slice (O_WRONLY ||| O_CREATE) 1
          else cmd
        parseredirs es fuel cmd
      else return cmd

/-- The loop of `parseexec`, with `argc` arguments so far. -/
def parseargs (es : ℕ) : ℕ → ℕ → Cmd Slice → Parse (Cmd Slice)
  | 0, _, _ => throw .diverges
  | fuel + 1, argc, ret => do
      if ← peek mem es [bar, rightParen, ampersand, semicolon] then return ret
      else
        let tok ← gettoken mem es
        if tok.ret = 0 then return ret
        else if tok.ret ≠ letterA then throw (.panic "syntax")
        else
          let ret := ret.addArg tok.slice
          if argc + 1 ≥ MAXARGS then throw (.panic "too many args")
          parseargs es fuel (argc + 1) (← parseredirs mem es fuel ret)

/-- The loop of `parseline`. -/
def parseback (es : ℕ) : ℕ → Cmd Slice → Parse (Cmd Slice)
  | 0, _ => throw .diverges
  | fuel + 1, cmd => do
      if ← peek mem es [ampersand] then
        let _ ← gettoken mem es
        parseback es fuel (.back cmd)
      else return cmd

mutual

def parseline (es : ℕ) : ℕ → Parse (Cmd Slice)
  | 0 => throw .diverges
  | fuel + 1 => do
      let cmd ← parsepipe es fuel
      let cmd ← parseback mem es fuel cmd
      if ← peek mem es [semicolon] then
        let _ ← gettoken mem es
        return .list cmd (← parseline es fuel)
      else return cmd

def parsepipe (es : ℕ) : ℕ → Parse (Cmd Slice)
  | 0 => throw .diverges
  | fuel + 1 => do
      let cmd ← parseexec es fuel
      if ← peek mem es [bar] then
        let _ ← gettoken mem es
        return .pipe cmd (← parsepipe es fuel)
      else return cmd

def parseexec (es : ℕ) : ℕ → Parse (Cmd Slice)
  | 0 => throw .diverges
  | fuel + 1 => do
      if ← peek mem es [leftParen] then parseblock es fuel
      else parseargs mem es fuel 0 (← parseredirs mem es fuel (.exec []))

def parseblock (es : ℕ) : ℕ → Parse (Cmd Slice)
  | 0 => throw .diverges
  | fuel + 1 => do
      if !(← peek mem es [leftParen]) then throw (.panic "parseblock")
      let _ ← gettoken mem es
      let cmd ← parseline es fuel
      if !(← peek mem es [rightParen]) then throw (.panic "syntax - missing )")
      let _ ← gettoken mem es
      parseredirs mem es fuel cmd

end

end Parser

def strlen (mem : ℕ → Byte) : ℕ → ℕ → Except Stop ℕ
  | 0, _ => throw .diverges
  | n + 1, s => if mem s = 0 then return 0 else return (← strlen mem n (s + 1)) + 1

/-- `*eargv[i] = 0` for every argument, and `*efile = 0` for every redirection. -/
def nulterminate : Cmd Slice → (ℕ → Byte) → ℕ → Byte
  | .exec argv, mem => argv.foldl (fun mem w => Function.update mem w.eq 0) mem
  | .redir cmd file _ _, mem => Function.update (nulterminate cmd mem) file.eq 0
  | .pipe left right, mem => nulterminate right (nulterminate left mem)
  | .list left right, mem => nulterminate right (nulterminate left mem)
  | .back cmd, mem => nulterminate cmd mem

/-- `parsecmd`, whose state is memory, with so much fuel for each of its loops. -/
def parsecmd (fuel s : ℕ) : Prog (ℕ → Byte) Stop (Cmd Slice) := fun mem => do
  let es := s + (← strlen mem fuel s)
  let (cmd, s) ← parseline mem es fuel s
  let (_, s) ← peek mem es [] s
  if s ≠ es then throw (.leftovers s)
  return (cmd, nulterminate cmd mem)

end Xv6.User.Sh
