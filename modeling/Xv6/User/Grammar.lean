import Xv6.User.Sh

/-!
# The grammar of the shell

The tokens of a line, and the commands that the grammar

    line = pipe {'&'} [';' line]
    pipe = item ['|' pipe]
    item = '(' line ')' redirs | redirs {word redirs}
    redirs = {('<' | '>' | '>>') word}

assigns to a list of tokens.
-/

namespace Xv6.User.Sh

/-! ## Tokens -/

/-- A token, with words in `S`. -/
inductive Token (S : Type) where
  | word (w : S)
  | bar
  | left
  | right
  | semi
  | amp
  | less
  | greater
  | append
  deriving DecidableEq

/-- White space. -/
def blank (c : Byte) : Bool := c ∈ whitespace

/-- A character that words are made of. -/
def plain (c : Byte) : Bool := c ∉ whitespace ∧ c ∉ symbols

/-- The tokens of a text: the operators, `>>` rather than `>`, and the longest words between them.
-/
def tokens : List Byte → List (Token (List Byte))
  | [] => []
  | c :: text =>
      if blank c then tokens text
      else if c = bar then .bar :: tokens text
      else if c = leftParen then .left :: tokens text
      else if c = rightParen then .right :: tokens text
      else if c = semicolon then .semi :: tokens text
      else if c = ampersand then .amp :: tokens text
      else if c = less then .less :: tokens text
      else if c = greater then
        if text.head? = some greater then .append :: tokens text.tail else .greater :: tokens text
      else .word (c :: text.takeWhile plain) :: tokens (text.dropWhile plain)
  termination_by text => text.length
  decreasing_by
    all_goals simp only [List.length_cons, List.length_tail]
    all_goals have := (List.dropWhile_suffix plain (l := text)).length_le
    all_goals omega

/-! ## Commands -/

section Grammar

variable {S : Type}

/-- The mode with which a redirection opens its file, and the descriptor it is for. -/
def Token.redirects : Token S → Option (ℕ × ℕ)
  | .less => some (O_RDONLY, 0)
  | .greater => some (O_WRONLY ||| O_CREATE, 1)
  | .append => some (O_WRONLY ||| O_CREATE, 1)
  | _ => none

/-- A redirection: the file, the mode and the descriptor. -/
abbrev Redirection (S : Type) := S × ℕ × ℕ

/-- The redirections of a command; the last is the outermost. -/
def redirected (cmd : Cmd S) (rs : List (Redirection S)) : Cmd S :=
  rs.foldl (fun cmd r => .redir cmd r.1 r.2.1 r.2.2) cmd

/-- `redirs` -/
inductive Redirs : List (Token S) → List (Redirection S) → Prop
  | nil : Redirs [] []
  | cons {op : Token S} {mode fd : ℕ} {file : S} {ts : List (Token S)} {rs : List (Redirection S)}
      (redirects : op.redirects = some (mode, fd)) (rest : Redirs ts rs) :
      Redirs (op :: .word file :: ts) ((file, mode, fd) :: rs)

/-- `{word redirs}` -/
inductive Words : List (Token S) → List S → List (Redirection S) → Prop
  | nil : Words [] [] []
  | cons {w : S} {ts us : List (Token S)} {ws : List S} {rs rs' : List (Redirection S)}
    (redirs : Redirs ts rs)
      (rest : Words us ws rs') : Words (.word w :: (ts ++ us)) (w :: ws) (rs ++ rs')

inductive Part where
  | line
  | pipe
  | item

/-- The grammar assigns the command to the tokens, as a line, a pipe or an item. -/
inductive Derives : Part → List (Token S) → Cmd S → Prop
  | line {ts : List (Token S)} {c : Cmd S} (pipe : Derives .pipe ts c) (n : ℕ) :
      Derives .line (ts ++ List.replicate n .amp) (Cmd.back^[n] c)
  | list {ts us : List (Token S)} {c d : Cmd S} (pipe : Derives .pipe ts c) (n : ℕ)
    (rest : Derives .line us d) :
      Derives .line (ts ++ List.replicate n .amp ++ .semi :: us) (.list (Cmd.back^[n] c) d)
  | single {ts : List (Token S)} {c : Cmd S} (item : Derives .item ts c) : Derives .pipe ts c
  | pipe {ts us : List (Token S)} {c d : Cmd S} (item : Derives .item ts c)
    (rest : Derives .pipe us d) :
      Derives .pipe (ts ++ .bar :: us) (.pipe c d)
  | block {ts us : List (Token S)} {c : Cmd S} {rs : List (Redirection S)}
    (line : Derives .line ts c)
      (redirs : Redirs us rs) : Derives .item (.left :: ts ++ .right :: us) (redirected c rs)
  | simple {ts us : List (Token S)} {ws : List S} {rs rs' : List (Redirection S)}
    (redirs : Redirs ts rs)
      (words : Words us ws rs') (few : ws.length ≤ MAXARGS - 1) :
      Derives .item (ts ++ us) (redirected (.exec ws) (rs ++ rs'))

/-- The commands are the same up to a relation between their strings. -/
inductive Cmd.Rel {T : Type} (R : S → T → Prop) : Cmd S → Cmd T → Prop
  | exec {argv : List S} {argv' : List T} (args : List.Forall₂ R argv argv') :
    Rel R (.exec argv) (.exec argv')
  | redir {cmd : Cmd S} {cmd' : Cmd T} {file : S} {file' : T} {mode fd : ℕ} (sub : Rel R cmd cmd')
    (name : R file file') :
      Rel R (.redir cmd file mode fd) (.redir cmd' file' mode fd)
  | pipe {left right : Cmd S} {left' right' : Cmd T} (first : Rel R left left')
    (second : Rel R right right') :
      Rel R (.pipe left right) (.pipe left' right')
  | list {left right : Cmd S} {left' right' : Cmd T} (first : Rel R left left')
    (second : Rel R right right') :
      Rel R (.list left right) (.list left' right')
  | back {cmd : Cmd S} {cmd' : Cmd T} (sub : Rel R cmd cmd') : Rel R (.back cmd) (.back cmd')

end Grammar

end Xv6.User.Sh
