import Xv6.User.Tokens

/-!
# The parser accepts the grammar

A parsing function that returns has read tokens that the grammar assigns its command to. Conversely,
if a part of the grammar derives the tokens that come next, and what follows them cannot go on with
that part, then the function for the part reads just these. So the grammar needs no more than the
next token.
-/

namespace Xv6.User.Sh

open Prog Strings

/-! ## Commands up to their strings -/

section Trees

variable {S T : Type} {R : S → T → Prop} {cmd : Cmd S} {tree : Cmd T} {x : S} {w : T}

theorem redirected_append (cmd : Cmd S) (rs rs' : List (Redirection S)) :
    redirected cmd (rs ++ rs') = redirected (redirected cmd rs) rs' := List.foldl_append

theorem addArg_redirected (rs : List (Redirection S)) (cmd : Cmd S) :
    (redirected cmd rs).addArg x = redirected (cmd.addArg x) rs := by
  induction rs generalizing cmd with
  | nil => rfl
  | cons r rs ih => exact ih (.redir cmd r.1 r.2.1 r.2.2)

theorem Cmd.Rel.addArg (same : Cmd.Rel R cmd tree) (arg : R x w) :
    Cmd.Rel R (cmd.addArg x) (tree.addArg w) := by
  induction same with
  | exec args => exact .exec (List.rel_append args (.cons arg .nil))
  | redir _ name ih => exact .redir ih name
  | pipe first second => exact .pipe first second
  | list first second => exact .list first second
  | back sub => exact .back sub

end Trees

/-! ## The next token -/

section Next

variable {S : Type} {ts : List (Token S)}

/-- The next token is one of the given ones. -/
theorem starts_iff {toks : List Byte} :
    starts toks ts = true ↔ ∃ t us c, ts = t :: us ∧ t.op = some c ∧ c ∈ toks := by
  cases ts with
  | nil => exact iff_of_false nofun nofun
  | cons t ts =>
      rw [starts, Option.any_eq_true]
      constructor
      · rintro ⟨c, op, mem⟩
        exact ⟨t, ts, c, rfl, op, decide_eq_true_iff.mp mem⟩
      · rintro ⟨_, _, c, same, op, mem⟩
        cases same
        exact ⟨c, op, decide_eq_true mem⟩

/-- Operators that begin with a character that no other begins with. -/
def Token.single : Token S → Bool
  | .bar | .left | .right | .semi | .amp => true
  | _ => false

theorem starts_single {t : Token S} (single : t.single = true) :
    starts [t.code] ts = true ↔ ∃ us, ts = t :: us := by
  cases ts with
  | nil => exact iff_of_false nofun nofun
  | cons u us =>
      have alike : u.op = some t.code ↔ u = t := by
        cases t <;> cases single <;> cases u <;> simp [Token.op, Token.code] <;> decide
      simp [starts, Option.any_eq_true, alike]

theorem starts_redirection : starts [less, greater] ts = true ↔
    ∃ op us mode fd, ts = op :: us ∧ op.redirects = some (mode, fd) := by
  cases ts with
  | nil => simp [starts]
  | cons t ts => cases t <;> simp [starts, Token.op, Token.code, Token.redirects] <;> decide

end Next

variable {mem : ℕ → Byte} {es s : ℕ} {ts us rest : List (Token (List Byte))} {E : Stop → Prop}
  {α : Type} {Q : α → ℕ → Prop}

/-- A test for an operator that comes next. -/
theorem meets_peek {toks : List Byte} {yes no : Parse α} (reads : Reads mem es s ts)
    (operators : toks ⊆ symbols)
    (then_ : starts toks ts = true → ∀ s', Reads mem es s' ts → Meets yes s' E Q)
    (else_ : starts toks ts = false → ∀ s', Reads mem es s' ts → Meets no s' E Q) :
    Meets (do if ← peek mem es toks then yes else no) s E Q := by
  refine (peek_meets reads operators).bind ?_
  rintro found s' ⟨rfl, reads', -⟩
  cases first : starts toks ts with
  | true => exact then_ first s' reads'
  | false => exact else_ first s' reads'

/-- A check that an operator comes next. -/
theorem meets_expect {toks : List Byte} {e : Stop} {next : Parse α} (reads : Reads mem es s ts)
    (operators : toks ⊆ symbols) (absent : starts toks ts = false → E e)
    (then_ : starts toks ts = true → ∀ s', Reads mem es s' ts → Meets next s' E Q) :
    Meets (do
      if !(← peek mem es toks) then throw e
      next) s E Q := by
  refine (peek_meets reads operators).bind ?_
  rintro found s' ⟨rfl, reads', -⟩
  cases first : starts toks ts with
  | true => exact then_ first s' reads'
  | false => exact meets_throw (absent first)

theorem meets_gettoken {t : Token (List Byte)} {next : Lexeme → Parse α}
    (reads : Reads mem es s (t :: ts))
    (then_ : ∀ x s', x.ret = t.code → Reads mem es s' ts →
      (∀ w, t = .word w → Spells mem x.slice w) → Meets (next x) s' E Q) :
    Meets (gettoken mem es >>= next) s E Q :=
  (gettoken_cons reads).bind fun x s' ⟨code, reads', word⟩ => then_ x s' code reads' word

/-- The strings of the command hold the words of the tree. -/
abbrev Spelled (mem : ℕ → Byte) : Cmd Slice → Cmd (List Byte) → Prop := Cmd.Rel (Spells mem)

variable {cmd : Cmd Slice} {tree : Cmd (List Byte)}

theorem redirects_cmd {op : Token (List Byte)} {mode fd : ℕ}
    (redirects : op.redirects = some (mode, fd)) (x : Slice) :
    (if op.code = less then Cmd.redir cmd x O_RDONLY 0
      else if op.code = greater then .redir cmd x (O_WRONLY ||| O_CREATE) 1
      else if op.code = plusSign then .redir cmd x (O_WRONLY ||| O_CREATE) 1
      else cmd) = .redir cmd x mode fd := by
  cases op <;> cases redirects <;> rfl

theorem code_eq_letter {t : Token (List Byte)} : t.code = letterA ↔ ∃ w, t = .word w := by
  cases t <;> simp [Token.code] <;> decide

/-- The operators that may follow a part. -/
def followers : Part → List Byte
  | .line => [rightParen]
  | .pipe => [rightParen, ampersand, semicolon]
  | .item => [bar, rightParen, ampersand, semicolon]

/-- What comes after a part of the line. -/
def Follows (part : Part) (ts : List (Token (List Byte))) :
    Prop := ts = [] ∨ starts (followers part) ts = true

/-- A token that may follow is none that goes on. -/
theorem Follows.starts_eq_false {part : Part} (follows : Follows part rest) {toks : List Byte}
    (apart : ∀ c ∈ toks, c ∉ followers part) : starts toks rest = false := by
  rcases follows with rfl | follows
  · rfl
  · refine Bool.eq_false_iff.mpr fun found => ?_
    rcases starts_iff.mp follows with ⟨t, us, c, rfl, op, mem⟩
    rcases starts_iff.mp found with ⟨_, _, c', same, op', mem'⟩
    cases same
    cases op.symm.trans op'
    exact apart c mem' mem

theorem Follows.mono {part part' : Part} (follows : Follows part rest)
    (more : followers part ⊆ followers part') :
    Follows part' rest := by
  rcases follows with none | follows
  · exact .inl none
  · rcases starts_iff.mp follows with ⟨t, us, c, whole, op, mem⟩
    exact .inr (starts_iff.mpr ⟨t, us, c, whole, op, more mem⟩)

theorem Follows.amps (follows : Follows .pipe rest) (n : ℕ) :
    Follows .pipe (List.replicate n .amp ++ rest) := by
  cases n with
  | zero => exact follows
  | succ n => exact .inr rfl

theorem not_follows_word {part : Part} {w : List Byte} : ¬Follows part (.word w :: us) := by
  rintro (none | follows)
  · cases none
  · cases follows

/-! ## Redirections -/

/-- One turn of the loop. -/
theorem meets_parseredirs {fuel : ℕ} {Q : Cmd Slice → ℕ → Prop} (reads : Reads mem es s ts)
    (stop : starts [less, greater] ts = false → ∀ s', Reads mem es s' ts → Q cmd s')
    (missing : ∀ op us mode fd, ts = op :: us → op.redirects = some (mode, fd) →
      (∀ w vs, us ≠ .word w :: vs) → E (.panic "missing file for redirection"))
    (turn : ∀ op w us mode fd x s', ts = op :: .word w :: us → op.redirects = some (mode, fd) →
      Spells mem x w → Reads mem es s' us →
      Meets (parseredirs mem es fuel (.redir cmd x mode fd)) s' E Q) :
    Meets (parseredirs mem es (fuel + 1) cmd) s E Q := by
  refine meets_peek reads (by decide) (fun first s' reads' => ?_) fun first s' reads' =>
    stop first s' reads'
  rcases starts_redirection.mp first with ⟨op, us, mode, fd, rfl, redirects⟩
  refine meets_gettoken reads' fun tok s₁ code reads₁ _ => ?_
  cases us with
  | nil =>
      refine (gettoken_nil reads₁).bind fun w s₂ ⟨zero, _⟩ => ?_
      rw [zero]
      exact missing op [] mode fd rfl redirects nofun
  | cons t us =>
      refine meets_gettoken reads₁ fun w s₂ code' reads₂ word => ?_
      by_cases isWord : ∃ v, t = .word v
      · rcases isWord with ⟨v, rfl⟩
        have letter : w.ret = letterA := code'.trans (code_eq_letter.mpr ⟨v, rfl⟩)
        simp only [letter, ne_eq, not_true_eq_false, if_false, code, redirects_cmd redirects]
        exact turn op v us mode fd w.slice s₂ rfl redirects (word v rfl) reads₂
      · rw [code', if_pos fun same => isWord (code_eq_letter.mp same)]
        refine missing op (t :: us) mode fd rfl redirects fun v vs same => isWord ⟨v, ?_⟩
        exact (List.cons.inj same).1

/-- Redirections are parsed as such. -/
theorem Redirs.parses {us : List (Token (List Byte))} {rs : List (Redirection (List Byte))}
    (redirs : Redirs us rs) {fuel : ℕ} (reads : Reads mem es s (us ++ rest))
    (follow : starts [less, greater] rest = false) (spelled : Spelled mem cmd tree) :
    Meets (parseredirs mem es fuel cmd) s (· = .diverges) fun cmd s' =>
      Reads mem es s' rest ∧ Spelled mem cmd (redirected tree rs) := by
  induction redirs generalizing fuel s cmd tree with
  | nil =>
      cases fuel with
      | zero => exact meets_throw rfl
      | succ fuel =>
          have none : ∀ op us mode fd, rest = op :: us → op.redirects ≠ some (mode, fd) :=
            fun op us mode fd whole redirects =>
              Bool.eq_false_iff.mp follow
                (starts_redirection.mpr ⟨op, us, mode, fd, whole, redirects⟩)
          refine meets_parseredirs reads (fun _ s' reads' => ⟨reads', spelled⟩) ?_ ?_
          · exact fun op us mode fd whole redirects _ => absurd redirects (none op us mode fd whole)
          · exact fun op w us mode fd _ _ whole redirects _ _ =>
              absurd redirects (none op _ mode fd whole)
  | @cons op mode fd file us rs redirects _ ih =>
      cases fuel with
      | zero => exact meets_throw rfl
      | succ fuel =>
          refine meets_parseredirs reads ?_ ?_ ?_
          · intro first
            have found := starts_redirection.mpr
              ⟨op, .word file :: (us ++ rest), mode, fd, rfl, redirects⟩
            cases found.symm.trans first
          · rintro _ _ _ _ whole - missing
            cases whole
            exact absurd rfl (missing file (us ++ rest))
          · rintro _ _ _ mode' fd' x s' whole redirects' spells reads'
            cases whole
            cases redirects.symm.trans redirects'
            exact ih reads' (.redir spelled spells)

/-- What `parseredirs` has parsed are redirections. -/
theorem parseredirs_sound {fuel : ℕ} (reads : Reads mem es s ts) (spelled : Spelled mem cmd tree) :
    Meets (parseredirs mem es fuel cmd) s (fun e => ts.length < fuel → e ≠ .diverges) fun cmd s' =>
      ∃ us rs rest, ts = us ++ rest ∧ Redirs us rs ∧ Reads mem es s' rest ∧
        Spelled mem cmd (redirected tree rs) := by
  induction fuel generalizing s ts cmd tree with
  | zero => exact meets_throw fun enough => absurd enough (Nat.not_lt_zero _)
  | succ fuel ih =>
      refine meets_parseredirs reads ?_ ?_ ?_
      · exact fun _ s' reads' => ⟨[], [], ts, rfl, .nil, reads', spelled⟩
      · exact fun _ _ _ _ _ _ _ _ => nofun
      · rintro op w us mode fd x s' rfl redirects spells reads'
        refine (ih reads' (.redir spelled spells)).mono ?_ ?_
        · intro e total enough
          rw [List.length_cons, List.length_cons] at enough
          exact total (by omega)
        · rintro cmd' s'' ⟨us, rs, rest, rfl, redirs, reads'', spelled'⟩
          exact ⟨_, _, rest, rfl, .cons redirects redirs, reads'', spelled'⟩

/-! ## Words -/

/-- One turn of the loop. -/
theorem meets_parseargs {fuel argc : ℕ} {Q : Cmd Slice → ℕ → Prop} (reads : Reads mem es s ts)
    (stop : Follows .item ts → ∀ s', Reads mem es s' ts → Q cmd s')
    (wrong : ¬Follows .item ts → (∀ w us, ts ≠ .word w :: us) → E (.panic "syntax"))
    (many : ∀ w us, ts = .word w :: us → MAXARGS ≤ argc + 1 → E (.panic "too many args"))
    (turn : ∀ w us x s', ts = .word w :: us → argc + 1 < MAXARGS → Spells mem x w →
      Reads mem es s' us → Meets
      (parseredirs mem es fuel (cmd.addArg x) >>= parseargs mem es fuel (argc + 1)) s' E Q) :
    Meets (parseargs mem es (fuel + 1) argc cmd) s E Q := by
  refine meets_peek reads (by decide) (fun first s' reads' => stop (.inr first) s' reads')
    fun first s' reads' => ?_
  cases ts with
  | nil =>
      refine (gettoken_nil reads').bind fun tok s₁ ⟨zero, reads₁⟩ => ?_
      rw [if_pos zero]
      exact stop (.inl rfl) s₁ reads₁
  | cons t us =>
      have goesOn : ¬Follows .item (t :: us) := by
        rintro (none | follows)
        · cases none
        · exact Bool.eq_false_iff.mp first follows
      refine meets_gettoken reads' fun tok s₁ code reads₁ word => ?_
      have nonzero : tok.ret ≠ 0 := by
        rw [code]
        cases t <;> simp [Token.code] <;> decide
      rw [if_neg nonzero]
      by_cases isWord : ∃ v, t = .word v
      · rcases isWord with ⟨v, rfl⟩
        have letter : tok.ret = letterA := code.trans (code_eq_letter.mpr ⟨v, rfl⟩)
        rw [if_neg (not_not.mpr letter)]
        by_cases full : MAXARGS ≤ argc + 1
        · rw [if_pos full]
          exact many v us rfl full
        · rw [if_neg full]
          exact turn v us tok.slice s₁ rfl (Nat.not_le.mp full) (word v rfl) reads₁
      · rw [code, if_pos fun same => isWord (code_eq_letter.mp same)]
        refine wrong goesOn fun w vs same => isWord ⟨w, ?_⟩
        exact (List.cons.inj same).1

variable {ws ws' : List (List Byte)} {rs rs' : List (Redirection (List Byte))}

theorem Words.follow (words : Words us ws rs) (follows : Follows .item rest) :
    starts [less, greater] (us ++ rest) = false := by
  cases words with
  | nil => exact follows.starts_eq_false (by decide)
  | cons redirs rest => rfl

/-- Words and redirections are parsed as such. -/
theorem Words.parses {fuel : ℕ} (words : Words us ws rs) (reads : Reads mem es s (us ++ rest))
    (follows : Follows .item rest) (few : ws'.length + ws.length < MAXARGS)
    (spelled : Spelled mem cmd (redirected (.exec ws') rs')) :
    Meets (parseargs mem es fuel ws'.length cmd) s (· = .diverges) fun cmd s' =>
      Reads mem es s' rest ∧ Spelled mem cmd (redirected (.exec (ws' ++ ws)) (rs' ++ rs)) := by
  induction words generalizing fuel s cmd ws' rs' with
  | nil =>
      cases fuel with
      | zero => exact meets_throw rfl
      | succ fuel =>
          refine meets_parseargs reads ?_ (fun no _ => absurd follows no) ?_ ?_
          · intro _ s' reads'
            rw [List.append_nil, List.append_nil]
            exact ⟨reads', spelled⟩
          · rintro w us rfl
            exact absurd follows not_follows_word
          · rintro w us x s' rfl
            exact absurd follows not_follows_word
  | @cons w ts us ws rs rs'' redirs words ih =>
      cases fuel with
      | zero => exact meets_throw rfl
      | succ fuel =>
          rw [List.length_cons] at few
          refine meets_parseargs reads (fun follows' => absurd follows' not_follows_word) ?_ ?_ ?_
          · exact fun _ none => absurd rfl (none w (ts ++ us ++ rest))
          · intro _ _ _ many
            omega
          · rintro _ _ x s' whole - spells reads'
            cases whole
            rw [List.append_eq, List.append_assoc] at reads'
            have added : Spelled mem (cmd.addArg x) (redirected (.exec (ws' ++ [w])) rs') := by
              have added := spelled.addArg spells
              rwa [addArg_redirected] at added
            refine (redirs.parses reads' (words.follow follows) added).bind ?_
            rintro cmd' s'' ⟨reads'', spelled'⟩
            rw [← redirected_append] at spelled'
            have count : (ws' ++ [w]).length = ws'.length + 1 := List.length_append
            have done := @ih s'' cmd' (ws' ++ [w]) (rs' ++ rs) fuel reads'' (by omega) spelled'
            rwa [count, List.append_assoc, List.append_assoc] at done

/-- What `parseexec` collects are words and redirections. -/
theorem parseargs_sound {fuel : ℕ} (reads : Reads mem es s ts) (few : ws'.length < MAXARGS)
    (spelled : Spelled mem cmd (redirected (.exec ws') rs')) :
    Meets (parseargs mem es fuel ws'.length cmd) s (fun e => ts.length < fuel → e ≠ .diverges)
      fun cmd s' =>
      ∃ us ws rs rest, ts = us ++ rest ∧ Words us ws rs ∧ ws'.length + ws.length < MAXARGS ∧
        Reads mem es s' rest ∧
        Spelled mem cmd (redirected (.exec (ws' ++ ws)) (rs' ++ rs)) := by
  induction fuel generalizing s ts cmd ws' rs' with
  | zero => exact meets_throw fun enough => absurd enough (Nat.not_lt_zero _)
  | succ fuel ih =>
      refine meets_parseargs reads ?_ (fun _ _ _ => nofun) (fun _ _ _ _ _ => nofun) ?_
      · intro _ s' reads'
        refine ⟨[], [], [], ts, rfl, .nil, few, reads', ?_⟩
        rwa [List.append_nil, List.append_nil]
      · rintro w us x s' rfl more spells reads'
        have added : Spelled mem (cmd.addArg x) (redirected (.exec (ws' ++ [w])) rs') := by
          have added := spelled.addArg spells
          rwa [addArg_redirected] at added
        refine ((parseredirs_sound reads' added).mono ?_ fun _ _ => id).bind ?_
        · intro e total enough
          rw [List.length_cons] at enough
          exact total (by omega)
        · rintro cmd' s'' ⟨us₁, rs₁, rest₁, rfl, redirs, reads'', spelled'⟩
          rw [← redirected_append] at spelled'
          have count : (ws' ++ [w]).length = ws'.length + 1 := List.length_append
          have done := ih reads'' (by omega) spelled'
          rw [count] at done
          refine done.mono ?_ ?_
          · intro e total enough
            rw [List.length_cons, List.length_append] at enough
            exact total (by omega)
          · rintro cmd'' s₃ ⟨us₂, ws₂, rs₂, rest, rfl, words, few', reads₃, spelled''⟩
            refine ⟨.word w :: (us₁ ++ us₂), w :: ws₂, rs₁ ++ rs₂, rest, ?_, .cons redirs words, ?_,
              reads₃, ?_⟩
            · rw [List.cons_append, List.append_assoc]
            · rw [List.length_cons]
              omega
            · rwa [List.append_assoc, List.append_assoc] at spelled''

/-! ## Lines, pipes and items -/

/-- Ampersands are parsed as such. -/
theorem parseback_parses {fuel n : ℕ} (reads : Reads mem es s (List.replicate n .amp ++ rest))
    (follow : starts [ampersand] rest = false) (spelled : Spelled mem cmd tree) :
    Meets (parseback mem es fuel cmd) s (· = .diverges) fun cmd s' =>
      Reads mem es s' rest ∧ Spelled mem cmd (Cmd.back^[n] tree) := by
  induction n generalizing fuel s cmd tree with
  | zero =>
      cases fuel with
      | zero => exact meets_throw rfl
      | succ fuel =>
          refine meets_peek reads (by decide) (fun first => ?_) fun _ s' reads' =>
            meets_pure ⟨reads', spelled⟩
          exact absurd first (Bool.eq_false_iff.mp follow)
  | succ n ih =>
      cases fuel with
      | zero => exact meets_throw rfl
      | succ fuel =>
          refine meets_peek reads (by decide) (fun _ s' reads' => ?_) nofun
          exact meets_gettoken reads' fun x s₁ _ reads₁ _ => ih reads₁ (.back spelled)

/-- What is parsed in the loop of `parseline` are ampersands. -/
theorem parseback_sound {fuel : ℕ} (reads : Reads mem es s ts) (spelled : Spelled mem cmd tree) :
    Meets (parseback mem es fuel cmd) s (fun e => ts.length < fuel → e ≠ .diverges) fun cmd s' =>
      ∃ n rest, ts = List.replicate n .amp ++ rest ∧ Reads mem es s' rest ∧
        Spelled mem cmd (Cmd.back^[n] tree) := by
  induction fuel generalizing s ts cmd tree with
  | zero => exact meets_throw fun enough => absurd enough (Nat.not_lt_zero _)
  | succ fuel ih =>
      refine meets_peek reads (by decide) (fun first s' reads' => ?_) ?_
      · rcases (starts_single (t := .amp) rfl).mp first with ⟨us, rfl⟩
        refine meets_gettoken reads' fun x s₁ _ reads₁ _ => ?_
        refine (ih reads₁ (.back spelled)).mono ?_ ?_
        · intro e total enough
          rw [List.length_cons] at enough
          exact total (by omega)
        · rintro cmd' s'' ⟨n, rest, rfl, reads'', spelled'⟩
          exact ⟨n + 1, rest, rfl, reads'', spelled'⟩
      · exact fun _ s' reads' => meets_pure ⟨0, ts, rfl, reads', spelled⟩

/-- The function for a part of the grammar. -/
def parser (mem : ℕ → Byte) (es : ℕ) : Part → ℕ → Parse (Cmd Slice)
  | .line => parseline mem es
  | .pipe => parsepipe mem es
  | .item => parseexec mem es

/-- What the grammar derives is read. -/
theorem Derives.parses {part : Part} (derives : Derives part us tree) {fuel : ℕ}
    (reads : Reads mem es s (us ++ rest)) (follows : Follows part rest) :
    Meets (parser mem es part fuel) s (· = .diverges) fun cmd s' =>
      Reads mem es s' rest ∧ Spelled mem cmd tree := by
  induction derives generalizing fuel s rest with
  | @line ts c _ n ih =>
      cases fuel with
      | zero => exact meets_throw rfl
      | succ fuel =>
          rw [List.append_assoc] at reads
          rw [parser, parseline]
          refine (ih reads ((follows.mono (by decide)).amps n)).bind ?_
          rintro cmd s₁ ⟨reads₁, spelled₁⟩
          refine (parseback_parses reads₁ (follows.starts_eq_false (by decide)) spelled₁).bind ?_
          rintro cmd s₂ ⟨reads₂, spelled₂⟩
          refine meets_peek reads₂ (by decide) (fun first => ?_) fun _ s₃ reads₃ =>
            meets_pure ⟨reads₃, spelled₂⟩
          exact absurd first (Bool.eq_false_iff.mp (follows.starts_eq_false (by decide)))
  | @list ts us c d _ n _ ihPipe ihLine =>
      cases fuel with
      | zero => exact meets_throw rfl
      | succ fuel =>
          rw [List.append_assoc, List.append_assoc] at reads
          rw [parser, parseline]
          have next : Follows .pipe (.semi :: us ++ rest) := .inr rfl
          refine (ihPipe reads (next.amps n)).bind ?_
          rintro left s₁ ⟨reads₁, spelled₁⟩
          refine (parseback_parses reads₁ rfl spelled₁).bind ?_
          rintro left s₂ ⟨reads₂, spelled₂⟩
          refine meets_peek reads₂ (by decide) (fun _ s₃ reads₃ => ?_) nofun
          refine meets_gettoken reads₃ fun x s₄ _ reads₄ _ => ?_
          refine (ihLine reads₄ follows).bind ?_
          rintro right s₅ ⟨reads₅, spelled₅⟩
          exact meets_pure ⟨reads₅, .list spelled₂ spelled₅⟩
  | @single ts c _ ih =>
      cases fuel with
      | zero => exact meets_throw rfl
      | succ fuel =>
          rw [parser, parsepipe]
          refine (ih reads (follows.mono (by decide))).bind ?_
          rintro cmd s₁ ⟨reads₁, spelled₁⟩
          refine meets_peek reads₁ (by decide) (fun first => ?_) fun _ s₂ reads₂ =>
            meets_pure ⟨reads₂, spelled₁⟩
          exact absurd first (Bool.eq_false_iff.mp (follows.starts_eq_false (by decide)))
  | @pipe ts us c d _ _ ihItem ihPipe =>
      cases fuel with
      | zero => exact meets_throw rfl
      | succ fuel =>
          rw [List.append_assoc] at reads
          rw [parser, parsepipe]
          refine (ihItem reads (.inr rfl)).bind ?_
          rintro left s₁ ⟨reads₁, spelled₁⟩
          refine meets_peek reads₁ (by decide) (fun _ s₂ reads₂ => ?_) nofun
          refine meets_gettoken reads₂ fun x s₃ _ reads₃ _ => ?_
          refine (ihPipe reads₃ follows).bind ?_
          rintro right s₄ ⟨reads₄, spelled₄⟩
          exact meets_pure ⟨reads₄, .pipe spelled₁ spelled₄⟩
  | @block ts us c rs _ redirs ih =>
      cases fuel with
      | zero => exact meets_throw rfl
      | succ fuel =>
          rw [List.append_assoc] at reads
          rw [parser, parseexec]
          refine meets_peek reads (by decide) (fun _ s₁ reads₁ => ?_) nofun
          cases fuel with
          | zero => exact meets_throw rfl
          | succ fuel =>
              rw [parseblock]
              refine meets_expect reads₁ (by decide) nofun fun _ s₂ reads₂ => ?_
              refine meets_gettoken reads₂ fun x s₃ _ reads₃ _ => ?_
              refine (ih reads₃ (.inr rfl)).bind ?_
              rintro cmd s₄ ⟨reads₄, spelled⟩
              refine meets_expect reads₄ (by decide) nofun fun _ s₅ reads₅ => ?_
              refine meets_gettoken reads₅ fun x s₆ _ reads₆ _ => ?_
              exact redirs.parses reads₆ (follows.starts_eq_false (by decide)) spelled
  | @simple ts us ws rs rs' redirs words few =>
      cases fuel with
      | zero => exact meets_throw rfl
      | succ fuel =>
          rw [List.append_assoc] at reads
          rw [parser, parseexec]
          refine meets_peek reads (by decide) (fun first => ?_) fun _ s₁ reads₁ => ?_
          · have none : starts [leftParen] (ts ++ (us ++ rest)) = false := by
              cases redirs with
              | nil =>
                  cases words with
                  | nil => exact follows.starts_eq_false (by decide)
                  | cons _ _ => rfl
              | @cons op mode fd file ts rs redirects _ =>
                  cases op with
                  | less | greater | append => rfl
                  | _ => cases redirects
            exact absurd first (Bool.eq_false_iff.mp none)
          · refine (redirs.parses reads₁ (words.follow follows) (.exec .nil)).bind ?_
            rintro cmd s₂ ⟨reads₂, spelled₂⟩
            have room : ([] : List (List Byte)).length + ws.length < MAXARGS := by
              rw [List.length_nil, Nat.zero_add]
              exact Nat.lt_succ_of_le few
            exact words.parses reads₂ follows room spelled₂

/-- So much fuel is enough for so many tokens. -/
def enough : Part → ℕ → ℕ
  | .line, n => 4 * n + 4
  | .pipe, n => 4 * n + 3
  | .item, n => 4 * n + 2

/-- The grammar assigns the command to some of the tokens, and the others are left. -/
def Parsed (mem : ℕ → Byte) (es : ℕ) (part : Part) (ts : List (Token (List Byte))) (cmd : Cmd Slice)
    (s : ℕ) : Prop :=
  ∃ us tree rest, ts = us ++ rest ∧ Derives part us tree ∧ Reads mem es s rest ∧
    Spelled mem cmd tree

/-- What the function for a part reads is derived by the grammar, and it ends if it has enough fuel.
-/
def Sound (mem : ℕ → Byte) (es fuel : ℕ) (part : Part) : Prop :=
  ∀ s ts, Reads mem es s ts → Meets (parser mem es part fuel) s
    (fun e => enough part ts.length ≤ fuel → e ≠ .diverges) (Parsed mem es part ts)

variable {fuel : ℕ}

theorem sound_zero (part : Part) : Sound mem es 0 part := by
  intro s ts _
  have none : ¬enough part ts.length ≤ 0 := by
    cases part <;> exact Nat.not_succ_le_zero _
  cases part with
  | line => exact meets_throw fun few => absurd few none
  | pipe => exact meets_throw fun few => absurd few none
  | item => exact meets_throw fun few => absurd few none

/-- `parseline` is sound with less fuel for its parts. -/
theorem Sound.parseline (pipe : Sound mem es fuel .pipe) (line : Sound mem es fuel .line) :
    Sound mem es (fuel + 1) .line := by
  intro s ts reads
  rw [parser, Sh.parseline]
  refine ((pipe s ts reads).mono ?_ fun _ _ => id).bind ?_
  · intro e total few
    simp only [enough] at few total
    exact total (by omega)
  rintro cmd s₁ ⟨us, tree, rest, rfl, derives, reads₁, spelled₁⟩
  refine ((parseback_sound reads₁ spelled₁).mono ?_ fun _ _ => id).bind ?_
  · intro e total few
    simp only [enough, List.length_append] at few
    exact total (by omega)
  rintro cmd s₂ ⟨n, rest, rfl, reads₂, spelled₂⟩
  refine meets_peek reads₂ (by decide) (fun first s₃ reads₃ => ?_) fun _ s₃ reads₃ => ?_
  · rcases (starts_single (t := .semi) rfl).mp first with ⟨rest, rfl⟩
    refine meets_gettoken reads₃ fun x s₄ _ reads₄ _ => ?_
    refine ((line s₄ rest reads₄).mono ?_ fun _ _ => id).bind ?_
    · intro e total few
      simp only [enough, List.length_append, List.length_cons] at few total
      exact total (by omega)
    rintro right s₅ ⟨vs, tree', rest, rfl, derives', reads₅, spelled₅⟩
    refine meets_pure ⟨_, _, rest, ?_, .list derives n derives', reads₅, .list spelled₂ spelled₅⟩
    simp only [List.append_assoc, List.cons_append]
  · refine meets_pure ⟨_, _, rest, ?_, .line derives n, reads₃, spelled₂⟩
    rw [List.append_assoc]

theorem Sound.parsepipe (item : Sound mem es fuel .item) (pipe : Sound mem es fuel .pipe) :
    Sound mem es (fuel + 1) .pipe := by
  intro s ts reads
  rw [parser, Sh.parsepipe]
  refine ((item s ts reads).mono ?_ fun _ _ => id).bind ?_
  · intro e total few
    simp only [enough] at few total
    exact total (by omega)
  rintro cmd s₁ ⟨us, tree, rest, rfl, derives, reads₁, spelled₁⟩
  refine meets_peek reads₁ (by decide) (fun first s₂ reads₂ => ?_) fun _ s₂ reads₂ => ?_
  · rcases (starts_single (t := .bar) rfl).mp first with ⟨rest, rfl⟩
    refine meets_gettoken reads₂ fun x s₃ _ reads₃ _ => ?_
    refine ((pipe s₃ rest reads₃).mono ?_ fun _ _ => id).bind ?_
    · intro e total few
      simp only [enough, List.length_append, List.length_cons] at few total
      exact total (by omega)
    rintro right s₄ ⟨vs, tree', rest, rfl, derives', reads₄, spelled₄⟩
    refine meets_pure ⟨_, _, rest, ?_, .pipe derives derives', reads₄, .pipe spelled₁ spelled₄⟩
    simp only [List.append_assoc, List.cons_append]
  · exact meets_pure ⟨us, tree, rest, rfl, .single derives, reads₂, spelled₁⟩

theorem Sound.parseblock (line : Sound mem es fuel .line) (reads : Reads mem es s (.left :: ts)) :
    Meets (Sh.parseblock mem es (fuel + 1)) s
      (fun e => 4 * ts.length + 5 ≤ fuel + 1 → e ≠ .diverges)
      (Parsed mem es .item (.left :: ts)) := by
  rw [Sh.parseblock]
  refine meets_expect reads (by decide) (fun _ _ => nofun) fun _ s₁ reads₁ => ?_
  refine meets_gettoken reads₁ fun x s₂ _ reads₂ _ => ?_
  refine ((line s₂ ts reads₂).mono ?_ fun _ _ => id).bind ?_
  · intro e total few
    simp only [enough] at total
    exact total (by omega)
  rintro cmd s₃ ⟨us, tree, rest, rfl, derives, reads₃, spelled⟩
  refine meets_expect reads₃ (by decide) (fun _ _ => nofun) fun closed s₄ reads₄ => ?_
  rcases (starts_single (t := .right) rfl).mp closed with ⟨rest, rfl⟩
  refine meets_gettoken reads₄ fun x s₅ _ reads₅ _ => ?_
  refine (parseredirs_sound reads₅ spelled).mono ?_ ?_
  · intro e total few
    simp only [List.length_append, List.length_cons] at few
    exact total (by omega)
  · rintro cmd' s' ⟨vs, rs, rest, rfl, redirs, reads', spelled'⟩
    refine ⟨_, _, rest, ?_, .block derives redirs, reads', spelled'⟩
    simp only [List.append_assoc, List.cons_append]

theorem Sound.parseexec (line : ∀ n < fuel, Sound mem es n .line) :
    Sound mem es (fuel + 1) .item := by
  intro s ts reads
  rw [parser, Sh.parseexec]
  refine meets_peek reads (by decide) (fun first s₁ reads₁ => ?_) fun _ s₁ reads₁ => ?_
  · rcases (starts_single (t := .left) rfl).mp first with ⟨ts, rfl⟩
    cases fuel with
    | zero =>
        refine meets_throw fun few => ?_
        simp only [enough, List.length_cons] at few
        omega
    | succ fuel =>
        refine ((line fuel (Nat.lt_succ_self fuel)).parseblock reads₁).mono ?_ fun _ _ => id
        intro e total few
        simp only [enough, List.length_cons] at few
        exact total (by omega)
  · refine ((parseredirs_sound reads₁ (.exec .nil)).mono ?_ fun _ _ => id).bind ?_
    · intro e total few
      simp only [enough] at few
      exact total (by omega)
    rintro cmd s₂ ⟨us, rs, rest, rfl, redirs, reads₂, spelled₂⟩
    have room : ([] : List (List Byte)).length < MAXARGS := Nat.zero_lt_succ 9
    refine (parseargs_sound reads₂ room spelled₂).mono ?_ ?_
    · intro e total few
      simp only [enough, List.length_append] at few
      exact total (by omega)
    · rintro cmd' s' ⟨vs, ws, rs', rest, rfl, words, few, reads', spelled'⟩
      refine ⟨_, _, rest, ?_, .simple redirs words ?_, reads', spelled'⟩
      · rw [List.append_assoc]
      · rw [List.length_nil, Nat.zero_add] at few
        exact Nat.le_of_lt_succ few

/-- What the parser accepts is a command. -/
theorem parser_sound (fuel : ℕ) (part : Part) : Sound mem es fuel part := by
  induction fuel using Nat.strong_induction_on generalizing part with
  | _ fuel ih =>
      cases fuel with
      | zero => exact sound_zero part
      | succ fuel =>
          have now := ih fuel (Nat.lt_succ_self fuel)
          cases part with
          | line => exact (now .pipe).parseline (now .line)
          | pipe => exact (now .item).parsepipe (now .pipe)
          | item => exact Sound.parseexec fun n less => ih n (Nat.lt_succ_of_lt less) .line

end Xv6.User.Sh
