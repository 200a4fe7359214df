import Xv6.User.Parser

/-!
# A parsed command line

`parsecmd` returns exactly on the lines of the grammar. The strings of the command it returns are
the words of the line: the byte that follows a word belongs to no word, so `nulterminate` ends each
string and changes none.
-/

namespace Xv6.User.Sh

open Prog Strings

/-! ## Terminated strings -/

/-- The strings of a command. -/
def Cmd.strings {S : Type} : Cmd S → List S
  | .exec argv => argv
  | .redir cmd file _ _ => cmd.strings ++ [file]
  | .pipe left right => left.strings ++ right.strings
  | .list left right => left.strings ++ right.strings
  | .back cmd => cmd.strings

section Rel

variable {S T : Type} {R R' : S → T → Prop} {cmd : Cmd S} {tree : Cmd T}

/-- Every string of the command is related to one of the tree. -/
theorem Cmd.Rel.of_mem (same : Cmd.Rel R cmd tree) {x : S} (mem : x ∈ cmd.strings) :
    ∃ w, R x w := by
  induction same with
  | exec args =>
      induction args with
      | nil => cases mem
      | @cons y w _ _ related _ ih =>
          rcases List.mem_cons.mp mem with rfl | mem
          · exact ⟨w, related⟩
          · exact ih mem
  | redir _ name ih =>
      rcases List.mem_append.mp mem with mem | mem
      · exact ih mem
      · exact ⟨_, List.mem_singleton.mp mem ▸ name⟩
  | pipe _ _ first second => exact (List.mem_append.mp mem).elim first second
  | list _ _ first second => exact (List.mem_append.mp mem).elim first second
  | back _ ih => exact ih mem

/-- A weaker relation of the strings. -/
theorem Cmd.Rel.imp (same : Cmd.Rel R cmd tree) (imp : ∀ x ∈ cmd.strings, ∀ w, R x w → R' x w) :
    Cmd.Rel R' cmd tree := by
  induction same with
  | exec args =>
      refine .exec ?_
      induction args with
      | nil => exact .nil
      | cons related _ ih =>
          exact .cons (imp _ List.mem_cons_self _ related)
            (ih fun x mem => imp x (List.mem_cons_of_mem _ mem))
  | redir _ name ih =>
      exact .redir (ih fun x mem => imp x (List.mem_append_left _ mem))
        (imp _ (List.mem_append_right _ (List.mem_singleton.mpr rfl)) _ name)
  | pipe _ _ first second =>
      exact .pipe (first fun x mem => imp x (List.mem_append_left _ mem))
        (second fun x mem => imp x (List.mem_append_right _ mem))
  | list _ _ first second =>
      exact .list (first fun x mem => imp x (List.mem_append_left _ mem))
        (second fun x mem => imp x (List.mem_append_right _ mem))
  | back _ ih => exact .back (ih imp)

/-- A command determines the tree if the strings determine the words. -/
theorem Cmd.Rel.unique {tree' : Cmd T} (same : Cmd.Rel R cmd tree) (same' : Cmd.Rel R cmd tree')
    (determined : Relator.RightUnique R) : tree = tree' := by
  induction same generalizing tree' with
  | exec args =>
      cases same' with
      | exec args' => rw [List.right_unique_forall₂' determined args args']
  | redir _ name ih =>
      cases same' with
      | redir sub name' => rw [ih sub, determined name name']
  | pipe _ _ first second =>
      cases same' with
      | pipe first' second' => rw [first first', second second']
  | list _ _ first second =>
      cases same' with
      | list first' second' => rw [first first', second second']
  | back _ ih =>
      cases same' with
      | back sub => rw [ih sub]

end Rel

variable {mem : ℕ → Byte} {cmd : Cmd Slice} {tree : Cmd (List Byte)}

theorem exists_mem_append {p : Slice → Prop} (xs ys : List Slice) :
    (∃ x ∈ xs ++ ys, p x) ↔ (∃ x ∈ ys, p x) ∨ ∃ x ∈ xs, p x := by
  simp only [List.mem_append, or_and_right, exists_or, or_comm]

theorem exists_mem_singleton (w : Slice) (a : ℕ) : (∃ x ∈ [w], x.eq = a) ↔ a = w.eq := by
  constructor
  · rintro ⟨x, here, rfl⟩
    rw [List.mem_singleton.mp here]
  · rintro rfl
    exact ⟨w, List.mem_singleton.mpr rfl, rfl⟩

/-- `nulterminate` sets a zero at the end of every string. -/
theorem nulterminate_eq (cmd : Cmd Slice) (mem : ℕ → Byte) (a : ℕ) :
    nulterminate cmd mem a = if ∃ x ∈ cmd.strings, x.eq = a then 0 else mem a := by
  induction cmd generalizing mem with
  | exec argv =>
      induction argv generalizing mem with
      | nil =>
          rw [if_neg (by rintro ⟨x, here, _⟩; cases here)]
          rfl
      | cons w argv ih =>
          refine (ih (Function.update mem w.eq 0)).trans ?_
          show _ = if ∃ x ∈ [w] ++ argv, x.eq = a then 0 else mem a
          rw [if_congr (exists_mem_append [w] argv) rfl rfl, ite_or,
            if_congr (exists_mem_singleton w a) rfl rfl,
            Function.update_apply]
          rfl
  | redir cmd file mode fd ih =>
      rw [nulterminate, Function.update_apply, ih, Cmd.strings,
        if_congr (exists_mem_append _ _) rfl rfl, ite_or,
        if_congr (exists_mem_singleton file a) rfl rfl]
  | pipe left right first second =>
      rw [nulterminate, second, first, Cmd.strings,
        if_congr (exists_mem_append _ _) rfl rfl, ite_or]
  | list left right first second =>
      rw [nulterminate, second, first, Cmd.strings,
        if_congr (exists_mem_append _ _) rfl rfl, ite_or]
  | back cmd ih => exact ih mem

/-- After `nulterminate`, the strings of the command are the words. -/
theorem Spelled.terminated (spelled : Spelled mem cmd tree) :
    Cmd.Rel (fun x w => IsString (nulterminate cmd mem) x.q w) cmd tree := by
  refine Cmd.Rel.imp spelled fun x here w spells => ?_
  have nonzero : 0 ∉ w := fun zero => (spells.letters 0 zero).1 rfl
  refine Holds.terminated (fun a => ∃ y ∈ cmd.strings, y.eq = a) spells.holds nonzero ?_ ?_ ?_ ?_
  · exact fun a ends => (nulterminate_eq cmd mem a).trans (if_pos ends)
  · exact fun a goesOn => (nulterminate_eq cmd mem a).trans (if_neg goesOn)
  · exact ⟨x, here, spells.eq⟩
  · rintro a ⟨y, there, rfl⟩
    rcases Cmd.Rel.of_mem spelled there with ⟨v, spells'⟩
    by_contra inside
    have letter := spells.letters _ (spells.holds.mem_of (by omega : x.q ≤ y.eq) (by omega))
    rcases spells'.ended with zero | ended
    · exact letter.1 zero
    · rw [ended] at letter
      cases letter.2

/-! ## The command line -/

variable {s fuel : ℕ} {text : List Byte}

/-- `strlen` counts up to the zero. -/
theorem strlen_eq (string : IsString mem s text) (long : text.length < fuel) :
    strlen mem fuel s = .ok text.length := by
  induction text generalizing s fuel with
  | nil =>
      cases fuel with
      | zero => cases long
      | succ fuel =>
          have zero : mem s = 0 := string.ended
          rw [strlen, if_pos zero]
          rfl
  | cons c text ih =>
      cases fuel with
      | zero => cases long
      | succ fuel =>
          have nonzero : mem s ≠ 0 := fun zero =>
            string.nonzero (zero ▸ string.holds.1 ▸ List.mem_cons_self)
          rw [strlen, if_neg nonzero, ih string.tail (Nat.lt_of_succ_lt_succ long)]
          rfl

/-- There are no more tokens than characters. -/
theorem length_tokens_le (text : List Byte) : (tokens text).length ≤ text.length := by
  fun_induction tokens text with
  | case1 => exact le_rfl
  | case2 c text _ ih => exact Nat.le_succ_of_le ih
  | case9 text _ _ _ _ _ _ _ _ ih =>
      rw [List.length_tail] at ih
      exact Nat.succ_le_succ (ih.trans (Nat.sub_le _ _))
  | case11 c text _ _ _ _ _ _ _ _ ih =>
      exact Nat.succ_le_succ (ih.trans (List.dropWhile_suffix plain).length_le)
  | _ => exact Nat.succ_le_succ ‹_›

theorem Reads.unique {es : ℕ} {ts ts' : List (Token (List Byte))} (reads : Reads mem es s ts)
    (reads' : Reads mem es s ts') : ts = ts' := by
  rcases reads with ⟨text, view, rfl⟩
  rcases reads' with ⟨text', view', rfl⟩
  rw [view.string.unique view'.string]

/-- The outcomes that are right for a text. -/
inductive Accepts (text : List Byte) : Except Stop (Cmd Slice × (ℕ → Byte)) → Prop
  /-- The tokens form a line. The command is the one that the grammar assigns to them, and its
  strings are their words. -/
  | returns {cmd : Cmd Slice} {mem : ℕ → Byte} {tree : Cmd (List Byte)}
    (derives : Derives .line (tokens text) tree)
      (strings : Cmd.Rel (fun x w => IsString mem x.q w) cmd tree)
      (only : ∀ tree', Derives .line (tokens text) tree' → tree' = tree) :
        Accepts text (.ok (cmd, mem))
  /-- The tokens do not form a line, and the parser panics. -/
  | panics {e : Stop} (ends : e ≠ .diverges) (noLine : ∀ tree, ¬Derives .line (tokens text) tree) :
      Accepts text (.error e)

/-- `parsecmd` returns on every string, with the command of the grammar, or else panics because
there is none. -/
theorem parsecmd_accepts (string : IsString mem s text) (plenty : 4 * text.length + 4 ≤ fuel) :
    Accepts text (parsecmd fuel s mem) := by
  have reads : Reads mem (s + text.length) s (tokens text) := ⟨text, ⟨string, rfl⟩, rfl⟩
  have sound := parser_sound fuel .line s (tokens text) reads
  have complete : ∀ tree, Derives .line (tokens text) tree →
      Meets (parseline mem (s + text.length) fuel) s (· = .diverges) fun cmd s' =>
        Reads mem (s + text.length) s' [] ∧ Spelled mem cmd tree := by
    intro tree derives
    rw [← List.append_nil (tokens text)] at reads
    exact derives.parses reads (.inl rfl)
  have long : enough .line (tokens text).length ≤ fuel := by
    have := length_tokens_le text
    simp only [enough]
    omega
  have measured : strlen mem fuel s = .ok text.length := strlen_eq string (by omega)
  have computed : parsecmd fuel s mem = (parseline mem (s + text.length) fuel s).bind fun r =>
      (peek mem (s + text.length) [] r.2).bind fun p =>
        if p.2 ≠ s + text.length then .error (.leftovers p.2)
          else .ok (r.1, nulterminate r.1 mem) := by
    rw [parsecmd, measured]
    rfl
  rw [computed]
  cases parsed : parseline mem (s + text.length) fuel s with
  | error e =>
      exact .panics (sound.of_error parsed long) fun tree derives =>
        sound.of_error parsed long ((complete tree derives).of_error parsed)
  | ok r =>
      rcases sound.of_ok parsed with ⟨us, tree, rest, whole, derives, reads₁, spelled⟩
      rcases (peek_meets (E := fun _ => False) reads₁ (List.nil_subset symbols)).returns
        (fun _ => id)
        with ⟨found, s₂, peeked, -, -, atEnd⟩
      simp only [Except.bind, peeked]
      by_cases ended : s₂ = s + text.length
      · rw [if_neg (not_not.mpr ended)]
        obtain rfl := atEnd.mp ended
        rw [List.append_nil] at whole
        refine .returns (whole ▸ derives) spelled.terminated fun tree' derives' => ?_
        have spelled' := ((complete tree' derives').of_ok parsed).2
        exact spelled'.terminated.unique spelled.terminated fun _ _ _ first second =>
          first.unique second
      · rw [if_pos ended]
        refine .panics (by rintro ⟨⟩) fun tree' derives' => ended (atEnd.mpr ?_)
        exact reads₁.unique ((complete tree' derives').of_ok parsed).1

/-- `a b>c|(d;e&)` -/
def pipeline : List Byte := [0x61, 0x20, 0x62, 0x3e, 0x63, 0x7c, 0x28, 0x64, 0x3b, 0x65, 0x26, 0x29]

/-- The text and a NUL at address 16. -/
def memoryOf (text : List Byte) (a : ℕ) : Byte := text.getD (a - 16) 0

theorem isString_pipeline : IsString (memoryOf pipeline) 16 pipeline where
  holds := by
    simp only [pipeline, Holds, and_true]
    decide
  ended := by decide
  nonzero := by decide

/-- A pipeline with a redirection. -/
theorem parsecmd_accepts_pipeline : Accepts pipeline (parsecmd 52 16 (memoryOf pipeline)) :=
  parsecmd_accepts isString_pipeline (by decide)

example : (parsecmd 52 16 (memoryOf pipeline)).toOption.map Prod.fst =
    some (.pipe (.redir (.exec [⟨16, 17⟩, ⟨18, 19⟩]) ⟨20, 21⟩ 0x201 1)
      (.list (.exec [⟨23, 24⟩]) (.back (.exec [⟨25, 26⟩])))) := by decide +kernel

end Xv6.User.Sh
