import Xv6.Lib.Strings
import Xv6.User.Grammar

/-!
# The tokens that the shell reads

`peek` and `gettoken` in terms of the tokens that are left from the pointer on. The parser needs
nothing else of memory.
-/

namespace Xv6.User.Sh

open Prog Strings

/-- What `gettoken` returns for a token. -/
def Token.code {S : Type} : Token S → Byte
  | .word _ => letterA
  | .bar => Sh.bar
  | .left => leftParen
  | .right => rightParen
  | .semi => semicolon
  | .amp => ampersand
  | .less => Sh.less
  | .greater => Sh.greater
  | .append => plusSign

/-- The first character of a token that is not a word. -/
def Token.op {S : Type} : Token S → Option Byte
  | .word _ => none
  | .append => some Sh.greater
  | t => some t.code

/-- The first of the tokens is an operator that begins with one of these characters. -/
def starts {S : Type} (toks : List Byte) : List (Token S) → Bool
  | [] => false
  | t :: _ => t.op.any (· ∈ toks)

/-- The slice holds the word, and no word goes on at its end. -/
structure Spells (mem : ℕ → Byte) (x : Slice) (w : List Byte) : Prop where
  holds : Holds mem x.q w
  eq : x.eq = x.q + w.length
  letters : ∀ c ∈ w, c ≠ 0 ∧ plain c = true
  ended : mem x.eq = 0 ∨ plain (mem x.eq) = false

/-- The rest of the string is at `s`, and it ends at `es`. -/
structure View (mem : ℕ → Byte) (es s : ℕ) (text : List Byte) : Prop where
  string : IsString mem s text
  ends : es = s + text.length

/-- These tokens are left at `s`. -/
def Reads (mem : ℕ → Byte) (es s : ℕ) (ts : List (Token (List Byte))) : Prop :=
  ∃ text, View mem es s text ∧ tokens text = ts

variable {mem : ℕ → Byte} {es s : ℕ} {text : List Byte} {c : Byte} {ts : List (Token (List Byte))}
  {t : Token (List Byte)} {E : Stop → Prop}

/-- `strchr` finds a character of the set. -/
theorem among_eq {set : List Byte} (nonzero : 0 ∉ set) : among c set = decide (c ∈ set) := by
  unfold among
  induction set with
  | nil => rfl
  | cons b set ih =>
      rw [List.mem_cons, not_or] at nonzero
      rw [strchr, if_neg (Ne.symm nonzero.1)]
      by_cases here : b = c
      · subst here
        simp
      · rw [if_neg here, Option.isSome_map, ih nonzero.2]
        simp [Ne.symm here]

theorem among_whitespace : (among · whitespace) = blank := funext fun _ => among_eq (by decide)

theorem letter_eq : (fun c => !among c whitespace && !among c symbols) = plain := by
  funext c
  rw [among_eq (by decide), among_eq (by decide), plain]
  simp

theorem View.tail (view : View mem es s (c :: text)) : View mem es (s + 1) text where
  string := view.string.tail
  ends := by
    rw [view.ends, List.length_cons]
    omega

/-- The pointer is advanced over the characters that pass the test. -/
theorem View.advanced (view : View mem es s text) (test : Byte → Bool) :
    advance mem test (es - s) s = s + (text.takeWhile test).length ∧
      View mem es (advance mem test (es - s) s) (text.dropWhile test) := by
  induction text generalizing s with
  | nil =>
      have left : es - s = 0 := by
        rw [view.ends, List.length_nil]
        omega
      rw [left]
      exact ⟨rfl, view⟩
  | cons c text ih =>
      have left : es - s = es - (s + 1) + 1 := by
        rw [view.ends, List.length_cons]
        omega
      rw [left, advance, view.string.holds.1, List.takeWhile_cons, List.dropWhile_cons]
      cases passes : test c with
      | false => exact ⟨rfl, view⟩
      | true =>
          rcases ih view.tail with ⟨stopped, view'⟩
          refine ⟨?_, view'⟩
          rw [if_pos rfl, if_pos rfl, stopped, List.length_cons]
          omega

theorem tokens_blank (space : blank c = true) : tokens (c :: text) = tokens text := by
  rw [tokens, if_pos space]

theorem tokens_dropWhile (text : List Byte) : tokens (text.dropWhile blank) = tokens text := by
  induction text with
  | nil => rfl
  | cons c text ih =>
      rw [List.dropWhile_cons]
      cases space : blank c with
      | true => rw [if_pos rfl, ih, tokens_blank space]
      | false => rfl

/-- Skipping white space leaves the tokens; what is left begins with a token. -/
theorem Reads.skip (reads : Reads mem es s ts) : ∃ text,
    View mem es (advance mem (among · whitespace) (es - s) s) text ∧ tokens text = ts ∧
      (text.head?.all fun c => !blank c) = true := by
  rcases reads with ⟨text, view, rfl⟩
  rw [among_whitespace]
  refine ⟨text.dropWhile blank, (view.advanced blank).2, tokens_dropWhile text, ?_⟩
  have first := List.head?_dropWhile_not blank text
  cases rest : (text.dropWhile blank).head? with
  | none => rfl
  | some c =>
      rw [rest] at first
      simpa using first

/-- A word ends at a blank or a symbol. -/
theorem View.word (view : View mem es s (c :: text)) (letter : plain c = true) :
    View mem es (advance mem (fun c => !among c whitespace && !among c symbols) (es - s) s)
        (text.dropWhile plain) ∧
      Spells mem ⟨s, advance mem (fun c => !among c whitespace && !among c symbols) (es - s) s⟩
        (c :: text.takeWhile plain) := by
  rw [letter_eq]
  rcases view.advanced plain with ⟨stopped, view'⟩
  rw [List.dropWhile_cons, if_pos letter] at view'
  rw [List.takeWhile_cons, if_pos letter] at stopped
  have whole : c :: text = (c :: text.takeWhile plain) ++ text.dropWhile plain := by
    rw [List.cons_append, List.takeWhile_append_dropWhile]
  refine ⟨view', (holds_append.mp (whole ▸ view.string.holds)).1, stopped, ?_, ?_⟩
  · intro d mem
    refine ⟨fun zero => view.string.nonzero ?_, ?_⟩
    · rw [whole]
      exact List.mem_append_left _ (zero ▸ mem)
    · rcases List.mem_cons.mp mem with rfl | mem
      · exact letter
      · exact List.all_eq_true.mp List.all_takeWhile d mem
  · have next := view'.string.next
    have first := List.head?_dropWhile_not plain text
    cases rest : text.dropWhile plain with
    | nil =>
        rw [rest] at next
        exact .inl next
    | cons d rest' =>
        rw [rest] at next first
        refine .inr ?_
        rw [next]
        simpa using first

/-- `gettoken` reads the first token of a text that begins with one. -/
structure Scanned (mem : ℕ → Byte) (es s : ℕ) (text : List Byte) (t : Token (List Byte))
    (left : List Byte) : Prop where
  tokens : tokens text = t :: tokens left
  code : (scan mem es s).1 = t.code
  view : View mem es (scan mem es s).2 left
  word : ∀ w, t = .word w → Spells mem ⟨s, (scan mem es s).2⟩ w

/-- An operator of one character is a token. -/
theorem scan_operator (view : View mem es s (c :: text)) (code : t.code = c)
    (noWord : ∀ w, t ≠ .word w) (tokens : tokens (c :: text) = t :: tokens text)
    (scanned : scan mem es s = (c, s + 1)) :
    Scanned mem es s (c :: text) t text where
  tokens := tokens
  code := by rw [scanned, code]
  view := by
    rw [scanned]
    exact view.tail
  word := fun w same => absurd same (noWord w)

/-- The next token is scanned. -/
theorem View.scanned (view : View mem es s (c :: text)) (dark : blank c = false) :
    ∃ t left, Scanned mem es s (c :: text) t left ∧ t.op = if c ∈ symbols then some c
      else none := by
  have first : mem s = c := view.string.holds.1
  have nonzero : c ≠ 0 := fun zero => view.string.nonzero (zero ▸ List.mem_cons_self)
  have dark' : ¬blank c = true := Bool.eq_false_iff.mp dark
  by_cases symbol : c ∈ symbols
  · rw [if_pos symbol]
    simp only [symbols, List.mem_cons, List.not_mem_nil, or_false] at symbol
    rcases symbol with rfl | rfl | rfl | rfl | rfl | rfl | rfl
    · exact ⟨.less, text, scan_operator view rfl (fun _ same => by cases same) (by rw [tokens]; rfl)
        (by rw [scan, first]; rfl), rfl⟩
    · exact ⟨.bar, text, scan_operator view rfl (fun _ same => by cases same) (by rw [tokens]; rfl)
        (by rw [scan, first]; rfl), rfl⟩
    · by_cases twice : text.head? = some greater
      · cases text with
        | nil => cases twice
        | cons d text =>
            obtain rfl : d = greater := Option.some.inj twice
            have second : mem (s + 1) = greater := view.string.holds.2.1
            refine ⟨.append, text, ⟨by rw [tokens]; rfl, ?_, ?_, fun _ same => by cases same⟩, rfl⟩
            · rw [scan, first, second]
              rfl
            · have scanned : scan mem es s = (plusSign, s + 2) := by
                rw [scan, first, second]
                rfl
              rw [scanned]
              exact view.tail.tail
      · have second : mem (s + 1) ≠ greater := by
          rw [view.tail.string.next]
          cases text with
          | nil => decide
          | cons d text => exact fun same => twice (congrArg some same)
        refine ⟨.greater, text, scan_operator view rfl (fun _ same => by cases same) ?_ ?_, rfl⟩
        · rw [tokens, if_neg dark', if_neg (by decide), if_neg (by decide), if_neg (by decide),
            if_neg (by decide),
            if_neg (by decide), if_neg (by decide), if_pos rfl, if_neg twice]
        · rw [scan, first]
          simp only [if_neg second]
          rfl
    · exact ⟨.amp, text, scan_operator view rfl (fun _ same => by cases same) (by rw [tokens]; rfl)
        (by rw [scan, first]; rfl), rfl⟩
    · exact ⟨.semi, text, scan_operator view rfl (fun _ same => by cases same) (by rw [tokens]; rfl)
        (by rw [scan, first]; rfl), rfl⟩
    · exact ⟨.left, text, scan_operator view rfl (fun _ same => by cases same) (by rw [tokens]; rfl)
        (by rw [scan, first]; rfl), rfl⟩
    · exact ⟨.right, text, scan_operator view rfl (fun _ same => by cases same)
        (by rw [tokens]; rfl) (by rw [scan, first]; rfl), rfl⟩
  · rw [if_neg symbol]
    have letter : plain c = true := by
      rw [plain, decide_eq_true_iff]
      exact ⟨fun space => dark' (decide_eq_true space), symbol⟩
    have token : tokens (c :: text) = .word (c :: text.takeWhile plain) ::
        tokens (text.dropWhile plain) := by
      rw [tokens, if_neg dark']
      simp only [symbols, List.mem_cons, List.not_mem_nil, or_false, not_or] at symbol
      simp [symbol]
    have scanned : scan mem es s =
        (letterA, advance mem (fun c => !among c whitespace && !among c symbols) (es - s) s) := by
      simp only [symbols, List.mem_cons, List.not_mem_nil, or_false, not_or] at symbol
      rw [scan, first]
      simp only [nonzero, symbol, or_self, if_false]
    rcases view.word letter with ⟨view', spells⟩
    refine ⟨.word (c :: text.takeWhile plain), text.dropWhile plain, ⟨token, ?_, ?_, ?_⟩, rfl⟩
    · rw [scanned]
      rfl
    · rwa [scanned]
    · intro w same
      rw [scanned, ← Token.word.inj same]
      exact spells

/-! ## What the parser needs -/

theorem tokens_nil : tokens [] = [] := by rw [tokens]

/-- `peek` tells whether one of the operators comes next, and that nothing does if the string is at
its end. -/
theorem peek_meets (reads : Reads mem es s ts) {toks : List Byte} (operators : toks ⊆ symbols) :
    Meets (peek mem es toks) s E fun found s' =>
      found = starts toks ts ∧ Reads mem es s' ts ∧ (s' = es ↔ ts = []) := by
  rcases reads.skip with ⟨text, view, rfl, first⟩
  refine meets_ok rfl ⟨?_, ⟨text, view, rfl⟩, ?_⟩
  · rw [view.string.next]
    cases text with
    | nil => rw [tokens_nil]; rfl
    | cons c text =>
        rcases view.scanned (by simpa using first) with ⟨t, left, scanned, op⟩
        have nonzero : c ≠ 0 := fun zero => view.string.nonzero (zero ▸ List.mem_cons_self)
        have zero : (0 : Byte) ∉ toks := fun mem => absurd (operators mem) (by decide)
        rw [scanned.tokens, starts, op, List.headD_cons, among_eq zero, decide_eq_true nonzero,
          Bool.true_and]
        split
        next => rfl
        next plain =>
          rw [Option.any_none, decide_eq_false fun mem => plain (operators mem)]
  · have ends := view.ends
    cases text with
    | nil => exact iff_of_true ends.symm tokens_nil
    | cons c text =>
        rcases view.scanned (by simpa using first) with ⟨t, left, scanned, op⟩
        rw [scanned.tokens]
        refine iff_of_false (fun same => ?_) (List.cons_ne_nil _ _)
        rw [same, List.length_cons] at ends
        omega

theorem gettoken_eq {q eq : ℕ} {ret : Byte}
    (start : advance mem (among · whitespace) (es - s) s = q)
    (scanned : scan mem es q = (ret, eq)) :
    gettoken mem es s = .ok (⟨ret, ⟨q, eq⟩⟩, advance mem (among · whitespace) (es - eq) eq) := by
  have computed : gettoken mem es s =
      let q := advance mem (among · whitespace) (es - s) s
      let r := scan mem es q
      .ok (⟨r.1, ⟨q, r.2⟩⟩, advance mem (among · whitespace) (es - r.2) r.2) := rfl
  simp only [computed, start, scanned]

/-- `gettoken` returns 0 at the end. -/
theorem gettoken_nil (reads : Reads mem es s []) :
    Meets (gettoken mem es) s E fun x s' => x.ret = 0 ∧ Reads mem es s' [] := by
  rcases reads.skip with ⟨text, view, none, first⟩
  cases text with
  | nil =>
      have scanned : scan mem es (advance mem (among · whitespace) (es - s) s) =
          (0, advance mem (among · whitespace) (es - s) s) := by
        rw [scan, view.string.next]
        rfl
      have again : Reads mem es (advance mem (among · whitespace) (es - s) s) [] :=
        ⟨[], view, tokens_nil⟩
      rcases again.skip with ⟨text, view, none, _⟩
      exact meets_ok (gettoken_eq rfl scanned) ⟨rfl, text, view, none⟩
  | cons c text =>
      rcases view.scanned (by simpa using first) with ⟨t, left, scanned, _⟩
      rw [scanned.tokens] at none
      cases none

/-- `gettoken` returns the next token, with its word. -/
theorem gettoken_cons (reads : Reads mem es s (t :: ts)) : Meets (gettoken mem es) s E fun x s' =>
    x.ret = t.code ∧ Reads mem es s' ts ∧ ∀ w, t = .word w → Spells mem x.slice w := by
  rcases reads.skip with ⟨text, view, whole, first⟩
  cases text with
  | nil =>
      rw [tokens_nil] at whole
      cases whole
  | cons c text =>
      rcases view.scanned (by simpa using first) with ⟨t', left, scanned, _⟩
      rw [scanned.tokens] at whole
      cases whole
      have reads' : Reads mem es _ (tokens left) := ⟨left, scanned.view, rfl⟩
      rcases reads'.skip with ⟨text', view', same, _⟩
      exact meets_ok (gettoken_eq rfl rfl) ⟨scanned.code, ⟨text', view', same⟩, scanned.word⟩

end Xv6.User.Sh
