import Xv6.Lib.Bytes
import Xv6.Lib.Lines

/-!
# grep

`grep.c` of part2. A run is determined by what the successive calls of `read` return. If a read
brings no newline, `grep` takes the line to be too long and throws away what it has of it, so a line
that arrives in pieces loses its beginning.
-/

namespace Xv6.User

open Lines (lines rest)

/-! ## Matching -/

def caret : Byte := 0x5e
def star : Byte := 0x2a
def dollar : Byte := 0x24
def dot : Byte := 0x2e
def newline : Byte := 0x0a

/-- `matchstar`: search for `c*re` at beginning of text, with `matchhere(re, ·)`. -/
def matchstar (here : List Byte → Bool) (c : Byte) : List Byte → Bool
  | [] => here []
  | b :: text => here (b :: text) || (b = c || c = dot) && matchstar here c text

/-- Search for `re` at beginning of text. -/
def matchhere : List Byte → List Byte → Bool
  | [], _ => true
  | [c], text =>
      if c = dollar then text = []
      else
        match text with
        | [] => false
        | b :: _ => c = dot || c = b
  | c :: d :: re, text =>
      if d = star then matchstar (matchhere re) c text
      else
        match text with
        | [] => false
        | b :: text => (c = dot || c = b) && matchhere (d :: re) text

/-- The loop of `match` over the rest of the text. -/
def matchFrom (re : List Byte) : List Byte → Bool
  | [] => matchhere re []
  | b :: text => matchhere re (b :: text) || matchFrom re text

/-- `match(re, text)` -/
def matchRe (re text : List Byte) : Bool :=
  match re with
  | [] => matchFrom [] text
  | c :: re => if c = caret then matchhere re text else matchFrom (c :: re) text

/-! ## The main loop -/

/-- The offset of the first `c`. -/
def strchr (c : Byte) : List Byte → Option ℕ
  | [] => none
  | b :: s => if b = 0 then none else if b = c then some 0 else (strchr c s).map (· + 1)

/-- The loop over the lines in the buffer: what is written, and the text at `p` in the end. As many
turns as there are bytes are enough. -/
def scanLines (pattern : List Byte) : ℕ → List Byte → List Byte × List Byte
  | 0, p => ([], p)
  | turns + 1, p =>
      match strchr newline p with
      | none => ([], p)
      | some q =>
          let written := if matchRe pattern (p.take q) then p.take (q + 1) else []
          let (out, left) := scanLines pattern turns (p.drop (q + 1))
          (written ++ out, left)

/-- The bytes that stay in the buffer, of which there are `m`. -/
def carryOver (buf p : List Byte) : List Byte :=
  let m := if p.length = buf.length then 0 else buf.length
  if m > 0 then p else []

/-- The loop over the reads, with the first `m` bytes of the buffer; what is written. -/
def grepLoop (pattern : List Byte) : List Byte → List (List Byte) → List Byte
  | _, [] => []
  | kept, chunk :: reads =>
      let buf := kept ++ chunk
      let (out, p) := scanLines pattern buf.length buf
      out ++ grepLoop pattern (carryOver buf p) reads

def grep (pattern : List Byte) (reads : List (List Byte)) : List Byte := grepLoop pattern [] reads

/-- What the calls of `read` may return: at least one byte, and at most as many as there is room
for. -/
def Delivered : List Byte → List (List Byte) → Prop
  | _, [] => True
  | kept, chunk :: reads =>
      0 < chunk.length ∧ chunk.length ≤ 1024 - kept.length - 1 ∧
        Delivered (carryOver (kept ++ chunk)
          (scanLines [] (kept ++ chunk).length (kept ++ chunk)).2) reads

/-! ## What a pattern means -/

/-- The pattern, without a caret, matches at the beginning of the text. -/
inductive Here : List Byte → List Byte → Prop
  | done {text : List Byte} : Here [] text
  | star {c : Byte} {re s text : List Byte} (repeated : ∀ b ∈ s, b = c ∨ c = dot)
    (after : Here re text) :
      Here (c :: star :: re) (s ++ text)
  | eol : Here [dollar] []
  | char {c b : Byte} {re text : List Byte} (single : re.head? ≠ some User.star)
    (notEol : ¬(c = dollar ∧ re = []))
      (same : c = dot ∨ c = b) (after : Here re text) : Here (c :: re) (b :: text)

/-- The pattern matches the text: somewhere, or at the beginning if there is a caret. -/
def Matches (re text : List Byte) : Prop :=
  if re.head? = some caret then Here re.tail text else ∃ t, t <:+ text ∧ Here re t

section Matching

variable {re text : List Byte} {c : Byte}

/-- A star takes any number of characters. -/
theorem matchstar_iff {here : List Byte → Bool} : matchstar here c text = true ↔
    ∃ s t, text = s ++ t ∧ (∀ b ∈ s, b = c ∨ c = dot) ∧ here t = true := by
  induction text with
  | nil =>
      constructor
      · intro found
        exact ⟨[], [], rfl, nofun, found⟩
      · rintro ⟨s, t, whole, _, found⟩
        rcases List.append_eq_nil_iff.mp whole.symm with ⟨rfl, rfl⟩
        exact found
  | cons b text ih =>
      rw [matchstar, Bool.or_eq_true, Bool.and_eq_true, ih, Bool.or_eq_true, decide_eq_true_iff,
        decide_eq_true_iff]
      constructor
      · rintro (now | ⟨first, s, t, rfl, repeated, found⟩)
        · exact ⟨[], b :: text, rfl, nofun, now⟩
        · refine ⟨b :: s, t, rfl, ?_, found⟩
          rw [List.forall_mem_cons]
          exact ⟨first, repeated⟩
      · rintro ⟨s, t, whole, repeated, found⟩
        cases s with
        | nil =>
            rw [List.nil_append] at whole
            rw [whole]
            exact .inl found
        | cons b' s =>
            rw [List.cons_append, List.cons.injEq] at whole
            rw [List.forall_mem_cons] at repeated
            rw [whole.1]
            exact .inr ⟨repeated.1, s, t, whole.2, repeated.2, found⟩

theorem matchhere_singleton (c : Byte) (text : List Byte) : matchhere [c] text =
    if c = dollar then decide (text = []) else
      match text with
      | [] => false
      | b :: _ => c = dot || c = b := rfl

theorem matchhere_cons_cons (c d : Byte) (re text : List Byte) : matchhere (c :: d :: re) text =
    if d = star then matchstar (matchhere re) c text else
      match text with
      | [] => false
      | b :: text => (c = dot || c = b) && matchhere (d :: re) text := rfl

theorem matchhere_iff : ∀ re text, matchhere re text = true ↔ Here re text
  | [], text => iff_of_true rfl .done
  | [c], text => by
      rw [matchhere_singleton]
      by_cases eol : c = dollar
      · subst eol
        rw [if_pos rfl, decide_eq_true_iff]
        constructor
        · rintro rfl
          exact .eol
        · intro here
          cases here with
          | eol => rfl
          | char _ notEol => exact absurd ⟨rfl, rfl⟩ notEol
      · rw [if_neg eol]
        cases text with
        | nil =>
            refine iff_of_false Bool.false_ne_true fun here => ?_
            cases here with
            | eol => exact eol rfl
        | cons b text =>
            simp only [Bool.or_eq_true, decide_eq_true_iff]
            constructor
            · exact fun same => .char nofun (fun both => eol both.1) same .done
            · intro here
              cases here with
              | char _ _ same => exact same
  | c :: d :: re, text => by
      rw [matchhere_cons_cons]
      by_cases isStar : d = star
      · subst isStar
        rw [if_pos rfl, matchstar_iff]
        constructor
        · rintro ⟨s, t, rfl, repeated, found⟩
          exact .star repeated ((matchhere_iff re t).mp found)
        · intro here
          cases here with
          | star repeated after => exact ⟨_, _, rfl, repeated, (matchhere_iff re _).mpr after⟩
          | char single => exact absurd rfl single
      · rw [if_neg isStar]
        cases text with
        | nil =>
            refine iff_of_false Bool.false_ne_true fun here => ?_
            generalize empty : ([] : List Byte) = text at here
            cases here with
            | star => exact isStar rfl
            | char => cases empty
        | cons b text =>
            simp only [Bool.and_eq_true, Bool.or_eq_true, decide_eq_true_iff,
              matchhere_iff (d :: re) text]
            constructor
            · rintro ⟨same, after⟩
              exact .char (fun first => isStar (Option.some.inj first))
                (fun both => List.cons_ne_nil _ _ both.2) same after
            · intro here
              generalize whole : b :: text = t at here
              cases here with
              | star => exact absurd rfl isStar
              | char _ _ same after =>
                  cases whole
                  exact ⟨same, after⟩

/-- The expression matches at some suffix. -/
theorem matchFrom_iff : matchFrom re text = true ↔ ∃ t, t <:+ text ∧ Here re t := by
  induction text with
  | nil =>
      rw [matchFrom, matchhere_iff]
      constructor
      · exact fun here => ⟨[], List.suffix_refl [], here⟩
      · rintro ⟨t, suffix, here⟩
        rwa [List.suffix_nil.mp suffix] at here
  | cons b text ih =>
      rw [matchFrom, Bool.or_eq_true, matchhere_iff, ih]
      constructor
      · rintro (here | ⟨t, suffix, here⟩)
        · exact ⟨b :: text, List.suffix_refl _, here⟩
        · exact ⟨t, suffix.trans (List.suffix_cons b text), here⟩
      · rintro ⟨t, suffix, here⟩
        rcases List.suffix_cons_iff.mp suffix with rfl | later
        · exact .inl here
        · exact .inr ⟨t, later, here⟩

/-- The functions decide what the pattern means. -/
theorem matchRe_iff : matchRe re text = true ↔ Matches re text := by
  cases re with
  | nil => exact matchFrom_iff
  | cons c re =>
      rw [matchRe, Matches, List.head?_cons]
      by_cases anchored : c = caret
      · rw [if_pos anchored, if_pos (congrArg some anchored), matchhere_iff]
        rfl
      · rw [if_neg anchored, if_neg fun same => anchored (Option.some.inj same), matchFrom_iff]

instance : Decidable (Matches re text) := decidable_of_iff _ matchRe_iff

end Matching

/-! ## Lines -/

/-- The lines that match, with their newlines. -/
def printed (pattern s : List Byte) : List Byte :=
  ((lines newline s).filter fun line => Matches pattern line).flatMap (· ++ [newline])

/-- Each read that brings something of a line with a newline brings a newline. -/
def WholeLines : List (List Byte) → Prop
  | [] => True
  | chunk :: reads => (newline ∈ chunk ∨ newline ∉ reads.flatten) ∧ WholeLines reads

section Loop

variable {pattern p s t kept chunk : List Byte} {reads : List (List Byte)} {turns : ℕ}

theorem strchr_of_notMem (plain : newline ∉ p) : strchr newline p = none := by
  induction p with
  | nil => rfl
  | cons b p ih =>
      rw [List.mem_cons, not_or] at plain
      rw [strchr, if_neg (Ne.symm plain.1), ih plain.2]
      exact ite_self _

theorem strchr_line (plain : newline ∉ s) (noNul : 0 ∉ s) (t : List Byte) :
    strchr newline (s ++ newline :: t) = some s.length := by
  induction s with
  | nil => rfl
  | cons b s ih =>
      rw [List.mem_cons, not_or] at plain noNul
      rw [List.cons_append, strchr, if_neg (Ne.symm noNul.1), if_neg (Ne.symm plain.1),
        ih plain.2 noNul.2]
      rfl

theorem printed_append (pattern s t : List Byte) :
    printed pattern (s ++ t) = printed pattern s ++ printed pattern (rest newline s ++ t) := by
  rw [printed, Lines.lines_append, List.filter_append, List.flatMap_append]
  rfl

theorem printed_of_notMem (plain : newline ∉ s) : printed pattern s = [] := by
  rw [printed, Lines.lines_of_notMem plain]
  rfl

/-- The inner loop prints the lines of the buffer that match. -/
theorem scanLines_eq (pattern : List Byte) (noNul : 0 ∉ p) (enough : p.length ≤ turns) :
    scanLines pattern turns p = (printed pattern p, rest newline p) := by
  induction turns generalizing p with
  | zero =>
      rw [List.length_eq_zero_iff.mp (Nat.le_zero.mp enough)]
      rfl
  | succ turns ih =>
      rcases Lines.cases_line newline p with plain | ⟨line, t, plain, rfl⟩
      · rw [scanLines, strchr_of_notMem plain, printed_of_notMem plain, Lines.rest_of_notMem plain]
      · rw [List.mem_append, not_or, List.mem_cons, not_or] at noNul
        rw [List.length_append, List.length_cons] at enough
        have next := ih noNul.2.2 (by omega)
        have taken : (line ++ newline :: t).take (line.length + 1) = line ++ [newline] := by
          rw [List.take_append, List.take_of_length_le (Nat.le_succ _), Nat.add_sub_cancel_left]
          rfl
        have left : (line ++ newline :: t).drop (line.length + 1) = t := by
          rw [← List.drop_drop, List.drop_left]
          rfl
        rw [scanLines, strchr_line plain noNul.1]
        simp only [left, next, taken, List.take_left]
        rw [Lines.rest_append_cons plain, printed, printed, Lines.lines_append_cons plain,
          List.filter_cons]
        by_cases found : matchRe pattern line = true
        · rw [if_pos found, if_pos (decide_eq_true (matchRe_iff.mp found)), List.flatMap_cons]
        · rw [if_neg found, if_neg fun here =>
            found (matchRe_iff.mpr (of_decide_eq_true here)), List.nil_append]

/-- What stays in the buffer is the beginning of the next line, unless there has been no newline. -/
theorem carryOver_eq (s : List Byte) :
    carryOver s (rest newline s) = if newline ∈ s then rest newline s else [] := by
  rcases Lines.cases_line newline s with plain | ⟨line, t, plain, rfl⟩
  · rw [if_neg plain, Lines.rest_of_notMem plain, carryOver]
    simp
  · have shorter : (rest newline (line ++ newline :: t)).length <
        (line ++ newline :: t).length := by
      have length := Lines.length_lines newline t
      rw [Lines.rest_append_cons plain, List.length_append, List.length_cons]
      omega
    rw [if_pos (List.mem_append_right _ List.mem_cons_self), carryOver]
    simp only [if_neg shorter.ne]
    exact if_pos ((Nat.zero_le _).trans_lt shorter)

/-- One turn of the outer loop. -/
theorem grepLoop_cons (noNul : 0 ∉ kept ++ chunk) : grepLoop pattern kept (chunk :: reads) =
    printed pattern (kept ++ chunk) ++
      grepLoop pattern (if newline ∈ kept ++ chunk then rest newline (kept ++ chunk) else [])
        reads := by
  rw [grepLoop]
  simp only [scanLines_eq pattern noNul le_rfl, carryOver_eq]

theorem rest_subset {b : Byte} (mem : b ∈ rest newline s) : b ∈ s := by
  induction s using Lines.line_induction newline with
  | plain s none => rwa [Lines.rest_of_notMem none] at mem
  | cons line s none ih =>
      rw [Lines.rest_append_cons none] at mem
      exact List.mem_append_right _ (List.mem_cons_of_mem _ (ih mem))

/-- If the reads bring whole lines, the lines that match are printed. -/
theorem grepLoop_of_wholeLines (plain : newline ∉ kept) (noNul : 0 ∉ kept ++ reads.flatten)
    (whole : WholeLines reads) :
    grepLoop pattern kept reads = printed pattern (kept ++ reads.flatten) := by
  induction reads generalizing kept with
  | nil =>
      rw [List.flatten_nil, List.append_nil, printed_of_notMem plain]
      rfl
  | cons chunk reads ih =>
      rw [List.flatten_cons, ← List.append_assoc] at noNul ⊢
      rw [List.mem_append, not_or] at noNul
      rw [grepLoop_cons noNul.1]
      by_cases line : newline ∈ kept ++ chunk
      · rw [if_pos line, printed_append pattern (kept ++ chunk),
          ih (Lines.sep_notMem_rest _) ?_ whole.2]
        exact fun zero => (List.mem_append.mp zero).elim
          (fun early => noNul.1 (rest_subset early)) noNul.2
      · have none : newline ∉ reads.flatten :=
          whole.1.resolve_left fun here => line (List.mem_append_right _ here)
        rw [if_neg line, ih List.not_mem_nil noNul.2 whole.2, List.nil_append,
          printed_append pattern (kept ++ chunk), printed_of_notMem line,
          printed_of_notMem none, printed_of_notMem, List.append_nil]
        rw [Lines.rest_of_notMem line]
        exact fun mem => (List.mem_append.mp mem).elim line none

/-- The empty pattern prints every line. -/
theorem length_printed_nil (s : List Byte) :
    (printed [] s).length + (rest newline s).length = s.length := by
  have all : (lines newline s).filter (fun line => Matches [] line) = lines newline s := by
    refine List.filter_eq_self.mpr fun line _ => decide_eq_true ?_
    exact ⟨line, List.suffix_refl line, .done⟩
  rw [printed, all, List.length_flatMap, ← Lines.length_lines newline s]
  simp

/-- With the empty pattern as much as possible is printed only if the reads bring whole lines. -/
theorem wholeLines_of_length (plain : newline ∉ kept) (noNul : 0 ∉ kept ++ reads.flatten)
    (some_ : ∀ chunk ∈ reads, chunk ≠ []) :
    (grepLoop [] kept reads).length ≤ (printed [] (kept ++ reads.flatten)).length ∧
      ((printed [] (kept ++ reads.flatten)).length ≤ (grepLoop [] kept reads).length →
        WholeLines reads) := by
  induction reads generalizing kept with
  | nil => exact ⟨Nat.zero_le _, fun _ => trivial⟩
  | cons chunk reads ih =>
      rw [List.forall_mem_cons] at some_
      rw [List.flatten_cons, ← List.append_assoc] at noNul ⊢
      rw [List.mem_append, not_or] at noNul
      rw [grepLoop_cons noNul.1, List.length_append]
      by_cases line : newline ∈ kept ++ chunk
      · have here : newline ∈ chunk := (List.mem_append.mp line).resolve_left plain
        have noNul' : 0 ∉ rest newline (kept ++ chunk) ++ reads.flatten :=
          fun zero => (List.mem_append.mp zero).elim
            (fun early => noNul.1 (rest_subset early)) noNul.2
        rcases ih (Lines.sep_notMem_rest _) noNul' some_.2 with ⟨below, whole⟩
        rw [if_pos line, printed_append [] (kept ++ chunk), List.length_append]
        exact ⟨Nat.add_le_add_left below _,
          fun above => ⟨.inl here, whole (Nat.le_of_add_le_add_left above)⟩⟩
      · rcases ih List.not_mem_nil noNul.2 some_.2 with ⟨below, whole⟩
        rw [List.nil_append] at below whole
        have total := length_printed_nil (kept ++ chunk ++ reads.flatten)
        have later := length_printed_nil reads.flatten
        have positive := List.length_pos_iff.mpr some_.1
        rw [List.length_append, List.length_append] at total
        rw [if_neg line, printed_of_notMem line, List.length_nil, Nat.zero_add]
        by_cases more : newline ∈ reads.flatten
        · rw [Lines.rest_append more] at total
          exact ⟨by omega, fun above => absurd above (by omega)⟩
        · have none : (printed [] (kept ++ chunk ++ reads.flatten)).length = 0 := by
            rw [printed_of_notMem fun mem => (List.mem_append.mp mem).elim line more]
            rfl
          rw [printed_of_notMem more, List.length_nil] at below whole
          exact ⟨by omega, fun above => ⟨.inr more, whole (Nat.zero_le _)⟩⟩

theorem Delivered.positive (delivered : Delivered kept reads) : ∀ chunk ∈ reads, chunk ≠ [] := by
  induction reads generalizing kept with
  | nil => exact fun _ mem => absurd mem List.not_mem_nil
  | cons chunk reads ih => exact List.forall_mem_cons.mpr ⟨List.length_pos_iff.mp delivered.1,
    ih delivered.2.2⟩

/-- `grep` prints the lines that match, whatever the pattern, if and only if no line that ends in a
newline arrives with a read that has no newline. -/
theorem grep_iff (delivered : Delivered [] reads) (noNul : 0 ∉ reads.flatten) :
    (∀ pattern, grep pattern reads = printed pattern reads.flatten) ↔ WholeLines reads := by
  constructor
  · intro right
    have noNul' : 0 ∉ [] ++ reads.flatten := noNul
    exact (wholeLines_of_length List.not_mem_nil noNul' delivered.positive).2
      (congrArg List.length (right [])).ge
  · exact fun whole pattern => grepLoop_of_wholeLines List.not_mem_nil noNul whole

/-- "a", a newline and "b" arrive, then a newline. -/
theorem grep_iff_two :
    grep [0x62] [[0x61, 0x0a, 0x62], [0x0a]] = printed [0x62] [0x61, 0x0a, 0x62, 0x0a] := by
  have delivered : Delivered [] [[0x61, 0x0a, 0x62], [0x0a]] :=
    ⟨by decide, by decide, by decide, by decide, trivial⟩
  exact (grep_iff delivered (by decide)).mpr ⟨.inl (by decide), .inl (by decide), trivial⟩ [0x62]

/-- Of "ab" the "a" arrives first. -/
theorem grep_split : ¬∀ pattern reads reads', Delivered [] reads → Delivered [] reads' →
    reads.flatten = reads'.flatten → 0 ∉ reads.flatten →
    (∀ line ∈ rest newline reads.flatten :: lines newline reads.flatten, line.length < 1023) →
    grep pattern reads = grep pattern reads' ∧
      grep pattern reads = printed pattern reads.flatten := by
  intro same
  have outputs := same [0x61] [[0x61], [0x62, 0x0a]] [[0x61, 0x62, 0x0a]]
    ⟨by decide, by decide, by decide, by decide, trivial⟩ ⟨by decide, by decide, trivial⟩ rfl
      (by decide) (by decide)
  exact absurd outputs.1 (by decide)

end Loop

end Xv6.User
