import Xv6.Ipc.Console
import Xv6.Lib.Runs

/-!
# The line discipline

What is typed becomes input when its line is committed. The ring holds what has been committed and
not been read, and after it what can still be edited.
-/

namespace Xv6.Ipc

/-! ## What is typed -/

/-- The committed input, and the line that is being edited. -/
structure Typed where
  committed : List Byte
  line : List Byte

/-- A character arrives while so many are pending. -/
def Typed.type (t : Typed) (heard : Byte × ℕ) : Typed :=
  let c := heard.1
  if c = 0 ∨ c = ctrlP then t
  else if c = ctrlU then { t with line := [] }
  else if c = ctrlH ∨ c = delete then { t with line := t.line.dropLast }
  else if heard.2 < INPUT_BUF then
    let line := t.line ++ [Input.translate c]
    -- A line is committed by its end, and when the buffer is full.
    if Input.translate c = newline ∨ Input.translate c = ctrlD ∨ heard.2 + 1 = INPUT_BUF then
      ⟨t.committed ++ line, []⟩
    else { t with line := line }
  else t

def typed (heard : List (Byte × ℕ)) : Typed := heard.foldl Typed.type ⟨[], []⟩

/-! ## The ring -/

namespace Input

variable {s : Input} {c : Byte}

/-- The number of characters that are pending, and of those that may be read. -/
def count (s : Input) : ℕ := (s.e - s.r).toNat
def ready (s : Input) : ℕ := (s.w - s.r).toNat

/-- The characters that are pending. -/
def pending (s : Input) : List Byte := Ring.slots s.buf s.r.toNat s.count

def unread (s : Input) : List Byte := s.pending.take s.ready
def line (s : Input) : List Byte := s.pending.drop s.ready

/-- The indices are in order. -/
structure Ordered (s : Input) : Prop where
  ready : s.ready ≤ s.count
  count : s.count ≤ INPUT_BUF

theorem length_pending : s.pending.length = s.count := Ring.length_slots

theorem unread_append_line : s.unread ++ s.line = s.pending := List.take_append_drop _ _

theorem ready_lt (ordered : s.Ordered) (some_ : s.e ≠ s.w) : s.ready < s.count := by
  refine lt_of_le_of_ne ordered.ready fun same => some_ ?_
  simp only [ready, count] at same
  bv_omega

/-- The last character that can be edited. -/
theorem pending_eq_append (some_ : 0 < s.count) :
    s.pending = ({ s with e := s.e - 1 } : Input).pending ++ [s.char (s.e - 1)] := by
  have fewer : s.count = ({ s with e := s.e - 1 } : Input).count + 1 := by
    simp only [count] at *
    bv_omega
  rw [pending, fewer, Ring.slots_succ, pending]
  refine congrArg (fun c => _ ++ [c]) (congrArg s.buf (Fin.ext ?_))
  change (s.r.toNat + (s.e - 1 - s.r).toNat) % INPUT_BUF = (s.e - 1).toNat % INPUT_BUF
  simp only [INPUT_BUF]
  bv_omega

/-- One character is erased. -/
theorem back (ordered : s.Ordered) (some_ : s.e ≠ s.w) :
    ({ s with e := s.e - 1 } : Input).Ordered ∧
      ({ s with e := s.e - 1 } : Input).unread = s.unread ∧
      s.line = ({ s with e := s.e - 1 } : Input).line ++ [s.char (s.e - 1)] := by
  have more := ready_lt ordered some_
  have fewer : ({ s with e := s.e - 1 } : Input).count + 1 = s.count := by
    simp only [count] at *
    bv_omega
  have split := pending_eq_append (s := s) (by omega)
  have same : ({ s with e := s.e - 1 } : Input).ready = s.ready := rfl
  have inside : s.ready ≤ ({ s with e := s.e - 1 } : Input).pending.length := by
    rw [length_pending]
    omega
  refine ⟨⟨?_, ?_⟩, ?_, ?_⟩
  · rw [same]
    omega
  · have := ordered.count
    omega
  · rw [unread, unread, split, same, List.take_append_of_le_length inside]
  · rw [line, line, split, same, List.drop_append_of_le_length inside]

/-- Kill-line erases what can be edited. -/
theorem killLine_eq {turns : ℕ} (ordered : s.Ordered) (plain : newline ∉ s.line)
    (enough : s.count - s.ready ≤ turns) :
    (killLine turns s).Ordered ∧ (killLine turns s).unread = s.unread ∧
      (killLine turns s).line = [] := by
  have done : s.count = s.ready → s.line = [] := by
    intro none
    rw [line, List.drop_eq_nil_iff, length_pending, none]
  induction turns generalizing s with
  | zero => exact ⟨ordered, rfl, done (by have := ordered.ready; omega)⟩
  | succ turns ih =>
      rw [killLine]
      by_cases none : s.e = s.w
      · rw [if_neg fun both => both.1 none]
        refine ⟨ordered, rfl, done ?_⟩
        rw [count, ready, none]
      · rcases back ordered none with ⟨ordered', unread, line⟩
        rw [line, List.mem_append, not_or, List.mem_singleton] at plain
        have fewer : ({ s with e := s.e - 1 } : Input).count -
            ({ s with e := s.e - 1 } : Input).ready ≤ turns := by
          have more := ready_lt ordered none
          simp only [count, ready] at *
          bv_omega
        have nothing : ({ s with e := s.e - 1 } : Input).count =
            ({ s with e := s.e - 1 } : Input).ready →
            ({ s with e := s.e - 1 } : Input).line = [] := by
          intro equal
          rw [Input.line, List.drop_eq_nil_iff, length_pending, equal]
        rcases ih ordered' plain.1 fewer nothing with ⟨ordered'', unread', line'⟩
        rw [if_pos ⟨none, Ne.symm plain.2⟩]
        exact ⟨ordered'', unread'.trans unread, line'⟩

/-- The input after a character has been appended. -/
def push (s : Input) (c : Byte) : Input :=
  { s with buf := Function.update s.buf (Fin.ofNat INPUT_BUF s.e.toNat) c, e := s.e + 1 }

/-- A character that is echoed is appended to the line that is being edited. -/
theorem push_eq (ordered : s.Ordered) (room : s.count < INPUT_BUF) (c : Byte) :
    (s.push c).Ordered ∧ (s.push c).unread = s.unread ∧ (s.push c).line = s.line ++ [c] ∧
      (s.push c).count = s.count + 1 := by
  have more : (s.push c).count = s.count + 1 := by
    simp only [count, push, INPUT_BUF] at *
    bv_omega
  have slot : Fin.ofNat INPUT_BUF s.e.toNat = Fin.ofNat INPUT_BUF (s.r.toNat + s.count) := by
    refine Fin.ext ?_
    change s.e.toNat % INPUT_BUF = (s.r.toNat + s.count) % INPUT_BUF
    simp only [count, INPUT_BUF]
    bv_omega
  have appended : (s.push c).pending = s.pending ++ [c] := by
    rw [pending, more]
    simp only [push, slot]
    exact Ring.slots_push room c
  have same : (s.push c).ready = s.ready := rfl
  have inside : s.ready ≤ s.pending.length := by
    rw [length_pending]
    exact ordered.ready
  refine ⟨⟨?_, ?_⟩, ?_, ?_, more⟩
  · rw [same, more]
    exact ordered.ready.trans (Nat.le_succ _)
  · rw [more]
    exact room
  · rw [unread, appended, same, List.take_append_of_le_length inside, unread]
  · rw [line, appended, same, List.drop_append_of_le_length inside, line]

/-- The line is committed. -/
theorem commit_eq (ordered : s.Ordered) : ({ s with w := s.e } : Input).Ordered ∧
    ({ s with w := s.e } : Input).unread = s.unread ++ s.line ∧
      ({ s with w := s.e } : Input).line = [] := by
  have all : ({ s with w := s.e } : Input).ready = s.count := rfl
  have same : ({ s with w := s.e } : Input).pending = s.pending := rfl
  refine ⟨⟨le_rfl, ordered.count⟩, ?_, ?_⟩
  · rw [unread, all, same, unread_append_line, List.take_of_length_le length_pending.le]
  · rw [line, all, same, List.drop_of_length_le length_pending.le]

/-- One character is read. -/
theorem pop_eq (ordered : s.Ordered) (some_ : s.r ≠ s.w) :
    ({ s with r := s.r + 1 } : Input).Ordered ∧
    s.unread = s.char s.r :: ({ s with r := s.r + 1 } : Input).unread ∧
      ({ s with r := s.r + 1 } : Input).line = s.line := by
  have positive : 0 < s.ready := by
    simp only [ready]
    bv_omega
  have fewerReady : ({ s with r := s.r + 1 } : Input).ready + 1 = s.ready := by
    simp only [ready] at *
    bv_omega
  have fewer : ({ s with r := s.r + 1 } : Input).count + 1 = s.count := by
    have := ordered.ready
    simp only [ready, count] at *
    bv_omega
  have first : s.pending = s.char s.r :: ({ s with r := s.r + 1 } : Input).pending := by
    rw [pending, ← fewer, Ring.slots_pop, pending]
    refine congrArg _ (Ring.slots_congr ?_)
    simp only [INPUT_BUF]
    bv_omega
  refine ⟨⟨?_, ?_⟩, ?_, ?_⟩
  · have := ordered.ready
    omega
  · have := ordered.count
    omega
  · rw [unread, first, ← fewerReady, List.take_succ_cons, unread]
  · rw [line, line, first, ← fewerReady, List.drop_succ_cons]

/-- A character does to the ring what it does to what is typed. -/
theorem intr_eq (ordered : s.Ordered) (plain : newline ∉ s.line) (c : Byte) :
    (s.intr c).Ordered ∧ newline ∉ (s.intr c).line ∧ ∃ more, (s.intr c).unread = s.unread ++ more ∧
      ∀ committed, Typed.type ⟨committed, s.line⟩ (c, s.count) =
        ⟨committed ++ more, (s.intr c).line⟩ := by
  have same : ∀ committed : List Byte, (⟨committed, s.line⟩ : Typed) = ⟨committed ++ [], s.line⟩ :=
    fun committed => by rw [List.append_nil]
  rw [intr]
  by_cases isP : c = ctrlP
  · rw [if_pos isP]
    refine ⟨ordered, plain, [], (List.append_nil _).symm, fun committed => ?_⟩
    rw [Typed.type, if_pos (.inr isP)]
    exact same committed
  rw [if_neg isP]
  by_cases isU : c = ctrlU
  · have enough : s.count - s.ready ≤ (s.e - s.w).toNat := by
      have := ordered.ready
      simp only [count, ready] at *
      bv_omega
    have notNul : ¬(c = 0 ∨ c = ctrlP) := by
      rw [isU]
      decide
    rcases killLine_eq ordered plain enough with ⟨ordered', unread, line⟩
    rw [if_pos isU, line]
    refine ⟨ordered', List.not_mem_nil, [], unread.trans (List.append_nil _).symm,
      fun committed => ?_⟩
    rw [Typed.type, if_neg notNul, if_pos isU, List.append_nil]
  rw [if_neg isU]
  by_cases erases : c = ctrlH ∨ c = delete
  · have notNul : ¬(c = 0 ∨ c = ctrlP) := by
      rcases erases with rfl | rfl
      all_goals decide
    rw [if_pos erases]
    by_cases none : s.e = s.w
    · have nothing : s.line = [] := by
        rw [line, List.drop_eq_nil_iff, length_pending, count, ready, none]
      rw [if_neg (not_not.mpr none)]
      refine ⟨ordered, plain, [], (List.append_nil _).symm, fun committed => ?_⟩
      rw [Typed.type, if_neg notNul, if_neg isU, if_pos erases, nothing, List.append_nil]
      rfl
    · rcases back ordered none with ⟨ordered', unread, line⟩
      rw [if_pos none]
      rw [line, List.mem_append, not_or] at plain
      refine ⟨ordered', plain.1, [], unread.trans (List.append_nil _).symm, fun committed => ?_⟩
      rw [Typed.type, if_neg notNul, if_neg isU, if_pos erases, line, List.append_nil]
      exact congrArg (Typed.mk committed) (List.dropLast_concat ..)
  rw [if_neg erases]
  by_cases accepted : c ≠ 0 ∧ (s.e - s.r).toNat < INPUT_BUF
  · rcases push_eq ordered accepted.2 (translate c) with ⟨ordered', unread', line', count'⟩
    have full : (s.push (translate c)).e = (s.push (translate c)).r + BitVec.ofNat 32 INPUT_BUF ↔
        s.count + 1 = INPUT_BUF := by
      rw [← count']
      simp only [count, INPUT_BUF]
      constructor
      · intro equal
        bv_omega
      · intro equal
        bv_omega
    have notNul : ¬(c = 0 ∨ c = ctrlP) := fun either => either.elim accepted.1 isP
    have room : s.count < INPUT_BUF := accepted.2
    have typedAs : ∀ committed, Typed.type ⟨committed, s.line⟩ (c, s.count) =
        if translate c = newline ∨ translate c = ctrlD ∨ s.count + 1 = INPUT_BUF then
          ⟨committed ++ (s.line ++ [translate c]), []⟩
            else ⟨committed, s.line ++ [translate c]⟩ := by
      intro committed
      rw [Typed.type, if_neg notNul, if_neg isU, if_neg erases, if_pos room]
    rw [if_pos accepted]
    by_cases ends : translate c = newline ∨ translate c = ctrlD ∨ s.count + 1 = INPUT_BUF
    · have result : (if translate c = newline ∨ translate c = ctrlD ∨
          (s.push (translate c)).e = (s.push (translate c)).r + BitVec.ofNat 32 INPUT_BUF then
          ({ s.push (translate c) with w := (s.push (translate c)).e } : Input)
          else s.push (translate c)) =
          { s.push (translate c) with w := (s.push (translate c)).e } := if_pos (by rwa [full])
      rcases commit_eq ordered' with ⟨ordered'', unread'', line''⟩
      refine result ▸ ⟨ordered'', ?_, s.line ++ [translate c], ?_, fun committed => ?_⟩
      · rw [line'']
        exact List.not_mem_nil
      · rw [unread'', unread', line']
      · rw [typedAs, if_pos ends, line'']
    · have result : (if translate c = newline ∨ translate c = ctrlD ∨
          (s.push (translate c)).e = (s.push (translate c)).r + BitVec.ofNat 32 INPUT_BUF then
          ({ s.push (translate c) with w := (s.push (translate c)).e } : Input)
          else s.push (translate c)) =
          s.push (translate c) := if_neg (by rwa [full])
      refine result ▸ ⟨ordered', ?_, [], ?_, fun committed => ?_⟩
      · rw [line', List.mem_append, not_or, List.mem_singleton]
        exact ⟨plain, fun same => ends (.inl same.symm)⟩
      · rw [unread', List.append_nil]
      · rw [typedAs, if_neg ends, line', List.append_nil]
  · rw [if_neg accepted]
    refine ⟨ordered, plain, [], (List.append_nil _).symm, fun committed => ?_⟩
    by_cases isNul : c = 0 ∨ c = ctrlP
    · rw [Typed.type, if_pos isNul]
      exact same committed
    · have full : ¬s.count < INPUT_BUF := fun room => accepted ⟨fun nul => isNul (.inl nul), room⟩
      rw [Typed.type, if_neg isNul, if_neg isU, if_neg erases, if_neg full]
      exact same committed

end Input

/-! ## Reading -/

section Reading

variable {s : Input} {killed : Bool} {target n : ℕ}

/-- What a stretch of `consoleread` makes of the unread input: it takes off `passed`, of which it
stores all but a control-D, and a control-D makes it return 0. It goes on only if it has taken
everything. -/
structure Reads (s : Input) (target : ℕ) (stretch : ReadStretch) (passed : List Byte) : Prop where
  ordered : stretch.input.Ordered
  line : stretch.input.line = s.line
  unread : s.unread = passed ++ stretch.input.unread
  bytes : stretch.bytes = passed.filter (· ≠ ctrlD)
  zero : (if 0 < target ∧ stretch.result = some 0 then 1 else 0) = passed.count ctrlD
  goesOn : ∀ n, stretch.asleep = some n → n ≤ target ∧ ctrlD ∉ s.unread ∧ stretch.bytes = s.unread

/-- The read ends here, without a control-D. -/
theorem Reads.stop (ordered : s.Ordered) {v : ℤ} (nonzero : ¬(0 < target ∧ v = 0)) :
    Reads s target ⟨s, [], none, some v⟩ [] where
  ordered := ordered
  line := rfl
  unread := rfl
  bytes := rfl
  zero := if_neg fun both => nonzero ⟨both.1, Option.some.inj both.2⟩
  goesOn := nofun

/-- The loop of `consoleread` takes characters from the head of the finished lines. -/
theorem readLoop_reads (killed : Bool) (ordered : s.Ordered) (below : n ≤ target) :
    ∃ passed, Reads s target (readLoop killed target n s) passed := by
  induction n generalizing s with
  | zero =>
      refine ⟨[], .stop ordered ?_⟩
      rintro ⟨positive, zero⟩
      omega
  | succ n ih =>
      rw [readLoop]
      by_cases empty : s.r = s.w
      · have none : s.unread = [] := by
          rw [Input.unread, Input.ready, empty, BitVec.sub_self]
          rfl
        rw [if_pos empty]
        cases killed with
        | true => exact ⟨[], .stop ordered (by omega)⟩
        | false =>
            rw [if_neg Bool.false_ne_true]
            refine ⟨[], ordered, rfl, rfl, rfl,
              if_neg fun both => Option.some_ne_none _ both.2.symm, fun m asleep => ?_⟩
            cases asleep
            rw [none]
            exact ⟨below, List.not_mem_nil, rfl⟩
      · rcases Input.pop_eq ordered empty with ⟨ordered', unread, line⟩
        rw [if_neg empty]
        by_cases eof : s.char s.r = ctrlD
        · by_cases later : n + 1 < target
          · have back : ({ s with r := s.r + 1 - 1 } : Input) = s := by rw [BitVec.add_sub_cancel]
            simp only [if_pos eof, if_pos later, back]
            exact ⟨[], .stop ordered (by omega)⟩
          · simp only [if_pos eof, if_neg later]
            rw [eof] at unread
            refine ⟨[ctrlD], ordered', line, unread, rfl, ?_, nofun⟩
            have whole : ((target : ℤ) - (n + 1 : ℕ)) = 0 := by omega
            rw [whole]
            exact if_pos ⟨by omega, rfl⟩
        · simp only [if_neg eof]
          have kept : ∀ passed : List Byte, (s.char s.r :: passed).filter (· ≠ ctrlD) =
              s.char s.r :: passed.filter (· ≠ ctrlD) :=
                fun passed => List.filter_cons_of_pos (decide_eq_true eof)
          have counted : ∀ passed : List Byte, (s.char s.r :: passed).count ctrlD =
              passed.count ctrlD :=
            fun passed => List.count_cons_of_ne eof
          by_cases ends : s.char s.r = newline
          · rw [if_pos ends]
            refine ⟨[s.char s.r], ordered', line, unread, (kept []).symm, ?_, nofun⟩
            rw [counted]
            refine if_neg fun both => ?_
            have value := Option.some.inj both.2
            omega
          · rw [if_neg ends]
            rcases ih ordered' (by omega) with ⟨passed, reads⟩
            refine ⟨s.char s.r :: passed, reads.ordered, reads.line.trans line, ?_, ?_, ?_,
              fun m asleep => ?_⟩
            · rw [unread, reads.unread]
              rfl
            · rw [kept, ← reads.bytes]
            · rw [counted, ← reads.zero]
            · rcases reads.goesOn m asleep with ⟨less, noEof, all⟩
              rw [unread]
              refine ⟨less, List.not_mem_cons_of_ne_of_not_mem (Ne.symm eof) noEof, ?_⟩
              rw [← all]

end Reading

/-! ## Runs -/

/-- What holds whenever `cons.lock` is free, when so many committed characters have been read. -/
structure Disciplined (s : Console) (passed : List Byte) : Prop where
  ordered : s.input.Ordered
  plain : newline ∉ s.input.line
  typed : typed s.heard = ⟨passed ++ s.input.unread, s.input.line⟩
  stored : s.stored = passed.filter (· ≠ ctrlD)
  zeros : s.zeros = passed.count ctrlD
  waiting : ∀ p target n, s.waiting p = some (target, n) → n ≤ target

section Runs

variable {s s' : Console} {passed : List Byte}

theorem Disciplined.init : Disciplined .init [] where
  ordered := ⟨le_rfl, Nat.zero_le _⟩
  plain := List.not_mem_nil
  typed := rfl
  stored := rfl
  zeros := rfl
  waiting := nofun

/-- A character from the keyboard changes nothing that has been read. -/
theorem Disciplined.hear (disciplined : Disciplined s passed) (c : Byte) :
    Disciplined (s.hear c) passed := by
  rcases Input.intr_eq disciplined.ordered disciplined.plain c
    with ⟨ordered, plain, more, unread, types⟩
  refine ⟨ordered, plain, ?_, disciplined.stored, disciplined.zeros, disciplined.waiting⟩
  have before := disciplined.typed
  rw [Ipc.typed] at before
  rw [Ipc.typed, Console.hear, List.foldl_append, before]
  refine (types _).trans ?_
  rw [List.append_assoc, ← unread]

/-- A `consoleread` continues with what has been passed. -/
theorem Disciplined.reads {p target n : ℕ} {killed : Bool} (disciplined : Disciplined s passed)
    (below : n ≤ target) :
    ∃ passed', Disciplined (s.reads killed p target n) passed' := by
  rcases readLoop_reads killed disciplined.ordered below with ⟨more, reads⟩
  refine ⟨passed ++ more, reads.ordered, ?_, ?_, ?_, ?_, fun q target' n' waits => ?_⟩
  · change newline ∉ (readLoop killed target n s.input).input.line
    rw [reads.line]
    exact disciplined.plain
  · change Ipc.typed s.heard =
      ⟨_ ++ (readLoop killed target n s.input).input.unread,
      (readLoop killed target n s.input).input.line⟩
    rw [List.append_assoc, ← reads.unread, reads.line, disciplined.typed]
  · rw [List.filter_append, ← reads.bytes, ← disciplined.stored]
    rfl
  · rw [List.count_append, ← reads.zero, ← disciplined.zeros]
    change (if _ then s.zeros + 1 else s.zeros) = _
    split
    · rfl
    · rfl
  · by_cases same : q = p
    · subst same
      change Function.update s.waiting q _ q = _ at waits
      rw [Function.update_self] at waits
      rcases Option.map_eq_some_iff.mp waits with ⟨m, asleep, equal⟩
      cases equal
      exact (reads.goesOn _ asleep).1
    · change Function.update s.waiting p _ q = _ at waits
      rw [Function.update_of_ne same] at waits
      exact disciplined.waiting q target' n' waits

/-- Every event keeps the discipline. -/
theorem Disciplined.step {event : ConsoleEvent} (disciplined : Disciplined s passed)
    (stepped : consoleStep s event = some s') : ∃ passed', Disciplined s' passed' := by
  cases event with
  | consoleintr cs =>
      cases stepped
      refine ⟨passed, ?_⟩
      induction cs generalizing s with
      | nil => exact disciplined
      | cons c cs ih => exact ih (disciplined.hear c)
  | consoleread p n killed =>
      rw [consoleStep] at stepped
      split at stepped
      · cases stepped
        exact disciplined.reads le_rfl
      · cases stepped
  | resume p killed =>
      rw [consoleStep] at stepped
      split at stepped
      · cases stepped
      next target n waits =>
        cases stepped
        exact disciplined.reads (disciplined.waiting p target n waits)

theorem Disciplined.run (events : List ConsoleEvent)
    (done : events.foldlM consoleStep .init = some s) :
    ∃ passed, Disciplined s passed := by
  refine Runs.invariant_of_run (I := fun s => ∃ passed, Disciplined s passed) ?_
    (Runs.run_of_foldlM events done) ⟨[], .init⟩
  rintro s s' ⟨event, stepped⟩ ⟨passed, disciplined⟩
  exact disciplined.step stepped

/-- The line discipline: the indices are in order, the bytes that readers get are the committed
input in order without its control-Ds, and a control-D stops the read that meets it, and makes one
read return 0. -/
theorem line_discipline (events : List ConsoleEvent) (s : Console)
    (done : events.foldlM consoleStep .init = some s) :
    (s.input.w - s.input.r).toNat ≤ (s.input.e - s.input.r).toNat ∧
      (s.input.e - s.input.r).toNat ≤ INPUT_BUF ∧
    (∃ k, s.stored = ((typed s.heard).committed.take k).filter (· ≠ ctrlD) ∧
      s.zeros = ((typed s.heard).committed.take k).count ctrlD ∧
      k + (s.input.w - s.input.r).toNat = (typed s.heard).committed.length) ∧
    ∀ killed target n, n ≤ target → (readLoop killed target n s.input).asleep ≠ none →
      ctrlD ∉ s.input.unread ∧ (readLoop killed target n s.input).bytes = s.input.unread := by
  rcases Disciplined.run events done with ⟨passed, disciplined⟩
  refine ⟨disciplined.ordered.ready, disciplined.ordered.count, ⟨passed.length, ?_⟩,
    fun killed target n below goesOn => ?_⟩
  · have all : (typed s.heard).committed = passed ++ s.input.unread :=
      congrArg Typed.committed disciplined.typed
    rw [all, List.take_left]
    refine ⟨disciplined.stored, disciplined.zeros, ?_⟩
    rw [List.length_append, Input.unread, List.length_take, Input.length_pending]
    exact congrArg (passed.length + ·) (Nat.min_eq_left disciplined.ordered.ready).symm
  · rcases readLoop_reads killed disciplined.ordered below with ⟨_, reads⟩
    rcases Option.ne_none_iff_exists'.mp goesOn with ⟨m, asleep⟩
    exact (reads.goesOn m asleep).2

/-- "a", control-D and "b" with its end are typed, and read in three reads. -/
theorem line_discipline_eof :
    ∃ s, [ConsoleEvent.consoleread 1 9 false, .consoleintr [0x61, 4], .resume 1 false,
      .consoleread 1 9 false, .consoleintr [0x63, 8, 0x62, 13], .consoleread 1 9 false].foldlM
        consoleStep .init = some s ∧
    s.stored = [0x61, 0x62, 10] ∧ s.zeros = 1 ∧ (s.input.e - s.input.r).toNat ≤ INPUT_BUF := by
  have outcome : ([ConsoleEvent.consoleread 1 9 false, .consoleintr [0x61, 4], .resume 1 false,
      .consoleread 1 9 false, .consoleintr [0x63, 8, 0x62, 13], .consoleread 1 9 false].foldlM
      consoleStep .init).map
        (fun s => (s.stored, s.zeros)) = some ([0x61, 0x62, 10], 1) := by decide +kernel
  rcases Option.map_eq_some_iff.mp outcome with ⟨s, done, value⟩
  rw [Prod.mk.injEq] at value
  exact ⟨s, done, value.1, value.2, (line_discipline _ s done).2.1⟩

end Runs

end Xv6.Ipc
