import Xv6.Fs.Block

/-!
# The log under the file system

The file system calls `log_write` in a transaction that `begin_op` has opened. The log
takes these calls one after the other, and panics at the first one for which its header
has no room, or that is made outside of a transaction. A function of the file system
returns if it does so itself and the log takes all its calls.

The test of `log_write` comes before the search for a listed block, so a header that is
full refuses even a block that is listed already.
-/

namespace Xv6.Fs

open Prog

/-- The block that a call of `log_write` logs. -/
def Call.logs : Call → Option ℕ
  | .logWrite b _ => some b
  | .bread _ | .brelse _ | .bwrite _ _ => none

/-- The blocks logged by a list of calls, in order. -/
def logged (calls : List Call) : List ℕ := calls.filterMap Call.logs

/-- The log as `log_write` finds it: `log.size`, `log.lh` and `log.outstanding`. -/
structure OpenLog where
  size : ℕ
  lh : List ℕ
  outstanding : ℕ

namespace OpenLog

/-- The number of blocks that the header may list. -/
def limit (log : OpenLog) : ℕ := min LOGSIZE (log.size - 1)

/-- `log_write` of block `b`. -/
def logWrite (log : OpenLog) (b : ℕ) : Except Panic OpenLog :=
  if log.lh.length ≥ LOGSIZE ∨ log.lh.length ≥ log.size - 1 then .error .tooBig
  else if log.outstanding < 1 then .error .outsideTrans
  else
    -- Log absorption: a block that is already listed is not listed again.
    .ok { log with lh := if b ∈ log.lh then log.lh else log.lh ++ [b] }

/-- The log takes the calls of a function one after the other. -/
def takes (log : OpenLog) : List Call → Except Panic OpenLog
  | [] => .ok log
  | .logWrite b _ :: calls =>
      match log.logWrite b with
      | .ok log => log.takes calls
      | .error e => .error e
  | .bread _ :: calls | .brelse _ :: calls | .bwrite _ _ :: calls => log.takes calls

end OpenLog

/-- The file system and the log. -/
structure OpenSt where
  fs : St
  log : OpenLog

/-- A function of the file system while the log takes its calls. -/
def inLog {α : Type} (m : FsM α) : Prog OpenSt Panic α := fun s =>
  match m { s.fs with calls := [] } with
  | .error e => .error e
  | .ok (a, fs) =>
      match s.log.takes fs.calls with
      | .error e => .error e
      | .ok log => .ok (a, ⟨{ fs with calls := s.fs.calls ++ fs.calls }, log⟩)

theorem inLog_ok {α : Type} {m : FsM α} {s : OpenSt} {a : α} {fs : St} {log : OpenLog}
    (returned : m { s.fs with calls := [] } = .ok (a, fs))
    (taken : s.log.takes fs.calls = .ok log) :
    inLog m s = .ok (a, ⟨{ fs with calls := s.fs.calls ++ fs.calls }, log⟩) := by
  simp only [inLog, returned, taken]

/-- A call that returns has passed the tests of every `log_write`. -/
theorem ok_of_inLog {α : Type} {m : FsM α} {s s' : OpenSt} {a : α}
    (returned : inLog m s = .ok (a, s')) : ∃ fs, m { s.fs with calls := [] } = .ok (a, fs) ∧
      s.log.takes fs.calls = .ok s'.log ∧ s'.fs = { fs with calls := s.fs.calls ++ fs.calls } := by
  unfold inLog at returned
  split at returned
  next => cases returned
  next a' fs ran =>
    split at returned
    next => cases returned
    next log taken =>
      cases returned
      exact ⟨fs, ran, taken, rfl⟩

/-- The function returns, and the log takes its calls. -/
theorem meets_inLog {α : Type} {m : FsM α} {s : OpenSt} {E : Panic → Prop} {Q : α → OpenSt → Prop}
    (meets : Meets m { s.fs with calls := [] } E fun a fs =>
      ∀ log, Q a ⟨{ fs with calls := s.fs.calls ++ fs.calls }, log⟩)
    (taken : ∀ a fs, m { s.fs with calls := [] } = .ok (a, fs) →
      ∃ log, s.log.takes fs.calls = .ok log) :
    Meets (inLog m) s E Q := by
  unfold Meets inLog
  cases outcome : m { s.fs with calls := [] } with
  | error e =>
      rw [Meets, outcome] at meets
      exact meets
  | ok r =>
      rcases taken r.1 r.2 outcome with ⟨log, taken⟩
      simp only [taken]
      exact meets.of_ok outcome log

namespace OpenLog

variable {log log' : OpenLog} {calls calls' : List Call} {b : ℕ}

theorem lt_limit : log.lh.length < log.limit ↔
    ¬(log.lh.length ≥ LOGSIZE ∨ log.lh.length ≥ log.size - 1) := by
  rw [limit, lt_min_iff]
  omega

theorem logWrite_ok (room : log.lh.length < log.limit) (inTrans : 1 ≤ log.outstanding) :
    log.logWrite b = .ok { log with lh := if b ∈ log.lh then log.lh else log.lh ++ [b] } := by
  rw [logWrite, if_neg (lt_limit.mp room), if_neg (Nat.not_lt.mpr inTrans)]

/-- A `log_write` that returns has found room, and has noted the block once. -/
theorem ok_of_logWrite (taken : log.logWrite b = .ok log') : log.lh.length < log.limit ∧
    log' = { log with lh := if b ∈ log.lh then log.lh else log.lh ++ [b] } := by
  by_cases full : log.lh.length ≥ LOGSIZE ∨ log.lh.length ≥ log.size - 1
  · rw [logWrite, if_pos full] at taken
    cases taken
  · rw [logWrite, if_neg full] at taken
    by_cases outside : log.outstanding < 1
    · rw [if_pos outside] at taken
      cases taken
    · rw [if_neg outside] at taken
      cases taken
      exact ⟨lt_limit.mpr full, rfl⟩

/-- Calls that log nothing need no transaction. -/
theorem takes_of_logged_nil (none : logged calls = []) : log.takes calls = .ok log := by
  induction calls with
  | nil => rfl
  | cons call calls ih =>
      cases call with
      | logWrite b data => cases none
      | bread b => exact ih none
      | brelse b => exact ih none
      | bwrite b data => exact ih none

/--
The last call finds room if the blocks that are logged before it do. Nothing else is asked
of it: its own block may be the one that fills the header.
-/
theorem takes_of_card (inTrans : 1 ≤ log.outstanding)
    (room : log.lh.length + ((logged calls).dropLast.toFinset \ log.lh.toFinset).card < log.limit) :
    ∃ log', log.takes calls = .ok log' := by
  induction calls generalizing log with
  | nil => exact ⟨log, rfl⟩
  | cons call calls ih =>
      cases call with
      | bread b => exact ih inTrans room
      | brelse b => exact ih inTrans room
      | bwrite b data => exact ih inTrans room
      | logWrite b data =>
          have first := logWrite_ok (b := b) (by omega : log.lh.length < log.limit) inTrans
          simp only [takes, first]
          by_cases last : logged calls = []
          · exact ⟨_, takes_of_logged_nil last⟩
          · refine ih inTrans ?_
            have before : (logged (.logWrite b data :: calls)).dropLast =
                b :: (logged calls).dropLast := List.dropLast_cons_of_ne_nil last
            rw [before, List.toFinset_cons] at room
            by_cases listed : b ∈ log.lh
            · rw [Finset.insert_sdiff_of_mem _ (List.mem_toFinset.mpr listed)] at room
              simpa only [if_pos listed] using! room
            · rw [Finset.insert_sdiff_of_notMem _ (mt List.mem_toFinset.mp listed)] at room
              simp only [if_neg listed, limit, List.length_append, List.length_singleton,
                List.toFinset_append, List.toFinset_cons, List.toFinset_nil] at room ⊢
              have fewer : (logged calls).dropLast.toFinset \ (log.lh.toFinset ∪ {b}) =
                  ((logged calls).dropLast.toFinset \ log.lh.toFinset).erase b := by
                ext b'
                simp only [Finset.mem_sdiff, Finset.mem_union, Finset.mem_singleton,
                  Finset.mem_erase]
                tauto
              have more : (insert b ((logged calls).dropLast.toFinset \ log.lh.toFinset)).card =
                  (((logged calls).dropLast.toFinset \ log.lh.toFinset).erase b).card + 1 := by
                rw [← Finset.card_erase_add_one (Finset.mem_insert_self b _),
                  Finset.erase_insert_eq_erase]
              rw [more] at room
              change _ + (_ \ (log.lh.toFinset ∪ insert b ∅)).card < min LOGSIZE (log.size - 1)
              rw [insert_empty_eq, fewer]
              omega

/-- A full header takes nothing. -/
theorem logged_nil_of_takes (taken : log.takes calls = .ok log')
    (full : log.limit ≤ log.lh.length) : logged calls = [] := by
  induction calls with
  | nil => rfl
  | cons call calls ih =>
      cases call with
      | bread b => exact ih taken
      | brelse b => exact ih taken
      | bwrite b data => exact ih taken
      | logWrite b data =>
          rw [takes] at taken
          split at taken
          next log₁ first => exact absurd (ok_of_logWrite first).1 (Nat.not_lt.mpr full)
          next => cases taken

/-- A header within its limit stays so, and lists what has been logged. -/
theorem of_takes (taken : log.takes calls = .ok log') (short : log.lh.length ≤ log.limit) :
    log'.lh.length ≤ log.limit ∧ (∀ b ∈ log.lh, b ∈ log'.lh) ∧ ∀ b ∈ logged calls, b ∈ log'.lh := by
  induction calls generalizing log with
  | nil =>
      cases taken
      exact ⟨short, fun _ mem => mem, fun _ impossible => by cases impossible⟩
  | cons call calls ih =>
      cases call with
      | bread b => exact ih taken short
      | brelse b => exact ih taken short
      | bwrite b data => exact ih taken short
      | logWrite b data =>
          rw [takes] at taken
          split at taken
          next log₁ first =>
            rcases ok_of_logWrite first with ⟨room, rfl⟩
            have short₁ : (if b ∈ log.lh then log.lh else log.lh ++ [b]).length ≤ log.limit := by
              split
              · exact short
              · rw [List.length_append, List.length_singleton]
                exact room
            have kept : ∀ b' ∈ log.lh, b' ∈ (if b ∈ log.lh then log.lh else log.lh ++ [b]) := by
              intro b' mem
              split
              · exact mem
              · exact List.mem_append_left _ mem
            have here : b ∈ (if b ∈ log.lh then log.lh else log.lh ++ [b]) := by
              split
              · assumption
              · simp
            rcases ih taken short₁ with ⟨short', kept', later⟩
            refine ⟨short', fun b' mem => kept' b' (kept b' mem), fun b' mem => ?_⟩
            rcases List.mem_cons.mp mem with rfl | mem
            · exact kept' _ here
            · exact later b' mem
          next => cases taken

/-- Calls that log more blocks than the header may list are not taken. -/
theorem not_takes_of_card (many : log.limit < (logged calls).toFinset.card) (log' : OpenLog) :
    log.takes calls ≠ .ok log' := by
  intro taken
  by_cases short : log.lh.length ≤ log.limit
  · rcases of_takes taken short with ⟨short', _, listed⟩
    have sub : (logged calls).toFinset ⊆ log'.lh.toFinset := by
      intro b mem
      exact List.mem_toFinset.mpr (listed b (List.mem_toFinset.mp mem))
    have count := Finset.card_le_card sub
    have length := log'.lh.toFinset_card_le
    omega
  · have some : logged calls ≠ [] := by
      intro none
      rw [none] at many
      exact absurd many (Nat.not_lt_zero _)
    exact some (logged_nil_of_takes taken (Nat.not_le.mp short).le)

end OpenLog

end Xv6.Fs
