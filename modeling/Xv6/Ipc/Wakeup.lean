import Xv6.Ipc.Locked

/-!
# Lost wakeups

With the lock free, a sleeping process has nothing to do: a reader sleeps on an empty pipe
that can still be written, a writer on a full pipe that can still be read. The invariant
that carries this says what the holder of the lock still owes: whoever sleeps without
reason is going to be woken up before the lock is free again.

`pipewrite` breaks the promise where it finds the pipe full and gives up, because it has
been killed or the reading end is closed: it returns without `wakeup(&p->nread)`, although
it may have filled the pipe itself since a reader went to sleep.
-/

namespace Xv6.Ipc.Locked

open Relation

/-- A process that sleeps on the channel has to wait. -/
def Chan.Waits (p : Pipe) : Chan → Prop
  | .nread => p.nread = p.nwrite ∧ p.writeopen
  | .nwrite => p.nwrite = p.nread + BitVec.ofNat 32 PIPESIZE ∧ p.readopen

/-- No wakeup has been lost. -/
def World.NoLost (w : World) : Prop :=
  w.lock = none → ∀ q chan next, w.pc q = .asleep chan next → chan.Waits w.pipe

namespace Held

/-- What the tests on the way to a statement have found. -/
def Fact (p : Pipe) : Held → Prop
  | .writeFull _ _ => p.nwrite = p.nread + BitVec.ofNat 32 PIPESIZE
  | .writeWakeup _ _ | .writeSleep _ _ => Chan.nwrite.Waits p
  | .readEmpty _ | .readSleep _ => Chan.nread.Waits p
  | _ => True

/-- Every way on from the statement, but one, comes to a `wakeup` of the channel. -/
def Promises : Held → Chan → Prop
  | .writeTest _ _, chan | .writeFull _ _, chan | .writeWakeup _ _, chan | .writeDone _,
    chan => chan = .nread
  | .readCopy _ _, chan | .readDone _, chan => chan = .nwrite
  | .closeWakeup writable, chan => chan = if writable then .nread else .nwrite
  | _, _ => False

end Held

/-- The early return of `pipewrite` is harmless while no reader sleeps. -/
def Harmless (w : World) (q : ℕ) : Held → Prop
  | .writeFull _ _ => w.pipe.readopen = false ∨ w.killed q → ∀ r next, w.pc r ≠ .asleep .nread next
  | _ => True

structure Orderly (w : World) : Prop where
  /-- Only the holder of the lock carries out statements. -/
  locked : ∀ q next, w.pc q = .holds next → w.lock = some q
  fact : ∀ q next, w.pc q = .holds next → next.Fact w.pipe
  /-- Whoever waits for the lock starts a test, or a call, anew. -/
  entering : ∀ q next, w.pc q = .acquire next → ∀ p, next.Fact p
  resuming : ∀ q chan next, w.pc q = .asleep chan next → ∀ p, next.Fact p
  sleepers : ∀ q chan next, w.pc q = .asleep chan next →
    chan.Waits w.pipe ∨ ∃ holder stmt, w.pc holder = .holds stmt ∧ stmt.Promises chan

/-- The other processes go on as they were, or are woken up. -/
def Others (q : ℕ) (w w' : World) : Prop :=
  ∀ r ≠ q, w'.pc r = w.pc r ∨ ∃ chan next, w.pc r = .asleep chan next ∧ w'.pc r = .acquire next

namespace World

variable {w : World} {q r : ℕ} {next : Held} {chan c : Chan} {pc : Pc}

@[simp] theorem goto_pc_self : (w.goto q next).pc q = .holds next := by
  simp [goto]

theorem goto_pc_of_ne (other : r ≠ q) : (w.goto q next).pc r = w.pc r := by
  simp [goto, other]

@[simp] theorem goto_pipe : (w.goto q next).pipe = w.pipe := rfl

@[simp] theorem goto_lock : (w.goto q next).lock = w.lock := rfl

@[simp] theorem wakeup_pipe : (w.wakeup chan).pipe = w.pipe := rfl

@[simp] theorem wakeup_lock : (w.wakeup chan).lock = w.lock := rfl

theorem others_goto : Others q w (w.goto q next) := by
  intro r other
  exact Or.inl (goto_pc_of_ne other)

theorem others_wakeup_goto : Others q w ((w.wakeup chan).goto q next) := by
  intro r other
  rw [goto_pc_of_ne other]
  cases before : w.pc r with
  | asleep c stmt =>
      by_cases woken : c = chan
      · exact Or.inr ⟨c, stmt, rfl, by simp [wakeup, before, woken]⟩
      · exact Or.inl (by simp [wakeup, before, woken])
  | _ => exact Or.inl (by simp [wakeup, before])

/-- Nobody sleeps on the channel after its `wakeup`. -/
theorem wakeup_goto_not_asleep {stmt : Held} :
    ((w.wakeup chan).goto q next).pc r ≠ .asleep chan stmt := by
  intro asleep
  rcases eq_or_ne r q with rfl | other
  · simp at asleep
  · rw [goto_pc_of_ne other] at asleep
    cases before : w.pc r with
    | asleep c stmt' =>
        simp only [wakeup, before] at asleep
        split at asleep
        · cases asleep
        · next notWoken =>
            cases asleep
            exact notWoken rfl
    | _ => simp [wakeup, before] at asleep

theorem others_leave : Others q w (w.leave q pc) := by
  intro r other
  exact Or.inl (by simp [leave, other])

@[simp] theorem leave_pc_self : (w.leave q pc).pc q = pc := by
  simp [leave]

end World

namespace Orderly

variable {w w' : World} {q : ℕ} {stmt : Held}

/-- Another process that is asleep was asleep before. -/
theorem asleep_before (others : Others q w w') {r : ℕ} (other : r ≠ q) {chan : Chan} {next : Held}
    (asleep : w'.pc r = .asleep chan next) : w.pc r = .asleep chan next := by
  rcases others r other with same | ⟨c, stmt, _, woken⟩
  · rw [← same]
    exact asleep
  · rw [woken] at asleep
    cases asleep

/-- Two processes cannot have the lock. -/
theorem alone (orderly : Orderly w) {before held : Held} (here : w.pc q = .holds before) {r : ℕ}
    (holds : w.pc r = .holds held) : r = q ∧ held = before := by
  have two := (orderly.locked r held holds).symm.trans (orderly.locked q before here)
  cases two
  rw [here] at holds
  cases holds
  exact ⟨rfl, rfl⟩

/-- The holder has gone to the statement `stmt`. -/
theorem of_holds (orderly : Orderly w) {before : Held} (here : w.pc q = .holds before)
    (self : w'.pc q = .holds stmt) (others : Others q w w') (lock : w'.lock = w.lock)
    (fact : stmt.Fact w'.pipe)
    (sleepers : ∀ r chan next, w'.pc r = .asleep chan next →
      chan.Waits w'.pipe ∨ stmt.Promises chan) :
    Orderly w' where
  locked := by
    intro r next holds
    rcases eq_or_ne r q with rfl | other
    · rw [lock]
      exact orderly.locked r before here
    · rcases others r other with same | ⟨_, _, _, woken⟩
      · rw [same] at holds
        rw [lock]
        exact orderly.locked r next holds
      · rw [woken] at holds
        cases holds
  fact := by
    intro r next holds
    rcases eq_or_ne r q with rfl | other
    · rw [self] at holds
      cases holds
      exact fact
    · rcases others r other with same | ⟨_, _, _, woken⟩
      · rw [same] at holds
        exact absurd (orderly.alone here holds).1 other
      · rw [woken] at holds
        cases holds
  entering := by
    intro r next entering
    rcases eq_or_ne r q with rfl | other
    · rw [self] at entering
      cases entering
    · rcases others r other with same | ⟨chan, resumed, asleep, woken⟩
      · rw [same] at entering
        exact orderly.entering r next entering
      · rw [woken] at entering
        cases entering
        exact orderly.resuming r chan next asleep
  resuming := by
    intro r chan next asleep
    rcases eq_or_ne r q with rfl | other
    · rw [self] at asleep
      cases asleep
    · exact orderly.resuming r chan next (asleep_before others other asleep)
  sleepers := by
    intro r chan next asleep
    rcases sleepers r chan next asleep with waits | promised
    · exact Or.inl waits
    · exact Or.inr ⟨q, stmt, self, promised⟩

/-- The holder has gone on, with the pipe as it was and the same promises. -/
theorem goto (orderly : Orderly w) {before : Held} (here : w.pc q = .holds before)
    (fact : stmt.Fact w.pipe) (promises : ∀ chan, before.Promises chan →
      stmt.Promises chan ∨ ∀ r next, w.pc r ≠ .asleep chan next) :
    Orderly (w.goto q stmt) := by
  apply orderly.of_holds here World.goto_pc_self World.others_goto rfl fact
  intro r chan next asleep
  have other : r ≠ q := by
    rintro rfl
    simp at asleep
  rw [World.goto_pc_of_ne other] at asleep
  rcases orderly.sleepers r chan next asleep with waits | ⟨holder, held, holds, promised⟩
  · exact Or.inl waits
  · rcases orderly.alone here holds with ⟨rfl, rfl⟩
    rcases promises chan promised with kept | nobody
    · exact Or.inr kept
    · exact absurd asleep (nobody r next)

/-- The holder has woken up everybody it had promised to. -/
theorem wakeup_goto (orderly : Orderly w) {before : Held} (here : w.pc q = .holds before)
    {chan : Chan} (fact : stmt.Fact w.pipe) (promises : ∀ c, before.Promises c → c = chan) :
    Orderly ((w.wakeup chan).goto q stmt) := by
  apply orderly.of_holds here World.goto_pc_self World.others_wakeup_goto rfl fact
  intro r c next asleep
  have other : r ≠ q := by
    rintro rfl
    simp at asleep
  have asleepBefore := asleep_before World.others_wakeup_goto other asleep
  rcases orderly.sleepers r c next asleepBefore with waits | ⟨holder, held, holds, promised⟩
  · exact Or.inl waits
  · rcases orderly.alone here holds with ⟨rfl, rfl⟩
    cases promises c promised
    exact absurd asleep World.wakeup_goto_not_asleep

/-- The holder gives the lock back, and owes nothing. -/
theorem leave (orderly : Orderly w) {before : Held} (here : w.pc q = .holds before)
    (nothing : ∀ chan, ¬ before.Promises chan) {pc : Pc} (notHolds : ∀ next, pc ≠ .holds next)
    (entering : ∀ next, pc = .acquire next → ∀ p, next.Fact p)
    (resuming : ∀ chan next, pc = .asleep chan next → chan.Waits w.pipe ∧ ∀ p, next.Fact p) :
    Orderly (w.leave q pc) := by
  have others : Others q w (w.leave q pc) := World.others_leave
  have nobody : ∀ r next, (w.leave q pc).pc r ≠ .holds next := by
    intro r next holds
    rcases eq_or_ne r q with rfl | other
    · rw [World.leave_pc_self] at holds
      exact notHolds next holds
    · rcases others r other with same | ⟨_, _, _, woken⟩
      · rw [same] at holds
        exact other (orderly.alone here holds).1
      · rw [woken] at holds
        cases holds
  refine ⟨fun r next holds => absurd holds (nobody r next), fun r next holds =>
    absurd holds (nobody r next),
    ?_, ?_, ?_⟩
  · intro r next starts
    rcases eq_or_ne r q with rfl | other
    · rw [World.leave_pc_self] at starts
      exact entering next starts
    · rcases others r other with same | ⟨chan, resumed, asleep, woken⟩
      · rw [same] at starts
        exact orderly.entering r next starts
      · rw [woken] at starts
        cases starts
        exact orderly.resuming r chan next asleep
  · intro r chan next asleep
    rcases eq_or_ne r q with rfl | other
    · rw [World.leave_pc_self] at asleep
      exact (resuming chan next asleep).2
    · exact orderly.resuming r chan next (asleep_before others other asleep)
  · intro r chan next asleep
    rcases eq_or_ne r q with rfl | other
    · rw [World.leave_pc_self] at asleep
      exact Or.inl (resuming chan next asleep).1
    · rcases orderly.sleepers r chan next (asleep_before others other asleep) with
        waits | ⟨holder, held, holds, promised⟩
      · exact Or.inl waits
      · rcases orderly.alone here holds with ⟨rfl, rfl⟩
        exact absurd promised (nothing chan)

/-- A statement of the holder that changes the pipe: whoever has to wait in the old pipe either
has to wait in the new one, or is promised a `wakeup`. -/
theorem edit (orderly : Orderly w) {before : Held} (here : w.pc q = .holds before) (pipe : Pipe)
    (fact : stmt.Fact pipe) (promises : ∀ chan, before.Promises chan → stmt.Promises chan)
    (waits : ∀ chan, chan.Waits w.pipe → chan.Waits pipe ∨ stmt.Promises chan) :
    Orderly { w.goto q stmt with pipe := pipe } := by
  refine orderly.of_holds here World.goto_pc_self World.others_goto rfl fact ?_
  intro r chan next asleep
  have other : r ≠ q := by
    rintro rfl
    simp at asleep
  have same : (w.goto q stmt).pc r = w.pc r := World.goto_pc_of_ne other
  have asleepBefore : w.pc r = .asleep chan next := by
    rw [← same]
    exact asleep
  rcases orderly.sleepers r chan next asleepBefore with before | ⟨holder, held, holds, promised⟩
  · exact waits chan before
  · rcases orderly.alone here holds with ⟨rfl, rfl⟩
    exact Or.inr (promises chan promised)

/-- Every statement but the harmful early return keeps its promises. -/
theorem statement (orderly : Orderly w) {before : Held} (here : w.pc q = .holds before)
    (harmless : Harmless w q before) : Orderly (w.statement q before) := by
  have found := orderly.fact q before here
  cases before with
  | writeTest n rest =>
      cases rest with
      | nil =>
          simp only [World.statement]
          apply orderly.goto here
          · trivial
          · exact fun chan promised => Or.inl promised
      | cons b rest =>
          simp only [World.statement]
          split_ifs with full
          · apply orderly.goto here
            · exact full
            · exact fun chan promised => Or.inl promised
          · apply orderly.edit here _ (by trivial)
            · exact fun chan promised => promised
            · intro chan waits
              cases chan with
              | nread => exact Or.inr rfl
              | nwrite => exact absurd waits.1 full
  | writeFull n rest =>
      simp only [World.statement]
      split_ifs with early
      · apply orderly.goto here
        · trivial
        · intro chan promised
          cases promised
          exact Or.inr (harmless early)
      · have readopen : w.pipe.readopen = true := by
          cases isOpen : w.pipe.readopen with
          | true => rfl
          | false => exact absurd (Or.inl isOpen) early
        apply orderly.goto here
        · exact ⟨found, readopen⟩
        · exact fun chan promised => Or.inl promised
  | writeWakeup n rest => exact orderly.wakeup_goto here found fun c promised => promised
  | writeSleep n rest =>
      apply orderly.leave here (fun chan promised => promised)
      · intro next same
        cases same
      · intro next same
        cases same
      · intro chan next same
        cases same
        exact ⟨found, fun _ => trivial⟩
  | writeDone n => exact orderly.wakeup_goto here trivial fun c promised => promised
  | readTest n =>
      simp only [World.statement]
      split_ifs with empty
      · exact orderly.goto here empty fun chan promised => promised.elim
      · exact orderly.goto here trivial fun chan promised => promised.elim
  | readEmpty n =>
      simp only [World.statement]
      split_ifs
      · exact orderly.goto here trivial fun chan promised => promised.elim
      · exact orderly.goto here found fun chan promised => promised.elim
  | readSleep n =>
      apply orderly.leave here (fun chan promised => promised)
      · intro next same
        cases same
      · intro next same
        cases same
      · intro chan next same
        cases same
        exact ⟨found, fun _ => trivial⟩
  | readCopy n i =>
      simp only [World.statement]
      split_ifs with more empty
      · exact orderly.goto here trivial fun chan promised => Or.inl promised
      · apply orderly.edit here _ (by trivial)
        · exact fun chan promised => promised
        · intro chan waits
          cases chan with
          | nread => exact absurd waits.1 empty
          | nwrite => exact Or.inr rfl
      · exact orderly.goto here trivial fun chan promised => Or.inl promised
  | readDone i => exact orderly.wakeup_goto here trivial fun c promised => promised
  | closeFlag writable =>
      apply orderly.edit here
      · trivial
      · exact fun chan promised => promised.elim
      intro chan waits
      cases writable <;> cases chan
      · exact Or.inl waits
      · exact Or.inr rfl
      · exact Or.inr rfl
      · exact Or.inl waits
  | closeWakeup writable => exact orderly.wakeup_goto here trivial fun c promised => promised
  | release =>
      apply orderly.leave here (fun chan promised => promised)
      · intro next same
        cases same
      · intro next same
        cases same
      · intro chan next same
        cases same

/-- One process that is not in a call, or waits, moves on without touching the pipe. -/
theorem outside (orderly : Orderly w) {pc : Pc} (notHolding : ∀ next, w.pc q ≠ .holds next)
    (notHolds : ∀ next, pc ≠ .holds next) (entering : ∀ next, pc = .acquire next → ∀ p, next.Fact p)
    (notAsleep : ∀ chan next, pc ≠ .asleep chan next) :
    Orderly { w with pc := Function.update w.pc q pc } where
  locked := by
    intro r next holds
    rcases eq_or_ne r q with rfl | other
    · exact absurd (by simpa using holds) (notHolds next)
    · exact orderly.locked r next (by simpa [other] using holds)
  fact := by
    intro r next holds
    rcases eq_or_ne r q with rfl | other
    · exact absurd (by simpa using holds) (notHolds next)
    · exact orderly.fact r next (by simpa [other] using holds)
  entering := by
    intro r next starts
    rcases eq_or_ne r q with rfl | other
    · exact entering next (by simpa using starts)
    · exact orderly.entering r next (by simpa [other] using starts)
  resuming := by
    intro r chan next asleep
    rcases eq_or_ne r q with rfl | other
    · exact absurd (by simpa using asleep) (notAsleep chan next)
    · exact orderly.resuming r chan next (by simpa [other] using asleep)
  sleepers := by
    intro r chan next asleep
    rcases eq_or_ne r q with rfl | other
    · exact absurd (by simpa using asleep) (notAsleep chan next)
    · rcases orderly.sleepers r chan next (by simpa [other] using asleep) with
        waits | ⟨holder, held, holds, promised⟩
      · exact Or.inl waits
      · have another : holder ≠ q := by
          rintro rfl
          exact notHolding held holds
        exact Or.inr ⟨holder, held, by simpa [another] using holds, promised⟩

/-- A process takes the free lock. -/
theorem enter (orderly : Orderly w) (free : w.lock = none) (here : w.pc q = .acquire stmt) :
    Orderly { w.goto q stmt with lock := some q } where
  locked := by
    intro r next holds
    rcases eq_or_ne r q with rfl | other
    · rfl
    · have held := orderly.locked r next (by simpa [World.goto, other] using holds)
      rw [free] at held
      cases held
  fact := by
    intro r next holds
    rcases eq_or_ne r q with rfl | other
    · have same : Pc.holds stmt = .holds next := by simpa [World.goto] using holds
      cases same
      exact orderly.entering r stmt here w.pipe
    · have held := orderly.locked r next (by simpa [World.goto, other] using holds)
      rw [free] at held
      cases held
  entering := by
    intro r next starts
    rcases eq_or_ne r q with rfl | other
    · simp [World.goto] at starts
    · exact orderly.entering r next (by simpa [World.goto, other] using starts)
  resuming := by
    intro r chan next asleep
    rcases eq_or_ne r q with rfl | other
    · simp [World.goto] at asleep
    · exact orderly.resuming r chan next (by simpa [World.goto, other] using asleep)
  sleepers := by
    intro r chan next asleep
    rcases eq_or_ne r q with rfl | other
    · simp [World.goto] at asleep
    · rcases orderly.sleepers r chan next (by simpa [World.goto, other] using asleep) with
        waits | ⟨holder, held, holds, _⟩
      · exact Or.inl waits
      · have taken := orderly.locked holder held holds
        rw [free] at taken
        cases taken

/-- A process that starts a call owes nothing. -/
theorem of_start (orderly : Orderly w) (entry : ∀ p, stmt.Fact p)
    (started : start w q stmt = some w') :
    Orderly w' := by
  unfold start at started
  split at started
  · next idle =>
      cases started
      apply orderly.outside
      · intro next holds
        rw [idle] at holds
        cases holds
      · intro next same
        cases same
      · intro next same
        cases same
        exact entry
      · intro chan next same
        cases same
  · cases started

/-- A kill wakes one process up, at most. -/
theorem kill (orderly : Orderly w) (q : ℕ) : Orderly (w.kill q) := by
  have moved : Orderly { w with pc := (w.kill q).pc } := by
    cases before : w.pc q with
    | asleep chan next =>
        have woken : (w.kill q).pc = Function.update w.pc q (.acquire next) := by
          simp [World.kill, before]
        rw [woken]
        apply orderly.outside
        · intro stmt holds
          rw [before] at holds
          cases holds
        · intro stmt same
          cases same
        · intro stmt same
          cases same
          exact orderly.resuming q chan next before
        · intro c stmt same
          cases same
    | _ =>
        have same : (w.kill q).pc = w.pc := by
          simp only [World.kill, before]
          rw [← before, Function.update_eq_self]
        rw [same]
        exact orderly
  exact ⟨moved.locked, moved.fact, moved.entering, moved.resuming, moved.sleepers⟩

end Orderly

/-- No step is a harmful early return. -/
def Careful (w : World) : Event → Prop
  | .run q => ∀ stmt, w.pc q = .holds stmt → Harmless w q stmt
  | _ => True

/-- Every careful event keeps the order. -/
theorem Orderly.step {w w' : World} (orderly : Orderly w) {event : Event}
    (careful : Careful w event) (stepped : step w event = some w') : Orderly w' := by
  cases event with
  | pipewrite q bytes =>
      refine orderly.of_start ?_ stepped
      exact fun _ => trivial
  | piperead q n =>
      refine orderly.of_start ?_ stepped
      exact fun _ => trivial
  | pipeclose q writable =>
      refine orderly.of_start ?_ stepped
      exact fun _ => trivial
  | run q =>
      simp only [Locked.step] at stepped
      split at stepped
      · next next here =>
          split_ifs at stepped with free
          cases stepped
          exact orderly.enter free.1 here
      · next stmt here =>
          cases stepped
          exact orderly.statement here (careful stmt here)
      · cases stepped
  | kill q =>
      cases stepped
      exact orderly.kill q

theorem orderly_init (data : Fin PIPESIZE → Byte) (killed : ℕ → Bool) :
    Orderly (World.init data killed) where
  locked := by intro q next holds; cases holds
  fact := by intro q next holds; cases holds
  entering := by intro q next starts; cases starts
  resuming := by intro q chan next asleep; cases asleep
  sleepers := by intro q chan next asleep; cases asleep

/-- Nobody has to be asked to wake up whoever sleeps while the lock is free. -/
theorem Orderly.noLost {w : World} (orderly : Orderly w) : w.NoLost := by
  intro free q chan next asleep
  rcases orderly.sleepers q chan next asleep with waits | ⟨holder, stmt, holds, _⟩
  · exact waits
  · have taken := orderly.locked holder stmt holds
    rw [free] at taken
    cases taken

/-- In a run without a harmful early return no wakeup is lost. -/
theorem noLost_of_run (data : Fin PIPESIZE → Byte) (killed : ℕ → Bool) (w : World)
    (run : ReflTransGen (fun s s' => ∃ event, Careful s event ∧ step s event = some s')
      (World.init data killed) w) :
    w.NoLost :=
  (Runs.invariant_of_run (fun _ _ ⟨_, careful, stepped⟩ orderly => orderly.step careful stepped) run
    (orderly_init data killed)).noLost

/-- No writer gives up where the pipe is full. -/
def goesOn (w : World) : Event → Bool
  | .run q =>
      match w.pc q with
      | .holds (.writeFull _ _) => w.pipe.readopen && !w.killed q
      | _ => true
  | _ => true

/-- An event is careful unless a writer leaves early. -/
theorem careful_of_goesOn {w : World} {event : Event} (on : goesOn w event = true) :
    Careful w event := by
  cases event with
  | run q =>
      intro stmt holds
      cases stmt with
      | writeFull n rest =>
          intro early
          simp only [goesOn, holds, Bool.and_eq_true, Bool.not_eq_true'] at on
          rcases early with closed | dead
          · rw [on.1] at closed
            cases closed
          · rw [on.2] at dead
            cases dead
      | _ => trivial
  | _ => trivial

/-- A reader goes to sleep on the empty pipe. -/
def sleepingReader : List Event := [.piperead 1 1, .run 1, .run 1, .run 1, .run 1]

/-- A writer of 513 bytes fills the pipe, wakes the reader up and goes to sleep. -/
def sleepingWriter :
    List Event := .pipewrite 0 (List.replicate 513 7) :: List.replicate 517 (.run 0)

/-- A writer has filled the pipe and woken the reader up before it sleeps. -/
theorem noLost_sleepingWriter :
    ∃ w : World, w.lock = none ∧ w.pc 0 = .asleep .nwrite (.writeTest 513 [7]) ∧
    w.pc 1 = .acquire (.readTest 1) ∧ w.NoLost := by
  have outcome : (Runs.follow (fun w event => goesOn w event = true) step
    (sleepingReader ++ sleepingWriter)
      (World.init (fun _ => 0) fun _ => false)).map (fun w => (w.lock, w.pc 0, w.pc 1)) =
        some (none, .asleep .nwrite (.writeTest 513 [7]), .acquire (.readTest 1)) := by
    decide +kernel
  rcases Option.map_eq_some_iff.mp outcome with ⟨w, followed, seen⟩
  simp only [Prod.mk.injEq] at seen
  refine ⟨w, seen.1, seen.2.1, seen.2.2, noLost_of_run (fun _ => 0) (fun _ => false) w ?_⟩
  refine ReflTransGen.mono (fun w₁ w₂ went => ?_) _ _ (Runs.run_of_follow followed)
  rcases went with ⟨event, on, stepped⟩
  exact ⟨event, careful_of_goesOn on, stepped⟩

/-- A writer of 513 bytes is killed while it stores them, and gives up at the last one. -/
def killedWriter : List Event :=
  [.pipewrite 0 (List.replicate 513 0), .run 0, .kill 0] ++ List.replicate 515 (.run 0)

/-- The lock is free, the pipe is not empty, and process 1 sleeps until there is something to read.
-/
def World.lost (w : World) : Bool :=
  match w.lock, w.pc 1 with
  | none, .asleep .nread _ => w.pipe.nread != w.pipe.nwrite
  | _, _ => false

/-- The writer fills the pipe, is killed and leaves without its `wakeup`. -/
theorem lost_of_killedWriter :
    ¬ ∀ data killed w, ReflTransGen (fun s s' => ∃ event, step s event = some s')
      (World.init data killed) w →
      w.NoLost := by
  intro noLost
  have ends : ((sleepingReader ++ killedWriter).foldlM step
    (World.init (fun _ => 0) fun _ => false)).map
      World.lost = some true := by decide +kernel
  rcases Option.map_eq_some_iff.mp ends with ⟨w, done, lost⟩
  have waits := noLost _ _ w (Runs.run_of_foldlM _ done)
  unfold World.lost at lost
  split at lost
  · next free asleep => simp [(waits free 1 .nread _ asleep).1] at lost
  · cases lost

end Xv6.Ipc.Locked
