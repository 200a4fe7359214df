import Xv6.Ipc.Fifo
import Xv6.Ipc.Wakeup

/-!
# Stretches under the lock

Whatever comes between the statements of a call that has `p->lock`, the stretch up to its
next `sleep` or its return is one step of the machine that knows stretches only. That step is
taken where the call tests `myproc()->killed`, as a `kill` may come right after the test,
and where it does not test it at its `wakeup`. The wakeup of a writer that goes to
sleep comes one statement after the test, so in between the readers may be woken up in the one
machine and asleep in the other. A process that sleeps may have been woken up by a `kill` that
came while it was about to sleep, and that `kill` is lost.
-/

namespace Xv6.Ipc

/-- A pipe of which one end is closed. -/
def Pipe.close (p : Pipe) (writable : Bool) : Pipe :=
  if writable then { p with writeopen := false } else { p with readopen := false }

/-- The memory of the pipe has not been freed. -/
def Pipe.Open (p : Pipe) : Prop := p.readopen = true ∨ p.writeopen = true

variable {p : Pipe} {killed : Bool} {n : ℤ} {rest : List Byte}

theorem Pipe.open_iff : p.Open ↔ ¬(p.readopen = false ∧ p.writeopen = false) := by
  cases readopen : p.readopen <;> cases writeopen : p.writeopen <;> simp [Open, readopen, writeopen]

theorem open_pipewrite (isOpen : p.Open) : (pipewrite killed n p rest).pipe.Open := by
  induction rest generalizing p with
  | nil => exact isOpen
  | cons b rest ih =>
      rw [pipewrite]
      split_ifs with full fails
      · exact isOpen
      · exact isOpen
      · exact ih isOpen

theorem open_copy {k : ℕ} (isOpen : p.Open) : (copy p k).2.Open := by
  induction k generalizing p with
  | zero => exact isOpen
  | succ k ih =>
      rw [copy]
      split_ifs with empty
      · exact isOpen
      · exact ih isOpen

end Xv6.Ipc

namespace Xv6.Ipc.Locked

open Relation

variable {W W' : Ipc.World} {w w' : World} {q r : ℕ} {n : ℤ} {rest : List Byte} {next stmt : Held}
  {chan : Chan} {call : Call} {pc : Pc}

/-! ## Two machines at the same place -/

/-- A stretch of `pipewrite` with these bytes can begin. -/
def MayWrite (call : Call) (n : ℤ) (rest : List Byte) : Prop :=
  call = .out ∧ rest.length = n.toNat ∨ call = .writing n rest true

/-- A stretch of `piperead` can begin. -/
def MayRead (call : Call) (n : ℤ) : Prop := call = .out ∨ call = .reading n true

/-- A process that waits for the lock. -/
def Ready (call : Call) : Held → Prop
  | .writeTest n rest => MayWrite call n rest
  | .readTest n => MayRead call n
  | .closeFlag _ => call = .out
  | _ => False

/-- A process that sleeps, unless it has been killed too early for that. -/
def Asleep (call : Call) (chan : Chan) : Held → Prop
  | .writeTest n rest => chan = .nwrite ∧ ∃ woken, call = .writing n rest woken
  | .readTest n => chan = .nread ∧ ∃ woken, call = .reading n woken
  | _ => False

/-- A process without the lock. -/
def Outside (call : Call) : Pc → Prop
  | .out => call = .out
  | .acquire next => Ready call next
  | .asleep chan next => Asleep call chan next
  | .holds _ => False

/-- The stretch comes to the bytes `rest`, after it has stored those before them. -/
def Writes (W : Ipc.World) (w : World) (q : ℕ) (n : ℤ) (rest : List Byte) : Prop :=
  ∃ first stored, MayWrite (W.call q) n first ∧ ∀ killed,
    Ipc.pipewrite killed n W.pipe first =
      { Ipc.pipewrite killed n w.pipe rest with
        bytes := stored ++ (Ipc.pipewrite killed n w.pipe rest).bytes }

/-- The stretch has read some bytes, and `after` is what is left of its loop. -/
def Reads (W : Ipc.World) (q : ℕ) (n : ℤ) (after : List Byte × Pipe) : Prop :=
  MayRead (W.call q) n ∧ ¬(W.pipe.nread = W.pipe.nwrite ∧ W.pipe.writeopen) ∧
    ∃ taken, copy W.pipe n.toNat = (taken ++ after.1, after.2)

/-- Where the two machines are when the process with the lock comes to a statement. -/
def Within (W : Ipc.World) (w : World) (q : ℕ) : Held → Prop
  | .writeTest n rest => Writes W w q n rest
  | .writeFull n rest =>
      Writes W w q n rest ∧ w.pipe.nwrite = w.pipe.nread + BitVec.ofNat 32 PIPESIZE ∧ rest ≠ []
  | .writeWakeup n rest =>
      W.pipe = w.pipe ∧ (∃ woken, W.call q = .writing n rest woken) ∧
        ∀ r k woken, W.call r = .reading k woken → woken = true
  | .writeSleep n rest => W.pipe = w.pipe ∧ ∃ woken, W.call q = .writing n rest woken
  | .writeDone n => Writes W w q n []
  | .readTest n => W.pipe = w.pipe ∧ MayRead (W.call q) n
  | .readEmpty n =>
      W.pipe = w.pipe ∧ MayRead (W.call q) n ∧ w.pipe.nread = w.pipe.nwrite ∧
        w.pipe.writeopen = true
  | .readSleep n => W.pipe = w.pipe ∧ ∃ woken, W.call q = .reading n woken
  | .readCopy n i => Reads W q n (copy w.pipe (n.toNat - i))
  | .readDone _ => ∃ n, Reads W q n ([], w.pipe)
  | .closeFlag _ => W.pipe = w.pipe ∧ W.call q = .out
  | .closeWakeup writable => w.pipe = W.pipe.close writable ∧ W.call q = .out
  | .release => W.pipe = w.pipe ∧ W.call q = .out

structure Related (W : Ipc.World) (w : World) : Prop where
  killed : W.killed = w.killed
  isOpen : W.pipe.Open
  idle : w.lock = none → W.pipe = w.pipe
  holder : ∀ q next, w.pc q = .holds next → w.lock = some q ∧ Within W w q next
  outside : ∀ q, (∀ next, w.pc q ≠ .holds next) → Outside (W.call q) (w.pc q)

/-- Both ends have been closed, and the last `pipeclose` has only to give the lock back. -/
structure Freed (W : Ipc.World) (w : World) : Prop where
  closed : ¬w.pipe.Open
  pipe : W.pipe = w.pipe
  holder : ∀ q next, w.pc q = .holds next → next = .release

/-- The machine of the stretches can follow to the state of the other one. -/
def Follows (W : Ipc.World) (w' : World) : Prop :=
  ∃ W', ReflTransGen Ipc.Step W W' ∧ (Related W' w' ∨ Freed W' w')

theorem Related.follows (related : Related W w') : Follows W w' := ⟨W, .refl, .inl related⟩

/-! ## Wakeups -/

/-- What `wakeup` does to a call. -/
def Chan.wake : Chan → Call → Call
  | .nread, .reading n _ => .reading n true
  | .nwrite, .writing n rest _ => .writing n rest true
  | _, call => call

theorem wakeReaders_call (W : Ipc.World) (r : ℕ) :
    W.wakeReaders.call r = Chan.nread.wake (W.call r) := by
  simp only [Ipc.World.wakeReaders]
  cases W.call r <;> rfl

theorem wakeWriters_call (W : Ipc.World) (r : ℕ) :
    W.wakeWriters.call r = Chan.nwrite.wake (W.call r) := by
  simp only [Ipc.World.wakeWriters]
  cases W.call r <;> rfl

theorem MayWrite.wake (may : MayWrite call n rest) : MayWrite (chan.wake call) n rest := by
  rcases may with ⟨rfl, length⟩ | rfl
  · cases chan <;> exact .inl ⟨rfl, length⟩
  · cases chan <;> exact .inr rfl

theorem MayRead.wake (may : MayRead call n) : MayRead (chan.wake call) n := by
  rcases may with rfl | rfl
  · cases chan <;> exact .inl rfl
  · cases chan <;> exact .inr rfl

theorem Ready.wake (ready : Ready call next) : Ready (chan.wake call) next := by
  cases next with
  | writeTest n rest => exact MayWrite.wake ready
  | readTest n => exact MayRead.wake ready
  | closeFlag writable =>
      cases ready
      cases chan <;> rfl
  | _ => exact ready

/-- A process that sleeps on one channel does not mind the other one's wakeup. -/
theorem Asleep.wake {c : Chan} (asleep : Asleep call c next) : Asleep (chan.wake call) c next := by
  cases next with
  | writeTest n rest =>
      rcases asleep with ⟨rfl, woken, rfl⟩
      cases chan with
      | nread => exact ⟨rfl, woken, rfl⟩
      | nwrite => exact ⟨rfl, true, rfl⟩
  | readTest n =>
      rcases asleep with ⟨rfl, woken, rfl⟩
      cases chan with
      | nread => exact ⟨rfl, true, rfl⟩
      | nwrite => exact ⟨rfl, woken, rfl⟩
  | _ => exact asleep

/-- A process that has been woken up waits for the lock. -/
theorem Asleep.ready (asleep : Asleep call chan next) : Ready (chan.wake call) next := by
  cases next with
  | writeTest n rest =>
      rcases asleep with ⟨rfl, woken, rfl⟩
      exact .inr rfl
  | readTest n =>
      rcases asleep with ⟨rfl, woken, rfl⟩
      exact .inr rfl
  | _ => exact asleep.elim

/-- In the machine of the stretches a process may be woken up early. -/
theorem Outside.wake (outside : Outside call pc) : Outside (chan.wake call) pc := by
  cases pc with
  | out =>
      cases outside
      cases chan <;> rfl
  | acquire next => exact Ready.wake outside
  | asleep c next => exact Asleep.wake outside
  | holds next => exact outside

/-- In both machines the processes on the channel are woken up. -/
theorem Outside.wakeup (outside : Outside call (w.pc r)) :
    Outside (chan.wake call) ((w.wakeup chan).pc r) := by
  cases before : w.pc r with
  | asleep c next =>
      rw [before] at outside
      by_cases woken : c = chan
      · subst woken
        simp only [World.wakeup, before, if_true]
        exact Asleep.ready outside
      · simp only [World.wakeup, before, if_neg woken]
        exact Asleep.wake outside
  | _ =>
      rw [before] at outside
      simp only [World.wakeup, before]
      exact outside.wake

/-! ## The process with the lock -/

namespace Related

variable {before : Held}

/-- Nobody else carries out statements. -/
theorem alone (related : Related W w) (here : w.pc q = .holds before) (other : r ≠ q) :
    w.pc r ≠ .holds stmt := by
  intro there
  have two := (related.holder r stmt there).1.symm.trans (related.holder q before here).1
  exact other (Option.some.inj two)

theorem others (related : Related W w) (here : w.pc q = .holds before) (other : r ≠ q) :
    Outside (W.call r) (w.pc r) :=
  related.outside r fun _ => related.alone here other

/-- The process with the lock has come to the statement `next`. -/
theorem come (related : Related W w) (here : w.pc q = .holds before)
    (killed : W'.killed = w'.killed) (isOpen : W'.pipe.Open) (lock : w'.lock = w.lock)
    (there : w'.pc q = .holds next) (within : Within W' w' q next)
    (others : ∀ r ≠ q, Outside (W.call r) (w.pc r) → Outside (W'.call r) (w'.pc r)) :
    Related W' w' where
  killed := killed
  isOpen := isOpen
  idle := by
    intro free
    rw [lock, (related.holder q before here).1] at free
    cases free
  holder := by
    intro r stmt holds
    rcases eq_or_ne r q with rfl | other
    · rw [there] at holds
      cases holds
      exact ⟨lock.trans (related.holder r before here).1, within⟩
    · have outside := others r other (related.others here other)
      rw [holds] at outside
      exact outside.elim
  outside := by
    intro r waits
    rcases eq_or_ne r q with rfl | other
    · exact absurd there (waits next)
    · exact others r other (related.others here other)

/-- The process with the lock has come to the statement `next`, and nothing else has happened. -/
theorem goto (related : Related W w) (here : w.pc q = .holds before) (next : Held)
    (within : Within W (w.goto q next) q next) :
    Related W (w.goto q next) := by
  refine related.come here related.killed related.isOpen rfl World.goto_pc_self within ?_
  intro r other outside
  rw [World.goto_pc_of_ne other]
  exact outside

/-- The process with the lock gives it back. -/
theorem leave (related : Related W w) (here : w.pc q = .holds before) (same : W.pipe = w.pipe)
    (pc : Pc) (outside : Outside (W.call q) pc) : Related W (w.leave q pc) where
  killed := related.killed
  isOpen := related.isOpen
  idle := fun _ => same
  holder := by
    intro r stmt holds
    rcases eq_or_ne r q with rfl | other
    · rw [World.leave_pc_self] at holds
      rw [holds] at outside
      exact outside.elim
    · rcases World.others_leave r other with unchanged | ⟨_, _, _, woken⟩
      · rw [unchanged] at holds
        exact absurd holds (related.alone here other)
      · rw [woken] at holds
        cases holds
  outside := by
    intro r waits
    rcases eq_or_ne r q with rfl | other
    · rw [World.leave_pc_self]
      exact outside
    · have unchanged : (w.leave q pc).pc r = w.pc r := by simp [World.leave, other]
      rw [unchanged]
      exact related.others here other

end Related

/-! ## Stretches -/

theorem step_writes (isOpen : W.pipe.Open) (may : MayWrite (W.call q) n rest) :
    Ipc.Step W (W.writes q n rest).1 := by
  have notFreed := Pipe.open_iff.mp isOpen
  rcases may with ⟨out, length⟩ | asleep
  · exact ⟨.pipewrite q rest n, (W.writes q n rest).2, by simp [Ipc.step, notFreed, out, length]⟩
  · exact ⟨.resume q, (W.writes q n rest).2, by simp [Ipc.step, notFreed, asleep]⟩

theorem step_reads (isOpen : W.pipe.Open) (may : MayRead (W.call q) n) :
    Ipc.Step W (W.reads q n).1 := by
  have notFreed := Pipe.open_iff.mp isOpen
  rcases may with out | asleep
  · exact ⟨.piperead q n, (W.reads q n).2, by simp [Ipc.step, notFreed, out]⟩
  · exact ⟨.resume q, (W.reads q n).2, by simp [Ipc.step, notFreed, asleep]⟩

/-- A stretch of `pipewrite` ends where the process with the lock comes to `next`. -/
theorem Related.writes {before : Held} (related : Related W w) (here : w.pc q = .holds before)
    (may : MayWrite (W.call q) n rest) (killed : w'.killed = w.killed) (lock : w'.lock = w.lock)
    (there : w'.pc q = .holds next) (within : Within (W.writes q n rest).1 w' q next)
    (others : ∀ r ≠ q, Outside (W.call r) (w.pc r) →
      Outside ((W.writes q n rest).1.call r) (w'.pc r)) :
    Follows W w' := by
  refine ⟨(W.writes q n rest).1, .single (step_writes related.isOpen may), .inl ?_⟩
  apply related.come here _ (open_pipewrite related.isOpen) lock there within others
  rw [killed, ← related.killed]
  simp only [Ipc.World.writes]
  split_ifs <;> rfl

/-- A stretch of `piperead` ends where the process with the lock comes to `next`. -/
theorem Related.reads {before : Held} (related : Related W w) (here : w.pc q = .holds before)
    (may : MayRead (W.call q) n) (killed : w'.killed = w.killed) (lock : w'.lock = w.lock)
    (there : w'.pc q = .holds next) (within : Within (W.reads q n).1 w' q next)
    (others : ∀ r ≠ q, Outside (W.call r) (w.pc r) → Outside ((W.reads q n).1.call r) (w'.pc r)) :
    Follows W w' := by
  refine ⟨(W.reads q n).1, .single (step_reads related.isOpen may), .inl ?_⟩
  apply related.come here _ _ lock there within others
  · rw [killed, ← related.killed]
    simp only [Ipc.World.reads]
    split_ifs <;> rfl
  · change (Ipc.piperead (W.killed q) n W.pipe).pipe.Open
    rw [Ipc.piperead]
    split_ifs
    · exact related.isOpen
    · exact related.isOpen
    · exact open_copy related.isOpen

/-- What a stretch of `pipewrite` leaves, for another process. -/
theorem writes_call_of_ne (other : r ≠ q) :
    (W.writes q n rest).1.call r =
      if (Ipc.pipewrite (W.killed q) n W.pipe rest).wakes then Chan.nread.wake (W.call r)
        else W.call r := by
  simp only [Ipc.World.writes, Function.update_of_ne other]
  split_ifs
  · exact wakeReaders_call W r
  · rfl

theorem reads_call_of_ne (other : r ≠ q) :
    (W.reads q n).1.call r =
      if (Ipc.piperead (W.killed q) n W.pipe).wakes then Chan.nwrite.wake (W.call r)
        else W.call r := by
  simp only [Ipc.World.reads, Function.update_of_ne other]
  split_ifs
  · exact wakeWriters_call W r
  · rfl

@[simp] theorem writes_call_self :
    (W.writes q n rest).1.call q = (Ipc.pipewrite (W.killed q) n W.pipe rest).call := by
  simp [Ipc.World.writes]

@[simp] theorem reads_call_self :
    (W.reads q n).1.call q = (Ipc.piperead (W.killed q) n W.pipe).call := by
  simp [Ipc.World.reads]

@[simp] theorem writes_pipe :
    (W.writes q n rest).1.pipe = (Ipc.pipewrite (W.killed q) n W.pipe rest).pipe := rfl

@[simp] theorem reads_pipe : (W.reads q n).1.pipe = (Ipc.piperead (W.killed q) n W.pipe).pipe := rfl

namespace Related

/-- A byte is stored, or the loop is left. -/
theorem writeTest (related : Related W w) (here : w.pc q = .holds (.writeTest n rest)) :
    Follows W (w.statement q (.writeTest n rest)) := by
  have within := (related.holder q _ here).2
  cases rest with
  | nil => exact (related.goto here (.writeDone n) within).follows
  | cons b rest =>
      simp only [World.statement]
      split_ifs with full
      · exact (related.goto here (.writeFull n (b :: rest))
          ⟨within, full, List.cons_ne_nil b rest⟩).follows
      · refine Related.follows ?_
        rcases within with ⟨first, stored, may, goesOn⟩
        refine related.come here related.killed related.isOpen rfl World.goto_pc_self ?_ ?_
        · refine ⟨first, stored ++ [b], may, fun killed => ?_⟩
          rw [goesOn killed, Ipc.pipewrite, if_neg full]
          simp
        · intro r other outside
          change Outside _ ((w.goto q (.writeTest n rest)).pc r)
          rw [World.goto_pc_of_ne other]
          exact outside

/-- The test of `killed` decides how the stretch of `pipewrite` ends. -/
theorem writeFull (related : Related W w) (here : w.pc q = .holds (.writeFull n rest)) :
    Follows W (w.statement q (.writeFull n rest)) := by
  rcases (related.holder q _ here).2 with ⟨⟨first, stored, may, goesOn⟩, full, more⟩
  have ends := goesOn (W.killed q)
  rcases List.exists_cons_of_ne_nil more with ⟨b, rest', rfl⟩
  rw [Ipc.pipewrite, if_pos full, related.killed] at ends
  simp only [World.statement]
  split_ifs with gives
  · rw [if_pos gives] at ends
    refine related.writes here may rfl rfl World.goto_pc_self ?_ ?_
    · exact ⟨by simp [related.killed, ends], by simp [related.killed, ends]⟩
    · intro r other outside
      rw [writes_call_of_ne other, related.killed, ends, World.goto_pc_of_ne other]
      exact outside
  · rw [if_neg gives] at ends
    refine related.writes here may rfl rfl World.goto_pc_self ?_ ?_
    · refine ⟨by simp [related.killed, ends], ⟨false, by simp [related.killed, ends]⟩, ?_⟩
      intro r k woken reading
      rcases eq_or_ne r q with rfl | other
      · simp [related.killed, ends] at reading
      · rw [writes_call_of_ne other, related.killed, ends] at reading
        simp only [if_true] at reading
        cases call : W.call r with
        | reading k' woken' =>
            rw [call] at reading
            cases reading
            rfl
        | _ =>
            rw [call] at reading
            cases reading
    · intro r other outside
      rw [writes_call_of_ne other, related.killed, ends, World.goto_pc_of_ne other]
      exact outside.wake

/-- The readers have been woken up in the machine of the stretches already. -/
theorem writeWakeup (related : Related W w) (here : w.pc q = .holds (.writeWakeup n rest)) :
    Follows W (w.statement q (.writeWakeup n rest)) := by
  rcases (related.holder q _ here).2 with ⟨same, writing, woken⟩
  simp only [World.statement]
  refine Related.follows ?_
  refine related.come here related.killed related.isOpen rfl World.goto_pc_self ⟨same, writing⟩ ?_
  intro r other outside
  have already : Chan.nread.wake (W.call r) = W.call r := by
    cases call : W.call r with
    | reading k flag =>
        rw [woken r k flag call]
        rfl
    | _ => rfl
  rw [← already, World.goto_pc_of_ne other]
  exact outside.wakeup

/-- The stretch of a `pipewrite` that returns ends at its `wakeup`. -/
theorem writeDone (related : Related W w) (here : w.pc q = .holds (.writeDone n)) :
    Follows W (w.statement q (.writeDone n)) := by
  rcases (related.holder q _ here).2 with ⟨first, stored, may, goesOn⟩
  have ends := goesOn (W.killed q)
  simp only [World.statement]
  refine related.writes here may rfl rfl World.goto_pc_self ?_ ?_
  · exact ⟨by simp [ends, Ipc.pipewrite], by simp [ends, Ipc.pipewrite]⟩
  · intro r other outside
    rw [writes_call_of_ne other, ends, World.goto_pc_of_ne other]
    exact outside.wakeup

/-- The pipe is empty, or the copying begins. -/
theorem readTest (related : Related W w) (here : w.pc q = .holds (.readTest n)) :
    Follows W (w.statement q (.readTest n)) := by
  rcases (related.holder q _ here).2 with ⟨same, may⟩
  simp only [World.statement]
  split_ifs with empty
  · exact (related.goto here (.readEmpty n) ⟨same, may, empty⟩).follows
  · refine (related.goto here (.readCopy n 0) ⟨may, ?_, [], ?_⟩).follows
    · rw [same]
      exact empty
    · simp [same]

/-- The test of `killed` decides how the stretch of `piperead` ends. -/
theorem readEmpty (related : Related W w) (here : w.pc q = .holds (.readEmpty n)) :
    Follows W (w.statement q (.readEmpty n)) := by
  rcases (related.holder q _ here).2 with ⟨same, may, empty⟩
  have ends : Ipc.piperead (W.killed q) n W.pipe =
      if w.killed q then ⟨w.pipe, [], false, .out, some (-1)⟩
        else ⟨w.pipe, [], false, .reading n false, none⟩ := by
    rw [Ipc.piperead, same, if_pos empty, related.killed]
  simp only [World.statement]
  split_ifs with dies
  · rw [if_pos dies] at ends
    refine related.reads here may rfl rfl World.goto_pc_self ?_ ?_
    · exact ⟨by simp [ends], by simp [ends]⟩
    · intro r other outside
      rw [reads_call_of_ne other, ends, World.goto_pc_of_ne other]
      exact outside
  · rw [if_neg dies] at ends
    refine related.reads here may rfl rfl World.goto_pc_self ?_ ?_
    · exact ⟨by simp [ends], false, by simp [ends]⟩
    · intro r other outside
      rw [reads_call_of_ne other, ends, World.goto_pc_of_ne other]
      exact outside

/-- A byte is taken, or the loop is left. -/
theorem readCopy {i : ℕ} (related : Related W w) (here : w.pc q = .holds (.readCopy n i)) :
    Follows W (w.statement q (.readCopy n i)) := by
  rcases (related.holder q _ here).2 with ⟨may, notEmpty, taken, goesOn⟩
  simp only [World.statement]
  split_ifs with more empty
  · obtain ⟨k, left⟩ : ∃ k, n.toNat - i = k + 1 := ⟨n.toNat - i - 1, by omega⟩
    rw [left, copy, if_pos empty] at goesOn
    exact (related.goto here (.readDone i) ⟨n, may, notEmpty, taken, goesOn⟩).follows
  · obtain ⟨k, left⟩ : ∃ k, n.toNat - i = k + 1 := ⟨n.toNat - i - 1, by omega⟩
    have next : n.toNat - (i + 1) = k := by omega
    rw [left, copy, if_neg empty] at goesOn
    refine Related.follows ?_
    refine related.come here related.killed related.isOpen rfl World.goto_pc_self ?_ ?_
    · refine ⟨may, notEmpty, taken ++ [w.pipe.data (Fin.ofNat PIPESIZE w.pipe.nread.toNat)], ?_⟩
      rw [next, List.append_assoc]
      exact goesOn
    · intro r other outside
      change Outside _ ((w.goto q (.readCopy n (i + 1))).pc r)
      rw [World.goto_pc_of_ne other]
      exact outside
  · have nothing : n.toNat - i = 0 := by omega
    rw [nothing, copy] at goesOn
    exact (related.goto here (.readDone i) ⟨n, may, notEmpty, taken, goesOn⟩).follows

/-- The stretch of a `piperead` that returns ends at its `wakeup`. -/
theorem readDone {i : ℕ} (related : Related W w) (here : w.pc q = .holds (.readDone i)) :
    Follows W (w.statement q (.readDone i)) := by
  rcases (related.holder q _ here).2 with ⟨n, may, notEmpty, taken, goesOn⟩
  have ends : Ipc.piperead (W.killed q) n W.pipe =
      ⟨w.pipe, taken ++ [], true, .out, some (taken ++ [] : List Byte).length⟩ := by
    rw [Ipc.piperead, if_neg notEmpty, goesOn]
  simp only [World.statement]
  refine related.reads here may rfl rfl World.goto_pc_self ?_ ?_
  · exact ⟨by simp [ends], by simp [ends]⟩
  · intro r other outside
    rw [reads_call_of_ne other, ends, World.goto_pc_of_ne other]
    exact outside.wakeup

/-- An end of the pipe is closed in one machine, before the `wakeup`. -/
theorem closeFlag {writable : Bool} (related : Related W w)
    (here : w.pc q = .holds (.closeFlag writable)) :
    Follows W (w.statement q (.closeFlag writable)) := by
  rcases (related.holder q _ here).2 with ⟨same, out⟩
  simp only [World.statement]
  refine Related.follows ?_
  refine related.come here related.killed related.isOpen rfl World.goto_pc_self ⟨?_, out⟩ ?_
  · rw [same]
    rfl
  · intro r other outside
    change Outside _ ((w.goto q (.closeWakeup writable)).pc r)
    rw [World.goto_pc_of_ne other]
    exact outside

/-- The last `pipeclose` frees the memory of the pipe. -/
theorem closeWakeup {writable : Bool} (related : Related W w)
    (here : w.pc q = .holds (.closeWakeup writable)) :
    Follows W (w.statement q (.closeWakeup writable)) := by
  rcases (related.holder q _ here).2 with ⟨closed, out⟩
  have stepped : Ipc.Step W (W.pipeclose writable) :=
    ⟨.pipeclose writable, none, by simp [Ipc.step, Pipe.open_iff.mp related.isOpen]⟩
  have pipe : (W.pipeclose writable).pipe = w.pipe := by
    rw [closed]
    cases writable <;> rfl
  have call : ∀ r, (W.pipeclose writable).call r =
      (if writable then Chan.nread else Chan.nwrite).wake (W.call r) := by
    intro r
    cases writable
    · exact wakeWriters_call W r
    · exact wakeReaders_call W r
  have killed : (W.pipeclose writable).killed = w.killed := by
    rw [← related.killed]
    cases writable <;> rfl
  simp only [World.statement]
  refine ⟨W.pipeclose writable, .single stepped, ?_⟩
  by_cases isOpen : w.pipe.Open
  · refine .inl (related.come here killed (pipe ▸ isOpen) rfl World.goto_pc_self ⟨pipe, ?_⟩ ?_)
    · rw [call, out]
      cases writable <;> rfl
    · intro r other outside
      rw [call, World.goto_pc_of_ne other]
      exact outside.wakeup
  · refine .inr ⟨isOpen, pipe, ?_⟩
    intro r next holds
    rcases eq_or_ne r q with rfl | other
    · rw [World.goto_pc_self] at holds
      cases holds
      rfl
    · rcases World.others_wakeup_goto r other with unchanged | ⟨_, _, _, woken⟩
      · rw [unchanged] at holds
        exact absurd holds (related.alone here other)
      · rw [woken] at holds
        cases holds

/-- A statement of the process with the lock. -/
theorem statement (related : Related W w) (here : w.pc q = .holds stmt) :
    Follows W (w.statement q stmt) := by
  cases stmt with
  | writeTest n rest => exact related.writeTest here
  | writeFull n rest => exact related.writeFull here
  | writeWakeup n rest => exact related.writeWakeup here
  | writeSleep n rest =>
      rcases (related.holder q _ here).2 with ⟨same, writing⟩
      exact (related.leave here same (.asleep .nwrite (.writeTest n rest)) ⟨rfl, writing⟩).follows
  | writeDone n => exact related.writeDone here
  | readTest n => exact related.readTest here
  | readEmpty n => exact related.readEmpty here
  | readSleep n =>
      rcases (related.holder q _ here).2 with ⟨same, reading⟩
      exact (related.leave here same (.asleep .nread (.readTest n)) ⟨rfl, reading⟩).follows
  | readCopy n i => exact related.readCopy here
  | readDone i => exact related.readDone here
  | closeFlag writable => exact related.closeFlag here
  | closeWakeup writable => exact related.closeWakeup here
  | release =>
      rcases (related.holder q _ here).2 with ⟨same, out⟩
      exact (related.leave here same .out out).follows

end Related

/-! ## Kills -/

/-- What `kill` does to the call of its process. -/
def Call.kill (call : Call) : Call := Chan.nread.wake (Chan.nwrite.wake call)

theorem kill_call_self (W : Ipc.World) (q : ℕ) : (W.kill q).call q = Call.kill (W.call q) := by
  simp only [Ipc.World.kill, Function.update_self]
  cases W.call q <;> rfl

theorem kill_call_of_ne (W : Ipc.World) (other : r ≠ q) : (W.kill q).call r = W.call r := by
  simp [Ipc.World.kill, other]

theorem Writes.kill (writes : Writes W w q n rest) : Writes (W.kill q) (w.kill q) q n rest := by
  rcases writes with ⟨first, stored, may, goesOn⟩
  refine ⟨first, stored, ?_, goesOn⟩
  rw [kill_call_self]
  exact may.wake.wake

theorem Reads.kill {after : List Byte × Pipe} (reads : Reads W q n after) :
    Reads (W.kill q) q n after := by
  rcases reads with ⟨may, goesOn⟩
  refine ⟨?_, goesOn⟩
  rw [kill_call_self]
  exact may.wake.wake

/-- A `kill` of the process with the lock changes nothing until its next test. -/
theorem Within.kill (within : Within W w q stmt) : Within (W.kill q) (w.kill q) q stmt := by
  cases stmt with
  | writeTest n rest => exact Writes.kill within
  | writeFull n rest => exact ⟨Writes.kill within.1, within.2⟩
  | writeWakeup n rest =>
      rcases within with ⟨same, ⟨woken, writing⟩, readers⟩
      refine ⟨same, ⟨true, ?_⟩, ?_⟩
      · rw [kill_call_self, writing]
        rfl
      · intro r k flag reading
        rcases eq_or_ne r q with rfl | other
        · rw [kill_call_self, writing] at reading
          cases reading
        · rw [kill_call_of_ne W other] at reading
          exact readers r k flag reading
  | writeSleep n rest =>
      rcases within with ⟨same, woken, writing⟩
      refine ⟨same, true, ?_⟩
      rw [kill_call_self, writing]
      rfl
  | writeDone n => exact Writes.kill within
  | readTest n =>
      refine ⟨within.1, ?_⟩
      rw [kill_call_self]
      exact within.2.wake.wake
  | readEmpty n =>
      refine ⟨within.1, ?_, within.2.2⟩
      rw [kill_call_self]
      exact within.2.1.wake.wake
  | readSleep n =>
      rcases within with ⟨same, woken, reading⟩
      refine ⟨same, true, ?_⟩
      rw [kill_call_self, reading]
      rfl
  | readCopy n i => exact Reads.kill within
  | readDone i =>
      rcases within with ⟨n, reads⟩
      exact ⟨n, reads.kill⟩
  | closeFlag writable | closeWakeup writable | release =>
      refine ⟨within.1, ?_⟩
      rw [kill_call_self, within.2]
      rfl

/-- What the `kill` of another process changes does not matter to the process with the lock. -/
theorem Within.kill_of_ne (other : q ≠ r) (within : Within W w q stmt) :
    Within (W.kill r) (w.kill r) q stmt := by
  have call : (W.kill r).call q = W.call q := kill_call_of_ne W other
  cases stmt with
  | writeWakeup n rest =>
      rcases within with ⟨same, writing, readers⟩
      refine ⟨same, by rwa [call], ?_⟩
      intro r' k flag reading
      rcases eq_or_ne r' r with rfl | other'
      · rw [kill_call_self] at reading
        cases before : W.call r' with
        | reading k' flag' =>
            rw [before] at reading
            cases reading
            rfl
        | _ =>
            rw [before] at reading
            cases reading
      · rw [kill_call_of_ne W other'] at reading
        exact readers r' k flag reading
  | _ =>
      simp only [Within, Writes, Reads, call] at within ⊢
      exact within

/-- A `kill` is one step of both machines. -/
theorem Related.kill (related : Related W w) : Related (W.kill q) (w.kill q) where
  killed := by
    change Function.update W.killed q true = Function.update w.killed q true
    rw [related.killed]
  isOpen := related.isOpen
  idle := related.idle
  holder := by
    intro r stmt holds
    rcases eq_or_ne r q with rfl | other
    · cases before : w.pc r with
      | holds next =>
          simp only [World.kill, Function.update_self, before] at holds
          cases holds
          have there := related.holder r stmt before
          exact ⟨there.1, there.2.kill⟩
      | _ =>
          simp only [World.kill, Function.update_self, before] at holds
          cases holds
    · simp only [World.kill, Function.update_of_ne other] at holds
      have there := related.holder r stmt holds
      exact ⟨there.1, there.2.kill_of_ne other⟩
  outside := by
    intro r waits
    rcases eq_or_ne r q with rfl | other
    · rw [kill_call_self]
      cases before : w.pc r with
      | holds next =>
          simp only [World.kill, Function.update_self, before] at waits
          exact absurd rfl (waits next)
      | asleep chan next =>
          have outside := related.outside r (by simp [before])
          rw [before] at outside
          simp only [World.kill, Function.update_self, before]
          -- Whatever it sleeps on, its call has been woken up.
          cases chan with
          | nread => exact Asleep.ready (Asleep.wake outside)
          | nwrite => exact Ready.wake (Asleep.ready outside)
      | _ =>
          have outside := related.outside r (by simp [before])
          rw [before] at outside
          simp only [World.kill, Function.update_self, before]
          exact outside.wake.wake
    · rw [kill_call_of_ne W other]
      simp only [World.kill, Function.update_of_ne other] at waits ⊢
      exact related.outside r waits

/-! ## The processes without the lock -/

namespace Related

/-- The process starts a call. -/
theorem start (related : Related W w) (started : Locked.start w q next = some w')
    (ready : W.call q = .out → Ready (W.call q) next) : Related W w' := by
  rw [Locked.start] at started
  cases outside : w.pc q with
  | out =>
      rw [outside] at started
      cases started
      have out := related.outside q (by simp [outside])
      rw [outside] at out
      refine ⟨related.killed, related.isOpen, related.idle, ?_, ?_⟩
      · intro r stmt holds
        rcases eq_or_ne r q with rfl | other
        · simp at holds
        · simp only [Function.update_of_ne other] at holds
          exact related.holder r stmt holds
      · intro r waits
        rcases eq_or_ne r q with rfl | other
        · simp only [Function.update_self]
          exact ready out
        · simp only [Function.update_of_ne other] at waits ⊢
          exact related.outside r waits
  | _ =>
      rw [outside] at started
      cases started

/-- A process gets the lock, where its stretch begins. -/
theorem acquire (related : Related W w) (waits : w.pc q = .acquire next) (free : w.lock = none) :
    Related W { w.goto q next with lock := some q } := by
  have same := related.idle free
  have ready := related.outside q (by simp [waits])
  rw [waits] at ready
  refine ⟨related.killed, related.isOpen, ?_, ?_, ?_⟩
  · intro busy
    cases busy
  · intro r stmt holds
    rcases eq_or_ne r q with rfl | other
    · rw [World.goto_pc_self] at holds
      cases holds
      refine ⟨rfl, ?_⟩
      cases next with
      | writeTest n rest => exact ⟨rest, [], ready, fun killed => by rw [same]; rfl⟩
      | readTest n => exact ⟨same, ready⟩
      | closeFlag writable => exact ⟨same, ready⟩
      | _ => exact ready.elim
    · have before : (w.goto q next).pc r = w.pc r := World.goto_pc_of_ne other
      have locked := (related.holder r stmt (before ▸ holds)).1
      rw [free] at locked
      cases locked
  · intro r outside
    rcases eq_or_ne r q with rfl | other
    · exact absurd World.goto_pc_self (outside next)
    · have before : (w.goto q next).pc r = w.pc r := World.goto_pc_of_ne other
      change Outside _ ((w.goto q next).pc r)
      rw [before]
      exact related.outside r fun stmt holds => outside stmt (before.trans holds)

theorem step {e : Event} (related : Related W w) (stepped : Locked.step w e = some w') :
    Follows W w' := by
  cases e with
  | pipewrite p bytes =>
      exact (related.start stepped fun out => .inl ⟨out, by simp⟩).follows
  | piperead p n => exact (related.start stepped fun out => .inl out).follows
  | pipeclose p writable => exact (related.start stepped fun out => out).follows
  | run p =>
      simp only [Locked.step] at stepped
      cases before : w.pc p with
      | acquire next =>
          simp only [before, Option.ite_none_right_eq_some] at stepped
          rcases stepped with ⟨⟨free, _⟩, ⟨⟩⟩
          exact (related.acquire before free).follows
      | holds next =>
          simp only [before] at stepped
          cases stepped
          exact related.statement before
      | _ =>
          simp only [before] at stepped
          cases stepped
  | kill p =>
      cases stepped
      have killed : Ipc.Step W (W.kill p) :=
        ⟨.kill p, none, by simp [Ipc.step, Pipe.open_iff.mp related.isOpen]⟩
      exact ⟨W.kill p, .single killed, .inl related.kill⟩

end Related

namespace Freed

theorem start (freed : Freed W w) (started : Locked.start w q next = some w') : Freed W w' := by
  rw [Locked.start] at started
  split at started
  · cases started
    refine ⟨freed.closed, freed.pipe, ?_⟩
    intro r stmt holds
    rcases eq_or_ne r q with rfl | other
    · simp at holds
    · simp only [Function.update_of_ne other] at holds
      exact freed.holder r stmt holds
  · cases started

/-- Nobody gets the lock of a pipe that has been freed. -/
theorem step {e : Event} (freed : Freed W w) (stepped : Locked.step w e = some w') :
    Freed W w' := by
  cases e with
  | pipewrite p bytes => exact freed.start stepped
  | piperead p n => exact freed.start stepped
  | pipeclose p writable => exact freed.start stepped
  | run p =>
      simp only [Locked.step] at stepped
      cases before : w.pc p with
      | acquire next =>
          simp only [before, Option.ite_none_right_eq_some] at stepped
          exact absurd stepped.1.2 freed.closed
      | holds next =>
          simp only [before] at stepped
          cases stepped
          cases freed.holder p next before
          refine ⟨freed.closed, freed.pipe, ?_⟩
          intro r stmt holds
          rcases eq_or_ne r p with rfl | other
          · simp [World.statement] at holds
          · simp only [World.statement, World.leave, Function.update_of_ne other] at holds
            exact freed.holder r stmt holds
      | _ =>
          simp only [before] at stepped
          cases stepped
  | kill p =>
      cases stepped
      refine ⟨freed.closed, freed.pipe, ?_⟩
      intro r stmt holds
      rcases eq_or_ne r p with rfl | other
      · cases before : w.pc r with
        | holds next =>
            simp only [World.kill, Function.update_self, before] at holds
            cases holds
            exact freed.holder r stmt before
        | _ =>
            simp only [World.kill, Function.update_self, before] at holds
            cases holds
      · simp only [World.kill, Function.update_of_ne other] at holds
        exact freed.holder r stmt holds

end Freed

/-! ## Runs -/

/-- Every run of the statements is one of the stretches: with the lock free, the pipe is the same in
both. -/
theorem stretches_of_run {data : Fin PIPESIZE → Byte} {killed : ℕ → Bool}
    (run : ReflTransGen (fun s s' => ∃ event, step s event = some s') (World.init data killed) w) :
    ∃ W, ReflTransGen Ipc.Step (Ipc.World.init data killed) W ∧
      (w.lock = none → W.pipe = w.pipe) := by
  have init : Related (Ipc.World.init data killed) (World.init data killed) :=
    { killed := rfl
      isOpen := .inl rfl
      idle := fun _ => rfl
      holder := fun q next holds => by cases holds
      outside := fun q _ => rfl }
  have simulates : ∀ s s' W, (∃ event, step s event = some s') → Related W s ∨ Freed W s →
      Follows W s' := by
    rintro s s' W ⟨event, stepped⟩ (related | freed)
    · exact related.step stepped
    · exact ⟨W, .refl, .inr (freed.step stepped)⟩
  rcases Runs.simulates_run simulates run (.inl init) with ⟨W, stretches, related | freed⟩
  · exact ⟨W, stretches, related.idle⟩
  · exact ⟨W, stretches, fun _ => freed.pipe⟩

/-- One statement at a time, a writer stores no more than the pipe holds either. -/
theorem count_le_of_run {data : Fin PIPESIZE → Byte} {killed : ℕ → Bool}
    (run : ReflTransGen (fun s s' => ∃ event, step s event = some s') (World.init data killed) w)
    (free : w.lock = none) : w.pipe.count ≤ PIPESIZE := by
  rcases stretches_of_run run with ⟨W, stretches, same⟩
  rw [← same free]
  exact (Queue.run stretches).bounded

end Xv6.Ipc.Locked
