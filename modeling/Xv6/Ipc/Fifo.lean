import Xv6.Ipc.Pipe
import Xv6.Lib.Ring
import Mathlib.Logic.Relation

/-!
# A pipe is a FIFO

The bytes in a pipe are the slots of its ring between the two counters. A stretch of
`pipewrite` appends the bytes it stores to them and a stretch of `piperead` removes the
bytes it delivers from their head, so that what has been stored is at all times what has
been delivered followed by the contents. The counters wrap at a multiple of `PIPESIZE`,
so only their difference modulo `2 ^ 32` counts.
-/

namespace Xv6.Ipc

open Relation

/-- The number of bytes in the pipe. -/
def Pipe.count (p : Pipe) : ℕ := (p.nwrite - p.nread).toNat

/-- The bytes in the pipe, first the one to be read next. -/
def Pipe.contents (p : Pipe) : List Byte := Ring.slots p.data p.nread.toNat p.count

variable {p : Pipe} {w w' : World} {e : Event} {n : ℤ} {r : Option ℤ}

/-! ## The counters -/

theorem Pipe.slot_nwrite (p : Pipe) :
    Fin.ofNat PIPESIZE p.nwrite.toNat = Fin.ofNat PIPESIZE (p.nread.toNat + p.count) := by
  refine Fin.ext ?_
  change p.nwrite.toNat % PIPESIZE = (p.nread.toNat + p.count) % PIPESIZE
  simp only [Pipe.count, PIPESIZE]
  bv_omega

theorem Pipe.count_eq_zero : p.count = 0 ↔ p.nread = p.nwrite := by
  simp only [Pipe.count]
  constructor
  · intro none
    bv_omega
  · rintro same
    simp [same]

/-- A pipe that is not full, as `pipewrite` tests it, has room for a byte. -/
theorem Pipe.count_lt (bounded : p.count ≤ PIPESIZE)
    (notFull : p.nwrite ≠ p.nread + BitVec.ofNat 32 PIPESIZE) : p.count < PIPESIZE := by
  refine lt_of_le_of_ne bounded fun full => notFull ?_
  simp only [Pipe.count, PIPESIZE] at *
  bv_omega

/-! ## One byte -/

/-- The pipe after `pipewrite` has stored one byte. -/
def Pipe.push (p : Pipe) (b : Byte) : Pipe :=
  { p with
    data := Function.update p.data (Fin.ofNat PIPESIZE p.nwrite.toNat) b
    nwrite := p.nwrite + 1 }

theorem Pipe.count_push (room : p.count < PIPESIZE) (b : Byte) :
    (p.push b).count = p.count + 1 := by
  simp only [Pipe.count, Pipe.push, PIPESIZE] at *
  bv_omega

theorem Pipe.contents_push (room : p.count < PIPESIZE) (b : Byte) :
    (p.push b).contents = p.contents ++ [b] := by
  rw [Pipe.contents, Pipe.count_push room]
  simp only [Pipe.push, Pipe.slot_nwrite]
  exact Ring.slots_push room b

/-- The pipe after `piperead` has taken one byte. -/
def Pipe.pop (p : Pipe) : Pipe := { p with nread := p.nread + 1 }

theorem Pipe.count_pop (some : p.nread ≠ p.nwrite) : p.pop.count + 1 = p.count := by
  simp only [Pipe.count, Pipe.pop]
  bv_omega

theorem Pipe.contents_pop (some : p.nread ≠ p.nwrite) :
    p.contents = p.data (Fin.ofNat PIPESIZE p.nread.toNat) :: p.pop.contents := by
  rw [Pipe.contents, ← Pipe.count_pop some, Ring.slots_pop, Pipe.contents]
  refine congrArg _ (Ring.slots_congr ?_)
  simp only [Pipe.pop, PIPESIZE]
  bv_omega

/-! ## Stretches -/

/-- A stretch of `pipewrite` appends the bytes it stores. -/
theorem pipewrite_contents (killed : Bool) (n : ℤ) (rest : List Byte)
    (bounded : p.count ≤ PIPESIZE) :
    (pipewrite killed n p rest).pipe.count ≤ PIPESIZE ∧
      (pipewrite killed n p rest).pipe.contents =
        p.contents ++ (pipewrite killed n p rest).bytes := by
  induction rest generalizing p with
  | nil => simpa [pipewrite] using bounded
  | cons b rest ih =>
      rw [pipewrite]
      split_ifs with full fails
      · simpa using bounded
      · simpa using bounded
      · have room := Pipe.count_lt bounded full
        have next : (p.push b).count ≤ PIPESIZE := by
          rw [Pipe.count_push room]
          exact room
        rcases ih next with ⟨bounded', contents⟩
        refine ⟨bounded', ?_⟩
        have stored := contents
        rw [Pipe.contents_push room, List.append_assoc, List.singleton_append] at stored
        exact stored

/-- The copying loop of `piperead` removes the bytes it delivers. -/
theorem copy_contents (n : ℕ) :
    (copy p n).2.count ≤ p.count ∧ p.contents = (copy p n).1 ++ (copy p n).2.contents := by
  induction n generalizing p with
  | zero => exact ⟨le_rfl, rfl⟩
  | succ n ih =>
      rw [copy]
      split_ifs with empty
      · exact ⟨le_rfl, rfl⟩
      · have taken := Pipe.count_pop empty
        rcases ih (p := p.pop) with ⟨fewer, contents⟩
        refine ⟨fewer.trans (by omega), ?_⟩
        rw [Pipe.contents_pop empty, contents]
        rfl

theorem piperead_contents (killed : Bool) (n : ℤ) :
    (piperead killed n p).pipe.count ≤ p.count ∧
      p.contents = (piperead killed n p).bytes ++ (piperead killed n p).pipe.contents := by
  rw [piperead]
  split_ifs with waits dies
  · exact ⟨le_rfl, rfl⟩
  · exact ⟨le_rfl, rfl⟩
  · exact copy_contents n.toNat

@[simp]
theorem World.writes_delivered (q : ℕ) (rest : List Byte) :
    (w.writes q n rest).1.delivered = w.delivered := by
  simp only [World.writes]
  split_ifs <;> rfl

@[simp]
theorem World.reads_stored (q : ℕ) : (w.reads q n).1.stored = w.stored := by
  simp only [World.reads]
  split_ifs <;> rfl

/-! ## Runs -/

/-- What has been stored is what has been delivered, followed by what is in the pipe. -/
structure Queue (w : World) : Prop where
  bounded : w.pipe.count ≤ PIPESIZE
  queue : w.stored = w.delivered ++ w.pipe.contents

namespace Queue

theorem init (data : Fin PIPESIZE → Byte) (killed : ℕ → Bool) :
    Queue (World.init data killed) := by
  have empty : (World.init data killed).pipe.count = 0 := Pipe.count_eq_zero.mpr rfl
  constructor
  · rw [empty]
    exact Nat.zero_le _
  · rw [Pipe.contents, empty, Ring.slots_zero]
    rfl

theorem congr (inv : Queue w) (data : w'.pipe.data = w.pipe.data)
    (nread : w'.pipe.nread = w.pipe.nread) (nwrite : w'.pipe.nwrite = w.pipe.nwrite)
    (stored : w'.stored = w.stored) (delivered : w'.delivered = w.delivered) : Queue w' where
  bounded := by
    rw [Pipe.count, nread, nwrite]
    exact inv.bounded
  queue := by
    rw [stored, delivered, inv.queue, Pipe.contents, Pipe.contents, Pipe.count, Pipe.count, data,
      nread, nwrite]

theorem writes (inv : Queue w) (q : ℕ) (n : ℤ) (rest : List Byte) :
    Queue (w.writes q n rest).1 := by
  rcases pipewrite_contents (w.killed q) n rest inv.bounded with ⟨bounded, contents⟩
  refine ⟨bounded, ?_⟩
  rw [World.writes_delivered]
  change w.stored ++ _ = w.delivered ++ _
  rw [inv.queue, List.append_assoc]
  exact congrArg _ contents.symm

theorem reads (inv : Queue w) (q : ℕ) (n : ℤ) : Queue (w.reads q n).1 := by
  rcases piperead_contents (p := w.pipe) (w.killed q) n with ⟨fewer, contents⟩
  refine ⟨fewer.trans inv.bounded, ?_⟩
  rw [World.reads_stored]
  change w.stored = (w.delivered ++ _) ++ _
  rw [inv.queue, List.append_assoc]
  exact congrArg _ contents

/-- Every step keeps the queue. -/
theorem step (inv : Queue w) (stepped : Ipc.step w e = some (w', r)) : Queue w' := by
  unfold Ipc.step at stepped
  split_ifs at stepped
  cases e with
  | pipewrite q bytes n =>
      simp only at stepped
      split at stepped
      · split_ifs at stepped
        cases stepped
        exact inv.writes q n bytes
      · cases stepped
  | piperead q n =>
      simp only at stepped
      split at stepped
      · cases stepped
        exact inv.reads q n
      · cases stepped
  | resume q =>
      simp only at stepped
      split at stepped
      · cases stepped
        exact inv.writes q _ _
      · cases stepped
        exact inv.reads q _
      · cases stepped
  | kill q =>
      cases stepped
      exact inv.congr rfl rfl rfl rfl rfl
  | pipeclose writable =>
      cases stepped
      cases writable
      · exact inv.congr rfl rfl rfl rfl rfl
      · exact inv.congr rfl rfl rfl rfl rfl

end Queue

def Step (w w' : World) : Prop := ∃ e r, step w e = some (w', r)

theorem Queue.run {data : Fin PIPESIZE → Byte} {killed : ℕ → Bool}
    (run : ReflTransGen Step (World.init data killed) w) : Queue w := by
  induction run with
  | refl => exact Queue.init data killed
  | tail _ last ih =>
      rcases last with ⟨e, r, stepped⟩
      exact ih.step stepped

end Xv6.Ipc
