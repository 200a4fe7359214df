import Xv6.Dev.Queue

/-!
# Transfers in one step

The models of the log and of the file system read and write the disk a block at a time, each
block in one step. `ide.c` carries out a transfer in several: a request waits in the queue,
the drive does its part, and the interrupt handler does the rest. As long as the drive reports
no error, nobody can tell the difference: every run of the driver is one of a machine in which
each call of `iderw` transfers its block once, in one step between the call and the return.
-/

namespace Xv6.Dev

namespace Atomic

inductive Pc where
  | out
  /-- In `iderw`, before the transfer and after it. -/
  | asked (b : Fin NBUF)
  | finished (b : Fin NBUF)
  deriving DecidableEq

@[ext] structure World where
  buf : Fin NBUF → Buf
  disk : Bool → ℕ → Block
  pc : ℕ → Pc

inductive Event where
  | acquiresleep (p : ℕ) (b : Fin NBUF)
  | releasesleep (p : ℕ) (b : Fin NBUF)
  | recycle (b : Fin NBUF) (dev blockno : Word)
  | store (p : ℕ) (b : Fin NBUF) (data : Block)
  | setDirty (p : ℕ) (b : Fin NBUF)
  /-- `iderw` is called, transfers its block, and returns. -/
  | call (p : ℕ) (b : Fin NBUF)
  | transfer (p : ℕ)
  | ret (p : ℕ)

namespace World

variable (w : World)

def setBuf (b : Fin NBUF) (buf : Buf) : World := { w with buf := Function.update w.buf b buf }

def goto (p : ℕ) (pc : Pc) : World := { w with pc := Function.update w.pc p pc }

/-- A dirty buffer is written, and any other one is read. -/
def transfer (b : Fin NBUF) : World :=
  let buf := w.buf b
  let place := buf.place
  if buf.dirty then
    { w with disk := Function.update w.disk place.1 (Function.update
      (w.disk place.1) place.2 buf.data) }.setBuf b
      { buf with valid := true, dirty := false }
  else w.setBuf b { buf with data := w.disk place.1 place.2, valid := true }

end World

def step (w : World) : Event → Option World
  | .acquiresleep p b =>
      if w.pc p = .out ∧ (w.buf b).lock = none then
        some (w.setBuf b { w.buf b with lock := some p }) else none
  | .releasesleep p b =>
      if w.pc p = .out ∧ (w.buf b).lock = some p then
        some (w.setBuf b { w.buf b with lock := none }) else none
  | .recycle b dev blockno =>
      if (w.buf b).lock = none then
        some (w.setBuf b { w.buf b with dev := dev, blockno := blockno, valid := false, dirty :=
          false })
      else none
  | .store p b data =>
      if w.pc p = .out ∧ (w.buf b).lock = some p then
        some (w.setBuf b { w.buf b with data := data }) else none
  | .setDirty p b =>
      if w.pc p = .out ∧ (w.buf b).lock = some p then
        some (w.setBuf b { w.buf b with dirty := true }) else none
  | .call p b =>
      if w.pc p = .out ∧ (w.buf b).lock = some p ∧ ¬(w.buf b).Clean then
        some (w.goto p (.asked b)) else none
  | .transfer p =>
      match w.pc p with
      | .asked b => some ((w.transfer b).goto p (.finished b))
      | _ => none
  | .ret p =>
      match w.pc p with
      | .finished _ => some (w.goto p .out)
      | _ => none

end Atomic

/-! ## What the atomic machine sees -/

variable {w w' : World} {p q : ℕ} {b c : Fin NBUF}

namespace World

/-- The buffer whose transfer the drive has finished, with the sector in the data port. -/
def arrived (w : World) : Option (Fin NBUF × Block) :=
  match w.drive, w.idequeue with
  | .done true sector, some b => some (b, sector)
  | _, _ => none

/-- The buffers as they are once `ideintr` has done its part. -/
def served (w : World) (b : Fin NBUF) : Buf :=
  match w.arrived with
  | some (c, sector) => if b = c then completed true sector (w.buf b) else w.buf b
  | none => w.buf b

/-- A process in `iderw`, before or after the transfer. -/
def progress (served : Fin NBUF → Buf) : Pc → Atomic.Pc
  | .out => .out
  | .asleep b => if (served b).Clean then .finished b else .asked b
  | .woken b => if (served b).Clean then .finished b else .asked b

def atomic (w : World) : Atomic.World where
  buf := w.served
  disk := w.disk
  pc := fun p => progress w.served (w.pc p)

theorem served_of_none (none_ : w.arrived = none) : w.served = w.buf := by
  funext b
  rw [served, none_]

theorem served_of_ne {sector : Block} (arrived : w.arrived = some (c, sector)) (other : b ≠ c) :
    w.served b = w.buf b := by
  rw [served, arrived]
  exact if_neg other

theorem served_self {sector : Block} (arrived : w.arrived = some (b, sector)) :
    w.served b = completed true sector (w.buf b) := by
  rw [served, arrived]
  exact if_pos rfl

theorem arrived_of_not_done (busy : ∀ ok sector, w.drive ≠ .done ok sector) : w.arrived = none := by
  rw [arrived]
  split
  next sector b done _ => exact absurd done (busy true sector)
  next => rfl

theorem arrived_congr (drive : w'.drive = w.drive) (idequeue : w'.idequeue = w.idequeue) :
    w'.arrived = w.arrived := by
  rw [arrived, arrived, drive, idequeue]

/-- What has arrived is for the first buffer in the queue. -/
theorem Inv.mem_of_arrived (inv : w.Inv) {sector : Block} (arrived : w.arrived = some (b, sector)) :
    b ∈ w.queue := by
  rw [World.arrived] at arrived
  split at arrived <;> cases arrived
  next head _ =>
    have first := inv.chain.head_eq
    rw [head] at first
    exact List.mem_of_mem_head? first.symm

theorem Inv.served_of_not_mem (inv : w.Inv) (outside : b ∉ w.queue) : w.served b = w.buf b := by
  cases arrived : w.arrived with
  | none => rw [served_of_none arrived]
  | some r => exact served_of_ne arrived (ne_of_mem_of_not_mem
    (inv.mem_of_arrived arrived) outside).symm

theorem progress_eq_out {f : Fin NBUF → Buf} {pc : Pc} : progress f pc = .out ↔ pc = .out := by
  cases pc with
  | out => exact iff_of_true rfl rfl
  | asleep b =>
      rw [progress]
      split <;> simp
  | woken b =>
      rw [progress]
      split <;> simp

theorem progress_of_waits (waits : w.Waits p b) :
    w.atomic.pc p = if (w.served b).Clean then .finished b else .asked b := by
  rcases waits with asleep | woken
  · change progress w.served (w.pc p) = _
    rw [asleep, progress]
  · change progress w.served (w.pc p) = _
    rw [woken, progress]

/-- A process that is moved within `iderw` looks the same. -/
theorem atomic_goto {pc : Pc} (same : progress w.served pc = progress w.served (w.pc p)) :
    (w.goto p pc).atomic = w.atomic := by
  refine Atomic.World.ext rfl rfl (funext fun q => ?_)
  change progress w.served (Function.update w.pc p pc q) = progress w.served (w.pc q)
  by_cases here : q = p
  · subst here
    rw [Function.update_self, same]
  · rw [Function.update_of_ne here]

/-- What is done to a buffer that nobody has in `iderw`. -/
theorem Inv.atomic_setBuf (inv : w.Inv) (nobody : ∀ q, ¬w.Waits q b) (buf : Buf) :
    (w.setBuf b buf).atomic = w.atomic.setBuf b buf := by
  have outside := inv.not_queued nobody
  have served : (w.setBuf b buf).served = Function.update w.served b buf := by
    have arrived : (w.setBuf b buf).arrived = w.arrived := arrived_congr rfl rfl
    funext c
    by_cases same : c = b
    · subst same
      rw [Function.update_self, (inv.setBuf nobody buf).served_of_not_mem outside]
      exact Function.update_self _ _ _
    · rw [Function.update_of_ne same, World.served, World.served, arrived]
      have kept : (w.setBuf b buf).buf c = w.buf c := Function.update_of_ne same _ _
      rw [kept]
  refine Atomic.World.ext served rfl (funext fun q => ?_)
  change progress (w.setBuf b buf).served (w.pc q) = progress w.served (w.pc q)
  rw [served]
  cases at_pc : w.pc q with
  | out => rfl
  | asleep c =>
      have other : c ≠ b := by
        rintro rfl
        exact nobody q (.inl at_pc)
      rw [progress, progress, Function.update_of_ne other]
  | woken c =>
      have other : c ≠ b := by
        rintro rfl
        exact nobody q (.inr at_pc)
      rw [progress, progress, Function.update_of_ne other]

end World

/-! ## The refinement -/

/-- What an event is to the atomic machine: the drive transfers the block when it has carried out
its command, on behalf of the process that has locked the first buffer. -/
def label (w : World) : Event → List Atomic.Event
  | .acquiresleep p b => [.acquiresleep p b]
  | .releasesleep p b => [.releasesleep p b]
  | .recycle b dev blockno => [.recycle b dev blockno]
  | .store p b data => [.store p b data]
  | .setDirty p b => [.setDirty p b]
  | .iderw p b => [.call p b]
  | .resume p =>
      match w.pc p with
      | .woken b => if (w.buf b).Clean then [.ret p] else []
      | _ => []
  | .kill _ => []
  | .finish _ =>
      match w.idequeue with
      | some b => (w.buf b).lock.toList.map .transfer
      | none => []
  | .ideintr => []

/-- The drive has reported no error. -/
def Reliable (w : World) : Prop := ∀ sector, w.drive ≠ .done false sector

/-- A step of the driver is what its label says. -/
def Simulates (w : World) (e : Event) (w' : World) : Prop :=
  (label w e).foldlM Atomic.step w.atomic = some w'.atomic ∧ Reliable w'

theorem simulates_one {a : Atomic.Event} {e : Event} (labelled : label w e = [a])
    (stepped : Atomic.step w.atomic a = some w'.atomic) (reliable : Reliable w') :
    Simulates w e w' := by
  refine ⟨?_, reliable⟩
  rw [labelled, List.foldlM_cons, stepped]
  rfl

theorem simulates_none {e : Event} (labelled : label w e = []) (same : w'.atomic = w.atomic)
    (reliable : Reliable w') :
    Simulates w e w' := by
  refine ⟨?_, reliable⟩
  rw [labelled, same]
  rfl

namespace World

theorem atomic_pc_out : w.atomic.pc p = .out ↔ w.pc p = .out := progress_eq_out

theorem Inv.atomic_buf (inv : w.Inv) (nobody : ∀ q, ¬w.Waits q b) : w.atomic.buf b = w.buf b :=
  inv.served_of_not_mem (inv.not_queued nobody)

/-- A process that joins the queue leaves the disk as it is. -/
theorem Inv.simulates_iderw (inv : w.Inv) (reliable : Reliable w) (out : w.pc p = .out)
    (ready : w.Ready p b) (called : w.iderw p b = .ok w') : Simulates w (.iderw p b) w' := by
  rcases inv.iderw out ready with ⟨_, same, inv', queue, buf, disk, pc, _, drive⟩
  rw [called] at same
  cases same
  have arrived : w'.arrived = w.arrived := by
    rcases drive with ⟨drive, head⟩ | ⟨head, c, busy⟩
    · exact arrived_congr drive head
    · have nothing : w.arrived = none := by
        rw [World.arrived, head]
        split
        next found => cases found
        next => rfl
      rw [nothing]
      refine arrived_of_not_done fun ok sector done => ?_
      rw [busy] at done
      cases done
  have served : w'.served = w.served := by
    funext c
    rw [World.served, World.served, arrived, buf]
  have fresh := inv.served_of_not_mem (inv.fresh out ready)
  have buf_b : w.atomic.buf b = w.buf b := fresh
  refine simulates_one rfl ?_ ?_
  · simp only [Atomic.step]
    rw [if_pos ⟨atomic_pc_out.mpr out, by
      rw [buf_b]; exact ready.lock, by rw [buf_b]; exact ready.work⟩]
    refine congrArg some (Atomic.World.ext served.symm disk.symm (funext fun q => ?_))
    change Function.update w.atomic.pc p (.asked b) q = progress w'.served (w'.pc q)
    rw [served, pc]
    by_cases same : q = p
    · subst same
      rw [Function.update_self, Function.update_self, progress, fresh, if_neg ready.work]
    · rw [Function.update_of_ne same, Function.update_of_ne same]
      rfl
  · intro sector done
    rcases drive with ⟨drive, _⟩ | ⟨_, c, busy⟩
    · exact reliable sector (drive ▸ done)
    · rw [busy] at done
      cases done

/-- A process that wakes up goes on or sleeps again. -/
theorem Inv.simulates_wait (inv : w.Inv) (reliable : Reliable w) (woken : w.pc p = .woken b) :
    Simulates w (.resume p) (w.wait p b) := by
  have waits : w.Waits p b := .inr woken
  by_cases clean : (w.buf b).Clean
  · rw [World.wait, if_pos clean]
    have outside : b ∉ w.queue := fun mem => (inv.queued b mem).1 clean
    have fresh := inv.served_of_not_mem outside
    refine simulates_one (a := .ret p) ?_ ?_ reliable
    · simp only [label, woken, if_pos clean]
    · have at_pc : w.atomic.pc p = .finished b := by
        rw [progress_of_waits waits, fresh, if_pos clean]
      simp only [Atomic.step, at_pc]
      refine congrArg some (Atomic.World.ext rfl rfl (funext fun q => ?_))
      change Function.update w.atomic.pc p .out q =
        progress w.served (Function.update w.pc p .out q)
      by_cases same : q = p
      · subst same
        rw [Function.update_self, Function.update_self, progress]
      · rw [Function.update_of_ne same, Function.update_of_ne same]
        rfl
  · rw [World.wait, if_neg clean]
    refine simulates_none ?_ (atomic_goto ?_) reliable
    · simp only [label, woken, if_neg clean]
    · rw [woken]
      rfl

/-- The end of a command is the transfer, for the machine in which transfers are atomic. -/
theorem Inv.simulates_finish (inv : w.Inv) {command : Command} (busy : w.drive = .busy command) :
    Simulates w (.finish true) (w.finish command true) := by
  cases listing : w.queue with
  | nil =>
      have ready := inv.idle listing
      rw [busy] at ready
      cases ready
  | cons b l =>
      have head : w.idequeue = some b := by rw [inv.chain.head_eq, listing, List.head?_cons]
      rcases inv.queued b (listing ▸ List.mem_cons_self) with ⟨work, _, p, waits⟩
      have lock := (inv.waiting p b waits).1
      have nothing : w.arrived = none := by
        refine arrived_of_not_done fun ok sector done => ?_
        rw [busy] at done
        cases done
      have arrived : (w.finish command true).arrived =
          some (b, w.disk command.disk command.sector) := by
        have drive : (w.finish command true).drive =
            .done true (w.disk command.disk command.sector) := rfl
        have head' : (w.finish command true).idequeue = some b := head
        rw [World.arrived, drive, head']
      have started : idestart (w.buf b) = .ok command := by
        rcases inv.working b l listing with ⟨c, started, drive⟩ | ⟨_, _, drive, _⟩
        · rw [busy] at drive
          cases drive
          exact started
        · rw [busy] at drive
          cases drive
      rcases idestart_place started with ⟨place, written, code⟩
      have disk : command.disk = (w.buf b).place.1 := congrArg Prod.fst place
      have sector : command.sector = (w.buf b).place.2 := congrArg Prod.snd place
      have before : w.served = w.buf := served_of_none nothing
      have after : (w.finish command true).served = Function.update w.buf b
          (completed true (w.disk command.disk command.sector) (w.buf b)) := by
        funext c
        by_cases same : c = b
        · subst same
          rw [served_self arrived, Function.update_self]
          rfl
        · rw [served_of_ne arrived same, Function.update_of_ne same]
          rfl
      have alone : ∀ q, w.Waits q b → q = p := by
        intro q waits'
        have lock' := (inv.waiting q b waits').1
        rw [lock] at lock'
        exact (Option.some.inj lock').symm
      refine simulates_one (a := .transfer p) ?_ ?_ nofun
      · simp only [label, head, lock, Option.toList_some, List.map_cons, List.map_nil]
      · have at_pc : w.atomic.pc
            p = .asked b := by rw [progress_of_waits waits, before, if_neg work]
        have buf_b : w.atomic.buf = w.buf := before
        simp only [Atomic.step, at_pc]
        refine congrArg some (Atomic.World.ext ?_ ?_ (funext fun q => ?_))
        · change (w.atomic.transfer b).buf = (w.finish command true).served
          rw [after, Atomic.World.transfer, buf_b]
          split
          next dirty =>
            simp only [Atomic.World.setBuf, completed, dirty, Bool.true_eq_false, false_and,
              if_false]
          next clean =>
            have clean' : (w.buf b).dirty = false := Bool.not_eq_true _ ▸ clean
            simp only [Atomic.World.setBuf, buf_b, completed, clean', and_self, if_true,
              ← disk, ← sector]
            rfl
        · change (w.atomic.transfer b).disk = (w.finish command true).disk
          rw [Atomic.World.transfer, buf_b]
          split
          next dirty =>
            rw [dirty, if_pos rfl] at written code
            simp only [Atomic.World.setBuf, World.finish, written, code, and_self, if_true,
              disk, sector]
            rfl
          next clean =>
            rw [if_neg clean] at written
            simp only [Atomic.World.setBuf, World.finish, written]
            rfl
        · have pcs : ((w.atomic.transfer b).goto p (.finished b)).pc = Function.update w.atomic.pc p
              (.finished b) := by
            rw [Atomic.World.transfer]
            split <;> rfl
          rw [pcs]
          change _ = progress (w.finish command true).served (w.pc q)
          by_cases same : q = p
          · subst same
            have done : (w.finish command true).atomic.pc q = .finished b := by
              have waits' : (w.finish command true).Waits q b := waits
              rw [progress_of_waits waits', after, Function.update_self, if_pos ⟨rfl, rfl⟩]
            rw [Function.update_self]
            exact done.symm
          · rw [Function.update_of_ne same]
            change progress w.served (w.pc q) = _
            rw [before, after]
            cases at_q : w.pc q with
            | out => rfl
            | asleep c =>
                have other : c ≠ b := by
                  rintro rfl
                  exact same (alone q (.inl at_q))
                rw [progress, progress, Function.update_of_ne other]
            | woken c =>
                have other : c ≠ b := by
                  rintro rfl
                  exact same (alone q (.inr at_q))
                rw [progress, progress, Function.update_of_ne other]

/-- The interrupt hands over what has been transferred. -/
theorem Inv.simulates_ideintr (inv : w.Inv) {sector : Block} (done : w.drive = .done true sector)
    (served : w.ideintr true sector = .ok w') : Simulates w .ideintr w' := by
  rcases inv.ideintr done with ⟨b, l, _, listing, same, _, _, buf, disk, pc, _, busy⟩
  rw [served] at same
  cases same
  have head : w.idequeue = some b := by rw [inv.chain.head_eq, listing, List.head?_cons]
  have arrived : w.arrived = some (b, sector) := by rw [World.arrived, done, head]
  have after : w'.served = w.served := by
    rw [served_of_none (arrived_of_not_done busy), buf]
    funext c
    by_cases same : c = b
    · subst same
      rw [Function.update_self, served_self arrived]
    · rw [Function.update_of_ne same, served_of_ne arrived same]
  refine simulates_none rfl (Atomic.World.ext after disk (funext fun q => ?_)) fun sector' =>
    busy false sector'
  change progress w'.served (w'.pc q) = progress w.served (w.pc q)
  rw [after, pc]
  simp only [World.wakeup]
  split
  next asleep =>
    rw [asleep]
    rfl
  next => rfl

/-- Every event of the driver is at most one step of the atomic machine. -/
theorem Inv.simulates (inv : w.Inv) (reliable : Reliable w) {e : Event} (careful : Careful w e)
    (noError : e ≠ .finish false) (stepped : Dev.step w e = some (.ok w')) : Simulates w e w' := by
  have free_of_none : ∀ {b : Fin NBUF}, (w.buf b).lock = none → ∀ q, ¬w.Waits q b := by
    intro b free
    refine inv.nobody fun q held => ?_
    rw [free] at held
    cases held
  have free_of_mine : ∀ {p : ℕ} {b : Fin NBUF}, w.pc p = .out ∧ (w.buf b).lock = some p →
      ∀ q, ¬w.Waits q b := by
    rintro p b ⟨out, lock⟩
    refine inv.nobody fun q held => ?_
    rw [lock] at held
    cases held
    exact out
  cases e with
  | acquiresleep p b =>
      simp only [Dev.step, Option.ite_none_right_eq_some] at stepped
      rcases stepped with ⟨⟨out, free⟩, ⟨⟩⟩
      have nobody := free_of_none free
      refine simulates_one rfl ?_ reliable
      rw [inv.atomic_setBuf nobody, Atomic.step, inv.atomic_buf nobody,
        if_pos ⟨atomic_pc_out.mpr out, free⟩]
  | releasesleep p b =>
      simp only [Dev.step, Option.ite_none_right_eq_some] at stepped
      rcases stepped with ⟨held, ⟨⟩⟩
      have nobody := free_of_mine held
      refine simulates_one rfl ?_ reliable
      rw [inv.atomic_setBuf nobody, Atomic.step, inv.atomic_buf nobody,
        if_pos ⟨atomic_pc_out.mpr held.1, held.2⟩]
  | recycle b dev blockno =>
      simp only [Dev.step, Option.ite_none_right_eq_some] at stepped
      rcases stepped with ⟨free, ⟨⟩⟩
      have nobody := free_of_none free
      refine simulates_one rfl ?_ reliable
      rw [inv.atomic_setBuf nobody, Atomic.step, inv.atomic_buf nobody, if_pos free]
  | store p b data =>
      simp only [Dev.step, Option.ite_none_right_eq_some] at stepped
      rcases stepped with ⟨held, ⟨⟩⟩
      have nobody := free_of_mine held
      refine simulates_one rfl ?_ reliable
      rw [inv.atomic_setBuf nobody, Atomic.step, inv.atomic_buf nobody,
        if_pos ⟨atomic_pc_out.mpr held.1, held.2⟩]
  | setDirty p b =>
      simp only [Dev.step, Option.ite_none_right_eq_some] at stepped
      rcases stepped with ⟨held, ⟨⟩⟩
      have nobody := free_of_mine held
      refine simulates_one rfl ?_ reliable
      rw [inv.atomic_setBuf nobody, Atomic.step, inv.atomic_buf nobody,
        if_pos ⟨atomic_pc_out.mpr held.1, held.2⟩]
  | iderw p b =>
      simp only [Dev.step, Option.ite_none_right_eq_some] at stepped
      rcases stepped with ⟨out, called⟩
      exact inv.simulates_iderw reliable out careful (Option.some.inj called)
  | resume p =>
      simp only [Dev.step] at stepped
      split at stepped <;> cases stepped
      next b woken => exact inv.simulates_wait reliable woken
  | kill p =>
      simp only [Dev.step] at stepped
      split at stepped <;> cases stepped
      next b asleep =>
        refine simulates_none rfl (atomic_goto ?_) reliable
        rw [asleep]
        rfl
      next => exact simulates_none rfl rfl reliable
  | finish ok =>
      have good : ok = true := by
        cases ok with
        | true => rfl
        | false => exact absurd rfl noError
      subst good
      simp only [Dev.step] at stepped
      split at stepped <;> cases stepped
      next c busy => exact inv.simulates_finish busy
  | ideintr =>
      simp only [Dev.step] at stepped
      split at stepped
      next ok sector done =>
        have good : ok = true := by
          cases ok with
          | true => rfl
          | false => exact absurd done (reliable sector)
        subst good
        exact inv.simulates_ideintr done (Option.some.inj stepped)
      next => cases stepped

end World

/-- The labels of a run. -/
def trace (w : World) : List Event → List Atomic.Event
  | [] => []
  | e :: es =>
      label w e ++ match step w e with
        | some (.ok w') => trace w' es
        | _ => []

/-- A run of the driver is a run of the atomic machine, event by event. -/
theorem World.Inv.refines (inv : w.Inv) (reliable : Reliable w) {es : List Event}
    (run : Run w es w') (noError : .finish false ∉ es) :
    (trace w es).foldlM Atomic.step w.atomic = some w'.atomic := by
  induction run with
  | refl => rfl
  | @head w w₁ w' e es careful stepped rest ih =>
      rw [List.mem_cons, not_or] at noError
      rcases inv.step careful stepped with ⟨_, ⟨⟩, turned⟩
      have simulates := inv.simulates reliable careful (Ne.symm noError.1) stepped
      rw [trace, stepped, List.foldlM_append, simulates.1]
      exact ih turned.inv simulates.2 noError.2

/-- Without an error of the drive, a run of the driver is a run of the atomic machine. -/
theorem driver_refines {buf : Fin NBUF → Buf} {havedisk1 : Bool} {disk : Bool → ℕ → Block}
    {es : List Event} (run : Run (World.init buf havedisk1 disk) es w)
    (noError : .finish false ∉ es) :
    (trace (World.init buf havedisk1 disk) es).foldlM Atomic.step
      (World.init buf havedisk1 disk).atomic = some w.atomic :=
  (World.inv_init buf havedisk1 disk).refines nofun run noError

/-- Two reads that wait for each other in the queue are two transfers, in the order of the calls. -/
theorem driver_refines_twoReads : ∃ w, Run started (twoReads ++ twoTransfers) w ∧
    [.acquiresleep 3 0, .acquiresleep 4 1, .call 3 0, .call 4 1, .transfer 3, .transfer 4].foldlM
      Atomic.step
      started.atomic = some w.atomic := by
  rcases run_twoReads with ⟨w, w', run, _, _, rest⟩
  exact ⟨w', run.append rest, driver_refines (run.append rest) (by simp [twoReads, twoTransfers])⟩

end Xv6.Dev
