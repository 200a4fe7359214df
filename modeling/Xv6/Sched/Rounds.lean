import Xv6.Sched.Priority

/-!
# Rounds

What one iteration of the outer loop of `scheduler` does to the CPU, whatever the
processes do that it switches to. `Moves` lists the ways in which the place of the CPU
can change. From it follows that the slots are visited in order and that the level only
rises. A process that is in use always has one of the two priorities (`Ranked`), so the
level that the first scan finds is the highest there is.
-/

namespace Xv6.Sched

open Relation

/-! ## The place of the CPU -/

/-- The process that is dispatched by the event. -/
def dispatchedBy (m : Machine) : Event → Option (Fin NPROC)
  | .look => m.switchesTo
  | _ => none

/-- The processes that are dispatched, in order. -/
def dispatches (m : Machine) : List Event → List (Fin NPROC)
  | [] => []
  | e :: rest => (dispatchedBy m e).toList ++ (step m e).elim [] fun m' => dispatches m' rest

namespace Pc

/-- The priority that is searched for. -/
def level : Pc → Option ℕ
  | .idle => none
  | .scan _ search => some search
  | .slice _ search => some search

/-- The next slot to look at. -/
def position : Pc → ℕ
  | .idle => NPROC
  | .scan i _ => i
  | .slice i _ => i + 1

end Pc

/-- How the place of the CPU changes within a round, and which process is dispatched. -/
inductive Moves : Pc → Option (Fin NPROC) → Pc → Prop
  | dispatch (p : Fin NPROC) (search : ℕ) : Moves (.scan p search) (some p) (.slice p search)
  | pass (i search : ℕ) : Moves (.scan i search) none (.scan (i + 1) search)
  | finish {i : ℕ} (search : ℕ) (last : NPROC ≤ i) : Moves (.scan i search) none .idle
  | stay (pc : Pc) : Moves pc none pc
  | back (i : Fin NPROC) {search search' : ℕ} (rises : search ≤ search')
      (priority : search' = search ∨ search' = LOW_PRI ∨ search' = HIGH_PRI) :
      Moves (.slice i search) none (.scan (i + 1) search')

section Steps

variable {m m' : Machine} {e : Event} {i p : Fin NPROC} {search : ℕ} {t : Table}

theorem switchesTo_eq_some {k : ℕ} (at_pc : m.pc = .scan k search) :
    m.switchesTo = some p ↔ p.val = k ∧ (m.proc p).state = .runnable ∧ (m.proc p).pri = search := by
  simp only [Machine.switchesTo, at_pc]
  exact Table.candidate_eq_some

/-- What the scheduler does at a slot. -/
theorem moves_of_look (stepped : m.look = some m') : Moves m.pc m.switchesTo m'.pc := by
  simp only [Machine.look] at stepped
  split at stepped
  next k search at_pc =>
    split at stepped
    next p found =>
      cases stepped
      have chosen : p.val = k := ((switchesTo_eq_some at_pc).mp found).1
      rw [found, at_pc, ← chosen]
      exact .dispatch p search
    next found =>
      rw [found, at_pc]
      split_ifs at stepped with inside
      · cases stepped
        exact .pass k search
      · cases stepped
        exact .finish search (Nat.not_lt.mp inside)
  next => cases stepped

/-- The account of a slice: a process of known priority, and a place in the next slot. -/
structure Resumed (m : Machine) (i : Fin NPROC) (search : ℕ) (t : Table) (m' : Machine) : Prop where
  priority : (t i).pri = LOW_PRI ∨ (t i).pri = HIGH_PRI
  place : m'.pc = .scan (i + 1) ((t i).raise search)
  entry : ∃ p : Proc, m'.proc = t.set i p ∧ p.state = (t i).state ∧ p.pri = (t i).pri

theorem resumed (back : m.resume i search t = some m') : Resumed m i search t m' := by
  rcases Option.map_eq_some_iff.mp back with ⟨p, accounted, rfl⟩
  rcases Proc.account_eq_some.mp accounted with ⟨low, rfl⟩ | ⟨high, rfl⟩
  · exact ⟨.inl low, rfl, _, rfl, rfl, rfl⟩
  · exact ⟨.inr high, rfl, _, rfl, rfl, rfl⟩

theorem Resumed.moves (back : Resumed m i search t m') : Moves (.slice i search) none m'.pc := by
  rw [back.place, Proc.raise]
  split_ifs with raised
  · exact .back i raised.2.le (.inr back.priority)
  · exact .back i le_rfl (.inl rfl)

/-- What a process does, while the scheduler stays at its slot. -/
theorem moves_of_runStep (at_pc : m.pc = .slice i search)
    (stepped : runStep m i search e = some m') :
    Moves m.pc none m'.pc := by
  have stays : m'.pc = m.pc → Moves m.pc none m'.pc := fun same => same ▸ .stay m'.pc
  have back : ∀ t, m.resume i search t = some m' → Moves m.pc none m'.pc := by
    intro t done
    rw [at_pc]
    exact (resumed done).moves
  cases e with
  | acquire => cases stepped
  | look => cases stepped
  | tick => cases stepped
  | interrupt chan => cases stepped
  | setpri priority =>
      cases stepped
      exact stays rfl
  | allocproc =>
      simp only [runStep] at stepped
      split at stepped <;> cases stepped <;> exact stays rfl
  | discard child =>
      simp only [runStep, Option.ite_none_right_eq_some] at stepped
      cases stepped.2
      exact stays rfl
  | fork child =>
      simp only [runStep, Option.ite_none_right_eq_some] at stepped
      cases stepped.2
      exact stays rfl
  | wakeup chan =>
      cases stepped
      exact stays rfl
  | kill pid =>
      cases stepped
      exact stays rfl
  | wait =>
      simp only [runStep] at stepped
      split at stepped
      · cases stepped
        exact stays rfl
      · cases stepped
        exact stays rfl
      · exact back _ stepped
  | sleep chan => exact back _ stepped
  | yield => exact back _ stepped
  | exit =>
      simp only [runStep, Option.ite_none_left_eq_some] at stepped
      exact back _ stepped.2

/-- Within a round the CPU moves in one of these ways. -/
theorem moves_of_step (stepped : step m e = some m') (within : e ≠ .acquire) :
    Moves m.pc (dispatchedBy m e) m'.pc := by
  have inSlice : (∃ i search, m.pc = .slice i search ∧ runStep m i search e = some m') →
      Moves m.pc none m'.pc := by
    rintro ⟨i, search, at_pc, ran⟩
    exact moves_of_runStep at_pc ran
  have handled : ∀ {t : Table} {ticks : Word}, (if m.pc.interruptible = true then
      some { m with ticks := ticks, proc := t } else none) = some m' → Moves m.pc none m'.pc := by
    intro t ticks ran
    simp only [Option.ite_none_right_eq_some] at ran
    cases ran.2
    exact .stay m.pc
  cases e with
  | acquire => exact absurd rfl within
  | look => exact moves_of_look stepped
  | tick => exact handled stepped
  | interrupt chan => exact handled stepped
  | setpri priority => exact inSlice (exists_slice stepped)
  | allocproc => exact inSlice (exists_slice stepped)
  | discard child => exact inSlice (exists_slice stepped)
  | fork child => exact inSlice (exists_slice stepped)
  | wakeup chan => exact inSlice (exists_slice stepped)
  | kill pid => exact inSlice (exists_slice stepped)
  | wait => exact inSlice (exists_slice stepped)
  | sleep chan => exact inSlice (exists_slice stepped)
  | yield => exact inSlice (exists_slice stepped)
  | exit => exact inSlice (exists_slice stepped)

/-- While the scheduler looks at the slots it is not interrupted. -/
theorem look_of_scan {k : ℕ} (at_pc : m.pc = .scan k search) (stepped : step m e = some m') :
    e = .look := by
  cases e with
  | look => rfl
  | _ => simp [step, at_pc, Pc.interruptible] at stepped

end Steps

/-! ## The order of the slots, and the level -/

section Runs

variable {m m' : Machine} {rest : List Event}

theorem steps_cons {e : Event} :
    steps m (e :: rest) = some m' ↔ ∃ m₁, step m e = some m₁ ∧ steps m₁ rest = some m' := by
  rw [steps, List.foldlM_cons, Option.bind_eq_bind, Option.bind_eq_some_iff]
  rfl

theorem steps_append {first : List Event} :
    steps m (first ++ rest) = some m' ↔ ∃ m₁, steps m first = some m₁ ∧
      steps m₁ rest = some m' := by
  rw [steps, List.foldlM_append, Option.bind_eq_bind, Option.bind_eq_some_iff]
  rfl

theorem dispatches_cons {e : Event} {m₁ : Machine} (stepped : step m e = some m₁) :
    dispatches m (e :: rest) = (dispatchedBy m e).toList ++ dispatches m₁ rest := by
  rw [dispatches, stepped]
  rfl

/-- The processes chosen in two parts of a round. -/
theorem dispatches_append {first : List Event} {m₁ : Machine} (ran : steps m first = some m₁) :
    dispatches m (first ++ rest) = dispatches m first ++ dispatches m₁ rest := by
  induction first generalizing m with
  | nil =>
      cases ran
      rfl
  | cons e first ih =>
      rcases steps_cons.mp ran with ⟨m₂, stepped, ran⟩
      rw [List.cons_append, dispatches_cons stepped, dispatches_cons stepped, ih ran,
        List.append_assoc]

theorem Moves.position {pc pc' : Pc} {r : Option (Fin NPROC)} (moves : Moves pc r pc') :
    pc.position ≤ pc'.position ∨ pc' = .idle := by
  cases moves with
  | dispatch p search => exact .inl (Nat.le_succ _)
  | pass i search => exact .inl (Nat.le_succ i)
  | finish search last => exact .inr rfl
  | stay => exact .inl le_rfl
  | back i rises priority => exact .inl le_rfl

theorem Moves.dispatched {pc pc' : Pc} {p : Fin NPROC} (moves : Moves pc (some p) pc') :
    pc.position = p ∧ pc'.position = p + 1 := by
  cases moves
  exact ⟨rfl, rfl⟩

/-- The level stays or rises. -/
theorem Moves.level {pc pc' : Pc} {r : Option (Fin NPROC)} (moves : Moves pc r pc') {now : ℕ}
    (at_level : pc'.level = some now) : ∃ before, pc.level = some before ∧ before ≤ now ∧
      (now = before ∨ now = LOW_PRI ∨ now = HIGH_PRI) := by
  cases moves with
  | dispatch p search => exact ⟨now, at_level, le_rfl, .inl rfl⟩
  | pass i search => exact ⟨now, at_level, le_rfl, .inl rfl⟩
  | finish search last => cases at_level
  | stay => exact ⟨now, at_level, le_rfl, .inl rfl⟩
  | back i rises priority =>
      cases at_level
      exact ⟨_, rfl, rises, priority⟩

/-- The slots that are dispatched from now on come one after another, and none of them has been
passed. -/
theorem dispatches_ascending (ran : steps m rest = some m') (within : .acquire ∉ rest) :
    (∀ p ∈ dispatches m rest, m.pc.position ≤ p.val) ∧ (dispatches m rest).Pairwise (· < ·) := by
  induction rest generalizing m with
  | nil => exact ⟨nofun, .nil⟩
  | cons e rest ih =>
      rcases steps_cons.mp ran with ⟨m₁, stepped, ran⟩
      have moves := moves_of_step stepped fun same => within (same ▸ List.mem_cons_self)
      rcases ih ran fun later => within (List.mem_cons_of_mem e later) with ⟨above, ascending⟩
      have passed : ∀ p ∈ dispatches m₁ rest, m.pc.position ≤ p.val := by
        intro p mem
        have later := above p mem
        rcases moves.position with forward | ended
        · exact forward.trans later
        · rw [ended] at later
          exact absurd p.isLt (Nat.not_lt.mpr later)
      rw [dispatches_cons stepped]
      cases dispatched : dispatchedBy m e with
      | none => exact ⟨passed, ascending⟩
      | some p =>
          rw [dispatched] at moves
          rcases moves.dispatched with ⟨here, next⟩
          refine ⟨?_, ?_⟩
          · rintro q mem
            rcases List.mem_cons.mp mem with rfl | later
            · exact here.le
            · exact passed q later
          · refine List.pairwise_cons.mpr ⟨fun q mem => ?_, ascending⟩
            have later := above q mem
            rw [next] at later
            exact later

/-- Within a round the level never falls. -/
theorem level_mono (ran : steps m rest = some m') (within : .acquire ∉ rest) {now : ℕ}
    (at_level : m'.pc.level = some now) : ∃ before, m.pc.level = some before ∧ before ≤ now ∧
      (now = before ∨ now = LOW_PRI ∨ now = HIGH_PRI) := by
  induction rest generalizing m with
  | nil =>
      cases ran
      exact ⟨now, at_level, le_rfl, .inl rfl⟩
  | cons e rest ih =>
      rcases steps_cons.mp ran with ⟨m₁, stepped, ran⟩
      have moves := moves_of_step stepped fun same => within (same ▸ List.mem_cons_self)
      rcases ih ran fun later => within (List.mem_cons_of_mem e later) with ⟨l₁, at₁, rises, either⟩
      rcases moves.level at₁ with ⟨l, at₀, rises₁, either₁⟩
      refine ⟨l, at₀, rises₁.trans rises, ?_⟩
      rcases either with rfl | known
      · exact either₁
      · exact .inr known

/-- The first process that a scan dispatches is the first one of the priority that is searched for.
-/
theorem first_dispatch {k search : ℕ} (at_pc : m.pc = .scan k search) (ran : steps m rest = some m')
    (within : .acquire ∉ rest) :
    (∀ p, (dispatches m rest).head? = some p → (m.proc p).state = .runnable ∧
      (m.proc p).pri = search) ∧
      (m'.pc = .idle → dispatches m rest = [] → ∀ p : Fin NPROC, k ≤ p.val →
        (m.proc p).state = .runnable → (m.proc p).pri ≠ search) := by
  induction rest generalizing m k with
  | nil =>
      cases ran
      exact ⟨fun p first => (by cases first), fun ended => by rw [at_pc] at ended; cases ended⟩
  | cons e rest ih =>
      rcases steps_cons.mp ran with ⟨m₁, stepped, ran⟩
      cases look_of_scan at_pc stepped
      rw [dispatches_cons stepped]
      have look : m.look = some m₁ := stepped
      simp only [Machine.look, at_pc] at look
      cases found : m.switchesTo with
      | some p =>
          rw [dispatchedBy, found]
          refine ⟨?_, fun _ empty => by cases empty⟩
          rintro q ⟨⟩
          exact ((switchesTo_eq_some at_pc).mp found).2
      | none =>
          rw [dispatchedBy, found]
          rw [found] at look
          simp only at look
          split_ifs at look with inside
          · cases look
            rcases ih rfl ran (fun later => within (List.mem_cons_of_mem _ later))
              with ⟨first, none⟩
            refine ⟨first, fun ended empty p from_ runnable => ?_⟩
            rcases Nat.eq_or_lt_of_le from_ with here | later
            · intro priority
              rw [(switchesTo_eq_some at_pc).mpr ⟨here.symm, runnable, priority⟩] at found
              cases found
            · exact none ended empty p later runnable
          · cases look
            have ended := dispatches_ascending ran fun later =>
              within (List.mem_cons_of_mem _ later)
            refine ⟨fun q head => ?_, fun _ _ p from_ => absurd p.isLt (by omega)⟩
            have := ended.1 q (List.mem_of_mem_head? head)
            exact absurd q.isLt (Nat.not_lt.mpr this)

end Runs

/-! ## The priorities -/

/-- Every process that is in use has one of the two priorities. -/
def Ranked (t : Table) : Prop :=
  ∀ i, (t i).state ≠ .unused → (t i).pri = LOW_PRI ∨ (t i).pri = HIGH_PRI

namespace Ranked

variable {t t' : Table} {i : Fin NPROC}

theorem of_same (ranked : Ranked t) (pri : ∀ i, (t' i).pri = (t i).pri)
    (used : ∀ i, (t i).state = .unused → (t' i).state = .unused) : Ranked t' := by
  intro j inUse
  rw [pri j]
  exact ranked j fun unused => inUse (used j unused)

/-- A slot gets a process of a known priority. -/
theorem set {p : Proc} (ranked : Ranked t)
    (known : p.state ≠ .unused → p.pri = LOW_PRI ∨ p.pri = HIGH_PRI) :
    Ranked (t.set i p) := by
  intro j inUse
  by_cases same : j = i
  · subst same
    rw [Table.set_self] at inUse ⊢
    exact known inUse
  · rw [t.set_of_ne same] at inUse ⊢
    exact ranked j inUse

theorem wakeup1 (ranked : Ranked t) (chan : Option Chan) : Ranked (t.wakeup1 chan) := by
  refine ranked.of_same (fun j => t.wakeup1_pri j chan) fun j unused => ?_
  rw [Table.wakeup1, if_neg fun asleep => by rw [unused] at asleep; cases asleep.1]
  exact unused

theorem passChildren (ranked : Ranked t) (cur initproc : Fin NPROC) :
    Ranked (t.passChildren cur initproc) := by
  refine ranked.of_same (fun j => t.passChildren_pri j cur initproc) fun j unused => ?_
  rw [Table.passChildren_state, unused]

theorem kill (ranked : Ranked t) (pid : Word) : Ranked (t.kill pid) := by
  rw [Table.kill]
  split
  next j found =>
    refine ranked.set fun inUse => ranked j fun unused => inUse ?_
    simp only [unused]
    rfl
  next => exact ranked

theorem setpri (ranked : Ranked t) (priority : ℤ) : Ranked (t.setpri i priority) := by
  rw [Table.setpri]
  split_ifs with illegal
  · exact ranked
  · refine ranked.set fun _ => ?_
    simp only [LOW_PRI, HIGH_PRI]
    omega

end Ranked

/-- The table with which the running process, in slot `cur`, calls `sched`. -/
def Table.leaves (t : Table) (initproc cur : Fin NPROC) : Event → Option Table
  | .wait =>
      match t.wait cur with
      | .sleeps t' => some t'
      | _ => none
  | .sleep chan => some (t.sleep cur chan)
  | .yield => some (t.yield cur)
  | .exit => if cur = initproc then none else some (t.exit cur initproc)
  | _ => none

/-- The event leads to `panic("priority")`. -/
def Panics (m : Machine) (e : Event) : Prop :=
  ∃ i search t, m.pc = .slice i search ∧ m.proc.leaves m.initproc i e = some t ∧
    m.resume i search t = none

/-- Every process in use has a priority, and the one that has the CPU is running. -/
structure Sane (m : Machine) : Prop where
  ranked : Ranked m.proc
  running : ∀ i search, m.pc = .slice i search → (m.proc i).state = .running

section Steps

variable {m m' : Machine} {e : Event} {i : Fin NPROC} {search : ℕ} {t t' : Table}

/-- `kill` does not stop the running process. -/
theorem kill_running {pid : Word} (running : (t i).state = .running) :
    (t.kill pid i).state = .running := by
  cases found : (List.finRange NPROC).find? fun j => (t j).pid = pid with
  | none =>
      simp only [Table.kill, found]
      exact running
  | some j =>
      simp only [Table.kill, found]
      by_cases same : i = j
      · subst same
        rw [Table.set_self]
        simp only [running]
        rfl
      · rw [Table.set_of_ne _ same]
        exact running

theorem leaves_wait (sleeps : t.wait i = .sleeps t') : t' = t.sleep i (.proc i) := by
  rw [Table.wait] at sleeps
  split at sleeps
  · cases sleeps
  · split_ifs at sleeps
    cases sleeps
    rfl

/-- `exit` keeps the priorities. -/
theorem ranked_exit {initproc : Fin NPROC} (ranked : Ranked t) (inUse : (t i).state ≠ .unused) :
    Ranked (t.exit i initproc) := by
  have same := ranked i inUse
  rw [Table.exit]
  refine Ranked.set ?_ fun _ => ?_
  · split_ifs
    · exact ((ranked.wakeup1 _).passChildren _ _).wakeup1 _
    · exact (ranked.wakeup1 _).passChildren _ _
  · split_ifs
    · simpa only [Table.wakeup1_pri, Table.passChildren_pri] using same
    · simpa only [Table.wakeup1_pri, Table.passChildren_pri] using same

/-- A process that leaves the CPU is in use, and keeps its priority. -/
theorem Ranked.leaves {initproc : Fin NPROC} (ranked : Ranked t) (running : (t i).state = .running)
    (left : t.leaves initproc i e = some t') : Ranked t' ∧ (t' i).state ≠ .unused := by
  have inUse : (t i).state ≠ .unused := by
    rw [running]
    decide
  have asleep : ∀ chan, Ranked (t.sleep i chan) ∧ (t.sleep i chan i).state ≠ .unused := by
    intro chan
    refine ⟨ranked.set fun _ => ranked i inUse, ?_⟩
    rw [Table.sleep, Table.set_self]
    rintro ⟨⟩
  cases e with
  | wait =>
      simp only [Table.leaves] at left
      split at left
      next sleeps =>
        cases left
        rw [leaves_wait sleeps]
        exact asleep _
      next => cases left
  | sleep chan =>
      cases left
      exact asleep chan
  | yield =>
      cases left
      refine ⟨ranked.set fun _ => ranked i inUse, ?_⟩
      rw [Table.yield, Table.set_self]
      rintro ⟨⟩
  | exit =>
      simp only [Table.leaves, Option.ite_none_left_eq_some] at left
      cases left.2
      refine ⟨ranked_exit ranked inUse, ?_⟩
      rw [Table.exit, Table.set_self]
      rintro ⟨⟩
  | _ => cases left

/-- An event with which the process leaves its CPU. -/
theorem runStep_of_leaves (left : m.proc.leaves m.initproc i e = some t) :
    runStep m i search e = m.resume i search t := by
  cases e with
  | wait =>
      simp only [Table.leaves] at left
      split at left
      next sleeps =>
        cases left
        simp only [runStep, sleeps]
      next => cases left
  | sleep chan =>
      cases left
      rfl
  | yield =>
      cases left
      rfl
  | exit =>
      simp only [Table.leaves, Option.ite_none_left_eq_some] at left
      cases left.2
      simp only [runStep, if_neg left.1]
  | _ => cases left

theorem Sane.not_panics (sane : Sane m) : ¬ Panics m e := by
  rintro ⟨i, search, t, at_pc, left, panics⟩
  have after := sane.ranked.leaves (sane.running i search at_pc) left
  exact Proc.account_ne_none (after.1 i after.2) (Option.map_eq_none_iff.mp panics)

/-- Such an event keeps the machine sane. -/
theorem Sane.of_leaves (sane : Sane m) (at_pc : m.pc = .slice i search)
    (left : m.proc.leaves m.initproc i e = some t) (back : m.resume i search t = some m') :
    Sane m' := by
  have after := sane.ranked.leaves (sane.running i search at_pc) left
  have done := resumed back
  rcases done.entry with ⟨p, table, _, pri⟩
  refine ⟨?_, fun j level at_pc' => ?_⟩
  · rw [table]
    exact after.1.set fun _ => by rw [pri]; exact done.priority
  · rw [done.place] at at_pc'
    cases at_pc'

theorem Sane.runStep (sane : Sane m) (at_pc : m.pc = .slice i search)
    (stepped : runStep m i search e = some m') : Sane m' := by
  have running := sane.running i search at_pc
  have goesOn : ∀ {t : Table} {nextpid : Word}, some { m with proc := t, nextpid := nextpid } =
    some m' →
      Ranked t → (t i).state = .running → Sane m' := by
    intro t nextpid same ranked stays
    cases same
    refine ⟨ranked, fun j level at_pc' => ?_⟩
    change m.pc = _ at at_pc'
    rw [at_pc] at at_pc'
    cases at_pc'
    exact stays
  have other : ∀ {j : Fin NPROC} {p : Proc}, (m.proc j).state ≠ .running →
      (m.proc.set j p i).state = .running := by
    intro j p different
    rw [Table.set_of_ne]
    · exact running
    · rintro rfl
      exact different running
  cases left : m.proc.leaves m.initproc i e with
  | some t =>
      rw [runStep_of_leaves left] at stepped
      exact sane.of_leaves at_pc left stepped
  | none =>
      cases e with
      | acquire => cases stepped
      | look => cases stepped
      | tick => cases stepped
      | interrupt chan => cases stepped
      | setpri priority =>
          refine goesOn stepped (sane.ranked.setpri priority) ?_
          rw [Table.setpri]
          split_ifs
          · exact running
          · rw [Table.set_self]
            exact running
      | allocproc =>
          simp only [Sched.runStep, Table.allocproc] at stepped
          split at stepped
          next j t found =>
            split at found
            next k unused =>
              cases found
              have free := List.find?_some unused
              simp only [decide_eq_true_eq] at free
              exact goesOn stepped (sane.ranked.set fun _ => .inl rfl)
                (other (by rw [free]; decide))
            next => cases found
          next =>
            cases stepped
            exact sane
      | discard child =>
          simp only [Sched.runStep, Option.ite_none_right_eq_some] at stepped
          exact goesOn stepped.2 (sane.ranked.set fun unused => absurd rfl unused)
            (other (by rw [stepped.1]; decide))
      | fork child =>
          simp only [Sched.runStep, Option.ite_none_right_eq_some] at stepped
          exact goesOn stepped.2 (sane.ranked.set fun _ => .inl rfl)
            (other (by rw [stepped.1]; decide))
      | wakeup chan =>
          refine goesOn stepped (sane.ranked.wakeup1 _) ?_
          rw [wakeup1_running running]
          exact running
      | kill pid =>
          exact goesOn stepped (sane.ranked.kill pid) (kill_running running)
      | wait =>
          simp only [Sched.runStep, Table.wait] at stepped
          split at stepped
          next t waited =>
            split at waited
            next j zombie =>
              cases waited
              have dead := List.find?_some zombie
              simp only [decide_eq_true_eq] at dead
              exact goesOn stepped (sane.ranked.set fun unused => absurd rfl unused)
                (other (by rw [dead.2]; decide))
            next => split_ifs at waited
          next =>
            cases stepped
            exact sane
          next t sleeps =>
            simp only [Table.leaves, Table.wait, sleeps] at left
            cases left
      | sleep chan => cases left
      | yield => cases left
      | exit =>
          simp only [Table.leaves, ite_eq_left_iff, reduceCtorEq, imp_false, not_not] at left
          simp only [Sched.runStep, if_pos left] at stepped
          cases stepped

theorem Sane.step (sane : Sane m) (stepped : step m e = some m') : Sane m' := by
  have inSlice : (∃ i search, m.pc = .slice i search ∧ Sched.runStep m i search e = some m') →
      Sane m' := by
    rintro ⟨i, search, at_pc, ran⟩
    exact sane.runStep at_pc ran
  have handled : ∀ {chan : Chan} {ticks : Word}, (if m.pc.interruptible = true then
      some { m with ticks := ticks, proc := m.proc.wakeup1 (some chan) } else none) = some m' →
      Sane m' := by
    intro chan ticks ran
    simp only [Option.ite_none_right_eq_some] at ran
    cases ran.2
    refine ⟨sane.ranked.wakeup1 _, fun i search at_pc => ?_⟩
    have running := sane.running i search at_pc
    change (m.proc.wakeup1 (some chan) i).state = _
    rw [wakeup1_running running]
    exact running
  cases e with
  | acquire =>
      simp only [Sched.step, Option.ite_none_right_eq_some] at stepped
      cases stepped.2
      exact ⟨sane.ranked, fun i search at_pc => by cases at_pc⟩
  | look =>
      simp only [Sched.step, Machine.look] at stepped
      split at stepped
      next k search at_pc =>
        split at stepped
        next p found =>
          have ready := ((switchesTo_eq_some at_pc).mp found).2
          cases stepped
          refine ⟨sane.ranked.set fun _ => sane.ranked p (by rw [ready.1]; decide), ?_⟩
          rintro j level ⟨⟩
          simp only [Table.set_self]
        next =>
          split_ifs at stepped <;> cases stepped <;>
            exact ⟨sane.ranked, fun i search at_pc => by cases at_pc⟩
      next => cases stepped
  | tick => exact handled stepped
  | interrupt chan => exact handled stepped
  | setpri priority => exact inSlice (exists_slice stepped)
  | allocproc => exact inSlice (exists_slice stepped)
  | discard child => exact inSlice (exists_slice stepped)
  | fork child => exact inSlice (exists_slice stepped)
  | wakeup chan => exact inSlice (exists_slice stepped)
  | kill pid => exact inSlice (exists_slice stepped)
  | wait => exact inSlice (exists_slice stepped)
  | sleep chan => exact inSlice (exists_slice stepped)
  | yield => exact inSlice (exists_slice stepped)
  | exit => exact inSlice (exists_slice stepped)

end Steps

/-! ## Rounds -/

/-- After `userinit`. -/
def booted : Machine where
  proc := firstTable
  initproc := 0
  nextpid := 2
  ticks := 0
  pc := .idle

theorem Sane.of_booted {m : Machine} (run : ReflTransGen Step booted m) : Sane m := by
  refine Runs.invariant_of_run (fun _ _ step sane => ?_) run ⟨fun i used => ?_, nofun⟩
  · rcases step with ⟨e, stepped⟩
    exact sane.step stepped
  · left
    change ¬ (if i.val = 0 then State.runnable else State.unused) = State.unused at used
    change (if i.val = 0 then LOW_PRI else 0) = LOW_PRI
    split_ifs at used ⊢
    · rfl
    · exact absurd rfl used

/-- A round that begins in `m₀` has come to `m`: `scheduler` has taken the lock, and after that
the given events have happened. -/
structure Round (m₀ : Machine) (rest : List Event) (m : Machine) : Prop where
  start : m₀.pc = .idle
  within : .acquire ∉ rest
  ran : steps m₀ (.acquire :: rest) = some m

/-- The processes that the round has dispatched. -/
def dispatched (m₀ : Machine) (rest : List Event) :
    List (Fin NPROC) := dispatches m₀ (.acquire :: rest)

/-- What a round that has come to `m` has done so far. -/
structure Fair (m₀ : Machine) (rest : List Event) (m : Machine) : Prop where
  /-- At the end of the round somebody has been dispatched, if some process was runnable. -/
  served : m.pc = .idle → (∃ j, (m₀.proc j).state = .runnable) → dispatched m₀ rest ≠ []
  /-- The first process is of the highest priority. -/
  first : ∀ p, (dispatched m₀ rest).head? = some p → (m₀.proc p).state = .runnable ∧
    ∀ j, (m₀.proc j).state = .runnable → (m₀.proc j).pri ≤ (m₀.proc p).pri
  once : (dispatched m₀ rest).Nodup
  /-- The level has not been higher before. -/
  level : ∀ done later m₁, rest = done ++ later → Round m₀ done m₁ → ∀ before now,
    m₁.pc.level = some before → m.pc.level = some now → before ≤ now
  /-- A process that was runnable with high priority when the scan reached it has been dispatched.
  -/
  high : (∃ j, High m₀.proc j) → ∀ done e later m₁, rest = done ++ e :: later → Round m₀ done m₁ →
    ∀ (p : Fin NPROC) search, m₁.pc = .scan p search → High m₁.proc p → p ∈ dispatched m₀ rest
  safe : ∀ e, ¬ Panics m e

section Round

variable {m₀ m m₁ : Machine} {rest done later : List Event}

theorem Round.begins (round : Round m₀ rest m) : ∃ begun : Machine,
    begun.pc = .scan 0 (searchPri m₀.proc (List.finRange NPROC)) ∧ begun.proc = m₀.proc ∧
      steps begun rest = some m ∧ dispatched m₀ rest = dispatches begun rest := by
  rcases steps_cons.mp round.ran with ⟨begun, stepped, ran⟩
  have acquired := stepped
  simp only [step, if_pos round.start] at acquired
  cases acquired
  exact ⟨{ m₀ with pc := _ }, rfl, rfl, ran, dispatches_cons stepped⟩

theorem Round.goesOn (round : Round m₀ (done ++ later) m) (before : Round m₀ done m₁) :
    steps m₁ later = some m := by
  have ran := round.ran
  rw [← List.cons_append, steps_append, before.ran] at ran
  rcases ran with ⟨_, ⟨⟩, ran⟩
  exact ran

/-- If the level is high, somebody of high priority can run. -/
theorem searchPri_high {t : Table} {l : List (Fin NPROC)} (high : searchPri t l = HIGH_PRI) :
    ∃ j, High t j := by
  induction l with
  | nil => cases high
  | cons i l ih =>
      simp only [searchPri] at high
      split_ifs at high with other found
      · exact ih high
      · exact ⟨i, not_not.mp fun stopped => other (.inl stopped), found.2⟩
      · exact ih high

/-- The level of the first scan is the highest priority of a runnable process. -/
theorem highest (ranked : Ranked m₀.proc) {j : Fin NPROC}
    (runnable : (m₀.proc j).state = .runnable) :
    (m₀.proc j).pri ≤ searchPri m₀.proc (List.finRange NPROC) ∧
      ∃ p, (m₀.proc p).state = .runnable ∧
        (m₀.proc p).pri = searchPri m₀.proc (List.finRange NPROC) := by
  have known : (m₀.proc j).pri = LOW_PRI ∨ (m₀.proc j).pri = HIGH_PRI :=
    ranked j (by rw [runnable]; exact nofun)
  rcases Level.of_searchPri m₀.proc with high | ⟨low, none⟩
  · rcases searchPri_high high with ⟨p, ready, top⟩
    rw [high]
    refine ⟨?_, p, ready, top⟩
    rcases known with low | high
    · rw [low]
      decide
    · rw [high]
  · have pri := known.resolve_right (none j runnable)
    rw [low]
    exact ⟨pri.le, j, runnable, pri⟩

/-- The level of a round is between its first one and the high one. -/
theorem Round.level (round : Round m₀ rest m) {now : ℕ} (at_level : m.pc.level = some now) :
    searchPri m₀.proc (List.finRange NPROC) ≤ now ∧ now ≤ HIGH_PRI := by
  rcases round.begins with ⟨begun, at_pc, _, ran, _⟩
  rcases level_mono ran round.within at_level with ⟨before, at_begin, rises, either⟩
  rw [at_pc] at at_begin
  cases at_begin
  refine ⟨rises, ?_⟩
  rcases either with same | low | high
  · rw [same]
    rcases Level.of_searchPri m₀.proc with high | ⟨low, _⟩
    · rw [high]
    · rw [low]
      decide
  · rw [low]
    decide
  · rw [high]

/-- A process that is chosen in the middle of a round is one of the round's. -/
theorem Round.mem_dispatched {e : Event} {p : Fin NPROC} {search : ℕ}
    (round : Round m₀ (done ++ e :: later) m) (before : Round m₀ done m₁)
    (at_pc : m₁.pc = .scan p search) (chosen : m₁.switchesTo = some p) :
    p ∈ dispatched m₀ (done ++ e :: later) := by
  have ran := round.goesOn before
  rcases steps_cons.mp ran with ⟨m₂, stepped, _⟩
  cases look_of_scan at_pc stepped
  rw [dispatched, ← List.cons_append, dispatches_append before.ran, dispatches_cons stepped,
    dispatchedBy, chosen]
  exact List.mem_append_right _ List.mem_cons_self

end Round

/-- In every run each round is fair, at every moment of it. -/
theorem round_fair (m₀ m : Machine) (rest : List Event) (run : ReflTransGen Step booted m₀)
    (round : Round m₀ rest m) : Fair m₀ rest m := by
  have ranked := (Sane.of_booted run).ranked
  rcases round.begins with ⟨begun, at_pc, table, ran, same⟩
  have first := first_dispatch at_pc ran round.within
  rw [table, ← same] at first
  refine ⟨?_, ?_, ?_, ?_, ?_, ?_⟩
  · rintro ended ⟨j, runnable⟩ empty
    rcases (highest ranked runnable).2 with ⟨p, ready, top⟩
    exact first.2 ended empty p (Nat.zero_le _) ready top
  · intro p head
    rcases first.1 p head with ⟨runnable, pri⟩
    refine ⟨runnable, fun j ready => ?_⟩
    rw [pri]
    exact (highest ranked ready).1
  · rw [same]
    exact (dispatches_ascending ran round.within).2.imp fun below => below.ne
  · intro done later m₁ split before low now at_low at_now
    subst split
    have apart : .acquire ∉ later := fun mem => round.within (List.mem_append_right _ mem)
    rcases level_mono (round.goesOn before) apart at_now with ⟨l, at_l, rises, _⟩
    rw [at_low] at at_l
    cases at_l
    exact rises
  · rintro ⟨j, ready⟩ done e later m₁ split before p search at_scan high
    subst split
    have top := (highest ranked ready.1).1
    have level : m₁.pc.level = some search := by
      rw [at_scan]
      rfl
    rcases before.level level with ⟨above, below⟩
    rw [ready.2] at top
    have equal : search = HIGH_PRI := le_antisymm below (top.trans above)
    refine round.mem_dispatched before at_scan ((switchesTo_eq_some at_scan).mpr ⟨rfl, high.1, ?_⟩)
    rw [high.2, equal]
  · have stepped : ReflTransGen Step booted m := run.trans (reaches_of_steps round.ran)
    exact fun e => (Sane.of_booted stepped).not_panics

/-- The first process forks, and its child raises its priority. -/
def forkedRound : List Event :=
  [.acquire, .look, .allocproc, .fork 1, .yield, .look, .setpri 2, .yield] ++
    List.replicate 63 .look

/-- In the next round the child lowers its priority, but the level stays. -/
def raisedRound : List Event := [.look, .look, .setpri 1, .yield] ++ List.replicate 63 .look

/-- The first process has to wait for another round. -/
theorem round_fair_raised : ∃ m₀ m, ReflTransGen Step booted m₀ ∧ (m₀.proc 0).state = .runnable ∧
    m.pc = .idle ∧ dispatched m₀ raisedRound = [1] ∧ Fair m₀ raisedRound m := by
  have outcome : ((steps booted forkedRound).bind fun m₀ =>
    (steps m₀ (.acquire :: raisedRound)).map fun m =>
      (m₀.pc, (m₀.proc 0).state, m.pc, dispatched m₀ raisedRound)) =
      some (.idle, .runnable, .idle, [1]) := by
    decide +kernel
  rcases Option.bind_eq_some_iff.mp outcome with ⟨m₀, begun, later⟩
  rcases Option.map_eq_some_iff.mp later with ⟨m, ran, seen⟩
  simp only [Prod.mk.injEq] at seen
  rcases seen with ⟨start, waits, ended, only⟩
  have run := reaches_of_steps begun
  exact ⟨m₀, m, run, waits, ended, only,
    round_fair m₀ m raisedRound run ⟨start, by simp [raisedRound], ran⟩⟩

end Xv6.Sched
