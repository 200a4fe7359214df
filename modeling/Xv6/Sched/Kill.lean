import Xv6.Sched.Table
import Xv6.Lib.Runs

/-!
# Whom `kill` hits

Sequences of completed calls of `fork`, `exit`, `wait` and `kill`. `kill` takes the first
slot with the given pid, in use or not. A free slot has pid 0, or the pid of a `fork` that
found no memory; hit by `kill` it keeps the flag, and the next process that is created in
it is born killed. As long as `kill` finds no free slot, free slots have a clear flag, and
so have new processes.
-/

namespace Xv6.Sched

open Relation

/-- Where `fork` runs out of memory, if it does. -/
inductive Memory where
  | noStack
  | noSpace
  | enough

structure Family where
  proc : Table
  initproc : Fin NPROC
  nextpid : Word

inductive Call where
  | fork (cur : Fin NPROC) (memory : Memory)
  | exit (cur : Fin NPROC)
  | wait (cur : Fin NPROC)
  | kill (pid : Word)

namespace Family

variable (s : Family)

/-- The slot of the child, if the call is successful. -/
def fork (cur : Fin NPROC) (memory : Memory) : Option (Fin NPROC) × Family :=
  match s.proc.allocproc s.nextpid with
  | none => (none, s)
  | some (child, t) =>
      match memory with
      | .noStack => (none, { s with proc := t.discard child, nextpid := s.nextpid + 1 })
      | .noSpace => (none, { s with proc := t.discard child, nextpid := s.nextpid + 1 })
      | .enough => (some child, { s with proc := t.fork cur child, nextpid := s.nextpid + 1 })

def wait (cur : Fin NPROC) : Family :=
  match s.proc.wait cur with
  | .reaped t => { s with proc := t }
  | .failed => s
  | .sleeps t => { s with proc := t }

/-- The slot that `kill` finds; the call returns -1 if there is none. -/
def kills (pid : Word) : Option (Fin NPROC) :=
  (List.finRange NPROC).find? fun i => (s.proc i).pid = pid

def kill (pid : Word) : Family := { s with proc := s.proc.kill pid }

def call : Call → Option Family
  | .fork cur memory => if (s.proc cur).state.alive then some (s.fork cur memory).2 else none
  | .exit cur =>
      if (s.proc cur).state.alive then
        if cur = s.initproc then none -- panic("init exiting")
        else some { s with proc := s.proc.exit cur s.initproc }
      else none
  | .wait cur => if (s.proc cur).state.alive then some (s.wait cur) else none
  | .kill pid => some (s.kill pid)

end Family

/-- After `userinit`. -/
def Family.init : Family where
  proc := firstTable
  initproc := 0
  nextpid := 2

/-- If there is a slot with the given pid, the first one is in use. -/
def Family.InUse (s : Family) (pid : Word) : Prop :=
  ∀ i, s.kills pid = some i → (s.proc i).state ≠ .unused

def CarefulCall (s s' : Family) : Prop :=
  ∃ call, (∀ pid, call = .kill pid → s.InUse pid) ∧ s.call call = some s'

/-- `kill` with this pid returns -1, or it sets the flag of one process, which has that pid. -/
def KillsNamed (s : Family) (pid : Word) : Prop :=
  s.kills pid ≠ none → ∃ i, (s.proc i).state ≠ .unused ∧ (s.proc i).pid = pid ∧
    ((s.kill pid).proc i).killed = true ∧
      ∀ j, j ≠ i → ((s.kill pid).proc j).killed = (s.proc j).killed

/-! ## The flags of free slots -/

namespace Table

variable {t : Table} {i : Fin NPROC}

theorem killed_wakeup1 (chan : Option Chan) : (t.wakeup1 chan i).killed = (t i).killed := by
  rw [wakeup1]
  split <;> rfl

theorem killed_passChildren (cur initproc : Fin NPROC) :
    (t.passChildren cur initproc i).killed = (t i).killed := by
  rw [passChildren]
  split <;> rfl

theorem unused_wakeup1 {chan : Option Chan} (unused : (t.wakeup1 chan i).state = .unused) :
    (t i).state = .unused := by
  rw [wakeup1] at unused
  split at unused
  · cases unused
  · exact unused

end Table

/-- No free slot has the flag. -/
def Clear (t : Table) : Prop := ∀ i, (t i).state = .unused → (t i).killed = false

namespace Clear

variable {t : Table} {i : Fin NPROC} {p : Proc}

theorem set (clear : Clear t) (same : p.state = .unused → p.killed = false) :
    Clear (t.set i p) := by
  intro j unused
  by_cases here : j = i
  · subst here
    rw [Table.set_self] at unused ⊢
    exact same unused
  · rw [Table.set_of_ne _ here] at unused ⊢
    exact clear j unused

theorem wakeup1 (clear : Clear t) (chan : Option Chan) : Clear (t.wakeup1 chan) := by
  intro j unused
  rw [Table.killed_wakeup1]
  exact clear j (Table.unused_wakeup1 unused)

theorem passChildren (clear : Clear t) (cur initproc : Fin NPROC) :
    Clear (t.passChildren cur initproc) := by
  intro j unused
  rw [Table.killed_passChildren]
  rw [Table.passChildren_state] at unused
  exact clear j unused

theorem exit (clear : Clear t) (cur initproc : Fin NPROC) : Clear (t.exit cur initproc) := by
  have passed := (clear.wakeup1 ((t cur).parent.map .proc)).passChildren cur initproc
  refine Clear.set ?_ fun zombie => by cases zombie
  split_ifs
  · exact passed.wakeup1 _
  · exact passed

/-- The slot that `allocproc` takes is free, and only that one changes. -/
theorem allocproc_some {child : Fin NPROC} {t' : Table} {nextpid : Word}
    (found : t.allocproc nextpid = some (child, t')) :
    (t child).state = .unused ∧ ∃ p : Proc, t' = t.set child p ∧ p.state = .embryo ∧
      p.killed = (t child).killed := by
  unfold Table.allocproc at found
  split at found
  next i first =>
    cases found
    have free := List.find?_some first
    exact ⟨by simpa using free, _, rfl, rfl, rfl⟩
  next => cases found

theorem fork {s : Family} (clear : Clear s.proc) (cur : Fin NPROC) (memory : Memory) :
    Clear (s.fork cur memory).2.proc ∧ ∀ child, (s.fork cur memory).1 = some child →
      ((s.fork cur memory).2.proc child).killed = false := by
  unfold Family.fork
  split
  next => exact ⟨clear, fun child impossible => by cases impossible⟩
  next child t found =>
    rcases allocproc_some found with ⟨free, p, rfl, embryo, killed⟩
    have unflagged : p.killed = false := by rw [killed, clear child free]
    have taken : Clear (s.proc.set child p) := by
      refine clear.set fun unused => ?_
      rw [embryo] at unused
      cases unused
    cases memory with
    | noStack =>
        refine ⟨taken.set fun _ => ?_, fun child impossible => by cases impossible⟩
        rw [Table.set_self]
        exact unflagged
    | noSpace =>
        refine ⟨taken.set fun _ => ?_, fun child impossible => by cases impossible⟩
        rw [Table.set_self]
        exact unflagged
    | enough =>
        refine ⟨taken.set (fun unused => by cases unused), ?_⟩
        rintro child' ⟨⟩
        simp only [Table.fork, Table.set_self]
        exact unflagged

theorem wait {s : Family} (clear : Clear s.proc) (cur : Fin NPROC) : Clear (s.wait cur).proc := by
  unfold Family.wait Table.wait
  split
  next t result =>
    split at result
    next child _ =>
      cases result
      exact clear.set fun _ => rfl
    next => split_ifs at result
  next => exact clear
  next t result =>
    split at result
    next => cases result
    next =>
      split_ifs at result
      cases result
      exact clear.set fun unused => by cases unused

theorem kill {s : Family} (clear : Clear s.proc) {pid : Word} (inUse : s.InUse pid) :
    Clear (s.kill pid).proc := by
  unfold Family.kill Table.kill
  split
  next i first =>
    refine clear.set fun unused => ?_
    have used := inUse i first
    simp only at unused
    split_ifs at unused
    exact absurd unused used
  next => exact clear

theorem call {s s' : Family} (clear : Clear s.proc) (careful : CarefulCall s s') :
    Clear s'.proc := by
  rcases careful with ⟨call, inUse, called⟩
  cases call with
  | fork cur memory =>
      simp only [Family.call, Option.ite_none_right_eq_some] at called
      rcases called with ⟨_, called⟩
      cases called
      exact (clear.fork cur memory).1
  | exit cur =>
      simp only [Family.call, Option.ite_none_right_eq_some] at called
      rcases called with ⟨_, called⟩
      split_ifs at called
      cases called
      exact clear.exit cur s.initproc
  | wait cur =>
      simp only [Family.call, Option.ite_none_right_eq_some] at called
      rcases called with ⟨_, called⟩
      cases called
      exact clear.wait cur
  | kill pid =>
      cases called
      exact clear.kill (inUse pid rfl)

theorem run {s : Family} (run : ReflTransGen CarefulCall Family.init s) : Clear s.proc := by
  induction run with
  | refl => exact fun _ _ => rfl
  | tail _ last ih => exact ih.call last

end Clear

/-! ## The calls -/

/-- With clear slots, `kill` marks the named process exactly if the pid is in use. -/
theorem killsNamed_iff {s : Family} (clear : Clear s.proc) (pid : Word) :
    KillsNamed s pid ↔ s.InUse pid := by
  constructor
  · rintro named i found unused
    rcases named (by rw [found]; simp) with ⟨j, used, _, _, others⟩
    have other : i ≠ j := by
      rintro rfl
      exact used unused
    have flag := others i other
    have set : ((s.kill pid).proc i).killed = true := by
      unfold Family.kills at found
      simp only [Family.kill, Table.kill, found, Table.set_self]
    rw [set, clear i unused] at flag
    cases flag
  · intro inUse someone
    rcases Option.ne_none_iff_exists'.mp someone with ⟨i, found⟩
    have pidIs : (s.proc i).pid = pid := by simpa using List.find?_some found
    refine ⟨i, inUse i found, pidIs, ?_, fun j other => ?_⟩
    · unfold Family.kills at found
      simp only [Family.kill, Table.kill, found, Table.set_self]
    · unfold Family.kills at found
      simp only [Family.kill, Table.kill, found, Table.set_of_ne _ other]

/--
In every state reached with `kill`s that find no free slot: the next `kill` is for one
process if and only if it finds no free slot either, and no process is born killed.
-/
theorem kill_named_of_careful_run {s : Family} (run : ReflTransGen CarefulCall Family.init s) :
    (∀ pid, KillsNamed s pid ↔ s.InUse pid) ∧
      ∀ cur memory child, (s.proc cur).state.alive → (s.fork cur memory).1 = some child →
        ((s.fork cur memory).2.proc child).killed = false := by
  have clear := Clear.run run
  exact ⟨killsNamed_iff clear, fun cur memory child _ => (clear.fork cur memory).2 child⟩

/-- What `CarefulCall` asks. -/
def careful (s : Family) : Call → Prop
  | .kill pid => s.InUse pid
  | _ => True

instance (s : Family) (call : Call) : Decidable (careful s call) :=
  match call with
  | .kill pid => inferInstanceAs
    (Decidable (∀ i, s.kills pid = some i → (s.proc i).state ≠ .unused))
  | .fork _ _ | .exit _ | .wait _ => inferInstanceAs (Decidable True)

/-- The first child of `init` has been reaped, the second one is killed, and a third one is born. -/
def threeChildren : List Call :=
  [.fork 0 .enough, .exit 1, .wait 0, .fork 0 .enough, .kill 3, .fork 0 .enough]

/-- The next `kill` is for the third child. -/
theorem kill_named_threeChildren :
    ∃ s, ReflTransGen CarefulCall Family.init s ∧ (s.proc 1).killed = true ∧
    s.kills 4 = some 2 ∧ KillsNamed s 4 := by
  have outcome : (Runs.follow careful Family.call threeChildren Family.init).map (fun s =>
      ((s.proc 1).killed, s.kills 4, (s.proc 2).state)) = some (true, some 2, .runnable) := by
    decide +kernel
  rcases Option.map_eq_some_iff.mp outcome with ⟨s, followed, seen⟩
  simp only [Prod.mk.injEq] at seen
  rcases seen with ⟨killed, slot, ready⟩
  have run : ReflTransGen CarefulCall Family.init s := by
    refine ReflTransGen.mono (fun s₁ s₂ called => ?_) _ _ (Runs.run_of_follow followed)
    rcases called with ⟨call, kept, called⟩
    refine ⟨call, fun pid same => ?_, called⟩
    subst same
    exact kept
  refine ⟨s, run, killed, slot, ((kill_named_of_careful_run run).1 4).mpr fun i found => ?_⟩
  rw [slot] at found
  cases found
  rw [ready]
  decide

/-- `kill(0)` after boot hits slot 1, which is free, and `fork` creates a killed process in it. -/
theorem not_kill_named : ¬∀ s, ReflTransGen (fun s s' => ∃ call, Family.call s call = some s')
    Family.init s → (∀ pid, KillsNamed s pid) ∧
      ∀ cur memory child, (s.proc cur).state.alive → (s.fork cur memory).1 = some child →
        ((s.fork cur memory).2.proc child).killed = false := by
  intro holds
  have born := (holds (Family.init.kill 0) (.single ⟨.kill 0, rfl⟩)).2 0 .enough 1 (by decide)
    (by decide)
  exact absurd born (by decide)

end Xv6.Sched
