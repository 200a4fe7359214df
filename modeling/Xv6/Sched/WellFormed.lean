import Xv6.Lib.Runs
import Xv6.Sched.Tree

/-!
# The process tree is well formed

Three invariants, each with one lemma for a kind of change to the table. `Named` is about
pids: `nextpid` is above all of them, so a process that is in use, or has been reaped,
shares its pid with no other. `Forking` ties every process in `fork` to the slot of its
child. `Rooted` is the tree itself: living processes and zombies hang from living
processes, and nobody sleeps in `wait` next to a zombie child; `exit` keeps this by waking
up both its own parent and the parent of the zombies that it leaves behind.
-/

namespace Xv6.Sched.Tree

open Relation

variable {w w' : World} {t t' : Table} {i j c initproc : Fin NPROC}
  {doing doing' : Fin NPROC → Doing}

/-! ## The invariants -/

structure Named (w : World) : Prop where
  below : ∀ i, (w.proc i).pid.toNat < w.forks + 2
  next : w.nextpid.toNat = w.forks + 2
  distinct : ∀ i j, i ≠ j → (w.proc i).state ≠ .unused → (w.proc j).state ≠ .unused →
    (w.proc i).pid ≠ (w.proc j).pid
  zombies : ∀ i, (w.proc i).state = .zombie → (w.proc i).pid ∈ w.exited
  reapedBelow : ∀ r ∈ w.reaps, r.pid.toNat < w.forks + 2
  gone : ∀ r ∈ w.reaps, ∀ i, (w.proc i).state ≠ .unused → (w.proc i).pid ≠ r.pid
  once : (w.reaps.map Reap.pid).Nodup
  exited : ∀ r ∈ w.reaps, r.pid ∈ w.exited
  toParent : ∀ r ∈ w.reaps, r.parent = some r.caller

/-- The child of a process that is in `fork`. -/
def Doing.child : Doing → Option (Fin NPROC)
  | .allocated child | .parented child => some child
  | _ => none

structure Forking (t : Table) (doing : Fin NPROC → Doing) : Prop where
  alive : ∀ i, doing i ≠ .other → (t i).state.alive
  embryo : ∀ i child, (doing i).child = some child → (t child).state = .embryo
  single : ∀ i j child, (doing i).child = some child → (doing j).child = some child → i = j
  parent : ∀ i child, doing i = .parented child → (t child).parent = some i

/-- The states in which a process has a parent. -/
def born : State → Bool
  | .sleeping | .runnable | .running | .zombie => true
  | _ => false

structure Rooted (t : Table) (initproc : Fin NPROC) : Prop where
  init : (t initproc).state.alive
  orphan : (t initproc).parent = none
  proper : ∀ i, (t i).parent ≠ some i
  parents : ∀ i, i ≠ initproc → born (t i).state →
    ∃ q, (t i).parent = some q ∧ (t q).state.alive
  notLost : ∀ i j, (t i).state = .sleeping → (t i).chan = some (.proc i) →
    (t j).parent = some i → (t j).state ≠ .zombie

/-! ## Processes that only change between living states -/

/-- What `sleep`, `wakeup`, `kill` and the scheduler do to the table. -/
structure Quiet (t t' : Table) : Prop where
  pid : ∀ i, (t' i).pid = (t i).pid
  parent : ∀ i, (t' i).parent = (t i).parent
  state : ∀ i, (t' i).state = (t i).state ∨ (t i).state.alive ∧ (t' i).state.alive

namespace Quiet

/-- A slot changes, but not who is in it. -/
theorem set {p : Proc} (pid : p.pid = (t i).pid) (parent : p.parent = (t i).parent)
    (state : p.state = (t i).state ∨ (t i).state.alive ∧ p.state.alive) : Quiet t (t.set i p) := by
  refine ⟨fun j => ?_, fun j => ?_, fun j => ?_⟩
  · by_cases same : j = i
    · subst same
      rw [Table.set_self, pid]
    · rw [Table.set_of_ne _ same]
  · by_cases same : j = i
    · subst same
      rw [Table.set_self, parent]
    · rw [Table.set_of_ne _ same]
  · by_cases same : j = i
    · subst same
      rwa [Table.set_self]
    · rw [Table.set_of_ne _ same]
      exact Or.inl rfl

theorem wakeup1 (t : Table) (chan : Option Chan) : Quiet t (t.wakeup1 chan) := by
  refine ⟨fun j => ?_, fun j => ?_, fun j => ?_⟩
  all_goals
    rw [Table.wakeup1]
    split
  case refine_3.isTrue asleep =>
    exact Or.inr ⟨by rw [asleep.1]; rfl, rfl⟩
  case refine_3.isFalse => exact Or.inl rfl
  all_goals rfl

/-- States other than the living ones stay. -/
theorem state_of_not_alive (quiet : Quiet t t') (dead : (t i).state.alive = false) :
    (t' i).state = (t i).state := by
  rcases quiet.state i with same | ⟨alive, _⟩
  · exact same
  · rw [dead] at alive
    cases alive

theorem state_of_now_not_alive (quiet : Quiet t t') (dead : (t' i).state.alive = false) :
    (t' i).state = (t i).state := by
  rcases quiet.state i with same | ⟨_, alive⟩
  · exact same
  · rw [dead] at alive
    cases alive

theorem alive_iff (quiet : Quiet t t') (i : Fin NPROC) :
    (t' i).state.alive = (t i).state.alive := by
  rcases quiet.state i with same | ⟨before, now⟩
  · rw [same]
  · rw [before, now]

theorem unused_iff (quiet : Quiet t t') (i : Fin NPROC) :
    (t' i).state = .unused ↔ (t i).state = .unused := by
  constructor
  · intro unused
    rw [← quiet.state_of_now_not_alive (by rw [unused]; rfl), unused]
  · intro unused
    rw [quiet.state_of_not_alive (by rw [unused]; rfl), unused]

theorem zombie_iff (quiet : Quiet t t') (i : Fin NPROC) :
    (t' i).state = .zombie ↔ (t i).state = .zombie := by
  constructor
  · intro zombie
    rw [← quiet.state_of_now_not_alive (by rw [zombie]; rfl), zombie]
  · intro zombie
    rw [quiet.state_of_not_alive (by rw [zombie]; rfl), zombie]

theorem born_iff (quiet : Quiet t t') (i : Fin NPROC) : born (t' i).state = born (t i).state := by
  rcases quiet.state i with same | ⟨before, now⟩
  · rw [same]
  · revert before now
    cases (t i).state <;> cases (t' i).state <;> simp [State.alive, born]

end Quiet

/-- A quiet step keeps the pids. -/
theorem Named.quiet (inv : Named w) (quiet : Quiet w.proc w'.proc)
    (nextpid : w'.nextpid = w.nextpid) (forks : w'.forks = w.forks) (exited : w'.exited = w.exited)
    (reaps : w'.reaps = w.reaps) :
    Named w' where
  below := by
    intro i
    rw [quiet.pid, forks]
    exact inv.below i
  next := by
    rw [nextpid, forks]
    exact inv.next
  distinct := by
    intro i j other usedI usedJ
    rw [quiet.pid, quiet.pid]
    exact inv.distinct i j other (usedI ∘ (quiet.unused_iff i).mpr)
      (usedJ ∘ (quiet.unused_iff j).mpr)
  zombies := by
    intro i zombie
    rw [quiet.pid, exited]
    exact inv.zombies i ((quiet.zombie_iff i).mp zombie)
  reapedBelow := by
    rw [reaps, forks]
    exact inv.reapedBelow
  gone := by
    rw [reaps]
    intro r mem i used
    rw [quiet.pid]
    exact inv.gone r mem i (used ∘ (quiet.unused_iff i).mpr)
  once := by
    rw [reaps]
    exact inv.once
  exited := by
    rw [reaps, exited]
    exact inv.exited
  toParent := by
    rw [reaps]
    exact inv.toParent

/-- Children in `fork` stay as they are, and nobody enters `fork`. -/
theorem Forking.congr (inv : Forking t doing)
    (alive : ∀ i, doing' i ≠ .other → (t' i).state.alive)
    (embryo : ∀ i c, (doing i).child = some c → (t' c).state = .embryo)
    (parent : ∀ i c, doing i = .parented c → (t' c).parent = (t c).parent)
    (same : ∀ i, doing' i = doing i ∨ (doing' i).child = none) : Forking t' doing' where
  alive := alive
  embryo := by
    intro i c inFork
    rcases same i with eq | out
    · rw [eq] at inFork
      exact embryo i c inFork
    · rw [out] at inFork
      cases inFork
  single := by
    intro i j c inForkI inForkJ
    rcases same i with eq | out
    · rcases same j with eq' | out
      · rw [eq] at inForkI
        rw [eq'] at inForkJ
        exact inv.single i j c inForkI inForkJ
      · rw [out] at inForkJ
        cases inForkJ
    · rw [out] at inForkI
      cases inForkI
  parent := by
    intro i c inFork
    rcases same i with eq | out
    · rw [eq] at inFork
      rw [parent i c inFork]
      exact inv.parent i c inFork
    · rw [inFork] at out
      cases out

/-- A quiet step keeps the forks that are under way. -/
theorem Forking.quiet (inv : Forking t doing) (quiet : Quiet t t')
    (same : ∀ i, doing' i = doing i ∨ (doing' i).child = none ∧
      (doing' i ≠ .other → (t i).state.alive)) : Forking t' doing' := by
  refine inv.congr (fun i busy => ?_) (fun i c inFork => ?_) (fun _ c _ => quiet.parent c) fun i =>
    ?_
  · rw [quiet.alive_iff]
    rcases same i with eq | ⟨_, alive⟩
    · rw [eq] at busy
      exact inv.alive i busy
    · exact alive busy
  · have was := inv.embryo i c inFork
    rw [quiet.state_of_not_alive (by rw [was]; rfl), was]
  · rcases same i with eq | ⟨out, _⟩
    · exact Or.inl eq
    · exact Or.inr out

/-- A process that has newly gone to sleep in `wait` has no zombie child. -/
theorem Rooted.quiet (inv : Rooted t initproc) (quiet : Quiet t t')
    (asleep : ∀ i, (t' i).state = .sleeping → (t' i).chan = some (.proc i) →
      (t i).state = .sleeping ∧ (t i).chan = some (.proc i) ∨
        ∀ j, (t j).parent = some i → (t j).state ≠ .zombie) : Rooted t' initproc where
  init := by
    rw [quiet.alive_iff]
    exact inv.init
  orphan := by
    rw [quiet.parent]
    exact inv.orphan
  proper := by
    intro i
    rw [quiet.parent]
    exact inv.proper i
  parents := by
    intro i other
    rw [quiet.born_iff, quiet.parent]
    intro isBorn
    rcases inv.parents i other isBorn with ⟨q, parent, alive⟩
    exact ⟨q, parent, by rw [quiet.alive_iff, alive]⟩
  notLost := by
    intro i j sleeps chan parent zombie
    rw [quiet.parent] at parent
    rw [quiet.zombie_iff] at zombie
    rcases asleep i sleeps chan with ⟨slept, chan'⟩ | none
    · exact inv.notLost i j slept chan' parent zombie
    · exact none j parent zombie

/-! ## Slots that are taken and given back -/

/-- One slot changes, which is not that of a living process before or afterwards. -/
theorem Rooted.set {p : Proc} (inv : Rooted t initproc) (dead : (t i).state.alive = false)
    (unborn : born p.state = false) (parent : p.parent ≠ some i) : Rooted (t.set i p) initproc := by
  have notInit : initproc ≠ i := by
    rintro rfl
    have alive := inv.init
    rw [dead] at alive
    cases alive
  have living : ∀ q, (t q).state.alive → t.set i p q = t q := by
    intro q alive
    refine Table.set_of_ne _ ?_ _
    rintro rfl
    rw [dead] at alive
    cases alive
  refine ⟨?_, ?_, fun j => ?_, fun j other isBorn => ?_, fun j k sleeps chan parentIs zombie => ?_⟩
  · rw [Table.set_of_ne _ notInit]
    exact inv.init
  · rw [Table.set_of_ne _ notInit]
    exact inv.orphan
  · by_cases same : j = i
    · subst same
      rwa [Table.set_self]
    · rw [Table.set_of_ne _ same]
      exact inv.proper j
  · by_cases same : j = i
    · subst same
      rw [Table.set_self, unborn] at isBorn
      cases isBorn
    · rw [Table.set_of_ne _ same] at isBorn ⊢
      rcases inv.parents j other isBorn with ⟨q, parentIs, alive⟩
      exact ⟨q, parentIs, by rw [living q alive, alive]⟩
  · have otherJ : j ≠ i := by
      rintro rfl
      rw [Table.set_self] at sleeps
      rw [sleeps] at unborn
      cases unborn
    have otherK : k ≠ i := by
      rintro rfl
      rw [Table.set_self] at zombie
      rw [zombie] at unborn
      cases unborn
    rw [Table.set_of_ne _ otherJ] at sleeps chan
    rw [Table.set_of_ne _ otherK] at parentIs zombie
    exact inv.notLost j k sleeps chan parentIs zombie

/-- The child of a living process begins to live. -/
theorem Rooted.fork (inv : Rooted t initproc) (embryo : (t c).state = .embryo)
    (alive : (t i).state.alive) : Rooted (t.fork i c) initproc := by
  have living : ∀ q, (t q).state.alive → t.fork i c q = t q := by
    intro q alive
    refine Table.set_of_ne _ ?_ _
    rintro rfl
    rw [embryo] at alive
    cases alive
  have child : ((t.fork i c) c).parent = some i ∧ ((t.fork i c) c).state = .runnable := by
    rw [Table.fork, Table.set_self]
    exact ⟨rfl, rfl⟩
  have other : ∀ j, j ≠ c → t.fork i c j = t j := fun j ne => Table.set_of_ne _ ne _
  refine ⟨?_, ?_, fun j => ?_, fun j notInit isBorn => ?_,
    fun j k sleeps chan parentIs zombie => ?_⟩
  · rw [living _ inv.init]
    exact inv.init
  · rw [living _ inv.init]
    exact inv.orphan
  · by_cases same : j = c
    · subst same
      rw [child.1]
      rintro ⟨⟩
      rw [embryo] at alive
      cases alive
    · rw [other j same]
      exact inv.proper j
  · by_cases same : j = c
    · subst same
      exact ⟨i, child.1, by rw [living i alive, alive]⟩
    · rw [other j same] at isBorn ⊢
      rcases inv.parents j notInit isBorn with ⟨q, parentIs, aliveQ⟩
      exact ⟨q, parentIs, by rw [living q aliveQ, aliveQ]⟩
  · have otherJ : j ≠ c := by
      rintro rfl
      rw [child.2] at sleeps
      cases sleeps
    have otherK : k ≠ c := by
      rintro rfl
      rw [child.2] at zombie
      cases zombie
    rw [other j otherJ] at sleeps chan
    rw [other k otherK] at parentIs zombie
    exact inv.notLost j k sleeps chan parentIs zombie

/-- Process `i` goes on in `fork`, or leaves it, and the slot of its child changes. -/
theorem Forking.set {p : Proc} {d : Doing} (inv : Forking t doing)
    (dead : (t c).state.alive = false) (alive : d ≠ .other → (t i).state.alive)
    (mine : ∀ c', d.child = some c' → c' = c ∧ p.state = .embryo)
    (parent : ∀ c', d = .parented c' → p.parent = some i)
    (others : ∀ j, j ≠ i → (doing j).child ≠ some c) :
    Forking (t.set c p) (Function.update doing i d) := by
  have living : ∀ q, (t q).state.alive → t.set c p q = t q := by
    intro q alive
    refine Table.set_of_ne _ ?_ _
    rintro rfl
    rw [dead] at alive
    cases alive
  refine ⟨fun j busy => ?_, fun j c' inFork => ?_, fun j k c' inForkJ inForkK => ?_,
    fun j c' inFork => ?_⟩
  · by_cases same : j = i
    · subst same
      rw [Function.update_self] at busy
      rw [living j (alive busy), alive busy]
    · rw [Function.update_of_ne same] at busy
      have aliveJ := inv.alive j busy
      rw [living j aliveJ, aliveJ]
  · by_cases same : j = i
    · subst same
      rw [Function.update_self] at inFork
      rcases mine c' inFork with ⟨rfl, embryo⟩
      rw [Table.set_self, embryo]
    · rw [Function.update_of_ne same] at inFork
      have ne : c' ≠ c := by
        rintro rfl
        exact others j same inFork
      rw [Table.set_of_ne _ ne]
      exact inv.embryo j c' inFork
  · by_cases sameJ : j = i
    · by_cases sameK : k = i
      · rw [sameJ, sameK]
      · subst sameJ
        rw [Function.update_self] at inForkJ
        rw [Function.update_of_ne sameK] at inForkK
        rw [(mine c' inForkJ).1] at inForkK
        exact absurd inForkK (others k sameK)
    · rw [Function.update_of_ne sameJ] at inForkJ
      by_cases sameK : k = i
      · subst sameK
        rw [Function.update_self] at inForkK
        rw [(mine c' inForkK).1] at inForkJ
        exact absurd inForkJ (others j sameJ)
      · rw [Function.update_of_ne sameK] at inForkK
        exact inv.single j k c' inForkJ inForkK
  · by_cases same : j = i
    · subst same
      rw [Function.update_self] at inFork
      rw [(mine c' (by rw [inFork]; rfl)).1, Table.set_self]
      exact parent c' inFork
    · rw [Function.update_of_ne same] at inFork
      have ne : c' ≠ c := by
        rintro rfl
        exact others j same (by rw [inFork]; rfl)
      rw [Table.set_of_ne _ ne]
      exact inv.parent j c' inFork

/-- A slot changes, but not the pids of processes that are or have been in use. -/
theorem Named.set {p : Proc} (inv : Named w) (proc : w'.proc = w.proc.set c p)
    (nextpid : w'.nextpid = w.nextpid) (forks : w'.forks = w.forks) (exited : w'.exited = w.exited)
    (reaps : w'.reaps = w.reaps) (pid : p.pid = (w.proc c).pid) (notZombie : p.state ≠ .zombie)
    (used : p.state ≠ .unused → (w.proc c).state ≠ .unused) : Named w' := by
  have pids : ∀ i, (w'.proc i).pid = (w.proc i).pid := by
    intro i
    rw [proc]
    by_cases same : i = c
    · subst same
      rw [Table.set_self, pid]
    · rw [Table.set_of_ne _ same]
  have usedBefore : ∀ i, (w'.proc i).state ≠ .unused → (w.proc i).state ≠ .unused := by
    intro i
    rw [proc]
    by_cases same : i = c
    · subst same
      rw [Table.set_self]
      exact used
    · rw [Table.set_of_ne _ same]
      exact id
  refine ⟨fun i => ?_, ?_, fun i j other usedI usedJ => ?_, fun i zombie => ?_, ?_, ?_, ?_, ?_, ?_⟩
  · rw [pids, forks]
    exact inv.below i
  · rw [nextpid, forks]
    exact inv.next
  · rw [pids, pids]
    exact inv.distinct i j other (usedBefore i usedI) (usedBefore j usedJ)
  · rw [pids, exited]
    refine inv.zombies i ?_
    rw [proc] at zombie
    by_cases same : i = c
    · subst same
      rw [Table.set_self] at zombie
      exact absurd zombie notZombie
    · rwa [Table.set_of_ne _ same] at zombie
  · rw [reaps, forks]
    exact inv.reapedBelow
  · rw [reaps]
    intro r mem i usedI
    rw [pids]
    exact inv.gone r mem i (usedBefore i usedI)
  · rw [reaps]
    exact inv.once
  · rw [reaps, exited]
    exact inv.exited
  · rw [reaps]
    exact inv.toParent

/-! ## `exit` -/

/-- What `exit` of process `cur` does to slot `j`. -/
structure Exited (t t' : Table) (cur initproc : Fin NPROC) (j : Fin NPROC) : Prop where
  pid : (t' j).pid = (t j).pid
  parent : (t' j).parent = if (t j).parent = some cur then some initproc else (t j).parent
  chan : (t' j).chan = (t j).chan
  zombie : j = cur → (t' j).state = .zombie
  state : j ≠ cur → (t' j).state = (t j).state ∨ (t j).state = .sleeping ∧ (t' j).state = .runnable
  /-- The parent of `cur` has been woken up, and `init` if there are zombies for it. -/
  asleep : (t' j).state = .sleeping → (t j).chan ≠ (t cur).parent.map .proc ∧
    (t.hasZombie cur → (t j).chan ≠ some (.proc initproc))

theorem passChildren_spec (t : Table) (cur initproc j : Fin NPROC) :
    (t.passChildren cur initproc j).pid = (t j).pid ∧
      (t.passChildren cur initproc j).parent =
        if (t j).parent = some cur then some initproc else (t j).parent := by
  rw [Table.passChildren]
  split_ifs with here
  · exact ⟨rfl, rfl⟩
  · exact ⟨rfl, rfl⟩

theorem wakeup1_state (t : Table) (chan : Option Chan) (j : Fin NPROC) :
    (t.wakeup1 chan j).state = (t j).state ∨
      (t j).state = .sleeping ∧ (t.wakeup1 chan j).state = .runnable := by
  rw [Table.wakeup1]
  split_ifs with asleep
  · exact Or.inr ⟨asleep.1, rfl⟩
  · exact Or.inl rfl

/-- Whoever still sleeps has not slept on the channel. -/
theorem chan_ne_of_wakeup1 {chan : Option Chan} (asleep : (t.wakeup1 chan j).state = .sleeping) :
    (t j).chan ≠ chan := by
  intro same
  have slept := Table.sleeping_of_wakeup1 t j asleep
  rw [Table.wakeup1, if_pos ⟨slept, same⟩] at asleep
  cases asleep

/-- What `exit` does to a slot. -/
theorem exited (t : Table) (cur initproc j : Fin NPROC) :
    Exited t (t.exit cur initproc) cur initproc j := by
  have first := Quiet.wakeup1 t ((t cur).parent.map .proc)
  -- The table after the second `wakeup1`, if it is called.
  have second : ∀ t₂ : Table, (∀ j, (t₂ j).pid = (t j).pid) →
      (∀ j, (t₂ j).parent = if (t j).parent = some cur then some initproc else (t j).parent) →
      (∀ j, (t₂ j).chan = (t j).chan) →
      (∀ j, (t₂ j).state = (t j).state ∨ (t j).state = .sleeping ∧ (t₂ j).state = .runnable) →
      (∀ j, (t₂ j).state = .sleeping → (t j).chan ≠ (t cur).parent.map .proc ∧
        (t.hasZombie cur → (t j).chan ≠ some (.proc initproc))) →
      Exited t (t₂.set cur { t₂ cur with state := .zombie }) cur initproc j := by
    intro t₂ pid parent chan state asleep
    by_cases same : j = cur
    · subst same
      refine ⟨?_, ?_, ?_, fun _ => ?_, fun ne => absurd rfl ne, fun impossible => ?_⟩
      · rw [Table.set_self]
        exact pid j
      · rw [Table.set_self]
        exact parent j
      · rw [Table.set_self]
        exact chan j
      · rw [Table.set_self]
      · rw [Table.set_self] at impossible
        cases impossible
    · have other : t₂.set cur { t₂ cur with state := .zombie } j = t₂ j :=
        Table.set_of_ne _ same _
      refine ⟨?_, ?_, ?_, fun is => absurd is same, fun _ => ?_, ?_⟩
      · rw [other, pid]
      · rw [other, parent]
      · rw [other, chan]
      · rw [other]
        exact state j
      · rw [other]
        exact asleep j
  -- After the first `wakeup1` and the loop over the children.
  have woken : ∀ j, ((t.wakeup1 ((t cur).parent.map .proc)).passChildren cur initproc j).state =
      .sleeping → (t j).chan ≠ (t cur).parent.map .proc := by
    intro j asleep
    rw [Table.passChildren_state] at asleep
    exact chan_ne_of_wakeup1 asleep
  by_cases zombies : t.hasZombie cur
  · simp only [Table.exit, if_pos zombies]
    refine second _ (fun j => ?_) (fun j => ?_) (fun j => ?_) (fun j => ?_) fun j asleep => ?_
    · rw [(Quiet.wakeup1 _ _).pid, (passChildren_spec _ _ _ _).1, first.pid]
    · rw [(Quiet.wakeup1 _ _).parent, (passChildren_spec _ _ _ _).2, first.parent]
    · rw [Table.wakeup1_chan, Table.passChildren_chan, Table.wakeup1_chan]
    · rcases wakeup1_state ((t.wakeup1 ((t cur).parent.map .proc)).passChildren cur initproc)
        (some (.proc initproc)) j with same | ⟨slept, now⟩
      · rw [same, Table.passChildren_state]
        exact wakeup1_state _ _ j
      · rw [Table.passChildren_state] at slept
        exact Or.inr ⟨Table.sleeping_of_wakeup1 _ _ slept, now⟩
    · refine ⟨woken j (Table.sleeping_of_wakeup1 _ _ asleep), fun _ => ?_⟩
      have ne := chan_ne_of_wakeup1 asleep
      rwa [Table.passChildren_chan, Table.wakeup1_chan] at ne
  · simp only [Table.exit, if_neg zombies]
    refine second _ (fun j => ?_) (fun j => ?_) (fun j => ?_) (fun j => ?_) fun j asleep => ?_
    · rw [(passChildren_spec _ _ _ _).1, first.pid]
    · rw [(passChildren_spec _ _ _ _).2, first.parent]
    · rw [Table.passChildren_chan, Table.wakeup1_chan]
    · rw [Table.passChildren_state]
      exact wakeup1_state _ _ j
    · exact ⟨woken j asleep, fun has => absurd has zombies⟩

/-- The children of a process that exits go to `initproc`. -/
theorem Rooted.exit (inv : Rooted t initproc) (alive : (t i).state.alive) (other : i ≠ initproc) :
    Rooted (t.exit i initproc) initproc := by
  have spec := exited t i initproc
  have living : ∀ q, q ≠ i → (t q).state.alive → ((t.exit i initproc) q).state.alive := by
    intro q ne aliveQ
    rcases (spec q).state ne with same | ⟨_, runnable⟩
    · rw [same, aliveQ]
    · rw [runnable]
      rfl
  have initAlive := living initproc other.symm inv.init
  refine ⟨initAlive, ?_, fun j => ?_, fun j notInit isBorn => ?_,
    fun j k sleeps chan parentIs zombie => ?_⟩
  · rw [(spec _).parent, inv.orphan]
    rfl
  · rw [(spec j).parent]
    split_ifs with ours
    · rintro same
      cases same
      rw [inv.orphan] at ours
      cases ours
    · exact inv.proper j
  · rw [(spec j).parent]
    have bornBefore : born (t j).state := by
      by_cases same : j = i
      · rw [same]
        revert alive
        cases (t i).state <;> simp [State.alive, born]
      · rcases (spec j).state same with eq | ⟨slept, _⟩
        · rwa [← eq]
        · rw [slept]
          rfl
    rcases inv.parents j notInit bornBefore with ⟨q, parentIs, aliveQ⟩
    split_ifs with ours
    · exact ⟨initproc, rfl, initAlive⟩
    · refine ⟨q, parentIs, living q ?_ aliveQ⟩
      rintro rfl
      exact ours parentIs
  · have notExiting : j ≠ i := by
      rintro rfl
      rw [(spec j).zombie rfl] at sleeps
      cases sleeps
    have slept : (t j).state = .sleeping := by
      rcases (spec j).state notExiting with same | ⟨slept, _⟩
      · rw [← same, sleeps]
      · exact slept
    have chanWas : (t j).chan = some (.proc j) := by rw [← (spec j).chan, chan]
    rcases (spec j).asleep sleeps with ⟨notParent, notInit⟩
    rw [(spec k).parent] at parentIs
    by_cases exiting : k = i
    · -- The new zombie: its parent has been woken up.
      subst exiting
      rw [if_neg (inv.proper k)] at parentIs
      rw [chanWas, parentIs] at notParent
      exact notParent rfl
    · have zombieWas : (t k).state = .zombie := by
        rcases (spec k).state exiting with same | ⟨_, runnable⟩
        · rw [← same, zombie]
        · rw [runnable] at zombie
          cases zombie
      split_ifs at parentIs with ours
      · -- A zombie that has been passed on: `init` has been woken up.
        cases parentIs
        refine notInit ?_ chanWas
        rw [Table.hasZombie, List.any_eq_true]
        exact ⟨k, List.mem_finRange k, by simp [ours, zombieWas]⟩
      · exact inv.notLost j k slept chanWas parentIs zombieWas

/-- A process that exits is in no fork. -/
theorem Forking.exit (inv : Forking t doing) (alive : (t i).state.alive)
    (busy : doing i = .other) : Forking (t.exit i initproc) doing := by
  have spec := exited t i initproc
  refine inv.congr (fun j busyJ => ?_) (fun j c inFork => ?_) (fun j c inFork => ?_)
    fun _ => Or.inl rfl
  · have ne : j ≠ i := by
      rintro rfl
      exact busyJ busy
    rcases (spec j).state ne with same | ⟨_, runnable⟩
    · rw [same]
      exact inv.alive j busyJ
    · rw [runnable]
      rfl
  · have embryo := inv.embryo j c inFork
    have ne : c ≠ i := by
      rintro rfl
      rw [embryo] at alive
      cases alive
    rcases (spec c).state ne with same | ⟨slept, _⟩
    · rw [same, embryo]
    · rw [embryo] at slept
      cases slept
  · have ne : j ≠ i := by
      rintro rfl
      rw [busy] at inFork
      cases inFork
    rw [(spec c).parent, if_neg]
    rw [inv.parent j c inFork]
    rintro ⟨⟩
    exact ne rfl

/-- `exit` keeps the pids. -/
theorem Named.exit (inv : Named w) (alive : (w.proc i).state.alive) : Named (w.exit i) := by
  have spec := Tree.exited w.proc i w.initproc
  have usedBefore : ∀ j, (w.proc.exit i w.initproc j).state ≠ .unused →
      (w.proc j).state ≠ .unused := by
    intro j used unused
    by_cases same : j = i
    · rw [same] at unused
      rw [unused] at alive
      cases alive
    · rcases (spec j).state same with eq | ⟨slept, _⟩
      · exact used (eq.trans unused)
      · rw [slept] at unused
        cases unused
  refine ⟨fun j => ?_, inv.next, fun j k other usedJ usedK => ?_, fun j zombie => ?_,
    inv.reapedBelow, fun r mem j usedJ => ?_, inv.once, fun r mem => ?_, inv.toParent⟩
  · change ((w.proc.exit i w.initproc j).pid).toNat < _
    rw [(spec j).pid]
    exact inv.below j
  · change (w.proc.exit i w.initproc j).pid ≠ (w.proc.exit i w.initproc k).pid
    rw [(spec j).pid, (spec k).pid]
    exact inv.distinct j k other (usedBefore j usedJ) (usedBefore k usedK)
  · change (w.proc.exit i w.initproc j).pid ∈ (w.proc i).pid :: w.exited
    rw [(spec j).pid]
    by_cases same : j = i
    · rw [same]
      exact List.mem_cons_self
    · refine List.mem_cons_of_mem _ (inv.zombies j ?_)
      rcases (spec j).state same with eq | ⟨_, runnable⟩
      · exact eq.symm.trans zombie
      · have now : (w.proc.exit i w.initproc j).state = .zombie := zombie
        rw [runnable] at now
        cases now
  · change (w.proc.exit i w.initproc j).pid ≠ _
    rw [(spec j).pid]
    exact inv.gone r mem j (usedBefore j usedJ)
  · exact List.mem_cons_of_mem _ (inv.exited r mem)

/-! ## `allocproc` and `wait` -/

theorem allocproc_spec {pid : Word} (got : t.allocproc pid = some (c, t')) :
    (t c).state = .unused ∧ t' = t.set c { t c with
      state := .embryo, pid := pid, pri := 1, lopTicks := 0, hipTicks := 0 } := by
  rw [Table.allocproc] at got
  split at got
  case h_1 i found =>
    cases got
    exact ⟨by simpa using List.find?_some found, rfl⟩
  case h_2 => cases got

/-- A new pid: `nextpid` has not wrapped around. -/
theorem Named.allocproc (inv : Named w) (got : w.proc.allocproc w.nextpid = some (c, t))
    (proc : w'.proc = t) (nextpid : w'.nextpid = w.nextpid + 1) (forks : w'.forks = w.forks + 1)
    (exited : w'.exited = w.exited) (reaps : w'.reaps = w.reaps) (small : w'.forks < 2 ^ 31) :
    Named w' := by
  rcases allocproc_spec got with ⟨unused, eq⟩
  have child : (w'.proc c).pid = w.nextpid ∧ (w'.proc c).state = .embryo := by
    rw [proc, eq, Table.set_self]
    exact ⟨rfl, rfl⟩
  have other : ∀ j, j ≠ c → w'.proc j = w.proc j := by
    intro j ne
    rw [proc, eq, Table.set_of_ne _ ne]
  have fresh : ∀ pid : Word, pid.toNat < w.forks + 2 → w.nextpid ≠ pid := by
    intro pid below same
    rw [← same, inv.next] at below
    exact lt_irrefl _ below
  refine ⟨fun j => ?_, ?_, fun j k ne usedJ usedK => ?_, fun j zombie => ?_, fun r mem => ?_,
    fun r mem j used => ?_, ?_, ?_, ?_⟩
  · rw [forks]
    by_cases same : j = c
    · rw [same, child.1, inv.next]
      omega
    · rw [other j same]
      have below := inv.below j
      omega
  · have next := inv.next
    rw [nextpid, forks, BitVec.toNat_add, next]
    rw [forks] at small
    have one : (1 : Word).toNat = 1 := rfl
    omega
  · by_cases sameJ : j = c
    · rw [sameJ] at ne
      rw [sameJ, child.1, other k ne.symm]
      exact fresh _ (inv.below k)
    · by_cases sameK : k = c
      · rw [sameK, child.1, other j sameJ]
        exact (fresh _ (inv.below j)).symm
      · rw [other j sameJ] at usedJ ⊢
        rw [other k sameK] at usedK ⊢
        exact inv.distinct j k ne usedJ usedK
  · have ne : j ≠ c := by
      rintro rfl
      rw [child.2] at zombie
      cases zombie
    rw [other j ne] at zombie ⊢
    rw [exited]
    exact inv.zombies j zombie
  · rw [reaps] at mem
    rw [forks]
    exact (inv.reapedBelow r mem).trans (by omega)
  · rw [reaps] at mem
    by_cases same : j = c
    · rw [same, child.1]
      exact fresh _ (inv.reapedBelow r mem)
    · rw [other j same] at used ⊢
      exact inv.gone r mem j used
  · rw [reaps]
    exact inv.once
  · rw [reaps, exited]
    exact inv.exited
  · rw [reaps]
    exact inv.toParent

/-- A zombie child of process `i` is reaped. -/
theorem Named.reap {p : Proc} (inv : Named w) (zombie : (w.proc c).state = .zombie)
    (parent : (w.proc c).parent = some i) (proc : w'.proc = w.proc.set c p) (pid : p.pid = 0)
    (unused : p.state = .unused) (nextpid : w'.nextpid = w.nextpid) (forks : w'.forks = w.forks)
    (exited : w'.exited = w.exited)
    (reaps : w'.reaps = w.reaps ++ [⟨(w.proc c).pid, i, (w.proc c).parent⟩]) : Named w' := by
  have other : ∀ j, (w'.proc j).state ≠ .unused → j ≠ c ∧ w'.proc j = w.proc j := by
    intro j used
    have ne : j ≠ c := by
      rintro rfl
      rw [proc, Table.set_self] at used
      exact used unused
    exact ⟨ne, by rw [proc, Table.set_of_ne _ ne]⟩
  have wasUsed : (w.proc c).state ≠ .unused := by
    rw [zombie]
    rintro ⟨⟩
  refine ⟨fun j => ?_, ?_, fun j k ne usedJ usedK => ?_, fun j zombieJ => ?_, ?_, ?_, ?_, ?_, ?_⟩
  · rw [proc, forks]
    by_cases same : j = c
    · rw [same, Table.set_self, pid]
      exact Nat.succ_pos _
    · rw [Table.set_of_ne _ same]
      exact inv.below j
  · rw [nextpid, forks]
    exact inv.next
  · rcases other j usedJ with ⟨_, eqJ⟩
    rcases other k usedK with ⟨_, eqK⟩
    rw [eqJ] at usedJ ⊢
    rw [eqK] at usedK ⊢
    exact inv.distinct j k ne usedJ usedK
  · rcases other j (by rw [zombieJ]; rintro ⟨⟩) with ⟨_, eq⟩
    rw [eq] at zombieJ ⊢
    rw [exited]
    exact inv.zombies j zombieJ
  · rw [reaps, forks, List.forall_mem_append, List.forall_mem_singleton]
    exact ⟨inv.reapedBelow, inv.below c⟩
  · rw [reaps, List.forall_mem_append, List.forall_mem_singleton]
    refine ⟨fun r mem j used => ?_, fun j used => ?_⟩
    · rcases other j used with ⟨_, eq⟩
      rw [eq] at used ⊢
      exact inv.gone r mem j used
    · rcases other j used with ⟨ne, eq⟩
      rw [eq] at used ⊢
      exact inv.distinct j c ne used wasUsed
  · rw [reaps, List.map_append, List.map_singleton, List.nodup_append]
    refine ⟨inv.once, List.nodup_singleton _, fun pid₁ mem₁ pid₂ mem₂ => ?_⟩
    rcases List.mem_map.mp mem₁ with ⟨r, mem, rfl⟩
    rw [List.mem_singleton.mp mem₂]
    exact (inv.gone r mem c wasUsed).symm
  · rw [reaps, exited, List.forall_mem_append, List.forall_mem_singleton]
    exact ⟨inv.exited, inv.zombies c zombie⟩
  · rw [reaps, List.forall_mem_append, List.forall_mem_singleton]
    exact ⟨inv.toParent, parent⟩

/-! ## Every step -/

structure Inv (w : World) : Prop where
  named : Named w
  forking : Forking w.proc w.doing
  rooted : Rooted w.proc w.initproc

/-- The table changes quietly, and process `i` may have left or entered `wait`. -/
theorem Inv.quiet (inv : Inv w) (quiet : Quiet w.proc t)
    (same : ∀ i, doing i = w.doing i ∨ (doing i).child = none ∧
      (doing i ≠ .other → (w.proc i).state.alive))
    (asleep : ∀ i, (t i).state = .sleeping → (t i).chan = some (.proc i) →
      (w.proc i).state = .sleeping ∧ (w.proc i).chan = some (.proc i) ∨
        ∀ j, (w.proc j).parent = some i → (w.proc j).state ≠ .zombie) :
    Inv { w with proc := t, doing := doing } where
  named := inv.named.quiet quiet rfl rfl rfl rfl
  forking := inv.forking.quiet quiet same
  rooted := inv.rooted.quiet quiet asleep

/-- Process `i` alone changes; if it goes to sleep in `wait`, it has no zombie child. -/
theorem Inv.set {p : Proc} (inv : Inv w) (pid : p.pid = (w.proc i).pid)
    (parent : p.parent = (w.proc i).parent)
    (state : p.state = (w.proc i).state ∨ (w.proc i).state.alive ∧ p.state.alive)
    (same : ∀ i, doing i = w.doing i ∨ (doing i).child = none ∧
      (doing i ≠ .other → (w.proc i).state.alive))
    (asleep : p.state = .sleeping → p.chan = some (.proc i) →
      ∀ j, (w.proc j).parent = some i → (w.proc j).state ≠ .zombie) :
    Inv { w with proc := w.proc.set i p, doing := doing } := by
  refine inv.quiet (Quiet.set pid parent state) same fun j sleeps chan => ?_
  by_cases here : j = i
  · subst here
    rw [Table.set_self] at sleeps chan
    exact Or.inr (asleep sleeps chan)
  · rw [Table.set_of_ne _ here] at sleeps chan
    exact Or.inl ⟨sleeps, chan⟩

/-- `allocproc` takes a free slot and gives it the next pid. -/
theorem Inv.allocproc (inv : Inv w) (alive : (w.proc i).state.alive)
    (small : (w.allocproc i).forks < 2 ^ 31) : Inv (w.allocproc i) := by
  rw [World.allocproc] at small ⊢
  split at small
  case h_2 => exact inv
  case h_1 c t got =>
    rcases allocproc_spec got with ⟨unused, rfl⟩
    have dead : (w.proc c).state.alive = false := by
      rw [unused]
      rfl
    refine ⟨inv.named.allocproc got rfl rfl rfl rfl rfl small, ?_,
      inv.rooted.set dead rfl (inv.rooted.proper c)⟩
    refine inv.forking.set dead (fun _ => alive) (fun c' is => ?_) (fun c' is => ?_)
      fun j _ inFork => ?_
    · cases is
      exact ⟨rfl, rfl⟩
    · cases is
    · have embryo := inv.forking.embryo j c inFork
      rw [unused] at embryo
      cases embryo

/-- A process in `fork` does something to the slot of its child. -/
theorem Inv.child {p : Proc} {d : Doing} (inv : Inv w) (inFork : (w.doing i).child = some c)
    (mine : ∀ c', d.child = some c' → c' = c ∧ p.state = .embryo)
    (parent : ∀ c', d = .parented c' → p.parent = some i) (pid : p.pid = (w.proc c).pid)
    (notZombie : p.state ≠ .zombie) (rooted : Rooted (w.proc.set c p) w.initproc) :
    Inv { w.becomes i d with proc := w.proc.set c p } := by
  have embryo := inv.forking.embryo i c inFork
  have busy : w.doing i ≠ .other := by
    intro free
    rw [free] at inFork
    cases inFork
  refine ⟨inv.named.set rfl rfl rfl rfl rfl pid notZombie fun _ => ?_, ?_, rooted⟩
  · rw [embryo]
    rintro ⟨⟩
  · refine inv.forking.set ?_ (fun _ => inv.forking.alive i busy) mine parent fun j ne inFork' => ?_
    · rw [embryo]
      rfl
    · exact ne (inv.forking.single j i c inFork' inFork)

theorem zombieOf_eq_some {i c : Fin NPROC} (found : w.zombieOf i = some c) :
    (w.proc c).parent = some i ∧ (w.proc c).state = .zombie := by
  simpa using List.find?_some found

theorem zombieOf_eq_none {i : Fin NPROC} (none : w.zombieOf i = none) :
    ∀ j, (w.proc j).parent = some i → (w.proc j).state ≠ .zombie := by
  intro j parent zombie
  have found := List.find?_eq_none.mp none j (List.mem_finRange j)
  simp [parent, zombie] at found

/-- `wait` frees a zombie. -/
theorem Inv.wait (inv : Inv w) (alive : (w.proc i).state.alive) : Inv (w.wait i) := by
  have left : ∀ d : Doing, d.child = none → ∀ j, Function.update w.doing i d j = w.doing j ∨
      (Function.update w.doing i d j).child = none ∧
        (Function.update w.doing i d j ≠ .other → (w.proc j).state.alive) := by
    intro d out j
    by_cases same : j = i
    · subst same
      rw [Function.update_self]
      exact Or.inr ⟨out, fun _ => alive⟩
    · exact Or.inl (Function.update_of_ne same _ _)
  cases found : w.zombieOf i with
  | some c =>
      rcases zombieOf_eq_some found with ⟨parent, zombie⟩
      have reaped : w.wait i = { w.becomes i .other with
          proc := w.proc.set c { w.proc c with
            pid := 0, parent := none, killed := false, state := .unused }
          reaps := w.reaps ++ [⟨(w.proc c).pid, i, (w.proc c).parent⟩] } := by
        rw [World.zombieOf] at found
        simp only [World.wait, Table.wait, World.zombieOf, found, Option.toList_some,
          List.map_cons, List.map_nil]
      have dead : (w.proc c).state.alive = false := by
        rw [zombie]
        rfl
      rw [reaped]
      refine ⟨inv.named.reap zombie parent rfl rfl rfl rfl rfl rfl rfl, ?_,
        inv.rooted.set dead rfl (by rintro ⟨⟩)⟩
      refine inv.forking.set dead (fun free => absurd rfl free) (fun c' is => ?_)
        (fun c' is => ?_) fun j _ inFork => ?_
      · cases is
      · cases is
      · have embryo := inv.forking.embryo j c inFork
        rw [zombie] at embryo
        cases embryo
  | none =>
      have noZombie := zombieOf_eq_none found
      rw [World.zombieOf] at found
      simp only [World.wait, Table.wait, found]
      split_ifs with failed
      · exact inv.quiet ⟨fun _ => rfl, fun _ => rfl, fun _ => Or.inl rfl⟩ (left .other rfl)
          fun j sleeps chan => Or.inl ⟨sleeps, chan⟩
      · exact inv.set rfl rfl (Or.inr ⟨alive, rfl⟩) (left .waiting rfl) fun _ _ => noZombie

theorem Inv.exit (inv : Inv w) (alive : (w.proc i).state.alive) (busy : w.doing i = .other)
    (other : i ≠ w.initproc) : Inv (w.exit i) where
  named := inv.named.exit alive
  forking := inv.forking.exit alive busy
  rooted := inv.rooted.exit alive other

theorem Inv.wakeup (inv : Inv w) (chan : Chan) :
    Inv { w with proc := w.proc.wakeup1 (some chan) } := by
  refine inv.quiet (Quiet.wakeup1 _ _) (fun _ => Or.inl rfl) fun i sleeps on => ?_
  rw [Table.wakeup1_chan] at on
  exact Or.inl ⟨Table.sleeping_of_wakeup1 _ _ sleeps, on⟩

/-- `kill` wakes its process up. -/
theorem Inv.kill (inv : Inv w) (pid : Word) : Inv { w with proc := w.proc.kill pid } := by
  rw [Table.kill]
  split
  case h_2 => exact inv
  case h_1 i _ =>
    refine inv.set rfl rfl ?_ (fun _ => Or.inl rfl) fun sleeps => ?_
    · split_ifs with asleep
      · exact Or.inr ⟨by rw [asleep]; rfl, rfl⟩
      · exact Or.inl rfl
    · split_ifs at sleeps with asleep
      exact absurd sleeps asleep

/-- Every step keeps the table in order. -/
theorem Inv.step {a : Action} (inv : Inv w) (stepped : step w a = some w')
    (small : w'.forks < 2 ^ 31) : Inv w' := by
  have alive_of_running : ∀ i, w.running i → (w.proc i).state.alive := by
    intro i running
    rw [show (w.proc i).state = .running from running]
    rfl
  cases a with
  | allocproc i =>
      simp only [Tree.step] at stepped
      split_ifs at stepped with can
      cases stepped
      exact inv.allocproc (alive_of_running i can.1) small
  | discard i =>
      simp only [Tree.step] at stepped
      split at stepped
      case h_1 c doing =>
        split_ifs at stepped with can
        cases stepped
        have inFork : (w.doing i).child = some c := by
          rw [doing]
          rfl
        refine inv.child inFork (fun _ is => ?_) (fun _ is => ?_) rfl (by rintro ⟨⟩)
          (inv.rooted.set ?_ rfl (inv.rooted.proper c))
        · cases is
        · cases is
        · rw [inv.forking.embryo i c inFork]
          rfl
      case h_2 => cases stepped
  | setParent i =>
      simp only [Tree.step] at stepped
      split at stepped
      case h_1 c doing =>
        split_ifs at stepped with can
        cases stepped
        have inFork : (w.doing i).child = some c := by
          rw [doing]
          rfl
        have embryo := inv.forking.embryo i c inFork
        refine inv.child inFork (fun _ is => ?_) (fun _ _ => rfl) rfl ?_
          (inv.rooted.set ?_ ?_ ?_)
        · cases is
          exact ⟨rfl, embryo⟩
        · rw [embryo]
          rintro ⟨⟩
        · rw [embryo]
          rfl
        · rw [embryo]
          rfl
        · rintro ⟨⟩
          have alive := alive_of_running _ can
          rw [embryo] at alive
          cases alive
      case h_2 => cases stepped
  | fork i =>
      simp only [Tree.step] at stepped
      split at stepped
      case h_1 c doing =>
        split_ifs at stepped with can
        cases stepped
        have inFork : (w.doing i).child = some c := by
          rw [doing]
          rfl
        refine inv.child inFork (fun _ is => ?_) (fun _ is => ?_) rfl (by rintro ⟨⟩)
          (inv.rooted.fork (inv.forking.embryo i c inFork) (alive_of_running i can))
        · cases is
        · cases is
      case h_2 => cases stepped
  | wait i =>
      simp only [Tree.step] at stepped
      split_ifs at stepped with can
      cases stepped
      exact inv.wait (alive_of_running i can.1)
  | exit i =>
      simp only [Tree.step] at stepped
      split_ifs at stepped with can notInit
      cases stepped
      exact inv.exit (alive_of_running i can.1) can.2 notInit
  | sleep i chan =>
      simp only [Tree.step] at stepped
      split_ifs at stepped with can
      cases stepped
      refine inv.set rfl rfl (Or.inr ⟨alive_of_running i can.1, rfl⟩) (fun _ => Or.inl rfl)
        fun _ on => ?_
      exact absurd (Option.some.inj on) (can.2.2 i)
  | yield i =>
      simp only [Tree.step] at stepped
      split_ifs at stepped with can
      cases stepped
      refine inv.set rfl rfl (Or.inr ⟨alive_of_running i can.1, rfl⟩) (fun _ => Or.inl rfl) ?_
      rintro ⟨⟩
  | schedule i =>
      simp only [Tree.step] at stepped
      split_ifs at stepped with runnable
      cases stepped
      refine inv.set rfl rfl (Or.inr ⟨?_, rfl⟩) (fun _ => Or.inl rfl) ?_
      · rw [runnable]
        rfl
      · rintro ⟨⟩
  | wakeup chan =>
      cases stepped
      exact inv.wakeup chan
  | kill pid =>
      cases stepped
      exact inv.kill pid

/-- The table is in order after the boot. -/
theorem Inv.init : Inv World.init where
  named := by
    refine ⟨fun i => ?_, rfl, fun i j ne usedI usedJ => ?_, fun i zombie => ?_, ?_, ?_, ?_, ?_, ?_⟩
    · simp only [World.init, firstTable]
      split_ifs <;> decide
    · simp only [World.init, firstTable] at usedI usedJ
      have zeroI : i.val = 0 := by
        by_contra other
        exact usedI (if_neg other)
      have zeroJ : j.val = 0 := by
        by_contra other
        exact usedJ (if_neg other)
      exact absurd (Fin.ext (zeroI.trans zeroJ.symm)) ne
    · simp only [World.init, firstTable] at zombie
      split_ifs at zombie
    all_goals simp [World.init]
  forking := by
    refine ⟨fun i busy => ?_, fun i c inFork => ?_, fun i j c inFork => ?_, fun i c inFork => ?_⟩
    · exact absurd rfl busy
    all_goals cases inFork
  rooted := by
    refine ⟨rfl, rfl, fun i => ?_, fun i ne isBorn => ?_, fun i j _ chan => ?_⟩
    · rintro ⟨⟩
    · simp only [World.init, firstTable] at isBorn
      split_ifs at isBorn with zero
      · exact absurd (Fin.ext zero) ne
      · cases isBorn
    · cases chan

/-! ## Every run -/

def Steps (w w' : World) : Prop := ∃ a, step w a = some w'

/-- The actions in order, each of which has to be possible. -/
def runs (w : World) (actions : List Action) : Option World := actions.foldlM step w

/-- Forks are counted upwards. -/
theorem forks_le_of_steps (steps : Steps w w') : w.forks ≤ w'.forks := by
  rcases steps with ⟨a, stepped⟩
  cases a <;> simp only [step] at stepped
  case allocproc i =>
    split_ifs at stepped
    cases stepped
    rw [World.allocproc]
    split
    · exact Nat.le_succ _
    · exact le_rfl
  case wait i =>
    split_ifs at stepped
    cases stepped
    rw [World.wait]
    split <;> exact le_rfl
  case wakeup | kill =>
    cases stepped
    exact le_rfl
  case discard | setParent | fork =>
    split at stepped
    · split_ifs at stepped
      cases stepped
      exact le_rfl
    · cases stepped
  case exit =>
    split_ifs at stepped
    cases stepped
    exact le_rfl
  case sleep | yield | schedule =>
    split_ifs at stepped
    cases stepped
    exact le_rfl

theorem inv_of_run (run : ReflTransGen Steps World.init w) (few : w.forks < 2 ^ 31) : Inv w := by
  induction run with
  | refl => exact Inv.init
  | tail run steps ih =>
      have before := ih ((forks_le_of_steps steps).trans_lt few)
      rcases steps with ⟨a, stepped⟩
      exact before.step stepped few

/-- What holds whenever `ptable.lock` is free. -/
structure WellFormed (w : World) : Prop where
  parents : ∀ i, i ≠ w.initproc →
    (w.proc i).state ∈ [State.sleeping, .runnable, .running, .zombie] →
    ∃ q, (w.proc i).parent = some q ∧ (w.proc q).state ∈ [State.sleeping, .runnable, .running]
  pids : ∀ i j, i ≠ j → (w.proc i).state ≠ .unused → (w.proc j).state ≠ .unused →
    (w.proc i).pid ≠ (w.proc j).pid
  notLost : ∀ i j, (w.proc i).state = .sleeping → (w.proc i).chan = some (.proc i) →
    (w.proc j).parent = some i → (w.proc j).state ≠ .zombie
  reapedOnce : (w.reaps.map Reap.pid).Nodup
  reapedExited : ∀ r ∈ w.reaps, r.pid ∈ w.exited
  reapedByParent : ∀ r ∈ w.reaps, r.parent = some r.caller

/-- After any interleaving of the calls, as long as `nextpid` has not wrapped, every slot of the
process table is in a state that the rest of the kernel can rely on. -/
theorem wellFormed_of_run (w : World) (run : ReflTransGen Steps World.init w)
    (few : w.forks < 2 ^ 31) : WellFormed w := by
  have inv := inv_of_run run few
  refine ⟨fun i notInit isBorn => ?_, inv.named.distinct, inv.rooted.notLost, inv.named.once,
    inv.named.exited, inv.named.toParent⟩
  have bornNow : born (w.proc i).state := by
    revert isBorn
    cases (w.proc i).state <;> simp [born]
  rcases inv.rooted.parents i notInit bornNow with ⟨q, parent, alive⟩
  refine ⟨q, parent, ?_⟩
  revert alive
  cases (w.proc q).state <;> simp [State.alive]

/-- The first child of the first process has exited and has been waited for. -/
theorem wellFormed_of_run_reaped : ∃ w, ReflTransGen Steps World.init w ∧ w.forks < 2 ^ 31 ∧
    w.reaps.map Reap.pid = [2] ∧ WellFormed w := by
  let actions : List Action := [.schedule 0, .allocproc 0, .setParent 0, .fork 0, .wait 0,
    .schedule 1, .exit 1, .schedule 0, .wait 0]
  have done : (runs World.init actions).isSome ∧
      ((runs World.init actions).map fun w => (w.forks, w.reaps.map Reap.pid)) = some (1, [2]) := by
    decide +kernel
  rcases Option.isSome_iff_exists.mp done.1 with ⟨w, is⟩
  have final := done.2
  rw [is] at final
  have counts : w.forks = 1 ∧ w.reaps.map Reap.pid = [2] := by
    simpa using final
  have few : w.forks < 2 ^ 31 := by
    rw [counts.1]
    decide
  have run : ReflTransGen Steps _ w := Runs.run_of_foldlM actions is
  exact ⟨w, run, few, counts.2, wellFormed_of_run w run few⟩

end Xv6.Sched.Tree
