import Xv6.Sync.Spinlock

/-!
# Locks keep others out

A spin lock is held by at most one CPU, and while it is held its CPU takes no interrupts.
`ncli` counts the calls of `pushcli` that are still open, one for each lock and up to two in the
midst of a function, and `intena` is what the interrupt flag was before the first of them. A
context switch passes `ptable.lock` on to another thread, together with its one call.
-/

namespace Xv6.Sync

open Relation

variable {L : Type} {n : ℕ} {ptable l : L} {c : Fin n}

/-! ## One piece of code -/

namespace Pc

/-- The calls of `pushcli` without their `popcli`, but for one for each lock in `held`. -/
def pushes : Pc L → ℕ
  | .test _ | .spin _ | .checking _ _ | .pop => 1
  | .testing _ _ => 2
  | _ => 0

/-- The lock that is locked without having a `cpu`. -/
def unmarked : Pc L → Option L
  | .enter l | .unlock l => some l
  | _ => none

/-- `acquire` has not read the interrupt flag. -/
def entering : Pc L → Bool
  | .push _ => true
  | _ => false

def inSwtch : Pc L → Bool
  | .switched _ => true
  | _ => false

/-- What is known in the midst of a function. -/
def Fits (ptable : L) (held : List L) (base : Option Bool) : Pc L → Prop
  | .rest | .pop => True
  | .push l | .test l | .testing l _ | .spin l => l ∉ held
  | .cli l eflags => l ∉ held ∧ (held = [] → base = some eflags)
  | .enter l | .check l | .clear l | .unlock l => l ∈ held
  | .checking l locked => l ∈ held ∧ locked = true
  | .switched intena => held = [ptable] ∧ ∀ b, base = some b → intena = some b

theorem Fits.mem_of_unmarked {held : List L} {base : Option Bool} {pc : Pc L}
    (fits : pc.Fits ptable held base) (unmarked : pc.unmarked = some l) : l ∈ held := by
  cases pc <;> cases unmarked <;> exact fits

end Pc

namespace Frame

def depth (f : Frame L) : ℕ := f.held.length + f.pc.pushes

theorem depth_goto {f : Frame L} {pc : Pc L} {k : ℕ} (pushes : pc.pushes = f.pc.pushes + k) :
    ({ f with pc := pc } : Frame L).depth = f.depth + k := by
  rw [depth, depth, pushes, Nat.add_assoc]

structure Ok (ptable : L) (f : Frame L) : Prop where
  nodup : f.held.Nodup
  fits : f.pc.Fits ptable f.held f.base

/-- Code that an interrupt has found. -/
structure Interrupted (ptable : L) (f : Frame L) : Prop extends f.Ok ptable where
  depth : f.depth = 0
  entering : f.pc.entering = true → f.base = some true
  running : f.pc.inSwtch = false

/-- A thread that is interrupted holds nothing. -/
theorem Interrupted.held_eq_nil {f : Frame L} (interrupted : f.Interrupted ptable) :
    f.held = [] ∧ f.pc.unmarked = none := by
  have empty : f.held = [] := List.length_eq_zero_iff.mp
    (Nat.add_eq_zero_iff.mp interrupted.depth).1
  refine ⟨empty, ?_⟩
  cases mark : f.pc.unmarked with
  | none => rfl
  | some l =>
      have mem := interrupted.fits.mem_of_unmarked mark
      rw [empty] at mem
      exact absurd mem List.not_mem_nil

end Frame

namespace Cpu

variable {k : Cpu} {f g : Frame L}

/-- The interrupt state of a CPU while it runs a piece of code. -/
structure Runs (k : Cpu) (f : Frame L) : Prop where
  ncli : k.ncli = f.depth
  entering : f.pc.entering = true → f.held = [] → f.base = some k.iflag
  disabled : f.depth ≠ 0 → k.iflag = false
  saved : f.depth ≠ 0 → ∀ b, f.base = some b → k.intena = b

theorem Runs.keep (runs : k.Runs f) (depth : g.depth = f.depth) (base : g.base = f.base)
    (entered : g.pc.entering = false) : k.Runs g := by
  refine ⟨?_, fun entering => Bool.noConfusion (entered.symm.trans entering), ?_, ?_⟩
  · rw [depth]
    exact runs.ncli
  · rw [depth]
    exact runs.disabled
  · rw [depth, base]
    exact runs.saved

/-- `pushcli` of a thread counts one level more. -/
theorem Runs.cli {eflags : Bool} (runs : k.Runs f) (depth : g.depth = f.depth + 1)
    (base : g.base = f.base) (entered : g.pc.entering = false)
    (read : f.depth = 0 → f.base = some eflags) : (k.cli eflags).Runs g := by
  refine ⟨?_, fun entering => Bool.noConfusion (entered.symm.trans entering), fun _ =>
    rfl, fun _ b some => ?_⟩
  · rw [Cpu.cli, runs.ncli, depth]
    rfl
  · rw [base] at some
    rw [Cpu.cli]
    by_cases zero : f.depth = 0
    · rw [if_pos (by rw [runs.ncli, zero]; rfl)]
      exact Option.some.inj ((read zero).symm.trans some)
    · rw [if_neg (by rw [runs.ncli]; omega)]
      exact runs.saved zero b some

theorem Runs.pushcli (runs : k.Runs f) (depth : g.depth = f.depth + 1) (base : g.base = f.base)
    (entered : g.pc.entering = false) (some : f.depth ≠ 0) : k.pushcli.Runs g :=
  runs.cli depth base entered fun zero => absurd zero some

/-- `popcli` counts one level less, and at the last one the interrupts are as they were. -/
theorem Runs.popcli (runs : k.Runs f) (depth : f.depth = g.depth + 1) (base : g.base = f.base)
    (entered : g.pc.entering = false) :
    ∃ k', k.popcli = .ok k' ∧ k'.Runs g ∧ (g.depth = 0 → k'.iflag = k.intena) := by
  have off := runs.disabled (by omega)
  have ncli : k.ncli - 1 = g.depth := by
    rw [runs.ncli, depth]
    omega
  refine ⟨{ k with ncli := k.ncli - 1, iflag := k.ncli - 1 = 0 ∧ k.intena }, ?_, ?_, fun zero => ?_⟩
  · rw [Cpu.popcli, if_neg (by rw [off]; decide), if_neg (by omega)]
  · refine ⟨ncli, fun entering => Bool.noConfusion (entered.symm.trans entering), fun some =>
      ?_, fun _ b some => ?_⟩
    · simp [ncli, some]
    · rw [base] at some
      exact runs.saved (by omega) b some
  · simp [ncli, zero]

end Cpu

/-! ## The locks -/

section

variable [DecidableEq L] {lock : L → Lock n} {top : Fin n → Frame L} {f : Frame L}

/-- The locks, where `top c` is the code on CPU `c`. -/
structure Locks (lock : L → Lock n) (top : Fin n → Frame L) : Prop where
  held : ∀ c l, l ∈ (top c).held →
    lock l = ⟨true, if (top c).pc.unmarked = some l then none else some c⟩
  free : ∀ l, (∀ c, l ∉ (top c).held) → lock l = ⟨false, none⟩
  alone : ∀ c c' l, l ∈ (top c).held → l ∈ (top c').held → c = c'

namespace Locks

/-- Code moves on with the locks that it has. -/
theorem keep (locks : Locks lock top) (held : f.held = (top c).held)
    (unmarked : f.pc.unmarked = (top c).pc.unmarked) :
    Locks lock (Function.update top c f) := by
  have same : ∀ c', (Function.update top c f c').held = (top c').held ∧
      (Function.update top c f c').pc.unmarked = (top c').pc.unmarked := by
    intro c'
    by_cases here : c' = c
    · subst here
      rw [Function.update_self]
      exact ⟨held, unmarked⟩
    · rw [Function.update_of_ne here]
      exact ⟨rfl, rfl⟩
  refine ⟨fun c' l mem => ?_, fun l nobody => ?_, fun c₁ c₂ l mem₁ mem₂ => ?_⟩
  · rw [(same c').2]
    exact locks.held c' l ((same c').1 ▸ mem)
  · exact locks.free l fun c' mem => nobody c' ((same c').1 ▸ mem)
  · exact locks.alone c₁ c₂ l ((same c₁).1 ▸ mem₁) ((same c₂).1 ▸ mem₂)

/-- Code does something to a lock that no other CPU has. -/
theorem change {k : Lock n} (locks : Locks lock top)
    (others : ∀ l', l' ≠ l → (l' ∈ f.held ↔ l' ∈ (top c).held))
    (before : ∀ l', (top c).pc.unmarked = some l' → l' = l)
    (after : ∀ l', f.pc.unmarked = some l' → l' = l) (alone : ∀ c', l ∈ (top c').held → c' = c)
    (held : l ∈ f.held → k = ⟨true, if f.pc.unmarked = some l then none else some c⟩)
    (free : l ∉ f.held → k = ⟨false, none⟩) :
    Locks (Function.update lock l k) (Function.update top c f) := by
  refine ⟨fun c' l' mem => ?_, fun l' nobody => ?_, fun c₁ c₂ l' mem₁ mem₂ => ?_⟩
  · by_cases here : c' = c
    · subst here
      rw [Function.update_self] at mem ⊢
      by_cases this : l' = l
      · subst this
        rw [Function.update_self]
        exact held mem
      · rw [Function.update_of_ne this, locks.held c' l' ((others l' this).mp mem),
          if_neg fun mark => this (before l' mark), if_neg fun mark => this (after l' mark)]
    · rw [Function.update_of_ne here] at mem ⊢
      have other : l' ≠ l := fun this => here (alone c' (this ▸ mem))
      rw [Function.update_of_ne other]
      exact locks.held c' l' mem
  · by_cases this : l' = l
    · subst this
      rw [Function.update_self]
      have mine := nobody c
      rw [Function.update_self] at mine
      exact free mine
    · rw [Function.update_of_ne this]
      refine locks.free l' fun c' mem => nobody c' ?_
      by_cases here : c' = c
      · subst here
        rw [Function.update_self]
        exact (others l' this).mpr mem
      · rwa [Function.update_of_ne here]
  · have was : ∀ c', l' ∈ (Function.update top c f c').held → c' ≠ c → l' ∈ (top c').held := by
      intro c' mem here
      rwa [Function.update_of_ne here] at mem
    have mine : l' ∈ (Function.update top c f c).held → l' = l ∨ l' ∈ (top c).held := by
      intro mem
      rw [Function.update_self] at mem
      by_cases this : l' = l
      · exact .inl this
      · exact .inr ((others l' this).mp mem)
    by_cases here₁ : c₁ = c <;> by_cases here₂ : c₂ = c
    · rw [here₁, here₂]
    · subst here₁
      rcases mine mem₁ with rfl | mem₁
      · exact (alone c₂ (was c₂ mem₂ here₂)).symm
      · exact locks.alone _ _ l' mem₁ (was c₂ mem₂ here₂)
    · subst here₂
      rcases mine mem₂ with rfl | mem₂
      · exact alone c₁ (was c₁ mem₁ here₁)
      · exact locks.alone _ _ l' (was c₁ mem₁ here₁) mem₂
    · exact locks.alone c₁ c₂ l' (was c₁ mem₁ here₁) (was c₂ mem₂ here₂)

end Locks

end

/-! ## The invariant -/

section

variable [DecidableEq L] {w w' : World L n}

namespace World

structure Inv (ptable : L) (w : World L n) : Prop where
  apart : Function.Injective w.running
  running : ∀ c, (w.top c).pc.inSwtch = false
  waiting : ∀ t, (∀ c, w.running c ≠ t) → (w.thread t).top.pc.inSwtch = true
  ok : ∀ t, (w.thread t).top.Ok ptable
  below : ∀ t, ∀ f ∈ (w.thread t).below, f.Interrupted ptable
  cpu : ∀ c, (w.cpu c).Runs (w.top c)
  locks : Locks w.lock w.top

theorem Inv.top_eq {t : Thread L} (inv : w.Inv ptable) (running : w'.running = w.running)
    (thread : w'.thread = Function.update w.thread (w.running c) t) :
    w'.top = Function.update w.top c t.top := by
  funext c'
  by_cases same : c' = c
  · rw [same, World.top, running, thread, Function.update_self, Function.update_self]
  · rw [World.top, running, thread, Function.update_of_ne (inv.apart.ne same),
      Function.update_of_ne same, World.top]

/-- The thread on CPU `c` goes on. -/
theorem Inv.go {t : Thread L} (inv : w.Inv ptable) (running : w'.running = w.running)
    (thread : w'.thread = Function.update w.thread (w.running c) t)
    (others : ∀ c', c' ≠ c → w'.cpu c' = w.cpu c') (awake : t.top.pc.inSwtch = false)
    (ok : t.top.Ok ptable) (below : ∀ f ∈ t.below, f.Interrupted ptable)
    (cpu : (w'.cpu c).Runs t.top) (locks : Locks w'.lock (Function.update w.top c t.top)) :
    w'.Inv ptable := by
  have top := inv.top_eq running thread
  have here : w'.top c = t.top := by rw [top, Function.update_self]
  have there : ∀ c', c' ≠ c → w'.top c' = w.top c' := by
    intro c' other
    rw [top, Function.update_of_ne other]
  have kept : ∀ s, s ≠ w.running c → w'.thread s = w.thread s := by
    intro s other
    rw [thread, Function.update_of_ne other]
  have mine : w'.thread (w.running c) = t := by rw [thread, Function.update_self]
  refine ⟨running ▸ inv.apart, fun c' => ?_, fun s asleep => ?_, fun s => ?_, fun s => ?_, fun c' =>
    ?_, top ▸ locks⟩
  · by_cases same : c' = c
    · rwa [same, here]
    · rw [there c' same]
      exact inv.running c'
  · rw [running] at asleep
    rw [kept s (asleep c).symm]
    exact inv.waiting s asleep
  · by_cases same : s = w.running c
    · rwa [same, mine]
    · rw [kept s same]
      exact inv.ok s
  · by_cases same : s = w.running c
    · rwa [same, mine]
    · rw [kept s same]
      exact inv.below s
  · by_cases same : c' = c
    · subst same
      rwa [here]
    · rw [there c' same, others c' same]
      exact inv.cpu c'

/-- A step between two accesses to a lock. -/
theorem Inv.next {k : Cpu} {pc : Pc L} (inv : w.Inv ptable) (awake : pc.inSwtch = false)
    (fits : pc.Fits ptable (w.top c).held (w.top c).base)
    (unmarked : pc.unmarked = (w.top c).pc.unmarked) (cpu : k.Runs { w.top c with pc := pc }) :
    ((w.setCpu c k).goto c pc).Inv ptable := by
  refine inv.go rfl rfl (fun c' other => Function.update_of_ne other _ _) awake
    ⟨(inv.ok _).nodup, fits⟩ (inv.below _) ?_ ?_
  · rwa [show ((w.setCpu c k).goto c pc).cpu c = k from Function.update_self _ _ _]
  · exact inv.locks.keep rfl unmarked

theorem Inv.goto {pc : Pc L} (inv : w.Inv ptable) (awake : pc.inSwtch = false)
    (fits : pc.Fits ptable (w.top c).held (w.top c).base)
    (unmarked : pc.unmarked = (w.top c).pc.unmarked) (pushes : pc.pushes = (w.top c).pc.pushes)
    (entered : pc.entering = false) : (w.goto c pc).Inv ptable := by
  refine inv.go rfl rfl (fun _ _ => rfl) awake ⟨(inv.ok _).nodup, fits⟩ (inv.below _) ?_ ?_
  · exact (inv.cpu c).keep (Frame.depth_goto (k := 0) pushes) rfl entered
  · exact inv.locks.keep rfl unmarked

/-- An access to a lock. -/
theorem Inv.access {k : Lock n} {f : Frame L} (inv : w.Inv ptable) (awake : f.pc.inSwtch = false)
    (ok : f.Ok ptable) (depth : f.depth = (w.top c).depth) (base : f.base = (w.top c).base)
    (entered : f.pc.entering = false)
    (locks : Locks (Function.update w.lock l k) (Function.update w.top c f)) :
    ((w.setLock l k).setTop c f).Inv ptable :=
  inv.go rfl rfl (fun _ _ => rfl) awake ok (inv.below _) ((inv.cpu c).keep depth base entered) locks

/-- A change of `lk->cpu` by the CPU that has the lock. -/
theorem Inv.mark {k : Lock n} {pc : Pc L} (inv : w.Inv ptable) (mem : l ∈ (w.top c).held)
    (awake : pc.inSwtch = false) (fits : pc.Fits ptable (w.top c).held (w.top c).base)
    (before : ∀ l', (w.top c).pc.unmarked = some l' → l' = l)
    (after : ∀ l', pc.unmarked = some l' → l' = l) (pushes : pc.pushes = (w.top c).pc.pushes)
    (entered : pc.entering = false)
    (lock : k = ⟨true, if pc.unmarked = some l then none else some c⟩) :
    ((w.setLock l k).goto c pc).Inv ptable :=
  inv.access awake ⟨(inv.ok _).nodup, fits⟩ (Frame.depth_goto (k := 0) pushes) rfl entered
    (inv.locks.change (fun _ _ => Iff.rfl) before after
      (fun c' mem' => inv.locks.alone c' c l mem' mem) (fun _ => lock)
      fun outside => absurd mem outside)

/-- `holding`, whatever other CPUs have done between its two reads. -/
theorem Inv.not_holds (inv : w.Inv ptable) (mem : l ∉ (w.top c).held) (locked : Bool) :
    w.holds c l locked = false := by
  rw [World.holds, Bool.and_eq_false_iff]
  right
  rw [beq_eq_false_iff_ne]
  by_cases somebody : ∃ c', l ∈ (w.top c').held
  · rcases somebody with ⟨c', mem'⟩
    rw [inv.locks.held c' l mem']
    split
    · exact Option.some_ne_none c ∘ Eq.symm
    · intro same
      exact mem (Option.some.inj same ▸ mem')
  · rw [inv.locks.free l fun c' mem' => somebody ⟨c', mem'⟩]
    exact Option.some_ne_none c ∘ Eq.symm

theorem Inv.holds (inv : w.Inv ptable) (mem : l ∈ (w.top c).held)
    (marked : (w.top c).pc.unmarked = none) :
    w.holds c l true = true := by
  rw [World.holds, inv.locks.held c l mem, marked]
  simp

/-! ## One step -/

/-- A thread begins to acquire a lock. -/
theorem Inv.acquire (inv : w.Inv ptable) (outside : l ∉ (w.top c).held)
    (pc : (w.top c).pc = .rest) :
    (w.acquire c l).Inv ptable := by
  refine inv.go rfl rfl (fun _ _ => rfl) rfl ⟨(inv.ok _).nodup, outside⟩ (inv.below _) ?_
    (inv.locks.keep rfl (by rw [pc]; rfl))
  have depth : (w.top c).depth = (w.top c).held.length := by
    rw [Frame.depth, pc]
    rfl
  refine ⟨?_, fun _ empty => if_pos empty, fun some => ?_, fun some b found => ?_⟩
  · exact (inv.cpu c).ncli.trans (congrArg _ depth)
  · exact (inv.cpu c).disabled (depth.trans_ne some)
  · have held : (w.top c).held ≠ [] := fun empty => some (congrArg List.length empty)
    rw [if_neg held] at found
    exact (inv.cpu c).saved (depth.trans_ne some) b found

/-- The thread of a CPU comes to its next instruction, without a panic. -/
theorem Inv.advance {r : Except Panic (World L n)} (inv : w.Inv ptable)
    (stepped : w.advance c = some r) : ∃ w', r = .ok w' ∧ w'.Inv ptable := by
  have runs := inv.cpu c
  have nodup : (w.top c).held.Nodup := (inv.ok (w.running c)).nodup
  have fits : (w.top c).pc.Fits ptable (w.top c).held (w.top c).base := (inv.ok (w.running c)).fits
  rw [World.advance] at stepped
  cases pc : (w.top c).pc with
  | rest =>
      rw [pc] at stepped
      cases stepped
  | switched intena =>
      rw [pc] at stepped
      cases stepped
  | push l =>
      rw [pc] at stepped fits
      cases stepped
      exact ⟨_, rfl, inv.goto rfl ⟨fits, runs.entering (by rw [pc]; rfl)⟩ (by rw [pc]; rfl)
        (by rw [pc]; rfl)
        rfl⟩
  | cli l eflags =>
      rw [pc] at stepped fits
      cases stepped
      refine ⟨_, rfl, inv.next rfl fits.1 (by rw [pc]; rfl)
        (runs.cli (Frame.depth_goto (by rw [pc]; rfl)) rfl rfl fun zero => ?_)⟩
      rw [Frame.depth, Nat.add_eq_zero_iff] at zero
      exact fits.2 (List.length_eq_zero_iff.mp zero.1)
  | test l =>
      rw [pc] at stepped fits
      cases stepped
      refine ⟨_, rfl, inv.next rfl fits (by rw [pc]; rfl)
        (runs.pushcli (Frame.depth_goto (by rw [pc]; rfl)) rfl rfl ?_)⟩
      rw [Frame.depth, pc]
      exact Nat.succ_ne_zero _
  | testing l locked =>
      rw [pc] at stepped fits
      rcases runs.popcli (g := { w.top c with pc := .spin l })
        (by rw [Frame.depth, Frame.depth, pc]; rfl)
        rfl rfl with ⟨k, popped, runs', -⟩
      simp only [popped, inv.not_holds fits] at stepped
      cases stepped
      exact ⟨_, rfl, inv.next rfl fits (by rw [pc]; rfl) runs'⟩
  | spin l =>
      rw [pc] at stepped fits
      dsimp only at stepped
      split at stepped
      case isTrue =>
        cases stepped
        exact ⟨w, rfl, inv⟩
      case isFalse unlocked =>
      cases stepped
      have nobody : ∀ c', l ∉ (w.top c').held := by
        intro c' mem
        rw [inv.locks.held c' l mem] at unlocked
        exact unlocked rfl
      refine ⟨_, rfl, inv.access rfl ⟨List.nodup_cons.mpr ⟨fits, nodup⟩, List.mem_cons_self⟩ ?_ rfl
        rfl (inv.locks.change ?_ ?_ ?_ ?_ ?_ ?_)⟩
      · rw [Frame.depth, Frame.depth, pc]
        rfl
      · exact fun l' other =>
          ⟨fun mem => (List.mem_cons.mp mem).resolve_left other, List.mem_cons_of_mem l⟩
      · rw [pc]
        exact fun l' mark => absurd mark.symm (Option.some_ne_none l')
      · exact fun l' mark => (Option.some.inj mark).symm
      · exact fun c' mem => absurd mem (nobody c')
      · intro _
        rw [inv.locks.free l nobody]
        simp only [Pc.unmarked, if_true]
      · exact fun outside => absurd List.mem_cons_self outside
  | enter l =>
      rw [pc] at stepped fits
      cases stepped
      refine ⟨_, rfl, inv.mark fits rfl trivial ?_
        (fun l' mark => absurd mark.symm (Option.some_ne_none l')) (by rw [pc]; rfl)
        rfl ?_⟩
      · rw [pc]
        exact fun l' mark => (Option.some.inj mark).symm
      · rw [inv.locks.held c l fits]
        rfl
  | check l =>
      rw [pc] at stepped fits
      cases stepped
      refine ⟨_, rfl, inv.next rfl ⟨fits, ?_⟩ (by rw [pc]; rfl)
        (runs.pushcli (Frame.depth_goto (by rw [pc]; rfl)) rfl rfl ?_)⟩
      · rw [inv.locks.held c l fits]
      · have some := List.length_pos_of_mem fits
        rw [Frame.depth]
        omega
  | checking l locked =>
      rw [pc] at stepped fits
      rcases runs.popcli (g := { w.top c with pc := .clear l })
        (by rw [Frame.depth, Frame.depth, pc]; rfl) rfl rfl
        with ⟨k, popped, runs', -⟩
      rw [fits.2] at stepped
      simp only [popped, inv.holds fits.1 (by rw [pc]; rfl)] at stepped
      cases stepped
      exact ⟨_, rfl, inv.next rfl fits.1 (by rw [pc]; rfl) runs'⟩
  | clear l =>
      rw [pc] at stepped fits
      cases stepped
      refine ⟨_, rfl, inv.mark fits rfl fits ?_ (fun l' mark => (Option.some.inj mark).symm)
        (by rw [pc]; rfl) rfl ?_⟩
      · rw [pc]
        exact fun l' mark => absurd mark.symm (Option.some_ne_none l')
      · rw [inv.locks.held c l fits]
        simp only [Pc.unmarked, if_true]
  | unlock l =>
      rw [pc] at stepped fits
      cases stepped
      refine ⟨_, rfl, inv.access rfl ⟨nodup.erase l, trivial⟩ ?_ rfl rfl
        (inv.locks.change ?_ ?_ ?_ (fun c' mem => inv.locks.alone c' c l mem fits) ?_ ?_)⟩
      · rw [Frame.depth, Frame.depth, pc, List.length_erase_of_mem fits]
        have some := List.length_pos_of_mem fits
        simp only [Pc.pushes]
        omega
      · exact fun l' other => List.mem_erase_of_ne other
      · rw [pc]
        exact fun l' mark => (Option.some.inj mark).symm
      · exact fun l' mark => absurd mark.symm (Option.some_ne_none l')
      · exact fun mem => absurd mem nodup.not_mem_erase
      · intro _
        rw [inv.locks.held c l fits, pc, Pc.unmarked, if_pos rfl]
  | pop =>
      rw [pc] at stepped
      rcases runs.popcli (g := { w.top c with pc := .rest })
        (by rw [Frame.depth, Frame.depth, pc]; rfl)
        rfl rfl with ⟨k, popped, runs', -⟩
      simp only [popped] at stepped
      cases stepped
      exact ⟨_, rfl, inv.next rfl trivial (by rw [pc]; rfl) runs'⟩

/-- The end of the `release` of the last lock. -/
theorem Inv.advance_pop {b : Bool} (inv : w.Inv ptable) (pc : (w.top c).pc = .pop)
    (empty : (w.top c).held = []) (base : (w.top c).base = some b)
    (stepped : w.advance c = some (.ok w')) : (w'.cpu c).iflag = b := by
  have depth : (w.top c).depth = 1 := by
    rw [Frame.depth, empty, pc]
    rfl
  rcases (inv.cpu c).popcli (g := { w.top c with pc := .rest })
    (by rw [depth, Frame.depth, empty]; rfl) rfl rfl
    with ⟨k, popped, -, restored⟩
  rw [World.advance, pc] at stepped
  simp only [popped] at stepped
  cases stepped
  have here : (((w.setCpu c k).goto c .rest).cpu c).iflag = k.iflag :=
    congrArg Cpu.iflag (Function.update_self _ _ _)
  rw [here, restored (by rw [Frame.depth, empty]; rfl)]
  exact (inv.cpu c).saved (by omega) b base

end World

/-! ## Interrupts and context switches -/

namespace World

/-- Interrupts are on only where a thread can be interrupted. -/
theorem Inv.interrupted (inv : w.Inv ptable) (enabled : (w.cpu c).iflag = true) :
    (w.top c).Interrupted ptable := by
  have runs := inv.cpu c
  have depth : (w.top c).depth = 0 := by
    by_contra some
    rw [runs.disabled some] at enabled
    cases enabled
  refine ⟨inv.ok _, depth, fun entering => ?_, inv.running c⟩
  rw [← enabled]
  exact runs.entering entering (List.length_eq_zero_iff.mp (Nat.add_eq_zero_iff.mp depth).1)

/-- The handler begins without locks, in front of the code it has interrupted. -/
theorem Inv.interrupt (inv : w.Inv ptable) (enabled : (w.cpu c).iflag = true) :
    ((w.setCpu c { w.cpu c with iflag := false }).setThread c
      ⟨⟨.rest, [], none⟩, w.top c :: (w.thread (w.running c)).below⟩).Inv ptable := by
  have found := inv.interrupted enabled
  rcases found.held_eq_nil with ⟨empty, unmarked⟩
  refine inv.go rfl rfl (fun c' other => Function.update_of_ne other _ _) rfl
    ⟨List.nodup_nil, trivial⟩ ?_ ?_ (inv.locks.keep empty.symm unmarked.symm)
  · exact List.forall_mem_cons.mpr ⟨found, inv.below _⟩
  · have ncli := (inv.cpu c).ncli
    rw [found.depth] at ncli
    rw [show ((w.setCpu c { w.cpu c with iflag := false }).setThread c _).cpu c =
      { w.cpu c with iflag := false } from Function.update_self _ _ _]
    exact ⟨ncli, fun entering => Bool.noConfusion entering, fun some => absurd rfl some, fun some =>
      absurd rfl some⟩

/-- The handler returns to the thread that was interrupted. -/
theorem Inv.iret {f : Frame L} {below : List (Frame L)} (inv : w.Inv ptable)
    (empty : (w.top c).held = []) (pc : (w.top c).pc = .rest)
    (stack : (w.thread (w.running c)).below = f :: below) :
    ((w.setCpu c { w.cpu c with iflag := true }).setThread c ⟨f, below⟩).Inv ptable := by
  have found := inv.below (w.running c)
  rw [stack, List.forall_mem_cons] at found
  rcases found.1.held_eq_nil with ⟨empty', unmarked⟩
  refine inv.go rfl rfl (fun c' other => Function.update_of_ne other _ _) found.1.running
    found.1.toOk found.2 ?_ (inv.locks.keep (empty'.trans empty.symm) (by rw [unmarked, pc]; rfl))
  have ncli := (inv.cpu c).ncli
  rw [Frame.depth, empty, pc] at ncli
  rw [show ((w.setCpu c { w.cpu c with iflag := true }).setThread c ⟨f, below⟩).cpu c =
    { w.cpu c with iflag := true } from Function.update_self _ _ _]
  refine ⟨?_, fun entering _ => found.1.entering entering, fun some => absurd found.1.depth some,
    fun some => absurd found.1.depth some⟩
  rw [found.1.depth]
  exact ncli

/-- A thread without locks allows interrupts. -/
theorem Inv.sti (inv : w.Inv ptable) (empty : (w.top c).held = []) (pc : (w.top c).pc = .rest) :
    (w.setCpu c { w.cpu c with iflag := true }).Inv ptable := by
  have depth : (w.top c).depth = 0 := by
    rw [Frame.depth, empty, pc]
    rfl
  refine inv.go rfl (Function.update_eq_self _ _).symm
    (fun c' other => Function.update_of_ne other _ _) (inv.running c) (inv.ok _) (inv.below _) ?_
    (inv.locks.keep rfl rfl)
  rw [show (w.setCpu c { w.cpu c with iflag := true }).cpu c = { w.cpu c with iflag := true } from
    Function.update_self _ _ _]
  refine ⟨(inv.cpu c).ncli, fun entering => ?_, fun some => absurd depth some,
    fun some => absurd depth some⟩
  change (w.top c).pc.entering = true at entering
  rw [pc] at entering
  exact Bool.noConfusion entering

theorem Inv.setRunning {t : ℕ} {running : Bool} (inv : w.Inv ptable) :
    (w.setRunning t running).Inv ptable :=
  ⟨inv.apart, inv.running, inv.waiting, inv.ok, inv.below, inv.cpu, inv.locks⟩

theorem Inv.elsewhere {t : ℕ} (inv : w.Inv ptable) (away : (w.thread t).top.pc.inSwtch = true)
    (c : Fin n) :
    w.running c ≠ t := by
  rintro rfl
  have awake := inv.running c
  rw [World.top, away] at awake
  cases awake

/-- After a switch of threads the others are where they were. -/
theorem Inv.top_leave {t : ℕ} {old new : Thread L} (inv : w.Inv ptable)
    (running : w'.running = Function.update w.running c t)
    (thread : w'.thread = Function.update (Function.update w.thread (w.running c) old) t new)
    (away : (w.thread t).top.pc.inSwtch = true) : w'.top = Function.update w.top c new.top := by
  funext c'
  by_cases same : c' = c
  · rw [same, World.top, running, thread, Function.update_self, Function.update_self,
      Function.update_self]
  · rw [World.top, running, thread, Function.update_of_ne same,
      Function.update_of_ne (inv.elsewhere away c'),
      Function.update_of_ne (inv.apart.ne same), Function.update_of_ne same, World.top]

/-- CPU `c` leaves its thread for thread `t`. -/
theorem Inv.leave {t : ℕ} {k : Cpu} {old new : Frame L} (inv : w.Inv ptable)
    (running : w'.running = Function.update w.running c t)
    (cpu : w'.cpu = Function.update w.cpu c k) (lock : w'.lock = w.lock)
    (thread : w'.thread = Function.update
      (Function.update w.thread (w.running c) ⟨old, (w.thread (w.running c)).below⟩) t
      ⟨new, (w.thread t).below⟩) (away : (w.thread t).top.pc.inSwtch = true)
    (left : old.pc.inSwtch = true) (back : new.pc.inSwtch = false) (okOld : old.Ok ptable)
    (okNew : new.Ok ptable) (runs : k.Runs new) (held : new.held = (w.top c).held)
    (unmarked : new.pc.unmarked = (w.top c).pc.unmarked) : w'.Inv ptable := by
  have elsewhere := inv.elsewhere away
  have top := inv.top_leave running thread away
  have atNew : w'.thread t = ⟨new, (w.thread t).below⟩ := by rw [thread, Function.update_self]
  have atOld : w'.thread (w.running c) = ⟨old, (w.thread (w.running c)).below⟩ := by
    rw [thread, Function.update_of_ne (elsewhere c), Function.update_self]
  have kept : ∀ s, s ≠ t → s ≠ w.running c → w'.thread s = w.thread s := by
    intro s first second
    rw [thread, Function.update_of_ne first, Function.update_of_ne second]
  have here : w'.running c = t := by rw [running, Function.update_self]
  have there : ∀ c', c' ≠ c → w'.running c' = w.running c' := by
    intro c' other
    rw [running, Function.update_of_ne other]
  refine ⟨fun c₁ c₂ same => ?_, fun c' => ?_, fun s asleep => ?_, fun s => ?_, fun s =>
    ?_, fun c' => ?_, ?_⟩
  · by_cases here₁ : c₁ = c <;> by_cases here₂ : c₂ = c
    · rw [here₁, here₂]
    · rw [here₁, here, there c₂ here₂] at same
      exact absurd same.symm (elsewhere c₂)
    · rw [here₂, here, there c₁ here₁] at same
      exact absurd same (elsewhere c₁)
    · rw [there c₁ here₁, there c₂ here₂] at same
      exact inv.apart same
  · rw [top]
    by_cases same : c' = c
    · rwa [same, Function.update_self]
    · rw [Function.update_of_ne same]
      exact inv.running c'
  · have other : s ≠ t := here ▸ (asleep c).symm
    by_cases same : s = w.running c
    · rwa [same, atOld]
    · rw [kept s other same]
      refine inv.waiting s fun c' at_s => ?_
      by_cases mine : c' = c
      · exact same (mine ▸ at_s.symm)
      · exact asleep c' ((there c' mine).trans at_s)
  · by_cases first : s = t
    · rwa [first, atNew]
    · by_cases second : s = w.running c
      · rwa [second, atOld]
      · rw [kept s first second]
        exact inv.ok s
  · by_cases first : s = t
    · rw [first, atNew]
      exact inv.below t
    · by_cases second : s = w.running c
      · rw [second, atOld]
        exact inv.below _
      · rw [kept s first second]
        exact inv.below s
  · rw [cpu, top]
    by_cases same : c' = c
    · rwa [same, Function.update_self, Function.update_self]
    · rw [Function.update_of_ne same, Function.update_of_ne same]
      exact inv.cpu c'
  · rw [lock, top]
    exact inv.locks.keep held unmarked

omit [DecidableEq L] in
theorem resume_eq (w : World L n) (c : Fin n) (t : ℕ) (intena : Option Bool) :
    w.resume c t intena = { w with
      running := Function.update w.running c t
      cpu := Function.update w.cpu c { w.cpu c with intena := intena.getD (w.cpu c).intena }
      thread := Function.update w.thread t
        ⟨{ (w.thread t).top with pc := .rest }, (w.thread t).below⟩ } := by
  simp only [resume, goto, setTop, setThread, setCpu, top, Function.update_self]

/-- A thread that is in `swtch` goes on as it was, on whatever CPU, and so does the thread that
leaves when its turn comes. -/
theorem Inv.switch {t : ℕ} {f : Frame L} {saved intena : Option Bool} (inv : w.Inv ptable)
    (held : (w.top c).held = [ptable]) (pc : (w.top c).pc = .rest)
    (away : (w.thread t).top.pc = .switched intena) (leaves : f.pc = .switched saved)
    (keeps : f.held = (w.top c).held) (saves : ∀ b, f.base = some b → saved = some b) :
    ((w.setTop c f).resume c t intena).Inv ptable := by
  have depth : (w.top c).depth = 1 := by
    rw [Frame.depth, held, pc]
    rfl
  have fits := (inv.ok t).fits
  rw [away] at fits
  have other : t ≠ w.running c := by
    rintro rfl
    rw [show (w.thread (w.running c)).top.pc = .rest from pc] at away
    cases away
  have same : (w.setTop c f).thread t = w.thread t := Function.update_of_ne other _ _
  rw [resume_eq, same]
  refine inv.leave rfl rfl rfl rfl ?_ ?_ rfl ⟨?_, ?_⟩ ⟨(inv.ok t).nodup, trivial⟩ ?_ ?_ ?_
  · rw [away]
    rfl
  · rw [leaves]
    rfl
  · rw [keeps]
    exact (inv.ok _).nodup
  · rw [leaves]
    exact ⟨keeps.trans held, saves⟩
  · refine ⟨?_, fun entering => Bool.noConfusion entering, fun _ =>
      (inv.cpu c).disabled (by omega), fun _ b found => ?_⟩
    · rw [Frame.depth, fits.1]
      exact (inv.cpu c).ncli.trans (congrArg _ depth)
    · rw [fits.2 b found]
      rfl
  · exact fits.1.trans held.symm
  · rw [pc]

/-- `sched` finds what it tests for, and saves `intena`. -/
theorem Inv.sched (inv : w.Inv ptable) (held : (w.top c).held = [ptable])
    (stopped : w.isRunning (w.running c) = false) (pc : (w.top c).pc = .rest) :
    w.sched c ptable = .ok (w.goto c (.switched (some (w.cpu c).intena))) := by
  have depth : (w.top c).depth = 1 := by
    rw [Frame.depth, held, pc]
    rfl
  have mem : ptable ∈ (w.top c).held := held ▸ List.mem_singleton_self ptable
  have locked : (w.lock ptable).locked = true := by rw [inv.locks.held c ptable mem]
  have holds := inv.holds mem (by rw [pc]; rfl)
  have ncli : (w.cpu c).ncli = 1 := by rw [(inv.cpu c).ncli, depth]; rfl
  have off := (inv.cpu c).disabled (by omega)
  rw [World.sched, locked, holds, if_neg (by decide), if_neg (not_not.mpr ncli),
    if_neg (by rw [stopped]; decide), if_neg (by rw [off]; decide)]

end World

/-! ## Runs -/

/-- Code takes a lock that it does not have, and gives back one that it has. It has none when it
enables interrupts or returns from one. It switches to another thread with `ptable.lock` alone,
and a process has changed its state before. -/
def Careful (ptable : L) (w : World L n) (c : Fin n) : Event L → Prop
  | .acquire l => l ∉ (w.top c).held
  | .release l => l ∈ (w.top c).held
  | .sti | .iret => (w.top c).held = []
  | .sched _ => (w.top c).held = [ptable] ∧ w.isRunning (w.running c) = false
  | .scheduler _ => (w.top c).held = [ptable]
  | .advance | .interrupt | .setState => True

instance (e : Event L) : Decidable (Careful ptable w c e) :=
  match e with
  | .acquire l => inferInstanceAs (Decidable (l ∉ (w.top c).held))
  | .release l => inferInstanceAs (Decidable (l ∈ (w.top c).held))
  | .sti | .iret => inferInstanceAs (Decidable ((w.top c).held = []))
  | .sched _ =>
      inferInstanceAs (Decidable ((w.top c).held = [ptable] ∧ w.isRunning (w.running c) = false))
  | .scheduler _ => inferInstanceAs (Decidable ((w.top c).held = [ptable]))
  | .advance | .interrupt | .setState => inferInstanceAs (Decidable True)

/-- Every careful event keeps the invariant, and none panics. -/
theorem World.Inv.step {e : Event L} {r : Except Panic (World L n)} (inv : w.Inv ptable)
    (careful : Careful ptable w c e) (stepped : step ptable w c e = some r) :
    ∃ w', r = .ok w' ∧ w'.Inv ptable := by
  cases e with
  | acquire l =>
      simp only [Sync.step] at stepped
      split at stepped
      case h_2 => cases stepped
      case h_1 pc =>
        cases stepped
        exact ⟨_, rfl, inv.acquire careful pc⟩
  | release l =>
      simp only [Sync.step] at stepped
      split at stepped
      case h_2 => cases stepped
      case h_1 pc =>
        cases stepped
        exact ⟨_, rfl, inv.goto rfl careful (by rw [pc]; rfl) (by rw [pc]; rfl)
          rfl⟩
  | advance => exact inv.advance stepped
  | sti =>
      simp only [Sync.step] at stepped
      split at stepped
      case h_2 => cases stepped
      case h_1 pc =>
        cases stepped
        exact ⟨_, rfl, inv.sti careful pc⟩
  | interrupt =>
      simp only [Sync.step] at stepped
      split at stepped
      case isFalse => cases stepped
      case isTrue enabled =>
        cases stepped
        exact ⟨_, rfl, inv.interrupt enabled⟩
  | iret =>
      simp only [Sync.step] at stepped
      split at stepped
      case h_2 => cases stepped
      case h_1 f below pc stack =>
        cases stepped
        exact ⟨_, rfl, inv.iret careful pc stack⟩
  | setState =>
      simp only [Sync.step] at stepped
      split at stepped
      case h_2 => cases stepped
      case h_1 =>
        cases stepped
        exact ⟨_, rfl, inv.setRunning⟩
  | sched t =>
      simp only [Sync.step] at stepped
      split at stepped
      case h_2 => cases stepped
      case h_1 intena pc away =>
        rw [inv.sched careful.1 careful.2 pc] at stepped
        cases stepped
        -- `sched` keeps `intena` for the code that leaves, which is what its `acquire` has found.
        refine ⟨_, rfl, inv.switch careful.1 pc away rfl rfl fun b found => ?_⟩
        refine congrArg some ((inv.cpu c).saved ?_ b found)
        rw [Frame.depth, careful.1, List.length_singleton, Nat.add_comm]
        exact Nat.succ_ne_zero _
  | scheduler t =>
      simp only [Sync.step] at stepped
      split at stepped
      case h_2 => cases stepped
      case h_1 intena pc away =>
        cases stepped
        have running : (w.setRunning t true).Inv ptable := inv.setRunning
        refine ⟨_, rfl, running.switch careful pc away rfl rfl fun b found => ?_⟩
        cases found

/-- At first no lock is held. -/
theorem World.inv_init : (World.init ptable : World L n).Inv ptable := by
  have top : ∀ c, (World.init ptable : World L n).top c = ⟨.rest, [], none⟩ := by
    intro c
    simp only [World.top, World.init, if_pos c.isLt]
  refine ⟨Fin.val_injective, fun c => ?_, fun t asleep => ?_, fun t => ?_, fun t =>
    ?_, fun c => ?_, ?_⟩
  · rw [top]
    rfl
  · have late : ¬t < n := fun early => asleep ⟨t, early⟩ rfl
    simp only [World.init, if_neg late]
    rfl
  · simp only [World.init]
    split
    · exact ⟨List.nodup_nil, trivial⟩
    · exact ⟨List.nodup_singleton _, rfl, fun i some => by cases some⟩
  · simp only [World.init]
    split <;> exact List.forall_mem_nil _
  · rw [top]
    exact ⟨rfl, fun entering => Bool.noConfusion entering, fun some => absurd rfl some,
      fun some => absurd rfl some⟩
  · refine ⟨fun c l mem => ?_, fun _ _ => rfl, fun c _ l mem => ?_⟩
    · rw [top] at mem
      exact absurd mem List.not_mem_nil
    · rw [top] at mem
      exact absurd mem List.not_mem_nil

def Goes (ptable : L) (w w' : World L n) : Prop :=
  ∃ c e, Careful ptable w c e ∧ step ptable w c e = some (.ok w')

theorem World.Inv.run (inv : w.Inv ptable) (run : ReflTransGen (Goes ptable) w w') :
    w'.Inv ptable := by
  refine Runs.invariant_of_run (fun w₁ w₂ goes inv₁ => ?_) run inv
  rcases goes with ⟨c, e, careful, stepped⟩
  rcases inv₁.step careful stepped with ⟨w₃, same, inv₃⟩
  cases same
  exact inv₃

/-- However the CPUs, their interrupts and the context switches take turns, a lock is on one CPU
at a time, `holding` tells whether it is on this one, whatever happens between its two reads, and
no event that is possible panics. -/
theorem locks_exclude (run : ReflTransGen (Goes ptable) (World.init ptable) w) :
    (∀ l c c', l ∈ (w.top c).held → l ∈ (w.top c').held → c = c') ∧
      (∀ l, (w.lock l).locked = true ↔ ∃ c, l ∈ (w.top c).held) ∧
      (∀ l locked c, (w.top c).pc = .testing l locked ∨ (w.top c).pc = .checking l locked →
        (w.holds c l locked = true ↔ l ∈ (w.top c).held)) ∧
      ∀ c e r, Careful ptable w c e → step ptable w c e = some r → ∃ w', r = .ok w' := by
  have inv := World.inv_init.run run
  refine ⟨fun l c c' => inv.locks.alone c c' l, fun l => ⟨fun taken => ?_, ?_⟩,
    fun l locked c between => ?_,
    fun c e r careful stepped => ?_⟩
  · by_contra nobody
    rw [inv.locks.free l (not_exists.mp nobody)] at taken
    cases taken
  · rintro ⟨c, mem⟩
    rw [inv.locks.held c l mem]
  · have fits := (inv.ok (w.running c)).fits
    rcases between with pc | pc
    · rw [show (w.thread (w.running c)).top.pc = .testing l locked from pc] at fits
      rw [inv.not_holds fits]
      exact iff_of_false Bool.false_ne_true fits
    · rw [show (w.thread (w.running c)).top.pc = .checking l locked from pc] at fits
      rw [fits.2]
      exact iff_of_true (inv.holds fits.1 (by rw [pc]; rfl)) fits.1
  · rcases inv.step careful stepped with ⟨w', same, _⟩
    exact ⟨w', same⟩

/-- A CPU takes no interrupt while its code has a lock. When the code has given all of them back,
interrupts are enabled if the `acquire` of the first one found them enabled, whatever CPU that was
on, unless `scheduler` has switched in between. -/
theorem interrupts_restored (run : ReflTransGen (Goes ptable) (World.init ptable) w) (c : Fin n) :
    ((w.cpu c).iflag = true → (w.top c).held = []) ∧
      ((w.top c).pc = .rest → (w.cpu c).ncli = (w.top c).held.length) ∧
      (∀ b w', (w.top c).pc = .pop → (w.top c).held = [] → (w.top c).base = some b →
        step ptable w c .advance = some (.ok w') → (w'.cpu c).iflag = b) ∧
      ∀ b, (w.top c).pc = .rest → (w.top c).held ≠ [] → (w.top c).base = some b →
        (w.cpu c).intena = b := by
  have inv := World.inv_init.run run
  have depth : (w.top c).pc = .rest → (w.top c).depth = (w.top c).held.length := by
    intro pc
    rw [Frame.depth, pc]
    rfl
  refine ⟨fun enabled => (inv.interrupted enabled).held_eq_nil.1, fun pc => ?_,
    fun b w' pc empty base stepped =>
    inv.advance_pop pc empty base stepped, fun b pc some base => ?_⟩
  · rw [(inv.cpu c).ncli, depth pc]
  · refine (inv.cpu c).saved ?_ b base
    rw [depth pc]
    exact mt List.length_eq_zero_iff.mp some

/-- An event that does not panic. -/
def goes (ptable : L) (w : World L n) (e : Fin n × Event L) : Option (World L n) :=
  (step ptable w e.1 e.2).bind Except.toOption

omit [DecidableEq L] in
theorem toOption_eq_some {r : Except Panic (World L n)} (some : r.toOption = some w) :
    r = .ok w := by
  cases r with
  | error stop => cases some
  | ok w' =>
      cases some
      rfl

theorem step_of_goes {e : Fin n × Event L} (goes : goes ptable w e = some w') :
    step ptable w e.1 e.2 = some (.ok w') := by
  rcases Option.bind_eq_some_iff.mp goes with ⟨r, stepped, same⟩
  rw [stepped, toOption_eq_some same]

/-- What a list of events does, if the code keeps to the rules. -/
def follow (ptable : L) (w : World L n) (events : List (Fin n × Event L)) : Option (World L n) :=
  Runs.follow (fun w e => Careful ptable w e.1 e.2) (goes ptable) events w

theorem run_of_follow {events : List (Fin n × Event L)}
    (followed : follow ptable w events = some w') :
    ReflTransGen (Goes ptable) w w' := by
  refine ReflTransGen.mono (fun w₁ w₂ went => ?_) _ _ (Runs.run_of_follow followed)
  rcases went with ⟨e, careful, went⟩
  exact ⟨e.1, e.2, careful, step_of_goes went⟩

/-- A whole `acquire` without a spin, and a whole `release`. -/
def acquires (c : Fin n) (l : L) : List (Fin n × Event L) :=
  (c, .acquire l) :: List.replicate 6 (c, .advance)

def releases (c : Fin n) (l : L) : List (Fin n × Event L) :=
  (c, .release l) :: List.replicate 5 (c, .advance)

/-- The scheduler of CPU 0 takes `ptable.lock`, which is lock 0, and switches to a new process,
which is thread 2. -/
def firstSwitch : List (Fin 2 × Event ℕ) := (0, .sti) :: acquires 0 0 ++ [(0, .scheduler 2)]

/-- CPU 1 is between the two reads of `holding`. -/
theorem locks_exclude_firstSwitch : ∃ w : World ℕ 2, ReflTransGen (Goes 0) (World.init 0) w ∧
    (w.top 1).pc = .testing 0 true ∧ 0 ∈ (w.top 0).held ∧ 0 ∉ (w.top 1).held ∧
    w.holds 1 0 true = false := by
  cases followed : follow 0 (World.init 0)
    (firstSwitch ++ (1, .acquire 0) :: List.replicate 3 (1, .advance)) with
  | none => exact absurd followed (by decide +kernel)
  | some w =>
      have seen : (follow 0 (World.init 0)
          (firstSwitch ++ (1, .acquire 0) :: List.replicate 3 (1, .advance))).map
          (fun w => ((w.top 1).pc, (w.top 0).held)) = some (.testing 0 true, [0]) := by
        decide +kernel
      rw [followed] at seen
      have both := Option.some.inj seen
      have pc := congrArg Prod.fst both
      have held : (w.top 0).held = [0] := congrArg Prod.snd both
      have mem : 0 ∈ (w.top 0).held := held ▸ List.mem_singleton_self 0
      have run := run_of_follow followed
      have outside : 0 ∉ (w.top 1).held :=
        fun mem' => absurd ((locks_exclude run).1 0 0 1 mem mem') (by decide)
      refine ⟨w, run, pc, mem, outside, Bool.eq_false_iff.mpr fun holds => outside ?_⟩
      exact ((locks_exclude run).2.2.1 0 true 1 (.inl pc)).mp holds

/-- The process of thread 2 gives the lock back, takes it with interrupts enabled and calls `sched`,
and the scheduler of CPU 1, which has them disabled, goes on with it. -/
def migration : List (Fin 2 × Event ℕ) :=
  firstSwitch ++ releases 0 0 ++ acquires 0 0 ++ [(0, .setState), (0, .sched 0)] ++ releases 0 0 ++
    acquires 1 0 ++ [(1, .scheduler 2)]

/-- A process goes to sleep on one CPU and returns on the other one, where it finds the interrupts
as it left them. -/
theorem interrupts_restored_migration : ∃ w w' : World ℕ 2,
    ReflTransGen (Goes 0) (World.init 0) w ∧ w.running 1 = 2 ∧ (w.cpu 1).iflag = false ∧
    step 0 w 1 .advance = some (.ok w') ∧ (w'.cpu 1).iflag = true := by
  cases followed : follow 0 (World.init 0) (migration ++ (releases 1 0).dropLast) with
  | none => exact absurd followed (by decide +kernel)
  | some w =>
      have seen : (follow 0 (World.init 0) (migration ++ (releases 1 0).dropLast)).map
          (fun w => (w.top 1, w.running 1, (w.cpu 1).iflag)) =
          some (⟨.pop, [], some true⟩, 2, false) := by
        decide +kernel
      rw [followed] at seen
      have all := Option.some.inj seen
      have top : w.top 1 = ⟨.pop, [], some true⟩ := congrArg Prod.fst all
      have pc : (w.top 1).pc = .pop := congrArg Frame.pc top
      have run := run_of_follow followed
      have possible : step 0 w 1 .advance ≠ none := by
        rw [step, World.advance, pc]
        exact Option.some_ne_none _
      rcases Option.ne_none_iff_exists'.mp possible with ⟨r, stepped⟩
      rcases (World.inv_init.run run).advance stepped with ⟨w', rfl, -⟩
      refine ⟨w, w', run, congrArg (·.2.1) all, congrArg (·.2.2) all, stepped, ?_⟩
      exact (interrupts_restored run 1).2.2.1 true w' pc (congrArg Frame.held top)
        (congrArg Frame.base top) stepped

/-- The scheduler has taken the lock with interrupts enabled and gives it back after a process has
called `sched` in a handler. -/
example : (follow 0 (World.init 0)
      (firstSwitch ++ releases 0 0 ++ (0, .interrupt) :: acquires 0 0 ++
    [(0, .setState), (0, .sched 0)] ++ releases 0 0)).map (fun w => (w.cpu 0).iflag) =
    some false := by
  decide +kernel

end

end Xv6.Sync
