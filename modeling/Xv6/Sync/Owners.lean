import Xv6.Sync.Interrupts

/-!
# Locks in one step

The models of `pipe.c`, `log.c` and the scheduler take a lock and give it back in one step
each. What the code of `spinlock.c` does in many steps, with others in between, is a run of
such locks: a lock is taken by the `xchg` that finds it free, and given back when
`lk->locked` is cleared.
-/

namespace Xv6.Sync

open Relation

variable {L : Type} [DecidableEq L] {n : ℕ} {ptable l : L} {w w' : World L n} {c : Fin n}

/-! ## Two machines -/

inductive Access (L : Type) (n : ℕ) where
  | take (c : Fin n) (l : L)
  | give (c : Fin n) (l : L)
  deriving DecidableEq

/-- A free lock is taken, and its owner gives a lock back. -/
def Access.step (owner : L → Option (Fin n)) : Access L n → Option (L → Option (Fin n))
  | .take c l => if owner l = none then some (Function.update owner l (some c)) else none
  | .give c l => if owner l = some c then some (Function.update owner l none) else none

/-- The access that others see of an event. -/
def access (w : World L n) (c : Fin n) : Event L → Option (Access L n)
  | .advance =>
      match (w.top c).pc with
      | .spin l => if (w.lock l).locked then none else some (.take c l)
      | .unlock l => some (.give c l)
      | _ => none
  | _ => none

/-- Which CPU has a lock. -/
def World.owner (w : World L n) (l : L) : Option (Fin n) :=
  (List.finRange n).find? fun c => l ∈ (w.top c).held

/-! ## One step -/

/-- What a step does to the locks that code has. -/
inductive Moves (w : World L n) (c : Fin n) (w' : World L n) : Option (Access L n) → Prop where
  | stays (f : Frame L) (top : w'.top = Function.update w.top c f)
    (held : f.held = (w.top c).held) : Moves w c w' none
  | takes (f : Frame L) (l : L) (top : w'.top = Function.update w.top c f)
    (free : (w.lock l).locked = false)
      (held : f.held = l :: (w.top c).held) : Moves w c w' (some (.take c l))
  | gives (f : Frame L) (l : L) (top : w'.top = Function.update w.top c f)
    (mem : l ∈ (w.top c).held)
      (held : f.held = (w.top c).held.erase l) : Moves w c w' (some (.give c l))

namespace World

/-- An instruction takes at most one lock, or gives one back. -/
theorem Inv.moves_advance (inv : w.Inv ptable) (stepped : w.advance c = some (.ok w')) :
    Moves w c w' (Sync.access w c .advance) := by
  have fits : (w.top c).pc.Fits ptable (w.top c).held (w.top c).base := (inv.ok (w.running c)).fits
  rw [World.advance] at stepped
  rw [Sync.access]
  cases pc : (w.top c).pc with
  | rest =>
      rw [pc] at stepped
      cases stepped
  | switched intena =>
      rw [pc] at stepped
      cases stepped
  | push l | cli l eflags | test l | enter l | check l | clear l =>
      rw [pc] at stepped
      cases stepped
      exact .stays _ (inv.top_eq rfl rfl) rfl
  | testing l locked =>
      rw [pc] at stepped fits
      cases popped : (w.cpu c).popcli with
      | error stop =>
          simp only [popped] at stepped
          cases stepped
      | ok k =>
          simp only [popped, inv.not_holds fits] at stepped
          cases stepped
          exact .stays _ (inv.top_eq rfl rfl) rfl
  | checking l locked =>
      rw [pc] at stepped fits
      rw [fits.2] at stepped
      cases popped : (w.cpu c).popcli with
      | error stop =>
          simp only [popped] at stepped
          cases stepped
      | ok k =>
          simp only [popped, inv.holds fits.1 (by rw [pc]; rfl)] at stepped
          cases stepped
          exact .stays _ (inv.top_eq rfl rfl) rfl
  | pop =>
      rw [pc] at stepped
      cases popped : (w.cpu c).popcli with
      | error stop =>
          simp only [popped] at stepped
          cases stepped
      | ok k =>
          simp only [popped] at stepped
          cases stepped
          exact .stays _ (inv.top_eq rfl rfl) rfl
  | spin l =>
      rw [pc] at stepped
      dsimp only at stepped ⊢
      cases locked : (w.lock l).locked with
      | true =>
          rw [locked, if_pos rfl] at stepped
          cases stepped
          exact .stays _ (Function.update_eq_self c w.top).symm rfl
      | false =>
          rw [locked, if_neg (by decide)] at stepped
          cases stepped
          exact .takes _ l (inv.top_eq rfl rfl) locked rfl
  | unlock l =>
      rw [pc] at stepped fits
      cases stepped
      exact .gives _ l (inv.top_eq rfl rfl) fits rfl

/-- A switch of threads leaves the locks where they are. -/
theorem Inv.moves_switch {t : ℕ} {f : Frame L} {intena : Option Bool} (inv : w.Inv ptable)
    (held : (w.top c).held = [ptable]) (away : (w.thread t).top.pc = .switched intena) :
    Moves w c ((w.setTop c f).resume c t intena) none := by
  have fits := (inv.ok t).fits
  have inSwtch : (w.thread t).top.pc.inSwtch = true := by
    rw [away]
    rfl
  rw [away] at fits
  have same : (w.setTop c f).thread t = w.thread t :=
    Function.update_of_ne (inv.elsewhere inSwtch c).symm _ _
  rw [resume_eq, same]
  exact .stays _ (inv.top_leave rfl rfl inSwtch) (fits.1.trans held.symm)

/-- The code on the CPU does something else than a step of `spinlock.c`. -/
theorem Moves.same (top : w'.top = w.top) : Moves w c w' none :=
  .stays (w.top c) (top.trans (Function.update_eq_self c w.top).symm) rfl

/-- Every event is at most one access to a lock. -/
theorem Inv.moves {e : Event L} (inv : w.Inv ptable) (careful : Careful ptable w c e)
    (stepped : Sync.step ptable w c e = some (.ok w')) : Moves w c w' (Sync.access w c e) := by
  cases e with
  | advance => exact inv.moves_advance stepped
  | acquire l | release l =>
      simp only [Sync.step] at stepped
      split at stepped
      case h_2 => cases stepped
      case h_1 =>
        cases stepped
        exact .stays _ (inv.top_eq rfl rfl) rfl
  | sti | setState =>
      simp only [Sync.step] at stepped
      split at stepped
      case h_2 => cases stepped
      case h_1 =>
        cases stepped
        exact Moves.same rfl
  | interrupt =>
      simp only [Sync.step] at stepped
      split at stepped
      case isFalse => cases stepped
      case isTrue enabled =>
        cases stepped
        exact .stays _ (inv.top_eq rfl rfl) (inv.interrupted enabled).held_eq_nil.1.symm
  | iret =>
      simp only [Sync.step] at stepped
      split at stepped
      case h_2 => cases stepped
      case h_1 f below pc stack =>
        cases stepped
        have found := inv.below (w.running c)
        rw [stack, List.forall_mem_cons] at found
        exact .stays _ (inv.top_eq rfl rfl) (found.1.held_eq_nil.1.trans careful.symm)
  | sched t =>
      simp only [Sync.step] at stepped
      split at stepped
      case h_2 => cases stepped
      case h_1 intena pc away =>
        rw [inv.sched careful.1 careful.2 pc] at stepped
        cases stepped
        exact inv.moves_switch careful.1 away
  | scheduler t =>
      simp only [Sync.step] at stepped
      split at stepped
      case h_2 => cases stepped
      case h_1 intena pc away =>
        cases stepped
        have running : (w.setRunning t true).Inv ptable := inv.setRunning
        cases running.moves_switch (f := { w.top c with pc := .switched none, base := none })
          careful away with
        | stays g top held => exact .stays g top held

/-! ## Refinement -/

/-- The owner of a lock is the CPU whose thread holds it. -/
theorem Inv.owner_eq_some (inv : w.Inv ptable) : w.owner l = some c ↔ l ∈ (w.top c).held := by
  constructor
  · intro found
    have test := List.find?_some found
    exact of_decide_eq_true test
  · intro mem
    cases found : w.owner l with
    | none =>
        rw [owner, List.find?_eq_none] at found
        exact absurd (decide_eq_true mem) (found c (List.mem_finRange c))
    | some c' =>
        have test := List.find?_some found
        rw [inv.locks.alone c' c l (of_decide_eq_true test) mem]

theorem Inv.owner_eq_none (inv : w.Inv ptable) (free : (w.lock l).locked = false) :
    w.owner l = none := by
  refine Option.eq_none_iff_forall_ne_some.mpr fun c found => ?_
  rw [inv.locks.held c l (inv.owner_eq_some.mp found)] at free
  cases free

/-- Only the locks of the CPU that takes the step can change their owner. -/
theorem Inv.owner_eq {owner : L → Option (Fin n)} {f : Frame L} (inv : w.Inv ptable)
    (inv' : w'.Inv ptable) (top : w'.top = Function.update w.top c f)
    (mine : ∀ l, owner l = some c ↔ l ∈ f.held)
    (others : ∀ l c', c' ≠ c → (owner l = some c' ↔ w.owner l = some c')) : owner = w'.owner := by
  funext l
  refine Option.ext fun c' => ?_
  rw [inv'.owner_eq_some, top]
  by_cases same : c' = c
  · rw [same, Function.update_self]
    exact mine l
  · rw [Function.update_of_ne same, others l c' same]
    exact inv.owner_eq_some

end World

/-- The access is possible in the machine of atomic locks. -/
theorem Moves.simulates {a : Option (Access L n)} (moves : Moves w c w' a) (inv : w.Inv ptable)
    (inv' : w'.Inv ptable) :
    a.toList.foldlM Access.step w.owner = some w'.owner := by
  cases moves with
  | stays f top held =>
      refine congrArg some (inv.owner_eq inv' top (fun l => ?_) fun _ _ _ => Iff.rfl)
      rw [inv.owner_eq_some, held]
  | takes f l top free held =>
      have none := inv.owner_eq_none free
      have taken : Function.update w.owner l (some c) = w'.owner := by
        refine inv.owner_eq inv' top (fun l' => ?_) fun l' c' other => ?_
        · rw [held, List.mem_cons]
          by_cases same : l' = l
          · rw [same, Function.update_self]
            exact iff_of_true rfl (.inl rfl)
          · rw [Function.update_of_ne same, inv.owner_eq_some, or_iff_right same]
        · by_cases same : l' = l
          · rw [same, Function.update_self, none]
            exact iff_of_false (fun mine => other (Option.some.inj mine).symm)
              (Option.some_ne_none c' ∘ Eq.symm)
          · rw [Function.update_of_ne same]
      rw [Option.toList_some, List.foldlM_cons, Access.step, if_pos none, taken]
      rfl
  | gives f l top mem held =>
      have mine := inv.owner_eq_some.mpr mem
      have given : Function.update w.owner l none = w'.owner := by
        refine inv.owner_eq inv' top (fun l' => ?_) fun l' c' other => ?_
        · rw [held]
          by_cases same : l' = l
          · rw [same, Function.update_self]
            exact iff_of_false (Option.some_ne_none c ∘ Eq.symm)
              (inv.ok (w.running c)).nodup.not_mem_erase
          · rw [Function.update_of_ne same, inv.owner_eq_some, List.mem_erase_of_ne same]
        · by_cases same : l' = l
          · rw [same, Function.update_self, mine]
            exact iff_of_false (Option.some_ne_none c' ∘ Eq.symm) fun owned =>
              other (Option.some.inj owned).symm
          · rw [Function.update_of_ne same]
      rw [Option.toList_some, List.foldlM_cons, Access.step, if_pos mine, given]
      rfl

/-- A run, with the accesses that others see of it. -/
inductive Run (ptable : L) (w₀ : World L n) : List (Access L n) → World L n → Prop where
  | refl : Run ptable w₀ [] w₀
  | tail {as : List (Access L n)} {w w' : World L n} (run : Run ptable w₀ as w) (c : Fin n)
    (e : Event L)
      (careful : Careful ptable w c e) (stepped : step ptable w c e = some (.ok w')) :
      Run ptable w₀ (as ++ (access w c e).toList) w'

theorem Run.goes {w₀ : World L n} {as : List (Access L n)} (run : Run ptable w₀ as w) :
    ReflTransGen (Goes ptable) w₀ w := by
  induction run with
  | refl => exact .refl
  | tail _ c e careful stepped ih => exact ih.tail ⟨c, e, careful, stepped⟩

/-- Whatever happens between the steps of `acquire` and `release`, the locks are taken and given
back as if each of them did it in one step. -/
theorem locks_refine {as : List (Access L n)} (run : Run ptable (World.init ptable) as w) :
    as.foldlM Access.step (fun _ => none) = some w.owner ∧ ∀ l c, w.owner l = some c ↔
      l ∈ (w.top c).held := by
  refine ⟨?_, fun l c => (World.inv_init.run run.goes).owner_eq_some⟩
  induction run with
  | refl =>
      refine congrArg some (funext fun l => ?_)
      exact (World.inv_init.owner_eq_none rfl).symm
  | tail before c e careful stepped ih =>
      have inv := World.inv_init.run before.goes
      rcases inv.step careful stepped with ⟨w', same, inv'⟩
      cases same
      rw [List.foldlM_append, ih]
      exact (inv.moves careful stepped).simulates inv inv'

/-- The accesses of the events that `follow` follows. -/
def accesses (ptable : L) (w : World L n) : List (Fin n × Event L) → List (Access L n)
  | [] => []
  | e :: events => (goes ptable w e).elim [] fun w' =>
      (access w e.1 e.2).toList ++ accesses ptable w' events

/-- A history that can be carried out is a run, with the accesses that it makes. -/
theorem Run.follow {w₀ : World L n} {as : List (Access L n)} {events : List (Fin n × Event L)}
    (run : Run ptable w₀ as w) (followed : follow ptable w events = some w') :
    Run ptable w₀ (as ++ accesses ptable w events) w' := by
  induction events generalizing w as with
  | nil =>
      cases followed
      rw [accesses, List.append_nil]
      exact run
  | cons event events ih =>
      rw [Sync.follow, Runs.follow] at followed
      split_ifs at followed with careful
      rcases Option.bind_eq_some_iff.mp followed with ⟨w₁, went, rest⟩
      have next := ih (run.tail event.1 event.2 careful (step_of_goes went)) rest
      rw [List.append_assoc] at next
      rwa [accesses, went]

/-- Both CPUs take `ptable.lock` and give it back. -/
theorem locks_refine_migration : ∃ w : World ℕ 2,
    Run 0 (World.init 0) [.take 0 0, .give 0 0, .take 0 0, .give 0 0, .take 1 0, .give 1 0] w ∧
    w.owner 0 = none ∧ ∀ c, 0 ∉ (w.top c).held := by
  cases followed : follow 0 (World.init 0) (migration ++ releases 1 0) with
  | none => exact absurd followed (by decide +kernel)
  | some w =>
      have seen : accesses 0 (World.init 0) (migration ++ releases 1 0) =
          [.take 0 0, .give 0 0, .take 0 0, .give 0 0, .take 1 0, .give 1 0] := by
        decide +kernel
      have run : Run 0 (World.init 0) _ w := Run.refl.follow followed
      rw [List.nil_append, seen] at run
      rcases locks_refine run with ⟨owners, has⟩
      have free : w.owner 0 = none := by
        rw [← Option.some.inj owners]
        rfl
      refine ⟨w, run, free, fun c mem => ?_⟩
      have owned := (has 0 c).mpr mem
      rw [free] at owned
      cases owned

end Xv6.Sync
