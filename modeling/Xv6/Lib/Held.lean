import Xv6.Lib.Program

/-!
# What is taken is given back

A program takes locked things for its own use and gives them back, and leaves a record of it. A
thing counts its users; who takes it waits until it is not locked, and it must be locked to be given
back. A program restores what it uses if, whenever its record can be followed to the end, every
thing ends as it began.
-/

namespace Xv6.Held

open Prog

variable {ρ σ τ ε δ α β : Type} [DecidableEq ρ]

/-- The users of a thing, and whether one of them has it locked. -/
@[ext]
structure Lock where
  users : ℕ
  locked : Bool
  deriving DecidableEq

abbrev Locks (ρ : Type) := ρ → Lock

inductive Use (ρ : Type) where
  | take (r : ρ)
  | give (r : ρ)

/-- `r` is taken, or given back. -/
def taken (locks : Locks ρ) (r : ρ) : Locks ρ := Function.update locks r ⟨(locks r).users + 1, true⟩

def given (locks : Locks ρ) (r : ρ) :
    Locks ρ := Function.update locks r ⟨(locks r).users - 1, false⟩

/-- Follow a record; there is no outcome where the program would wait for ever or fail. -/
def follow : List (Use ρ) → Locks ρ → Option (Locks ρ)
  | [], locks => some locks
  | .take r :: uses, locks => if (locks r).locked then none else follow uses (taken locks r)
  | .give r :: uses, locks => if (locks r).locked then follow uses (given locks r) else none

theorem follow_append (uses uses' : List (Use ρ)) (locks : Locks ρ) :
    follow (uses ++ uses') locks = (follow uses locks).bind (follow uses') := by
  induction uses generalizing locks with
  | nil => rfl
  | cons use uses ih =>
      cases use with
      | take r =>
          rw [List.cons_append, follow, follow]
          split
          · rfl
          · exact ih _
      | give r =>
          rw [List.cons_append, follow, follow]
          split
          · exact ih _
          · rfl

theorem given_taken {locks : Locks ρ} {r : ρ} (free : (locks r).locked = false) :
    given (taken locks r) r = locks := by
  rw [given, taken, Function.update_idem, Function.update_self, Nat.add_sub_cancel]
  refine (Function.update_eq_self_iff ..).mpr ?_
  exact Lock.ext rfl free.symm

theorem taken_ne (locks : Locks ρ) (r : ρ) : taken locks r ≠ locks := by
  intro same
  have users := congrArg Lock.users (congrFun same r)
  rw [taken, Function.update_self] at users
  exact absurd users (Nat.succ_ne_self _)

/-- The things that a program has taken so far, the last one first. -/
def takes : List ρ → Locks ρ → Locks ρ
  | [], locks => locks
  | r :: held, locks => taken (takes held locks) r

/-- None of them was locked when it was taken. -/
def Free : List ρ → Locks ρ → Prop
  | [], _ => True
  | r :: held, locks => (takes held locks r).locked = false ∧ Free held locks

/-! ## Programs -/

variable (uses : σ → List (Use ρ))

/-- Between two states the record shows that every thing ends as it began. -/
def Restored (s s' : σ) : Prop :=
  ∃ new, uses s' = uses s ++ new ∧ ∀ locks locks', follow new locks = some locks' → locks' = locks

/-- The program restores what it uses. -/
def Restores (m : Prog σ ε α) :
    Prop := ∀ s, Meets m s (fun _ => True) fun _ s' => Restored uses s s'

/-- The program, which has taken `held`, ends with the things as in `post`. -/
def Ends (held : List ρ) (m : Prog σ ε α) (s : σ) (post : Locks ρ → Locks ρ → Prop) : Prop :=
  Meets m s (fun _ => True) fun _ s' => ∃ new, uses s' = uses s ++ new ∧
    ∀ locks locks', Free held locks → follow new (takes held locks) = some locks' →
      post locks locks'

/-- The program takes `r` and does nothing else. -/
def Takes (r : ρ) (m : Prog σ ε α) : Prop :=
  ∀ s, Meets m s (fun _ => True) fun _ s' => uses s' = uses s ++ [.take r]

def Gives (r : ρ) (m : Prog σ ε α) : Prop :=
  ∀ s, Meets m s (fun _ => True) fun _ s' => uses s' = uses s ++ [.give r]

variable {uses}

theorem Restored.refl (s : σ) :
    Restored uses s s := ⟨[], (List.append_nil _).symm, fun _ _ same => (Option.some.inj same).symm⟩

theorem Restored.of_eq {s s' : σ} (same : uses s' = uses s) : Restored uses s s' :=
  ⟨[], same.trans (List.append_nil _).symm, fun _ _ done => (Option.some.inj done).symm⟩

/-- Something is taken and at once given back. -/
theorem Restored.of_pair {s s' : σ} {r : ρ}
    (recorded : uses s' = uses s ++ [.take r] ++ [.give r]) : Restored uses s s' := by
  refine ⟨[.take r, .give r], by
    rw [recorded, List.append_assoc]; rfl, fun locks locks' followed => ?_⟩
  rw [follow] at followed
  split at followed
  case isTrue => cases followed
  case isFalse unlocked =>
    rw [follow] at followed
    split at followed
    case isTrue =>
      rw [given_taken (Bool.eq_false_iff.mpr unlocked)] at followed
      exact (Option.some.inj followed).symm
    case isFalse => cases followed

theorem Restored.trans {s s' s'' : σ} (first : Restored uses s s') (second : Restored uses s' s'') :
    Restored uses s s'' := by
  rcases first with ⟨new, recorded, restored⟩
  rcases second with ⟨new', recorded', restored'⟩
  refine ⟨new ++ new', by rw [recorded', recorded, List.append_assoc],
    fun locks locks' followed => ?_⟩
  rw [follow_append] at followed
  rcases Option.bind_eq_some_iff.mp followed with ⟨between, first, second⟩
  rw [restored' between locks' second, restored locks between first]

variable {m : Prog σ ε α} {f : α → Prog σ ε β} {s : σ} {held : List ρ} {r : ρ}
  {post : Locks ρ → Locks ρ → Prop}

/-- A part that gives back what it takes does not matter to what is held at the end. -/
theorem Ends.of_restored {s' : σ} (first : Restored uses s s') {m : Prog σ ε α}
    (rest : Ends uses held m s' post) :
    Meets m s' (fun _ => True) fun _ s'' => ∃ new, uses s'' = uses s ++ new ∧
      ∀ locks locks', Free held locks → follow new (takes held locks) = some locks' →
        post locks locks' := by
  rcases first with ⟨new, recorded, restored⟩
  refine Meets.mono rest (fun _ => id) ?_
  rintro _ s'' ⟨new', recorded', ends⟩
  refine ⟨new ++ new', by rw [recorded', recorded, List.append_assoc],
    fun locks locks' free followed => ?_⟩
  rw [follow_append] at followed
  rcases Option.bind_eq_some_iff.mp followed with ⟨between, first, second⟩
  rw [restored _ between first] at second
  exact ends locks locks' free second

theorem Ends.bind (first : Meets m s (fun _ => True) fun a s' => Restored uses s s' ∧
      Ends uses held (f a) s' post) :
    Ends uses held (m >>= f) s post :=
  Meets.bind first fun _ _ ⟨restored, rest⟩ => Ends.of_restored restored rest

theorem Restores.then (first : Restores uses m) (rest : ∀ a s', Ends uses held (f a) s' post) :
    Ends uses held (m >>= f) s post :=
  Ends.bind ((first s).mono (fun _ => id) fun a s' restored => ⟨restored, rest a s'⟩)

/-- What a part has taken is held by the rest. -/
theorem Takes.then (first : Takes uses r m) (rest : ∀ a s', Ends uses (r :: held) (f a) s' post) :
    Ends uses held (m >>= f) s post := by
  refine Meets.bind (first s) fun a s' recorded => Meets.mono (rest a s') (fun _ => id) ?_
  rintro _ s'' ⟨new, recorded', ends⟩
  refine ⟨.take r :: new, by rw [recorded', recorded, List.append_assoc]; rfl,
    fun locks locks' free followed => ?_⟩
  rw [follow] at followed
  split at followed
  case isTrue => cases followed
  case isFalse unlocked => exact ends locks locks' ⟨Bool.eq_false_iff.mpr unlocked, free⟩ followed

/-- What a part has given back is not held any more. -/
theorem Gives.then (first : Gives uses r m) (rest : ∀ a s', Ends uses held (f a) s' post) :
    Ends uses (r :: held) (m >>= f) s post := by
  refine Meets.bind (first s) fun a s' recorded => Meets.mono (rest a s') (fun _ => id) ?_
  rintro _ s'' ⟨new, recorded', ends⟩
  refine ⟨.give r :: new, by rw [recorded', recorded, List.append_assoc]; rfl,
    fun locks locks' free followed => ?_⟩
  have locked : (takes (r :: held) locks r).locked = true := by
    rw [takes, taken, Function.update_self]
  rw [follow, if_pos locked, takes, given_taken free.1] at followed
  exact ends locks locks' free.2 followed

theorem ends_pure {a : α} (post_ : ∀ locks, post locks (takes held locks)) :
    Ends uses held (pure a : Prog σ ε α) s post := by
  refine meets_pure ⟨[], (List.append_nil _).symm, fun locks locks' _ followed => ?_⟩
  cases followed
  exact post_ locks

theorem Gives.ends (last : Gives uses r m) :
    Ends uses [r] m s fun locks locks' => locks' = locks := by
  have done : Ends uses [r] (m >>= fun a => (pure a : Prog σ ε α)) s fun locks locks' =>
      locks' = locks :=
    last.then fun a s' => ends_pure fun _ => rfl
  rwa [bind_pure] at done

theorem restores_of_ends (ends : ∀ s, Ends uses [] m s fun locks locks' => locks' = locks) :
    Restores uses m := by
  refine fun s => Meets.mono (ends s) (fun _ => id) ?_
  rintro _ s' ⟨new, recorded, restored⟩
  exact ⟨new, recorded, fun locks locks' => restored locks locks' trivial⟩

theorem Restores.ends (restores : Restores uses m) :
    Ends uses [] m s fun locks locks' => locks' = locks := by
  refine Meets.mono (restores s) (fun _ => id) ?_
  rintro _ s' ⟨new, recorded, restored⟩
  exact ⟨new, recorded, fun locks locks' _ => restored locks locks'⟩

theorem Restores.bind (first : Restores uses m) (next : ∀ a, Restores uses (f a)) :
    Restores uses (m >>= f) :=
  restores_of_ends fun _ => first.then fun a _ => (next a).ends

theorem restores_of_fixes (fixes : Fixes uses m) : Restores uses m :=
  fun s => (fixes s).mono (fun _ => id) fun _ _ same => Restored.of_eq same

theorem restores_pure {a : α} : Restores uses (pure a : Prog σ ε α) := restores_of_fixes fixes_pure

theorem restores_throw {e : ε} : Restores uses (throw e : Prog σ ε α) :=
  restores_of_fixes fixes_throw

theorem restores_ite {c : Prop} [Decidable c] {m' : Prog σ ε α} (yes : Restores uses m)
    (no : Restores uses m') :
    Restores uses (if c then m else m') := by
  split
  · exact yes
  · exact no

theorem Restores.zoom {part : σ → τ} {put : σ → τ → σ} {stop : δ → ε} {inner : Prog τ δ α}
    {uses' : τ → List (Use ρ)} (restores : Restores uses' inner)
    (before : ∀ s, uses s = uses' (part s)) (after : ∀ s t, uses (put s t) = uses' t) :
    Restores uses (zoom part put stop inner) := by
  refine fun s => meets_zoom ((restores (part s)).mono (fun _ _ => trivial) ?_)
  rintro _ t ⟨new, recorded, restored⟩
  exact ⟨new, by rw [after, before, recorded], restored⟩

end Xv6.Held
