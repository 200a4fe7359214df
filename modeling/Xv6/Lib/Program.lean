import Mathlib.Tactic

/-!
# Programs with state that may stop

A program takes a state and either returns a value and a new state, or stops
with an error, as a kernel does that panics. `Meets` is its specification by a
postcondition for each of the two outcomes, and the rules below follow the
constructors of programs. A program that meets a specification whose error
condition is false returns.
-/

namespace Xv6

/-- A program over states `σ` that returns an `α` or stops with an `ε`. -/
abbrev Prog (σ ε α : Type) := StateT σ (Except ε) α

namespace Prog

variable {σ ε α β : Type}

/-- From state `s` the program stops within `E`, or returns within `Q`. -/
def Meets (m : Prog σ ε α) (s : σ) (E : ε → Prop) (Q : α → σ → Prop) : Prop :=
  match m s with
  | .ok (a, s') => Q a s'
  | .error e => E e

variable {m : Prog σ ε α} {s s' : σ} {a : α} {E E' : ε → Prop} {Q R : α → σ → Prop}

theorem Meets.of_ok (meets : Meets m s E Q) (returned : m s = .ok (a, s')) : Q a s' := by
  simpa only [Meets, returned] using meets

theorem Meets.of_error {e : ε} (meets : Meets m s E Q) (stopped : m s = .error e) : E e := by
  simpa only [Meets, stopped] using meets

/-- A run that is known. -/
theorem meets_ok (returned : m s = .ok (a, s')) (post : Q a s') : Meets m s E Q := by
  unfold Meets
  rwa [returned]

theorem meets_of_ok (sound : ∀ a s', m s = .ok (a, s') → Q a s') :
    Meets m s (fun _ => True) Q := by
  unfold Meets
  split
  next a s' returned => exact sound a s' returned
  next => trivial

/-- A program that cannot stop returns. -/
theorem Meets.returns (meets : Meets m s E Q) (safe : ∀ e, ¬E e) :
    ∃ a s', m s = .ok (a, s') ∧ Q a s' := by
  unfold Meets at meets
  split at meets
  next a s' returned => exact ⟨a, s', returned, meets⟩
  next e _ => exact absurd meets (safe e)

theorem Meets.mono (meets : Meets m s E Q) (stop : ∀ e, E e → E' e)
    (return_ : ∀ a s', Q a s' → R a s') : Meets m s E' R := by
  unfold Meets at meets ⊢
  split at meets
  next a s' returned => exact return_ a s' meets
  next e _ => exact stop e meets

theorem Meets.and (meets : Meets m s E Q) (meets' : Meets m s E' R) :
    Meets m s (fun e => E e ∧ E' e) fun a s' => Q a s' ∧ R a s' := by
  unfold Meets at meets meets' ⊢
  split
  next returned =>
    rw [returned] at meets meets'
    exact ⟨meets, meets'⟩
  next stopped =>
    rw [stopped] at meets meets'
    exact ⟨meets, meets'⟩

/-- What is known of every outcome may be used to establish the postcondition. -/
theorem Meets.and_then {Q' : α → σ → Prop} (known : Meets m s (fun _ => True) Q')
    (meets : Meets m s E fun a s' => Q' a s' → Q a s') : Meets m s E Q :=
  (meets.and known).mono (fun _ stop => stop.1) fun _ _ both => both.1 both.2

/-- The outcome is the one of this run. -/
theorem Meets.run (meets : Meets m s E fun a s' => m s = .ok (a, s') → Q a s') : Meets m s E Q := by
  unfold Meets at meets ⊢
  split at meets
  next returned => exact meets returned
  next => exact meets

/-- A program whose result can be computed returns. -/
theorem ok_of_evaluated {x : Except ε α} {f : α → β} {value : β}
    (evaluated : x.toOption.map f = some value) : ∃ a, x = .ok a ∧ f a = value := by
  cases x with
  | ok a => exact ⟨a, rfl, Option.some.inj evaluated⟩
  | error e => cases evaluated

/-- Execution of a sequence whose first program returns. -/
theorem bind_of_ok {f : α → Prog σ ε β} (returned : m s = .ok (a, s')) :
    (m >>= f) s = f a s' := by
  rw [show (m >>= f) s = (m s).bind fun r => f r.1 r.2 from rfl, returned]
  rfl

theorem meets_bind_ok {f : α → Prog σ ε β} {R : β → σ → Prop} (returned : m s = .ok (a, s'))
    (rest : Meets (f a) s' E R) : Meets (m >>= f) s E R := by
  unfold Meets at rest ⊢
  rwa [bind_of_ok returned]

/-- Inversion of a sequence that returns. -/
theorem ok_of_bind {f : α → Prog σ ε β} {r : β × σ} (returned : (m >>= f) s = .ok r) :
    ∃ a s', m s = .ok (a, s') ∧ f a s' = .ok r := by
  rw [show (m >>= f) s = (m s).bind fun r => f r.1 r.2 from rfl] at returned
  cases first : m s with
  | ok outcome =>
      rw [first] at returned
      exact ⟨outcome.1, outcome.2, rfl, returned⟩
  | error e =>
      rw [first] at returned
      cases returned

theorem meets_pure (post : Q a s) : Meets (pure a : Prog σ ε α) s E Q := post

theorem meets_throw {e : ε} (stop : E e) : Meets (throw e : Prog σ ε α) s E Q := stop

theorem meets_bind {f : α → Prog σ ε β} {R : β → σ → Prop}
    (first : Meets m s E fun a s' => Meets (f a) s' E R) : Meets (m >>= f) s E R := by
  unfold Meets at first ⊢
  rw [show (m >>= f) s = (m s).bind fun r => f r.1 r.2 from rfl]
  cases outcome : m s with
  | ok r => simpa only [outcome, Except.bind] using first
  | error e => simpa only [outcome, Except.bind] using first

/-- Sequencing through the specification of the first program. -/
theorem Meets.bind {f : α → Prog σ ε β} {R : β → σ → Prop} (first : Meets m s E Q)
    (next : ∀ a s', Q a s' → Meets (f a) s' E R) : Meets (m >>= f) s E R :=
  meets_bind (first.mono (fun _ stop => stop) next)

theorem meets_discard {R : PUnit → σ → Prop} (first : Meets m s E fun _ s' => R ⟨⟩ s') :
    Meets (discard m) s E R := by
  have done : Meets (m >>= fun _ => (pure ⟨⟩ : Prog σ ε PUnit)) s E R := meets_bind first
  exact done

theorem meets_of_eq {m' : Prog σ ε α} (same : m s = m' s) (meets : Meets m' s E Q) :
    Meets m s E Q := by
  unfold Meets at meets ⊢
  rwa [same]

theorem meets_get {Q : σ → σ → Prop} (post : Q s s) : Meets (get : Prog σ ε σ) s E Q := post

theorem meets_modify {f : σ → σ} {Q : PUnit → σ → Prop} (post : Q ⟨⟩ (f s)) :
    Meets (modify f : Prog σ ε PUnit) s E Q := post

theorem meets_ite {c : Prop} [Decidable c] {m' : Prog σ ε α} (yes : c → Meets m s E Q)
    (no : ¬c → Meets m' s E Q) : Meets (if c then m else m') s E Q := by
  by_cases test : c
  · rw [if_pos test]
    exact yes test
  · rw [if_neg test]
    exact no test

/-! ## Programs on a part of the state -/

section Zoom

variable {τ δ : Type} {part : σ → τ} {put : σ → τ → σ} {stop : δ → ε} {inner : Prog τ δ α}

/-- A program that works on one part of the state, and whose errors are some of those there are. -/
def zoom (part : σ → τ) (put : σ → τ → σ) (stop : δ → ε) (inner : Prog τ δ α) :
    Prog σ ε α := fun s =>
  match inner (part s) with
  | .ok (a, t) => .ok (a, put s t)
  | .error e => .error (stop e)

theorem meets_zoom (meets : Meets inner (part s) (fun e => E (stop e)) fun a t => Q a (put s t)) :
    Meets (zoom part put stop inner) s E Q := by
  unfold Meets at meets
  unfold Meets zoom
  cases outcome : inner (part s) with
  | ok r => simpa only [outcome] using meets
  | error e => simpa only [outcome] using meets

end Zoom

/-! ## What a program leaves as it is -/

section Fixes

variable {γ : Type} {g : σ → γ}

/-- If the program returns, `g` of the state is what it was. -/
def Fixes (g : σ → γ) (m : Prog σ ε α) :
    Prop := ∀ s, Meets m s (fun _ => True) fun _ s' => g s' = g s

theorem Fixes.bind {f : α → Prog σ ε β} (first : Fixes g m) (next : ∀ a, Fixes g (f a)) :
    Fixes g (m >>= f) :=
  fun s => (first s).bind fun a s₁ same => (next a s₁).mono (fun _ => id) fun _ _ same' =>
    same'.trans same

theorem fixes_pure : Fixes g (pure a : Prog σ ε α) := fun _ => meets_pure rfl

theorem fixes_throw {e : ε} : Fixes g (throw e : Prog σ ε α) := fun _ => meets_throw trivial

theorem fixes_get : Fixes g (get : Prog σ ε σ) := fun _ => meets_get rfl

theorem fixes_modify {f : σ → σ} (same : ∀ s, g (f s) = g s) :
    Fixes g (modify f : Prog σ ε PUnit) := fun s => meets_modify (same s)

theorem fixes_ite {c : Prop} [Decidable c] {m' : Prog σ ε α} (yes : Fixes g m) (no : Fixes g m') :
    Fixes g (if c then m else m') := by
  split
  · exact yes
  · exact no

end Fixes

end Prog

end Xv6
