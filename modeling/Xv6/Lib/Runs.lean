import Mathlib.Logic.Relation
import Mathlib.Data.Option.Basic

/-!
# Runs

A system takes one step after another, each of them an action that is possible in the
state it has reached. What every step preserves holds after every run, and a history that
can be carried out is a run, also where the actions have to keep to a rule.
-/

namespace Xv6.Runs

open Relation

variable {σ α : Type*} {s s' : σ}

theorem invariant_of_run {R : σ → σ → Prop} {I : σ → Prop} (preserved : ∀ s s', R s s' → I s → I s')
    (run : ReflTransGen R s s') (init : I s) : I s' := by
  induction run with
  | refl => exact init
  | tail _ step ih => exact preserved _ _ step ih

/-- If a run of another system goes with every step, one goes with every run. -/
theorem simulates_run {τ : Type*} {R : σ → σ → Prop} {S : τ → τ → Prop} {rel : σ → τ → Prop}
    (simulates : ∀ s s' t, R s s' → rel s t → ∃ t', ReflTransGen S t t' ∧ rel s' t')
    (run : ReflTransGen R s s') {t : τ} (related : rel s t) :
    ∃ t', ReflTransGen S t t' ∧ rel s' t' := by
  induction run with
  | refl => exact ⟨t, .refl, related⟩
  | tail _ step ih =>
      rcases ih with ⟨t₁, before, related₁⟩
      rcases simulates _ _ t₁ step related₁ with ⟨t', after, related'⟩
      exact ⟨t', before.trans after, related'⟩

/-- The actions in order, each of which has to be possible. -/
theorem run_of_foldlM {step : σ → α → Option σ} (actions : List α)
    (done : actions.foldlM step s = some s') :
    ReflTransGen (fun s s' => ∃ a, step s a = some s') s s' := by
  induction actions generalizing s with
  | nil =>
      cases done
      exact ReflTransGen.refl
  | cons a actions ih =>
      rw [List.foldlM_cons] at done
      rcases Option.bind_eq_some_iff.mp done with ⟨s₁, stepped, rest⟩
      exact (ih rest).head ⟨a, stepped⟩

section Rule

variable (allowed : σ → α → Prop) [∀ s a, Decidable (allowed s a)] (step : σ → α → Option σ)

/-- The actions in order, each of which has to be possible and allowed. -/
def follow : List α → σ → Option σ
  | [], s => some s
  | a :: actions, s => if allowed s a then (step s a).bind (follow actions) else none

variable {allowed step}

/-- A history that keeps to the rule is a run. -/
theorem run_of_follow {actions : List α} (followed : follow allowed step actions s = some s') :
    ReflTransGen (fun s s' => ∃ a, allowed s a ∧ step s a = some s') s s' := by
  induction actions generalizing s with
  | nil =>
      cases followed
      exact ReflTransGen.refl
  | cons a actions ih =>
      rw [follow, Option.ite_none_right_eq_some] at followed
      rcases Option.bind_eq_some_iff.mp followed.2 with ⟨s₁, stepped, rest⟩
      exact (ih rest).head ⟨a, followed.1, stepped⟩

end Rule

end Xv6.Runs
