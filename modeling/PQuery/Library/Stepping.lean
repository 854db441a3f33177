import Mathlib.Logic.Relation
import Mathlib.Logic.Function.Iterate

/-!
# Runs of a step function

`afterSteps step n` is the state that `n` steps lead to, where the machine has not stopped before. Two
machines are at the same state after every number of steps if and only if they take the same step from
every state that one of them reaches (`afterSteps_eq_iff`).
-/

namespace Stepping

variable {σ : Type*}

/-- The state after `n` steps. -/
def afterSteps (step : σ → Option σ) (n : Nat) (a : σ) : Option σ :=
  (fun o => o.bind step)^[n] (some a)

/-- The states that the steps from `a` lead to. -/
def Reach (step : σ → Option σ) (a b : σ) : Prop :=
  Relation.ReflTransGen (fun b c => step b = some c) a b

section steps
variable {step step' : σ → Option σ} {a b : σ}

theorem afterSteps_succ (step : σ → Option σ) (n : Nat) (a : σ) :
    afterSteps step (n + 1) a = (afterSteps step n a).bind step :=
  Function.iterate_succ_apply' _ n _

theorem afterSteps_of_step (h : step a = some b) (n : Nat) : afterSteps step (n + 1) a = afterSteps step n b := by
  rw [afterSteps, Function.iterate_succ_apply, Option.bind_some, h]
  rfl

theorem reach_iff_afterSteps : Reach step a b ↔ ∃ n, afterSteps step n a = some b := by
  constructor
  · intro h
    induction h with
    | refl => exact ⟨0, rfl⟩
    | tail _ hstep ih =>
      obtain ⟨n, hn⟩ := ih
      exact ⟨n + 1, by rw [afterSteps_succ, hn, Option.bind_some, hstep]⟩
  · rintro ⟨n, hn⟩
    induction n generalizing b with
    | zero =>
      obtain rfl := Option.some.inj hn
      exact Relation.ReflTransGen.refl
    | succ n ih =>
      rw [afterSteps_succ] at hn
      obtain ⟨c, hc, hstep⟩ := Option.bind_eq_some_iff.mp hn
      exact (ih hc).tail hstep

/-- Two machines stay together if and only if no reached state parts them. -/
theorem afterSteps_eq_iff (step step' : σ → Option σ) (a : σ) :
    (∀ n, afterSteps step n a = afterSteps step' n a) ↔ ∀ b, Reach step' a b → step b = step' b := by
  constructor
  · intro h b hb
    obtain ⟨n, hn⟩ := reach_iff_afterSteps.mp hb
    have hsucc := h (n + 1)
    rwa [afterSteps_succ, afterSteps_succ, h n, hn] at hsucc
  · intro h n
    induction n with
    | zero => rfl
    | succ n ih =>
      rw [afterSteps_succ, afterSteps_succ, ih]
      cases hn : afterSteps step' n a with
      | none => rfl
      | some b => exact h b (reach_iff_afterSteps.mpr ⟨n, hn⟩)

end steps

end Stepping
