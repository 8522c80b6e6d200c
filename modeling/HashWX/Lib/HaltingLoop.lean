import Mathlib.Computability.StateTransition

/-!
# Loops that halt

A loop body that fails, goes on or halts, together with a measure that every iteration
that goes on decreases. The function that runs it agrees with reachability in the
transition system of its outcomes.
-/

namespace HaltingLoop

variable {σ : Type*}

/-- The loop goes on with a state, or ends with one. -/
inductive Outcome (σ : Type*)
  | next (s : σ)
  | halt (s : σ)

/-- The state in which the loop halts. -/
def run (step : σ → Option (Outcome σ)) (μ : σ → Nat)
    (hμ : ∀ {s s'}, step s = some (.next s') → μ s' < μ s) (s : σ) : Option σ :=
  match _h : step s with
  | none => none
  | some (.halt s') => some s'
  | some (.next s') => run step μ hμ s'
termination_by μ s
decreasing_by exact hμ _h

/-- The loop as a transition system; a loop that has halted goes no further. -/
def transition (step : σ → Option (Outcome σ)) : Outcome σ → Option (Outcome σ)
  | .next s => step s
  | .halt _ => none

theorem run_of_reaches {step : σ → Option (Outcome σ)} {μ : σ → Nat}
    (hμ : ∀ {s s'}, step s = some (.next s') → μ s' < μ s) {s s' : σ}
    (h : StateTransition.Reaches (transition step) (.next s) (.halt s')) :
    run step μ hμ s = some s' := by
  generalize ho : Outcome.next s = o at h
  induction h using Relation.ReflTransGen.head_induction_on generalizing s with
  | refl => cases ho
  | head hstep hrest ih =>
    subst ho
    rename_i o
    change step s = some o at hstep
    rw [run]
    split
    · next hnone => rw [hnone] at hstep; cases hstep
    · next u hhalt =>
      obtain rfl : Outcome.halt u = o := Option.some.inj (hhalt.symm.trans hstep)
      rcases Relation.ReflTransGen.cases_head hrest with he | ⟨_, hdead, _⟩
      · cases he; rfl
      · cases hdead
    · next u hnext => exact ih (Option.some.inj (hnext.symm.trans hstep))

end HaltingLoop
