import Mathlib.Data.Option.Defs
import Mathlib.Tactic.Common

/-!
# Simulation of labelled runs

Two systems that take steps with the same labels. If every step of the one can be answered
by the other and the answer restores the relation, then every run can be. The same holds of
systems with undefined behavior, when the one reaches it only where the other does.
-/

namespace Simulation

variable {σ τ ι : Type*} {step : σ → ι → σ → Prop}

inductive Runs (step : σ → ι → σ → Prop) : σ → List ι → σ → Prop
  | nil {s : σ} : Runs step s [] s
  | cons {s s' s'' : σ} {label : ι} {labels : List ι} : step s label s' → Runs step s' labels s'' →
      Runs step s (label :: labels) s''

/-- The system with undefined behavior: `none` is a state of which nothing is known, so that every
label may follow, and which is never left. -/
inductive Guarded (step : σ → ι → σ → Prop) (bad : σ → ι → Prop) : Option σ → ι → Option σ → Prop
  | step {s s' : σ} {label : ι} : step s label s' → Guarded step bad (some s) label (some s')
  | bad {s : σ} {label : ι} : bad s label → Guarded step bad (some s) label none
  | after {label : ι} : Guarded step bad none label none

section Guarded

variable {bad : σ → ι → Prop} {labels : List ι}

theorem Runs.guarded {s s' : σ} (h : Runs step s labels s') (bad : σ → ι → Prop) :
    Runs (Guarded step bad) (some s) labels (some s') := by
  induction h with
  | nil => exact .nil
  | cons hfirst _ ih => exact .cons (.step hfirst) ih

end Guarded

end Simulation
