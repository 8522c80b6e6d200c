import Mathlib.Algebra.Group.Defs
import Mathlib.Computability.StateTransition

/-!
# Runs with a cost

`Run f w k a b` says that the partial step function `f` leads from `a` to `b`, and that
the costs `w` of the states it leaves on the way add up to `k`. It refines the reachability
of the library, which forgets the cost.
-/

namespace WeightedRun

variable {σ τ K : Type*} [AddMonoid K] {f : σ → Option σ} {w : σ → K}

inductive Run (f : σ → Option σ) (w : σ → K) : K → σ → σ → Prop
  | refl (a : σ) : Run f w 0 a a
  | head {k : K} {a b c : σ} : f a = some b → Run f w k b c → Run f w (w a + k) a c

/-- One step, with its cost named. -/
theorem Run.step {k l : K} {a b c : σ} (h : f a = some b) (hw : w a = k) (hbc : Run f w l b c) :
    Run f w (k + l) a c := hw ▸ .head h hbc

theorem Run.single {k : K} {a b : σ} (h : f a = some b) (hw : w a = k) : Run f w k a b := by
  have hrun : Run f w (k + 0) a b := .step h hw (.refl b)
  rwa [add_zero] at hrun

theorem Run.trans {k l : K} {a b c : σ} (hab : Run f w k a b) (hbc : Run f w l b c) :
    Run f w (k + l) a c := by
  induction hab with
  | refl a => rwa [zero_add]
  | head h _ ih => rw [add_assoc]; exact .head h (ih hbc)

theorem Run.reaches {k : K} {a b : σ} (h : Run f w k a b) : StateTransition.Reaches f a b := by
  induction h with
  | refl a => exact .refl
  | head h _ ih => exact .head h ih

/-- All runs to the end lead to one state. -/
theorem Run.end_unique {k l : K} {a b c : σ} (hb : Run f w k a b) (hc : Run f w l a c) (hbend : f b = none)
    (hcend : f c = none) : b = c :=
  Part.mem_unique (StateTransition.mem_eval.mpr ⟨hb.reaches, hbend⟩)
    (StateTransition.mem_eval.mpr ⟨hc.reaches, hcend⟩)

/-- A run of one system is a run of another one that copies its steps at the same cost. -/
theorem Run.map {g : τ → Option τ} {v : τ → K} (φ : σ → τ)
    (hstep : ∀ a b, f a = some b → g (φ a) = some (φ b)) (hcost : ∀ a, v (φ a) = w a)
    {k : K} {a b : σ} (h : Run f w k a b) : Run g v k (φ a) (φ b) := by
  induction h with
  | refl a => exact .refl _
  | head h _ ih => rw [← hcost]; exact .head (hstep _ _ h) ih

end WeightedRun

namespace StateTransition

variable {σ τ : Type*} {f : σ → Option σ} {g : τ → Option τ}

/-- What every step preserves holds in every state that is reached. -/
theorem reaches_invariant {I : σ → Prop} (hI : ∀ a b, I a → f a = some b → I b) {a b : σ}
    (h : Reaches f a b) (ha : I a) : I b := by
  induction h with
  | refl => exact ha
  | tail _ hbc ih => exact hI _ _ ih hbc

/-- Two systems that stay related step by step reach related states. -/
theorem reaches_simulates {R : σ → τ → Prop}
    (hR : ∀ a b c, R a c → f a = some b → ∃ d, g c = some d ∧ R b d) {a b : σ} {c : τ}
    (h : Reaches f a b) (hac : R a c) : ∃ d, Reaches g c d ∧ R b d := by
  induction h with
  | refl => exact ⟨c, .refl, hac⟩
  | tail _ hbc ih =>
    obtain ⟨d, hd, hRd⟩ := ih
    obtain ⟨e, he, hRe⟩ := hR _ _ _ hRd hbc
    exact ⟨e, hd.tail he, hRe⟩

end StateTransition
