import Mathlib.Algebra.Group.Basic
import Mathlib.Logic.Function.Iterate
import Mathlib.Tactic.Common

/-!
# Loops with a retry budget

The body of such a loop returns whether it asks for another pass. The request is
granted while the budget lasts, and every granted request spends one unit of it.
-/

namespace BoundedLoop

variable {σ τ C : Type*}

/-- The state after the last pass and the budget that is left. -/
def run (body : σ → Bool × σ) : Nat → σ → σ × Nat
  | 0, s => ((body s).2, 0)
  | b + 1, s => if (body s).1 then run body b (body s).2 else ((body s).2, b + 1)

variable (body : σ → Bool × σ)

theorem run_again {b : Nat} {s : σ} (hb : b ≠ 0) (h : (body s).1 = true) :
    run body b s = run body (b - 1) (body s).2 := by
  obtain ⟨b, rfl⟩ := Nat.exists_eq_succ_of_ne_zero hb
  simp only [run, h, if_true, Nat.succ_sub_one]

theorem run_stop {b : Nat} {s : σ} (h : ¬(b ≠ 0 ∧ (body s).1 = true)) :
    run body b s = ((body s).2, b) := by
  cases b with
  | zero => rfl
  | succ b =>
    have hf : (body s).1 = false := by simpa using h
    simp [run, hf]

theorem run_budget_le (b : Nat) : ∀ s, (run body b s).2 ≤ b := by
  induction b with
  | zero => intro s; exact Nat.le_refl 0
  | succ b ih =>
    intro s
    by_cases h : (body s).1 = true
    · rw [run_again body (Nat.succ_ne_zero b) h]
      exact Nat.le_succ_of_le (ih _)
    · exact Nat.le_of_eq (congrArg Prod.snd (run_stop body fun hc => h hc.2))

/-- The number of passes: one more than the spent budget. -/
def passes (b : Nat) (s : σ) : Nat := b - (run body b s).2 + 1

theorem passes_again {b : Nat} {s : σ} (hb : b ≠ 0) (h : (body s).1 = true) :
    passes body b s = passes body (b - 1) (body s).2 + 1 := by
  have hle := run_budget_le body (b - 1) (body s).2
  rw [passes, passes, run_again body hb h]
  omega

theorem passes_stop {b : Nat} {s : σ} (h : ¬(b ≠ 0 ∧ (body s).1 = true)) : passes body b s = 1 := by
  rw [passes, run_stop body h, Nat.sub_self]

/-- The loop runs its body as often as `passes` says. -/
theorem run_eq_iterate (b : Nat) :
    ∀ s, (run body b s).1 = (fun t => (body t).2)^[passes body b s] s := by
  induction b with
  | zero => intro s; rfl
  | succ b ih =>
    intro s
    by_cases h : (body s).1 = true
    · rw [passes_again body (Nat.succ_ne_zero b) h, run_again body (Nat.succ_ne_zero b) h]
      exact ih _
    · have hstop : ¬(b + 1 ≠ 0 ∧ (body s).1 = true) := fun hc => h hc.2
      rw [passes_stop body hstop, run_stop body hstop]
      rfl

/-- The loop has spent `n` units of its budget if the first `n` passes ask for another one. -/
theorem le_spent_iff {b n : Nat} (hn : n ≤ b) (s : σ) :
    n ≤ b - (run body b s).2 ↔ ∀ k < n, (body ((fun t => (body t).2)^[k] s)).1 = true := by
  induction n generalizing b s with
  | zero => exact ⟨fun _ k hk => absurd hk (Nat.not_lt_zero k), fun _ => Nat.zero_le _⟩
  | succ n ih =>
    obtain ⟨b, rfl⟩ := Nat.exists_eq_succ_of_ne_zero (Nat.ne_of_gt (Nat.lt_of_lt_of_le (Nat.succ_pos n) hn))
    by_cases h : (body s).1 = true
    · have hle := run_budget_le body b (body s).2
      rw [Nat.forall_lt_succ_left, run_again body (Nat.succ_ne_zero b) h, Nat.succ_sub_one]
      have hrest := ih (Nat.le_of_succ_le_succ hn) (body s).2
      constructor
      · intro hspent
        exact ⟨h, hrest.mp (by omega)⟩
      · intro hasks
        have hspent := hrest.mpr hasks.2
        omega
    · rw [run_stop body fun hc => h hc.2, Nat.sub_self]
      exact ⟨fun hspent => absurd hspent (Nat.not_succ_le_zero n),
        fun hasks => absurd (hasks 0 (Nat.succ_pos n)) h⟩

/-- A projection that the body respects is respected by the loop. -/
theorem run_project {body' : τ → Bool × τ} (π : σ → τ)
    (h : ∀ s, body' (π s) = ((body s).1, π (body s).2)) (b : Nat) :
    ∀ s, run body' b (π s) = (π (run body b s).1, (run body b s).2) := by
  induction b with
  | zero => intro s; simp only [run, h]
  | succ b ih =>
    intro s
    simp only [run, h]
    by_cases hs : (body s).1 = true
    · rw [if_pos hs, if_pos hs, ih]
    · rw [if_neg hs, if_neg hs]

/-- **Simulation.** `T` relates configurations of another system, with a cost that
adds up along paths. If one pass of it leads at cost `again` from the head of the loop
back to the head, or at cost `stop` out of it, as the body and the budget decide, then
the system runs the whole loop, and pays `again` once for every unit of the budget spent. -/
theorem run_simulated {K : Type*} [AddCommMonoid K] {T : K → C → C → Prop}
    (At Done : Nat → σ → C → Prop) {again stop : K}
    (htrans : ∀ {k l a b c}, T k a b → T l b c → T (k + l) a c)
    (hagain : ∀ b s c, At b s c → b ≠ 0 → (body s).1 = true →
      ∃ c', T again c c' ∧ At (b - 1) (body s).2 c')
    (hstop : ∀ b s c, At b s c → ¬(b ≠ 0 ∧ (body s).1 = true) →
      ∃ c', T stop c c' ∧ Done b (body s).2 c') (b : Nat) :
    ∀ s c, At b s c →
      ∃ c', T ((b - (run body b s).2) • again + stop) c c' ∧
        Done (run body b s).2 (run body b s).1 c' := by
  induction b with
  | zero =>
    intro s c hc
    have hz : ¬(0 ≠ 0 ∧ (body s).1 = true) := fun hc => hc.1 rfl
    rw [run_stop body hz, Nat.sub_self, zero_nsmul, zero_add]
    exact hstop 0 s c hc hz
  | succ b ih =>
    intro s c hc
    by_cases h : (body s).1 = true
    · obtain ⟨c₁, hT₁, hat⟩ := hagain (b + 1) s c hc (Nat.succ_ne_zero b) h
      obtain ⟨c₂, hT₂, hdone⟩ := ih _ c₁ hat
      have hle := run_budget_le body b (body s).2
      have hspent : b + 1 - (run body b (body s).2).2 = b - (run body b (body s).2).2 + 1 := by omega
      rw [run_again body (Nat.succ_ne_zero b) h, Nat.succ_sub_one, hspent, succ_nsmul',
        add_assoc]
      exact ⟨c₂, htrans hT₁ hT₂, hdone⟩
    · have hstop' : ¬(b + 1 ≠ 0 ∧ (body s).1 = true) := fun hc => h hc.2
      rw [run_stop body hstop', Nat.sub_self, zero_nsmul, zero_add]
      exact hstop (b + 1) s c hc hstop'

end BoundedLoop
