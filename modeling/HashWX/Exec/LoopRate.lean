import HashWX.Exec.Branching
import HashWX.Lib.Halves

/-!
# How often the programs loop

The branch of a program tests one bit of the RMCG register. Over all values of that register
exactly one half takes the first branch, and of these exactly one half takes the second, in
either mode and whatever the other registers hold.
-/

namespace HashWX

open Siphash BitRotate TrailingZeros

/-! ## The first passes -/

section Counts

variable (x : Rmcg)

/-- The bit of the product that a rotation moves to bit 5. -/
def Rmcg.tested : Nat := (5 + x.imm) % 64

theorem Rmcg.tested_ne : x.tested ≠ 5 := by
  have hpos := x.imm_pos
  have hle := x.imm_le
  unfold Rmcg.tested
  omega

theorem Rmcg.tested_lt : x.tested < 64 := Nat.mod_lt _ (by decide)

theorem Rmcg.next_bit (c : Consts) (m : Word) : (x.next c m).getLsbD 5 = (m * c x.src).getLsbD x.tested := by
  have hle := x.imm_le
  rw [Rmcg.next, getLsbD_rotr _ (by omega) (by decide), Rmcg.tested]
  congr 1
  by_cases h : 5 < 64 - x.imm
  · rw [if_pos h, Nat.mod_eq_of_lt (by omega), Nat.add_comm]
  · rw [if_neg h]
    omega

theorem card_word : Nat.card Word = 2 ^ 64 := by
  rw [Nat.card_congr (BitVec.equivFin (m := 64)).toEquiv, Nat.card_fin]

theorem add_twoPow_mul (w d : Word) (j : Nat) :
    (w + BitVec.twoPow 64 j) * d = w * d + BitVec.twoPow 64 j * d := add_mul w _ d

/-- A bit of the product with an odd number is clear for one half of the values. -/
theorem card_bit {d : Word} (hd : d.toNat % 2 = 1) {j : Nat} (hj : j < 64) :
    Nat.card {w : Word // (w * d).getLsbD j = false} = 2 ^ 63 := by
  have hhalf := Halves.card_half_add (P := fun w : Word => (w * d).getLsbD j = false) (Q := fun _ => True)
    (BitVec.twoPow 64 j) (fun _ => Iff.rfl) fun w _ => by
      rw [add_twoPow_mul, Halves.getLsbD_add_same _ _ hj hd]
      simp
  simp only [true_and] at hhalf
  have hall : Nat.card {_w : Word // True} = 2 ^ 64 := by
    rw [Nat.card_congr (Equiv.subtypeUnivEquiv fun _ => trivial), card_word]
  omega

theorem card_five : Nat.card {w : Word // w.getLsbD 5 = false} = 2 ^ 63 := by
  simpa only [mul_one] using card_bit (d := 1) rfl (show 5 < 64 by decide)

/-- Of the values with bit 5 clear, one half has it clear after another pass, too. -/
theorem Rmcg.card_bits {c : Consts} (hc : (c x.src).toNat % 2 = 1) :
    Nat.card {w : Word // w.getLsbD 5 = false ∧ (x.next c w).getLsbD 5 = false} = 2 ^ 62 := by
  simp only [x.next_bit]
  have hne := x.tested_ne
  have hlt := x.tested_lt
  generalize x.tested = j at hne hlt
  generalize c x.src = d at hc
  have hone (w : Word) (k : Nat) : w + BitVec.twoPow 64 k = w + BitVec.twoPow 64 k * 1 := by rw [mul_one]
  rcases Nat.lt_or_gt_of_ne hne with hbelow | habove
  · -- bit 5 of the value flips, and the lower bits of the product stay
    have hhalf := Halves.card_half_add (P := fun w : Word => w.getLsbD 5 = false)
      (Q := fun w => (w * d).getLsbD j = false) (BitVec.twoPow 64 5)
      (fun w => by rw [add_twoPow_mul, Halves.getLsbD_add_lower _ _ hbelow hlt])
      fun w _ => by
        rw [hone, Halves.getLsbD_add_same _ _ (by decide) (by decide)]
        simp
    rw [card_bit hc hlt] at hhalf
    simp only [and_comm] at hhalf
    omega
  · -- the tested bit of the product flips, and the lower bits of the value stay
    have hhalf := Halves.card_half_add (P := fun w : Word => (w * d).getLsbD j = false)
      (Q := fun w => w.getLsbD 5 = false) (BitVec.twoPow 64 j)
      (fun w => by rw [hone, Halves.getLsbD_add_lower _ _ habove (by decide)])
      fun w _ => by
        rw [add_twoPow_mul, Halves.getLsbD_add_same _ _ hlt hc]
        simp
    rw [card_five] at hhalf
    omega

/-- Values of the register from which the first `n` passes ask for another one. -/
theorem Rmcg.card_asking {c : Consts} (hc : (c x.src).toNat % 2 = 1) {n : Nat} (hn : n ≤ 2) :
    Nat.card {v : Word // ∀ k < n, (x.pass c ((fun m => (x.pass c m).2)^[k] v)).1 = true} = 2 ^ (64 - n) := by
  have hasks (m : Word) : (x.pass c m).1 = true ↔ (x.next c m).getLsbD 5 = false := by
    simp [Rmcg.pass]
  have hbijective : Function.Bijective (x.next c) :=
    Finite.injective_iff_bijective.mp (x.next_injective hc)
  match n, hn with
  | 0, _ =>
    simp only [Nat.not_lt_zero, false_imp_iff, implies_true]
    rw [Nat.card_congr (Equiv.subtypeUnivEquiv fun _ => trivial), card_word]
  | 1, _ =>
    simp only [Nat.forall_lt_succ_left, Nat.not_lt_zero, false_imp_iff, implies_true, and_true, hasks]
    rw [← card_five]
    exact Nat.card_congr ((Equiv.ofBijective _ hbijective).subtypeEquiv fun v => Iff.rfl)
  | 2, _ =>
    simp only [Nat.forall_lt_succ_left, Nat.not_lt_zero, false_imp_iff, implies_true, and_true, hasks]
    rw [← x.card_bits hc]
    exact Nat.card_congr ((Equiv.ofBijective _ hbijective).subtypeEquiv fun v => Iff.rfl)

end Counts

/-! ## Runs of a program -/

/-- The branches that a run takes are those of the projected loop. -/
theorem Layout.Describes.exists_executes_iff {t : Layout} {program : Program} (h : t.Describes program)
    (hs : t.Shuffled) (mem : Option Scratchpad) (r : Regs) (b n : Nat) :
    (∃ k s, Executes program mem r b k s ∧ n ≤ k) ↔
      n ≤ b - (BoundedLoop.run (t.rmcg0.pass (constsOf r)) b (fileOf r t.rmcg0.dst)).2 := by
  obtain ⟨s', he', hbudget', -⟩ := executes h hs mem r b
  constructor
  · intro hruns
    obtain ⟨k, s, he, hn⟩ := hruns
    obtain rfl := Option.some.inj (he.returns.symm.trans he'.returns)
    have hk := he.budget
    have hk' := he'.budget
    omega
  · exact fun hn => ⟨_, s', he', hn⟩

/-- **Half of the values loop.** For every generated program, in either mode, with R8 and R9 odd and
whatever the other registers hold: exactly one half of the values of the RMCG register take a
branch, and exactly one quarter take two, if the budget is not smaller. -/
theorem loop_rate {σ : Type} (next : σ → Word × σ) (memory : ProgramList) (gen : σ) (i : Fin 32) :
    let program := (programListGenerate next memory gen).1[i]
    ∃ dst : Fin 8, program[0].dst = dst ∧
      ∀ (mem : Option Scratchpad) (f : RegFile) (c : Consts), (∀ j, (c j).toNat % 2 = 1) →
        ∀ b n, n ≤ 2 → n ≤ b →
          Nat.card {v : Word // ∃ k s, Executes program mem (regs (Function.update f dst v) c) b k s ∧ n ≤ k} =
            2 ^ (64 - n) := by
  intro program
  obtain ⟨t, hs, h⟩ := programListGenerate_describes next memory gen i
  have hdst : program[0].dst = t.rmcg0.dst := congrArg Instruction.dst h.code0
  refine ⟨t.rmcg0.dst, hdst, fun mem f c hc b n hn hb => ?_⟩
  rw [← t.rmcg0.card_asking (hc _) hn]
  refine Nat.card_congr (Equiv.subtypeEquivRight fun v => ?_)
  have hfile : fileOf (regs (Function.update f t.rmcg0.dst v) c) t.rmcg0.dst = v :=
    (regs_file _ c t.rmcg0.dst).trans (Function.update_self _ _ _)
  have hconsts : constsOf (regs (Function.update f t.rmcg0.dst v) c) = c := funext (regs_const _ c)
  rw [h.exists_executes_iff hs, hfile, hconsts]
  exact BoundedLoop.le_spent_iff _ hb v

/-- Two branches of a program, in the first phase. -/
theorem loop_rate_zero : ∃ dst : Fin 8, zeroList[(0 : Fin 32)][0].dst = dst ∧
    Nat.card {v : Word // ∃ k s,
      Executes zeroList[(0 : Fin 32)] none (regs (Function.update (fun _ => 0) dst v) ![3, 5]) 32 k s ∧ 2 ≤ k} =
        2 ^ 62 := by
  obtain ⟨dst, hdst, hrate⟩ := loop_rate (fun _ : Unit => (0, ()))
    (.replicate 32 (.replicate 10 ⟨.halt, 0, 0, 0⟩)) () 0
  have hodd (j : Fin 2) : ((![3, 5] : Consts) j).toNat % 2 = 1 := by
    match j with
    | 0 | 1 => rfl
  exact ⟨dst, hdst, hrate none (fun _ => 0) ![3, 5] hodd 32 2 le_rfl (by decide)⟩

end HashWX
