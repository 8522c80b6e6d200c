import Mathlib.Algebra.Group.Units.Equiv
import Mathlib.Data.BitVec
import Mathlib.SetTheory.Cardinal.Finite

/-!
# Counting halves

If a permutation of the values with one property turns another property into its negation,
that one holds for one half of them. Additions of a power of two, times an odd number, are
such permutations for single bits.
-/

namespace Halves

theorem card_half {α : Type*} [Finite α] {P Q : α → Prop} (σ : Equiv.Perm α) (hQ : ∀ a, Q (σ a) ↔ Q a)
    (hP : ∀ a, Q a → (P (σ a) ↔ ¬P a)) : 2 * Nat.card {a // Q a ∧ P a} = Nat.card {a // Q a} := by
  classical
  have hflip : Nat.card {a // Q a ∧ P a} = Nat.card {a // Q a ∧ ¬P a} := by
    refine (Nat.card_congr (σ.subtypeEquiv fun a => ?_)).symm
    rw [hQ]
    exact and_congr_right fun ha => (hP a ha).symm
  have hsplit : Nat.card {a // Q a} = Nat.card {a // Q a ∧ P a} + Nat.card {a // Q a ∧ ¬P a} := by
    rw [← Nat.card_sum]
    refine Nat.card_congr ?_
    refine ((Equiv.sumCompl fun a : {a // Q a} => P a.val).symm.trans ?_)
    exact Equiv.sumCongr (Equiv.subtypeSubtypeEquivSubtypeInter Q P)
      (Equiv.subtypeSubtypeEquivSubtypeInter Q fun a => ¬P a)
  rw [hsplit, ← hflip, two_mul]

/-- The permutation that adds a constant. -/
theorem card_half_add {α : Type*} [AddGroup α] [Finite α] {P Q : α → Prop} (v : α) (hQ : ∀ a, Q (a + v) ↔ Q a)
    (hP : ∀ a, Q a → (P (a + v) ↔ ¬P a)) : 2 * Nat.card {a // Q a ∧ P a} = Nat.card {a // Q a} :=
  card_half (Equiv.addRight v) hQ hP

section Bits

variable {w : Nat} (x d : BitVec w) {i j : Nat}

theorem getLsbD_add_twoPow_mul (hi : i < w) : (x + BitVec.twoPow w j * d).getLsbD i =
    (x.toNat + 2 ^ j * d.toNat).testBit i := by
  have hmod : (x + BitVec.twoPow w j * d).toNat = (x.toNat + 2 ^ j * d.toNat) % 2 ^ w := by
    rw [BitVec.toNat_add, BitVec.toNat_mul, BitVec.toNat_twoPow, Nat.mod_mul_mod, Nat.add_mod_mod]
  rw [BitVec.getLsbD, hmod, Nat.testBit_mod_two_pow, decide_eq_true hi, Bool.true_and]

/-- The bits below the power do not change. -/
theorem getLsbD_add_lower (hij : i < j) (hi : i < w) :
    (x + BitVec.twoPow w j * d).getLsbD i = x.getLsbD i := by
  have hlow (n : Nat) : n.testBit i = (n % 2 ^ j).testBit i := by
    rw [Nat.testBit_mod_two_pow, decide_eq_true hij, Bool.true_and]
  rw [getLsbD_add_twoPow_mul x d hi, BitVec.getLsbD, hlow, Nat.add_mul_mod_self_left, ← hlow]

/-- The bit of the power flips. -/
theorem getLsbD_add_same (hj : j < w) (hd : d.toNat % 2 = 1) :
    (x + BitVec.twoPow w j * d).getLsbD j = !x.getLsbD j := by
  rw [getLsbD_add_twoPow_mul x d hj, BitVec.getLsbD, Nat.testBit_eq_decide_div_mod_eq,
    Nat.testBit_eq_decide_div_mod_eq, Nat.add_mul_div_left _ _ (Nat.two_pow_pos j)]
  rcases Nat.mod_two_eq_zero_or_one (x.toNat / 2 ^ j) with h | h
  · have hsum : (x.toNat / 2 ^ j + d.toNat) % 2 = 1 := by omega
    rw [hsum, h]
    rfl
  · have hsum : (x.toNat / 2 ^ j + d.toNat) % 2 = 0 := by omega
    rw [hsum, h]
    rfl

end Bits

end Halves
