import Mathlib.Data.BitVec
import Mathlib.Data.Fintype.EquivFin
import Mathlib.Data.Nat.Bitwise
import Mathlib.Data.Nat.Prime.Basic
import Mathlib.Algebra.Order.Ring.Nat
import Mathlib.Tactic.Common

/-!
# Trailing zeros of a word

The count is the largest power of two, up to the width, that divides the word. An odd
factor is coprime to that power, so it does not change the count of a product, not even
when the product wraps around.
-/

namespace TrailingZeros

variable {w : Nat}

/-- The number of trailing zero bits; all `w` of them for zero. -/
def trailingZeros (v : BitVec w) : Nat := v.ctz.toNat

theorem two_pow_dvd_iff (n k : Nat) : 2 ^ k ∣ n ↔ ∀ i < k, n.testBit i = false := by
  rw [Nat.dvd_iff_mod_eq_zero]
  constructor
  · intro h i hi
    have hbit := congrArg (Nat.testBit · i) h
    simpa [Nat.testBit_mod_two_pow, hi] using hbit
  · intro h
    apply Nat.eq_of_testBit_eq
    intro i
    rw [Nat.testBit_mod_two_pow, Nat.zero_testBit]
    by_cases hi : i < k
    · rw [h i hi, Bool.and_false]
    · rw [decide_eq_false hi, Bool.false_and]

theorem trailingZeros_lt_iff (v : BitVec w) : trailingZeros v < w ↔ v ≠ 0#w := by
  rw [← BitVec.ctz_lt_iff_ne_zero, BitVec.lt_def]
  have hw : ((w : BitVec w)).toNat = w := by
    simp [Nat.mod_eq_of_lt Nat.lt_two_pow_self]
  rw [hw]
  rfl

theorem trailingZeros_le (v : BitVec w) : trailingZeros v ≤ w := by
  have h : v.ctz ≤ (w : BitVec w) := by
    rw [BitVec.ctz_eq_reverse_clz]
    exact BitVec.clz_le
  have hw : ((w : BitVec w)).toNat = w := by
    simp [Nat.mod_eq_of_lt Nat.lt_two_pow_self]
  rw [BitVec.le_def, hw] at h
  exact h

theorem le_trailingZeros_iff (v : BitVec w) {k : Nat} (hk : k ≤ w) :
    k ≤ trailingZeros v ↔ 2 ^ k ∣ v.toNat := by
  rw [two_pow_dvd_iff]
  constructor
  · intro h i hi
    have hlt : i < v.ctz.toNat := hi.trans_le h
    exact BitVec.getLsbD_false_of_lt_ctz hlt
  · intro h
    by_contra hlt
    have hne : v ≠ 0#w := (trailingZeros_lt_iff v).mp ((not_le.mp hlt).trans_le hk)
    have hbit : v.getLsbD (trailingZeros v) = true := BitVec.getLsbD_true_ctz_of_ne_zero hne
    rw [BitVec.getLsbD, h _ (not_le.mp hlt)] at hbit
    cases hbit

/-- **Odd factors.** They leave the count alone. -/
theorem trailingZeros_mul (u v : BitVec w) (hu : u.toNat % 2 = 1) :
    trailingZeros (u * v) = trailingZeros v := by
  have hdvd (k : Nat) (hk : k ≤ w) : k ≤ trailingZeros (u * v) ↔ k ≤ trailingZeros v := by
    rw [le_trailingZeros_iff _ hk, le_trailingZeros_iff _ hk, BitVec.toNat_mul,
      Nat.dvd_mod_iff (pow_dvd_pow 2 hk)]
    have hcop : Nat.Coprime (2 ^ k) u.toNat :=
      Nat.Coprime.pow_left k (Nat.coprime_two_left.mpr (Nat.odd_iff.mpr hu))
    exact ⟨hcop.dvd_of_dvd_mul_left, fun h => Dvd.dvd.mul_left h _⟩
  exact le_antisymm ((hdvd _ (trailingZeros_le _)).mp le_rfl)
    ((hdvd _ (trailingZeros_le _)).mpr le_rfl)

theorem trailingZeros_zero : trailingZeros (0 : BitVec w) = w := by
  by_contra hne
  exact (trailingZeros_lt_iff _).mp (lt_of_le_of_ne (trailingZeros_le _) hne) rfl

/-- A product with an odd factor is zero only if the other factor is. -/
theorem eq_zero_of_mul_eq_zero {u v : BitVec w} (hu : u.toNat % 2 = 1) (h : u * v = 0) : v = 0 := by
  by_contra hne
  have hlt := (trailingZeros_lt_iff v).mpr hne
  rw [← trailingZeros_mul u v hu, h, trailingZeros_zero] at hlt
  exact Nat.lt_irrefl w hlt

theorem mul_left_injective_of_odd {u : BitVec w} (hu : u.toNat % 2 = 1) :
    Function.Injective fun v : BitVec w => v * u := by
  intro a b h
  have hsub : u * (a - b) = 0 := by
    rw [mul_sub, mul_comm u a, mul_comm u b]
    exact sub_eq_zero.mpr h
  exact sub_eq_zero.mp (eq_zero_of_mul_eq_zero hu hsub)

instance finite_bitVec : Finite (BitVec w) := .of_equiv _ (BitVec.equivFin (m := w)).symm.toEquiv

end TrailingZeros
