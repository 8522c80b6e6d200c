import Mathlib.Algebra.Order.BigOperators.Ring.Finset
import Mathlib.Data.BitVec
import Mathlib.Data.Int.CardIntervalMod
import Mathlib.SetTheory.Cardinal.Finite

/-!
# Counting by remainders

A word that is reduced modulo a small number takes each remainder almost equally often: the
number of the words with one remainder, times the modulus, differs from the number of all
words by at most the modulus. Independent coordinates multiply their counts.
-/

namespace Residues

/-! ## One word -/

section Word

variable {w m r : Nat}

theorem card_mod (hr : r < m) : Nat.card {x : BitVec w // x.toNat % m = r} =
    2 ^ w / m + if r < 2 ^ w % m then 1 else 0 := by
  have hcongr : Nat.card {x : BitVec w // x.toNat % m = r} =
      Nat.card {k : Nat // k < 2 ^ w ∧ k ≡ r [MOD m]} := by
    refine Nat.card_congr
      { toFun := fun x => ⟨x.val.toNat, x.val.isLt, x.property.trans (Nat.mod_eq_of_lt hr).symm⟩
        invFun := fun k => ⟨BitVec.ofNat w k.val, ?_⟩
        left_inv := fun x => Subtype.ext ((BitVec.ofNat_toNat w x.val).trans (BitVec.setWidth_eq x.val))
        right_inv := fun k => Subtype.ext (Nat.mod_eq_of_lt k.property.1) }
    rw [BitVec.toNat_ofNat, Nat.mod_eq_of_lt k.property.1]
    exact Eq.trans k.property.2 (Nat.mod_eq_of_lt hr)
  have hcount : Nat.card {k : Nat // k < 2 ^ w ∧ k ≡ r [MOD m]} = Nat.count (· ≡ r [MOD m]) (2 ^ w) := by
    rw [Nat.count_eq_card_fintype]
    exact @Nat.card_eq_fintype_card _ (Nat.CountSet.fintype _ _)
  rw [hcongr, hcount, Nat.count_modEq_card _ (Nat.zero_lt_of_lt hr), Nat.mod_eq_of_lt hr]

/-- The remainders are almost equally frequent. -/
theorem card_mod_near (hr : r < m) : let n := Nat.card {x : BitVec w // x.toNat % m = r} * m
    2 ^ w - m ≤ n ∧ n ≤ 2 ^ w + m := by
  intro n
  have hdiv := Nat.div_add_mod (2 ^ w) m
  have hmod := Nat.mod_lt (2 ^ w) (Nat.zero_lt_of_lt hr)
  have hn : n = (2 ^ w / m + if r < 2 ^ w % m then 1 else 0) * m := congrArg (· * m) (card_mod hr)
  rw [Nat.add_mul, Nat.mul_comm (2 ^ w / m)] at hn
  by_cases hlt : r < 2 ^ w % m
  · rw [if_pos hlt, Nat.one_mul] at hn
    omega
  · rw [if_neg hlt, Nat.zero_mul] at hn
    omega

end Word

/-! ## Several words -/

theorem card_prod {α β : Type*} (P : α → Prop) (Q : β → Prop) :
    Nat.card {x : α × β // P x.1 ∧ Q x.2} = Nat.card {a // P a} * Nat.card {b // Q b} := by
  rw [Nat.card_congr Equiv.subtypeProdEquivProd, Nat.card_prod]

theorem card_pi {ι α : Type*} [Fintype ι] (P : ι → α → Prop) :
    Nat.card {g : ι → α // ∀ i, P i (g i)} = ∏ i, Nat.card {a // P i a} := by
  rw [Nat.card_congr Equiv.subtypePiEquivPi, Nat.card_pi]

/-- Bounds for each coordinate give bounds for all of them. -/
theorem card_pi_near {ι α : Type*} [Fintype ι] (P : ι → α → Prop) (m : ι → Nat) {low high : Nat}
    (h : ∀ i, low ≤ Nat.card {a // P i a} * m i ∧ Nat.card {a // P i a} * m i ≤ high) :
    let n := Nat.card {g : ι → α // ∀ i, P i (g i)} * ∏ i, m i
    low ^ Fintype.card ι ≤ n ∧ n ≤ high ^ Fintype.card ι := by
  intro n
  have hn : n = ∏ i, Nat.card {a // P i a} * m i := by
    rw [Finset.prod_mul_distrib, ← card_pi]
  rw [hn, Fintype.card, ← Finset.prod_const, ← Finset.prod_const]
  exact ⟨Finset.prod_le_prod (fun _ _ => Nat.zero_le _) fun i _ => (h i).1,
    Finset.prod_le_prod (fun _ _ => Nat.zero_le _) fun i _ => (h i).2⟩

end Residues
