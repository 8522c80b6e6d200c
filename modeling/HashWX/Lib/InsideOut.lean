import HashWX.Lib.FinArray
import HashWX.Lib.ForLoop
import Mathlib.GroupTheory.Perm.Basic
import Mathlib.Logic.Equiv.Basic
import Mathlib.Tactic.Common

/-!
# The inside-out shuffle

The shuffle grows a permuted prefix: slot `i` joins it by taking the value of a
selected slot `j`, which receives `i`. On the permutation that the prefix holds this
is the composition with the transposition of `i` and `j`.
-/

namespace InsideOut

variable {n : Nat}

/-- One iteration: slot `i` is initialised, takes the value of slot `j`, and slot `j`
receives `i`. -/
def insert (a : Vector Nat n) (i j : Fin n) : Vector Nat n :=
  let a := a.setFin i i
  let a := a.setFin i a[j]
  a.setFin j i

theorem insert_get (a : Vector Nat n) (i j x : Fin n) :
    (insert a i j)[x] = if x = j then i.val else if x = i then a[j] else a[x] := by
  simp only [insert, Vector.getElem_fin, Vector.getElem_set, Fin.ext_iff, eq_comm (a := x.val)]
  by_cases hj : j.val = x.val
  · rw [if_pos hj, if_pos hj]
  · by_cases hi : i.val = j.val
    · have hx : i.val ≠ x.val := fun h => hj (hi.symm.trans h)
      rw [if_neg hj, if_neg hj, if_neg hx, if_neg hx, if_neg hx]
    · simp only [if_neg hj, if_neg hi]
      by_cases hx : i.val = x.val
      · rw [if_pos hx, if_pos hx]
      · rw [if_neg hx, if_neg hx, if_neg hx]

/-- The slots up to `k` hold the values of `σ`, which moves no later slot. -/
structure Tracks (k : Nat) (a : Vector Nat n) (σ : Equiv.Perm (Fin n)) : Prop where
  values : ∀ x : Fin n, x.val ≤ k → a[x] = (σ x).val
  fixed : ∀ x : Fin n, k < x.val → σ x = x

/-- The array before the first iteration: only slot 0 is written. -/
theorem tracks_one (a : Vector Nat (n + 1)) : Tracks 0 (a.set 0 0) 1 := by
  refine ⟨fun x hx => ?_, fun x _ => rfl⟩
  obtain rfl : x = 0 := Fin.ext (by simpa using hx)
  simp [Vector.getElem_fin]

theorem Tracks.insert {k : Nat} {a : Vector Nat n} {σ : Equiv.Perm (Fin n)} (h : Tracks k a σ)
    {i j : Fin n} (hi : i.val = k + 1) (hj : j.val ≤ k + 1) :
    Tracks (k + 1) (insert a i j) (σ * Equiv.swap i j) := by
  have hfix : σ i = i := h.fixed i (by omega)
  refine ⟨fun x hx => ?_, fun x hx => ?_⟩
  · rw [insert_get]
    by_cases hxj : x = j
    · rw [if_pos hxj, hxj, Equiv.Perm.mul_apply, Equiv.swap_apply_right, hfix]
    · rw [if_neg hxj]
      by_cases hxi : x = i
      · have hne : j.val ≠ x.val := fun he => hxj (Fin.ext he.symm)
        rw [if_pos hxi, hxi, Equiv.Perm.mul_apply, Equiv.swap_apply_left]
        exact h.values j (by omega)
      · have hne : x.val ≠ i.val := fun he => hxi (Fin.ext he)
        rw [if_neg hxi, Equiv.Perm.mul_apply, Equiv.swap_apply_of_ne_of_ne hxi hxj]
        exact h.values x (by omega)
  · have hxi : x ≠ i := fun he => by subst he; omega
    have hxj : x ≠ j := fun he => by subst he; omega
    rw [Equiv.Perm.mul_apply, Equiv.swap_apply_of_ne_of_ne hxi hxj]
    exact h.fixed x (by omega)

/-! ## The permutation as a product of transpositions -/

open ForLoop

/-- The permutation after `k` iterations, where iteration `i` handles slot `i + 1` and
selects slot `j i`. -/
def product {k : Nat} (x j : Fin k → Fin n) : Equiv.Perm (Fin n) :=
  forLoop k (fun σ i => σ * Equiv.swap (x i) (j i)) 1

/-- The selected slot belongs to the prefix. -/
def InPrefix {k : Nat} (j : Fin k → Fin n) : Prop := ∀ i, (j i).val ≤ i + 1

theorem product_succ {k : Nat} (x j : Fin (k + 1) → Fin n) :
    product x j = product (fun i => x i.castSucc) (fun i => j i.castSucc) *
      Equiv.swap (x (Fin.last k)) (j (Fin.last k)) := rfl

theorem InPrefix.castSucc {k : Nat} {j : Fin (k + 1) → Fin n} (h : InPrefix j) :
    InPrefix fun i => j i.castSucc := fun i => h i.castSucc

section Product

variable {k : Nat}

theorem product_fixed {x j : Fin k → Fin n} (hx : ∀ i, (x i).val = i + 1) (hj : InPrefix j) :
    ∀ y : Fin n, k < y.val → product x j y = y := by
  induction k with
  | zero => exact fun _ _ => rfl
  | succ k ih =>
    intro y hy
    have hne : y ≠ x (Fin.last k) := by
      rintro rfl
      have := hx (Fin.last k)
      rw [Fin.val_last] at this
      omega
    have hne' : y ≠ j (Fin.last k) := by
      rintro rfl
      have := hj (Fin.last k)
      rw [Fin.val_last] at this
      omega
    rw [product_succ, Equiv.Perm.mul_apply, Equiv.swap_apply_of_ne_of_ne hne hne']
    exact ih (fun i => hx i.castSucc) hj.castSucc y (by omega)

/-- The last step can be undone: the slot it selected is where the permutation takes the
value of the new slot. -/
theorem product_select {x j : Fin (k + 1) → Fin n} (hx : ∀ i, (x i).val = i + 1) (hj : InPrefix j) :
    product x j (j (Fin.last k)) = x (Fin.last k) := by
  have hlast : k < (x (Fin.last k)).val := by
    rw [hx, Fin.val_last]
    exact Nat.lt_succ_self k
  rw [product_succ, Equiv.Perm.mul_apply, Equiv.swap_apply_right]
  exact product_fixed (fun i => hx i.castSucc) hj.castSucc _ hlast

/-- Different selections give different permutations. -/
theorem product_injective {x j j' : Fin k → Fin n} (hx : ∀ i, (x i).val = i + 1) (hj : InPrefix j)
    (hj' : InPrefix j') (h : product x j = product x j') : j = j' := by
  induction k with
  | zero => exact funext fun i => i.elim0
  | succ k ih =>
    have hlast : j (Fin.last k) = j' (Fin.last k) := by
      apply (product x j).injective
      rw [product_select hx hj, h, product_select hx hj']
    rw [product_succ, product_succ, hlast] at h
    have hinit := ih (fun i => hx i.castSucc) hj.castSucc hj'.castSucc (mul_right_cancel h)
    funext i
    induction i using Fin.lastCases with
    | last => exact hlast
    | cast i => exact congrFun hinit i

/-- Every permutation of the prefix is the product of a selection: the last selected slot is
the preimage of the new slot, and the transposition leaves a permutation of the shorter
prefix. -/
theorem product_surjective {x : Fin k → Fin n} (hx : ∀ i, (x i).val = i + 1)
    (σ : Equiv.Perm (Fin n)) (hσ : ∀ y : Fin n, k < y.val → σ y = y) :
    ∃ j : Fin k → Fin n, InPrefix j ∧ product x j = σ := by
  induction k generalizing σ with
  | zero =>
    refine ⟨Fin.elim0, fun i => i.elim0, Equiv.ext fun y => ?_⟩
    show y = σ y
    rcases Nat.eq_zero_or_pos y.val with h0 | hpos
    · rcases Nat.eq_zero_or_pos (σ y).val with h0' | hpos'
      · exact Fin.ext (h0.trans h0'.symm)
      · exact (σ.injective (hσ (σ y) hpos')).symm
    · exact (hσ y hpos).symm
  | succ k ih =>
    have hlast : (x (Fin.last k)).val = k + 1 := hx (Fin.last k)
    have hpre : (σ.symm (x (Fin.last k))).val ≤ k + 1 := by
      by_contra hgt
      have hfix := hσ _ (not_le.mp hgt)
      rw [Equiv.apply_symm_apply] at hfix
      rw [← hfix, hlast] at hgt
      exact hgt le_rfl
    obtain ⟨j, hj, hprod⟩ := ih (fun i => hx i.castSucc)
      (σ * Equiv.swap (x (Fin.last k)) (σ.symm (x (Fin.last k)))) fun y hy => by
        rcases eq_or_ne y (x (Fin.last k)) with rfl | hne
        · rw [Equiv.Perm.mul_apply, Equiv.swap_apply_left, Equiv.apply_symm_apply]
        · have hy' : k + 1 < y.val := by
            have : y.val ≠ k + 1 := fun h => hne (Fin.ext (h.trans hlast.symm))
            omega
          have hne' : y ≠ σ.symm (x (Fin.last k)) := by
            rintro rfl
            omega
          rw [Equiv.Perm.mul_apply, Equiv.swap_apply_of_ne_of_ne hne hne']
          exact hσ y hy'
    refine ⟨Fin.snoc j (σ.symm (x (Fin.last k))), fun i => ?_, ?_⟩
    · induction i using Fin.lastCases with
      | last => simpa using hpre
      | cast i => simpa using hj i
    · rw [product_succ]
      simp only [Fin.snoc_castSucc, Fin.snoc_last]
      rw [hprod, mul_assoc, Equiv.swap_mul_self, mul_one]

end Product

end InsideOut
