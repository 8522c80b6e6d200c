import HashWX.Exec.Refinement
import HashWX.Lib.TrailingZeros
import Mathlib.SetTheory.Cardinal.Finite

/-!
# The finalisation is balanced

Word `v3` after a round is a permutation of the sum of `v0` and `v1` when the other words
are fixed. So the hash is a permutation of each of R0, R1, R4 and R5, and every hash has
equally many register files.
-/

namespace HashWX

open BitRotate
open Siphash

theorem sipround_v3 (v0 v1 v2 v3 : Word) :
    let x := rotl v3 16 ^^^ (v2 + v3)
    (sipround ⟨v0, v1, v2, v3⟩).v3 = rotl x 21 ^^^ (rotl (v0 + v1) 32 + x) := rfl

/-- The sum of the first two words is the only part of a round that the last one depends on. -/
theorem sipround_v3_eq_iff (v0 v1 u0 u1 v2 v3 : Word) :
    (sipround ⟨v0, v1, v2, v3⟩).v3 = (sipround ⟨u0, u1, v2, v3⟩).v3 ↔ v0 + v1 = u0 + u1 := by
  rw [sipround_v3, sipround_v3]
  constructor
  · intro h
    have hsum := (BitVec.add_left_inj _).mp ((BitVec.xor_right_inj _).mp h)
    exact rotl_injective (show 32 < 64 by decide) hsum
  · intro h
    rw [h]

theorem finalize_regs (f : RegFile) (c : Consts) : finalize (regs f c) =
    (sipround ⟨f 0, f 1, f 2, f 3⟩).v3 ^^^ (sipround ⟨f 4, f 5, f 6, f 7⟩).v3 ^^^ c 1 := rfl

section Finalize

variable {f g : RegFile} {c : Consts}

/-- Register files with the same upper half. -/
theorem finalize_eq_iff_lower (h2 : f 2 = g 2) (h3 : f 3 = g 3) (hupper : ∀ i ≥ 4, f i = g i) :
    finalize (regs f c) = finalize (regs g c) ↔ f 0 + f 1 = g 0 + g 1 := by
  rw [finalize_regs, finalize_regs, hupper 4 (by decide), hupper 5 (by decide), hupper 6 (by decide),
    hupper 7 (by decide), h2, h3, BitVec.xor_left_inj, BitVec.xor_left_inj, sipround_v3_eq_iff]

/-- Register files with the same lower half. -/
theorem finalize_eq_iff_upper (h6 : f 6 = g 6) (h7 : f 7 = g 7) (hlower : ∀ i < 4, f i = g i) :
    finalize (regs f c) = finalize (regs g c) ↔ f 4 + f 5 = g 4 + g 5 := by
  rw [finalize_regs, finalize_regs, hlower 0 (by decide), hlower 1 (by decide), hlower 2 (by decide),
    hlower 3 (by decide), h6, h7, BitVec.xor_left_inj, BitVec.xor_right_inj, sipround_v3_eq_iff]

end Finalize

/-- The registers that the hash is a permutation of. -/
def summands : List (Fin 8) := [0, 1, 4, 5]

theorem finalize_update_bijective (f : RegFile) (c : Consts) {i : Fin 8} (hi : i ∈ summands) :
    Function.Bijective fun v => finalize (regs (Function.update f i v) c) := by
  rw [← Finite.injective_iff_bijective]
  intro v w h
  have hupdate (j : Fin 8) (hj : j ≠ i) : Function.update f i v j = Function.update f i w j := by
    rw [Function.update_of_ne hj, Function.update_of_ne hj]
  have hupper (hi : i < 4) : ∀ j ≥ 4, Function.update f i v j = Function.update f i w j := fun j hj =>
    hupdate j (hi.trans_le hj).ne'
  have hlower (hi : 4 ≤ i) : ∀ j < 4, Function.update f i v j = Function.update f i w j := fun j hj =>
    hupdate j (hj.trans_le hi).ne
  simp only [summands, List.mem_cons, List.not_mem_nil, or_false] at hi
  rcases hi with rfl | rfl | rfl | rfl
  · have hsum :=
      (finalize_eq_iff_lower (hupdate 2 (by decide)) (hupdate 3 (by decide)) (hupper (by decide))).mp h
    rw [Function.update_self, Function.update_self, hupdate 1 (by decide)] at hsum
    exact (BitVec.add_left_inj _).mp hsum
  · have hsum :=
      (finalize_eq_iff_lower (hupdate 2 (by decide)) (hupdate 3 (by decide)) (hupper (by decide))).mp h
    rw [Function.update_self, Function.update_self, hupdate 0 (by decide)] at hsum
    exact (BitVec.add_right_inj _).mp hsum
  · have hsum :=
      (finalize_eq_iff_upper (hupdate 6 (by decide)) (hupdate 7 (by decide)) (hlower (by decide))).mp h
    rw [Function.update_self, Function.update_self, hupdate 5 (by decide)] at hsum
    exact (BitVec.add_left_inj _).mp hsum
  · have hsum :=
      (finalize_eq_iff_upper (hupdate 6 (by decide)) (hupdate 7 (by decide)) (hlower (by decide))).mp h
    rw [Function.update_self, Function.update_self, hupdate 4 (by decide)] at hsum
    exact (BitVec.add_right_inj _).mp hsum

/-- The registers R1-R7 with a value for R0. -/
def withR0 (g : Fin 7 → Word) (v : Word) : RegFile := Function.update (Fin.cons 0 g) 0 v

theorem withR0_tail (f : RegFile) : withR0 (fun i => f i.succ) (f 0) = f := by
  funext i
  cases i using Fin.cases with
  | zero => exact Function.update_self _ _ _
  | succ i => exact Function.update_of_ne (Fin.succ_ne_zero i) _ _

theorem withR0_succ (g : Fin 7 → Word) (v : Word) (i : Fin 7) : withR0 g v i.succ = g i :=
  Function.update_of_ne (Fin.succ_ne_zero i) _ _

/-- The last seven registers are free, and R0 is then determined. -/
theorem card_finalize (c : Consts) (hash : Word) :
    Nat.card {f : RegFile // finalize (regs f c) = hash} = 2 ^ 448 := by
  have hr0 (g : Fin 7 → Word) := finalize_update_bijective (Fin.cons 0 g) c (i := 0) (by decide)
  have hbijective : Function.Bijective
      fun (f : {f : RegFile // finalize (regs f c) = hash}) (i : Fin 7) => f.val i.succ := by
    constructor
    · intro f g htail
      obtain ⟨f, hf⟩ := f
      obtain ⟨g, hg⟩ := g
      dsimp only at htail
      rw [← withR0_tail f, htail] at hf
      rw [← withR0_tail g] at hg
      have hzero : f 0 = g 0 := (hr0 _).injective (hf.trans hg.symm)
      apply Subtype.ext
      show f = g
      rw [← withR0_tail f, ← withR0_tail g, htail, hzero]
    · intro g
      obtain ⟨v, hv⟩ := (hr0 g).surjective hash
      exact ⟨⟨withR0 g v, hv⟩, funext (withR0_succ g v)⟩
  have hword : Nat.card Word = 2 ^ 64 := by
    rw [Nat.card_congr (BitVec.equivFin (m := 64)).toEquiv, Nat.card_fin]
  rw [Nat.card_congr (Equiv.ofBijective _ hbijective), Nat.card_fun, hword, Nat.card_fin, ← pow_mul]

/-- **The finalisation is balanced.** With the other registers fixed, the hash is a permutation of R0,
of R1, of R4 and of R5; each of the two pairs enters through its sum alone; and each of the hashes
has `2 ^ 448` register files. -/
theorem finalize_balanced (c : Consts) :
    (∀ f, ∀ i ∈ summands, Function.Bijective fun v => finalize (regs (Function.update f i v) c)) ∧
    (∀ f g : RegFile, (∀ i, i ∉ summands → f i = g i) → f 0 + f 1 = g 0 + g 1 → f 4 + f 5 = g 4 + g 5 →
      finalize (regs f c) = finalize (regs g c)) ∧
    ∀ hash, Nat.card {f : RegFile // finalize (regs f c) = hash} = 2 ^ 448 := by
  refine ⟨fun f i hi => finalize_update_bijective f c hi, fun f g hrest h01 h45 => ?_, card_finalize c⟩
  rw [finalize_regs, finalize_regs, hrest 2 (by decide), hrest 3 (by decide), hrest 6 (by decide),
    hrest 7 (by decide), (sipround_v3_eq_iff _ _ _ _ _ _).mpr h01, (sipround_v3_eq_iff _ _ _ _ _ _).mpr h45]

end HashWX
