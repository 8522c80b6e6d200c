import HashWX.Lib.TrailingZeros
import HashWX.Siphash.Injective
import Mathlib.Dynamics.PeriodicPts.Lemmas
import Mathlib.SetTheory.Cardinal.Finite

/-!
# The cycles of the generator

The mix is a permutation of finitely many states, so a generator that has started comes back
to its first block before it repeats any other one, and the streams of two salts either run
through the same cycle or have no block in common.
-/

/-! ## Iterates of a permutation -/

namespace Function

variable {α : Type*} [Finite α] {f : α → α}

theorem Injective.iterate_eq_iff (h : Injective f) (x : α) (m n : Nat) :
    f^[m] x = f^[n] x ↔ m % minimalPeriod f x = n % minimalPeriod f x := by
  have hpos := minimalPeriod_pos_of_mem_periodicPts (h.mem_periodicPts x)
  rw [← iterate_mod_minimalPeriod_eq (n := m), ← iterate_mod_minimalPeriod_eq (n := n)]
  exact iterate_eq_iterate_iff_of_lt_minimalPeriod (Nat.mod_lt m hpos) (Nat.mod_lt n hpos)

/-- Two orbits with a common point are shifts of one another. -/
theorem Injective.orbits (h : Injective f) (x y : α) :
    (∃ k, ∀ n, f^[n] y = f^[n + k] x) ∨ ∀ m n, f^[m] x ≠ f^[n] y := by
  by_cases hmeet : ∃ m n, f^[m] x = f^[n] y
  · obtain ⟨m, n, hmn⟩ := hmeet
    have hpos := minimalPeriod_pos_of_mem_periodicPts (h.mem_periodicPts y)
    have hperiod : (minimalPeriod f y * n) % minimalPeriod f y = 0 % minimalPeriod f y := by
      rw [Nat.mul_mod_right, Nat.zero_mod]
    have hle : n ≤ minimalPeriod f y * n := Nat.le_mul_of_pos_left n hpos
    have hreturn : f^[minimalPeriod f y * n - n + m] x = y := by
      rw [iterate_add_apply, hmn, ← iterate_add_apply, Nat.sub_add_cancel hle]
      exact (h.iterate_eq_iff y _ 0).mpr hperiod
    refine .inl ⟨minimalPeriod f y * n - n + m, fun k => ?_⟩
    rw [iterate_add_apply, hreturn]
  · exact .inr fun m n hmn => hmeet ⟨m, n, hmn⟩

end Function

namespace HashWX.Siphash

open Function

instance finite_sipState : Finite SipState := .of_injective _ SipState.word_injective

theorem card_sipState : Nat.card SipState ≤ 2 ^ 256 := by
  have hword : Nat.card Word = 2 ^ 64 := by
    rw [Nat.card_congr (BitVec.equivFin (m := 64)).toEquiv, Nat.card_fin]
  calc Nat.card SipState ≤ Nat.card (Fin 4 → Word) := Nat.card_le_card_of_injective _ SipState.word_injective
    _ = (2 ^ 64) ^ 4 := by rw [Nat.card_fun, hword, Nat.card_fin]
    _ = 2 ^ 256 := by rw [← pow_mul]

theorem outputBlock_eq_iff (key : SiphashKey) (a b : Word) (m n : Nat) :
    outputBlock key a m = outputBlock key b n ↔ block key a m = block key b n := by
  rw [outputBlock_eq, outputBlock_eq]
  constructor
  · intro h
    apply SipState.word_injective
    funext j
    have hj := congrFun h j.rev
    rwa [Fin.rev_rev] at hj
  · intro h
    rw [h]

/-- Equal blocks from some position on are equal outputs. -/
theorem output_of_block {key : SiphashKey} {a b : Word} {k : Nat}
    (h : ∀ q, block key b q = block key a (q + k)) (n : Nat) :
    OutputStream.output hashwxRngNext (hashwxRngInit key b) n =
      OutputStream.output hashwxRngNext (hashwxRngInit key a) (n + 4 * k) := by
  have hword : Fin.ofNat 4 (n + 4 * k) = Fin.ofNat 4 n := Fin.ext (by simp)
  have hdiv : (n + 4 * k) / 4 = n / 4 + k := by omega
  rw [output_init, output_init, hword, hdiv, h]

/-- **The generator runs in cycles.** For every key and salt the stream comes back to its first block
after at most `2 ^ 256` blocks, and until then no block occurs twice. For two salts with one key
either each stream is the other one from some block on, or no block occurs in both. -/
theorem stream_cycles (key : SiphashKey) :
    (∀ salt, ∃ p, 0 < p ∧ p ≤ 2 ^ 256 ∧
      (∀ m n, outputBlock key salt m = outputBlock key salt n ↔ m % p = n % p) ∧
      ∀ n, OutputStream.output hashwxRngNext (hashwxRngInit key salt) (n + 4 * p) =
        OutputStream.output hashwxRngNext (hashwxRngInit key salt) n) ∧
    ∀ a b, (∃ k, ∀ n, OutputStream.output hashwxRngNext (hashwxRngInit key b) n =
        OutputStream.output hashwxRngNext (hashwxRngInit key a) (n + 4 * k)) ∨
      ∀ m n, outputBlock key a m ≠ outputBlock key b n := by
  have hmix := (mixState_bijective key).injective
  refine ⟨fun salt => ?_, fun a b => ?_⟩
  · have hpos := minimalPeriod_pos_of_mem_periodicPts (hmix.mem_periodicPts (initState key salt))
    have hle : minimalPeriod (mixState key) (initState key salt) ≤ 2 ^ 256 := by
      have := Fintype.ofFinite SipState
      have hcard := minimalPeriod_le_card (f := mixState key) (x := initState key salt)
      rw [← Nat.card_eq_fintype_card] at hcard
      exact hcard.trans card_sipState
    refine ⟨_, hpos, hle, fun m n => ?_, fun n => ?_⟩
    · rw [outputBlock_eq_iff]
      exact hmix.iterate_eq_iff _ m n
    · refine (output_of_block (fun q => ?_) n).symm
      exact iterate_add_minimalPeriod_eq.symm
  · rcases hmix.orbits (initState key a) (initState key b) with ⟨k, hk⟩ | hdisjoint
    · exact .inl ⟨k, output_of_block hk⟩
    · refine .inr fun m n heq => hdisjoint m n ?_
      exact (outputBlock_eq_iff key a b m n).mp heq

end HashWX.Siphash
