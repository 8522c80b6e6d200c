import HashWX.Exec.Interpreter
import HashWX.Siphash.Injective

/-!
# Distinct nonces

The registers that a hash starts from are the first two output blocks of the generator
that the nonce salts, so two nonces share neither half of them.
-/

namespace HashWX

open Siphash

/-- R0-R3, and R4-R7. -/
def lowerHalf (r : Regs) : Fin 4 → Word := fun j => r[j.val]
def upperHalf (r : Regs) : Fin 4 → Word := fun j => r[4 + j.val]

theorem lowerHalf_initRegs (key : SiphashKey) (input : Word) :
    lowerHalf (initRegs key input) = outputBlock key input 0 := by
  funext j
  match j with
  | 0 | 1 | 2 | 3 => rfl

theorem upperHalf_initRegs (key : SiphashKey) (input : Word) :
    upperHalf (initRegs key input) = outputBlock key input 1 := by
  funext j
  match j with
  | 0 | 1 | 2 | 3 => rfl

/-- **Distinct nonces never collide** in the generator, nor do distinct keys. -/
theorem nonces_never_collide :
    (∀ (key : SiphashKey) (a b : Word), a ≠ b →
      (hashwxRngInit key a).state ≠ (hashwxRngInit key b).state ∧
      (∀ n, outputBlock key a n ≠ outputBlock key b n) ∧
      lowerHalf (initRegs key a) ≠ lowerHalf (initRegs key b) ∧
      upperHalf (initRegs key a) ≠ upperHalf (initRegs key b)) ∧
    (∀ key : SiphashKey, Function.Bijective (mixState key)) ∧
    ∀ (salt : Word) (key key' : SiphashKey), key ≠ key' →
      (hashwxRngInit key salt).state ≠ (hashwxRngInit key' salt).state := by
  refine ⟨fun key a b hab => ?_, mixState_bijective, fun salt key key' hkey => ?_⟩
  · have hblock (n : Nat) : outputBlock key a n ≠ outputBlock key b n :=
      (outputBlock_salt_injective key n).ne hab
    refine ⟨(initState_salt_injective key).ne hab, hblock, ?_, ?_⟩
    · rw [lowerHalf_initRegs, lowerHalf_initRegs]
      exact hblock 0
    · rw [upperHalf_initRegs, upperHalf_initRegs]
      exact hblock 1
  · exact (initState_key_injective salt).ne hkey

end HashWX
