import Mathlib.Logic.Function.Basic

/-!
# Rotations of bit vectors

The two rotations of the core library are inverse to each other, and each is the
other one by the complementary count. Both spellings by shifts, as C code writes
them, are the library rotations when the count lies strictly inside the width.
-/

namespace BitRotate

variable {w : Nat}

/-- The left rotation spelled with two shifts. -/
def rotl (x : BitVec w) (r : Nat) : BitVec w := (x <<< r) ||| (x >>> (w - r))

/-- The right rotation spelled with two shifts. -/
def rotr (x : BitVec w) (r : Nat) : BitVec w := (x >>> r) ||| (x <<< (w - r))

theorem rotl_eq_rotateLeft (x : BitVec w) {r : Nat} (hr : r < w) : rotl x r = x.rotateLeft r := by
  rw [rotl, BitVec.rotateLeft_def, Nat.mod_eq_of_lt hr]

theorem rotr_eq_rotateRight (x : BitVec w) {r : Nat} (hr : r < w) : rotr x r = x.rotateRight r := by
  rw [rotr, BitVec.rotateRight_def, Nat.mod_eq_of_lt hr]

/-- A left rotation is the right rotation by the complementary count. -/
theorem rotl_eq_rotr (x : BitVec w) {r : Nat} (hr : r ≤ w) : rotl x r = rotr x (w - r) := by
  rw [rotl, rotr, BitVec.or_comm, show w - (w - r) = r from by omega]

theorem getLsbD_rotr (x : BitVec w) {r : Nat} (hr : r < w) {i : Nat} (hi : i < w) :
    (rotr x r).getLsbD i = x.getLsbD (if i < w - r then r + i else i - (w - r)) := by
  rw [rotr_eq_rotateRight x hr, BitVec.getLsbD_rotateRight, Nat.mod_eq_of_lt hr]
  by_cases h : i < w - r <;> simp [h, hi]

theorem getLsbD_rotl (x : BitVec w) {r : Nat} (hr : r < w) {i : Nat} (hi : i < w) :
    (rotl x r).getLsbD i = x.getLsbD (if i < r then w - r + i else i - r) := by
  rw [rotl_eq_rotateLeft x hr, BitVec.getLsbD_rotateLeft, Nat.mod_eq_of_lt hr]
  by_cases h : i < r <;> simp [h, hi]

theorem rotr_rotl (x : BitVec w) {r : Nat} (hr : r < w) : rotr (rotl x r) r = x := by
  apply BitVec.eq_of_getLsbD_eq
  intro i hi
  rw [getLsbD_rotr _ hr hi]
  by_cases h : i < w - r
  · rw [if_pos h, getLsbD_rotl x hr (by omega), if_neg (by omega)]
    congr 1
    omega
  · rw [if_neg h, getLsbD_rotl x hr (by omega), if_pos (by omega)]
    congr 1
    omega

theorem rotl_rotr (x : BitVec w) {r : Nat} (hr : r < w) : rotl (rotr x r) r = x := by
  apply BitVec.eq_of_getLsbD_eq
  intro i hi
  rw [getLsbD_rotl _ hr hi]
  by_cases h : i < r
  · rw [if_pos h, getLsbD_rotr x hr (by omega), if_neg (by omega)]
    congr 1
    omega
  · rw [if_neg h, getLsbD_rotr x hr (by omega), if_pos (by omega)]
    congr 1
    omega

theorem rotl_injective {r : Nat} (hr : r < w) : Function.Injective (fun x : BitVec w => rotl x r) :=
  Function.LeftInverse.injective (g := fun x => rotr x r) fun x => rotr_rotl x hr

theorem rotr_injective {r : Nat} (hr : r < w) : Function.Injective (fun x : BitVec w => rotr x r) :=
  Function.LeftInverse.injective (g := fun x => rotl x r) fun x => rotl_rotr x hr

theorem rotr_zero (r : Nat) : rotr (0 : BitVec w) r = 0 := by simp [rotr]

end BitRotate
