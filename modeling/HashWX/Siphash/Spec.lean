import HashWX.Siphash.Rng

/-!
# Appendix A of the specification

The generator as the specification document describes it: right rotations, and an
output order that runs through the state words upwards. The states agree with the
code's ones; the order in which a block leaves the generator does not.
-/

namespace HashWX.Spec

open BitRotate (rotr rotl_eq_rotr)
open Siphash

/-- A.1, with `>>>>` as `rotr`. -/
def sipround (s : SipState) : SipState :=
  let v0 := s.v0 + s.v1
  let v2 := s.v2 + s.v3
  let v1 := rotr s.v1 51
  let v3 := rotr s.v3 48
  let v1 := v1 ^^^ v0
  let v3 := v3 ^^^ v2
  let v0 := rotr v0 32
  let v2 := v2 + v1
  let v0 := v0 + v3
  let v1 := rotr v1 47
  let v3 := rotr v3 43
  let v1 := v1 ^^^ v2
  let v3 := v3 ^^^ v0
  let v2 := rotr v2 32
  ⟨v0, v1, v2, v3⟩

/-- A.2. -/
def rngInit (k0 k1 salt : Word) : SipState :=
  let v0 := 0x736f6d6570736575#64 ^^^ k0
  let v1 := 0x646f72616e646f6d#64 ^^^ k1
  let v2 := 0x6c7967656e657261#64 ^^^ k0
  let v3 := 0x7465646279746573#64 ^^^ k1
  let v3 := v3 ^^^ salt
  let s := sipround ⟨v0, v1, v2, v3⟩
  let v0 := s.v0 ^^^ salt
  let v2 := s.v2 ^^^ 0xbb
  sipround (sipround (sipround ⟨v0, s.v1, v2, s.v3⟩))

/-- A.3, the refresh of an exhausted state. -/
def rngMix (k0 k1 : Word) (s : SipState) : SipState :=
  let v0 := s.v0 ^^^ k0
  let v1 := s.v1 ^^^ k1
  let v2 := s.v2 ^^^ k0
  let v3 := s.v3 ^^^ k1
  sipround (sipround (sipround (sipround ⟨v0, v1, v2, v3⟩)))

/-- A.3, the state after `q` refreshes. -/
def rngBlock (k0 k1 salt : Word) (q : Nat) : SipState := (rngMix k0 k1)^[q] (rngInit k0 k1 salt)

/-- A.3: the words of every block leave in the order `v0`, `v1`, `v2`, `v3`. -/
def rngOutput (k0 k1 salt : Word) (n : Nat) : Word :=
  (rngBlock k0 k1 salt (n / 4)).word (Fin.ofNat 4 n)

theorem sipround_eq (s : SipState) : sipround s = Siphash.sipround s := by
  simp only [sipround, Siphash.sipround, rotl_eq_rotr _ (show 13 ≤ 64 by decide),
    rotl_eq_rotr _ (show 16 ≤ 64 by decide), rotl_eq_rotr _ (show 17 ≤ 64 by decide),
    rotl_eq_rotr _ (show 21 ≤ 64 by decide), rotl_eq_rotr _ (show 32 ≤ 64 by decide)]

theorem rngInit_eq (key : SiphashKey) (salt : Word) :
    rngInit key.k0 key.k1 salt = initState key salt := by
  simp only [rngInit, initState, sipround_eq]

theorem rngMix_eq (key : SiphashKey) : rngMix key.k0 key.k1 = mixState key := by
  funext s
  simp only [rngMix, mixState, sipround_eq]

theorem rngBlock_eq (key : SiphashKey) (salt : Word) (q : Nat) :
    rngBlock key.k0 key.k1 salt q = block key salt q := by
  rw [rngBlock, block, rngInit_eq, rngMix_eq]

/-- The code drains every block from `v3` down to `v0`, so its output `n` is word `3 - n % 4` of the
document's block `n / 4`. The test vectors depend on this order. -/
theorem next_eq_rngBlock (key : SiphashKey) (salt : Word) (n : Nat) :
    OutputStream.output hashwxRngNext (hashwxRngInit key salt) n =
      (rngBlock key.k0 key.k1 salt (n / 4)).word (Fin.ofNat 4 n).rev := by
  rw [output_init, rngBlock_eq]

/-- The first word of the program generator differs from the document's one for the zero key. -/
theorem next_ne_rngOutput_zero :
    OutputStream.output hashwxRngNext (hashwxRngInit ⟨0, 0⟩ (-1)) 0 ≠ rngOutput 0 0 (-1) 0 := by
  decide

end HashWX.Spec
