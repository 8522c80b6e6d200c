import HashWX.Siphash.Rng
import Mathlib.Logic.Equiv.Basic

/-!
# The generator loses no input

`SIPROUND` is undone step by step, so the mix is a permutation of the state. The
salt enters before and after one round; word `v2` of that round depends on the
salt injectively and is not touched by the second injection.
-/

namespace HashWX.Siphash

open BitRotate

/-- `SIPROUND` run backwards. -/
def siproundInv (s : SipState) : SipState :=
  let v2 := rotr s.v2 32
  let v3 := s.v3 ^^^ s.v0
  let v1 := s.v1 ^^^ v2
  let v3 := rotr v3 21
  let v1 := rotr v1 17
  let v0 := s.v0 - v3
  let v2 := v2 - v1
  let v0 := rotr v0 32
  let v3 := v3 ^^^ v2
  let v1 := v1 ^^^ v0
  let v3 := rotr v3 16
  let v1 := rotr v1 13
  let v2 := v2 - v3
  let v0 := v0 - v1
  ⟨v0, v1, v2, v3⟩

theorem siproundInv_sipround (s : SipState) : siproundInv (sipround s) = s := by
  simp only [siproundInv, sipround, rotr_rotl, BitVec.xor_assoc, BitVec.xor_self, BitVec.xor_zero,
    BitVec.add_sub_cancel, Nat.reduceLT]

theorem sipround_siproundInv (s : SipState) : sipround (siproundInv s) = s := by
  simp only [siproundInv, sipround, rotl_rotr, BitVec.xor_assoc, BitVec.xor_self, BitVec.xor_zero,
    BitVec.sub_add_cancel, Nat.reduceLT]

/-- `SIPROUND` as a permutation of the 256-bit states. -/
def siproundEquiv : Equiv.Perm SipState :=
  ⟨sipround, siproundInv, siproundInv_sipround, sipround_siproundInv⟩

theorem sipround_injective : Function.Injective sipround := siproundEquiv.injective

/-- Xor with the key words, the first step of a mix. -/
def addKey (key : SiphashKey) (s : SipState) : SipState :=
  ⟨s.v0 ^^^ key.k0, s.v1 ^^^ key.k1, s.v2 ^^^ key.k0, s.v3 ^^^ key.k1⟩

theorem addKey_involutive (key : SiphashKey) : Function.Involutive (addKey key) := by
  intro s
  simp only [addKey, BitVec.xor_assoc, BitVec.xor_self, BitVec.xor_zero]

theorem mixState_bijective (key : SiphashKey) : Function.Bijective (mixState key) :=
  siproundEquiv.bijective.comp (siproundEquiv.bijective.comp (siproundEquiv.bijective.comp
    (siproundEquiv.bijective.comp (addKey_involutive key).bijective)))

/-- The four words before the first round. -/
def seedState (key : SiphashKey) (salt : Word) : SipState :=
  ⟨0x736f6d6570736575#64 ^^^ key.k0, 0x646f72616e646f6d#64 ^^^ key.k1,
    0x6c7967656e657261#64 ^^^ key.k0, 0x7465646279746573#64 ^^^ key.k1 ^^^ salt⟩

/-- The second injection of the salt, after the first round. -/
def addSalt (salt : Word) (s : SipState) : SipState :=
  ⟨s.v0 ^^^ salt, s.v1, s.v2 ^^^ 0xbb, s.v3⟩

theorem addSalt_involutive (salt : Word) : Function.Involutive (addSalt salt) := by
  intro s
  simp only [addSalt, BitVec.xor_assoc, BitVec.xor_self, BitVec.xor_zero]

theorem initState_eq (key : SiphashKey) (salt : Word) :
    initState key salt =
      sipround (sipround (sipround (addSalt salt (sipround (seedState key salt))))) := rfl

theorem addSalt_of_initState_eq {key key' : SiphashKey} {salt salt' : Word}
    (h : initState key salt = initState key' salt') :
    addSalt salt (sipround (seedState key salt)) = addSalt salt' (sipround (seedState key' salt')) := by
  rw [initState_eq, initState_eq] at h
  exact sipround_injective (sipround_injective (sipround_injective h))

/-! ## Distinct salts -/

/-- With the other words fixed, `v2` after a round determines `v3` before it. -/
theorem sipround_v2_injective (v0 v1 v2 : Word) :
    Function.Injective (fun v3 => (sipround ⟨v0, v1, v2, v3⟩).v2) := by
  intro a b h
  have hrot := rotl_injective (show 32 < 64 by decide) h
  exact (BitVec.add_right_inj v2).mp ((BitVec.add_left_inj _).mp hrot)

theorem initState_salt_injective (key : SiphashKey) : Function.Injective (initState key) := by
  intro a b h
  have hv2 := (BitVec.xor_left_inj _).mp (congrArg SipState.v2 (addSalt_of_initState_eq h))
  exact (BitVec.xor_right_inj _).mp (sipround_v2_injective _ _ _ hv2)

theorem block_salt_injective (key : SiphashKey) (q : Nat) :
    Function.Injective (fun salt => block key salt q) :=
  ((mixState_bijective key).injective.iterate q).comp (initState_salt_injective key)

/-! ## Distinct keys -/

theorem initState_key_injective (salt : Word) :
    Function.Injective (fun key => initState key salt) := by
  intro a b h
  have h0 := sipround_injective ((addSalt_involutive salt).injective (addSalt_of_initState_eq h))
  have hk0 := (BitVec.xor_right_inj _).mp (congrArg SipState.v0 h0)
  have hk1 := (BitVec.xor_right_inj _).mp (congrArg SipState.v1 h0)
  cases a
  cases b
  exact congrArg₂ SiphashKey.mk hk0 hk1

/-! ## Blocks of outputs -/

/-- The four consecutive outputs that make up block `q` of the stream. -/
def outputBlock (key : SiphashKey) (salt : Word) (q : Nat) : Fin 4 → Word :=
  fun j => OutputStream.output hashwxRngNext (hashwxRngInit key salt) (4 * q + j)

theorem outputBlock_eq (key : SiphashKey) (salt : Word) (q : Nat) :
    outputBlock key salt q = fun j => (block key salt q).word j.rev := by
  funext j
  have hdiv : (4 * q + j.val) / 4 = q := by omega
  have hmod : Fin.ofNat 4 (4 * q + j.val) = j := Fin.ext (by simp)
  rw [outputBlock, output_init, hdiv, hmod]

theorem outputBlock_salt_injective (key : SiphashKey) (q : Nat) :
    Function.Injective (fun salt => outputBlock key salt q) := by
  intro a b h
  have hword : (block key a q).word = (block key b q).word := by
    funext j
    have hj := congrFun h j.rev
    simpa only [outputBlock_eq, Fin.rev_rev] using hj
  exact block_salt_injective key q (SipState.word_injective hword)

end HashWX.Siphash
