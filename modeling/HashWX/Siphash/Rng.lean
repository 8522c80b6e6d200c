import HashWX.Lib.FinArray
import HashWX.Lib.OutputStream
import HashWX.Lib.Rotate
import Mathlib.Data.Fin.VecNotation

/-!
# The siphash generator of the code

`SIPROUND`, `hashwx_rng_init`, `hashwx_rng_mix` and `hashwx_rng_next` as the code
computes them. The four state words are drained from the last to the first by a
decreasing counter, and the state is mixed when the counter is found at zero.
-/

namespace HashWX.Siphash

open BitRotate (rotl rotr)

/-- `uint64_t`. -/
abbrev Word := BitVec 64

structure SiphashKey where
  k0 : Word
  k1 : Word
deriving DecidableEq, Repr

/-- The four words `v0`-`v3` that `SIPROUND` mixes. -/
@[ext] structure SipState where
  v0 : Word
  v1 : Word
  v2 : Word
  v3 : Word
deriving DecidableEq, Repr

namespace SipState

/-- The words as the array `state[4]`. -/
def word (s : SipState) : Fin 4 → Word := ![s.v0, s.v1, s.v2, s.v3]

theorem word_injective : Function.Injective word := by
  intro s t h
  ext1
  · exact congrFun h 0
  · exact congrFun h 1
  · exact congrFun h 2
  · exact congrFun h 3

end SipState

/-- The macro `SIPROUND`, statement by statement. -/
def sipround (s : SipState) : SipState :=
  let v0 := s.v0 + s.v1
  let v2 := s.v2 + s.v3
  let v1 := rotl s.v1 13
  let v3 := rotl s.v3 16
  let v1 := v1 ^^^ v0
  let v3 := v3 ^^^ v2
  let v0 := rotl v0 32
  let v2 := v2 + v1
  let v0 := v0 + v3
  let v1 := rotl v1 17
  let v3 := rotl v3 21
  let v1 := v1 ^^^ v2
  let v3 := v3 ^^^ v0
  let v2 := rotl v2 32
  ⟨v0, v1, v2, v3⟩

/-- `count` is the number of words of `state` not yet returned; it never exceeds four. -/
structure SiphashRng where
  key : SiphashKey
  state : SipState
  count : Fin 5

/-- The state `hashwx_rng_init` computes. -/
def initState (key : SiphashKey) (salt : Word) : SipState :=
  let v0 := 0x736f6d6570736575#64 ^^^ key.k0
  let v1 := 0x646f72616e646f6d#64 ^^^ key.k1
  let v2 := 0x6c7967656e657261#64 ^^^ key.k0
  let v3 := 0x7465646279746573#64 ^^^ key.k1
  let v3 := v3 ^^^ salt
  let s := sipround ⟨v0, v1, v2, v3⟩
  let s := { s with v0 := s.v0 ^^^ salt, v2 := s.v2 ^^^ 0xbb }
  sipround (sipround (sipround s))

def hashwxRngInit (key : SiphashKey) (salt : Word) : SiphashRng :=
  { key := key, state := initState key salt, count := 4 }

/-- The state `hashwx_rng_mix` computes. -/
def mixState (key : SiphashKey) (s : SipState) : SipState :=
  let v0 := s.v0 ^^^ key.k0
  let v1 := s.v1 ^^^ key.k1
  let v2 := s.v2 ^^^ key.k0
  let v3 := s.v3 ^^^ key.k1
  sipround (sipround (sipround (sipround ⟨v0, v1, v2, v3⟩)))

def hashwxRngMix (gen : SiphashRng) : SiphashRng :=
  { gen with state := mixState gen.key gen.state }

/-- The refresh at the head of `hashwx_rng_next`: an exhausted state is mixed. -/
def refill (gen : SiphashRng) : SiphashRng :=
  if gen.count = 0 then { hashwxRngMix gen with count := 4 } else gen

theorem refill_count (gen : SiphashRng) : (refill gen).count ≠ 0 := by
  unfold refill
  split
  · show (4 : Fin 5) ≠ 0
    decide
  · assumption

def hashwxRngNext (gen : SiphashRng) : Word × SiphashRng :=
  let count := (refill gen).count.pred (refill_count gen)
  ((refill gen).state.word count, { refill gen with count := count.castSucc })

/-! ## The order of the outputs -/

/-- An exhausted generator and its refreshed copy return the same stream. -/
theorem next_refill (gen : SiphashRng) : hashwxRngNext (refill gen) = hashwxRngNext gen := by
  have h : refill (refill gen) = refill gen := if_neg (refill_count gen)
  simp only [hashwxRngNext, h]

/-- A generator that still holds a whole block. -/
def full (key : SiphashKey) (s : SipState) : SiphashRng := { key := key, state := s, count := 4 }

/-- The four words of a full state leave in the order `v3`, `v2`, `v1`, `v0`. -/
theorem output_full_of_lt (key : SiphashKey) (s : SipState) {n : Nat} (hn : n < 4) :
    OutputStream.output hashwxRngNext (full key s) n = s.word (Fin.ofNat 4 n).rev := by
  match n, hn with
  | 0, _ | 1, _ | 2, _ | 3, _ => rfl

/-- After four words the state is mixed, before the fifth one is returned. -/
theorem output_full_add_four (key : SiphashKey) (s : SipState) (n : Nat) :
    OutputStream.output hashwxRngNext (full key s) (n + 4) =
      OutputStream.output hashwxRngNext (full key (mixState key s)) n := by
  have hempty : OutputStream.advance hashwxRngNext 4 (full key s) =
      { key := key, state := s, count := 0 } := rfl
  rw [Nat.add_comm, ← OutputStream.output_advance, hempty]
  exact OutputStream.output_congr _ (next_refill _).symm n

/-- The state of block `q` of the generator: `q` mixes after the initialisation. -/
def block (key : SiphashKey) (salt : Word) (q : Nat) : SipState :=
  (mixState key)^[q] (initState key salt)

theorem output_full (key : SiphashKey) (n : Nat) :
    ∀ s, OutputStream.output hashwxRngNext (full key s) n =
      ((mixState key)^[n / 4] s).word (Fin.ofNat 4 n).rev := by
  induction n using Nat.strong_induction_on with
  | h n ih =>
    intro s
    by_cases hn : n < 4
    · rw [output_full_of_lt key s hn, Nat.div_eq_of_lt hn]
      rfl
    · obtain ⟨m, rfl⟩ := Nat.exists_eq_add_of_le' (Nat.le_of_not_lt hn)
      have hword : Fin.ofNat 4 (m + 4) = Fin.ofNat 4 m := Fin.ext (Nat.add_mod_right m 4)
      rw [output_full_add_four, ih m (by omega), hword, Nat.add_div_right m (by decide)]
      rfl

/-- Output `n` of an initialised generator is word `3 - n % 4` of block `n / 4`. -/
theorem output_init (key : SiphashKey) (salt : Word) (n : Nat) :
    OutputStream.output hashwxRngNext (hashwxRngInit key salt) n =
      (block key salt (n / 4)).word (Fin.ofNat 4 n).rev :=
  output_full key n (initState key salt)

end HashWX.Siphash
