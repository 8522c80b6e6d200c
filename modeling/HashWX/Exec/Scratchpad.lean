import HashWX.Exec.Phases
import HashWX.Lib.ByteMemory

/-!
# The scratchpad in the memory of a machine

Compiled code keeps the scratchpad on the stack and addresses it through the mask 2040.
-/

namespace HashWX

open Siphash ByteMemory

/-- The offset of the word that a register addresses. -/
def wordOffset (a : Word) : Word := BitVec.ofNat 64 (8 * (a.toNat / 8 % 256))

theorem and_wordOffset (a : Word) : a &&& 2040 = wordOffset a := by
  have hmask : (2040 : Word).toNat = 2040 := rfl
  apply BitVec.eq_of_toNat_eq
  rw [BitVec.toNat_and, hmask, and_mask, wordOffset, BitVec.toNat_ofNat]
  omega

/-- The 256 words from `sp` upwards can be read, and hold the scratchpad `m`. -/
structure Scratch (access : Access) (m : Memory) (sp : Word) (mem : Bytes 64) : Prop where
  readable : ∀ a : Fin 256, access.readable (wordAddr sp a) = true
  words : ∀ a : Fin 256, load64 mem (wordAddr sp a) = m a

section Scratch

variable {access : Access} {m : Memory} {sp : Word} {mem : Bytes 64} (h : Scratch access m sp mem)
  (a : Word)
include h

theorem Scratch.readable_offset : access.readable (sp + wordOffset a) = true :=
  h.readable (Fin.ofNat 256 (a.toNat / 8))

theorem Scratch.load_offset : load64 mem (sp + wordOffset a) = loadWord m a :=
  h.words (Fin.ofNat 256 (a.toNat / 8))

end Scratch

/-! ## The first phase -/

/-- What is known of the memory in front of program `k` of the first phase: the words stored
so far, and that nothing outside of the scratchpad has changed. -/
structure Stored (base : Word) (m₀ : Bytes 64) (k : Nat) (m : Memory) (mem : Bytes 64) : Prop where
  filled : Filled k (fun a => some (load64 mem (wordAddr base a))) m
  frame : ∀ a, (∀ i < 256, Apart 8 a (wordAddr base i)) → load64 mem a = load64 m₀ a

/-- A program stores R0 at the top of its eight words. -/
theorem Stored.push {base : Word} {m₀ mem : Bytes 64} {i : Fin 32} {m : Memory}
    (h : Stored base m₀ i m mem) (f : RegFile) : Stored base m₀ (i + 1) (storeFile i f m)
      (pushWords base (8 * (31 - i.val) + 8) (List.ofFn f) mem) := by
  have hi := i.isLt
  have hold (a : Word) (ha : ∀ k, 8 * (31 - i.val) ≤ k → k < 8 * (31 - i.val) + 8 →
      Apart 8 a (wordAddr base k)) :
      load64 (pushWords base (8 * (31 - i.val) + 8) (List.ofFn f) mem) a = load64 mem a :=
    load64_pushWords_of_apart fun k hk hk' => ha k (by rw [List.length_ofFn] at hk; omega) hk'
  refine ⟨h.filled.store (fun a ha => ?_) fun j => ?_, fun a ha => ?_⟩
  · have halen := a.isLt
    exact congrArg some (hold _ fun k hk hk' => apart_wordAddr base (by omega) (by omega) (by omega))
  · have hj := j.isLt
    have hload := load64_pushWords base (List.ofFn f) (8 * (31 - i.val) + 8) mem
      (by rw [List.length_ofFn]; omega) (by omega) (j := j) (by rw [List.length_ofFn]; omega)
    have hidx : 8 * (31 - i.val) + 8 - 1 - j.val = 255 - 8 * i - j := by omega
    rw [hidx, List.getElem_ofFn] at hload
    exact congrArg some hload
  · rw [hold a fun k hk hk' => ha k (by omega)]
    exact h.frame a ha

end HashWX
