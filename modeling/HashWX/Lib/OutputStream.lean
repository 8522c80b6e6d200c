import Mathlib.Logic.Function.Iterate
import Mathlib.Tactic.Common

/-!
# Output streams of stateful generators

A generator is a function that returns a value and the next state. `advance`
forgets the first outputs, `output` names the one at a given position, so a
consumer that takes several outputs can be read as one window of the stream.
-/

namespace OutputStream

variable {σ α : Type*} (next : σ → α × σ)

/-- The state after `n` outputs. -/
def advance (n : Nat) (s : σ) : σ := (fun t => (next t).2)^[n] s

/-- The output at position `n`, counting from zero. -/
def output (s : σ) (n : Nat) : α := (next (advance next n s)).1

@[simp] theorem advance_zero (s : σ) : advance next 0 s = s := rfl

theorem advance_succ (n : Nat) (s : σ) :
    advance next (n + 1) s = advance next n (next s).2 := rfl

theorem advance_succ' (n : Nat) (s : σ) :
    advance next (n + 1) s = (next (advance next n s)).2 :=
  Function.iterate_succ_apply' _ n s

theorem advance_add (m n : Nat) (s : σ) :
    advance next (m + n) s = advance next n (advance next m s) := by
  rw [advance, Nat.add_comm, Function.iterate_add_apply]
  rfl

theorem output_advance (m n : Nat) (s : σ) :
    output next (advance next m s) n = output next s (m + n) := by
  rw [output, output, advance_add]

theorem output_succ (s : σ) (n : Nat) : output next s (n + 1) = output next (next s).2 n := rfl

/-- States with the same next output and successor have the same stream. -/
theorem output_congr {s t : σ} (h : next s = next t) (n : Nat) : output next s n = output next t n := by
  cases n with
  | zero => exact congrArg Prod.fst h
  | succ n => rw [output_succ, output_succ, h]

/-- The generator that reads a given sequence. -/
def ofSequence (g : Nat → α) : α × (Nat → α) := (g 0, fun n => g (n + 1))

theorem advance_ofSequence (g : Nat → α) (m : Nat) :
    advance ofSequence m g = fun n => g (m + n) := by
  induction m generalizing g with
  | zero => simp
  | succ m ih =>
    rw [advance_succ, ih]
    funext n
    simp only [ofSequence]
    congr 1
    omega

theorem output_ofSequence (g : Nat → α) (n : Nat) : output ofSequence g n = g n := by
  rw [output, advance_ofSequence]
  rfl

end OutputStream
