import HashWX.Siphash.Rng
import HashWX.Lib.FinArray
import HashWX.Lib.ForLoop

/-!
# Instructions and programs

The records of `instruction.h` and `program.h`. The opcode field of memory that was
never written may hold any integer, so the enumeration has one more case for values
that no `case` label names.
-/

namespace HashWX

open Siphash

/-- `instr_type`. -/
inductive InstrType
  | mulor | mulxor | muladd
  | rmcg
  | xorror | addror | subror
  | xorasr | addasr | subasr
  | xorlsr | addlsr | sublsr
  | branch
  | halt
  | invalid (value : Nat)
deriving DecidableEq, Repr

/-- The integer value of the enumeration. -/
def InstrType.toNat : InstrType → Nat
  | .mulor => 0 | .mulxor => 1 | .muladd => 2
  | .rmcg => 3
  | .xorror => 4 | .addror => 5 | .subror => 6
  | .xorasr => 7 | .addasr => 8 | .subasr => 9
  | .xorlsr => 10 | .addlsr => 11 | .sublsr => 12
  | .branch => 13
  | .halt => 14
  | .invalid value => value

/-- Conversion to `uint32_t`. -/
def u32 (n : Nat) : BitVec 32 := BitVec.ofNat 32 n

structure Instruction where
  opcode : InstrType
  src : Nat
  dst : Nat
  imm : Nat
deriving DecidableEq, Repr

/-- `hashwx_program`: ten instructions. -/
abbrev Program := Vector Instruction 10

/-- `hashwx_program_list`: thirty-two programs. -/
abbrev ProgramList := Vector Program 32

/-! The bounds of the loops over a part of a program and over the whole list -/

theorem eight_le_ten : 8 ≤ 10 := by decide

theorem all_programs : 32 ≤ 32 := le_rfl

instance fact_eight_le_ten : Fact (8 ≤ 10) := ⟨eight_le_ten⟩

end HashWX
