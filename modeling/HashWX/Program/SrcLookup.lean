import HashWX.Lib.FinArray
import Mathlib.Data.Fintype.EquivFin

/-!
# The permitted source permutations

The table `src_lookup` of the code, row by row. Entry `i` of a row names the
instruction slot whose destination is the source of slot `i`; entry 0 is unused.
-/

namespace HashWX

/-- One row of the table, as the C initialiser lists it. -/
def row (a b c d e f g h : Fin 8) : Fin 8 → Fin 8
  | 0 => a | 1 => b | 2 => c | 3 => d | 4 => e | 5 => f | 6 => g | 7 => h

def srcLookup : List (Fin 8 → Fin 8) := [
    row 0 3 1 4 5 6 7 2, row 0 3 1 4 6 7 5 2, row 0 3 1 4 7 6 5 2, row 0 3 4 1 5 6 7 2,
    row 0 3 4 1 6 7 5 2, row 0 3 4 1 7 6 5 2, row 0 3 4 5 1 6 7 2, row 0 3 4 5 6 1 7 2,
    row 0 3 4 5 6 7 1 2, row 0 3 4 5 7 6 1 2, row 0 3 4 6 1 7 5 2, row 0 3 4 6 5 1 7 2,
    row 0 3 4 6 5 7 1 2, row 0 3 4 6 7 1 5 2, row 0 3 4 7 1 6 5 2, row 0 3 4 7 5 6 1 2,
    row 0 3 4 7 6 1 5 2, row 0 3 5 4 1 6 7 2, row 0 3 5 4 6 1 7 2, row 0 3 5 4 6 7 1 2,
    row 0 3 5 4 7 6 1 2, row 0 3 6 4 1 7 5 2, row 0 3 6 4 5 1 7 2, row 0 3 6 4 5 7 1 2,
    row 0 3 6 4 7 1 5 2, row 0 3 7 4 1 6 5 2, row 0 3 7 4 5 6 1 2, row 0 3 7 4 6 1 5 2,
    row 0 4 1 5 3 6 7 2, row 0 4 1 5 6 3 7 2, row 0 4 1 5 6 7 3 2, row 0 4 1 5 7 6 3 2,
    row 0 4 1 6 3 7 5 2, row 0 4 1 6 5 3 7 2, row 0 4 1 6 5 7 3 2, row 0 4 1 6 7 3 5 2,
    row 0 4 1 7 3 6 5 2, row 0 4 1 7 5 6 3 2, row 0 4 1 7 6 3 5 2, row 0 4 3 1 5 6 7 2,
    row 0 4 3 1 6 7 5 2, row 0 4 3 1 7 6 5 2, row 0 4 3 5 1 6 7 2, row 0 4 3 5 6 1 7 2,
    row 0 4 3 5 6 7 1 2, row 0 4 3 5 7 6 1 2, row 0 4 3 6 1 7 5 2, row 0 4 3 6 5 1 7 2,
    row 0 4 3 6 5 7 1 2, row 0 4 3 6 7 1 5 2, row 0 4 3 7 1 6 5 2, row 0 4 3 7 5 6 1 2,
    row 0 4 3 7 6 1 5 2, row 0 4 5 1 3 6 7 2, row 0 4 5 1 6 3 7 2, row 0 4 5 1 6 7 3 2,
    row 0 4 5 1 7 6 3 2, row 0 4 5 6 1 3 7 2, row 0 4 5 6 1 7 3 2, row 0 4 5 6 3 1 7 2,
    row 0 4 5 6 3 7 1 2, row 0 4 5 6 7 1 3 2, row 0 4 5 6 7 3 1 2, row 0 4 5 7 1 6 3 2,
    row 0 4 5 7 3 6 1 2, row 0 4 5 7 6 1 3 2, row 0 4 5 7 6 3 1 2, row 0 4 6 1 3 7 5 2,
    row 0 4 6 1 5 3 7 2, row 0 4 6 1 5 7 3 2, row 0 4 6 1 7 3 5 2, row 0 4 6 5 1 3 7 2,
    row 0 4 6 5 1 7 3 2, row 0 4 6 5 3 1 7 2, row 0 4 6 5 3 7 1 2, row 0 4 6 5 7 1 3 2,
    row 0 4 6 5 7 3 1 2, row 0 4 6 7 1 3 5 2, row 0 4 6 7 3 1 5 2, row 0 4 6 7 5 1 3 2,
    row 0 4 6 7 5 3 1 2, row 0 4 7 1 3 6 5 2, row 0 4 7 1 5 6 3 2, row 0 4 7 1 6 3 5 2,
    row 0 4 7 5 1 6 3 2, row 0 4 7 5 3 6 1 2, row 0 4 7 5 6 1 3 2, row 0 4 7 5 6 3 1 2,
    row 0 4 7 6 1 3 5 2, row 0 4 7 6 3 1 5 2, row 0 4 7 6 5 1 3 2, row 0 4 7 6 5 3 1 2,
    row 0 5 1 4 3 6 7 2, row 0 5 1 4 6 3 7 2, row 0 5 1 4 6 7 3 2, row 0 5 1 4 7 6 3 2,
    row 0 5 3 4 1 6 7 2, row 0 5 3 4 6 1 7 2, row 0 5 3 4 6 7 1 2, row 0 5 3 4 7 6 1 2,
    row 0 5 4 1 3 6 7 2, row 0 5 4 1 6 3 7 2, row 0 5 4 1 6 7 3 2, row 0 5 4 1 7 6 3 2,
    row 0 5 4 6 1 3 7 2, row 0 5 4 6 1 7 3 2, row 0 5 4 6 3 1 7 2, row 0 5 4 6 3 7 1 2,
    row 0 5 4 6 7 1 3 2, row 0 5 4 6 7 3 1 2, row 0 5 4 7 1 6 3 2, row 0 5 4 7 3 6 1 2,
    row 0 5 4 7 6 1 3 2, row 0 5 4 7 6 3 1 2, row 0 5 6 4 1 3 7 2, row 0 5 6 4 1 7 3 2,
    row 0 5 6 4 3 1 7 2, row 0 5 6 4 3 7 1 2, row 0 5 6 4 7 1 3 2, row 0 5 6 4 7 3 1 2,
    row 0 5 7 4 1 6 3 2, row 0 5 7 4 3 6 1 2, row 0 5 7 4 6 1 3 2, row 0 5 7 4 6 3 1 2,
    row 0 6 1 4 3 7 5 2, row 0 6 1 4 5 3 7 2, row 0 6 1 4 5 7 3 2, row 0 6 1 4 7 3 5 2,
    row 0 6 3 4 1 7 5 2, row 0 6 3 4 5 1 7 2, row 0 6 3 4 5 7 1 2, row 0 6 3 4 7 1 5 2,
    row 0 6 4 1 3 7 5 2, row 0 6 4 1 5 3 7 2, row 0 6 4 1 5 7 3 2, row 0 6 4 1 7 3 5 2,
    row 0 6 4 5 1 3 7 2, row 0 6 4 5 1 7 3 2, row 0 6 4 5 3 1 7 2, row 0 6 4 5 3 7 1 2,
    row 0 6 4 5 7 1 3 2, row 0 6 4 5 7 3 1 2, row 0 6 4 7 1 3 5 2, row 0 6 4 7 3 1 5 2,
    row 0 6 4 7 5 1 3 2, row 0 6 4 7 5 3 1 2, row 0 6 5 4 1 3 7 2, row 0 6 5 4 1 7 3 2,
    row 0 6 5 4 3 1 7 2, row 0 6 5 4 3 7 1 2, row 0 6 5 4 7 1 3 2, row 0 6 5 4 7 3 1 2,
    row 0 6 7 4 1 3 5 2, row 0 6 7 4 3 1 5 2, row 0 6 7 4 5 1 3 2, row 0 6 7 4 5 3 1 2,
    row 0 7 1 4 3 6 5 2, row 0 7 1 4 5 6 3 2, row 0 7 1 4 6 3 5 2, row 0 7 3 4 1 6 5 2,
    row 0 7 3 4 5 6 1 2, row 0 7 3 4 6 1 5 2, row 0 7 4 1 3 6 5 2, row 0 7 4 1 5 6 3 2,
    row 0 7 4 1 6 3 5 2, row 0 7 4 5 1 6 3 2, row 0 7 4 5 3 6 1 2, row 0 7 4 5 6 1 3 2,
    row 0 7 4 5 6 3 1 2, row 0 7 4 6 1 3 5 2, row 0 7 4 6 3 1 5 2, row 0 7 4 6 5 1 3 2,
    row 0 7 4 6 5 3 1 2, row 0 7 5 4 1 6 3 2, row 0 7 5 4 3 6 1 2, row 0 7 5 4 6 1 3 2,
    row 0 7 5 4 6 3 1 2, row 0 7 6 4 1 3 5 2, row 0 7 6 4 3 1 5 2, row 0 7 6 4 5 1 3 2,
    row 0 7 6 4 5 3 1 2, row 2 3 1 4 5 6 7 0, row 2 3 1 4 6 7 5 0, row 2 3 1 4 7 6 5 0,
    row 2 3 4 1 5 6 7 0, row 2 3 4 1 6 7 5 0, row 2 3 4 1 7 6 5 0, row 2 3 4 5 1 6 7 0,
    row 2 3 4 5 6 1 7 0, row 2 3 4 5 6 7 1 0, row 2 3 4 5 7 6 1 0, row 2 3 4 6 1 7 5 0,
    row 2 3 4 6 5 1 7 0, row 2 3 4 6 5 7 1 0, row 2 3 4 6 7 1 5 0, row 2 3 4 7 1 6 5 0,
    row 2 3 4 7 5 6 1 0, row 2 3 4 7 6 1 5 0, row 2 3 5 4 1 6 7 0, row 2 3 5 4 6 1 7 0,
    row 2 3 5 4 6 7 1 0, row 2 3 5 4 7 6 1 0, row 2 3 6 4 1 7 5 0, row 2 3 6 4 5 1 7 0,
    row 2 3 6 4 5 7 1 0, row 2 3 6 4 7 1 5 0, row 2 3 7 4 1 6 5 0, row 2 3 7 4 5 6 1 0,
    row 2 3 7 4 6 1 5 0, row 2 4 1 5 3 6 7 0, row 2 4 1 5 6 3 7 0, row 2 4 1 5 6 7 3 0,
    row 2 4 1 5 7 6 3 0, row 2 4 1 6 3 7 5 0, row 2 4 1 6 5 3 7 0, row 2 4 1 6 5 7 3 0,
    row 2 4 1 6 7 3 5 0, row 2 4 1 7 3 6 5 0, row 2 4 1 7 5 6 3 0, row 2 4 1 7 6 3 5 0,
    row 2 4 3 1 5 6 7 0, row 2 4 3 1 6 7 5 0, row 2 4 3 1 7 6 5 0, row 2 4 3 5 1 6 7 0,
    row 2 4 3 5 6 1 7 0, row 2 4 3 5 6 7 1 0, row 2 4 3 5 7 6 1 0, row 2 4 3 6 1 7 5 0,
    row 2 4 3 6 5 1 7 0, row 2 4 3 6 5 7 1 0, row 2 4 3 6 7 1 5 0, row 2 4 3 7 1 6 5 0,
    row 2 4 3 7 5 6 1 0, row 2 4 3 7 6 1 5 0, row 2 4 5 1 3 6 7 0, row 2 4 5 1 6 3 7 0,
    row 2 4 5 1 6 7 3 0, row 2 4 5 1 7 6 3 0, row 2 4 5 6 1 3 7 0, row 2 4 5 6 1 7 3 0,
    row 2 4 5 6 3 1 7 0, row 2 4 5 6 3 7 1 0, row 2 4 5 6 7 1 3 0, row 2 4 5 6 7 3 1 0,
    row 2 4 5 7 1 6 3 0, row 2 4 5 7 3 6 1 0, row 2 4 5 7 6 1 3 0, row 2 4 5 7 6 3 1 0,
    row 2 4 6 1 3 7 5 0, row 2 4 6 1 5 3 7 0, row 2 4 6 1 5 7 3 0, row 2 4 6 1 7 3 5 0,
    row 2 4 6 5 1 3 7 0, row 2 4 6 5 1 7 3 0, row 2 4 6 5 3 1 7 0, row 2 4 6 5 3 7 1 0,
    row 2 4 6 5 7 1 3 0, row 2 4 6 5 7 3 1 0, row 2 4 6 7 1 3 5 0, row 2 4 6 7 3 1 5 0,
    row 2 4 6 7 5 1 3 0, row 2 4 6 7 5 3 1 0, row 2 4 7 1 3 6 5 0, row 2 4 7 1 5 6 3 0,
    row 2 4 7 1 6 3 5 0, row 2 4 7 5 1 6 3 0, row 2 4 7 5 3 6 1 0, row 2 4 7 5 6 1 3 0,
    row 2 4 7 5 6 3 1 0, row 2 4 7 6 1 3 5 0, row 2 4 7 6 3 1 5 0, row 2 4 7 6 5 1 3 0,
    row 2 4 7 6 5 3 1 0, row 2 5 1 4 3 6 7 0, row 2 5 1 4 6 3 7 0, row 2 5 1 4 6 7 3 0,
    row 2 5 1 4 7 6 3 0, row 2 5 3 4 1 6 7 0, row 2 5 3 4 6 1 7 0, row 2 5 3 4 6 7 1 0,
    row 2 5 3 4 7 6 1 0, row 2 5 4 1 3 6 7 0, row 2 5 4 1 6 3 7 0, row 2 5 4 1 6 7 3 0,
    row 2 5 4 1 7 6 3 0, row 2 5 4 6 1 3 7 0, row 2 5 4 6 1 7 3 0, row 2 5 4 6 3 1 7 0,
    row 2 5 4 6 3 7 1 0, row 2 5 4 6 7 1 3 0, row 2 5 4 6 7 3 1 0, row 2 5 4 7 1 6 3 0,
    row 2 5 4 7 3 6 1 0, row 2 5 4 7 6 1 3 0, row 2 5 4 7 6 3 1 0, row 2 5 6 4 1 3 7 0,
    row 2 5 6 4 1 7 3 0, row 2 5 6 4 3 1 7 0, row 2 5 6 4 3 7 1 0, row 2 5 6 4 7 1 3 0,
    row 2 5 6 4 7 3 1 0, row 2 5 7 4 1 6 3 0, row 2 5 7 4 3 6 1 0, row 2 5 7 4 6 1 3 0,
    row 2 5 7 4 6 3 1 0, row 2 6 1 4 3 7 5 0, row 2 6 1 4 5 3 7 0, row 2 6 1 4 5 7 3 0,
    row 2 6 1 4 7 3 5 0, row 2 6 3 4 1 7 5 0, row 2 6 3 4 5 1 7 0, row 2 6 3 4 5 7 1 0,
    row 2 6 3 4 7 1 5 0, row 2 6 4 1 3 7 5 0, row 2 6 4 1 5 3 7 0, row 2 6 4 1 5 7 3 0,
    row 2 6 4 1 7 3 5 0, row 2 6 4 5 1 3 7 0, row 2 6 4 5 1 7 3 0, row 2 6 4 5 3 1 7 0,
    row 2 6 4 5 3 7 1 0, row 2 6 4 5 7 1 3 0, row 2 6 4 5 7 3 1 0, row 2 6 4 7 1 3 5 0,
    row 2 6 4 7 3 1 5 0, row 2 6 4 7 5 1 3 0, row 2 6 4 7 5 3 1 0, row 2 6 5 4 1 3 7 0,
    row 2 6 5 4 1 7 3 0, row 2 6 5 4 3 1 7 0, row 2 6 5 4 3 7 1 0, row 2 6 5 4 7 1 3 0,
    row 2 6 5 4 7 3 1 0, row 2 6 7 4 1 3 5 0, row 2 6 7 4 3 1 5 0, row 2 6 7 4 5 1 3 0,
    row 2 6 7 4 5 3 1 0, row 2 7 1 4 3 6 5 0, row 2 7 1 4 5 6 3 0, row 2 7 1 4 6 3 5 0,
    row 2 7 3 4 1 6 5 0, row 2 7 3 4 5 6 1 0, row 2 7 3 4 6 1 5 0, row 2 7 4 1 3 6 5 0,
    row 2 7 4 1 5 6 3 0, row 2 7 4 1 6 3 5 0, row 2 7 4 5 1 6 3 0, row 2 7 4 5 3 6 1 0,
    row 2 7 4 5 6 1 3 0, row 2 7 4 5 6 3 1 0, row 2 7 4 6 1 3 5 0, row 2 7 4 6 3 1 5 0,
    row 2 7 4 6 5 1 3 0, row 2 7 4 6 5 3 1 0, row 2 7 5 4 1 6 3 0, row 2 7 5 4 3 6 1 0,
    row 2 7 5 4 6 1 3 0, row 2 7 5 4 6 3 1 0, row 2 7 6 4 1 3 5 0, row 2 7 6 4 3 1 5 0,
    row 2 7 6 4 5 1 3 0, row 2 7 6 4 5 3 1 0, row 4 2 1 5 3 6 7 0, row 4 2 1 5 6 3 7 0,
    row 4 2 1 5 6 7 3 0, row 4 2 1 5 7 6 3 0, row 4 2 1 6 3 7 5 0, row 4 2 1 6 5 3 7 0,
    row 4 2 1 6 5 7 3 0, row 4 2 1 6 7 3 5 0, row 4 2 1 7 3 6 5 0, row 4 2 1 7 5 6 3 0,
    row 4 2 1 7 6 3 5 0, row 4 2 3 1 5 6 7 0, row 4 2 3 1 6 7 5 0, row 4 2 3 1 7 6 5 0,
    row 4 2 3 5 1 6 7 0, row 4 2 3 5 6 1 7 0, row 4 2 3 5 6 7 1 0, row 4 2 3 5 7 6 1 0,
    row 4 2 3 6 1 7 5 0, row 4 2 3 6 5 1 7 0, row 4 2 3 6 5 7 1 0, row 4 2 3 6 7 1 5 0,
    row 4 2 3 7 1 6 5 0, row 4 2 3 7 5 6 1 0, row 4 2 3 7 6 1 5 0, row 4 2 5 1 3 6 7 0,
    row 4 2 5 1 6 3 7 0, row 4 2 5 1 6 7 3 0, row 4 2 5 1 7 6 3 0, row 4 2 5 6 1 3 7 0,
    row 4 2 5 6 1 7 3 0, row 4 2 5 6 3 1 7 0, row 4 2 5 6 3 7 1 0, row 4 2 5 6 7 1 3 0,
    row 4 2 5 6 7 3 1 0, row 4 2 5 7 1 6 3 0, row 4 2 5 7 3 6 1 0, row 4 2 5 7 6 1 3 0,
    row 4 2 5 7 6 3 1 0, row 4 2 6 1 3 7 5 0, row 4 2 6 1 5 3 7 0, row 4 2 6 1 5 7 3 0,
    row 4 2 6 1 7 3 5 0, row 4 2 6 5 1 3 7 0, row 4 2 6 5 1 7 3 0, row 4 2 6 5 3 1 7 0,
    row 4 2 6 5 3 7 1 0, row 4 2 6 5 7 1 3 0, row 4 2 6 5 7 3 1 0, row 4 2 6 7 1 3 5 0,
    row 4 2 6 7 3 1 5 0, row 4 2 6 7 5 1 3 0, row 4 2 6 7 5 3 1 0, row 4 2 7 1 3 6 5 0,
    row 4 2 7 1 5 6 3 0, row 4 2 7 1 6 3 5 0, row 4 2 7 5 1 6 3 0, row 4 2 7 5 3 6 1 0,
    row 4 2 7 5 6 1 3 0, row 4 2 7 5 6 3 1 0, row 4 2 7 6 1 3 5 0, row 4 2 7 6 3 1 5 0,
    row 4 2 7 6 5 1 3 0, row 4 2 7 6 5 3 1 0, row 4 3 1 5 6 7 0 2, row 4 3 1 5 7 6 0 2,
    row 4 3 1 6 5 7 0 2, row 4 3 1 7 5 6 0 2, row 4 3 5 1 6 7 0 2, row 4 3 5 1 7 6 0 2,
    row 4 3 5 6 1 7 0 2, row 4 3 5 6 7 1 0 2, row 4 3 5 7 1 6 0 2, row 4 3 5 7 6 1 0 2,
    row 4 3 6 1 5 7 0 2, row 4 3 6 5 1 7 0 2, row 4 3 6 5 7 1 0 2, row 4 3 6 7 5 1 0 2,
    row 4 3 7 1 5 6 0 2, row 4 3 7 5 1 6 0 2, row 4 3 7 5 6 1 0 2, row 4 3 7 6 5 1 0 2,
    row 4 5 1 6 3 7 0 2, row 4 5 1 6 7 3 0 2, row 4 5 1 7 3 6 0 2, row 4 5 1 7 6 3 0 2,
    row 4 5 3 1 6 7 0 2, row 4 5 3 1 7 6 0 2, row 4 5 3 6 1 7 0 2, row 4 5 3 6 7 1 0 2,
    row 4 5 3 7 1 6 0 2, row 4 5 3 7 6 1 0 2, row 4 5 6 1 3 7 0 2, row 4 5 6 1 7 3 0 2,
    row 4 5 6 7 1 3 0 2, row 4 5 6 7 3 1 0 2, row 4 5 7 1 3 6 0 2, row 4 5 7 1 6 3 0 2,
    row 4 5 7 6 1 3 0 2, row 4 5 7 6 3 1 0 2, row 4 6 1 5 3 7 0 2, row 4 6 1 5 7 3 0 2,
    row 4 6 1 7 5 3 0 2, row 4 6 3 1 5 7 0 2, row 4 6 3 5 1 7 0 2, row 4 6 3 5 7 1 0 2,
    row 4 6 3 7 5 1 0 2, row 4 6 5 1 3 7 0 2, row 4 6 5 1 7 3 0 2, row 4 6 5 7 1 3 0 2,
    row 4 6 5 7 3 1 0 2, row 4 6 7 1 5 3 0 2, row 4 6 7 5 1 3 0 2, row 4 6 7 5 3 1 0 2,
    row 4 7 1 5 3 6 0 2, row 4 7 1 5 6 3 0 2, row 4 7 1 6 5 3 0 2, row 4 7 3 1 5 6 0 2,
    row 4 7 3 5 1 6 0 2, row 4 7 3 5 6 1 0 2, row 4 7 3 6 5 1 0 2, row 4 7 5 1 3 6 0 2,
    row 4 7 5 1 6 3 0 2, row 4 7 5 6 1 3 0 2, row 4 7 5 6 3 1 0 2, row 4 7 6 1 5 3 0 2,
    row 4 7 6 5 1 3 0 2, row 4 7 6 5 3 1 0 2, row 6 2 1 4 3 7 5 0, row 6 2 1 4 5 3 7 0,
    row 6 2 1 4 5 7 3 0, row 6 2 1 4 7 3 5 0, row 6 2 3 4 1 7 5 0, row 6 2 3 4 5 1 7 0,
    row 6 2 3 4 5 7 1 0, row 6 2 3 4 7 1 5 0, row 6 2 4 1 3 7 5 0, row 6 2 4 1 5 3 7 0,
    row 6 2 4 1 5 7 3 0, row 6 2 4 1 7 3 5 0, row 6 2 4 5 1 3 7 0, row 6 2 4 5 1 7 3 0,
    row 6 2 4 5 3 1 7 0, row 6 2 4 5 3 7 1 0, row 6 2 4 5 7 1 3 0, row 6 2 4 5 7 3 1 0,
    row 6 2 4 7 1 3 5 0, row 6 2 4 7 3 1 5 0, row 6 2 4 7 5 1 3 0, row 6 2 4 7 5 3 1 0,
    row 6 2 5 4 1 3 7 0, row 6 2 5 4 1 7 3 0, row 6 2 5 4 3 1 7 0, row 6 2 5 4 3 7 1 0,
    row 6 2 5 4 7 1 3 0, row 6 2 5 4 7 3 1 0, row 6 2 7 4 1 3 5 0, row 6 2 7 4 3 1 5 0,
    row 6 2 7 4 5 1 3 0, row 6 2 7 4 5 3 1 0, row 6 3 1 4 5 7 0 2, row 6 3 4 1 5 7 0 2,
    row 6 3 4 5 1 7 0 2, row 6 3 4 5 7 1 0 2, row 6 3 4 7 5 1 0 2, row 6 3 5 4 1 7 0 2,
    row 6 3 5 4 7 1 0 2, row 6 3 7 4 5 1 0 2, row 6 4 1 5 3 7 0 2, row 6 4 1 5 7 3 0 2,
    row 6 4 1 7 5 3 0 2, row 6 4 3 1 5 7 0 2, row 6 4 3 5 1 7 0 2, row 6 4 3 5 7 1 0 2,
    row 6 4 3 7 5 1 0 2, row 6 4 5 1 3 7 0 2, row 6 4 5 1 7 3 0 2, row 6 4 5 7 1 3 0 2,
    row 6 4 5 7 3 1 0 2, row 6 4 7 1 5 3 0 2, row 6 4 7 5 1 3 0 2, row 6 4 7 5 3 1 0 2,
    row 6 5 1 4 3 7 0 2, row 6 5 1 4 7 3 0 2, row 6 5 3 4 1 7 0 2, row 6 5 3 4 7 1 0 2,
    row 6 5 4 1 3 7 0 2, row 6 5 4 1 7 3 0 2, row 6 5 4 7 1 3 0 2, row 6 5 4 7 3 1 0 2,
    row 6 5 7 4 1 3 0 2, row 6 5 7 4 3 1 0 2, row 6 7 1 4 5 3 0 2, row 6 7 3 4 5 1 0 2,
    row 6 7 4 1 5 3 0 2, row 6 7 4 5 1 3 0 2, row 6 7 4 5 3 1 0 2, row 6 7 5 4 1 3 0 2,
    row 6 7 5 4 3 1 0 2, row 7 2 1 4 3 6 5 0, row 7 2 1 4 5 6 3 0, row 7 2 1 4 6 3 5 0,
    row 7 2 3 4 1 6 5 0, row 7 2 3 4 5 6 1 0, row 7 2 3 4 6 1 5 0, row 7 2 4 1 3 6 5 0,
    row 7 2 4 1 5 6 3 0, row 7 2 4 1 6 3 5 0, row 7 2 4 5 1 6 3 0, row 7 2 4 5 3 6 1 0,
    row 7 2 4 5 6 1 3 0, row 7 2 4 5 6 3 1 0, row 7 2 4 6 1 3 5 0, row 7 2 4 6 3 1 5 0,
    row 7 2 4 6 5 1 3 0, row 7 2 4 6 5 3 1 0, row 7 2 5 4 1 6 3 0, row 7 2 5 4 3 6 1 0,
    row 7 2 5 4 6 1 3 0, row 7 2 5 4 6 3 1 0, row 7 2 6 4 1 3 5 0, row 7 2 6 4 3 1 5 0,
    row 7 2 6 4 5 1 3 0, row 7 2 6 4 5 3 1 0, row 7 3 1 4 5 6 0 2, row 7 3 4 1 5 6 0 2,
    row 7 3 4 5 1 6 0 2, row 7 3 4 5 6 1 0 2, row 7 3 4 6 5 1 0 2, row 7 3 5 4 1 6 0 2,
    row 7 3 5 4 6 1 0 2, row 7 3 6 4 5 1 0 2, row 7 4 1 5 3 6 0 2, row 7 4 1 5 6 3 0 2,
    row 7 4 1 6 5 3 0 2, row 7 4 3 1 5 6 0 2, row 7 4 3 5 1 6 0 2, row 7 4 3 5 6 1 0 2,
    row 7 4 3 6 5 1 0 2, row 7 4 5 1 3 6 0 2, row 7 4 5 1 6 3 0 2, row 7 4 5 6 1 3 0 2,
    row 7 4 5 6 3 1 0 2, row 7 4 6 1 5 3 0 2, row 7 4 6 5 1 3 0 2, row 7 4 6 5 3 1 0 2,
    row 7 5 1 4 3 6 0 2, row 7 5 1 4 6 3 0 2, row 7 5 3 4 1 6 0 2, row 7 5 3 4 6 1 0 2,
    row 7 5 4 1 3 6 0 2, row 7 5 4 1 6 3 0 2, row 7 5 4 6 1 3 0 2, row 7 5 4 6 3 1 0 2,
    row 7 5 6 4 1 3 0 2, row 7 5 6 4 3 1 0 2, row 7 6 1 4 5 3 0 2, row 7 6 3 4 5 1 0 2,
    row 7 6 4 1 5 3 0 2, row 7 6 4 5 1 3 0 2, row 7 6 4 5 3 1 0 2, row 7 6 5 4 1 3 0 2,
    row 7 6 5 4 3 1 0 2]

theorem srcLookup_length : srcLookup.length = 625 := by decide +kernel

/-- The set of the entries of a row, one bit for each. -/
def entryMask (p : Fin 8 → Fin 8) : Nat :=
  2 ^ (p 0).val ||| 2 ^ (p 1).val ||| 2 ^ (p 2).val ||| 2 ^ (p 3).val |||
    2 ^ (p 4).val ||| 2 ^ (p 5).val ||| 2 ^ (p 6).val ||| 2 ^ (p 7).val

/-- A row whose entries fill the mask is a permutation. -/
theorem injective_of_entryMask {p : Fin 8 → Fin 8} (h : entryMask p = 255) :
    Function.Injective p := by
  rw [Finite.injective_iff_surjective]
  intro j
  have hbit : (entryMask p).testBit j.val = true := by
    rw [h]
    revert j
    decide
  simp only [entryMask, Nat.testBit_or, Nat.testBit_two_pow, Bool.or_eq_true,
    decide_eq_true_eq] at hbit
  rcases hbit with ((((((h | h) | h) | h) | h) | h) | h) | h <;> exact ⟨_, Fin.ext h⟩

/-- What the compilers rely on in a row: its entries are distinct, no used entry
names its own slot, and no source is read by a slot that a scheduler runs early. -/
structure Permitted (p : Fin 8 → Fin 8) : Prop where
  injective : Function.Injective p
  ne_self : ∀ i, i ≠ 0 → p i ≠ i
  one : p 1 ≠ 0
  two : p 2 ≠ 0
  three : p 3 ≠ 0 ∧ p 3 ≠ 2
  five : p 5 ≠ 4
  seven : p 7 ≠ 6

/-- The same properties as a test of one row. -/
def checkRow (p : Fin 8 → Fin 8) : Bool :=
  entryMask p = 255 ∧ (∀ i : Fin 8, i ≠ 0 → p i ≠ i) ∧
    p 1 ≠ 0 ∧ p 2 ≠ 0 ∧ (p 3 ≠ 0 ∧ p 3 ≠ 2) ∧ p 5 ≠ 4 ∧ p 7 ≠ 6

theorem srcLookup_checked : srcLookup.all checkRow = true := by decide +kernel

theorem permitted_of_mem {p : Fin 8 → Fin 8} (hp : p ∈ srcLookup) : Permitted p := by
  have hcheck := List.all_eq_true.mp srcLookup_checked p hp
  obtain ⟨hmask, hself, h1, h2, h3, h5, h7⟩ := of_decide_eq_true hcheck
  exact ⟨injective_of_entryMask hmask, hself, h1, h2, h3, h5, h7⟩

end HashWX
