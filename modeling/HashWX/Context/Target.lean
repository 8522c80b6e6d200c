import Mathlib.Tactic.Common

/-!
# Build targets

What `compiler.h` defines for each target.
-/

namespace HashWX

inductive Target | x86 | a64 | rv64 | wasm | other
deriving DecidableEq

/-- `HASHWX_COMPILER`. -/
def hashwxCompiler : Target → Bool
  | .x86 | .a64 | .wasm => true
  | .rv64 | .other => false

/-- `HASHWX_CODE_SIZE`. -/
def hashwxCodeSize : Target → Nat
  | .x86 | .a64 | .rv64 => 8192
  | .wasm => 11278
  | .other => 0

end HashWX
