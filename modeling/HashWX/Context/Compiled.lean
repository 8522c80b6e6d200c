import HashWX.Native.CodeSize

/-!
# Compiled contexts

`hashwx_make` and the call of `ctx->func` on a native target. The page rules of the code
buffer are part of its state: a store to pages that are not writable and a call of pages
that are not executable are faults, and have no result. Whether a change of the rules
succeeds is decided outside.
-/

namespace HashWX

open CodeMachine (Byte)
open Siphash (SiphashKey)

/-- The targets with a compiler to machine code. -/
inductive Native
  | x86 (abi : CompilerX86.Abi)
  | a64

def Native.compile : Native → ProgramList → Option (List Byte)
  | .x86 abi, list => CompilerX86.hashwxCompileX86 abi list
  | .a64, list => CompilerA64.hashwxCompileA64 list

/-! ## The code buffer -/

/-- `PAGE_READWRITE` and `PAGE_EXECUTE_READ`. -/
inductive PageRules | readWrite | executeRead
deriving DecidableEq

structure CodeBuffer where
  rules : PageRules
  bytes : Vector Byte 8192

/-- The result says whether the rules have changed. -/
def pageProtect (succeeds : Bool) (rules : PageRules) (buffer : CodeBuffer) : Bool × CodeBuffer :=
  if succeeds then (true, { buffer with rules := rules }) else (false, buffer)

/-- The result of `page_protect` is dropped. -/
def hashwxVmRw (succeeds : Bool) (buffer : CodeBuffer) : CodeBuffer :=
  (pageProtect succeeds .readWrite buffer).2

def hashwxVmRx (succeeds : Bool) (buffer : CodeBuffer) : CodeBuffer :=
  (pageProtect succeeds .executeRead buffer).2

def CodeBuffer.store (buffer : CodeBuffer) (pos : Nat) (b : Byte) : Option CodeBuffer := do
  if buffer.rules = .readWrite then return { buffer with bytes := ← FinArray.store buffer.bytes pos b }
  else none

/-- The stores of the emitters, from `pos` upwards. -/
def CodeBuffer.emit (buffer : CodeBuffer) (pos : Nat) : List Byte → Option CodeBuffer
  | [] => some buffer
  | b :: code => do (← buffer.store pos b).emit (pos + 1) code

/-- `hashwx_compile_x86` and `hashwx_compile_a64`. `rw` and `rx` say whether the calls of
`page_protect` succeed. -/
def hashwxCompile (native : Native) (list : ProgramList) (rw rx : Bool) (buffer : CodeBuffer) :
    Option CodeBuffer := do
  let buffer := hashwxVmRw rw buffer
  let code ← native.compile list
  let buffer ← buffer.emit 0 code
  return hashwxVmRx rx buffer

/-! ## Contexts -/

structure Compiled where
  code : CodeBuffer
  key : SiphashKey

/-- The buffer is mapped with `PAGE_READWRITE`; the rest of the context is not initialised. -/
def Compiled.alloc (bytes : Vector Byte 8192) (key : SiphashKey) : Compiled := ⟨⟨.readWrite, bytes⟩, key⟩

/-- `hashwx_make`. The program list is a local variable, and `memory` is what it holds before. -/
def Compiled.make (native : Native) (seed : Seed) (memory : ProgramList) (rw rx : Bool)
    (ctx : Compiled) : Option Compiled := do
  let list := hashwxProgramListGenerate (seedKeys seed).1 memory
  let code ← hashwxCompile native list rw rx ctx.code
  return ⟨code, (seedKeys seed).2⟩

/-- The code that a call of `ctx->func` runs. -/
def Compiled.func (ctx : Compiled) : Option (List Byte) :=
  if ctx.code.rules = .executeRead then some ctx.code.bytes.toList else none

/-! ## What is emitted -/

theorem Native.compile_fits (native : Native) (key : SiphashKey) (memory : ProgramList) :
    ∃ code, native.compile (hashwxProgramListGenerate key memory) = some code ∧ 0 < code.length ∧
      code.length ≤ 8192 := by
  obtain ⟨ts, -, ht⟩ := hashwxProgramListGenerate_describes key memory
  cases native with
  | x86 abi =>
    have hlength := CompilerX86.functionCode_length abi ts
    refine ⟨CompilerX86.functionCode abi ts, CompilerX86.hashwxCompileX86_eq ht, ?_⟩
    rw [hlength]
    cases abi <;> decide
  | a64 =>
    have hlength := CompilerA64.functionCode_length ts
    refine ⟨CompilerA64.functionCode ts, CompilerA64.hashwxCompileA64_eq ht, ?_⟩
    rw [hlength]
    decide

namespace CodeBuffer

variable {buffer : CodeBuffer}

/-- On writable pages every store succeeds. -/
theorem emit_eq_storeAll {code : List Byte} (bytes : Vector Byte 8192) (pos : Nat) :
    (⟨.readWrite, bytes⟩ : CodeBuffer).emit pos code =
      (FinArray.storeAll bytes pos code).map (CodeBuffer.mk .readWrite) := by
  induction code generalizing bytes pos with
  | nil => rfl
  | cons b code ih =>
    simp only [emit, store, if_true, FinArray.storeAll, bind, pure, Option.bind_assoc, Option.bind_some,
      Option.map_bind]
    exact congrArg _ (funext fun bytes => ih bytes (pos + 1))

/-- Writable pages hold the code behind what was there before. -/
theorem emit_eq {pos : Nat} {code : List Byte} (hrules : buffer.rules = .readWrite)
    (hfits : pos + code.length ≤ 8192) : ∃ bytes, buffer.emit pos code = some ⟨.readWrite, bytes⟩ ∧
      bytes.toList = buffer.bytes.toList.take pos ++ code ++
        buffer.bytes.toList.drop (pos + code.length) := by
  obtain ⟨rules, bytes⟩ := buffer
  obtain rfl : rules = .readWrite := hrules
  obtain ⟨bytes', hstore, hlist⟩ := FinArray.storeAll_eq bytes hfits
  refine ⟨bytes', ?_, hlist⟩
  rw [emit_eq_storeAll, hstore]
  rfl

theorem emit_none {pos : Nat} {code : List Byte} (hrules : buffer.rules ≠ .readWrite)
    (hcode : 0 < code.length) : buffer.emit pos code = none := by
  cases code with
  | nil => cases hcode
  | cons b code => simp only [emit, store, if_neg hrules, bind, Option.bind_none]

end CodeBuffer

theorem rules_hashwxVmRx (rx : Bool) (bytes : Vector Byte 8192) :
    (hashwxVmRx rx ⟨.readWrite, bytes⟩).rules = if rx then .executeRead else .readWrite := by
  unfold hashwxVmRx pageProtect
  cases rx <;> rfl

theorem bytes_hashwxVmRx (rx : Bool) (buffer : CodeBuffer) : (hashwxVmRx rx buffer).bytes = buffer.bytes := by
  unfold hashwxVmRx pageProtect
  cases rx <;> rfl

section Make

variable (native : Native) (seed : Seed) (memory : ProgramList) {rw : Bool} (rx : Bool) {ctx : Compiled}

/-- On writable pages the code of the seed stands in front of what was there before. -/
theorem Compiled.make_eq (h : (hashwxVmRw rw ctx.code).rules = .readWrite) : ∃ code bytes,
    native.compile (hashwxProgramListGenerate (seedKeys seed).1 memory) = some code ∧
    ctx.make native seed memory rw rx =
      some ⟨hashwxVmRx rx ⟨.readWrite, bytes⟩, (seedKeys seed).2⟩ ∧
    bytes.toList = code ++ ctx.code.bytes.toList.drop code.length := by
  obtain ⟨code, hcompile, -, hfits⟩ := native.compile_fits (seedKeys seed).1 memory
  have hbytes : (hashwxVmRw rw ctx.code).bytes = ctx.code.bytes := by
    unfold hashwxVmRw pageProtect
    cases rw <;> rfl
  have hzero : 0 + code.length ≤ 8192 := by omega
  obtain ⟨bytes, hemit, hlist⟩ := CodeBuffer.emit_eq h hzero
  refine ⟨code, bytes, hcompile, ?_, ?_⟩
  · simp only [make, hashwxCompile, hcompile, hemit, bind, Option.bind_some, pure]
  · rw [hlist, hbytes, List.take_zero, List.nil_append, Nat.zero_add]

theorem Compiled.make_none (h : (hashwxVmRw rw ctx.code).rules ≠ .readWrite) :
    ctx.make native seed memory rw rx = none := by
  obtain ⟨code, hcompile, hpos, -⟩ := native.compile_fits (seedKeys seed).1 memory
  simp only [make, hashwxCompile, hcompile, CodeBuffer.emit_none h hpos, bind, Option.bind_some,
    Option.bind_none]

end Make

end HashWX
