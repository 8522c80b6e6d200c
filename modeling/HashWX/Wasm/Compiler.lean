import HashWX.Context.Target
import HashWX.Lib.CodeMachine
import HashWX.Program.Instruction

/-!
# The WebAssembly compiler

`compiler_wasm.c`. The bytes written so far stand for the write pointer, as in the other
compilers. In a build with assertions a failed one aborts, and elsewhere it is not
compiled in.
-/

namespace HashWX.CompilerWasm

open CodeMachine (Byte)
open FinArray ForLoop

/-- Conversion to `uint8_t`. -/
def u8 (n : Nat) : Byte := BitVec.ofNat 8 n

/-- `ALIGN`. -/
abbrev align : Byte := 3

/-! ## Local variables -/

abbrev parRp : Byte := 0x00
abbrev parMp : Byte := 0x01
abbrev locR0 : Byte := 0x02
abbrev locR1 : Byte := 0x03
abbrev locR2 : Byte := 0x04
abbrev locR3 : Byte := 0x05
abbrev locR4 : Byte := 0x06
abbrev locR5 : Byte := 0x07
abbrev locR6 : Byte := 0x08
abbrev locR7 : Byte := 0x09
abbrev locR8 : Byte := 0x0a
abbrev locR9 : Byte := 0x0b
abbrev locBc : Byte := 0x0c
abbrev locBf : Byte := 0x0d
abbrev locMm : Byte := 0x0e

/-! ## Opcodes and types -/

abbrev opInvalid : Byte := 0x00
abbrev opLoop : Byte := 0x03
abbrev opIf : Byte := 0x04
abbrev opEnd : Byte := 0x0b
abbrev opBr : Byte := 0x0c
abbrev opGet : Byte := 0x20
abbrev opSet : Byte := 0x21
abbrev opTee : Byte := 0x22
abbrev opLoad : Byte := 0x29
abbrev opStore : Byte := 0x37
abbrev opConst32 : Byte := 0x41
abbrev opConst64 : Byte := 0x42
abbrev opEqz : Byte := 0x50
abbrev opAdd32 : Byte := 0x6a
abbrev opSub32 : Byte := 0x6b
abbrev opAdd64 : Byte := 0x7c
abbrev opSub64 : Byte := 0x7d
abbrev opMul : Byte := 0x7e
abbrev opAnd : Byte := 0x83
abbrev opOr : Byte := 0x84
abbrev opXor : Byte := 0x85
abbrev opShrs : Byte := 0x87
abbrev opShru : Byte := 0x88
abbrev opRor : Byte := 0x8a
abbrev opWrap32 : Byte := 0xa7

abbrev typeVoid : Byte := 0x40
abbrev typeFunc : Byte := 0x60
abbrev typeI64 : Byte := 0x7e
abbrev typeI32 : Byte := 0x7f

/-! ## Tables -/

def codePrologue : List Byte := [
  -- magic and version
  0x00, 0x61, 0x73, 0x6d, 0x01, 0x00, 0x00, 0x00,
  -- section Type
  0x01, 0x06, 0x01, typeFunc, 2, typeI32, typeI32, 0,
  -- section Import: "env", "memory"
  0x02, 0x0f, 0x01, 0x03, 0x65, 0x6e, 0x76, 0x06, 0x6d, 0x65, 0x6d, 0x6f, 0x72, 0x79, 0x02, 0x00, 0x01,
  -- section Function
  0x03, 0x02, 0x01, 0x00,
  -- section Export: "exec"
  0x07, 0x08, 0x01, 0x04, 0x65, 0x78, 0x65, 0x63, 0x00, 0x00,
  -- section Code: the sizes are 11227 and 11223
  0x0a, 0xdb, 0xd7, 0x00, 1, 0xd7, 0xd7, 0x00, 1, 13, typeI64,
  opGet, parRp, opLoad, align, 0, opSet, locR0,
  opGet, parRp, opLoad, align, 8, opSet, locR1,
  opGet, parRp, opLoad, align, 16, opSet, locR2,
  opGet, parRp, opLoad, align, 24, opSet, locR3,
  opGet, parRp, opLoad, align, 32, opSet, locR4,
  opGet, parRp, opLoad, align, 40, opSet, locR5,
  opGet, parRp, opLoad, align, 48, opSet, locR6,
  opGet, parRp, opLoad, align, 56, opSet, locR7,
  opGet, parRp, opLoad, align, 64, opSet, locR8,
  opGet, parRp, opLoad, align, 72, opSet, locR9,
  opConst64, 0, opSet, locBc,
  opConst64, 0xf8, 0x0f, opSet, locMm,
  opConst32, 0x80, 0x10, opGet, parMp, opAdd32, opSet, parMp]

def codeEpilogue : List Byte := [
  opGet, parRp, opGet, locR0, opStore, align, 0,
  opGet, parRp, opGet, locR1, opStore, align, 8,
  opGet, parRp, opGet, locR2, opStore, align, 16,
  opGet, parRp, opGet, locR3, opStore, align, 24,
  opGet, parRp, opGet, locR4, opStore, align, 32,
  opGet, parRp, opGet, locR5, opStore, align, 40,
  opGet, parRp, opGet, locR6, opStore, align, 48,
  opGet, parRp, opGet, locR7, opStore, align, 56,
  opEnd]

def codeClearBc : List Byte := [opConst64, 0x00, opSet, locBc]

def codeRegPrologue : List Byte :=
  [opGet, parMp, opConst32, 0xc0, 0x00, opSub32, opSet, parMp, opLoop, typeVoid]

def codeRegEpilogue : List Byte := [
  opEnd,
  opGet, parMp, opGet, locR0, opStore, align, 56,
  opGet, parMp, opGet, locR1, opStore, align, 48,
  opGet, parMp, opGet, locR2, opStore, align, 40,
  opGet, parMp, opGet, locR3, opStore, align, 32,
  opGet, parMp, opGet, locR4, opStore, align, 24,
  opGet, parMp, opGet, locR5, opStore, align, 16,
  opGet, parMp, opGet, locR6, opStore, align, 8,
  opGet, parMp, opGet, locR7, opStore, align, 0]

def codeBranch : List Byte := [
  opGet, locBc, opGet, locBf, opOr, opConst64, 32, opAnd, opEqz,
  opIf, typeVoid, opConst64, 1, opGet, locBc, opAdd64, opSet, locBc, opBr, 0x01, opEnd]

def lookupPre : Vector Byte 13 := #v[opOr, opXor, opAdd64, opInvalid, opRor, opRor, opRor,
  opShrs, opShrs, opShrs, opShru, opShru, opShru]

def lookupPost : Vector Byte 13 := #v[opMul, opMul, opMul, opInvalid, opXor, opAdd64, opSub64,
  opXor, opAdd64, opSub64, opXor, opAdd64, opSub64]

/-! ## Programs -/

/-- The cases of INSTR_RMCG. -/
def compileRmcg (instr : Instruction) : List Byte :=
  [opGet, locR0 + u8 instr.dst, opGet, locR0 + u8 instr.src, opMul, opConst64, u8 instr.imm, opRor,
    opTee, locR0 + u8 instr.dst, opSet, locBf]

/-- One iteration of `compile_program_reg`. -/
def compileInstrReg (pos : List Byte) (instr : Instruction) : Option (List Byte) := do
  match instr.opcode with
  | .mulor | .mulxor | .muladd =>
    return pos ++ [opGet, locR0 + u8 instr.dst, opConst64, u8 instr.imm,
      ← load lookupPre instr.opcode.toNat, opGet, locR0 + u8 instr.src, opMul,
      opSet, locR0 + u8 instr.dst]
  | .rmcg => return pos ++ compileRmcg instr
  | .branch => return pos ++ codeBranch
  | .halt => return pos
  | .invalid _ => none
  | opcode =>
    return pos ++ [opGet, locR0 + u8 instr.dst, opConst64, u8 instr.imm,
      ← load lookupPre opcode.toNat, opGet, locR0 + u8 instr.src, ← load lookupPost opcode.toNat,
      opSet, locR0 + u8 instr.dst]

def emitMemSrc (src : Nat) : List Byte :=
  [opGet, locR0 + u8 src, opGet, locMm, opAnd, opWrap32, opGet, parMp, opAdd32, opLoad, align, 0]

/-- One iteration of `compile_program_mem`. -/
def compileInstrMem (pos : List Byte) (instr : Instruction) : Option (List Byte) := do
  match instr.opcode with
  | .mulor | .mulxor | .muladd =>
    return pos ++ emitMemSrc instr.src ++ [opGet, locR0 + u8 instr.dst, opConst64, u8 instr.imm,
      ← load lookupPre instr.opcode.toNat, opMul, opSet, locR0 + u8 instr.dst]
  | .rmcg => return pos ++ compileRmcg instr
  | .branch => return pos ++ codeBranch
  | .halt => return pos
  | .invalid _ => none
  | opcode =>
    return pos ++ [opGet, locR0 + u8 instr.dst, opConst64, u8 instr.imm,
      ← load lookupPre opcode.toNat] ++ emitMemSrc instr.src ++
      [← load lookupPost opcode.toNat, opSet, locR0 + u8 instr.dst]

/-! ## Assertions -/

/-- Why a compilation has no result. -/
inductive Stop
  | undefined
  | abort
deriving DecidableEq

/-- `assert`, which `NDEBUG` removes. -/
def assertSize (ndebug : Bool) (pos code : List Byte) (size : Nat) : Except Stop Unit :=
  if ndebug ∨ pos.length - code.length = size then .ok () else .error .abort

def defined {α : Type} : Option α → Except Stop α
  | some a => .ok a
  | none => .error .undefined

/-- `WASM_REG_PROGRAM_SIZE`. -/
def wasmRegProgramSize : Nat := 173

/-- `WASM_MEM_PROGRAM_SIZE`. -/
def wasmMemProgramSize : Nat := 179

def compileProgramReg (ndebug : Bool) (program : Program) (code : List Byte) :
    Except Stop (List Byte) := do
  let pos ← defined (forLoopM 10 (fun pos i => compileInstrReg pos program[i]) (code ++ codeRegPrologue))
  let pos := pos ++ codeRegEpilogue
  assertSize ndebug pos code wasmRegProgramSize
  return pos

def compileProgramMem (ndebug : Bool) (program : Program) (code : List Byte) :
    Except Stop (List Byte) := do
  let pos := code ++ [opLoop, typeVoid]
  let pos ← defined (forLoopM 10 (fun pos i => compileInstrMem pos program[i]) pos)
  let pos := pos ++ [opEnd]
  assertSize ndebug pos code wasmMemProgramSize
  return pos

/-- The bytes that `hashwx_compile_wasm` writes. -/
def hashwxCompileWasm (ndebug : Bool) (list : ProgramList) : Except Stop (List Byte) := do
  let pos ← forLoopE 32 (fun pos i => compileProgramReg ndebug list[i] pos) codePrologue
  let pos ← forLoopE 32 (fun pos i => compileProgramMem ndebug list[i] pos) (pos ++ codeClearBc)
  let pos := pos ++ codeEpilogue
  assertSize ndebug pos [] (hashwxCodeSize .wasm)
  return pos

end HashWX.CompilerWasm
