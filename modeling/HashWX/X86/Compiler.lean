import HashWX.Lib.CodeMachine
import HashWX.Program.Instruction

/-!
# The x86-64 compiler

`compiler_x86.c`. The bytes written so far stand for the write pointer, an emitter is
the list of bytes it writes, and `none` is undefined behaviour: an opcode that no case
handles, an array index out of bounds, a jump without a target.
-/

namespace HashWX.CompilerX86

open CodeMachine (Byte le16 le32)
open FinArray ForLoop

/-- `WINABI` or not. -/
inductive Abi | sysv | win
deriving DecidableEq

/-- The part of the prologue that the ABI decides: `push rsi; push rdi` or `mov rcx, rdi`. -/
def prologueStart : Abi → List Byte
  | .win => [0x56, 0x57]
  | .sysv => [0x48, 0x89, 0xf9]

def codePrologue (abi : Abi) : List Byte :=
  prologueStart abi ++ [0x53, 0x55, 0x41, 0x54, 0x41, 0x55, 0x41, 0x56, 0x41, 0x57,
    0x4c, 0x8b, 0x01, 0x4c, 0x8b, 0x49, 0x08, 0x4c, 0x8b, 0x51, 0x10, 0x4c, 0x8b, 0x59, 0x18,
    0x4c, 0x8b, 0x61, 0x20, 0x4c, 0x8b, 0x69, 0x28, 0x4c, 0x8b, 0x71, 0x30, 0x4c, 0x8b, 0x79, 0x38,
    0x48, 0x8b, 0x71, 0x40, 0x48, 0x8b, 0x79, 0x48, 0x31, 0xdb, 0x8d, 0x6b, 0x01]

/-- `pop rdi; pop rsi`, or nothing. -/
def epilogueEnd : Abi → List Byte
  | .win => [0x5f, 0x5e]
  | .sysv => []

def codeEpilogue (abi : Abi) : List Byte :=
  [0x48, 0x81, 0xc4, 0x00, 0x08, 0x00, 0x00,
    0x4c, 0x89, 0x01, 0x4c, 0x89, 0x49, 0x08, 0x4c, 0x89, 0x51, 0x10, 0x4c, 0x89, 0x59, 0x18,
    0x4c, 0x89, 0x61, 0x20, 0x4c, 0x89, 0x69, 0x28, 0x4c, 0x89, 0x71, 0x30, 0x4c, 0x89, 0x79, 0x38,
    0x41, 0x5f, 0x41, 0x5e, 0x41, 0x5d, 0x41, 0x5c, 0x5d, 0x5b] ++
  epilogueEnd abi ++ [0xc3]

def codeTarget : List Byte := [0x85, 0xed, 0x0f, 0x44, 0xdd]

def codeBranch : List Byte := [0x09, 0xda, 0x8d, 0x6b, 0x01, 0xf6, 0xc2, 0x20]

def codeStore : List Byte :=
  [0x41, 0x50, 0x41, 0x51, 0x41, 0x52, 0x41, 0x53, 0x41, 0x54, 0x41, 0x55, 0x41, 0x56, 0x41, 0x57]

def codeAddress : List Byte := [0x25, 0xf8, 0x07, 0x00, 0x00]

def codeClearBc : List Byte := [0x31, 0xdb]

def tplMul : Vector (BitVec 32) 3 := #v[0x00c88349, 0x00f08349, 0x00c08349]

def tplPreXas : Vector (BitVec 32) 3 := #v[0x00c8c149, 0x00f8c149, 0x00e8c149]

def tplXasReg : Vector (BitVec 16) 3 := #v[0xc031, 0xc001, 0xc029]

def tplXasMem : Vector (BitVec 32) 3 := #v[0x0404334c, 0x0404034c, 0x04042b4c]

/-! ## Emitters -/

def emitImulReg4c (dst src : Nat) : List Byte := le32 (0xc0af0f4c ||| u32 src <<< 24 ||| u32 dst <<< 27)

def emitImulReg4d (dst src : Nat) : List Byte := le32 (0xc0af0f4d ||| u32 src <<< 24 ||| u32 dst <<< 27)

def emitImulMem (dst : Nat) : List Byte := 0x4c :: le32 (0x0404af0f ||| u32 dst <<< 19)

def emitOpImm (tpl : BitVec 32) (dst imm : Nat) : List Byte :=
  le32 (tpl ||| u32 dst <<< 16 ||| u32 imm <<< 24)

/-- The shifts are of `uint32_t`; the results are truncated to `uint16_t`. -/
def opReg (tpl : BitVec 16) (dst src : Nat) : BitVec 16 :=
  tpl ||| (u32 dst <<< 8).setWidth 16 ||| (u32 src <<< 11).setWidth 16

def emitOpReg4d (tpl : BitVec 16) (dst src : Nat) : List Byte := 0x4d :: le16 (opReg tpl dst src)

def emitOpReg4c (tpl : BitVec 16) (dst src : Nat) : List Byte := 0x4c :: le16 (opReg tpl dst src)

def emitOpMem (tpl : BitVec 32) (dst : Nat) : List Byte := le32 (tpl ||| u32 dst <<< 19)

/-- The offset counts from the end of the short form, so it lands two bytes behind the
target. -/
def emitJz (pos target : Nat) : List Byte :=
  let offset := u32 target - u32 pos
  if -128 ≤ offset then le16 (0x0074 ||| (offset <<< 8).setWidth 16)
  else le16 0x840f ++ le32 (offset - 4)

/-! ## Programs -/

/-- The cases of INSTR_RMCG. -/
def compileRmcg (instr : Instruction) : List Byte :=
  codeTarget ++ emitImulReg4c instr.dst (u32 instr.src - 2).toNat ++
    emitOpImm 0x00c8c149 instr.dst instr.imm ++ emitOpReg4c 0xc089 2 instr.dst

/-- One iteration of `compile_program_reg`; the state is `pos` and `target`. -/
def compileInstrReg (s : List Byte × Option Nat) (instr : Instruction) :
    Option (List Byte × Option Nat) := do
  let (pos, target) := s
  match instr.opcode with
  | .mulor | .mulxor | .muladd =>
    let tpl ← load tplMul instr.opcode.toNat
    return (pos ++ emitOpImm tpl instr.dst instr.imm ++ emitImulReg4d instr.dst instr.src, target)
  | .rmcg => return (pos ++ compileRmcg instr, some pos.length)
  | .branch =>
    let pos := pos ++ codeBranch
    return (pos ++ emitJz pos.length (← target), target)
  | .halt => return (pos, target)
  | .invalid _ => none
  | opcode =>
    let opcode := opcode.toNat - 4
    let pre ← load tplPreXas (opcode / 3)
    let tpl ← load tplXasReg (opcode % 3)
    return (pos ++ emitOpImm pre instr.dst instr.imm ++ emitOpReg4d tpl instr.dst instr.src, target)

/-- One iteration of `compile_program_mem`. -/
def compileInstrMem (s : List Byte × Option Nat) (instr : Instruction) :
    Option (List Byte × Option Nat) := do
  let (pos, target) := s
  match instr.opcode with
  | .mulor | .mulxor | .muladd =>
    let tpl ← load tplMul instr.opcode.toNat
    return (pos ++ emitOpReg4c 0xc089 0 instr.src ++ emitOpImm tpl instr.dst instr.imm ++
      codeAddress ++ emitImulMem instr.dst, target)
  | .rmcg => return (pos ++ compileRmcg instr, some pos.length)
  | .branch =>
    let pos := pos ++ codeBranch
    return (pos ++ emitJz pos.length (← target), target)
  | .halt => return (pos, target)
  | .invalid _ => none
  | opcode =>
    let opcode := opcode.toNat - 4
    let pre ← load tplPreXas (opcode / 3)
    let tpl ← load tplXasMem (opcode % 3)
    return (pos ++ emitOpReg4c 0xc089 0 instr.src ++ emitOpImm pre instr.dst instr.imm ++
      codeAddress ++ emitOpMem tpl instr.dst, target)

def compileProgramReg (program : Program) (pos : List Byte) : Option (List Byte) :=
  (forLoopM 10 (fun s i => compileInstrReg s program[i]) (pos, none)).map Prod.fst

def compileProgramMem (program : Program) (pos : List Byte) : Option (List Byte) :=
  (forLoopM 10 (fun s i => compileInstrMem s program[i]) (pos, none)).map Prod.fst

/-- The bytes that `hashwx_compile_x86` writes to the start of the code buffer. -/
def hashwxCompileX86 (abi : Abi) (list : ProgramList) : Option (List Byte) := do
  let pos ← forLoopM 32 (fun pos i => do return (← compileProgramReg list[i] pos) ++ codeStore)
    (codePrologue abi)
  let pos ← forLoopM 32 (fun pos i => compileProgramMem list[i] pos) (pos ++ codeClearBc)
  return pos ++ codeEpilogue abi

/-- The write pointer in front of program `k` of the first phase. -/
def compileRegFirst (abi : Abi) (list : ProgramList) (k : Nat) (hk : k ≤ 32) : Option (List Byte) :=
  forLoopM k (fun pos i => do return (← compileProgramReg list[i.castLE hk] pos) ++ codeStore)
    (codePrologue abi)

/-- The write pointer in front of program `k` of the second phase. -/
def compileMemFirst (abi : Abi) (list : ProgramList) (k : Nat) (hk : k ≤ 32) :
    Option (List Byte) := do
  let pos ← compileRegFirst abi list 32 all_programs
  forLoopM k (fun pos i => compileProgramMem list[i.castLE hk] pos) (pos ++ codeClearBc)

theorem hashwxCompileX86_eq_first (abi : Abi) (list : ProgramList) :
    hashwxCompileX86 abi list =
      (compileMemFirst abi list 32 le_rfl).map fun pos => pos ++ codeEpilogue abi := by
  rw [compileMemFirst, Option.map_eq_bind]
  exact (Option.bind_assoc _ _ _).symm

end HashWX.CompilerX86
