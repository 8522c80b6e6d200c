import HashWX.Isa.WasmBinary
import HashWX.Program.Layout
import HashWX.Wasm.Compiler

/-!
# The code of one program

Every instruction of a program becomes a short sequence of WebAssembly instructions, and
a program a loop around them. What differs between the two forms is the order in which
MUL and XAS instructions put their operands on the stack.
-/

namespace HashWX.CompilerWasm

open CodeMachine (Byte)
open ForLoop
open Wasm (Plain Code Binop Reads Decodes readInstr decodes_cons decodes_plains decodes_plain)

/-! ## Operators -/

def mulBinop : MulOp → Binop
  | .or => .or
  | .xor => .xor
  | .add => .add

def preBinop : PreOp → Binop
  | .ror => .rotr
  | .asr => .shrS
  | .lsr => .shrU

def postBinop : PostOp → Binop
  | .xor => .xor
  | .add => .add
  | .sub => .sub

def mulByte : MulOp → Byte
  | .or => opOr
  | .xor => opXor
  | .add => opAdd64

def preByte : PreOp → Byte
  | .ror => opRor
  | .asr => opShrs
  | .lsr => opShru

def postByte : PostOp → Byte
  | .xor => opXor
  | .add => opAdd64
  | .sub => opSub64

/-! ## Instructions -/

/-- The code of RMCG. Local variable 13 is the branch flag. -/
def rmcg (x : Rmcg) : List Plain :=
  [.localGet (2 + x.dst), .localGet (2 + (8 + x.src)), .i64 .mul, .i64Const (BitVec.ofNat 64 x.imm),
    .i64 .rotr, .localTee (2 + x.dst), .localSet 13]

def premul (x : Mul) : List Plain :=
  [.localGet (2 + x.dst), .i64Const (BitVec.ofNat 64 x.imm), .i64 (mulBinop x.op)]

def preXas (x : Xas) : List Plain :=
  [.localGet (2 + x.dst), .i64Const (BitVec.ofNat 64 x.imm), .i64 (preBinop x.pre)]

/-- The word that a register addresses. -/
def memSrc (src : Fin 8) : List Plain :=
  [.localGet (2 + src), .localGet 14, .i64 .and, .i32WrapI64, .localGet 1, .i32Add, .i64Load 3 0]

/-- The code of a multiplication, with a register for the operand. -/
def mulReg (x : Mul) : List Plain :=
  premul x ++ ([.localGet (2 + x.src)] ++ [.i64 .mul, .localSet (2 + x.dst)])

/-- The same with a scratchpad word, which is loaded first. -/
def mulMem (x : Mul) : List Plain :=
  memSrc x.src ++ (premul x ++ [.i64 .mul, .localSet (2 + x.dst)])

/-- The code of a shift with addition, subtraction or exclusive or. -/
def xasReg (x : Xas) : List Plain :=
  preXas x ++ ([.localGet (2 + x.src)] ++ [.i64 (postBinop x.post), .localSet (2 + x.dst)])

def xasMem (x : Xas) : List Plain :=
  preXas x ++ (memSrc x.src ++ [.i64 (postBinop x.post), .localSet (2 + x.dst)])

/-- The loop is entered again if bit 5 of neither the flag nor the count is set. -/
def branch : Code :=
  .plains [.localGet 12, .localGet 13, .i64 .or, .i64Const 32, .i64 .and, .i64Eqz] ++
    .ifThen (.plains [.i64Const 1, .localGet 12, .i64 .add, .localSet 12] ++ .br 1 .done) .done

def premulCode (x : Mul) : List Byte :=
  [opGet, locR0 + u8 x.dst, opConst64, u8 x.imm, mulByte x.op]

def preXasCode (x : Xas) : List Byte :=
  [opGet, locR0 + u8 x.dst, opConst64, u8 x.imm, preByte x.pre]

def mulRegCode (x : Mul) : List Byte :=
  premulCode x ++ ([opGet, locR0 + u8 x.src] ++ [opMul, opSet, locR0 + u8 x.dst])

def mulMemCode (x : Mul) : List Byte :=
  emitMemSrc x.src ++ (premulCode x ++ [opMul, opSet, locR0 + u8 x.dst])

def xasRegCode (x : Xas) : List Byte :=
  preXasCode x ++ ([opGet, locR0 + u8 x.src] ++ [postByte x.post, opSet, locR0 + u8 x.dst])

def xasMemCode (x : Xas) : List Byte :=
  preXasCode x ++ (emitMemSrc x.src ++ [postByte x.post, opSet, locR0 + u8 x.dst])

/-! ## Compilation -/

theorem compileInstrReg_mul (pos : List Byte) (x : Mul) :
    compileInstrReg pos x.instruction = some (pos ++ mulRegCode x) := by
  unfold mulRegCode premulCode Mul.instruction
  cases x.op <;> rfl

theorem compileInstrReg_xas (pos : List Byte) (x : Xas) :
    compileInstrReg pos x.instruction = some (pos ++ xasRegCode x) := by
  unfold xasRegCode preXasCode Xas.instruction
  cases x.pre <;> cases x.post <;> rfl

theorem compileInstrMem_mul (pos : List Byte) (x : Mul) :
    compileInstrMem pos x.instruction = some (pos ++ mulMemCode x) := by
  unfold mulMemCode premulCode Mul.instruction
  rw [← List.append_assoc]
  cases x.op <;> rfl

theorem compileInstrMem_xas (pos : List Byte) (x : Xas) :
    compileInstrMem pos x.instruction = some (pos ++ xasMemCode x) := by
  unfold xasMemCode preXasCode Xas.instruction
  rw [← List.append_assoc, ← List.append_assoc]
  cases x.pre <;> cases x.post <;> rfl

/-! ## Decoding -/

theorem locR0_add (k : Nat) : locR0 + u8 k = BitVec.ofNat 8 (2 + k) := (BitVec.ofNat_add 2 k).symm

/-- The local variables have indices below 128, which are single bytes. -/
theorem reads_get {k : Nat} (hk : k < 10) : Reads readInstr [opGet, locR0 + u8 k] (.localGet (2 + k)) := by
  intro tail
  rw [locR0_add]
  exact Option.bind_eq_some_iff.mpr ⟨(2 + k, tail), Wasm.reads_u32 (by omega) tail, rfl⟩

theorem reads_set {k : Nat} (hk : k < 10) : Reads readInstr [opSet, locR0 + u8 k] (.localSet (2 + k)) := by
  intro tail
  rw [locR0_add]
  exact Option.bind_eq_some_iff.mpr ⟨(2 + k, tail), Wasm.reads_u32 (by omega) tail, rfl⟩

theorem reads_tee {k : Nat} (hk : k < 10) : Reads readInstr [opTee, locR0 + u8 k] (.localTee (2 + k)) := by
  intro tail
  rw [locR0_add]
  exact Option.bind_eq_some_iff.mpr ⟨(2 + k, tail), Wasm.reads_u32 (by omega) tail, rfl⟩

/-- The constants are below 64, so that no sign bit shows in their single byte. -/
theorem reads_const {imm : Nat} (himm : imm < 64) :
    Reads readInstr [opConst64, u8 imm] (.i64Const (BitVec.ofNat 64 imm)) := by
  intro tail
  exact Option.bind_eq_some_iff.mpr ⟨(imm, tail), Wasm.reads_s64 himm tail, rfl⟩

theorem reads_mulOp (op : MulOp) : Reads readInstr [mulByte op] (.i64 (mulBinop op)) := by
  cases op <;> exact fun _ => rfl

theorem reads_preOp (op : PreOp) : Reads readInstr [preByte op] (.i64 (preBinop op)) := by
  cases op <;> exact fun _ => rfl

theorem reads_postOp (op : PostOp) : Reads readInstr [postByte op] (.i64 (postBinop op)) := by
  cases op <;> exact fun _ => rfl

theorem decodes_set {k : Nat} (hk : k < 10) : Decodes [opSet, locR0 + u8 k] (.plains [.localSet (2 + k)]) :=
  decodes_plain (reads_set hk)

theorem decodes_rmcg (x : Rmcg) : Decodes (compileRmcg x.instruction) (.plains (rmcg x)) := by
  have hmul : Reads readInstr [opMul] (.i64 .mul) := fun _ => rfl
  have hror : Reads readInstr [opRor] (.i64 .rotr) := fun _ => rfl
  have hflag : Reads readInstr [opSet, locBf] (.localSet 13) := fun _ => rfl
  have hdst : x.dst.val < 10 := by omega
  have hsrc : 8 + x.src.val < 10 := by omega
  exact decodes_cons (reads_get hdst) <| decodes_cons (reads_get hsrc) <| decodes_cons hmul <|
    decodes_cons (reads_const (Nat.lt_succ_of_le x.imm_le)) <| decodes_cons hror <|
    decodes_cons (reads_tee hdst) (decodes_plain hflag)

theorem decodes_premul (x : Mul) : Decodes (premulCode x) (.plains (premul x)) := by
  have hdst : x.dst.val < 10 := by omega
  exact decodes_cons (reads_get hdst) <| decodes_cons (reads_const x.imm_lt) <|
    decodes_plain (reads_mulOp x.op)

theorem decodes_preXas (x : Xas) : Decodes (preXasCode x) (.plains (preXas x)) := by
  have hdst : x.dst.val < 10 := by omega
  exact decodes_cons (reads_get hdst) <| decodes_cons (reads_const x.imm_lt) <|
    decodes_plain (reads_preOp x.pre)

theorem decodes_memSrc (src : Fin 8) : Decodes (emitMemSrc src) (.plains (memSrc src)) := by
  have hsrc : src.val < 10 := by omega
  exact decodes_cons (reads_get hsrc) (decodes_plains rfl)

/-- The end of each instruction: an operator, and the result goes to the destination. -/
theorem decodes_combine {op : Binop} {b : Byte} (hop : Reads readInstr [b] (.i64 op)) (dst : Fin 8) :
    Decodes [b, opSet, locR0 + u8 dst] (.plains [.i64 op, .localSet (2 + dst)]) := by
  have hdst : dst.val < 10 := by omega
  exact decodes_cons hop (decodes_set hdst)

section Families

variable {bs cs : List Byte} {is js : List Plain}

theorem decodes_append (h : Decodes bs (.plains is)) (h' : Decodes cs (.plains js)) :
    Decodes (bs ++ cs) (.plains (is ++ js)) := by
  rw [Code.plains_append]
  exact h.append h'

theorem decodes_get (src : Fin 8) :
    Decodes [opGet, locR0 + u8 src] (.plains [.localGet (2 + src)]) := by
  have hsrc : src.val < 10 := by omega
  exact decodes_plain (reads_get hsrc)

/-- The bytes of a multiplication are its code. -/
theorem decodes_mulReg (x : Mul) : Decodes (mulRegCode x) (.plains (mulReg x)) := by
  have hmul : Reads readInstr [opMul] (.i64 .mul) := fun _ => rfl
  exact decodes_append (decodes_premul x) <| decodes_append (decodes_get x.src) <|
    decodes_combine hmul x.dst

theorem decodes_mulMem (x : Mul) : Decodes (mulMemCode x) (.plains (mulMem x)) := by
  have hmul : Reads readInstr [opMul] (.i64 .mul) := fun _ => rfl
  exact decodes_append (decodes_memSrc x.src) <| decodes_append (decodes_premul x) <|
    decodes_combine hmul x.dst

theorem decodes_xasReg (x : Xas) : Decodes (xasRegCode x) (.plains (xasReg x)) :=
  decodes_append (decodes_preXas x) <| decodes_append (decodes_get x.src) <|
    decodes_combine (reads_postOp x.post) x.dst

theorem decodes_xasMem (x : Xas) : Decodes (xasMemCode x) (.plains (xasMem x)) :=
  decodes_append (decodes_preXas x) <| decodes_append (decodes_memSrc x.src) <|
    decodes_combine (reads_postOp x.post) x.dst

end Families

/-- The bytes of a branch are its code, with the jump inside of an `if`. -/
theorem decodes_branch : Decodes codeBranch branch := by
  have hbr : Decodes [opBr, 0x01] (.br 1 .done) := Wasm.decodes_br fun _ => rfl
  have htest : Decodes [opGet, locBc, opGet, locBf, opOr, opConst64, 32, opAnd, opEqz]
      (.plains [.localGet 12, .localGet 13, .i64 .or, .i64Const 32, .i64 .and, .i64Eqz]) :=
    decodes_plains rfl
  have hcount : Decodes [opConst64, 1, opGet, locBc, opAdd64, opSet, locBc]
      (.plains [.i64Const 1, .localGet 12, .i64 .add, .localSet 12]) := decodes_plains rfl
  exact htest.append (hcount.append hbr).ifThen

/-! ## Forms -/

/-- A form in which programs are compiled. -/
structure Form where
  compileInstr : List Byte → Instruction → Option (List Byte)
  mulCode : Mul → List Byte
  xasCode : Xas → List Byte
  mul : Mul → List Plain
  xas : Xas → List Plain
  compile_mul (pos) (x : Mul) : compileInstr pos x.instruction = some (pos ++ mulCode x)
  compile_xas (pos) (x : Xas) : compileInstr pos x.instruction = some (pos ++ xasCode x)
  compile_rmcg (pos) (x : Rmcg) :
    compileInstr pos x.instruction = some (pos ++ compileRmcg x.instruction)
  compile_branch (pos) {instr : Instruction} (h : instr.opcode = .branch) :
    compileInstr pos instr = some (pos ++ codeBranch)
  compile_halt (pos) {instr : Instruction} (h : instr.opcode = .halt) :
    compileInstr pos instr = some pos
  decodes_mul (x : Mul) : Decodes (mulCode x) (.plains (mul x))
  decodes_xas (x : Xas) : Decodes (xasCode x) (.plains (xas x))
  length : Nat
  mul_length (x : Mul) : (mulCode x).length = length
  xas_length (x : Xas) : (xasCode x).length = length

/-- The form of the first phase, 10 bytes for each instruction but RMCG and BRANCH. -/
def regForm : Form where
  compileInstr := compileInstrReg
  mulCode := mulRegCode
  xasCode := xasRegCode
  mul := mulReg
  xas := xasReg
  compile_mul := compileInstrReg_mul
  compile_xas := compileInstrReg_xas
  compile_rmcg _ _ := rfl
  compile_branch pos instr h := by simp only [compileInstrReg, h, pure]
  compile_halt pos instr h := by simp only [compileInstrReg, h, pure]
  decodes_mul := decodes_mulReg
  decodes_xas := decodes_xasReg
  length := 10
  mul_length _ := rfl
  xas_length _ := rfl

/-- The form of the second phase, 20 bytes for each. -/
def memForm : Form where
  compileInstr := compileInstrMem
  mulCode := mulMemCode
  xasCode := xasMemCode
  mul := mulMem
  xas := xasMem
  compile_mul := compileInstrMem_mul
  compile_xas := compileInstrMem_xas
  compile_rmcg _ _ := rfl
  compile_branch pos instr h := by simp only [compileInstrMem, h, pure]
  compile_halt pos instr h := by simp only [compileInstrMem, h, pure]
  decodes_mul := decodes_mulMem
  decodes_xas := decodes_xasMem
  length := 20
  mul_length _ := rfl
  xas_length _ := rfl

namespace Form

variable (form : Form) (t : Layout)

/-- The instructions 1 to 6. -/
def middle : List Plain :=
  form.xas t.xas1 ++ (form.mul t.mul2 ++ (form.xas t.xas3 ++ (form.mul t.mul4 ++
    (form.xas t.xas5 ++ form.mul t.mul6))))

def middleCode : List Byte :=
  form.xasCode t.xas1 ++ (form.mulCode t.mul2 ++ (form.xasCode t.xas3 ++ (form.mulCode t.mul4 ++
    (form.xasCode t.xas5 ++ form.mulCode t.mul6))))

/-- The instructions between the head of the loop and its end. -/
def body : Code :=
  .plains (rmcg t.rmcg0 ++ form.middle t) ++ (branch ++ .plains (form.xas t.xas8))

def bodyCode : List Byte :=
  (compileRmcg t.rmcg0.instruction ++ form.middleCode t) ++ (codeBranch ++ form.xasCode t.xas8)

theorem decodes_middle : Decodes (form.middleCode t) (.plains (form.middle t)) :=
  decodes_append (form.decodes_xas t.xas1) <| decodes_append (form.decodes_mul t.mul2) <|
    decodes_append (form.decodes_xas t.xas3) <| decodes_append (form.decodes_mul t.mul4) <|
    decodes_append (form.decodes_xas t.xas5) (form.decodes_mul t.mul6)

/-- The bytes of a program are its code, whatever the layout. -/
theorem decodes_body : Decodes (form.bodyCode t) (form.body t) :=
  (decodes_append (decodes_rmcg t.rmcg0) (form.decodes_middle t)).append
    (decodes_branch.append (form.decodes_xas t.xas8))

/-- All programs of one form have the same size. -/
theorem bodyCode_length : (form.bodyCode t).length = 33 + 7 * form.length := by
  have hrmcg : (compileRmcg t.rmcg0.instruction).length = 12 := rfl
  have hbranch : codeBranch.length = 21 := rfl
  unfold bodyCode middleCode
  simp only [List.length_append, form.mul_length, form.xas_length, hrmcg, hbranch]
  omega

/-- The instructions of a program that holds a layout. -/
theorem compile_eq {program : Program} (h : t.Describes program) (pos : List Byte) :
    forLoopM 10 (fun pos i => form.compileInstr pos program[i]) pos =
      some (pos ++ form.bodyCode t) := by
  have hrmcg {pos} {instr : Instruction} {x : Rmcg} (hx : instr = x.instruction) :
      form.compileInstr pos instr = some (pos ++ compileRmcg x.instruction) := by
    rw [hx]
    exact form.compile_rmcg _ _
  have hmul {pos} {instr : Instruction} {x : Mul} (hx : instr = x.instruction) :
      form.compileInstr pos instr = some (pos ++ form.mulCode x) := hx ▸ form.compile_mul _ _
  have hxas {pos} {instr : Instruction} {x : Xas} (hx : instr = x.instruction) :
      form.compileInstr pos instr = some (pos ++ form.xasCode x) := hx ▸ form.compile_xas _ _
  have hloop := forLoopM_first (f := fun pos (i : Fin 10) => form.compileInstr pos program[i])
    (a := pos) (hrmcg h.code0) <|
    forLoopM_first (hxas h.code1) <| forLoopM_first (hmul h.code2) <|
    forLoopM_first (hxas h.code3) <| forLoopM_first (hmul h.code4) <|
    forLoopM_first (hxas h.code5) <| forLoopM_first (hmul h.code6) <|
    forLoopM_first (form.compile_branch _ h.branch) <| forLoopM_first (hxas h.code8) <|
    forLoopM_first (form.compile_halt _ h.halt) rfl
  rw [hloop, bodyCode, middleCode]
  simp only [List.append_assoc]

end Form

/-! ## Programs -/

/-- `mp` moves down by the eight words of the program. -/
def lowerMp : List Plain := [.localGet 1, .i32Const 64, .i32Sub, .localSet 1]

/-- R0-R7 are stored from the end. -/
def storeRegs : List Plain :=
  (List.ofFn fun j : Fin 8 => [.localGet 1, .localGet (2 + j), .i64Store 3 (56 - 8 * j)]).flatten

/-- A program of the first phase. -/
def writeProgram (t : Layout) : Code := .plains lowerMp ++ (.loop (regForm.body t) .done ++ .plains storeRegs)

/-- A program of the second phase. -/
def readProgram (t : Layout) : Code := .loop (memForm.body t) .done

def regCode (t : Layout) : List Byte := codeRegPrologue ++ (regForm.bodyCode t ++ codeRegEpilogue)

def memCode (t : Layout) : List Byte := [opLoop, typeVoid] ++ memForm.bodyCode t ++ [opEnd]

/-- The assertion of the source asks for 173. -/
theorem regCode_length (t : Layout) : (regCode t).length = 170 := by
  have hpro : codeRegPrologue.length = 10 := rfl
  have hepi : codeRegEpilogue.length = 57 := rfl
  have hbody : (regForm.bodyCode t).length = 103 := regForm.bodyCode_length t
  rw [regCode, List.length_append, List.length_append, hbody, hpro, hepi]

/-- The assertion of the source asks for 179. -/
theorem memCode_length (t : Layout) : (memCode t).length = 176 := by
  have hbody : (memForm.bodyCode t).length = 173 := memForm.bodyCode_length t
  rw [memCode, List.length_append, List.length_append, hbody]
  rfl

/-- The bytes of a program of the first phase are a loop between two pieces of straight code. -/
theorem decodes_regCode (t : Layout) : Decodes (regCode t) (writeProgram t) := by
  have hlower : Decodes [opGet, parMp, opConst32, 0xc0, 0x00, opSub32, opSet, parMp]
      (.plains lowerMp) := decodes_plains rfl
  have hstores : Decodes (codeRegEpilogue.drop 1) (.plains storeRegs) := decodes_plains rfl
  have hcode := hlower.append ((regForm.decodes_body t).loop.append hstores)
  have hbytes : regCode t = [opGet, parMp, opConst32, 0xc0, 0x00, opSub32, opSet, parMp] ++
      ([0x03, 0x40] ++ regForm.bodyCode t ++ [0x0b] ++ codeRegEpilogue.drop 1) := by
    simp only [regCode, codeRegPrologue, codeRegEpilogue, List.append_assoc]
    rfl
  rw [hbytes]
  exact hcode

theorem decodes_memCode (t : Layout) : Decodes (memCode t) (readProgram t) :=
  (memForm.decodes_body t).loop

section Compile

variable {t : Layout} {program : Program} (h : t.Describes program) (ndebug : Bool) (code : List Byte)
include h

/-- The size of a program is not the one that is asserted. -/
theorem compileProgramReg_eq : compileProgramReg ndebug program code =
    if ndebug then .ok (code ++ regCode t) else .error .abort := by
  have hloop : forLoopM 10 (fun pos i => compileInstrReg pos program[i]) (code ++ codeRegPrologue) =
      some (code ++ codeRegPrologue ++ regForm.bodyCode t) := regForm.compile_eq t h _
  have hcode : code ++ codeRegPrologue ++ regForm.bodyCode t ++ codeRegEpilogue = code ++ regCode t := by
    simp only [regCode, List.append_assoc]
  have hsize : (code ++ regCode t).length - code.length = 170 := by
    rw [List.length_append, regCode_length, Nat.add_sub_cancel_left]
  simp only [compileProgramReg, hloop, defined, bind, Except.bind, hcode, assertSize, hsize]
  cases ndebug <;> rfl

theorem compileProgramMem_eq : compileProgramMem ndebug program code =
    if ndebug then .ok (code ++ memCode t) else .error .abort := by
  have hloop : forLoopM 10 (fun pos i => compileInstrMem pos program[i]) (code ++ [opLoop, typeVoid]) =
      some (code ++ [opLoop, typeVoid] ++ memForm.bodyCode t) := memForm.compile_eq t h _
  have hcode : code ++ [opLoop, typeVoid] ++ memForm.bodyCode t ++ [opEnd] = code ++ memCode t := by
    simp only [memCode, List.append_assoc]
  have hsize : (code ++ memCode t).length - code.length = 176 := by
    rw [List.length_append, memCode_length, Nat.add_sub_cancel_left]
  simp only [compileProgramMem, hloop, defined, bind, Except.bind, hcode, assertSize, hsize]
  cases ndebug <;> rfl

end Compile

end HashWX.CompilerWasm
