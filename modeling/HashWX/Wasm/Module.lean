import HashWX.Program.WellFormed
import HashWX.Wasm.Program

/-!
# The emitted module

The sizes in the prologue are fixed, and they are right because every program takes the
same number of bytes in each form. The module that the bytes are read as is given in
full, and it passes validation.
-/

namespace HashWX.CompilerWasm

open CodeMachine (Byte)
open ForLoop
open Wasm (Plain Code ValType Reads Decodes decodes_plains)

section Module

variable (ts : Fin 32 → Layout)

/-- The bytes that the compiler emits: 32 programs of each form between the three fixed pieces. -/
def moduleCode : List Byte :=
  codePrologue ++ (List.ofFn fun i => regCode (ts i)).flatten ++ codeClearBc ++
    (List.ofFn fun i => memCode (ts i)).flatten ++ codeEpilogue

/-! ## The function -/

/-- R0-R9 are loaded, and `mp` moves behind the scratchpad. -/
def prologue : List Plain :=
  (List.ofFn fun k : Fin 10 => [.localGet 0, .i64Load 3 (8 * k), .localSet (2 + k)]).flatten ++
    [.i64Const 0, .localSet 12, .i64Const 2040, .localSet 14, .i32Const 2048, .localGet 1, .i32Add,
      .localSet 1]

/-- The second phase starts with all of its branches. -/
def clearBc : List Plain := [.i64Const 0, .localSet 12]

/-- R0-R7 are stored. -/
def epilogue : List Plain :=
  (List.ofFn fun k : Fin 8 => [.localGet 0, .localGet (2 + k), .i64Store 3 (8 * k)]).flatten

/-- The body of `exec`: both phases, with the branch counter cleared in between. -/
def function : Code :=
  .plains prologue ++ (.concat (List.ofFn fun i => writeProgram (ts i)) ++ (.plains clearBc ++
    (.concat (List.ofFn fun i => readProgram (ts i)) ++ .plains epilogue)))

/-- `exec(reg, mem)` over the memory `env.memory`. -/
def execModule : Wasm.Module where
  types := [⟨[.i32, .i32], []⟩]
  imports := [⟨[0x65, 0x6e, 0x76], [0x6d, 0x65, 0x6d, 0x6f, 0x72, 0x79], ⟨1, none⟩⟩]
  funcs := [⟨0, .replicate 13 .i64, function ts⟩]
  exports := [⟨[0x65, 0x78, 0x65, 0x63], 0⟩]

/-! ## Sizes -/

theorem length_regCodes : (List.ofFn fun i => regCode (ts i)).flatten.length = 32 * 170 :=
  length_flatten_ofFn fun i => regCode_length (ts i)

theorem length_memCodes : (List.ofFn fun i => memCode (ts i)).flatten.length = 32 * 176 :=
  length_flatten_ofFn fun i => memCode_length (ts i)

/-- The size does not depend on the programs. -/
theorem moduleCode_length : (moduleCode ts).length = hashwxCodeSize .wasm := by
  have hpro : codePrologue.length = 145 := rfl
  have hclear : codeClearBc.length = 4 := rfl
  have hepi : codeEpilogue.length = 57 := rfl
  unfold moduleCode
  simp only [List.length_append, length_regCodes, length_memCodes, hpro, hclear, hepi, hashwxCodeSize]

/-! ## Decoding -/

/-- The sections in front of the code. -/
def sectionsCode : List Byte := codePrologue.take 47

def prologueCode : List Byte := codePrologue.drop 58

def epilogueCode : List Byte := codeEpilogue.take 56

/-- The function without its local variables and its end. -/
def functionCode : List Byte :=
  prologueCode ++ ((List.ofFn fun i => regCode (ts i)).flatten ++ (codeClearBc ++
    ((List.ofFn fun i => memCode (ts i)).flatten ++ epilogueCode)))

/-- The size that the header of the function states, without local variables and end. -/
theorem functionCode_length : (functionCode ts).length = 11219 := by
  have hpro : prologueCode.length = 87 := rfl
  have hclear : codeClearBc.length = 4 := rfl
  have hepi : epilogueCode.length = 56 := rfl
  unfold functionCode
  simp only [List.length_append, length_regCodes, length_memCodes, hpro, hclear, hepi]

/-- The function with its local variables and its end. -/
def funcCode : List Byte := [1, 13, typeI64] ++ (functionCode ts ++ [opEnd])

theorem funcCode_length : (funcCode ts).length = 11223 := by
  unfold funcCode
  simp only [List.length_append, functionCode_length, List.length_cons, List.length_nil]

/-- The sizes in the headers of the code section and of the function are the ones of what follows them. -/
theorem moduleCode_eq : moduleCode ts = sectionsCode ++ (0x0a :: ([0xdb, 0xd7, 0x00] ++
    (1 :: ([0xd7, 0xd7, 0x00] ++ funcCode ts)))) := by
  have hpro : codePrologue = sectionsCode ++ (0x0a :: ([0xdb, 0xd7, 0x00] ++
    (1 :: ([0xd7, 0xd7, 0x00] ++ ([1, 13, typeI64] ++ prologueCode))))) := rfl
  have hepi : codeEpilogue = epilogueCode ++ [opEnd] := rfl
  simp only [moduleCode, funcCode, functionCode, hpro, hepi, List.append_assoc, List.cons_append]

/-- The bytes of the function are the code of the two phases, piece by piece. -/
theorem decodes_function : Decodes (functionCode ts) (function ts) := by
  have hpro : Decodes prologueCode (.plains prologue) := decodes_plains rfl
  have hclear : Decodes codeClearBc (.plains clearBc) := decodes_plains rfl
  have hepi : Decodes epilogueCode (.plains epilogue) := decodes_plains rfl
  have hwrites := Wasm.decodes_ofFn fun i => decodes_regCode (ts i)
  have hreads := Wasm.decodes_ofFn fun i => decodes_memCode (ts i)
  exact hpro.append (hwrites.append (hclear.append (hreads.append hepi)))

theorem reads_funcOf : Reads Wasm.funcOf ([0xd7, 0xd7, 0x00] ++ funcCode ts)
    (.replicate 13 .i64, function ts) := by
  have hsize : Reads Wasm.u32 [0xd7, 0xd7, 0x00] 11223 := fun _ => rfl
  have hlocals : Wasm.vec Wasm.localsOf (funcCode ts) =
      some ([.replicate 13 .i64], functionCode ts ++ [opEnd]) := rfl
  have hcount : [List.replicate 13 ValType.i64].flatten.length < 2 ^ 32 := by decide
  refine hsize.sized (funcCode_length ts) ?_
  rw [ListReader.bind_of_eq hlocals, if_pos hcount, ListReader.bind_of_eq (decodes_function ts).expr]
  rfl

/-- The code section holds this function and nothing else. -/
theorem reads_code : Reads (Wasm.sectionOf 10 Wasm.funcOf) (0x0a :: ([0xdb, 0xd7, 0x00] ++
    (1 :: ([0xd7, 0xd7, 0x00] ++ funcCode ts)))) [(.replicate 13 .i64, function ts)] := by
  have hsize : Reads Wasm.u32 [0xdb, 0xd7, 0x00] 11227 := fun _ => rfl
  have hlength : (1 :: ([0xd7, 0xd7, 0x00] ++ funcCode ts)).length = 11227 := by
    rw [List.length_cons, List.length_append, funcCode_length]
    rfl
  have hfunc := reads_funcOf ts []
  rw [List.append_nil] at hfunc
  exact (hsize.sized hlength (Wasm.vec_single hfunc)).section 0x0a

/-- The emitted bytes are a module, and it is the intended one. -/
theorem decodeModule_code : Wasm.decodeModule (moduleCode ts) = some (execModule ts) := by
  have hcode := reads_code ts []
  rw [List.append_nil] at hcode
  rw [moduleCode_eq]
  generalize (0x0a :: ([0xdb, 0xd7, 0x00] ++ (1 :: ([0xd7, 0xd7, 0x00] ++ funcCode ts))) :
    List Byte) = tail at hcode
  have hmagic : Wasm.expect [0x00, 0x61, 0x73, 0x6d, 0x01, 0x00, 0x00, 0x00] (sectionsCode ++ tail) =
      some ((), sectionsCode.drop 8 ++ tail) := rfl
  have htypes : Wasm.sectionOf 1 Wasm.funcType (sectionsCode.drop 8 ++ tail) =
      some ([⟨[.i32, .i32], []⟩], sectionsCode.drop 16 ++ tail) := rfl
  have himports : Wasm.sectionOf 2 Wasm.importOf (sectionsCode.drop 16 ++ tail) =
      some ((execModule ts).imports, sectionsCode.drop 33 ++ tail) := rfl
  have hfuncs : Wasm.sectionOf 3 Wasm.u32 (sectionsCode.drop 33 ++ tail) =
      some ([0], sectionsCode.drop 37 ++ tail) := rfl
  have hexports : Wasm.sectionOf 7 Wasm.exportOf (sectionsCode.drop 37 ++ tail) =
      some ((execModule ts).exports, tail) := rfl
  rw [Wasm.decodeModule, Wasm.readModule, ListReader.bind_of_eq hmagic, ListReader.bind_of_eq htypes,
    ListReader.bind_of_eq himports, ListReader.bind_of_eq hfuncs, ListReader.bind_of_eq hexports,
    ListReader.bind_of_eq hcode]
  rfl

/-! ## Validation -/

/-- What the code may refer to, inside of so many blocks. -/
def context (depth : Nat) : Wasm.Context :=
  ⟨[.i32, .i32] ++ .replicate 13 .i64, .replicate (depth + 1) [], true⟩

theorem local_i64 (depth : Nat) {k : Nat} (hk : k < 13) :
    (context depth).locals[2 + k]? = some .i64 := by
  have hlen : [ValType.i32, .i32].length ≤ 2 + k := Nat.le_add_right 2 k
  have hidx : 2 + k - [ValType.i32, .i32].length = k := Nat.add_sub_cancel_left 2 k
  rw [context, List.getElem?_append_right hlen, hidx]
  exact List.getElem?_replicate_of_lt hk

/-- A form whose instructions leave the operand stack as it was. -/
def Form.Balanced (form : Form) : Prop :=
  ∀ depth, (∀ x, Wasm.typeAll (context depth) (form.mul x) [] = some []) ∧
    ∀ x, Wasm.typeAll (context depth) (form.xas x) [] = some []

section Typing

variable (depth : Nat)

theorem typeAll_rmcg (x : Rmcg) : Wasm.typeAll (context depth) (rmcg x) [] = some [] := by
  have hdst := local_i64 depth (show x.dst.val < 13 by omega)
  have hsrc := local_i64 depth (show 8 + x.src.val < 13 by omega)
  have hflag : (context depth).locals[13]? = some .i64 := rfl
  simp [rmcg, Wasm.typeAll, Plain.type, hdst, hsrc, hflag]

/-- No instruction of the register form leaves a value on the stack or misses one. -/
theorem regForm_balanced : regForm.Balanced := by
  intro depth
  constructor
  · intro x
    have hdst := local_i64 depth (show x.dst.val < 13 by omega)
    have hsrc := local_i64 depth (show x.src.val < 13 by omega)
    simp [regForm, mulReg, premul, Wasm.typeAll, Plain.type, hdst, hsrc]
  · intro x
    have hdst := local_i64 depth (show x.dst.val < 13 by omega)
    have hsrc := local_i64 depth (show x.src.val < 13 by omega)
    simp [regForm, xasReg, preXas, Wasm.typeAll, Plain.type, hdst, hsrc]

theorem memForm_balanced : memForm.Balanced := by
  intro depth
  have hmask : (context depth).locals[14]? = some .i64 := rfl
  have hmp : (context depth).locals[1]? = some .i32 := rfl
  have hmemory : (context depth).memory = true := rfl
  constructor
  · intro x
    have hdst := local_i64 depth (show x.dst.val < 13 by omega)
    have hsrc := local_i64 depth (show x.src.val < 13 by omega)
    simp [memForm, mulMem, memSrc, premul, Wasm.typeAll, Plain.type, hdst, hsrc, hmask, hmp, hmemory]
  · intro x
    have hdst := local_i64 depth (show x.dst.val < 13 by omega)
    have hsrc := local_i64 depth (show x.src.val < 13 by omega)
    simp [memForm, xasMem, memSrc, preXas, Wasm.typeAll, Plain.type, hdst, hsrc, hmask, hmp, hmemory]

end Typing

/-- At the end of a loop the branch is valid: its target takes no values. -/
theorem typed_branch : Wasm.Typed (context 1) branch [] [] := by
  have htest : Wasm.Typed (context 1)
      (.plains [.localGet 12, .localGet 13, .i64 .or, .i64Const 32, .i64 .and, .i64Eqz]) [] [.i32] :=
    Wasm.typed_plains rfl
  have hcount : Wasm.Typed (context 2)
      (.plains [.i64Const 1, .localGet 12, .i64 .add, .localSet 12]) [] [] := Wasm.typed_plains rfl
  have hbr : Wasm.Typed (context 2) (.br 1 .done) ([] ++ []) [] := .br rfl .done
  exact htest.append (.ifThen (hcount.append hbr) .done)

section Body

variable {form : Form} (hform : form.Balanced) (t : Layout)
include hform

theorem Form.typeAll_middle : Wasm.typeAll (context 1) (form.middle t) [] = some [] := by
  obtain ⟨hmul, hxas⟩ := hform 1
  exact Wasm.typeAll_append (hxas _) <| Wasm.typeAll_append (hmul _) <|
    Wasm.typeAll_append (hxas _) <| Wasm.typeAll_append (hmul _) <|
    Wasm.typeAll_append (hxas _) (hmul _)

/-- A program is one valid loop without parameters and results. -/
theorem Form.typed_loop : Wasm.Typed (context 0) (.loop (form.body t) .done) [] [] := by
  have hfirst := Wasm.typed_plains <|
    Wasm.typeAll_append (typeAll_rmcg 1 t.rmcg0) (form.typeAll_middle hform t)
  have hlast := Wasm.typed_plains ((hform 1).2 t.xas8)
  exact .loop (hfirst.append (typed_branch.append hlast)) .done

end Body

theorem typed_writeProgram (t : Layout) : Wasm.Typed (context 0) (writeProgram t) [] [] := by
  have hlower : Wasm.Typed (context 0) (.plains lowerMp) [] [] := Wasm.typed_plains rfl
  have hstores : Wasm.Typed (context 0) (.plains storeRegs) [] [] := Wasm.typed_plains rfl
  exact hlower.append ((regForm.typed_loop regForm_balanced t).append hstores)

/-- The function is valid as a sequence of valid pieces. -/
theorem typed_function : Wasm.Typed (context 0) (function ts) [] [] := by
  have hpro : Wasm.Typed (context 0) (.plains prologue) [] [] := Wasm.typed_plains rfl
  have hclear : Wasm.Typed (context 0) (.plains clearBc) [] [] := Wasm.typed_plains rfl
  have hepi : Wasm.Typed (context 0) (.plains epilogue) [] [] := Wasm.typed_plains rfl
  have hwrites : Wasm.Typed (context 0) (.concat (List.ofFn fun i => writeProgram (ts i))) [] [] :=
    Wasm.typed_concat (List.forall_mem_ofFn_iff.mpr fun i => typed_writeProgram (ts i))
  have hreads : Wasm.Typed (context 0) (.concat (List.ofFn fun i => readProgram (ts i))) [] [] :=
    Wasm.typed_concat (List.forall_mem_ofFn_iff.mpr fun i => memForm.typed_loop memForm_balanced (ts i))
  exact hpro.append (hwrites.append (hclear.append (hreads.append hepi)))

/-- The module passes validation, so a host compiles it. -/
theorem execModule_valid : (execModule ts).Valid where
  types := by simp [execModule]
  imports := by
    intro i hi
    obtain rfl := List.mem_singleton.mp hi
    exact ⟨by decide, by simp⟩
  memories := le_rfl
  funcs := by
    intro f hf
    obtain rfl := List.mem_singleton.mp hf
    exact ⟨_, rfl, typed_function ts⟩
  exports := by simp [execModule]
  names := by simp [execModule]

/-! ## Branches -/

/-- The only branch of a program leads back to its own loop. -/
theorem loop_branchesToLoop (form : Form) (t : Layout) :
    (Code.loop (form.body t) .done).BranchesToLoop [.func] := by
  have hbr : (Code.br 1 .done).BranchesToLoop [.ifThen, .loop, .func] := ⟨rfl, by decide, trivial⟩
  have hbranch : branch.BranchesToLoop [.loop, .func] :=
    (Code.branchesToLoop_plains _).append ⟨(Code.branchesToLoop_plains _).append hbr, trivial⟩
  exact ⟨(Code.branchesToLoop_plains _).append (hbranch.append (Code.branchesToLoop_plains _)), trivial⟩

theorem function_branchesToLoop : (function ts).BranchesToLoop [.func] := by
  have hwrite (t : Layout) : (writeProgram t).BranchesToLoop [.func] :=
    (Code.branchesToLoop_plains _).append
      ((loop_branchesToLoop regForm t).append (Code.branchesToLoop_plains _))
  have hwrites : (Code.concat (List.ofFn fun i => writeProgram (ts i))).BranchesToLoop [.func] :=
    Code.branchesToLoop_concat (List.forall_mem_ofFn_iff.mpr fun i => hwrite (ts i))
  have hreads : (Code.concat (List.ofFn fun i => readProgram (ts i))).BranchesToLoop [.func] :=
    Code.branchesToLoop_concat (List.forall_mem_ofFn_iff.mpr fun i => loop_branchesToLoop memForm (ts i))
  exact (Code.branchesToLoop_plains _).append (hwrites.append ((Code.branchesToLoop_plains _).append
    (hreads.append (Code.branchesToLoop_plains _))))

/-! ## The compiler -/

/-- With assertions the compiler stops at the first program. -/
theorem hashwxCompileWasm_eq {list : ProgramList} (ht : ∀ i : Fin 32, (ts i).Describes list[i])
    (ndebug : Bool) : hashwxCompileWasm ndebug list =
      if ndebug then .ok (moduleCode ts) else .error .abort := by
  unfold hashwxCompileWasm
  cases ndebug with
  | false =>
    have habort : forLoopE 32 (fun pos i => compileProgramReg false list[i] pos) codePrologue =
        .error .abort := forLoopE_error (fun pos i => compileProgramReg_eq (ht i) false pos) _
    rw [habort]
    rfl
  | true =>
    have hregs := forLoopE_append (fun pos i => compileProgramReg_eq (ht i) true pos) codePrologue
    have hmems := forLoopE_append (fun pos i => compileProgramMem_eq (ht i) true pos)
      (codePrologue ++ (List.ofFn fun i => regCode (ts i)).flatten ++ codeClearBc)
    rw [hregs]
    show (forLoopE 32 (fun pos i => compileProgramMem true list[i] pos)
      (codePrologue ++ (List.ofFn fun i => regCode (ts i)).flatten ++ codeClearBc) >>= _) = _
    rw [hmems]
    rfl

end Module

/-- **The emitted module is valid.** The bytes of a generated list fill the code buffer and are
read as the module `execModule`, so every size is the size of what follows and every immediate is
the one intended; it passes validation, and the branches go back to the loops around them. -/
theorem wasm_module_valid (key : Siphash.SiphashKey) (memory : ProgramList) :
    let list := hashwxProgramListGenerate key memory
    ∃ ts : Fin 32 → Layout, (∀ i : Fin 32, (ts i).Describes list[i]) ∧
      ∃ code, hashwxCompileWasm true list = .ok code ∧ code.length = hashwxCodeSize .wasm ∧
        Wasm.decodeModule code = some (execModule ts) ∧ (execModule ts).Valid ∧
        (function ts).BranchesToLoop [.func] := by
  intro list
  obtain ⟨ts, -, ht⟩ := hashwxProgramListGenerate_describes key memory
  exact ⟨ts, ht, moduleCode ts, hashwxCompileWasm_eq ts ht true, moduleCode_length ts,
    decodeModule_code ts, execModule_valid ts, function_branchesToLoop ts⟩

end HashWX.CompilerWasm
