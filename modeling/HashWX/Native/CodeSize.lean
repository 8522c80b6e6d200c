import HashWX.A64.Correct
import HashWX.Context.Target
import HashWX.X86.Correct

/-!
# The size of native code

No emitter checks the end of the code buffer. The code fits because every program takes
the same number of bytes in each of its forms.
-/

namespace HashWX

open CodeMachine ForLoop

namespace CompilerX86

/-- The bytes that `hashwx_compile_x86` writes. -/
def codeSize : Abi → Nat
  | .sysv => 7628
  | .win => 7629

theorem programCode_length (form : Form) (t : Layout) :
    (form.programCode t).length = form.loopLength + 2 + form.xasLength := by
  have htest : codeTest.length = 2 := rfl
  rw [form.programCode_eq, List.length_append, List.length_append, List.length_append, form.jz.2.1,
    form.loopCode_length, form.xas_length, htest]
  omega

theorem writeCode_length (t : Layout) : (writeCode t).length = 94 := by
  have hstore : codeStore.length = 16 := rfl
  rw [writeCode, List.length_append, programCode_length, hstore]
  rfl

theorem readCode_length (t : Layout) : (readCode t).length = 141 := by
  rw [readCode, programCode_length]
  rfl

theorem functionCode_length (abi : Abi) (ts : Fin 32 → Layout) :
    (functionCode abi ts).length = codeSize abi := by
  have hwrite : (List.ofFn fun i => writeCode (ts i)).flatten.length = 32 * 94 :=
    length_flatten_ofFn fun i => writeCode_length (ts i)
  have hread : (List.ofFn fun i => readCode (ts i)).flatten.length = 32 * 141 :=
    length_flatten_ofFn fun i => readCode_length (ts i)
  unfold functionCode firstCode
  simp only [List.length_append, hwrite, hread]
  cases abi <;> rfl

/-- The write pointer and the target in front of instruction `k` of the first form. -/
def compileInstrsReg (program : Program) (k : Fin 10) (pos : List Byte) :
    Option (List Byte × Option Nat) :=
  forLoopM k (fun s i => compileInstrReg s program[i.castLE k.isLt.le]) (pos, none)

/-- The write pointer and the target in front of instruction `k` of the second form. -/
def compileInstrsMem (program : Program) (k : Fin 10) (pos : List Byte) :
    Option (List Byte × Option Nat) :=
  forLoopM k (fun s i => compileInstrMem s program[i.castLE k.isLt.le]) (pos, none)

/-- The jump of a BRANCH instruction behind `s` goes backwards and has the short form. -/
def ShortJump (s : Option (List Byte × Option Nat)) : Prop :=
  ∃ pos target, s = some (pos, some target) ∧ target < pos.length ∧
    (emitJz (pos ++ codeBranch).length target).length = 2

theorem Form.shortJump (form : Form) {t : Layout} {program : Program} (h : t.Describes program)
    (pos : List Byte) : ShortJump (forLoopM 7 (fun s i =>
      form.compileInstr s program[i.castLE (m := 10) (by decide)]) (pos, none)) := by
  have htarget : codeTarget.length = 5 := rfl
  have hbody : (rmcgBody t.rmcg0).length = 11 := rfl
  have hbranch : codeBranch.length = 8 := rfl
  have hlength : (pos ++ (codeTarget ++ (rmcgBody t.rmcg0 ++ form.bodyCode t)) ++ codeBranch).length =
      pos.length + form.loopLength := by
    rw [loopLength]
    simp only [List.length_append, htarget, hbody, hbranch, form.bodyCode_length]
    omega
  refine ⟨_, _, form.compile_front t h pos, ?_, ?_⟩
  · simp only [List.length_append, htarget]
    omega
  · rw [hlength, emitJz_shift]
    exact form.jz.2.1

end CompilerX86

namespace CompilerA64

/-- The bytes that `hashwx_compile_a64` writes. -/
def codeSize : Nat := 7744

theorem functionCode_length (ts : Fin 32 → Layout) : (functionCode ts).length = codeSize := by
  have hreg : (List.ofFn fun i => regCode (ts i)).flatten.length = 32 * 104 :=
    length_flatten_ofFn fun i => regCode_length (ts i)
  have hmem : (List.ofFn fun i => memCode (ts i)).flatten.length = 32 * 136 :=
    length_flatten_ofFn fun i => memCode_length (ts i)
  unfold functionCode firstCode
  simp only [List.length_append, hreg, hmem]
  rfl

end CompilerA64

namespace CompilerX86

section Jumps

variable {t : Layout} {program : Program} (h : t.Describes program) (pos : List Byte)
include h

theorem shortJump_reg : ShortJump (compileInstrsReg program 7 pos) := regForm.shortJump h pos

theorem shortJump_mem : ShortJump (compileInstrsMem program 7 pos) := memForm.shortJump h pos

end Jumps

end CompilerX86

open CompilerX86 in
/-- **Native code fits its buffer.** The number of bytes emitted depends on the target only, and
every jump of the x86-64 code is a short one. -/
theorem native_code_fits (key : Siphash.SiphashKey) (memory : ProgramList) :
    let list := hashwxProgramListGenerate key memory
    (∀ abi, ∃ code, hashwxCompileX86 abi list = some code ∧
      code.length = CompilerX86.codeSize abi ∧ code.length ≤ hashwxCodeSize .x86) ∧
    (∃ code, CompilerA64.hashwxCompileA64 list = some code ∧
      code.length = CompilerA64.codeSize ∧ code.length ≤ hashwxCodeSize .a64) ∧
    ∀ (i : Fin 32) (k : Fin 10), list[i][k].opcode = .branch → ∀ pos,
      ShortJump (compileInstrsReg list[i] k pos) ∧ ShortJump (compileInstrsMem list[i] k pos) := by
  intro list
  obtain ⟨ts, -, ht⟩ := hashwxProgramListGenerate_describes key memory
  refine ⟨fun abi => ?_, ?_, fun i k hk pos => ?_⟩
  · have hlength := CompilerX86.functionCode_length abi ts
    refine ⟨CompilerX86.functionCode abi ts, hashwxCompileX86_eq ht, hlength, ?_⟩
    rw [hlength]
    cases abi <;> decide
  · have hlength := CompilerA64.functionCode_length ts
    refine ⟨CompilerA64.functionCode ts, CompilerA64.hashwxCompileA64_eq ht, hlength, ?_⟩
    rw [hlength]
    decide
  · obtain rfl := (ht i).branch_eq hk
    exact ⟨shortJump_reg (ht i) pos, shortJump_mem (ht i) pos⟩

end HashWX
