import HashWX.Exec.Interpreter
import HashWX.Wasm.Module

/-!
# Compiled contexts of the WebAssembly build

The registers and the scratchpad are arrays of the context, and a hash is computed in
three calls: `hashwx_exec_begin`, the function of the emitted module, and
`hashwx_exec_final`.
-/

namespace HashWX.CompilerWasm

open CodeMachine (Byte)
open ForLoop
open Siphash

structure Context where
  code : Vector Byte 11278
  key : SiphashKey
  reg : Regs
  mem : Scratchpad

/-- `hashwx_make`. The program list is a local variable, and `memory` is what it holds before. -/
def hashwxMake (ndebug : Bool) (seed : Seed) (memory : ProgramList) (ctx : Context) :
    Except Stop Context := do
  let list := hashwxProgramListGenerate (seedKeys seed).1 memory
  let code ← hashwxCompileWasm ndebug list
  return { ctx with code := ← defined (FinArray.storeAll ctx.code 0 code), key := (seedKeys seed).2 }

/-- The loop of `hashwx_exec_begin`; the state is `r` and `gen`. -/
def initReg (s : Regs × SiphashRng) (i : Fin 8) : Regs × SiphashRng :=
  (s.1.setFin (i.castLE eight_le_ten) (hashwxRngNext s.2).1, (hashwxRngNext s.2).2)

/-- The registers are expanded from the input into the array of the context. -/
def hashwxExecBegin (ctx : Context) (input : Word) : Context :=
  let r := (forLoop 8 initReg (ctx.reg, hashwxRngInit ctx.key input)).1
  let r := r.setFin 8 ((r[4] &&& -8) ||| 3)
  let r := r.setFin 9 ((r[7] &&& -8) ||| 5)
  { ctx with reg := r }

def hashwxExecFinal (ctx : Context) : Word :=
  let r := ctx.reg
  let s := sipround ⟨r[0], r[1], r[2], r[3]⟩
  let t := sipround ⟨r[4], r[5], r[6], r[7]⟩
  s.v3 ^^^ t.v3 ^^^ r[9]

/-! ## The two copies of the register setup -/

/-- Register `i` gets output `i` of the generator, by induction over the array. -/
theorem initReg_loop (r : Regs) (gen : SiphashRng) :
    ∀ i : Fin 8, (forLoop 8 initReg (r, gen)).1[i] = OutputStream.output hashwxRngNext gen i := by
  have h := forLoop_invariant (n := 8)
    (fun k (s : Regs × SiphashRng) => s.2 = OutputStream.advance hashwxRngNext k gen ∧
      ∀ i : Fin 8, i.val < k → s.1[i] = OutputStream.output hashwxRngNext gen i)
    (f := initReg) (a := (r, gen)) ⟨rfl, fun i hi => absurd hi (Nat.not_lt_zero _)⟩ ?_
  · exact fun i => h.2 i i.isLt
  · rintro k ⟨s, g⟩ ⟨hgen, hregs⟩
    dsimp only at hgen hregs
    subst hgen
    refine ⟨(OutputStream.advance_succ' hashwxRngNext k gen).symm, fun i hi => ?_⟩
    by_cases hik : i = k
    · subst hik
      exact Vector.getElem_setFin_self s (i.castLE eight_le_ten) _
    · have hne : k.castLE eight_le_ten ≠ i.castLE eight_le_ten :=
        fun h => hik (Fin.castLE_injective eight_le_ten h).symm
      rw [← hregs i (by omega)]
      exact Vector.getElem_setFin_ne s _ hne

theorem adjustRegs_file (r : Fin 8 → Word) (i : Fin 8) : (adjustRegs r)[i] = r i := by
  match i with
  | 0 | 1 | 2 | 3 | 4 | 5 | 6 | 7 => rfl

/-- `hashwx_exec_begin` prepares the same registers as `hashwx_exec`. -/
theorem hashwxExecBegin_reg (ctx : Context) (input : Word) :
    (hashwxExecBegin ctx input).reg = initRegs ctx.key input := by
  have hloop := initReg_loop ctx.reg (hashwxRngInit ctx.key input)
  unfold hashwxExecBegin
  generalize (forLoop 8 initReg (ctx.reg, hashwxRngInit ctx.key input)).1 = r at hloop
  have hcopy (i : Fin 8) : (initRegs ctx.key input)[i] = r[i] := by
    rw [initRegs, adjustRegs_file]
    exact (hloop i).symm
  have h8 : (initRegs ctx.key input)[8] = (r[4] &&& -8) ||| 3 :=
    congrArg (fun x : Word => (x &&& -8) ||| 3) (hloop 4).symm
  have h9 : (initRegs ctx.key input)[9] = (r[7] &&& -8) ||| 5 :=
    congrArg (fun x : Word => (x &&& -8) ||| 5) (hloop 7).symm
  apply Vector.ext
  intro i hi
  have hidx : i < 8 ∨ i = 8 ∨ i = 9 := by omega
  rcases hidx with hi8 | rfl | rfl
  · dsimp only
    rw [Vector.getElem_set_ne _ _ (by simp; omega), Vector.getElem_set_ne _ _ (by simp; omega)]
    exact (hcopy ⟨i, hi8⟩).symm
  · dsimp only
    refine (Vector.getElem_setFin_ne _ _ (i := 9) (j := 8) (by decide)).trans ?_
    exact (Vector.getElem_setFin_self r 8 _).trans h8.symm
  · dsimp only
    refine (Vector.getElem_setFin_self _ 9 _).trans ?_
    rw [Vector.getElem_setFin_ne r _ (by decide)]
    exact h9.symm

theorem hashwxExecFinal_eq (ctx : Context) : hashwxExecFinal ctx = finalize ctx.reg := rfl

/-! ## Assertions -/

/-- None of the size assertions fails when the list is compiled with assertions. -/
structure AssertionsHold (list : ProgramList) : Prop where
  reg : ∀ i : Fin 32, ∀ code, ∃ pos, compileProgramReg false list[i] code = .ok pos
  mem : ∀ i : Fin 32, ∀ code, ∃ pos, compileProgramMem false list[i] code = .ok pos
  size : ∃ code, hashwxCompileWasm false list = .ok code

section Assertions

variable {list : ProgramList} {ts : Fin 32 → Layout} (ht : ∀ i : Fin 32, (ts i).Describes list[i])
include ht

/-- Neither kind of program has the asserted size. -/
theorem not_assertionsHold : ¬AssertionsHold list := by
  intro h
  obtain ⟨code, hcode⟩ := h.size
  rw [hashwxCompileWasm_eq ts ht] at hcode
  cases hcode

/-- No program passes its assertion. -/
theorem compileProgram_abort (i : Fin 32) (code : List Byte) :
    compileProgramReg false list[i] code = .error .abort ∧
      compileProgramMem false list[i] code = .error .abort :=
  ⟨compileProgramReg_eq (ht i) false code, compileProgramMem_eq (ht i) false code⟩

/-- The sizes of the programs without assertions. -/
theorem compileProgram_size (i : Fin 32) (code : List Byte) :
    (∃ pos, compileProgramReg true list[i] code = .ok pos ∧ pos.length = code.length + 170) ∧
      ∃ pos, compileProgramMem true list[i] code = .ok pos ∧ pos.length = code.length + 176 := by
  constructor
  · refine ⟨_, compileProgramReg_eq (ht i) true code, ?_⟩
    rw [List.length_append, regCode_length]
  · refine ⟨_, compileProgramMem_eq (ht i) true code, ?_⟩
    rw [List.length_append, memCode_length]

end Assertions

/-- **The size assertions fail.** In a build with assertions no program of a generated list has the
size that is asserted, in either form, so `hashwx_make` aborts for every seed. The size of the whole
module is right. -/
theorem wasm_assertions_fail (key : SiphashKey) (memory : ProgramList) :
    let list := hashwxProgramListGenerate key memory
    ¬AssertionsHold list ∧
    (∀ (i : Fin 32) code, compileProgramReg false list[i] code = .error .abort ∧
      compileProgramMem false list[i] code = .error .abort) ∧
    (∀ (i : Fin 32) code,
      (∃ pos, compileProgramReg true list[i] code = .ok pos ∧ pos.length = code.length + 170) ∧
      ∃ pos, compileProgramMem true list[i] code = .ok pos ∧ pos.length = code.length + 176) ∧
    (∃ code, hashwxCompileWasm true list = .ok code ∧ code.length = hashwxCodeSize .wasm) ∧
    ∀ seed ctx, hashwxMake false seed memory ctx = .error .abort := by
  intro list
  obtain ⟨ts, -, ht⟩ := hashwxProgramListGenerate_describes key memory
  refine ⟨not_assertionsHold ht, compileProgram_abort ht, compileProgram_size ht,
    ⟨_, hashwxCompileWasm_eq ts ht true, moduleCode_length ts⟩, fun seed ctx => ?_⟩
  obtain ⟨us, -, hu⟩ := hashwxProgramListGenerate_describes (seedKeys seed).1 memory
  have habort : hashwxCompileWasm false (hashwxProgramListGenerate (seedKeys seed).1 memory) =
      .error .abort := hashwxCompileWasm_eq us hu false
  unfold hashwxMake
  dsimp only
  rw [habort]
  rfl

/-- The programs of the zero key. -/
theorem wasm_assertions_fail_zero : ¬AssertionsHold
    (hashwxProgramListGenerate ⟨0, 0⟩ (.replicate 32 (.replicate 10 ⟨.halt, 0, 0, 0⟩))) := by
  obtain ⟨ts, -, ht⟩ := hashwxProgramListGenerate_describes ⟨0, 0⟩
    (.replicate 32 (.replicate 10 ⟨.halt, 0, 0, 0⟩))
  exact not_assertionsHold ht

end HashWX.CompilerWasm
