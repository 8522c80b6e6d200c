import HashWX.Exec.Bounds
import HashWX.Lib.TrailingZeros
import Mathlib.Data.Finset.Lattice.Fold
import Mathlib.Data.Fintype.Basic
import Mathlib.Order.Lattice.Nat

/-!
# Healing multiplications

Every immediate of a MUL instruction is odd, so the operand that the destination
contributes to the product is odd for MULOR, and for MULXOR and MULADD when the
destination was even. Such a product has the trailing zeros of the source operand.
-/

namespace HashWX

open Siphash FinArray TrailingZeros
open HaltingLoop (Outcome)

/-! ## The operand of the destination is odd -/

theorem mulImms_odd (k : Fin 3) : mulImms k % 2 = 1 := by
  match k with
  | 0 | 1 | 2 => rfl

theorem genImm_mul_odd (op : MulOp) (select : Word) :
    (BitVec.ofNat 64 (genImm op.opcode select)).toNat % 2 = 1 := by
  have hdvd : 2 ∣ 2 ^ 64 := by decide
  rw [genImm_mul, BitVec.toNat_ofNat, Nat.mod_mod_of_dvd _ hdvd]
  exact mulImms_odd _

/-- The parity of the product is decided by the operation alone. -/
theorem MulOp.apply_odd (op : MulOp) (d imm : Word) (himm : imm.toNat % 2 = 1)
    (hd : op = .or ∨ d.toNat % 2 = 0) : (op.apply d imm).toNat % 2 = 1 := by
  have hdvd : 2 ∣ 2 ^ 64 := by decide
  cases op with
  | or =>
    show (d ||| imm).toNat % 2 = 1
    rw [BitVec.toNat_or, Nat.or_mod_two_eq_one]
    exact .inr himm
  | xor =>
    have hd : d.toNat % 2 = 0 := hd.resolve_left (by decide)
    show (d ^^^ imm).toNat % 2 = 1
    rw [BitVec.toNat_xor, Nat.xor_mod_two_eq]
    omega
  | add =>
    have hd : d.toNat % 2 = 0 := hd.resolve_left (by decide)
    show (d + imm).toNat % 2 = 1
    rw [BitVec.toNat_add, Nat.mod_mod_of_dvd _ hdvd]
    omega

theorem product_trailingZeros (op : MulOp) (d v select : Word)
    (hd : op = .or ∨ d.toNat % 2 = 0) :
    trailingZeros (op.apply d (BitVec.ofNat 64 (genImm op.opcode select)) * v) = trailingZeros v :=
  trailingZeros_mul _ _ (op.apply_odd _ _ (genImm_mul_odd op select) hd)

/-! ## One step -/

/-- A MUL instruction over any two registers. -/
def mulInstruction (op : MulOp) (dst src : Fin 10) (select : Word) : Instruction :=
  { opcode := op.opcode, src := src, dst := dst, imm := genImm op.opcode select }

/-- The register that a MUL step writes. -/
def mulStore (op : MulOp) (dst : Fin 10) (select v : Word) (r : Regs) : Regs :=
  r.setFin dst (op.apply r[dst] (BitVec.ofNat 64 (genImm op.opcode select)) * v)

theorem step_mulInstruction {operand : Word → Option Word} {program : Program} {s : ExecState}
    {op : MulOp} {dst src : Fin 10} {select v : Word}
    (h : load program s.ic = some (mulInstruction op dst src select))
    (hv : operand s.r[src] = some v) :
    step operand program s =
      some (.next { s with r := mulStore op dst select v s.r, ic := s.ic + 1 }) := by
  cases op <;>
    simp only [step, h, mulInstruction, MulOp.opcode, bind, Option.bind_some, load_val, store_val,
      hv, operate, pure, mulStore, MulOp.apply]

/-! ## Sequences of MULOR instructions -/

/-- One instruction as an iteration of the loop of `program_execute_reg`. -/
def executeInstr (instr : Instruction) (r : Regs) : Option Regs := do
  match ← step some (.replicate 10 instr) (entry r 0) with
  | .next s => return s.r
  | .halt _ => none

/-- The instructions one after the other. -/
def executeInstrs : List Instruction → Regs → Option Regs
  | [], r => some r
  | instr :: instrs, r => do executeInstrs instrs (← executeInstr instr r)

/-- A MULOR instruction over R0-R7, with the word its immediate is generated from. -/
structure Mulor where
  dst : Fin 8
  src : Fin 8
  select : Word

def Mulor.instruction (x : Mulor) : Instruction :=
  mulInstruction .or (x.dst.castLE eight_le_ten) (x.src.castLE eight_le_ten) x.select

def Mulor.exec (x : Mulor) (r : Regs) : Regs :=
  mulStore .or (x.dst.castLE eight_le_ten) x.select r[x.src] r

theorem executeInstr_mulor (x : Mulor) (r : Regs) :
    executeInstr x.instruction r = some (x.exec r) := by
  have hload : load (.replicate 10 x.instruction) (entry r 0).ic = some x.instruction := rfl
  unfold executeInstr
  rw [step_mulInstruction (v := r[x.src]) hload rfl]
  rfl

/-- The destination takes over the count of the source, and no other register changes. -/
theorem Mulor.exec_trailingZeros (x : Mulor) (r : Regs) (i : Fin 8) :
    ∃ j : Fin 8, trailingZeros (x.exec r)[i] = trailingZeros r[j] := by
  by_cases hi : x.dst = i
  · subst hi
    refine ⟨x.src, ?_⟩
    have hset : (x.exec r)[x.dst] = MulOp.or.apply r[x.dst]
        (BitVec.ofNat 64 (genImm MulOp.or.opcode x.select)) * r[x.src] :=
      Vector.getElem_set_self _
    rw [hset]
    exact product_trailingZeros .or _ _ _ (.inl rfl)
  · have hne : x.dst.val ≠ i.val := fun h => hi (Fin.ext h)
    have hlt (j : Fin 8) : j.val < 10 := by omega
    exact ⟨i, congrArg trailingZeros (Vector.getElem_set_ne (hlt x.dst) (hlt i) hne)⟩

theorem executeInstrs_mulor (l : List Mulor) (r : Regs) :
    ∃ r', executeInstrs (l.map Mulor.instruction) r = some r' ∧
      ∀ i : Fin 8, ∃ j : Fin 8, trailingZeros r'[i] = trailingZeros r[j] := by
  induction l generalizing r with
  | nil => exact ⟨r, rfl, fun i => ⟨i, rfl⟩⟩
  | cons x l ih =>
    obtain ⟨r', hrun, htz⟩ := ih (x.exec r)
    refine ⟨r', ?_, fun i => ?_⟩
    · rw [List.map_cons, executeInstrs, executeInstr_mulor]
      exact hrun
    · obtain ⟨j, hj⟩ := htz i
      obtain ⟨k, hk⟩ := x.exec_trailingZeros r j
      exact ⟨k, hj.trans hk⟩

/-- The largest count over R0-R7. -/
def maxTrailingZeros (r : Regs) : Nat := Finset.univ.sup fun i : Fin 8 => trailingZeros r[i]

theorem maxTrailingZeros_le {r r' : Regs}
    (h : ∀ i : Fin 8, ∃ j : Fin 8, trailingZeros r'[i] = trailingZeros r[j]) :
    maxTrailingZeros r' ≤ maxTrailingZeros r := by
  apply Finset.sup_le
  intro i _
  obtain ⟨j, hj⟩ := h i
  rw [hj]
  exact Finset.le_sup (f := fun i : Fin 8 => trailingZeros r[i]) (Finset.mem_univ j)

/-- A MULOR step in either mode, and a MULXOR or MULADD step on an even destination, give the
destination the trailing zeros of the source operand; so no sequence of MULOR instructions on
registers raises the largest count. -/
theorem multiplications_heal :
    (∀ (mem : Option Scratchpad) (program : Program) (s : ExecState) (op : MulOp)
      (dst src : Fin 10) (select : Word),
      load program s.ic = some (mulInstruction op dst src select) →
      op = .or ∨ s.r[dst].toNat % 2 = 0 →
      ∃ v r', operandOf mem s.r[src] = some v ∧
        step (operandOf mem) program s = some (.next { s with r := r', ic := s.ic + 1 }) ∧
        trailingZeros r'[dst] = trailingZeros v ∧ ∀ k : Fin 10, k ≠ dst → r'[k] = s.r[k]) ∧
    (∀ (l : List Mulor) (r : Regs),
      ∃ r', executeInstrs (l.map Mulor.instruction) r = some r' ∧
        (∀ i : Fin 8, ∃ j : Fin 8, trailingZeros r'[i] = trailingZeros r[j]) ∧
        maxTrailingZeros r' ≤ maxTrailingZeros r) := by
  constructor
  · intro mem program s op dst src select hload heven
    obtain ⟨ld, hld⟩ := operandOf_eq mem
    have hv : operandOf mem s.r[src] = some (ld s.r[src]) := congrFun hld _
    refine ⟨_, mulStore op dst select (ld s.r[src]) s.r, hv, step_mulInstruction hload hv, ?_,
      fun k hk => ?_⟩
    · have hset : (mulStore op dst select (ld s.r[src]) s.r)[dst] =
          op.apply s.r[dst] (BitVec.ofNat 64 (genImm op.opcode select)) * ld s.r[src] :=
        Vector.getElem_set_self _
      rw [hset]
      exact product_trailingZeros op _ _ select heven
    · exact Vector.getElem_setFin_ne _ _ hk.symm
  · intro l r
    obtain ⟨r', hrun, htz⟩ := executeInstrs_mulor l r
    exact ⟨r', hrun, htz, maxTrailingZeros_le htz⟩

/-- A MULXOR whose destination and source are even and not zero. -/
theorem multiplications_heal_sample : sampleRegs[3] = 0x78dde6e5fd29f054 ∧
    ∃ v r', operandOf none 0xb54cda58fbbee87e = some v ∧
      step (operandOf none) (.replicate 10 (mulInstruction .xor 3 5 1)) (entry sampleRegs 0) =
        some (.next { entry sampleRegs 0 with r := r', ic := 1 }) ∧
      trailingZeros r'[(3 : Fin 10)] = trailingZeros v ∧
      ∀ k : Fin 10, k ≠ 3 → r'[k] = sampleRegs[k] :=
  ⟨rfl, multiplications_heal.1 none (.replicate 10 (mulInstruction .xor 3 5 1)) (entry sampleRegs 0) .xor 3 5 1
    rfl (.inr rfl)⟩

end HashWX
