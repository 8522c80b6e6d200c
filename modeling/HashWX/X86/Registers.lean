import HashWX.Isa.X86
import HashWX.Exec.Semantics
import Mathlib.Tactic.FinCases

/-!
# The register allocation of the x86-64 compiler

A machine state is a value for each purpose that the compiler gives to a register, so
that the effect of an emitted instruction is an update of one field.
-/

namespace HashWX.CompilerX86

open X86 ByteMemory
open CodeMachine (Next)

/-- The register that holds R0-R7, and the one that holds R8 or R9. -/
def vreg (k : Fin 8) : Reg := Fin.natAdd 8 k
def creg (j : Fin 2) : Reg := Fin.castAdd 8 (Fin.natAdd 6 j)

structure Machine where
  rax : Word
  rcx : Word
  rdx : Word
  rbx : Word
  rsp : Word
  rbp : Word
  consts : Consts
  file : RegFile
  zf : Option Bool
  mem : Bytes 64

namespace Machine

def low (v : Machine) : Fin 8 → Word :=
  Fin.append (m := 6) (n := 2) ![v.rax, v.rcx, v.rdx, v.rbx, v.rsp, v.rbp] v.consts

def state (v : Machine) : State where
  regs := Fin.append (m := 8) (n := 8) v.low v.file
  zf := v.zf
  mem := v.mem

variable (v : Machine)

@[simp] theorem zf_state : v.state.zf = v.zf := rfl
@[simp] theorem mem_state : v.state.mem = v.mem := rfl
@[simp] theorem rax_state : v.state.regs X86.rax = v.rax := rfl
@[simp] theorem rcx_state : v.state.regs X86.rcx = v.rcx := rfl
@[simp] theorem rdx_state : v.state.regs X86.rdx = v.rdx := rfl
@[simp] theorem rbx_state : v.state.regs X86.rbx = v.rbx := rfl
@[simp] theorem rsp_state : v.state.regs X86.rsp = v.rsp := rfl
@[simp] theorem rbp_state : v.state.regs X86.rbp = v.rbp := rfl

@[simp] theorem vreg_state (k : Fin 8) : v.state.regs (vreg k) = v.file k := Fin.append_right v.low v.file k

@[simp] theorem creg_state (j : Fin 2) : v.state.regs (creg j) = v.consts j :=
  (Fin.append_left v.low v.file _).trans (Fin.append_right _ v.consts j)

@[simp] theorem setZf_state (zf : Option Bool) : v.state.setZf zf = { v with zf := zf }.state := rfl

section SetReg

variable (x : Word)

@[simp] theorem setReg_rax : v.state.setReg X86.rax x = { v with rax := x }.state := by
  refine congrArg (State.mk · v.zf v.mem) (funext fun i => ?_)
  fin_cases i <;> rfl

@[simp] theorem setReg_rcx : v.state.setReg X86.rcx x = { v with rcx := x }.state := by
  refine congrArg (State.mk · v.zf v.mem) (funext fun i => ?_)
  fin_cases i <;> rfl

@[simp] theorem setReg_rdx : v.state.setReg X86.rdx x = { v with rdx := x }.state := by
  refine congrArg (State.mk · v.zf v.mem) (funext fun i => ?_)
  fin_cases i <;> rfl

@[simp] theorem setReg_rbx : v.state.setReg X86.rbx x = { v with rbx := x }.state := by
  refine congrArg (State.mk · v.zf v.mem) (funext fun i => ?_)
  fin_cases i <;> rfl

@[simp] theorem setReg_rsp : v.state.setReg X86.rsp x = { v with rsp := x }.state := by
  refine congrArg (State.mk · v.zf v.mem) (funext fun i => ?_)
  fin_cases i <;> rfl

@[simp] theorem setReg_rbp : v.state.setReg X86.rbp x = { v with rbp := x }.state := by
  refine congrArg (State.mk · v.zf v.mem) (funext fun i => ?_)
  fin_cases i <;> rfl

@[simp] theorem setReg_vreg (k : Fin 8) :
    v.state.setReg (vreg k) x = { v with file := Function.update v.file k x }.state :=
  congrArg (State.mk · v.zf v.mem) (Fin.update_append_right v.low v.file k x)

end SetReg

/-- Every state is of this form. -/
def ofState (s : State) : Machine where
  rax := s.regs X86.rax
  rcx := s.regs X86.rcx
  rdx := s.regs X86.rdx
  rbx := s.regs X86.rbx
  rsp := s.regs X86.rsp
  rbp := s.regs X86.rbp
  consts j := s.regs (creg j)
  file k := s.regs (vreg k)
  zf := s.zf
  mem := s.mem

theorem state_ofState (s : State) : (ofState s).state = s := by
  refine congrArg (State.mk · s.zf s.mem) (funext fun i => ?_)
  fin_cases i <;> rfl

end Machine

end HashWX.CompilerX86
