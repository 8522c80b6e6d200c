import HashWX.Program.Instruction
import HashWX.Siphash.Rng
import HashWX.Lib.HaltingLoop

/-!
# The interpreter

`program_exec.c`, with `none` for undefined behaviour: an access outside an array, a
shift by the width or more, an opcode that no case handles. The two interpreters of the
code differ in the operand that MUL and XAS instructions take, which is a parameter here.
-/

namespace HashWX

open Siphash FinArray ForLoop
open HaltingLoop (Outcome)

/-- `uint64_t r[HASHWX_REG_SIZE]`. -/
abbrev Regs := Vector Word 10

/-- Registers that are all different, and none of them zero. -/
def sampleRegs : Regs := Vector.ofFn fun i => BitVec.ofNat 64 (0x9e3779b97f4a7c15 * (i.val + 1))

/-- `uint64_t mem[HASHWX_MEM_SIZE]`. -/
abbrev Scratchpad := Vector Word 256

/-- `rotr64`. One of its shifts is undefined for a count of zero. -/
def rotr64 (a : Word) (b : Nat) : Option Word :=
  if 0 < b ∧ b < 64 then some (BitRotate.rotr a b) else none

/-- `a >> b` on `uint64_t`. -/
def shiftRight (a : Word) (b : Nat) : Option Word := if b < 64 then some (a >>> b) else none

/-- `((int64_t)a) >> b`. -/
def shiftRightSigned (a : Word) (b : Nat) : Option Word :=
  if b < 64 then some (a.sshiftRight b) else none

/-- The right-hand sides of the MUL and XAS cases: `d` is the destination register
and `v` the source operand. -/
def operate (opcode : InstrType) (d : Word) (imm : Nat) (v : Word) : Option Word :=
  match opcode with
  | .mulor => some ((d ||| BitVec.ofNat 64 imm) * v)
  | .mulxor => some ((d ^^^ BitVec.ofNat 64 imm) * v)
  | .muladd => some ((d + BitVec.ofNat 64 imm) * v)
  | .xorror => do return (← rotr64 d imm) ^^^ v
  | .addror => do return (← rotr64 d imm) + v
  | .subror => do return (← rotr64 d imm) - v
  | .xorasr => do return (← shiftRightSigned d imm) ^^^ v
  | .addasr => do return (← shiftRightSigned d imm) + v
  | .subasr => do return (← shiftRightSigned d imm) - v
  | .xorlsr => do return (← shiftRight d imm) ^^^ v
  | .addlsr => do return (← shiftRight d imm) + v
  | .sublsr => do return (← shiftRight d imm) - v
  | _ => none

/-- The variables of an interpreter at the head of its loop. -/
structure ExecState where
  r : Regs
  branchCounter : Nat
  branchFlag : BitVec 32
  ic : Nat

/-- One iteration of `for (;;)`; `return branch_counter` halts the loop. -/
def step (operand : Word → Option Word) (program : Program) (s : ExecState) :
    Option (Outcome ExecState) := do
  let instr ← load program s.ic
  let s := { s with ic := s.ic + 1 }
  match instr.opcode with
  | .rmcg =>
    let temp ← rotr64 ((← load s.r instr.dst) * (← load s.r instr.src)) instr.imm
    return .next { s with r := ← store s.r instr.dst temp, branchFlag := temp.setWidth 32 }
  | .branch =>
    if s.branchCounter ≠ 0 ∧ s.branchFlag &&& 32 = 0 then
      return .next { s with branchCounter := s.branchCounter - 1, ic := 0 }
    else
      return .next s
  | .halt => return .halt s
  | .invalid _ => none
  | opcode =>
    let v ← operand (← load s.r instr.src)
    return .next { s with r := ← store s.r instr.dst (← operate opcode (← load s.r instr.dst) instr.imm v) }

/-- The measure of the loop: first the branch budget, then the distance to the end. -/
def ExecState.measure (s : ExecState) : Nat := 11 * s.branchCounter + (10 - s.ic)

/-- What an iteration that goes on does to the two counters. -/
theorem step_next_counters {operand : Word → Option Word} {program : Program} {s s' : ExecState}
    (h : step operand program s = some (.next s')) :
    s.ic < 10 ∧ (s'.ic = s.ic + 1 ∧ s'.branchCounter = s.branchCounter ∨
      s'.ic = 0 ∧ s.branchCounter ≠ 0 ∧ s'.branchCounter = s.branchCounter - 1) := by
  simp only [step, bind, Option.bind_eq_some_iff, pure] at h
  obtain ⟨instr, hload, h⟩ := h
  refine ⟨lt_of_load hload, ?_⟩
  split at h
  · simp only [Option.bind_eq_some_iff, Option.some.injEq, Outcome.next.injEq] at h
    obtain ⟨_, _, _, _, _, _, _, _, rfl⟩ := h
    exact .inl ⟨rfl, rfl⟩
  · split at h
    · next hc =>
      simp only [Option.some.injEq, Outcome.next.injEq] at h
      subst h
      exact .inr ⟨rfl, hc.1, rfl⟩
    · simp only [Option.some.injEq, Outcome.next.injEq] at h
      subst h
      exact .inl ⟨rfl, rfl⟩
  · cases h
  · cases h
  · simp only [Option.bind_eq_some_iff, Option.some.injEq, Outcome.next.injEq] at h
    obtain ⟨_, _, _, _, _, _, _, _, _, _, rfl⟩ := h
    exact .inl ⟨rfl, rfl⟩

theorem measure_decreases {operand : Word → Option Word} {program : Program} {s s' : ExecState}
    (h : step operand program s = some (.next s')) : s'.measure < s.measure := by
  obtain ⟨hic, ⟨h1, h2⟩ | ⟨h1, h2, h3⟩⟩ := step_next_counters h
  · rw [ExecState.measure, ExecState.measure, h1, h2]
    omega
  · rw [ExecState.measure, ExecState.measure, h1, h3]
    omega

/-- The loop `for (;;)`, to the state in which HALT returns. -/
def execute (operand : Word → Option Word) (program : Program) : ExecState → Option ExecState :=
  HaltingLoop.run (step operand program) ExecState.measure measure_decreases

/-- The state in which an interpreter enters its loop. -/
def entry (r : Regs) (branchCounter : Nat) : ExecState :=
  { r := r, branchCounter := branchCounter, branchFlag := 0, ic := 0 }

/-- The registers and the returned `branch_counter`. -/
def programExecute (operand : Word → Option Word) (program : Program) (r : Regs)
    (branchCounter : Nat) : Option (Regs × Nat) :=
  (execute operand program (entry r branchCounter)).map fun s => (s.r, s.branchCounter)

/-- `(r[instr->src] / 8) % 256`. -/
def readIndex (a : Word) : Nat := a.toNat / 8 % 256

/-- `mem[(r[instr->src] / 8) % 256]`. -/
def memOperand (mem : Scratchpad) (a : Word) : Option Word := load mem (readIndex a)

def programExecuteReg (program : Program) (r : Regs) (branchCounter : Nat) : Option (Regs × Nat) :=
  programExecute some program r branchCounter

def programExecuteMem (program : Program) (r : Regs) (branchCounter : Nat) (mem : Scratchpad) :
    Option (Regs × Nat) :=
  programExecute (memOperand mem) program r branchCounter

/-- `HASHWX_MEM_SIZE - 1 - 8 * i - j`, in the unsigned arithmetic of `uint32_t i`. -/
def memIndex (i : Fin 32) (j : Fin 8) : Nat :=
  (255 - 8 * BitVec.ofNat 32 i - BitVec.ofNat 32 j).toNat

/-- The loop over `j` that stores `r[0..7]`. -/
def storeRegs (i : Fin 32) (r : Regs) (mem : Scratchpad) : Option Scratchpad :=
  forLoopM 8 (fun mem j => do store mem (memIndex i j) (← load r j)) mem

/-- The body of the first loop of `hashwx_program_list_execute`; the state is `r`,
`branch_counter` and `mem`. -/
def writeProgram (list : ProgramList) (s : Regs × Nat × Scratchpad) (i : Fin 32) :
    Option (Regs × Nat × Scratchpad) := do
  let (r, branchCounter) ← programExecuteReg list[i] s.1 s.2.1
  return (r, branchCounter, ← storeRegs i r s.2.2)

/-- The body of the second loop. -/
def readProgram (list : ProgramList) (mem : Scratchpad) (s : Regs × Nat) (i : Fin 32) :
    Option (Regs × Nat) :=
  programExecuteMem list[i] s.1 s.2 mem

/-- `hashwx_program_list_execute`; `mem` is what the stack array holds at entry. -/
def hashwxProgramListExecute (list : ProgramList) (r : Regs) (mem : Scratchpad) : Option Regs := do
  let s ← forLoopM 32 (writeProgram list) (r, 32, mem)
  let t ← forLoopM 32 (readProgram list s.2.2) (s.1, 32)
  return t.1

/-- The first `k` iterations of the first loop. -/
def writeFirst (list : ProgramList) (k : Nat) (hk : k ≤ 32) (r : Regs) (mem : Scratchpad) :
    Option (Regs × Nat × Scratchpad) :=
  forLoopM k (fun s i => writeProgram list s (i.castLE hk)) (r, 32, mem)

/-- The first `k` iterations of the second loop. -/
def readFirst (list : ProgramList) (mem : Scratchpad) (k : Nat) (hk : k ≤ 32) (r : Regs) :
    Option (Regs × Nat) :=
  forLoopM k (fun s i => readProgram list mem s (i.castLE hk)) (r, 32)

theorem hashwxProgramListExecute_eq_first (list : ProgramList) (r : Regs) (mem : Scratchpad) :
    hashwxProgramListExecute list r mem = (do
      let s ← writeFirst list 32 le_rfl r mem
      let t ← readFirst list s.2.2 32 le_rfl s.1
      return t.1) := rfl

/-- R8 and R9 are derived from R4 and R7. -/
def adjustRegs (r : Fin 8 → Word) : Regs :=
  #v[r 0, r 1, r 2, r 3, r 4, r 5, r 6, r 7, (r 4 &&& -8) ||| 3, (r 7 &&& -8) ||| 5]

/-- The register setup of `hashwx_exec`: eight outputs of the generator. -/
def initRegs (key : SiphashKey) (input : Word) : Regs :=
  adjustRegs fun i => OutputStream.output hashwxRngNext (hashwxRngInit key input) i

/-- The finalisation of `hashwx_exec`. -/
def finalize (r : Regs) : Word :=
  let s := sipround ⟨r[0], r[1], r[2], r[3]⟩
  let t := sipround ⟨r[4], r[5], r[6], r[7]⟩
  s.v3 ^^^ t.v3 ^^^ r[9]

/-- `hashwx_exec` on an interpreted context. -/
def hashwxExecInterpreted (list : ProgramList) (key : SiphashKey) (input : Word)
    (mem : Scratchpad) : Option Word :=
  (hashwxProgramListExecute list (initRegs key input) mem).map finalize

end HashWX
