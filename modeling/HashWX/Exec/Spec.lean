import HashWX.Exec.Phases
import HashWX.Program.WellFormed
import HashWX.Siphash.Spec
import HashWX.Lib.ByteMemory

/-!
# The virtual machine as specified

Sections 1 and 3 of the specification with appendix D: one machine with a Memory flag, a
byte-addressed memory and a Branch flag that outlives a program. The interpreter of the
code and this machine run in lockstep; their flags agree from the first instruction on.
-/

namespace HashWX.Spec

open BitRotate (rotr)
open ByteMemory (Bytes load64 store64 wordAddr)
open HaltingLoop (Outcome transition)
open StateTransition (Reaches)
open Siphash (Word SipState)
open FinArray ForLoop

/-- The registers of section 1.2 and the memory of section 1.3. -/
structure Vm where
  r : Vector Word 10
  pc : Nat
  bc : Nat
  bf : Bool
  mf : Bool
  memory : Bytes 11

/-- `[src] = MF ? memory[src & 2040] : src`. -/
def Vm.operand (vm : Vm) (src : Word) : Word :=
  if vm.mf then load64 vm.memory ((src &&& 2040).setWidth 11) else src

/-- The operations of table 1.4.2 that load a source operand. -/
def operation (opcode : InstrType) (dst : Word) (imm : Nat) (src : Word) : Option Word :=
  match opcode with
  | .mulor => some ((dst ||| BitVec.ofNat 64 imm) * src)
  | .mulxor => some ((dst ^^^ BitVec.ofNat 64 imm) * src)
  | .muladd => some ((dst + BitVec.ofNat 64 imm) * src)
  | .xorror => some (rotr dst imm ^^^ src)
  | .addror => some (rotr dst imm + src)
  | .subror => some (rotr dst imm - src)
  | .xorasr => some (dst.sshiftRight imm ^^^ src)
  | .addasr => some (dst.sshiftRight imm + src)
  | .subasr => some (dst.sshiftRight imm - src)
  | .xorlsr => some (dst >>> imm ^^^ src)
  | .addlsr => some (dst >>> imm + src)
  | .sublsr => some (dst >>> imm - src)
  | _ => none

/-- Table 1.4.2. PC is incremented when an instruction starts. -/
def Vm.step (program : Program) (vm : Vm) : Option (Outcome Vm) := do
  let instr ← load program vm.pc
  let vm := { vm with pc := vm.pc + 1 }
  match instr.opcode with
  | .rmcg =>
    let dst := rotr ((← load vm.r instr.dst) * (← load vm.r instr.src)) instr.imm
    return .next { vm with r := ← store vm.r instr.dst dst, bf := dst.getLsbD 5 }
  | .branch =>
    if vm.bc ≠ 0 ∧ vm.bf = false then return .next { vm with bc := vm.bc - 1, pc := 0 }
    else return .next vm
  | .halt => return .halt vm
  | .invalid _ => none
  | opcode =>
    let src := vm.operand (← load vm.r instr.src)
    return .next { vm with r := ← store vm.r instr.dst (← operation opcode (← load vm.r instr.dst) instr.imm src) }

def Vm.measure (vm : Vm) : Nat := 11 * vm.bc + (10 - vm.pc)

theorem Vm.measure_decreases {program : Program} {vm vm' : Vm}
    (h : vm.step program = some (.next vm')) : vm'.measure < vm.measure := by
  simp only [step, bind, Option.bind_eq_some_iff, pure] at h
  obtain ⟨instr, hload, h⟩ := h
  have hpc := lt_of_load hload
  split at h
  · simp only [Option.bind_eq_some_iff, Option.some.injEq, Outcome.next.injEq] at h
    obtain ⟨_, _, _, _, _, _, rfl⟩ := h
    simp only [measure]
    omega
  · split at h
    · next hc =>
      simp only [Option.some.injEq, Outcome.next.injEq] at h
      subst h
      simp only [measure]
      omega
    · simp only [Option.some.injEq, Outcome.next.injEq] at h
      subst h
      simp only [measure]
      omega
  · cases h
  · cases h
  · simp only [Option.bind_eq_some_iff, Option.some.injEq, Outcome.next.injEq] at h
    obtain ⟨_, _, _, _, _, _, _, _, rfl⟩ := h
    simp only [measure]
    omega

/-- `vm.execute()`; PC is reset at the beginning of a program. -/
def Vm.execute (program : Program) (vm : Vm) : Option Vm :=
  HaltingLoop.run (Vm.step program) Vm.measure Vm.measure_decreases { vm with pc := 0 }

/-- `vm.memory[2040-64*i-8*j] = vm.r[j]` for `j` in `[0..7]`. -/
def Vm.writeRegisters (vm : Vm) (i : Fin 32) : Vm :=
  forLoop 8 (fun vm j => { vm with
    memory := store64 vm.memory (BitVec.ofNat 11 (2040 - 64 * i - 8 * j)) vm.r[j] }) vm

/-- R8 and R9 as the document derives them. -/
def derived (r : RegFile) : Consts := ![(r 4 &&& -8) ||| 3, (r 7 &&& -8) ||| 5]

/-- The machine of appendix D after the registers R0-R7 are initialised; the Branch flag
and the memory start with any value. -/
def Vm.init (r : Fin 8 → Word) (bf : Bool) (memory : Bytes 11) : Vm where
  r := regs r (derived r)
  pc := 0
  bc := 32
  bf := bf
  mf := false
  memory := memory

/-- Program `i` of the memory write phase. -/
def Vm.writeProgram (list : ProgramList) (vm : Vm) (i : Fin 32) : Option Vm := do
  let vm ← vm.execute list[i]
  return vm.writeRegisters i

/-- The rest of appendix D. -/
def hashwxExecute (list : ProgramList) (vm : Vm) : Option Word := do
  let vm ← forLoopM 32 (Vm.writeProgram list) vm
  let vm := { vm with bc := 32, mf := true }
  let vm ← forLoopM 32 (fun vm i => vm.execute list[i]) vm
  let s := sipround ⟨vm.r[0], vm.r[1], vm.r[2], vm.r[3]⟩
  let t := sipround ⟨vm.r[4], vm.r[5], vm.r[6], vm.r[7]⟩
  return s.v3 ^^^ t.v3 ^^^ vm.r[9]

/-! ## Lockstep with the interpreter -/

/-- The machine `vm`, which entered the program as `vm₀`, and the interpreter at the same
point of it. Their flags agree behind the first instruction. -/
structure Lockstep (vm₀ : Vm) (s : ExecState) (vm : Vm) : Prop where
  r : vm.r = s.r
  pc : vm.pc = s.ic
  bc : vm.bc = s.branchCounter
  bf : s.ic ≠ 0 → vm.bf = s.branchFlag.getLsbD 5
  mf : vm.mf = vm₀.mf
  memory : vm.memory = vm₀.memory

inductive LockstepOutcome (vm₀ : Vm) : Outcome ExecState → Outcome Vm → Prop
  | next {s vm} (h : Lockstep vm₀ s vm) : LockstepOutcome vm₀ (.next s) (.next vm)
  | halt {s vm} (h : Lockstep vm₀ s vm) : LockstepOutcome vm₀ (.halt s) (.halt vm)

theorem Lockstep.operand_eq {vm₀ vm : Vm} {s : ExecState} (h : Lockstep vm₀ s vm) :
    vm.operand = vm₀.operand := by
  funext a
  rw [Vm.operand, Vm.operand, h.mf, h.memory]

/-- Where the code's operation is defined, it is the specified one. -/
theorem operation_of_operate {opcode : InstrType} {d v w : Word} {imm : Nat}
    (h : operate opcode d imm v = some w) : operation opcode d imm v = some w := by
  cases opcode <;>
    simp only [operate, rotr64, shiftRight, shiftRightSigned, bind, Option.bind_eq_some_iff, pure,
      Option.ite_none_right_eq_some] at h <;>
    grind [operation]

theorem Lockstep.step {program : Program} (h0 : program[0].opcode = .rmcg) {vm₀ vm : Vm}
    {s : ExecState} {o : Outcome ExecState} (hl : Lockstep vm₀ s vm)
    (hstep : HashWX.step (total vm₀.operand) program s = some o) :
    ∃ o', vm.step program = some o' ∧ LockstepOutcome vm₀ o o' := by
  have hoperand := hl.operand_eq
  obtain ⟨r, b, flag, ic⟩ := s
  obtain ⟨r', pc, bc, bf, mf, memory⟩ := vm
  obtain ⟨hr, hpc, hbc, hbf, hmf, hmemory⟩ := hl
  simp only at hr hpc hbc hbf hmf hmemory
  subst hr hpc hbc
  simp only [HashWX.step, bind, Option.bind_eq_some_iff, pure] at hstep
  obtain ⟨instr, hload, hstep⟩ := hstep
  -- the flags agree before every instruction but the first, which is RMCG
  have hflag : instr.opcode ≠ .rmcg → bf = flag.getLsbD 5 := by
    intro hop
    refine hbf fun hz => hop ?_
    rw [hz, load_of_lt program (by decide)] at hload
    rw [← Option.some.inj hload]
    exact h0
  split at hstep
  · next hop =>
    simp only [Option.bind_eq_some_iff, Option.some.injEq] at hstep
    obtain ⟨d, hd, v, hv, temp, hrot, r₁, hstore, rfl⟩ := hstep
    obtain ⟨-, htemp⟩ := Option.ite_none_right_eq_some.mp hrot
    refine ⟨.next ⟨r₁, pc + 1, bc, temp.getLsbD 5, mf, memory⟩, ?_,
      .next ⟨rfl, rfl, rfl, fun _ => (flag_bit temp).symm, hmf, hmemory⟩⟩
    simp only [Vm.step, hload, hop, bind, Option.bind_some, hd, hv, Option.some.inj htemp, hstore,
      pure]
  · next hop =>
    have hbf' := hflag (by rw [hop]; decide)
    split at hstep
    · next hc =>
      cases hstep
      rw [flag_and_eq_zero, ← hbf'] at hc
      refine ⟨.next ⟨r', 0, bc - 1, bf, mf, memory⟩, ?_,
        .next ⟨rfl, rfl, rfl, fun hne => absurd rfl hne, hmf, hmemory⟩⟩
      simp only [Vm.step, hload, hop, bind, Option.bind_some, pure]
      exact if_pos hc
    · next hc =>
      cases hstep
      rw [flag_and_eq_zero, ← hbf'] at hc
      refine ⟨.next ⟨r', pc + 1, bc, bf, mf, memory⟩, ?_,
        .next ⟨rfl, rfl, rfl, fun _ => hbf', hmf, hmemory⟩⟩
      simp only [Vm.step, hload, hop, bind, Option.bind_some, pure]
      exact if_neg hc
  · next hop =>
    cases hstep
    refine ⟨.halt ⟨r', pc + 1, bc, bf, mf, memory⟩, ?_,
      .halt ⟨rfl, rfl, rfl, fun _ => hflag (by rw [hop]; decide), hmf, hmemory⟩⟩
    simp only [Vm.step, hload, hop, bind, Option.bind_some, pure]
  · cases hstep
  · next opcode hrmcg hbranch hhalt hinvalid =>
    simp only [Option.bind_eq_some_iff, Option.some.injEq] at hstep
    obtain ⟨a, ha, v, hv, d, hd, w, hw, r₁, hstore, rfl⟩ := hstep
    have hop := operation_of_operate hw
    cases hv
    rw [← hoperand] at hop
    change operation instr.opcode d instr.imm
      (Vm.operand ⟨r', pc + 1, bc, bf, mf, memory⟩ a) = some w at hop
    refine ⟨.next ⟨r₁, pc + 1, bc, bf, mf, memory⟩, ?_,
      .next ⟨rfl, rfl, rfl, fun _ => hflag hrmcg, hmf, hmemory⟩⟩
    simp only [Vm.step, hload, bind, Option.bind_some, pure, ha, hd, hop, hstore]

theorem lockstep_halt {program : Program} (h0 : program[0].opcode = .rmcg) {vm₀ vm : Vm}
    {s s' : ExecState} (hl : Lockstep vm₀ s vm)
    (hreach : Reaches (transition (HashWX.step (total vm₀.operand) program)) (.next s) (.halt s')) :
    ∃ vm', Reaches (transition (Vm.step program)) (.next vm) (.halt vm') ∧
      Lockstep vm₀ s' vm' := by
  have hsim (a b c) (hac : LockstepOutcome vm₀ a c)
      (hstep : transition (HashWX.step (total vm₀.operand) program) a = some b) :
      ∃ d, transition (Vm.step program) c = some d ∧ LockstepOutcome vm₀ b d := by
    obtain hnext | _ := hac
    · exact hnext.step h0 hstep
    · cases hstep
  obtain ⟨o, ho, hrel⟩ := StateTransition.reaches_simulates hsim hreach (.next hl)
  obtain _ | hlast := hrel
  exact ⟨_, ho, hlast⟩

/-- **A program on the specified machine**: the registers and the Branch counter of the
layout, with the source operands the machine loads. -/
theorem execute_eq {t : Layout} {program : Program} (h : t.Describes program) {f : RegFile}
    {c : Consts} {vm : Vm} (hr : vm.r = regs f c) :
    ∃ vm', vm.execute program = some vm' ∧
      vm'.r = regs (t.run vm.operand c (f, vm.bc)).1 c ∧
      vm'.bc = (t.run vm.operand c (f, vm.bc)).2 ∧ vm'.mf = vm.mf ∧ vm'.memory = vm.memory := by
  have h0 : program[0].opcode = .rmcg := by rw [h.code0]; rfl
  obtain ⟨g, hsteps, -⟩ := program_steps h vm.operand c f vm.bc
  have hrun := hsteps.trans (.single (halt_step h _ _ _ _) (halt_cost h _ _ _))
  have hstart : Lockstep vm (entry (regs f c) vm.bc) { vm with pc := 0 } :=
    ⟨hr, rfl, rfl, fun hne => absurd rfl hne, rfl, rfl⟩
  obtain ⟨vm', hreach, hlast⟩ := lockstep_halt h0 hstart hrun.reaches
  exact ⟨vm', HaltingLoop.run_of_reaches _ hreach, hlast.r, hlast.bc, hlast.mf, hlast.memory⟩

/-! ## The memory -/

/-- The words of the memory, by their index. -/
def readWord (memory : Bytes 11) (a : Fin 256) : Option Word := some (load64 memory (wordAddr 0 a))

theorem operand_register {vm : Vm} (hmf : vm.mf = false) : vm.operand = id := by
  funext a
  rw [Vm.operand, hmf, if_neg (by decide), id]

/-- In memory mode a register addresses the same word as in the code. -/
theorem operand_memory {vm : Vm} {m : Memory} (hmf : vm.mf = true)
    (hm : ∀ a, readWord vm.memory a = some (m a)) : vm.operand = loadWord m := by
  funext a
  have haddr : (a &&& 2040).setWidth 11 = wordAddr 0 (Fin.ofNat 256 (a.toNat / 8)) := by
    apply BitVec.eq_of_toNat_eq
    have hmask : (a &&& 2040).toNat = 8 * (a.toNat / 8 % 256) := and_mask a.toNat
    rw [wordAddr, zero_add, BitVec.toNat_setWidth, hmask, BitVec.toNat_ofNat]
    rfl
  rw [Vm.operand, hmf, if_pos rfl, haddr, loadWord]
  exact Option.some.inj (hm _)

/-- The eight stores of program `i`. -/
theorem writeRegisters_eq (i : Fin 32) {vm : Vm} {f : RegFile} {c : Consts} (hr : vm.r = regs f c) :
    ∃ memory, vm.writeRegisters i = { vm with memory := memory } ∧
      (∀ j : Fin 8, readWord memory (topIndex i j) = some (f j)) ∧
      ∀ a : Fin 256, 256 - 8 * i.val ≤ a.val → readWord memory a = readWord vm.memory a := by
  let P (k : Nat) (u : Vm) : Prop := ∃ memory, u = { vm with memory := memory } ∧
    (∀ j : Fin 8, j.val < k → readWord memory (topIndex i j) = some (f j)) ∧
    ∀ a : Fin 256, 256 - 8 * i.val ≤ a.val → readWord memory a = readWord vm.memory a
  have hinit : P 0 vm := ⟨vm.memory, rfl, fun j hj => absurd hj (Nat.not_lt_zero _), fun _ _ => rfl⟩
  have hstep (j : Fin 8) (u : Vm) (hu : P j u) : P (j + 1) { u with
      memory := store64 u.memory (BitVec.ofNat 11 (2040 - 64 * i - 8 * j)) u.r[j] } := by
    obtain ⟨memory, rfl, hnew, hold⟩ := hu
    have haddr : BitVec.ofNat 11 (2040 - 64 * i - 8 * j) = wordAddr 0 (topIndex i j) := by
      have hmul : 2040 - 64 * i.val - 8 * j.val = 8 * (255 - 8 * i.val - j.val) := by omega
      rw [wordAddr, zero_add, topIndex, hmul]
    have hreg : vm.r[j] = f j := by
      have hload := load_regs f c j
      rw [load_of_lt _ (show j.val < 10 by omega)] at hload
      rw [hr]
      exact Option.some.inj hload
    refine ⟨_, rfl, fun j' hj' => ?_, fun a ha => ?_⟩
    · simp only [haddr, hreg, readWord]
      by_cases hjj : j' = j
      · rw [hjj, ByteMemory.load64_store64 _ _ _ (by decide)]
      · have hne : (topIndex i j').val ≠ (topIndex i j).val := by
          have := fun h => hjj (Fin.ext h)
          simp only [topIndex]
          omega
        rw [ByteMemory.load64_store64_word _ _ _ (by omega) (by omega) (by omega)]
        exact hnew j' (by omega)
    · have hne : a.val ≠ (topIndex i j).val := by
        simp only [topIndex]
        omega
      simp only [haddr, hreg, readWord]
      rw [ByteMemory.load64_store64_word _ _ _ (by omega) (by omega) (by omega)]
      exact hold a ha
  obtain ⟨memory, hrun, hnew, hold⟩ := forLoop_invariant P hinit hstep
  exact ⟨memory, hrun, fun j => hnew j j.isLt, hold⟩

/-! ## Conformance -/

section Phases

variable {list : ProgramList} {ts : Fin 32 → Layout} (h : ∀ i : Fin 32, (ts i).Describes list[i])
  (c : Consts)
include h

/-- The machine before program `k` of the memory write phase. -/
structure WriteState (c : Consts) (k : Nat) (vm : Vm) (u : (RegFile × Nat) × Memory) : Prop where
  r : vm.r = regs u.1.1 c
  bc : vm.bc = u.1.2
  mf : vm.mf = false
  filled : Filled k (readWord vm.memory) u.2

theorem write_step (i : Fin 32) (vm : Vm) (u : (RegFile × Nat) × Memory)
    (hvm : WriteState c i vm u) :
    ∃ vm', vm.writeProgram list i = some vm' ∧
      WriteState c (i + 1) vm' (writeLayout ts c u i) := by
  obtain ⟨hr, hbc, hmf, hfilled⟩ := hvm
  obtain ⟨vm', hrun, hr', hbc', hmf', hmemory'⟩ := execute_eq (h i) hr
  rw [operand_register hmf, hbc] at hr' hbc'
  obtain ⟨memory, hwrite, hnew, hold⟩ := writeRegisters_eq i hr'
  rw [hmemory'] at hold
  refine ⟨{ vm' with memory := memory }, ?_, hr', hbc', hmf'.trans hmf, hfilled.store hold hnew⟩
  simp only [Vm.writeProgram, hrun, bind, Option.bind_some, hwrite, pure]

/-- The machine in the memory read phase. -/
structure ReadState (c : Consts) (m : Memory) (vm : Vm) (u : RegFile × Nat) : Prop where
  r : vm.r = regs u.1 c
  bc : vm.bc = u.2
  mf : vm.mf = true
  memory : ∀ a, readWord vm.memory a = some (m a)

theorem read_step {m : Memory} (i : Fin 32) (vm : Vm) (u : RegFile × Nat)
    (hvm : ReadState c m vm u) :
    ∃ vm', vm.execute list[i] = some vm' ∧ ReadState c m vm' (readLayout ts c m u i) := by
  obtain ⟨hr, hbc, hmf, hmemory⟩ := hvm
  obtain ⟨vm', hrun, hr', hbc', hmf', hmemory'⟩ := execute_eq (h i) hr
  rw [operand_memory hmf hmemory, hbc] at hr' hbc'
  exact ⟨vm', hrun, hr', hbc', hmf'.trans hmf, hmemory' ▸ hmemory⟩

end Phases

theorem adjustRegs_eq (r : RegFile) : adjustRegs r = regs r (derived r) := by
  apply Vector.ext
  intro i hi
  match i, hi with
  | 0, _ | 1, _ | 2, _ | 3, _ | 4, _ | 5, _ | 6, _ | 7, _ | 8, _ | 9, _ => rfl

/-- What appendix D computes for a list of layouts. -/
theorem hashwxExecute_eq {list : ProgramList} {ts : Fin 32 → Layout}
    (h : ∀ i : Fin 32, (ts i).Describes list[i]) (r : RegFile) (bf : Bool) (memory : Bytes 11) :
    hashwxExecute list (.init r bf memory) =
      some (finalize (regs (executeLayouts ts (derived r) r) (derived r))) := by
  have hinit : WriteState (derived r) 0 (.init r bf memory) ((r, 32), fun _ => 0) :=
    ⟨rfl, rfl, rfl, filled_zero _ _⟩
  obtain ⟨vm₁, hwrite, h₁⟩ := forLoopM_relation _ hinit (write_step h (derived r))
  change WriteState (derived r) 32 vm₁ (writePhase ts (derived r) r) at h₁
  have hswitch : ReadState (derived r) (writePhase ts (derived r) r).2
      { vm₁ with bc := 32, mf := true } ((writePhase ts (derived r) r).1.1, 32) :=
    ⟨h₁.r, rfl, rfl, h₁.filled.all⟩
  obtain ⟨vm₂, hread, h₂⟩ := forLoopM_relation (fun _ => ReadState (derived r) _) hswitch
    (read_step h (derived r))
  change ReadState (derived r) _ vm₂ (readPhase ts (derived r) _ _) at h₂
  simp only [hashwxExecute, hwrite, bind, Option.bind_some, hread, pure, h₂.r, sipround_eq, finalize,
    executeLayouts]

/-- **Conformance.** On every list with the specified layout and ranges the code returns
the hash that the document prescribes, for any contents of the stack array and of the
machine's memory and Branch flag. -/
theorem hashwxExec_conforms (list : ProgramList) (h : ∀ i : Fin 32, InRange list[i]) (r : RegFile)
    (mem : Scratchpad) (bf : Bool) (memory : Bytes 11) :
    ∃ hash, (hashwxProgramListExecute list (adjustRegs r) mem).map finalize = some hash ∧
      hashwxExecute list (.init r bf memory) = some hash := by
  choose ts hts using fun i => Layout.exists_describes (h i)
  refine ⟨_, ?_, hashwxExecute_eq hts r bf memory⟩
  rw [adjustRegs_eq, hashwxProgramListExecute_eq hts, Option.map_some]

/-- A program with the smallest operands. -/
def sampleProgram : Program :=
  #v[⟨.rmcg, 8, 0, 1⟩, ⟨.xorror, 0, 1, 1⟩, ⟨.mulor, 1, 2, 1⟩, ⟨.addasr, 2, 3, 1⟩, ⟨.mulxor, 3, 4, 9⟩,
    ⟨.sublsr, 4, 5, 3⟩, ⟨.muladd, 5, 6, 33⟩, ⟨.branch, 0, 0, 0⟩, ⟨.subror, 6, 7, 63⟩,
    ⟨.halt, 0, 0, 0⟩]

theorem sampleProgram_inRange : InRange sampleProgram where
  rmcg := rfl
  xas := by
    simp only [xasIndices, List.forall_mem_cons]
    exact ⟨⟨.ror, .xor, rfl⟩, ⟨.asr, .add, rfl⟩, ⟨.lsr, .sub, rfl⟩, ⟨.ror, .sub, rfl⟩,
      List.forall_mem_nil _⟩
  mul := by
    simp only [mulIndices, List.forall_mem_cons]
    exact ⟨⟨.or, rfl⟩, ⟨.xor, rfl⟩, ⟨.add, rfl⟩, List.forall_mem_nil _⟩
  branch := rfl
  halt := rfl
  dst_lt := by decide
  src_rmcg := .inl rfl
  src_lt := by decide
  imm_rmcg := by decide
  imm_mul := by decide
  imm_rotation := by decide
  imm_shift := by decide

theorem hashwxExec_conforms_sample :
    ∃ hash, (hashwxProgramListExecute (.replicate 32 sampleProgram) (adjustRegs fun i => i.val)
        (.replicate 256 0)).map finalize = some hash ∧
      hashwxExecute (.replicate 32 sampleProgram) (.init (fun i => i.val) true fun _ => 0) =
        some hash :=
  hashwxExec_conforms _ (fun i => by simpa [Vector.getElem_fin] using sampleProgram_inRange) _ _ _ _

end HashWX.Spec
