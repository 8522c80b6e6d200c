import HashWX.Exec.Phases
import HashWX.Program.WellFormed

/-!
# Termination, bounds and the branch budget

The whole of `hashwx_program_list_execute` as a transition system with the cost of its
instructions and of the branches taken. Its run is built program by program; what every
step preserves then bounds each index and count along the run.
-/

namespace HashWX

open Siphash FinArray ForLoop WeightedRun
open HaltingLoop (Outcome transition)
open StateTransition (Reaches)

/-- The operand of `program_execute_reg`, and of `program_execute_mem` with its memory. -/
def operandOf : Option Scratchpad → Word → Option Word
  | none => some
  | some mem => memOperand mem

/-- A configuration of `hashwx_program_list_execute`: inside program `i` of one of the
phases, or after the return. -/
inductive ListConfig
  | writing (i : Fin 32) (o : Outcome ExecState) (mem : Scratchpad)
  | reading (i : Fin 32) (o : Outcome ExecState) (mem : Scratchpad)
  | returned (r : Regs)

/-- The head of the first loop, at the counter `k`. -/
def writeHead (k : Nat) (s : Regs × Nat × Scratchpad) : ListConfig :=
  if h : k < 32 then .writing ⟨k, h⟩ (.next (entry s.1 s.2.1)) s.2.2
  else .reading 0 (.next (entry s.1 32)) s.2.2

/-- The head of the second loop. -/
def readHead (mem : Scratchpad) (k : Nat) (s : Regs × Nat) : ListConfig :=
  if h : k < 32 then .reading ⟨k, h⟩ (.next (entry s.1 s.2)) mem else .returned s.1

def listStep (list : ProgramList) : ListConfig → Option ListConfig
  | .writing i (.next s) mem => do return .writing i (← step some list[i] s) mem
  | .writing i (.halt s) mem => do
    return writeHead (i + 1) (s.r, s.branchCounter, ← storeRegs i s.r mem)
  | .reading i (.next s) mem => do return .reading i (← step (memOperand mem) list[i] s) mem
  | .reading i (.halt s) mem => some (readHead mem (i + 1) (s.r, s.branchCounter))
  | .returned _ => none

/-- Instructions and taken branches; the stores and the loop control cost nothing. -/
def listCost (list : ProgramList) : ListConfig → Nat × Nat
  | .writing i o _ | .reading i o _ => cost list[i] o
  | .returned _ => 0

/-- The cost of entering programs with a budget of 32 branches and leaving the `k`-th one
with a budget of `b`. -/
def phaseCost (k b : Nat) : Nat × Nat := (10 * k + 8 * (32 - b), 32 - b)

theorem phaseCost_add {k b b' : Nat} (hb : b ≤ 32) (hb' : b' ≤ b) :
    phaseCost k b + ((b - b') • (8, 1) + (10, 0)) = phaseCost (k + 1) b' := by
  simp only [phaseCost, Prod.smul_mk, smul_eq_mul, Prod.mk_add_mk, Prod.mk.injEq]
  omega

section Run

variable {t : Layout} {program : Program} (h : t.Describes program)
include h

/-- A run of one program, HALT included. -/
theorem program_run (ld : Word → Word) (c : Consts) (f : RegFile) (b : Nat) :
    ∃ g, Run (transition (step (total ld) program)) (cost program)
        ((b - (t.run ld c (f, b)).2) • (8, 1) + (10, 0))
        (.next (entry (regs f c) b))
        (.halt ⟨regs (t.run ld c (f, b)).1 c, (t.run ld c (f, b)).2,
          (t.rmcg0.value c g).setWidth 32, 10⟩) ∧
      (t.run ld c (f, b)).1 = t.xas8.exec ld (t.pass ld c g).2 ∧
      ((t.run ld c (f, b)).2 ≠ 0 → (t.rmcg0.value c g).getLsbD 5 = true) := by
  obtain ⟨g, hsteps, hg⟩ := program_steps h ld c f b
  have hrun := hsteps.trans (.single (halt_step h _ _ _ _) (halt_cost h _ _ _))
  rw [add_assoc] at hrun
  exact ⟨g, hrun, hg⟩

end Run

section Phases

variable {list : ProgramList} {ts : Fin 32 → Layout} (h : ∀ i : Fin 32, (ts i).Describes list[i])
  (c : Consts)

/-- A run of the interpreter inside program `i` of the first phase. -/
theorem writing_run {i : Fin 32} {k : Nat × Nat} {o o' : Outcome ExecState} (mem : Scratchpad)
    (hrun : Run (transition (step (total id) list[i])) (cost list[i]) k o o') :
    Run (listStep list) (listCost list) k (.writing i o mem) (.writing i o' mem) := by
  refine hrun.map (fun o => ListConfig.writing i o mem) (fun a b hab => ?_) (fun a => rfl)
  cases a with
  | halt s => cases hab
  | next s =>
    have hstep : step some list[i] s = some b := hab
    simp only [listStep, hstep, bind, Option.bind_some, pure]

/-- A run of the interpreter inside program `i` of the second phase. -/
theorem reading_run {i : Fin 32} {k : Nat × Nat} {o o' : Outcome ExecState} {mem : Scratchpad} {m : Memory}
    (hmem : ∀ a : Fin 256, load mem a = some (m a))
    (hrun : Run (transition (step (total (loadWord m)) list[i])) (cost list[i]) k o o') :
    Run (listStep list) (listCost list) k (.reading i o mem) (.reading i o' mem) := by
  refine hrun.map (fun o => ListConfig.reading i o mem) (fun a b hab => ?_) (fun a => rfl)
  cases a with
  | halt s => cases hab
  | next s =>
    have hstep : step (memOperand mem) list[i] s = some b := (memOperand_eq hmem).symm ▸ hab
    simp only [listStep, hstep, bind, Option.bind_some, pure]

include h

/-- An iteration of the first loop. -/
theorem write_run (i : Fin 32) (u : (RegFile × Nat) × Memory) {mem : Scratchpad}
    (hmem : Filled i (fun a => load mem a) u.2) :
    ∃ mem', Run (listStep list) (listCost list)
        ((u.1.2 - (writeLayout ts c u i).1.2) • (8, 1) + (10, 0))
        (writeHead i (regs u.1.1 c, u.1.2, mem))
        (writeHead (i + 1) (regs (writeLayout ts c u i).1.1 c, (writeLayout ts c u i).1.2, mem')) ∧
      Filled (i + 1) (fun a => load mem' a) (writeLayout ts c u i).2 := by
  obtain ⟨g, hrun, -⟩ := program_run (h i) id c u.1.1 u.1.2
  obtain ⟨mem', hstore, hnew, hold⟩ := storeRegs_eq i ((ts i).run id c u.1).1 c mem
  have hfilled : Filled (i + 1) (fun a => load mem' a) (writeLayout ts c u i).2 :=
    hmem.store hold hnew
  refine ⟨mem', ?_, hfilled⟩
  have hreturn : listStep list (.writing i (.halt ⟨regs ((ts i).run id c u.1).1 c,
      ((ts i).run id c u.1).2, ((ts i).rmcg0.value c g).setWidth 32, 10⟩) mem) =
      some (writeHead (i + 1)
        (regs ((ts i).run id c u.1).1 c, ((ts i).run id c u.1).2, mem')) := by
    simp only [listStep, hstore, bind, Option.bind_some, pure]
  have hleave := (writing_run mem hrun).trans (.single (k := 0) hreturn rfl)
  rw [add_zero] at hleave
  rw [writeHead, dif_pos i.isLt]
  exact hleave

/-- An iteration of the second loop. -/
theorem read_run {mem : Scratchpad} {m : Memory} (hmem : ∀ a : Fin 256, load mem a = some (m a))
    (i : Fin 32) (u : RegFile × Nat) :
    Run (listStep list) (listCost list) ((u.2 - (readLayout ts c m u i).2) • (8, 1) + (10, 0))
      (readHead mem i (regs u.1 c, u.2))
      (readHead mem (i + 1) (regs (readLayout ts c m u i).1 c, (readLayout ts c m u i).2)) := by
  obtain ⟨g, hrun, -⟩ := program_run (h i) (loadWord m) c u.1 u.2
  have hleave := (reading_run hmem hrun).trans (.single (k := 0) rfl rfl)
  rw [add_zero] at hleave
  rw [readHead, dif_pos i.isLt]
  exact hleave

/-- The first phase, from the call to the entry of the second one. -/
theorem writePhase_run (f : RegFile) (mem : Scratchpad) :
    ∃ mem', Run (listStep list) (listCost list) (phaseCost 32 (writePhase ts c f).1.2)
        (writeHead 0 (regs f c, 32, mem)) (readHead mem' 0 (regs (writePhase ts c f).1.1 c, 32)) ∧
      ∀ a : Fin 256, load mem' a = some ((writePhase ts c f).2 a) := by
  let P (k : Nat) (u : (RegFile × Nat) × Memory) : Prop := u.1.2 ≤ 32 ∧
    ∃ mem', Run (listStep list) (listCost list) (phaseCost k u.1.2)
      (writeHead 0 (regs f c, 32, mem)) (writeHead k (regs u.1.1 c, u.1.2, mem')) ∧
      Filled k (fun a => load mem' a) u.2
  have hinit : P 0 ((f, 32), fun _ => 0) := ⟨Nat.le_refl _, mem, .refl _, filled_zero _ _⟩
  have hstep (i : Fin 32) (u) (hu : P i u) : P (i + 1) (writeLayout ts c u i) := by
    obtain ⟨hle, mem₁, hrun₁, hfilled₁⟩ := hu
    obtain ⟨mem₂, hrun₂, hfilled₂⟩ := write_run h c i u hfilled₁
    have hbudget : (writeLayout ts c u i).1.2 ≤ u.1.2 := (ts i).run_budget_le id c u.1
    have hrun := hrun₁.trans hrun₂
    rw [phaseCost_add hle hbudget] at hrun
    exact ⟨hbudget.trans hle, mem₂, hrun, hfilled₂⟩
  obtain ⟨-, mem', hrun, hfilled⟩ := forLoop_invariant P hinit hstep
  exact ⟨mem', hrun, hfilled.all⟩

/-- The second phase, to the return. -/
theorem readPhase_run {mem : Scratchpad} {m : Memory}
    (hmem : ∀ a : Fin 256, load mem a = some (m a)) (f : RegFile) :
    Run (listStep list) (listCost list) (phaseCost 32 (readPhase ts c m f).2)
      (readHead mem 0 (regs f c, 32)) (.returned (regs (readPhase ts c m f).1 c)) := by
  let P (k : Nat) (u : RegFile × Nat) : Prop := u.2 ≤ 32 ∧
    Run (listStep list) (listCost list) (phaseCost k u.2)
      (readHead mem 0 (regs f c, 32)) (readHead mem k (regs u.1 c, u.2))
  have hinit : P 0 (f, 32) := ⟨Nat.le_refl _, .refl _⟩
  have hstep (i : Fin 32) (u) (hu : P i u) : P (i + 1) (readLayout ts c m u i) := by
    obtain ⟨hle, hrun₁⟩ := hu
    have hbudget : (readLayout ts c m u i).2 ≤ u.2 := (ts i).run_budget_le (loadWord m) c u
    have hrun := hrun₁.trans (read_run h c hmem i u)
    rw [phaseCost_add hle hbudget] at hrun
    exact ⟨hbudget.trans hle, hrun⟩
  exact (forLoop_invariant P hinit hstep).2

end Phases

/-! ## Bounds -/

def Instruction.HasOperands (x : Instruction) : Prop := x.opcode ≠ .branch ∧ x.opcode ≠ .halt

/-- The instruction rotates or shifts by its immediate. -/
def Instruction.Shifts (x : Instruction) : Prop := x.opcode = .rmcg ∨ x.opcode.IsXas

/-- What an interpreter takes for granted about the instruction it executes. -/
structure Instruction.Safe (x : Instruction) : Prop where
  handled : ∀ value, x.opcode ≠ .invalid value
  dst_lt : x.HasOperands → x.dst < 8
  src_lt : x.HasOperands → x.src < 10
  count : x.Shifts → 1 ≤ x.imm ∧ x.imm ≤ 63

theorem Rmcg.safe (x : Rmcg) : x.instruction.Safe where
  handled _ := InstrType.noConfusion
  dst_lt _ := x.dst.isLt
  src_lt _ := Nat.add_lt_add_left x.src.isLt 8
  count _ := ⟨x.imm_pos, x.imm_le⟩

theorem Mul.safe (x : Mul) : x.instruction.Safe where
  handled value := by cases h : x.op <;> simp [Mul.instruction, h, MulOp.opcode]
  dst_lt _ := x.dst.isLt
  src_lt _ := x.src.isLt.trans (by decide)
  count h := by
    rcases h with h | ⟨pre, post, h⟩ <;> cases hop : x.op <;>
      simp only [Mul.instruction, hop, MulOp.opcode] at h
    all_goals first | cases h | cases pre <;> cases post <;> cases h

theorem Xas.safe (x : Xas) : x.instruction.Safe where
  handled value := by
    cases hpre : x.pre <;> cases hpost : x.post <;> simp [Xas.instruction, hpre, hpost, xasOpcode]
  dst_lt _ := x.dst.isLt
  src_lt _ := x.src.isLt.trans (by decide)
  count _ := ⟨x.imm_pos, Nat.le_of_lt_succ x.imm_lt⟩

theorem safe_of_noOperands {x : Instruction} (h : x.opcode = .branch ∨ x.opcode = .halt) :
    x.Safe where
  handled value hv := by rcases h with h | h <;> rw [h] at hv <;> cases hv
  dst_lt ho := absurd h (not_or.mpr ho)
  src_lt ho := absurd h (not_or.mpr ho)
  count hs := by
    rcases h with h | h <;> rcases hs with hs | ⟨pre, post, hs⟩ <;> rw [h] at hs
    all_goals first | cases hs | cases pre <;> cases post <;> cases hs

theorem Layout.Describes.safe {t : Layout} {program : Program} (h : t.Describes program) {k : Nat}
    (hk : k < 10) : program[k].Safe := by
  match k, hk with
  | 0, _ => exact h.code0 ▸ t.rmcg0.safe
  | 1, _ => exact h.code1 ▸ t.xas1.safe
  | 2, _ => exact h.code2 ▸ t.mul2.safe
  | 3, _ => exact h.code3 ▸ t.xas3.safe
  | 4, _ => exact h.code4 ▸ t.mul4.safe
  | 5, _ => exact h.code5 ▸ t.xas5.safe
  | 6, _ => exact h.code6 ▸ t.mul6.safe
  | 7, _ => exact safe_of_noOperands (.inl h.branch)
  | 8, _ => exact h.code8 ▸ t.xas8.safe
  | 9, _ => exact safe_of_noOperands (.inr h.halt)

/-- The next fetch is inside the program, and the fetched instruction is safe. -/
structure FetchesSafely (program : Program) (s : ExecState) : Prop where
  ic_le : s.ic ≤ 9
  safe : ∃ instr, load program s.ic = some instr ∧ instr.Safe

/-- Every index and count that the next step uses lies in its range. -/
def ListConfig.InBounds (list : ProgramList) : ListConfig → Prop
  | .writing i (.next s) _ => FetchesSafely list[i] s
  | .writing i (.halt _) _ => ∀ j : Fin 8, memIndex i j < 256
  | .reading i (.next s) _ => FetchesSafely list[i] s ∧ ∀ v ∈ s.r, readIndex v < 256
  | .reading _ (.halt _) _ => True
  | .returned _ => True

theorem Layout.Describes.fetchesSafely {t : Layout} {program : Program} (h : t.Describes program)
    {s : ExecState} (hs : s.ic ≤ 9) : FetchesSafely program s :=
  ⟨hs, _, load_of_lt program (Nat.lt_succ_of_le hs), h.safe (Nat.lt_succ_of_le hs)⟩

/-- HALT stands at index 9, so no step goes on from there. -/
theorem Layout.Describes.next_ic_le {t : Layout} {program : Program} (h : t.Describes program)
    {operand : Word → Option Word} {s s' : ExecState}
    (hstep : step operand program s = some (.next s')) : s'.ic ≤ 9 := by
  obtain ⟨hic, ⟨hnext, -⟩ | ⟨hzero, -⟩⟩ := step_next_counters hstep
  · have hne : s.ic ≠ 9 := by
      intro h9
      obtain ⟨r, b, flag, ic⟩ := s
      simp only at h9
      rw [h9, halt_step h] at hstep
      cases hstep
    omega
  · omega

section Bounds

variable {list : ProgramList} {ts : Fin 32 → Layout} (h : ∀ i : Fin 32, (ts i).Describes list[i])
include h

theorem outcome_inBounds {operand : Word → Option Word} {i : Fin 32} {s : ExecState} {o : Outcome ExecState}
    (hstep : step operand list[i] s = some o) (mem : Scratchpad) :
    (ListConfig.writing i o mem).InBounds list ∧ (ListConfig.reading i o mem).InBounds list := by
  cases o with
  | next s' =>
    have hsafe := (h i).fetchesSafely ((h i).next_ic_le hstep)
    exact ⟨hsafe, hsafe, fun v _ => Nat.mod_lt _ (by decide)⟩
  | halt s' => exact ⟨memIndex_lt i, trivial⟩

theorem writeHead_inBounds (k : Nat) (s : Regs × Nat × Scratchpad) :
    (writeHead k s).InBounds list := by
  unfold writeHead
  split
  · exact (h _).fetchesSafely (Nat.zero_le 9)
  · exact ⟨(h 0).fetchesSafely (Nat.zero_le 9), fun v _ => Nat.mod_lt _ (by decide)⟩

theorem readHead_inBounds (mem : Scratchpad) (k : Nat) (s : Regs × Nat) :
    (readHead mem k s).InBounds list := by
  unfold readHead
  split
  · exact ⟨(h _).fetchesSafely (Nat.zero_le 9), fun v _ => Nat.mod_lt _ (by decide)⟩
  · exact trivial

/-- Every step leads to a configuration in bounds. -/
theorem listStep_inBounds {a b : ListConfig} (hstep : listStep list a = some b) :
    b.InBounds list := by
  match a with
  | .writing i (.next s) mem =>
    obtain ⟨o, ho, hb⟩ := Option.bind_eq_some_iff.mp hstep
    cases hb
    exact (outcome_inBounds h ho mem).1
  | .writing i (.halt s) mem =>
    obtain ⟨mem', hstore, hb⟩ := Option.bind_eq_some_iff.mp hstep
    cases hb
    exact writeHead_inBounds h _ _
  | .reading i (.next s) mem =>
    obtain ⟨o, ho, hb⟩ := Option.bind_eq_some_iff.mp hstep
    cases hb
    exact (outcome_inBounds h ho mem).2
  | .reading i (.halt s) mem =>
    cases hstep
    exact readHead_inBounds h _ _ _
  | .returned r => cases hstep

theorem reaches_inBounds {r : Regs} {mem : Scratchpad} {a : ListConfig}
    (hreach : Reaches (listStep list) (writeHead 0 (r, 32, mem)) a) : a.InBounds list :=
  StateTransition.reaches_invariant (fun _ _ _ hstep => listStep_inBounds h hstep) hreach
    (writeHead_inBounds h 0 _)

end Bounds

/-! ## The runs of a generated list -/

/-- A run of one program in either mode, entered with the budget `b`: it leaves with a
budget of at most `b` after `10 + 8 * (b - b')` instructions, of which the branches taken
are what the budget lost. The destination of instruction 0 still holds the last RMCG
result `m`, whose low half is the flag. -/
def LeavesWithin (program : Program) (mem : Option Scratchpad) (r : Regs) (b : Nat) : Prop :=
  ∃ s m, Run (transition (step (operandOf mem) program)) (cost program)
      (10 + 8 * (b - s.branchCounter), b - s.branchCounter) (.next (entry r b)) (.halt s) ∧
    s.branchCounter ≤ b ∧ s.ic = 10 ∧
    load s.r program[0].dst = some m ∧ s.branchFlag = m.setWidth 32 ∧
    (0 < s.branchCounter → m.getLsbD 5 = true)

/-- Both phases end, and each takes at most 576 instructions and 32 branches. -/
def PhasesWithin (list : ProgramList) (r : Regs) (mem : Scratchpad) : Prop :=
  ∃ r₁ mem₁ r₂ k₁ k₂,
    Run (listStep list) (listCost list) k₁ (writeHead 0 (r, 32, mem))
      (readHead mem₁ 0 (r₁, 32)) ∧ k₁.1 ≤ 576 ∧ k₁.2 ≤ 32 ∧
    Run (listStep list) (listCost list) k₂ (readHead mem₁ 0 (r₁, 32)) (.returned r₂) ∧
      k₂.1 ≤ 576 ∧ k₂.2 ≤ 32 ∧
    hashwxProgramListExecute list r mem = some r₂

/-- A configuration that is not the return goes on. -/
def Progresses (list : ProgramList) (a : ListConfig) : Prop :=
  (∃ r, a = .returned r) ∨ ∃ b, listStep list a = some b

theorem operandOf_eq (mem : Option Scratchpad) : ∃ ld, operandOf mem = total ld := by
  cases mem with
  | none => exact ⟨id, rfl⟩
  | some mem =>
    exact ⟨loadWord fun a => mem[a], memOperand_eq fun a => load_of_lt mem a.isLt⟩

theorem leavesWithin {t : Layout} {program : Program} (h : t.Describes program) (hs : t.Shuffled)
    (mem : Option Scratchpad) (r : Regs) (b : Nat) : LeavesWithin program mem r b := by
  obtain ⟨ld, hld⟩ := operandOf_eq mem
  obtain ⟨g, hrun, hg, hbit⟩ := program_run h ld (constsOf r) (fileOf r) b
  have hle := t.run_budget_le ld (constsOf r) (fileOf r, b)
  have hm : (t.run ld (constsOf r) (fileOf r, b)).1 t.rmcg0.dst = t.rmcg0.value (constsOf r) g := by
    have hne : t.rmcg0.dst ≠ t.xas8.dst := hs.dst_injective.ne (show (0 : Fin 8) ≠ 7 by decide)
    rw [hg, Xas.exec_of_ne ld hne]
    exact (hs.body_rmcg ld _).trans (Function.update_self t.rmcg0.dst _ _)
  have hcost (n : Nat) : n • ((8, 1) : Nat × Nat) + (10, 0) = (10 + 8 * n, n) := by
    simp only [Prod.smul_mk, smul_eq_mul, Prod.mk_add_mk, Prod.mk.injEq]
    omega
  rw [hcost, regs_eta, ← hld] at hrun
  refine ⟨⟨_, _, _, _⟩, t.rmcg0.value (constsOf r) g, hrun, hle, rfl, ?_, rfl, fun h0 => ?_⟩
  · rw [h.code0]
    exact (load_regs _ _ t.rmcg0.dst).trans (congrArg some hm)
  · exact hbit (Nat.pos_iff_ne_zero.mp h0)

theorem phaseCost_le {b : Nat} : (phaseCost 32 b).1 ≤ 576 ∧ (phaseCost 32 b).2 ≤ 32 := by
  simp only [phaseCost]
  omega

section Phases

variable {list : ProgramList} {ts : Fin 32 → Layout} (h : ∀ i : Fin 32, (ts i).Describes list[i])
include h

theorem phasesWithin (r : Regs) (mem : Scratchpad) : PhasesWithin list r mem := by
  obtain ⟨mem₁, hwrite, hmem⟩ := writePhase_run h (constsOf r) (fileOf r) mem
  have hread := readPhase_run h (constsOf r) hmem (writePhase ts (constsOf r) (fileOf r)).1.1
  have hresult := hashwxProgramListExecute_eq h (constsOf r) (fileOf r) mem
  rw [regs_eta] at hwrite hresult
  exact ⟨_, mem₁, _, _, _, hwrite, phaseCost_le.1, phaseCost_le.2, hread, phaseCost_le.1,
    phaseCost_le.2, hresult⟩

/-- The run is deterministic and returns, so nothing on the way is stuck. -/
theorem reaches_progresses {r : Regs} {mem : Scratchpad} {a : ListConfig}
    (hreach : Reaches (listStep list) (writeHead 0 (r, 32, mem)) a) : Progresses list a := by
  obtain ⟨r₁, mem₁, r₂, _, _, hwrite, -, -, hread, -⟩ := phasesWithin h r mem
  have hreturn := hwrite.reaches.trans hread.reaches
  rcases StateTransition.reaches_total hreach hreturn with hto | hfrom
  · rcases Relation.ReflTransGen.cases_head hto with rfl | ⟨b, hab, -⟩
    · exact .inl ⟨r₂, rfl⟩
    · exact .inr ⟨b, hab⟩
  · rcases Relation.ReflTransGen.cases_head hfrom with rfl | ⟨b, hab, -⟩
    · exact .inl ⟨r₂, rfl⟩
    · cases hab

end Phases

/-- **Termination, budget and bounds** of the interpreter on every generated list. -/
theorem hashwxProgramListExecute_bounded (key : SiphashKey) (old : ProgramList) :
    let list := hashwxProgramListGenerate key old
    (∀ (i : Fin 32) (mem : Option Scratchpad) (r : Regs) (b : Nat),
      LeavesWithin list[i] mem r b) ∧
    (∀ (r : Regs) (mem : Scratchpad), PhasesWithin list r mem) ∧
    ∀ (r : Regs) (mem : Scratchpad) (a : ListConfig),
      Reaches (listStep list) (writeHead 0 (r, 32, mem)) a → a.InBounds list ∧ Progresses list a := by
  obtain ⟨ts, hshuffled, hdescribes⟩ := hashwxProgramListGenerate_describes key old
  exact ⟨fun i => leavesWithin (hdescribes i) (hshuffled i), phasesWithin hdescribes,
    fun r mem a hreach => ⟨reaches_inBounds hdescribes hreach, reaches_progresses hdescribes hreach⟩⟩

/-- The fetch of HALT moves the instruction counter past the program. -/
theorem ic_exceeds_nine :
    ∃ s, Reaches (transition <| step some
        (hashwxProgramListGenerate ⟨0, 0⟩ (.replicate 32 (.replicate 10 ⟨.halt, 0, 0, 0⟩)))[0])
      (.next (entry (.replicate 10 0) 32)) (.halt s) ∧ 9 < s.ic := by
  obtain ⟨t, -, ht⟩ := programListGenerate_describes hashwxRngNext
    (.replicate 32 (.replicate 10 ⟨.halt, 0, 0, 0⟩)) (hashwxRngInit ⟨0, 0⟩ (-1)) 0
  obtain ⟨g, hrun, -⟩ := program_run ht id (fun _ => 0) (fun _ => 0) 32
  have hzero : regs (fun _ => 0) (fun _ => 0) = (.replicate 10 0 : Regs) := by decide
  rw [hzero] at hrun
  exact ⟨_, hrun.reaches, Nat.lt_succ_self 9⟩

end HashWX
