import HashWX.Exec.Interpreter
import HashWX.Exec.Semantics
import HashWX.Lib.WeightedRun
import Mathlib.Algebra.GroupWithZero.Nat
import Mathlib.Algebra.Group.Prod

/-!
# The interpreters compute the meaning of a layout

One lemma for each family of instructions says what a step does to a program that
holds a layout. Eight steps are a pass, and the loop around them is the budgeted loop
of the layout; the run ends with the ninth operation and HALT.
-/

namespace HashWX

open Siphash FinArray ForLoop WeightedRun
open HaltingLoop (Outcome transition)

/-! ## Registers -/

/-- The array `r` that holds a register file and the two constants. -/
def regs (f : RegFile) (c : Consts) : Regs := Vector.ofFn (Fin.append (m := 8) (n := 2) f c)

theorem regs_file (f : RegFile) (c : Consts) (i : Fin 8) : (regs f c)[i] = f i := by
  refine (Vector.getElem_ofFn _).trans ?_
  exact Fin.append_left f c i

theorem regs_const (f : RegFile) (c : Consts) (j : Fin 2) : (regs f c)[8 + j.val] = c j := by
  refine (Vector.getElem_ofFn _).trans ?_
  exact Fin.append_right f c j

theorem load_regs (f : RegFile) (c : Consts) (i : Fin 8) : load (regs f c) i = some (f i) := by
  rw [load_of_lt _ (show i.val < 10 by omega), regs, Vector.getElem_ofFn]
  exact congrArg some (Fin.append_left f c i)

theorem load_regs_const (f : RegFile) (c : Consts) (j : Fin 2) :
    load (regs f c) (8 + j) = some (c j) := by
  rw [load_of_lt _ (show 8 + j.val < 10 by omega), regs, Vector.getElem_ofFn]
  exact congrArg some (Fin.append_right f c j)

theorem store_regs (f : RegFile) (c : Consts) (i : Fin 8) (v : Word) :
    store (regs f c) i v = some (regs (Function.update f i v) c) := by
  rw [store_of_lt _ (show i.val < 10 by omega)]
  congr 1
  apply Vector.ext
  intro k hk
  by_cases hki : i.val = k
  · subst hki
    rw [Vector.getElem_set_self, regs, Vector.getElem_ofFn]
    exact ((Fin.append_left _ c i).trans (Function.update_self i v f)).symm
  · rw [Vector.getElem_set_ne _ _ hki, regs, regs, Vector.getElem_ofFn, Vector.getElem_ofFn]
    by_cases hk8 : k < 8
    · have hne : (⟨k, hk8⟩ : Fin 8) ≠ i := fun h => hki (congrArg Fin.val h).symm
      exact (Fin.append_left f c ⟨k, hk8⟩).trans
        ((Function.update_of_ne hne v f).symm.trans (Fin.append_left _ c ⟨k, hk8⟩).symm)
    · obtain ⟨j, rfl⟩ := Nat.exists_eq_add_of_le (Nat.le_of_not_lt hk8)
      exact (Fin.append_right f c ⟨j, by omega⟩).trans (Fin.append_right _ c ⟨j, by omega⟩).symm

def fileOf (r : Regs) : RegFile := fun i => r[i.val]
def constsOf (r : Regs) : Consts := fun j => r[8 + j.val]

/-- Every register array is of this form. -/
theorem regs_eta (r : Regs) : regs (fileOf r) (constsOf r) = r := by
  apply Vector.ext
  intro k hk
  rw [regs, Vector.getElem_ofFn]
  by_cases hk8 : k < 8
  · exact Fin.append_left (fileOf r) (constsOf r) ⟨k, hk8⟩
  · obtain ⟨j, rfl⟩ := Nat.exists_eq_add_of_le (Nat.le_of_not_lt hk8)
    exact Fin.append_right (fileOf r) (constsOf r) ⟨j, by omega⟩

/-! ## Steps -/

theorem rotr64_eq (a : Word) {b : Nat} (h1 : 1 ≤ b) (h2 : b < 64) :
    rotr64 a b = some (BitRotate.rotr a b) := if_pos ⟨h1, h2⟩

theorem operate_mul (op : MulOp) (d v : Word) (imm : Nat) :
    operate op.opcode d imm v = some (op.apply d (BitVec.ofNat 64 imm) * v) := by
  cases op <;> rfl

theorem operate_xas (pre : PreOp) (post : PostOp) (d v : Word) {imm : Nat} (h1 : 1 ≤ imm)
    (h2 : imm < 64) :
    operate (xasOpcode pre post) d imm v = some (post.apply (pre.apply d imm) v) := by
  cases pre <;> cases post <;>
    simp [xasOpcode, operate, rotr64_eq d h1 h2, shiftRight, shiftRightSigned, h2, PreOp.apply,
      PostOp.apply]

/-- The operand of both interpreters, when the memory access is in bounds. -/
def total (ld : Word → Word) (a : Word) : Option Word := some (ld a)

section Step

variable {ld : Word → Word} {program : Program} {f : RegFile} {c : Consts} {b ic : Nat}
  {flag : BitVec 32}

theorem step_rmcg {x : Rmcg} (h : load program ic = some x.instruction) :
    step (total ld) program ⟨regs f c, b, flag, ic⟩ =
      some (.next ⟨regs (x.exec c f) c, b, (x.value c f).setWidth 32, ic + 1⟩) := by
  have hrot := rotr64_eq (f x.dst * c x.src) x.imm_pos (Nat.lt_succ_of_le x.imm_le)
  simp only [step, h, bind, Option.bind_some, Rmcg.instruction, load_regs, load_regs_const, hrot,
    store_regs, pure]
  rfl

/-- What the two families with a loaded operand have in common. -/
theorem step_operate {instr : Instruction} (h : load program ic = some instr)
    (hop : instr.opcode.IsMul ∨ instr.opcode.IsXas) {dst src : Fin 8} (hdst : instr.dst = dst)
    (hsrc : instr.src = src) {v : Word}
    (hv : operate instr.opcode (f dst) instr.imm (ld (f src)) = some v) :
    step (total ld) program ⟨regs f c, b, flag, ic⟩ =
      some (.next ⟨regs (Function.update f dst v) c, b, flag, ic + 1⟩) := by
  obtain ⟨opcode, _, _, imm⟩ := instr
  subst hdst hsrc
  rcases hop with ⟨op, rfl⟩ | ⟨pre, post, rfl⟩
  · cases op <;>
      simp_all only [step, MulOp.opcode, total, bind, Option.bind_some, load_regs, store_regs, pure]
  · cases pre <;> cases post <;>
      simp_all only [step, xasOpcode, total, bind, Option.bind_some, load_regs, store_regs, pure]

theorem step_mul {x : Mul} (h : load program ic = some x.instruction) :
    step (total ld) program ⟨regs f c, b, flag, ic⟩ =
      some (.next ⟨regs (x.exec ld f) c, b, flag, ic + 1⟩) :=
  step_operate h (.inl ⟨x.op, rfl⟩) rfl rfl (operate_mul _ _ _ _)

theorem step_xas {x : Xas} (h : load program ic = some x.instruction) :
    step (total ld) program ⟨regs f c, b, flag, ic⟩ =
      some (.next ⟨regs (x.exec ld f) c, b, flag, ic + 1⟩) :=
  step_operate h (.inr ⟨x.pre, x.post, rfl⟩) rfl rfl (operate_xas _ _ _ _ x.imm_pos x.imm_lt)

theorem step_branch {r : Regs} {instr : Instruction} (h : load program ic = some instr)
    (hop : instr.opcode = .branch) {operand : Word → Option Word} :
    step operand program ⟨r, b, flag, ic⟩ =
      some (.next (if b ≠ 0 ∧ flag &&& 32 = 0 then ⟨r, b - 1, flag, 0⟩
        else ⟨r, b, flag, ic + 1⟩)) := by
  simp only [step, h, hop, bind, Option.bind_some, pure]
  split <;> rfl

theorem step_halt {r : Regs} {instr : Instruction} (h : load program ic = some instr)
    (hop : instr.opcode = .halt) {operand : Word → Option Word} :
    step operand program ⟨r, b, flag, ic⟩ = some (.halt ⟨r, b, flag, ic + 1⟩) := by
  simp only [step, h, hop, bind, Option.bind_some, pure]

end Step

/-! ## Runs of one program -/

/-- BRANCH is about to go back to the start of the program. -/
def takesBranch (program : Program) (s : ExecState) : Bool :=
  match load program s.ic with
  | some instr => instr.opcode = .branch ∧ s.branchCounter ≠ 0 ∧ s.branchFlag &&& 32 = 0
  | none => false

/-- The cost of an iteration: one instruction, and one branch if it is taken. -/
def cost (program : Program) : Outcome ExecState → Nat × Nat
  | .next s => (1, if takesBranch program s then 1 else 0)
  | .halt _ => 0

theorem flag_and_eq_zero (flag : BitVec 32) : flag &&& 32 = 0 ↔ flag.getLsbD 5 = false := by
  have h32 : (32 : BitVec 32) = BitVec.twoPow 32 5 := rfl
  have hne : BitVec.twoPow 32 5 ≠ 0#32 := by decide
  rw [h32, BitVec.and_twoPow]
  cases flag.getLsbD 5 <;> simp [hne]

theorem flag_bit (m : Word) : (m.setWidth 32).getLsbD 5 = m.getLsbD 5 := by simp

theorem cost_branch {program : Program} {s : ExecState} {instr : Instruction}
    (hload : load program s.ic = some instr) (hop : instr.opcode = .branch) :
    cost program (.next s) = (1, if s.branchCounter ≠ 0 ∧ s.branchFlag &&& 32 = 0 then 1 else 0) := by
  simp only [cost, takesBranch, hload, hop, true_and, decide_eq_true_eq]

/-- An instruction other than BRANCH costs one. -/
theorem cost_other {program : Program} {s : ExecState} {instr : Instruction}
    (hload : load program s.ic = some instr) (hop : instr.opcode ≠ .branch) :
    cost program (.next s) = (1, 0) := by
  simp only [cost, takesBranch, hload, hop, false_and, decide_false, Bool.false_eq_true, if_false]

theorem Mul.opcode_ne_branch (x : Mul) : x.instruction.opcode ≠ .branch := by
  cases h : x.op <;> simp [Mul.instruction, h, MulOp.opcode]

theorem Xas.opcode_ne_branch (x : Xas) : x.instruction.opcode ≠ .branch := by
  cases hpre : x.pre <;> cases hpost : x.post <;> simp [Xas.instruction, hpre, hpost, xasOpcode]

section Run

variable {t : Layout} {program : Program} (h : t.Describes program) (ld : Word → Word) (c : Consts)
include h

/-- The instructions 0 to 6. -/
theorem body_steps (f : RegFile) (b : Nat) (flag : BitVec 32) :
    Run (transition (step (total ld) program)) (cost program) (7, 0) (.next ⟨regs f c, b, flag, 0⟩)
      (.next ⟨regs (t.body ld (t.rmcg0.exec c f)) c, b, (t.rmcg0.value c f).setWidth 32, 7⟩) :=
  have hload {k : Nat} (hk : k < 10) {x : Instruction} (hx : program[k] = x) :
      load program k = some x := (load_of_lt program hk).trans (congrArg some hx)
  have hrmcg (k : Nat) (hk : k < 10) {x : Rmcg} (hx : program[k] = x.instruction) (f b flag) :
      Run (transition (step (total ld) program)) (cost program) (1, 0) (.next ⟨regs f c, b, flag, k⟩)
        (.next ⟨regs (x.exec c f) c, b, (x.value c f).setWidth 32, k + 1⟩) :=
    .single (step_rmcg (hload hk hx)) (cost_other (hload hk hx) (by simp [Rmcg.instruction]))
  have hmul (k : Nat) (hk : k < 10) {x : Mul} (hx : program[k] = x.instruction) (f b flag) :
      Run (transition (step (total ld) program)) (cost program) (1, 0) (.next ⟨regs f c, b, flag, k⟩)
        (.next ⟨regs (x.exec ld f) c, b, flag, k + 1⟩) :=
    .single (step_mul (hload hk hx)) (cost_other (hload hk hx) x.opcode_ne_branch)
  have hxas (k : Nat) (hk : k < 10) {x : Xas} (hx : program[k] = x.instruction) (f b flag) :
      Run (transition (step (total ld) program)) (cost program) (1, 0) (.next ⟨regs f c, b, flag, k⟩)
        (.next ⟨regs (x.exec ld f) c, b, flag, k + 1⟩) :=
    .single (step_xas (hload hk hx)) (cost_other (hload hk hx) x.opcode_ne_branch)
  (hrmcg 0 (by decide) h.code0 f b flag).trans <|
  (hxas 1 (by decide) h.code1 _ b _).trans <|
  (hmul 2 (by decide) h.code2 _ b _).trans <|
  (hxas 3 (by decide) h.code3 _ b _).trans <|
  (hmul 4 (by decide) h.code4 _ b _).trans <|
  (hxas 5 (by decide) h.code5 _ b _).trans (hmul 6 (by decide) h.code6 _ b _)

theorem branch_step (f : RegFile) (b : Nat) (m : Word) :
    Run (transition (step (total ld) program)) (cost program)
      (1, if b ≠ 0 ∧ (!m.getLsbD 5) = true then 1 else 0) (.next ⟨regs f c, b, m.setWidth 32, 7⟩)
      (.next (if b ≠ 0 ∧ (!m.getLsbD 5) = true then ⟨regs f c, b - 1, m.setWidth 32, 0⟩
        else ⟨regs f c, b, m.setWidth 32, 8⟩)) := by
  have hload : load program 7 = some program[7] := load_of_lt program (by decide)
  refine .single ((step_branch hload h.branch).trans ?_) ((cost_branch hload h.branch).trans ?_)
  · simp only [flag_and_eq_zero, flag_bit, Bool.not_eq_true']
  · simp only [flag_and_eq_zero, flag_bit, Bool.not_eq_true']

/-- The state behind the branch, after the last pass: `g` is the register file at the
entry of that pass. -/
def AfterLoop (t : Layout) (ld : Word → Word) (c : Consts) (b : Nat) (f : RegFile)
    (o : Outcome ExecState) : Prop :=
  ∃ g, f = (t.pass ld c g).2 ∧ o = .next ⟨regs f c, b, (t.rmcg0.value c g).setWidth 32, 8⟩ ∧
    (b ≠ 0 → (t.rmcg0.value c g).getLsbD 5 = true)

/-- The loop of a program, eight instructions for each pass. -/
theorem loop_steps (f : RegFile) (b : Nat) :
    ∃ o, Run (transition (step (total ld) program)) (cost program)
        ((b - (BoundedLoop.run (t.pass ld c) b f).2) • (8, 1) + (8, 0))
        (.next (entry (regs f c) b)) o ∧
      AfterLoop t ld c (BoundedLoop.run (t.pass ld c) b f).2 (BoundedLoop.run (t.pass ld c) b f).1
        o := by
  let At (b : Nat) (f : RegFile) (o : Outcome ExecState) : Prop :=
    ∃ flag, o = .next ⟨regs f c, b, flag, 0⟩
  refine BoundedLoop.run_simulated (t.pass ld c) At (AfterLoop t ld c)
    (T := Run (transition (step (total ld) program)) (cost program)) .trans ?_ ?_ b f _ ⟨0, rfl⟩
  · rintro b f _ ⟨flag, rfl⟩ hb hagain
    have hbranch := branch_step h ld c (t.pass ld c f).2 b (t.rmcg0.value c f)
    rw [if_pos ⟨hb, hagain⟩, if_pos ⟨hb, hagain⟩] at hbranch
    exact ⟨_, (body_steps h ld c f b flag).trans hbranch, _, rfl⟩
  · rintro b f _ ⟨flag, rfl⟩ hstop
    have hbranch := branch_step h ld c (t.pass ld c f).2 b (t.rmcg0.value c f)
    have hstop' : ¬(b ≠ 0 ∧ (!(t.rmcg0.value c f).getLsbD 5) = true) := hstop
    rw [if_neg hstop', if_neg hstop'] at hbranch
    refine ⟨_, (body_steps h ld c f b flag).trans hbranch, f, rfl, rfl, fun hb => ?_⟩
    simpa using fun hbit => hstop' ⟨hb, hbit⟩

/-- **A run of one program** up to HALT: the registers and the budget of the layout, nine
instructions for a pass and the last operation, and eight for each branch taken. -/
theorem program_steps (f : RegFile) (b : Nat) :
    ∃ g, Run (transition (step (total ld) program)) (cost program)
        ((b - (t.run ld c (f, b)).2) • (8, 1) + (9, 0))
        (.next (entry (regs f c) b))
        (.next ⟨regs (t.run ld c (f, b)).1 c, (t.run ld c (f, b)).2,
          (t.rmcg0.value c g).setWidth 32, 9⟩) ∧
      (t.run ld c (f, b)).1 = t.xas8.exec ld (t.pass ld c g).2 ∧
      ((t.run ld c (f, b)).2 ≠ 0 → (t.rmcg0.value c g).getLsbD 5 = true) := by
  obtain ⟨_, hsteps, g, hg, rfl, hbit⟩ := loop_steps h ld c f b
  have hload : load program 8 = some t.xas8.instruction :=
    (load_of_lt program (by decide)).trans (congrArg some h.code8)
  refine ⟨g, ?_, congrArg (t.xas8.exec ld) hg, hbit⟩
  have hrun := hsteps.trans (.single (step_xas hload) (cost_other hload t.xas8.opcode_ne_branch))
  rwa [add_assoc] at hrun

theorem halt_step (r : Regs) (b : Nat) (flag : BitVec 32) (operand : Word → Option Word) :
    step operand program ⟨r, b, flag, 9⟩ = some (.halt ⟨r, b, flag, 10⟩) :=
  step_halt (load_of_lt program (by decide)) h.halt

theorem halt_cost (r : Regs) (b : Nat) (flag : BitVec 32) :
    cost program (.next ⟨r, b, flag, 9⟩) = (1, 0) := by
  have hload : load program 9 = some program[9] := load_of_lt program (by decide)
  have hop : program[9].opcode ≠ .branch := by
    rw [h.halt]
    decide
  exact cost_other hload hop

/-- The interpreter returns the registers and the budget of the layout. -/
theorem programExecute_eq (s : RegFile × Nat) :
    programExecute (total ld) program (regs s.1 c) s.2 =
      some (regs (t.run ld c s).1 c, (t.run ld c s).2) := by
  obtain ⟨g, hsteps, _⟩ := program_steps h ld c s.1 s.2
  have hrun := hsteps.trans (.single (halt_step h _ _ _ _) (halt_cost h _ _ _))
  rw [programExecute, execute, HaltingLoop.run_of_reaches _ hrun.reaches]
  rfl

end Run

end HashWX
