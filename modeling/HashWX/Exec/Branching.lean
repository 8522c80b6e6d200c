import HashWX.Exec.Bounds
import HashWX.Lib.TrailingZeros

/-!
# The register that decides the branches

The destination of RMCG is written by no other instruction of its program, so the loop of
a program projects to a loop on that register alone: a multiplication by R8 or R9 and a
rotation. The passes, the budget that is left and the final value of the register are
those of the projected loop, in either mode and whatever the other registers hold.
-/

namespace HashWX

open Siphash FinArray WeightedRun BitRotate TrailingZeros
open HaltingLoop (transition)

/-! ## The projected loop -/

/-- The multiplication and the rotation. -/
def Rmcg.next (x : Rmcg) (c : Consts) (m : Word) : Word := rotr (m * c x.src) x.imm

/-- One pass, as far as the destination of RMCG is concerned. -/
def Rmcg.pass (x : Rmcg) (c : Consts) (m : Word) : Bool × Word :=
  (!(x.next c m).getLsbD 5, x.next c m)

namespace Layout

variable {t : Layout} (ld : Word → Word) (c : Consts)

theorem Shuffled.pass_rmcg (hs : t.Shuffled) (f : RegFile) :
    t.rmcg0.pass c (f t.rmcg0.dst) = ((t.pass ld c f).1, (t.pass ld c f).2 t.rmcg0.dst) := by
  have hvalue : (t.pass ld c f).2 t.rmcg0.dst = t.rmcg0.value c f :=
    (hs.body_rmcg ld _).trans (Function.update_self t.rmcg0.dst _ f)
  rw [hvalue]
  rfl

/-- **Projection.** The last operation does not write the register either. -/
theorem Shuffled.run_rmcg (hs : t.Shuffled) (f : RegFile) (b : Nat) :
    ((t.run ld c (f, b)).1 t.rmcg0.dst, (t.run ld c (f, b)).2) =
      BoundedLoop.run (t.rmcg0.pass c) b (f t.rmcg0.dst) := by
  have hne : t.rmcg0.dst ≠ t.xas8.dst := hs.dst_injective.ne (show (0 : Fin 8) ≠ 7 by decide)
  have hproj := BoundedLoop.run_project (t.pass ld c) (fun g : RegFile => g t.rmcg0.dst)
    (hs.pass_rmcg ld c) b f
  rw [hproj]
  exact Prod.ext (Xas.exec_of_ne ld hne) rfl

end Layout

/-! ## The permutation -/

theorem Rmcg.next_injective (x : Rmcg) {c : Consts} (hc : (c x.src).toNat % 2 = 1) :
    Function.Injective (x.next c) :=
  (rotr_injective (Nat.lt_succ_of_le x.imm_le)).comp (mul_left_injective_of_odd hc)

theorem Rmcg.next_zero (x : Rmcg) (c : Consts) : x.next c 0 = 0 := by
  unfold Rmcg.next
  rw [zero_mul, rotr_zero]

/-- The value after `k` passes is the `k`-fold application of one pass. -/
theorem Rmcg.run_iterate (x : Rmcg) (c : Consts) (b : Nat) (m : Word) :
    (BoundedLoop.run (x.pass c) b m).1 = (x.next c)^[b - (BoundedLoop.run (x.pass c) b m).2 + 1] m :=
  BoundedLoop.run_eq_iterate (x.pass c) b m

theorem iterate_ne_zero {π : Word → Word} (hπ : Function.Injective π) (h0 : π 0 = 0) (k : Nat)
    {m : Word} (hm : m ≠ 0) : π^[k] m ≠ 0 := by
  intro hk
  apply hm
  apply hπ.iterate k
  rw [hk, Function.iterate_fixed h0]

/-! ## Runs of a program -/

/-- A run of a program in one of the modes, entered with the budget `b`: it takes `n`
branches, so that it makes `n + 1` passes of eight instructions and ends with two more, and
returns `s`. -/
structure Executes (program : Program) (mem : Option Scratchpad) (r : Regs) (b n : Nat)
    (s : Regs × Nat) : Prop where
  steps : ∃ flag, Run (transition (step (operandOf mem) program)) (cost program) (8 * (n + 1) + 2, n)
    (.next (entry r b)) (.halt ⟨s.1, s.2, flag, 10⟩)
  returns : programExecute (operandOf mem) program r b = some s
  budget : s.2 + n = b

/-- The registers that decide: the destination of instruction 0, R8 and R9. -/
def Agree (program : Program) (r r' : Regs) : Prop :=
  load r program[0].dst = load r' program[0].dst ∧ r[8] = r'[8] ∧ r[9] = r'[9]

section Program

variable {t : Layout} {program : Program} (h : t.Describes program)
include h

theorem load_rmcg (r : Regs) : load r program[0].dst = some (fileOf r t.rmcg0.dst) := by
  rw [h.code0, ← regs_eta r]
  exact (load_regs _ _ t.rmcg0.dst).trans (by rw [regs_eta])

theorem Agree.rmcg {r r' : Regs} (ha : Agree program r r') :
    fileOf r t.rmcg0.dst = fileOf r' t.rmcg0.dst := by
  have hload := ha.1
  rw [load_rmcg h, load_rmcg h] at hload
  exact Option.some.inj hload

/-- Every run is described by the projected loop. -/
theorem executes (hs : t.Shuffled) (mem : Option Scratchpad) (r : Regs) (b : Nat) :
    let u := BoundedLoop.run (t.rmcg0.pass (constsOf r)) b (fileOf r t.rmcg0.dst)
    ∃ s : Regs × Nat, Executes program mem r b (b - u.2) s ∧ s.2 = u.2 ∧
      load s.1 program[0].dst = some u.1 ∧ s.1[8] = r[8] ∧ s.1[9] = r[9] := by
  intro u
  obtain ⟨ld, hld⟩ := operandOf_eq mem
  obtain ⟨g, hrun, -, -⟩ := program_run h ld (constsOf r) (fileOf r) b
  have hresult := programExecute_eq h ld (constsOf r) (fileOf r, b)
  have hproj : ((t.run ld (constsOf r) (fileOf r, b)).1 t.rmcg0.dst,
      (t.run ld (constsOf r) (fileOf r, b)).2) = u := hs.run_rmcg ld (constsOf r) (fileOf r) b
  have hvalue := congrArg Prod.fst hproj
  have hbudget := congrArg Prod.snd hproj
  dsimp only at hvalue hbudget
  have hcost : (b - u.2) • ((8, 1) : Nat × Nat) + (10, 0) = (8 * (b - u.2 + 1) + 2, b - u.2) := by
    simp only [Prod.smul_mk, smul_eq_mul, Prod.mk_add_mk, Prod.mk.injEq]
    omega
  rw [hbudget, hcost, regs_eta, ← hld] at hrun
  rw [regs_eta, ← hld, hbudget] at hresult
  have hle : u.2 ≤ b := BoundedLoop.run_budget_le _ _ _
  refine ⟨_, ⟨⟨_, hrun⟩, hresult, ?_⟩, rfl, ?_, regs_const _ _ 0, regs_const _ _ 1⟩
  · dsimp only
    omega
  · rw [h.code0, ← hvalue]
    exact load_regs _ _ t.rmcg0.dst

end Program

theorem constsOf_eq {r r' : Regs} (h8 : r[8] = r'[8]) (h9 : r[9] = r'[9]) :
    constsOf r = constsOf r' := by
  funext j
  match j with
  | 0 => exact h8
  | 1 => exact h9

/-- The constants of `hashwx_exec` are odd. -/
theorem or_odd (v imm : Word) (h : imm.toNat % 2 = 1) : (v ||| imm).toNat % 2 = 1 := by
  rw [BitVec.toNat_or, Nat.or_mod_two_eq_one]
  exact .inr h

/-- The number of passes, the returned budget and the final value of the RMCG register depend
on nothing but that register, R8, R9 and the budget, in either mode. With odd R8 and R9 every
pass applies one permutation to the register, which fixes zero. -/
theorem branching_decided_by_rmcg {σ : Type} (next : σ → Word × σ) (memory : ProgramList) (gen : σ)
    (i : Fin 32) :
    let program := (programListGenerate next memory gen).1[i]
    (∀ (mem mem' : Option Scratchpad) (r r' : Regs) (b : Nat), Agree program r r' →
      ∃ n s s', Executes program mem r b n s ∧ Executes program mem' r' b n s' ∧ s.2 = s'.2 ∧
        load s.1 program[0].dst = load s'.1 program[0].dst) ∧
    (∀ c8 c9 : Word, c8.toNat % 2 = 1 → c9.toNat % 2 = 1 →
      ∃ π : Equiv.Perm Word, π 0 = 0 ∧
        ∀ (mem : Option Scratchpad) (r : Regs) (b : Nat), r[8] = c8 → r[9] = c9 →
          ∃ n s m, Executes program mem r b n s ∧ load r program[0].dst = some m ∧
            load s.1 program[0].dst = some (π^[n + 1] m) ∧ (m ≠ 0 → π^[n + 1] m ≠ 0) ∧
            s.1[8] = r[8] ∧ s.1[9] = r[9]) ∧
    (∀ (key : SiphashKey) (input : Word), (initRegs key input)[8].toNat % 2 = 1 ∧
      (initRegs key input)[9].toNat % 2 = 1) := by
  intro program
  obtain ⟨t, hs, h⟩ := programListGenerate_describes next memory gen i
  refine ⟨fun mem mem' r r' b ha => ?_, fun c8 c9 h8 h9 => ?_, fun key input => ⟨?_, ?_⟩⟩
  · have hm := ha.rmcg h
    have hc := constsOf_eq ha.2.1 ha.2.2
    obtain ⟨s, he, hbudget, hvalue, -, -⟩ := executes h hs mem r b
    obtain ⟨s', he', hbudget', hvalue', -, -⟩ := executes h hs mem' r' b
    rw [← hm, ← hc] at he' hbudget' hvalue'
    exact ⟨_, s, s', he, he', hbudget.trans hbudget'.symm, hvalue.trans hvalue'.symm⟩
  · have hodd : (![c8, c9] t.rmcg0.src).toNat % 2 = 1 := by
      match t.rmcg0.src with
      | 0 => exact h8
      | 1 => exact h9
    have hinj := t.rmcg0.next_injective (c := ![c8, c9]) hodd
    refine ⟨.ofBijective _ (Finite.injective_iff_bijective.mp hinj), t.rmcg0.next_zero _,
      fun mem r b hr8 hr9 => ?_⟩
    have hc : constsOf r = ![c8, c9] := by
      funext j
      match j with
      | 0 => exact hr8
      | 1 => exact hr9
    obtain ⟨s, he, -, hvalue, h8', h9'⟩ := executes h hs mem r b
    rw [hc] at he hvalue
    rw [t.rmcg0.run_iterate] at hvalue
    exact ⟨_, s, _, he, load_rmcg h r, hvalue,
      fun hm => iterate_ne_zero hinj (t.rmcg0.next_zero _) _ hm, h8', h9'⟩
  · exact or_odd _ 3 rfl
  · exact or_odd _ 5 rfl

/-- The list that a generator of zeros gives. -/
def zeroList : ProgramList :=
  (programListGenerate (fun _ : Unit => (0, ())) (.replicate 32 (.replicate 10 ⟨.halt, 0, 0, 0⟩)) ()).1

/-- Two modes, and register files that differ in R0. -/
theorem branching_decided_by_rmcg_zero :
    (∃ n s s', Executes zeroList[(0 : Fin 32)] none (.replicate 10 3) 32 n s ∧
      Executes zeroList[(0 : Fin 32)] (some (.replicate 256 1)) ((Vector.replicate 10 3).set 0 7) 32 n s' ∧
      s.2 = s'.2 ∧
      load s.1 zeroList[(0 : Fin 32)][0].dst = load s'.1 zeroList[(0 : Fin 32)][0].dst) ∧
    (∃ π : Equiv.Perm Word, ∃ n s m, Executes zeroList[(0 : Fin 32)] none (.replicate 10 3) 32 n s ∧
      load s.1 zeroList[(0 : Fin 32)][0].dst = some (π^[n + 1] m)) := by
  have hagree : Agree zeroList[(0 : Fin 32)] (.replicate 10 3) ((Vector.replicate 10 3).set 0 7) := by
    unfold zeroList
    rw [programListGenerate_eq]
    exact ⟨rfl, rfl, rfl⟩
  obtain ⟨hrun, hperm, -⟩ := branching_decided_by_rmcg (fun _ : Unit => (0, ()))
    (.replicate 32 (.replicate 10 ⟨.halt, 0, 0, 0⟩)) () 0
  refine ⟨hrun none (some (.replicate 256 1)) _ _ 32 hagree, ?_⟩
  obtain ⟨π, -, hπ⟩ := hperm 3 3 rfl rfl
  obtain ⟨n, s, m, he, -, hvalue, -⟩ := hπ none (.replicate 10 3) 32 rfl rfl
  exact ⟨π, n, s, m, he, hvalue⟩

end HashWX
