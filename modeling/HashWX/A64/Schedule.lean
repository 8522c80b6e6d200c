import HashWX.Exec.Semantics
import HashWX.Program.WellFormed
import HashWX.Lib.Assignments
import Mathlib.Tactic.Simps.Basic

/-!
# The two schedules

The AArch64 compiler interleaves the instructions of a program. Here they are
assignments to registers, in the order in which the compiler emits them, and the order
is taken back to the one of the program by exchanges of independent blocks. The
permitted permutations are those that keep the exchanged blocks independent.
-/

namespace HashWX.CompilerA64

open Assignments
open Siphash (Word)

/-- R0-R7 are `x0` to `x7`. -/
def vreg (k : Fin 8) : Fin 32 := ⟨k, by omega⟩

/-- R8 and R9 are `x12` and `x13`. -/
def creg (j : Fin 2) : Fin 32 := ⟨12 + j, by omega⟩

/-- The temporary registers, `x14` to `x17`. -/
def tmp (j : Fin 4) : Fin 32 := ⟨14 + j, by omega⟩

/-- `x9`, the number of branches spent. -/
def countReg : Fin 32 := 9

abbrev Op := Assign (Fin 32) Word

def file (x : Fin 32 → Word) : RegFile := fun k => x (vreg k)

section Distinct

variable (k l : Fin 8) (j : Fin 2) (i : Fin 4)

@[simp] theorem vreg_inj : vreg k = vreg l ↔ k = l := by simp [vreg, Fin.ext_iff]

@[simp] theorem tmp_inj (i' : Fin 4) : tmp i = tmp i' ↔ i = i' := by simp [tmp, Fin.ext_iff]

@[simp] theorem vreg_ne_creg : vreg k ≠ creg j := by simp only [vreg, creg, ne_eq, Fin.mk.injEq]; omega

@[simp] theorem vreg_ne_tmp : vreg k ≠ tmp i := by simp only [vreg, tmp, ne_eq, Fin.mk.injEq]; omega

@[simp] theorem vreg_ne_count : vreg k ≠ countReg := by
  simp only [vreg, countReg, ne_eq, Fin.ext_iff]; omega

@[simp] theorem creg_ne_tmp : creg j ≠ tmp i := by simp only [creg, tmp, ne_eq, Fin.mk.injEq]; omega

@[simp] theorem tmp_ne_count : tmp i ≠ countReg := by
  simp only [tmp, countReg, ne_eq, Fin.ext_iff]; omega

@[simp] theorem creg_ne_vreg : creg j ≠ vreg k := (vreg_ne_creg k j).symm

@[simp] theorem tmp_ne_vreg : tmp i ≠ vreg k := (vreg_ne_tmp k i).symm

@[simp] theorem count_ne_vreg : countReg ≠ vreg k := (vreg_ne_count k).symm

@[simp] theorem tmp_ne_creg : tmp i ≠ creg j := (creg_ne_tmp j i).symm

@[simp] theorem count_ne_tmp : countReg ≠ tmp i := (tmp_ne_count i).symm

end Distinct

/-! ## The assignments -/

/-- `mul dst, dst, src` of RMCG. -/
@[simps]
def rmcgMul (x : Rmcg) : Op := ⟨vreg x.dst, vreg x.dst, creg x.src, (· * ·)⟩

/-- `ror dst, dst, imm` of RMCG. -/
@[simps]
def rmcgRor (x : Rmcg) : Op := ⟨vreg x.dst, vreg x.dst, vreg x.dst, fun a _ => BitRotate.rotr a x.imm⟩

@[simps]
def preXas (x : Xas) : Op := ⟨vreg x.dst, vreg x.dst, vreg x.dst, fun a _ => x.pre.apply a x.imm⟩

@[simps]
def xas (x : Xas) (src : Fin 32) : Op := ⟨vreg x.dst, vreg x.dst, src, x.post.apply⟩

@[simps]
def premul (x : Mul) : Op :=
  ⟨vreg x.dst, vreg x.dst, vreg x.dst, fun a _ => x.op.apply a (BitVec.ofNat 64 x.imm)⟩

@[simps]
def mul (x : Mul) (src : Fin 32) : Op := ⟨vreg x.dst, vreg x.dst, src, (· * ·)⟩

/-- A source operand goes to a temporary register. -/
@[simps]
def fetch (ld : Word → Word) (tmp : Fin 32) (src : Fin 8) : Op := ⟨tmp, vreg src, vreg src, fun a _ => ld a⟩

/-- `orr x14, dst0, x9`. -/
@[simps]
def orrCount (dst : Fin 8) : Op := ⟨tmp 0, vreg dst, countReg, (· ||| ·)⟩

section Schedules

variable (t : Layout)

/-- The loop of `compile_program_reg`, less the branch. -/
def regSchedule : List Op :=
  [rmcgMul t.rmcg0, preXas t.xas1, fetch id (tmp 0) t.xas1.src, premul t.mul2, xas t.xas1 (tmp 0),
    mul t.mul2 (vreg t.mul2.src), preXas t.xas3, rmcgRor t.rmcg0, xas t.xas3 (vreg t.xas3.src),
    premul t.mul4, mul t.mul4 (vreg t.mul4.src), preXas t.xas5, orrCount t.rmcg0.dst,
    xas t.xas5 (vreg t.xas5.src), premul t.mul6, mul t.mul6 (vreg t.mul6.src)]

/-- The loop of `compile_program_mem`, less the branch. -/
def memSchedule (ld : Word → Word) : List Op :=
  [fetch ld (tmp 1) t.xas1.src, preXas t.xas1, rmcgMul t.rmcg0, xas t.xas1 (tmp 1),
    fetch ld (tmp 2) t.mul2.src, fetch ld (tmp 3) t.xas3.src, premul t.mul2, preXas t.xas3, rmcgRor t.rmcg0,
    mul t.mul2 (tmp 2), xas t.xas3 (tmp 3),
    fetch ld (tmp 2) t.mul4.src, fetch ld (tmp 3) t.xas5.src, premul t.mul4, preXas t.xas5,
    orrCount t.rmcg0.dst, mul t.mul4 (tmp 2), xas t.xas5 (tmp 3),
    fetch ld (tmp 2) t.mul6.src, fetch ld (tmp 3) t.xas8.src, premul t.mul6, mul t.mul6 (tmp 2)]

end Schedules

/-! ## What the permitted permutations exclude -/

/-- The destinations are different, no instruction reads its own, and no source that is
read early is written by an instruction it overtakes. -/
structure Hazards (t : Layout) : Prop where
  dst : [t.rmcg0.dst, t.xas1.dst, t.mul2.dst, t.xas3.dst, t.mul4.dst, t.xas5.dst, t.mul6.dst,
    t.xas8.dst].Nodup
  own : t.xas1.src ≠ t.xas1.dst ∧ t.mul2.src ≠ t.mul2.dst ∧ t.xas3.src ≠ t.xas3.dst ∧
    t.mul4.src ≠ t.mul4.dst ∧ t.xas5.src ≠ t.xas5.dst ∧ t.mul6.src ≠ t.mul6.dst ∧
    t.xas8.src ≠ t.xas8.dst
  early0 : t.xas1.src ≠ t.rmcg0.dst ∧ t.mul2.src ≠ t.rmcg0.dst ∧ t.xas3.src ≠ t.rmcg0.dst
  early2 : t.xas3.src ≠ t.mul2.dst
  early4 : t.xas5.src ≠ t.mul4.dst
  early6 : t.xas8.src ≠ t.mul6.dst

/-- What the order of a shuffled layout promises about its sources is enough to move the loads. -/
theorem hazards_of_shuffled {t : Layout} (hs : t.Shuffled) : Hazards t := by
  obtain ⟨p, hp, hsrc⟩ := hs.permitted
  have hne (i : Fin 7) (j : Fin 8) (h : p i.succ ≠ j) : t.src i ≠ t.dst j := by
    rw [hsrc]
    exact hs.dst_injective.ne h
  have hown := hs.src_ne_dst
  exact {
    dst := List.nodup_ofFn.mpr hs.dst_injective
    own := ⟨hown 0, hown 1, hown 2, hown 3, hown 4, hown 5, hown 6⟩
    early0 := ⟨hne 0 0 hp.one, hne 1 0 hp.two, hne 2 0 hp.three.1⟩
    early2 := hne 2 2 hp.three.2
    early4 := hne 4 4 hp.five
    early6 := hne 6 6 hp.seven }

section Order

variable {t : Layout}

/-- The order of the program in the first phase. -/
def regOrder (t : Layout) : List Op :=
  [rmcgMul t.rmcg0, rmcgRor t.rmcg0, fetch id (tmp 0) t.xas1.src, preXas t.xas1, xas t.xas1 (tmp 0),
    premul t.mul2, mul t.mul2 (vreg t.mul2.src), preXas t.xas3, xas t.xas3 (vreg t.xas3.src),
    premul t.mul4, mul t.mul4 (vreg t.mul4.src), preXas t.xas5, xas t.xas5 (vreg t.xas5.src),
    premul t.mul6, mul t.mul6 (vreg t.mul6.src), orrCount t.rmcg0.dst]

/-- The order of the program in the second phase. -/
def memOrder (ld : Word → Word) (t : Layout) : List Op :=
  [rmcgMul t.rmcg0, rmcgRor t.rmcg0, fetch ld (tmp 1) t.xas1.src, preXas t.xas1, xas t.xas1 (tmp 1),
    fetch ld (tmp 2) t.mul2.src, premul t.mul2, mul t.mul2 (tmp 2), fetch ld (tmp 3) t.xas3.src, preXas t.xas3,
    xas t.xas3 (tmp 3), fetch ld (tmp 2) t.mul4.src, premul t.mul4, mul t.mul4 (tmp 2), fetch ld (tmp 3) t.xas5.src,
    preXas t.xas5, xas t.xas5 (tmp 3), fetch ld (tmp 2) t.mul6.src, premul t.mul6, mul t.mul6 (tmp 2),
    orrCount t.rmcg0.dst, fetch ld (tmp 3) t.xas8.src]

/-- In the first loop RMCG's rotation is late and the branch condition early, and no instruction notices. -/
theorem equivalent_regSchedule (hz : Hazards t) : Equivalent (regSchedule t) (regOrder t) := by
  obtain ⟨hd, ho, h0, h2, h4, h6⟩ := hz
  simp only [List.nodup_cons, List.mem_cons, not_or, List.not_mem_nil] at hd
  -- The rotation of RMCG belongs behind its multiplication.
  refine (equivalent_exchange [rmcgMul t.rmcg0] [preXas t.xas1, fetch id (tmp 0) t.xas1.src, premul t.mul2,
    xas t.xas1 (tmp 0), mul t.mul2 (vreg t.mul2.src), preXas t.xas3] [rmcgRor t.rmcg0] _ ?_).trans ?_
  · simp [Independent]
    grind
  -- Instruction 1 reads its source, and ends before instruction 2 starts.
  refine (equivalent_exchange [rmcgMul t.rmcg0, rmcgRor t.rmcg0] [preXas t.xas1]
    [fetch id (tmp 0) t.xas1.src] _ ?_).trans ?_
  · simp [Independent]
    grind
  refine (equivalent_exchange [rmcgMul t.rmcg0, rmcgRor t.rmcg0, fetch id (tmp 0) t.xas1.src, preXas t.xas1]
    [premul t.mul2] [xas t.xas1 (tmp 0)] _ ?_).trans ?_
  · simp [Independent]
    grind
  -- The branch condition comes last.
  refine equivalent_exchange [rmcgMul t.rmcg0, rmcgRor t.rmcg0, fetch id (tmp 0) t.xas1.src, preXas t.xas1,
    xas t.xas1 (tmp 0), premul t.mul2, mul t.mul2 (vreg t.mul2.src), preXas t.xas3,
    xas t.xas3 (vreg t.xas3.src), premul t.mul4, mul t.mul4 (vreg t.mul4.src), preXas t.xas5]
    [orrCount t.rmcg0.dst] [xas t.xas5 (vreg t.xas5.src), premul t.mul6,
      mul t.mul6 (vreg t.mul6.src)] [] ?_
  simp [Independent]
  grind

/-- Each load that moves ahead passes only assignments that it does not depend on. -/
theorem equivalent_memSchedule (ld : Word → Word) (hz : Hazards t) :
    Equivalent (memSchedule t ld) (memOrder ld t) := by
  obtain ⟨hd, ho, h0, h2, h4, h6⟩ := hz
  simp only [List.nodup_cons, List.mem_cons, not_or, List.not_mem_nil] at hd
  -- RMCG goes up.
  refine (equivalent_exchange [] [fetch ld (tmp 1) t.xas1.src, preXas t.xas1] [rmcgMul t.rmcg0] _ ?_).trans ?_
  · simp [Independent]
    grind
  refine (equivalent_exchange [rmcgMul t.rmcg0] [fetch ld (tmp 1) t.xas1.src, preXas t.xas1, xas t.xas1 (tmp 1),
    fetch ld (tmp 2) t.mul2.src, fetch ld (tmp 3) t.xas3.src, premul t.mul2, preXas t.xas3]
    [rmcgRor t.rmcg0] _ ?_).trans ?_
  · simp [Independent]
    grind
  -- Instruction 2 ends before instruction 3 starts.
  refine (equivalent_exchange [rmcgMul t.rmcg0, rmcgRor t.rmcg0, fetch ld (tmp 1) t.xas1.src, preXas t.xas1,
    xas t.xas1 (tmp 1), fetch ld (tmp 2) t.mul2.src, fetch ld (tmp 3) t.xas3.src, premul t.mul2] [preXas t.xas3]
    [mul t.mul2 (tmp 2)] _ ?_).trans ?_
  · simp [Independent]
    grind
  refine (equivalent_exchange [rmcgMul t.rmcg0, rmcgRor t.rmcg0, fetch ld (tmp 1) t.xas1.src, preXas t.xas1,
    xas t.xas1 (tmp 1), fetch ld (tmp 2) t.mul2.src] [fetch ld (tmp 3) t.xas3.src] [premul t.mul2, mul t.mul2 (tmp 2)]
    _ ?_).trans ?_
  · simp [Independent]
    grind
  -- Instruction 4 ends before instruction 5 starts.
  refine (equivalent_exchange [rmcgMul t.rmcg0, rmcgRor t.rmcg0, fetch ld (tmp 1) t.xas1.src, preXas t.xas1,
    xas t.xas1 (tmp 1), fetch ld (tmp 2) t.mul2.src, premul t.mul2, mul t.mul2 (tmp 2),
    fetch ld (tmp 3) t.xas3.src, preXas t.xas3, xas t.xas3 (tmp 3), fetch ld (tmp 2) t.mul4.src,
    fetch ld (tmp 3) t.xas5.src, premul t.mul4] [preXas t.xas5, orrCount t.rmcg0.dst]
    [mul t.mul4 (tmp 2)] _ ?_).trans ?_
  · simp [Independent]
    grind
  refine (equivalent_exchange [rmcgMul t.rmcg0, rmcgRor t.rmcg0, fetch ld (tmp 1) t.xas1.src, preXas t.xas1,
    xas t.xas1 (tmp 1), fetch ld (tmp 2) t.mul2.src, premul t.mul2, mul t.mul2 (tmp 2),
    fetch ld (tmp 3) t.xas3.src, preXas t.xas3, xas t.xas3 (tmp 3), fetch ld (tmp 2) t.mul4.src]
    [fetch ld (tmp 3) t.xas5.src] [premul t.mul4, mul t.mul4 (tmp 2)] _ ?_).trans ?_
  · simp [Independent]
    grind
  -- The branch condition and the operand of instruction 8 come last.
  refine (equivalent_exchange [rmcgMul t.rmcg0, rmcgRor t.rmcg0, fetch ld (tmp 1) t.xas1.src, preXas t.xas1,
    xas t.xas1 (tmp 1), fetch ld (tmp 2) t.mul2.src, premul t.mul2, mul t.mul2 (tmp 2),
    fetch ld (tmp 3) t.xas3.src, preXas t.xas3, xas t.xas3 (tmp 3), fetch ld (tmp 2) t.mul4.src,
    premul t.mul4, mul t.mul4 (tmp 2), fetch ld (tmp 3) t.xas5.src, preXas t.xas5]
    [orrCount t.rmcg0.dst] [xas t.xas5 (tmp 3), fetch ld (tmp 2) t.mul6.src] _ ?_).trans ?_
  · simp [Independent]
    grind
  refine equivalent_exchange [rmcgMul t.rmcg0, rmcgRor t.rmcg0, fetch ld (tmp 1) t.xas1.src, preXas t.xas1,
    xas t.xas1 (tmp 1), fetch ld (tmp 2) t.mul2.src, premul t.mul2, mul t.mul2 (tmp 2),
    fetch ld (tmp 3) t.xas3.src, preXas t.xas3, xas t.xas3 (tmp 3), fetch ld (tmp 2) t.mul4.src,
    premul t.mul4, mul t.mul4 (tmp 2), fetch ld (tmp 3) t.xas5.src, preXas t.xas5, xas t.xas5 (tmp 3),
    fetch ld (tmp 2) t.mul6.src] [orrCount t.rmcg0.dst, fetch ld (tmp 3) t.xas8.src]
    [premul t.mul6, mul t.mul6 (tmp 2)] [] ?_
  simp [Independent]
  grind

end Order

/-! ## What an ordered program computes -/

section Groups

variable (ld : Word → Word) (y : Fin 32 → Word)

@[simp] theorem file_update_vreg (k : Fin 8) (v : Word) :
    file (Function.update y (vreg k) v) = Function.update (file y) k v := by
  funext l
  simp [file, Function.update_apply]

@[simp] theorem file_update_tmp (i : Fin 4) (v : Word) : file (Function.update y (tmp i) v) = file y := by
  funext l
  simp [file]

@[simp] theorem file_update_count (v : Word) : file (Function.update y countReg v) = file y := by
  funext l
  simp [file]

/-- The two assignments of RMCG are its effect on the registers. -/
theorem file_rmcg (x : Rmcg) :
    file (runAll [rmcgMul x, rmcgRor x] y) = x.exec (fun j => y (creg j)) (file y) := by
  simp [Assign.run, Rmcg.exec, Rmcg.value]
  rfl

theorem file_xas (x : Xas) (h : x.src ≠ x.dst) :
    file (runAll [preXas x, xas x (vreg x.src)] y) = x.exec id (file y) := by
  simp [Assign.run, Xas.exec, Xas.value, h]
  rfl

theorem file_mul (x : Mul) (h : x.src ≠ x.dst) :
    file (runAll [premul x, mul x (vreg x.src)] y) = x.exec id (file y) := by
  simp [Assign.run, Mul.exec, Mul.value, h]
  rfl

/-- A word that is loaded just in front of its use is the operand. -/
theorem file_fetch_xas (x : Xas) (i : Fin 4) :
    file (runAll [fetch ld (tmp i) x.src, preXas x, xas x (tmp i)] y) = x.exec ld (file y) := by
  simp [Assign.run, Xas.exec, Xas.value]
  rfl

theorem file_fetch_mul (x : Mul) (i : Fin 4) :
    file (runAll [fetch ld (tmp i) x.src, premul x, mul x (tmp i)] y) = x.exec ld (file y) := by
  simp [Assign.run, Mul.exec, Mul.value]
  rfl

theorem file_xas_tmp (x : Xas) (i : Fin 4) (h : y (tmp i) = ld (file y x.src)) :
    file (runAll [preXas x, xas x (tmp i)] y) = x.exec ld (file y) := by
  simp [Assign.run, Xas.exec, Xas.value, h]
  rfl

@[simp] theorem file_orrCount (d : Fin 8) : file ((orrCount d).run y) = file y :=
  file_update_tmp y 0 _

@[simp] theorem file_fetch (i : Fin 4) (src : Fin 8) : file ((fetch ld (tmp i) src).run y) = file y :=
  file_update_tmp y i _

end Groups

/-- What a pass of a loop leaves in the registers: R0-R7, and in `x14` the branch flag
with the number of branches spent. -/
structure Scheduled (t : Layout) (ld : Word → Word) (x y : Fin 32 → Word) : Prop where
  file : file y = (t.pass ld (fun j => x (creg j)) (file x)).2
  flag : y (tmp 0) = t.rmcg0.value (fun j => x (creg j)) (CompilerA64.file x) ||| x countReg

section Spec

variable {t : Layout} (hs : t.Shuffled) (x : Fin 32 → Word)
include hs

/-- The condition of the branch behind the instructions 0 to 6. -/
theorem scheduled_orrCount {ld : Word → Word} {front : List Op}
    (hfile : file (runAll front x) = (t.pass ld (fun j => x (creg j)) (file x)).2)
    (hcount : ∀ a ∈ front, countReg ≠ a.dst) :
    Scheduled t ld x ((orrCount t.rmcg0.dst).run (runAll front x)) := by
  constructor
  · rw [file_orrCount, hfile]
  · refine (Assign.run_self (orrCount t.rmcg0.dst) (runAll front x)).trans ?_
    have hdst : runAll front x (vreg t.rmcg0.dst) = t.rmcg0.value (fun j => x (creg j)) (file x) :=
      (congrFun hfile t.rmcg0.dst).trans
        ((hs.body_rmcg ld _).trans (Function.update_self t.rmcg0.dst _ _))
    exact congrArg₂ (· ||| ·) hdst (runAll_of_ne hcount x)

/-- After the schedule, R0-R7 are those of one pass, and the temporary decides about the branch. -/
theorem regSchedule_spec : Scheduled t id x (runAll (regSchedule t) x) := by
  have hz := hazards_of_shuffled hs
  obtain ⟨-, h2, h3, h4, h5, h6, -⟩ := hz.own
  let front : List Op := [rmcgMul t.rmcg0, rmcgRor t.rmcg0] ++
    ([fetch id (tmp 0) t.xas1.src, preXas t.xas1, xas t.xas1 (tmp 0)] ++
    ([premul t.mul2, mul t.mul2 (vreg t.mul2.src)] ++ ([preXas t.xas3, xas t.xas3 (vreg t.xas3.src)] ++
    ([premul t.mul4, mul t.mul4 (vreg t.mul4.src)] ++ ([preXas t.xas5, xas t.xas5 (vreg t.xas5.src)] ++
    [premul t.mul6, mul t.mul6 (vreg t.mul6.src)])))))
  have hfile : file (runAll front x) = (t.pass id (fun j => x (creg j)) (file x)).2 := by
    simp only [front, runAll_append, file_rmcg, file_fetch_xas, file_mul _ _ h2, file_xas _ _ h3,
      file_mul _ _ h4, file_xas _ _ h5, file_mul _ _ h6]
    rfl
  have horder : runAll (regOrder t) x = (orrCount t.rmcg0.dst).run (runAll front x) :=
    runAll_append front [orrCount t.rmcg0.dst] x
  rw [(equivalent_regSchedule hz x).1, horder]
  exact scheduled_orrCount hs x hfile (by simp [front])

/-- In the second phase the operand of instruction 8 waits in `x17`. -/
theorem memSchedule_spec (ld : Word → Word) : Scheduled t ld x (runAll (memSchedule t ld) x) ∧
    runAll (memSchedule t ld) x (tmp 3) = ld (file (runAll (memSchedule t ld) x) t.xas8.src) := by
  let front : List Op := [rmcgMul t.rmcg0, rmcgRor t.rmcg0] ++
    ([fetch ld (tmp 1) t.xas1.src, preXas t.xas1, xas t.xas1 (tmp 1)] ++
    ([fetch ld (tmp 2) t.mul2.src, premul t.mul2, mul t.mul2 (tmp 2)] ++
    ([fetch ld (tmp 3) t.xas3.src, preXas t.xas3, xas t.xas3 (tmp 3)] ++
    ([fetch ld (tmp 2) t.mul4.src, premul t.mul4, mul t.mul4 (tmp 2)] ++
    ([fetch ld (tmp 3) t.xas5.src, preXas t.xas5, xas t.xas5 (tmp 3)] ++
    [fetch ld (tmp 2) t.mul6.src, premul t.mul6, mul t.mul6 (tmp 2)])))))
  have hfile : file (runAll front x) = (t.pass ld (fun j => x (creg j)) (file x)).2 := by
    simp only [front, runAll_append, file_rmcg, file_fetch_xas, file_fetch_mul]
    rfl
  have horder : runAll (memOrder ld t) x =
      (fetch ld (tmp 3) t.xas8.src).run ((orrCount t.rmcg0.dst).run (runAll front x)) :=
    runAll_append front [orrCount t.rmcg0.dst, fetch ld (tmp 3) t.xas8.src] x
  have hsched := scheduled_orrCount hs x hfile (by simp [front])
  have hne : tmp 0 ≠ (fetch ld (tmp 3) t.xas8.src).dst := by simp
  rw [(equivalent_memSchedule ld (hazards_of_shuffled hs) x).1, horder]
  refine ⟨⟨?_, ?_⟩, ?_⟩
  · rw [file_fetch, hsched.file]
  · rw [Assign.run_of_ne hne, hsched.flag]
  · rw [file_fetch]
    exact Assign.run_self (fetch ld (tmp 3) t.xas8.src) _

end Spec

end HashWX.CompilerA64
