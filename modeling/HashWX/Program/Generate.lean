import HashWX.Program.Instruction
import HashWX.Program.SrcLookup
import HashWX.Lib.InsideOut
import Mathlib.Data.Fin.VecNotation

/-!
# Program generation

The functions of `program.c`. The source of random words is any generator `next`,
so that the results hold for every sequence of words; `hashwxProgramListGenerate`
uses the siphash generator. Fields that the code does not write keep the contents
the memory had before.
-/

namespace HashWX

open Siphash ForLoop

/-- The word without its low half, and without its high half. -/
def selectLo (select : Word) : BitVec 32 := select.setWidth 32
def selectHi (select : Word) : BitVec 32 := (select >>> 32).setWidth 32

/-- `xas_lookup`. -/
def xasLookup : Fin 9 → InstrType := ![.xorror, .addror, .subror, .xorasr, .addasr, .subasr,
  .xorlsr, .addlsr, .sublsr]

/-- The cast `(instr_type)(select_lo % NUM_MUL_OPCODES)`. -/
def mulOpcode : Fin 3 → InstrType := ![.mulor, .mulxor, .muladd]

/-- `mul_imms`. -/
def mulImms : Fin 3 → Nat := ![1, 9, 33]

/-- The opcode, and the select word for the destinations. -/
def genMulOpcode (select : Word) : InstrType × BitVec 32 :=
  (mulOpcode (Fin.ofNat 3 (selectLo select).toNat), selectHi select)

def genXasOpcode (select : Word) : InstrType × BitVec 32 :=
  (xasLookup (Fin.ofNat 9 (selectLo select).toNat), selectHi select)

/-- `select[i - 1] % (i + 1)` for the loop index `i` of `gen_destinations`. -/
def shuffleIndex (select : Fin 7 → BitVec 32) (i : Fin 7) : Fin 8 :=
  ⟨(select i).toNat % (i.val + 2), by have := Nat.mod_lt (select i).toNat (y := i.val + 2); omega⟩

/-- The loop runs over the slots 1 to 7; `dst` is the array before it is written. -/
def genDestinations (dst : Vector Nat 8) (select : Fin 7 → BitVec 32) : Vector Nat 8 :=
  forLoop 7 (fun dst i => InsideOut.insert dst i.succ (shuffleIndex select i)) (dst.set 0 0)

/-- The row `src_lookup[select % NUM_SRC_PERM]`. -/
def srcPerm (select : Word) : Fin 8 → Fin 8 :=
  srcLookup.get ⟨select.toNat % 625, by rw [srcLookup_length]; exact Nat.mod_lt _ (by decide)⟩

def genSources (src dst : Vector Nat 8) (select : Word) : Vector Nat 8 :=
  let src := forLoop 7 (fun src i => src.set i.succ dst[srcPerm select i.succ]) src
  src.set 0 (8 + select.toNat % 2)

def genImm (opcode : InstrType) (select : Word) : Nat :=
  if opcode.toNat ≤ InstrType.muladd.toNat then
    mulImms (Fin.ofNat 3 select.toNat)
  else if opcode.toNat ≤ InstrType.subror.toNat then
    1 + select.toNat % 63
  else
    1 + select.toNat % 3

/-- `program->code[i].opcode = opcode`. -/
def setOpcode (program : Program) (i : Fin 10) (opcode : InstrType) : Program :=
  program.set i { program[i] with opcode := opcode }

/-- The three operand stores of one iteration. -/
def setOperands (program : Program) (i : Fin 10) (dst src imm : Nat) : Program :=
  program.set i { program[i] with dst := dst, src := src, imm := imm }

/-- The index of `program->code` in the loop over the eight operand slots. -/
def slot (i : Fin 8) : Fin 10 := i.castLE eight_le_ten

/-- The first half of `program_generate`: the opcodes of the slots 0 to 7, and the select
words of the destinations. -/
def assignOpcodes {σ : Type} (next : σ → Word × σ) (program : Program) :
    StateM σ (Program × (Fin 7 → BitVec 32)) := do
  let program := setOpcode program 0 .rmcg
  let (opcode, s0) := genXasOpcode (← next)
  let program := setOpcode program 1 opcode
  let (opcode, s1) := genMulOpcode (← next)
  let program := setOpcode program 2 opcode
  let (opcode, s2) := genXasOpcode (← next)
  let program := setOpcode program 3 opcode
  let (opcode, s3) := genMulOpcode (← next)
  let program := setOpcode program 4 opcode
  let (opcode, s4) := genXasOpcode (← next)
  let program := setOpcode program 5 opcode
  let (opcode, s5) := genMulOpcode (← next)
  let program := setOpcode program 6 opcode
  let (opcode, s6) := genXasOpcode (← next)
  let program := setOpcode program 7 opcode
  return (program, ![s0, s1, s2, s3, s4, s5, s6])

/-- The loop of `program_generate` over the eight slots with operands. -/
def assignOperands {σ : Type} (next : σ → Word × σ) (dst src : Vector Nat 8) (program : Program) :
    StateM σ Program :=
  (List.finRange 8).foldlM (fun program i => do
    let imm := genImm program[slot i].opcode (← next)
    return setOperands program (slot i) dst[i] src[i] imm) program

/-- The last statements of `program_generate`: slot 7 moves up for the branch. -/
def insertBranch (program : Program) : Program :=
  let program := program.set 8 program[7]
  let program := setOpcode program 7 .branch
  setOpcode program 9 .halt

/-- `program_generate`, with the state of the generator and the old contents of
`*program`. The local arrays `dst` and `src` are written before they are read. -/
def programGenerate {σ : Type} (next : σ → Word × σ) (program : Program) : StateM σ Program := do
  let (program, select) ← assignOpcodes next program
  let dst := genDestinations (.replicate 8 0) select
  let src := genSources (.replicate 8 0) dst (← next)
  let program ← assignOperands next dst src program
  return insertBranch program

/-- `hashwx_program_list_generate` from an arbitrary generator. -/
def programListGenerate {σ : Type} (next : σ → Word × σ) (list : ProgramList) (gen : σ) :
    ProgramList × σ :=
  forLoop 32 (fun (list, gen) i =>
    let (program, gen) := programGenerate next list[i] gen
    (list.set i program, gen)) (list, gen)

/-- `hashwx_program_list_generate`: the salt is -1. -/
def hashwxProgramListGenerate (key : SiphashKey) (list : ProgramList) : ProgramList :=
  (programListGenerate hashwxRngNext list (hashwxRngInit key (-1))).1

/-! ## One program as a function of sixteen words -/

section Build

variable (g : Nat → Word)

/-- The opcodes before the branch is inserted. -/
def buildOpcode : Fin 8 → InstrType :=
  ![.rmcg, (genXasOpcode (g 0)).1, (genMulOpcode (g 1)).1, (genXasOpcode (g 2)).1,
    (genMulOpcode (g 3)).1, (genXasOpcode (g 4)).1, (genMulOpcode (g 5)).1, (genXasOpcode (g 6)).1]

/-- The select words of the shuffle. -/
def buildSelect : Fin 7 → BitVec 32 :=
  ![selectHi (g 0), selectHi (g 1), selectHi (g 2), selectHi (g 3), selectHi (g 4),
    selectHi (g 5), selectHi (g 6)]

def buildDst : Vector Nat 8 := genDestinations (.replicate 8 0) (buildSelect g)

def buildSrc : Vector Nat 8 := genSources (.replicate 8 0) (buildDst g) (g 7)

/-- The instruction assembled in a slot. -/
def buildInstruction (i : Fin 8) : Instruction :=
  { opcode := buildOpcode g i, src := (buildSrc g)[i], dst := (buildDst g)[i],
    imm := genImm (buildOpcode g i) (g (8 + i)) }

/-- Slot 7 moves to index 8; the branch keeps its operands, and the halt the operands
that the memory held before. -/
def buildProgram (program : Program) : Program :=
  #v[buildInstruction g 0, buildInstruction g 1, buildInstruction g 2, buildInstruction g 3,
    buildInstruction g 4, buildInstruction g 5, buildInstruction g 6,
    { buildInstruction g 7 with opcode := .branch }, buildInstruction g 7,
    { program[9] with opcode := .halt }]

end Build

section Run

open OutputStream (output advance)

variable {σ : Type} (next : σ → Word × σ)

/-- A program record, element by element. -/
theorem program_eta (program : Program) : program = #v[program[0], program[1], program[2],
    program[3], program[4], program[5], program[6], program[7], program[8], program[9]] := by
  apply Vector.ext
  intro i hi
  match i, hi with
  | 0, _ | 1, _ | 2, _ | 3, _ | 4, _ | 5, _ | 6, _ | 7, _ | 8, _ | 9, _ => rfl

section Slots

variable (c0 c1 c2 c3 c4 c5 c6 c7 c8 c9 : Instruction)

theorem assignOpcodes_eq (gen : σ) :
    assignOpcodes next #v[c0, c1, c2, c3, c4, c5, c6, c7, c8, c9] gen =
      let opcode := buildOpcode (output next gen)
      ((#v[{ c0 with opcode := opcode 0 }, { c1 with opcode := opcode 1 },
        { c2 with opcode := opcode 2 }, { c3 with opcode := opcode 3 },
        { c4 with opcode := opcode 4 }, { c5 with opcode := opcode 5 },
        { c6 with opcode := opcode 6 }, { c7 with opcode := opcode 7 }, c8, c9],
        buildSelect (output next gen)), advance next 7 gen) := rfl

theorem assignOperands_eq (dst src : Vector Nat 8) (gen : σ) :
    assignOperands next dst src #v[c0, c1, c2, c3, c4, c5, c6, c7, c8, c9] gen =
      let operands (c : Instruction) (i : Fin 8) : Instruction :=
        { c with dst := dst[i], src := src[i], imm := genImm c.opcode (output next gen i) }
      (#v[operands c0 0, operands c1 1, operands c2 2, operands c3 3, operands c4 4, operands c5 5,
        operands c6 6, operands c7 7, c8, c9], advance next 8 gen) := rfl

theorem insertBranch_eq : insertBranch #v[c0, c1, c2, c3, c4, c5, c6, c7, c8, c9] =
    #v[c0, c1, c2, c3, c4, c5, c6, { c7 with opcode := .branch }, c7, { c9 with opcode := .halt }] :=
  rfl

end Slots

theorem programGenerate_eq (program : Program) (gen : σ) :
    programGenerate next program gen =
      (buildProgram (output next gen) program, advance next 16 gen) := by
  rw [program_eta program]
  generalize program[0] = c0, program[1] = c1, program[2] = c2, program[3] = c3, program[4] = c4,
    program[5] = c5, program[6] = c6, program[7] = c7, program[8] = c8, program[9] = c9
  have hword : (next (advance next 7 gen)).1 = output next gen 7 := rfl
  have hstate : (next (advance next 7 gen)).2 = advance next 8 gen := rfl
  have hdst : genDestinations (.replicate 8 0) (buildSelect (output next gen)) =
    buildDst (output next gen) := rfl
  have hsrc : genSources (.replicate 8 0) (buildDst (output next gen)) (output next gen 7) =
    buildSrc (output next gen) := rfl
  simp only [programGenerate, bind, StateT.bind, assignOpcodes_eq, hword, hstate,
    hdst, hsrc, assignOperands_eq, insertBranch_eq, OutputStream.output_advance,
    ← OutputStream.advance_add]
  rfl

/-- After `k` programs: the windows that were consumed, and the slots that were written. -/
structure BuiltUpTo (list : ProgramList) (gen : σ) (k : Nat) (s : ProgramList × σ) : Prop where
  state : s.2 = advance next (16 * k) gen
  programs : ∀ i : Fin 32, s.1[i] =
    if i.val < k then buildProgram (fun j => output next gen (16 * i + j)) list[i] else list[i]

theorem builtUpTo_zero (list : ProgramList) (gen : σ) :
    BuiltUpTo next list gen 0 (list, gen) :=
  ⟨rfl, fun i => (if_neg (Nat.not_lt_zero i)).symm⟩

theorem BuiltUpTo.step {list : ProgramList} {gen : σ} {k : Fin 32} {s : ProgramList × σ}
    (h : BuiltUpTo next list gen k s) :
    BuiltUpTo next list gen (k + 1)
      (s.1.set k (programGenerate next s.1[k] s.2).1, (programGenerate next s.1[k] s.2).2) := by
  obtain ⟨l, t⟩ := s
  obtain ⟨hstate, hprograms⟩ := h
  simp only at hstate hprograms
  have hk : l[k] = list[k] := (hprograms k).trans (if_neg (Nat.lt_irrefl _))
  have hwords : output next t = fun j => output next gen (16 * k + j) := by
    funext j
    rw [hstate, OutputStream.output_advance]
  have hrun : programGenerate next l[k] t =
      (buildProgram (fun j => output next gen (16 * k + j)) list[k], advance next 16 t) := by
    rw [programGenerate_eq, hk, hwords]
  simp only [hrun]
  refine ⟨?_, fun i => ?_⟩
  · simp only
    rw [hstate, ← OutputStream.advance_add, Nat.mul_succ]
  · by_cases hik : i = k
    · subst hik
      simp [Vector.getElem_fin]
    · have hne : k.val ≠ i.val := fun h => hik (Fin.ext h.symm)
      have hiff : i.val < k.val + 1 ↔ i.val < k.val := by omega
      have hi := hprograms i
      simp only [Vector.getElem_fin] at hi
      simp only [Vector.getElem_fin, Vector.getElem_set_ne _ _ hne, hi, hiff]

/-- Program `i` of the list is built from the sixteen words that follow the first `16 * i`. -/
theorem programListGenerate_eq (list : ProgramList) (gen : σ) (i : Fin 32) :
    (programListGenerate next list gen).1[i] =
      buildProgram (fun j => output next gen (16 * i + j)) list[i] := by
  have h : BuiltUpTo next list gen 32 (programListGenerate next list gen) :=
    forLoop_invariant (BuiltUpTo next list gen) (builtUpTo_zero next list gen)
      fun k s hs => hs.step
  exact (h.programs i).trans (if_pos i.isLt)

end Run

/-! ## Seeds -/

abbrev Seed := Vector (BitVec 8) 32

/-- The eight bytes from `i` on. -/
def platformLoad64 (seed : Seed) (i : Fin 25) : Word :=
  seed[i.val + 7] ++ seed[i.val + 6] ++ seed[i.val + 5] ++ seed[i.val + 4] ++ seed[i.val + 3] ++
    seed[i.val + 2] ++ seed[i.val + 1] ++ seed[i.val]

/-- The keys of the programs and of the nonces. -/
def seedKeys (seed : Seed) : SiphashKey × SiphashKey :=
  (⟨platformLoad64 seed 0, platformLoad64 seed 8⟩, ⟨platformLoad64 seed 16, platformLoad64 seed 24⟩)

end HashWX
