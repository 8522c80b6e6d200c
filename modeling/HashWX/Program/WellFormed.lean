import HashWX.Program.Layout
import Mathlib.Data.List.FinRange
import Mathlib.Data.Fintype.EquivFin

/-!
# Generated programs are well formed

A window of sixteen words fixes a layout; the program that is built from it holds
that layout, whatever the memory held before. Its shuffled operands then have every
property that the interpreter and the compilers take for granted.
-/

namespace HashWX

open Siphash

section Build

variable (g : Nat → Word)

/-- The destination of a slot. -/
def slotDst (i : Fin 8) : Fin 8 := destPerm (buildSelect g) i

/-- The source of one of the slots 1 to 7. -/
def slotSrc (i : Fin 8) : Fin 8 := slotDst g (srcPerm (g 7) i)

/-- The RMCG instruction of slot 0. -/
def buildRmcg : Rmcg where
  dst := slotDst g 0
  src := Fin.ofNat 2 (g 7).toNat
  imm := 1 + (g 8).toNat % 63
  imm_pos := Nat.le_add_right _ _
  imm_le := by have := Nat.mod_lt (g 8).toNat (y := 63); omega

/-- The MUL instruction of slot `i`, whose opcode word is the one before. -/
def buildMul (i : Fin 8) : Mul where
  op := mulOp (Fin.ofNat 3 (selectLo (g (i - 1))).toNat)
  dst := slotDst g i
  src := slotSrc g i
  imm := mulImms (Fin.ofNat 3 (g (8 + i)).toNat)
  imm_mem := mulImms_mem _

/-- The XAS instruction of slot `i`. -/
def buildXas (i : Fin 8) : Xas where
  pre := xasPre (Fin.ofNat 9 (selectLo (g (i - 1))).toNat)
  post := xasPost (Fin.ofNat 9 (selectLo (g (i - 1))).toNat)
  dst := slotDst g i
  src := slotSrc g i
  imm := 1 + (g (8 + i)).toNat % (xasPre (Fin.ofNat 9 (selectLo (g (i - 1))).toNat)).maxImm
  imm_pos := Nat.le_add_right _ _
  imm_le := by
    have hpos : 0 < (xasPre (Fin.ofNat 9 (selectLo (g (i - 1))).toNat)).maxImm := by
      cases xasPre (Fin.ofNat 9 (selectLo (g (i - 1))).toNat) <;> decide
    have := Nat.mod_lt (g (8 + i)).toNat hpos
    omega

def buildLayout : Layout where
  rmcg0 := buildRmcg g
  xas1 := buildXas g 1
  mul2 := buildMul g 2
  xas3 := buildXas g 3
  mul4 := buildMul g 4
  xas5 := buildXas g 5
  mul6 := buildMul g 6
  xas8 := buildXas g 7

theorem buildDst_eq (i : Fin 8) : (buildDst g)[i] = (slotDst g i).val :=
  genDestinations_eq _ _ i

theorem buildSrc_zero : (buildSrc g)[(0 : Fin 8)] = 8 + (g 7).toNat % 2 := by
  rw [buildSrc, genSources_eq, if_pos rfl]

theorem buildSrc_eq {i : Fin 8} (hi : i ≠ 0) : (buildSrc g)[i] = (slotSrc g i).val := by
  rw [buildSrc, genSources_eq, if_neg hi, buildDst_eq, slotSrc]

theorem buildInstruction_rmcg : buildInstruction g 0 = (buildRmcg g).instruction := by
  simp only [buildInstruction, buildDst_eq, buildSrc_zero]
  rfl

theorem buildInstruction_mul {i : Fin 8} (hi : i ≠ 0)
    (hop : buildOpcode g i = (genMulOpcode (g (i - 1))).1) :
    buildInstruction g i = (buildMul g i).instruction := by
  simp only [buildInstruction, hop, genMulOpcode, mulOpcode_eq, genImm_mul, buildDst_eq,
    buildSrc_eq g hi]
  rfl

theorem buildInstruction_xas {i : Fin 8} (hi : i ≠ 0)
    (hop : buildOpcode g i = (genXasOpcode (g (i - 1))).1) :
    buildInstruction g i = (buildXas g i).instruction := by
  simp only [buildInstruction, hop, genXasOpcode, xasLookup_eq, genImm_xas, buildDst_eq,
    buildSrc_eq g hi]
  rfl

theorem buildLayout_describes (program : Program) :
    (buildLayout g).Describes (buildProgram g program) where
  code0 := buildInstruction_rmcg g
  code1 := buildInstruction_xas g (by decide) rfl
  code2 := buildInstruction_mul g (by decide) rfl
  code3 := buildInstruction_xas g (by decide) rfl
  code4 := buildInstruction_mul g (by decide) rfl
  code5 := buildInstruction_xas g (by decide) rfl
  code6 := buildInstruction_mul g (by decide) rfl
  branch := rfl
  code8 := buildInstruction_xas g (by decide) rfl
  halt := rfl

theorem buildLayout_dst : (buildLayout g).dst = slotDst g := by
  funext i
  match i with
  | 0 | 1 | 2 | 3 | 4 | 5 | 6 | 7 => rfl

theorem buildLayout_src (i : Fin 7) : (buildLayout g).src i = slotSrc g i.succ := by
  match i with
  | 0 | 1 | 2 | 3 | 4 | 5 | 6 => rfl

theorem buildLayout_shuffled : (buildLayout g).Shuffled := by
  refine ⟨?_, srcPerm (g 7), permitted_of_mem (List.get_mem _ _), fun i => ?_⟩
  · rw [buildLayout_dst]
    exact (destPerm (buildSelect g)).injective
  · rw [buildLayout_src, buildLayout_dst, slotSrc]

end Build

/-- Every program of a generated list holds a shuffled layout. -/
theorem programListGenerate_describes {σ : Type} (next : σ → Word × σ) (list : ProgramList)
    (gen : σ) (i : Fin 32) :
    ∃ t : Layout, t.Shuffled ∧ t.Describes (programListGenerate next list gen).1[i] := by
  refine ⟨_, buildLayout_shuffled fun j => OutputStream.output next gen (16 * i + j), ?_⟩
  rw [programListGenerate_eq]
  exact buildLayout_describes _ _

/-- What the programs of a list generated from `key` compute. -/
def generatedLayouts (key : SiphashKey) (i : Fin 32) : Layout :=
  buildLayout fun j => OutputStream.output hashwxRngNext (hashwxRngInit key (-1)) (16 * i + j)

theorem generatedLayouts_shuffled (key : SiphashKey) (i : Fin 32) :
    (generatedLayouts key i).Shuffled := buildLayout_shuffled _

/-- It depends on the key alone: no program reads what the list held before. -/
theorem generatedLayouts_describes (key : SiphashKey) (memory : ProgramList) (i : Fin 32) :
    (generatedLayouts key i).Describes (hashwxProgramListGenerate key memory)[i] := by
  have hprogram := programListGenerate_eq hashwxRngNext memory (hashwxRngInit key (-1)) i
  rw [hashwxProgramListGenerate, hprogram]
  exact buildLayout_describes _ _

theorem hashwxProgramListGenerate_describes (key : SiphashKey) (memory : ProgramList) :
    ∃ ts : Fin 32 → Layout, (∀ i, (ts i).Shuffled) ∧
      ∀ i : Fin 32, (ts i).Describes (hashwxProgramListGenerate key memory)[i] := by
  exact ⟨generatedLayouts key, generatedLayouts_shuffled key, generatedLayouts_describes key memory⟩

/-! ## The properties of one program -/

/-- The rotating opcodes among the XAS family. -/
def InstrType.IsRotation (opcode : InstrType) : Prop :=
  opcode = .xorror ∨ opcode = .addror ∨ opcode = .subror

instance (opcode : InstrType) : Decidable opcode.IsRotation :=
  inferInstanceAs (Decidable (opcode = .xorror ∨ opcode = .addror ∨ opcode = .subror))

/-- The indices of the instructions with a destination, and of those with a source in R0-R7. -/
def dstIndices : List (Fin 10) := [0, 1, 2, 3, 4, 5, 6, 8]
def srcIndices : List (Fin 10) := [1, 2, 3, 4, 5, 6, 8]

/-- The indices of the two families. -/
def xasIndices : List (Fin 10) := [1, 3, 5, 8]
def mulIndices : List (Fin 10) := [2, 4, 6]

/-- The layout of a program and the ranges of its operands. -/
structure InRange (program : Program) : Prop where
  rmcg : program[0].opcode = .rmcg
  xas : ∀ i ∈ xasIndices, program[i].opcode.IsXas
  mul : ∀ i ∈ mulIndices, program[i].opcode.IsMul
  branch : program[7].opcode = .branch
  halt : program[9].opcode = .halt
  dst_lt : ∀ i ∈ dstIndices, program[i].dst < 8
  src_rmcg : program[0].src = 8 ∨ program[0].src = 9
  src_lt : ∀ i ∈ srcIndices, program[i].src < 8
  imm_rmcg : 1 ≤ program[0].imm ∧ program[0].imm ≤ 63
  imm_mul : ∀ i ∈ mulIndices, program[i].imm = 1 ∨ program[i].imm = 9 ∨ program[i].imm = 33
  imm_rotation : ∀ i ∈ xasIndices, program[i].opcode.IsRotation →
    1 ≤ program[i].imm ∧ program[i].imm ≤ 63
  imm_shift : ∀ i ∈ xasIndices, ¬program[i].opcode.IsRotation →
    1 ≤ program[i].imm ∧ program[i].imm ≤ 3

/-- In addition the destinations are a permutation of R0-R7, and the sources are
distinct and differ from the destination of their instruction. -/
structure WellFormed (program : Program) : Prop extends InRange program where
  dst_perm : (dstIndices.map fun i => program[i].dst).Perm (List.range 8)
  src_nodup : (srcIndices.map fun i => program[i].src).Nodup
  src_ne_dst : ∀ i ∈ srcIndices, program[i].src ≠ program[i].dst

theorem xasOpcode_isRotation (pre : PreOp) (post : PostOp) :
    (xasOpcode pre post).IsRotation ↔ pre = .ror := by
  cases pre <;> cases post <;> simp [xasOpcode, InstrType.IsRotation]

theorem Xas.isXas (x : Xas) : x.instruction.opcode.IsXas := ⟨x.pre, x.post, rfl⟩

theorem Mul.isMul (x : Mul) : x.instruction.opcode.IsMul := ⟨x.op, rfl⟩

theorem Xas.imm_rotation (x : Xas) (_ : x.instruction.opcode.IsRotation) :
    1 ≤ x.instruction.imm ∧ x.instruction.imm ≤ 63 :=
  ⟨x.imm_pos, x.imm_le.trans x.pre.maxImm_le⟩

theorem Xas.imm_shift (x : Xas) (h : ¬x.instruction.opcode.IsRotation) :
    1 ≤ x.instruction.imm ∧ x.instruction.imm ≤ 3 := by
  have hpre : x.pre ≠ .ror := fun he => h ((xasOpcode_isRotation _ _).mpr he)
  have hmax : x.pre.maxImm ≤ 3 := by cases hx : x.pre <;> simp_all [PreOp.maxImm]
  exact ⟨x.imm_pos, x.imm_le.trans hmax⟩

theorem exists_rmcg {x : Instruction} (hop : x.opcode = .rmcg) (hdst : x.dst < 8)
    (hsrc : x.src = 8 ∨ x.src = 9) (himm : 1 ≤ x.imm ∧ x.imm ≤ 63) :
    ∃ y : Rmcg, x = y.instruction := by
  have hlt : x.src - 8 < 2 := by omega
  refine ⟨⟨⟨x.dst, hdst⟩, ⟨x.src - 8, hlt⟩, x.imm, himm.1, himm.2⟩, ?_⟩
  have hsum : 8 + (x.src - 8) = x.src := by omega
  simp only [Rmcg.instruction, hsum, ← hop]

theorem exists_mul {x : Instruction} (hop : x.opcode.IsMul) (hdst : x.dst < 8) (hsrc : x.src < 8)
    (himm : x.imm = 1 ∨ x.imm = 9 ∨ x.imm = 33) : ∃ y : Mul, x = y.instruction := by
  obtain ⟨op, hop⟩ := hop
  refine ⟨⟨op, ⟨x.dst, hdst⟩, ⟨x.src, hsrc⟩, x.imm, himm⟩, ?_⟩
  simp only [Mul.instruction, ← hop]

theorem exists_xas {x : Instruction} (hop : x.opcode.IsXas) (hdst : x.dst < 8) (hsrc : x.src < 8)
    (hrot : x.opcode.IsRotation → 1 ≤ x.imm ∧ x.imm ≤ 63)
    (hshift : ¬x.opcode.IsRotation → 1 ≤ x.imm ∧ x.imm ≤ 3) : ∃ y : Xas, x = y.instruction := by
  obtain ⟨pre, post, hop⟩ := hop
  rw [hop, xasOpcode_isRotation] at hrot hshift
  have himm : 1 ≤ x.imm ∧ x.imm ≤ pre.maxImm := by
    cases pre with
    | ror => exact hrot rfl
    | asr => exact hshift (by decide)
    | lsr => exact hshift (by decide)
  refine ⟨⟨pre, post, ⟨x.dst, hdst⟩, ⟨x.src, hsrc⟩, x.imm, himm.1, himm.2⟩, ?_⟩
  simp only [Xas.instruction, ← hop]

namespace Layout

variable {t : Layout} {program : Program}

theorem Describes.dst_eq (h : t.Describes program) :
    (dstIndices.map fun i => program[i].dst) = List.ofFn fun i => (t.dst i).val := by
  simp [dstIndices, h.code0, h.code1, h.code2, h.code3, h.code4, h.code5, h.code6, h.code8,
    Rmcg.instruction, Xas.instruction, Mul.instruction, dst, List.ofFn_succ]

theorem Describes.src_eq (h : t.Describes program) :
    (srcIndices.map fun i => program[i].src) = List.ofFn fun i => (t.src i).val := by
  simp [srcIndices, h.code1, h.code2, h.code3, h.code4, h.code5, h.code6, h.code8,
    Xas.instruction, Mul.instruction, src, List.ofFn_succ]

theorem Describes.forall_xas (h : t.Describes program) {P : Instruction → Prop}
    (hP : ∀ x : Xas, P x.instruction) : ∀ i ∈ xasIndices, P program[i] := by
  simp only [xasIndices, List.forall_mem_cons]
  exact ⟨h.code1 ▸ hP _, h.code3 ▸ hP _, h.code5 ▸ hP _, h.code8 ▸ hP _, List.forall_mem_nil _⟩

theorem Describes.forall_mul (h : t.Describes program) {P : Instruction → Prop}
    (hP : ∀ x : Mul, P x.instruction) : ∀ i ∈ mulIndices, P program[i] := by
  simp only [mulIndices, List.forall_mem_cons]
  exact ⟨h.code2 ▸ hP _, h.code4 ▸ hP _, h.code6 ▸ hP _, List.forall_mem_nil _⟩

theorem Describes.inRange (h : t.Describes program) : InRange program := by
  have hsrc : ∀ i ∈ srcIndices, program[i].src < 8 := by
    intro i hi
    have hmem := List.mem_map_of_mem (f := fun i : Fin 10 => program[i].src) hi
    rw [h.src_eq, List.mem_ofFn] at hmem
    obtain ⟨k, hk⟩ := hmem
    exact hk ▸ (t.src k).isLt
  have hdst : ∀ i ∈ dstIndices, program[i].dst < 8 := by
    intro i hi
    have hmem := List.mem_map_of_mem (f := fun i : Fin 10 => program[i].dst) hi
    rw [h.dst_eq, List.mem_ofFn] at hmem
    obtain ⟨k, hk⟩ := hmem
    exact hk ▸ (t.dst k).isLt
  have hrmcg : t.rmcg0.instruction.src = 8 ∨ t.rmcg0.instruction.src = 9 := by
    have := t.rmcg0.src.isLt
    simp only [Rmcg.instruction]
    omega
  exact
    { rmcg := by rw [h.code0]; rfl
      xas := h.forall_xas (P := fun x => x.opcode.IsXas) Xas.isXas
      mul := h.forall_mul (P := fun x => x.opcode.IsMul) Mul.isMul
      branch := h.branch
      halt := h.halt
      dst_lt := hdst
      src_rmcg := h.code0 ▸ hrmcg
      src_lt := hsrc
      imm_rmcg := h.code0 ▸ ⟨t.rmcg0.imm_pos, t.rmcg0.imm_le⟩
      imm_mul := h.forall_mul (P := fun x => x.imm = 1 ∨ x.imm = 9 ∨ x.imm = 33) Mul.imm_mem
      imm_rotation := h.forall_xas
        (P := fun x => x.opcode.IsRotation → 1 ≤ x.imm ∧ x.imm ≤ 63) Xas.imm_rotation
      imm_shift := h.forall_xas
        (P := fun x => ¬x.opcode.IsRotation → 1 ≤ x.imm ∧ x.imm ≤ 3) Xas.imm_shift }

/-- Conversely the ranges determine the layout. -/
theorem exists_describes (h : InRange program) : ∃ t : Layout, t.Describes program := by
  have hxas (i : Fin 10) (hi : i ∈ xasIndices) : ∃ x : Xas, program[i] = x.instruction := by
    have hops : i ∈ dstIndices ∧ i ∈ srcIndices := by
      revert i
      decide
    exact exists_xas (h.xas i hi) (h.dst_lt i hops.1) (h.src_lt i hops.2) (h.imm_rotation i hi)
      (h.imm_shift i hi)
  have hmul (i : Fin 10) (hi : i ∈ mulIndices) : ∃ x : Mul, program[i] = x.instruction := by
    have hops : i ∈ dstIndices ∧ i ∈ srcIndices := by
      revert i
      decide
    exact exists_mul (h.mul i hi) (h.dst_lt i hops.1) (h.src_lt i hops.2) (h.imm_mul i hi)
  obtain ⟨x0, h0⟩ := exists_rmcg h.rmcg (h.dst_lt 0 (by decide)) h.src_rmcg h.imm_rmcg
  obtain ⟨x1, h1⟩ := hxas 1 (by decide)
  obtain ⟨x2, h2⟩ := hmul 2 (by decide)
  obtain ⟨x3, h3⟩ := hxas 3 (by decide)
  obtain ⟨x4, h4⟩ := hmul 4 (by decide)
  obtain ⟨x5, h5⟩ := hxas 5 (by decide)
  obtain ⟨x6, h6⟩ := hmul 6 (by decide)
  obtain ⟨x8, h8⟩ := hxas 8 (by decide)
  exact ⟨⟨x0, x1, x2, x3, x4, x5, x6, x8⟩, h0, h1, h2, h3, h4, h5, h6, h.branch, h8, h.halt⟩

theorem Shuffled.src_injective (hs : t.Shuffled) : Function.Injective t.src := by
  obtain ⟨p, hp, hsrc⟩ := hs.permitted
  intro i j hij
  rw [hsrc, hsrc] at hij
  exact Fin.succ_injective _ (hp.injective (hs.dst_injective hij))

theorem Shuffled.src_ne_dst (hs : t.Shuffled) (i : Fin 7) : t.src i ≠ t.dst i.succ := by
  obtain ⟨p, hp, hsrc⟩ := hs.permitted
  rw [hsrc]
  exact fun h => hp.ne_self i.succ (Fin.succ_ne_zero i) (hs.dst_injective h)

theorem Describes.wellFormed (h : t.Describes program) (hs : t.Shuffled) : WellFormed program := by
  refine ⟨h.inRange, ?_, ?_, ?_⟩
  · let σ : Equiv.Perm (Fin 8) :=
      Equiv.ofBijective t.dst (Finite.injective_iff_bijective.mp hs.dst_injective)
    rw [h.dst_eq]
    exact σ.ofFn_comp_perm Fin.val
  · rw [h.src_eq, List.nodup_ofFn]
    exact Fin.val_injective.comp hs.src_injective
  · have hne : ∀ i : Fin 7, (t.src i).val ≠ (t.dst i.succ).val :=
      fun i he => hs.src_ne_dst i (Fin.ext he)
    simp only [srcIndices, List.forall_mem_cons]
    exact ⟨h.code1 ▸ hne 0, h.code2 ▸ hne 1, h.code3 ▸ hne 2, h.code4 ▸ hne 3, h.code5 ▸ hne 4,
      h.code6 ▸ hne 5, h.code8 ▸ hne 6, List.forall_mem_nil _⟩

end Layout

/-- Every program of every generated list is well formed, for every source of words
and for the siphash generator with every key. -/
theorem programListGenerate_wellFormed :
    (∀ (σ : Type) (next : σ → Word × σ) (gen : σ) (list : ProgramList) (i : Fin 32),
      WellFormed (programListGenerate next list gen).1[i]) ∧
    ∀ (key : SiphashKey) (list : ProgramList) (i : Fin 32),
      WellFormed (hashwxProgramListGenerate key list)[i] := by
  have h (σ : Type) (next : σ → Word × σ) (gen : σ) (list : ProgramList) (i : Fin 32) :
      WellFormed (programListGenerate next list gen).1[i] := by
    obtain ⟨t, hs, ht⟩ := programListGenerate_describes next list gen i
    exact ht.wellFormed hs
  exact ⟨h, fun key list i => h _ _ _ _ _⟩

end HashWX
