import HashWX.Program.Generate

/-!
# Programs with a checked layout

A `Layout` is a program whose opcodes stand where the document puts them and whose
operands lie in their ranges, by construction. `Describes` relates it to a program
record, which in addition holds operands that no instruction reads.
-/

namespace HashWX

/-- The operation a MUL instruction performs before it multiplies. -/
inductive MulOp | or | xor | add
deriving DecidableEq, Repr

/-- The operation a XAS instruction performs on its destination first. -/
inductive PreOp | ror | asr | lsr
deriving DecidableEq, Repr

/-- The operation that combines the result with the source operand. -/
inductive PostOp | xor | add | sub
deriving DecidableEq, Repr

def MulOp.opcode : MulOp → InstrType
  | .or => .mulor | .xor => .mulxor | .add => .muladd

def PreOp.maxImm : PreOp → Nat
  | .ror => 63 | .asr => 3 | .lsr => 3

def xasOpcode : PreOp → PostOp → InstrType
  | .ror, .xor => .xorror | .ror, .add => .addror | .ror, .sub => .subror
  | .asr, .xor => .xorasr | .asr, .add => .addasr | .asr, .sub => .subasr
  | .lsr, .xor => .xorlsr | .lsr, .add => .addlsr | .lsr, .sub => .sublsr

/-- The opcodes of the XAS and MUL families. -/
def InstrType.IsXas (opcode : InstrType) : Prop := ∃ pre post, opcode = xasOpcode pre post
def InstrType.IsMul (opcode : InstrType) : Prop := ∃ op : MulOp, opcode = op.opcode

theorem PreOp.maxImm_le (pre : PreOp) : pre.maxImm ≤ 63 := by cases pre <;> decide

/-- The source is R8 or R9. -/
structure Rmcg where
  dst : Fin 8
  src : Fin 2
  imm : Nat
  imm_pos : 1 ≤ imm
  imm_le : imm ≤ 63

structure Mul where
  op : MulOp
  dst : Fin 8
  src : Fin 8
  imm : Nat
  imm_mem : imm = 1 ∨ imm = 9 ∨ imm = 33

structure Xas where
  pre : PreOp
  post : PostOp
  dst : Fin 8
  src : Fin 8
  imm : Nat
  imm_pos : 1 ≤ imm
  imm_le : imm ≤ pre.maxImm

def Rmcg.instruction (x : Rmcg) : Instruction :=
  { opcode := .rmcg, src := 8 + x.src, dst := x.dst, imm := x.imm }

def Mul.instruction (x : Mul) : Instruction :=
  { opcode := x.op.opcode, src := x.src, dst := x.dst, imm := x.imm }

def Xas.instruction (x : Xas) : Instruction :=
  { opcode := xasOpcode x.pre x.post, src := x.src, dst := x.dst, imm := x.imm }

theorem Xas.imm_lt (x : Xas) : x.imm < 64 := by
  have := x.imm_le
  have := x.pre.maxImm_le
  omega

theorem Mul.imm_lt (x : Mul) : x.imm < 64 := by
  rcases x.imm_mem with h | h | h <;> omega

/-- The eight instructions with operands, named by their index in the program. -/
structure Layout where
  rmcg0 : Rmcg
  xas1 : Xas
  mul2 : Mul
  xas3 : Xas
  mul4 : Mul
  xas5 : Xas
  mul6 : Mul
  xas8 : Xas

namespace Layout

/-- The destinations in the order of the slots; slot 7 is the instruction at index 8. -/
def dst (t : Layout) : Fin 8 → Fin 8 :=
  ![t.rmcg0.dst, t.xas1.dst, t.mul2.dst, t.xas3.dst, t.mul4.dst, t.xas5.dst, t.mul6.dst, t.xas8.dst]

/-- The sources of the slots 1 to 7. -/
def src (t : Layout) : Fin 7 → Fin 8 :=
  ![t.xas1.src, t.mul2.src, t.xas3.src, t.mul4.src, t.xas5.src, t.mul6.src, t.xas8.src]

/-- The program record holds the layout. Nothing is said about the operands of BRANCH
and HALT. -/
structure Describes (t : Layout) (program : Program) : Prop where
  code0 : program[0] = t.rmcg0.instruction
  code1 : program[1] = t.xas1.instruction
  code2 : program[2] = t.mul2.instruction
  code3 : program[3] = t.xas3.instruction
  code4 : program[4] = t.mul4.instruction
  code5 : program[5] = t.xas5.instruction
  code6 : program[6] = t.mul6.instruction
  branch : program[7].opcode = .branch
  code8 : program[8] = t.xas8.instruction
  halt : program[9].opcode = .halt

theorem Describes.branch_eq {t : Layout} {program : Program} (h : t.Describes program) {k : Fin 10}
    (hk : program[k].opcode = .branch) : k = 7 := by
  have hmul (x : Mul) : x.instruction.opcode ≠ .branch := by
    unfold Mul.instruction
    cases x.op <;> simp [MulOp.opcode]
  have hxas (x : Xas) : x.instruction.opcode ≠ .branch := by
    unfold Xas.instruction
    cases x.pre <;> cases x.post <;> simp [xasOpcode]
  match k with
  | 0 => exact absurd ((congrArg _ h.code0).symm.trans hk) (by simp [Rmcg.instruction])
  | 1 => exact absurd ((congrArg _ h.code1).symm.trans hk) (hxas _)
  | 2 => exact absurd ((congrArg _ h.code2).symm.trans hk) (hmul _)
  | 3 => exact absurd ((congrArg _ h.code3).symm.trans hk) (hxas _)
  | 4 => exact absurd ((congrArg _ h.code4).symm.trans hk) (hmul _)
  | 5 => exact absurd ((congrArg _ h.code5).symm.trans hk) (hxas _)
  | 6 => exact absurd ((congrArg _ h.code6).symm.trans hk) (hmul _)
  | 7 => rfl
  | 8 => exact absurd ((congrArg _ h.code8).symm.trans hk) (hxas _)
  | 9 => exact absurd (h.halt.symm.trans hk) (by simp)

/-- Destinations are a permutation, and the sources one of the permitted permutations
of them. -/
structure Shuffled (t : Layout) : Prop where
  dst_injective : Function.Injective t.dst
  permitted : ∃ p, Permitted p ∧ ∀ i : Fin 7, t.src i = t.dst (p i.succ)

end Layout

/-! ## The layout that a window of words generates -/

def mulOp : Fin 3 → MulOp := ![.or, .xor, .add]

def xasPre : Fin 9 → PreOp := ![.ror, .ror, .ror, .asr, .asr, .asr, .lsr, .lsr, .lsr]

def xasPost : Fin 9 → PostOp := ![.xor, .add, .sub, .xor, .add, .sub, .xor, .add, .sub]

theorem mulOpcode_eq (k : Fin 3) : mulOpcode k = (mulOp k).opcode := by
  match k with
  | 0 | 1 | 2 => rfl

theorem xasLookup_eq (k : Fin 9) : xasLookup k = xasOpcode (xasPre k) (xasPost k) := by
  match k with
  | 0 | 1 | 2 | 3 | 4 | 5 | 6 | 7 | 8 => rfl

theorem mulImms_mem (k : Fin 3) : mulImms k = 1 ∨ mulImms k = 9 ∨ mulImms k = 33 := by
  match k with
  | 0 => exact .inl rfl
  | 1 => exact .inr (.inl rfl)
  | 2 => exact .inr (.inr rfl)

theorem genImm_mul (op : MulOp) (select : Siphash.Word) :
    genImm op.opcode select = mulImms (Fin.ofNat 3 select.toNat) := by
  cases op <;> rfl

theorem genImm_xas (pre : PreOp) (post : PostOp) (select : Siphash.Word) :
    genImm (xasOpcode pre post) select = 1 + select.toNat % pre.maxImm := by
  cases pre <;> cases post <;> rfl

open ForLoop in
/-- The shuffle as a permutation of the slots. -/
def destPerm (select : Fin 7 → BitVec 32) : Equiv.Perm (Fin 8) :=
  forLoop 7 (fun σ i => σ * Equiv.swap i.succ (shuffleIndex select i)) 1

/-- `gen_destinations` computes this permutation, whatever the array held before. -/
theorem genDestinations_eq (dst : Vector Nat 8) (select : Fin 7 → BitVec 32) (i : Fin 8) :
    (genDestinations dst select)[i] = (destPerm select i).val := by
  have h : InsideOut.Tracks 7 (genDestinations dst select) (destPerm select) := by
    refine ForLoop.forLoop_relation InsideOut.Tracks (InsideOut.tracks_one dst) fun i a σ ha => ?_
    have hj : (shuffleIndex select i).val < i.val + 2 := Nat.mod_lt _ (by omega)
    exact ha.insert rfl (by omega)
  exact h.values i (by omega)

open ForLoop in
/-- `gen_sources` leaves no entry of the array as it was. -/
theorem genSources_eq (src dst : Vector Nat 8) (select : Siphash.Word) (i : Fin 8) :
    (genSources src dst select)[i] =
      if i = 0 then 8 + select.toNat % 2 else dst[srcPerm select i] := by
  have h := forLoop_invariant (n := 7)
    (fun k (src : Vector Nat 8) => ∀ i : Fin 8, i ≠ 0 → i.val ≤ k → src[i] = dst[srcPerm select i])
    (f := fun src i => src.set i.succ dst[srcPerm select i.succ]) (a := src)
    (fun i hi h0 => absurd (Fin.ext (by simpa using h0)) hi) ?_
  · by_cases hi : i = 0
    · subst hi
      simp [genSources, Vector.getElem_fin]
    · have hne : 0 ≠ i.val := fun h => hi (Fin.ext h.symm)
      rw [if_neg hi, ← h i hi (by omega), genSources, Vector.getElem_fin, Vector.getElem_set_ne _ _ hne]
      rfl
  · intro k a ha i hi hik
    by_cases hk : i = k.succ
    · subst hk
      simp [Vector.getElem_fin]
    · have hne : k.val + 1 ≠ i.val := fun h => hk (Fin.ext h.symm)
      rw [← ha i hi (by omega), Vector.getElem_fin, Vector.getElem_fin]
      exact Vector.getElem_set_ne _ _ hne

end HashWX
