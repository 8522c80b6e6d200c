import HashWX.X86.Instructions
import HashWX.Lib.ForLoop

/-!
# The code of one program

Both forms of a program have the same shape: the loop head, RMCG, six instructions, the
branch, and one more instruction behind the jump. What differs is the code of the MUL
and XAS instructions. The jump lands behind the test of the loop head, so the head is
entered in two ways.
-/

namespace HashWX.CompilerX86

open X86 ForLoop ByteMemory
open CodeMachine

/-- A form in which programs are compiled. -/
structure Form where
  compileInstr : List Byte × Option Nat → Instruction → Option (List Byte × Option Nat)
  mul : Mul → List Byte
  xas : Xas → List Byte
  compile_mul (pos target) (x : Mul) :
    compileInstr (pos, target) x.instruction = some (pos ++ mul x, target)
  compile_xas (pos target) (x : Xas) :
    compileInstr (pos, target) x.instruction = some (pos ++ xas x, target)
  compile_rmcg (pos target) (x : Rmcg) : compileInstr (pos, target) x.instruction =
    some (pos ++ (codeTarget ++ rmcgBody x), some pos.length)
  compile_branch (pos target) {instr : Instruction} (h : instr.opcode = .branch) :
    compileInstr (pos, some target) instr =
      some (pos ++ (codeBranch ++ emitJz (pos.length + 8) target), some target)
  compile_halt (s) {instr : Instruction} (h : instr.opcode = .halt) : compileInstr s instr = some s
  mulLength : Nat
  xasLength : Nat
  mul_length (x : Mul) : (mul x).length = mulLength
  xas_length (x : Xas) : (xas x).length = xasLength
  short : 24 + 3 * (mulLength + xasLength) ≤ 128

def regForm : Form where
  compileInstr := compileInstrReg
  mul := mulReg
  xas := xasReg
  compile_mul := compileInstrReg_mul
  compile_xas := compileInstrReg_xas
  compile_rmcg pos target x := by
    simp only [compileInstrReg, Rmcg.instruction, compileRmcg, rmcgBody, List.append_assoc]
    rfl
  compile_branch pos target instr h := by
    simp only [compileInstrReg, h, List.length_append, List.append_assoc]
    rfl
  compile_halt s instr h := by simp only [compileInstrReg, h, pure]
  mulLength := 8
  xasLength := 7
  mul_length _ := rfl
  xas_length _ := rfl
  short := by decide

def memForm : Form where
  compileInstr := compileInstrMem
  mul := mulMem
  xas := xasMem
  compile_mul := compileInstrMem_mul
  compile_xas := compileInstrMem_xas
  compile_rmcg pos target x := by
    simp only [compileInstrMem, Rmcg.instruction, compileRmcg, rmcgBody, List.append_assoc]
    rfl
  compile_branch pos target instr h := by
    simp only [compileInstrMem, h, List.length_append, List.append_assoc]
    rfl
  compile_halt s instr h := by simp only [compileInstrMem, h, pure]
  mulLength := 17
  xasLength := 16
  mul_length _ := rfl
  xas_length _ := rfl
  short := by decide

namespace Form

variable (form : Form) (t : Layout)

/-- The instructions 1 to 6. -/
def bodyCode : List Byte :=
  form.xas t.xas1 ++ (form.mul t.mul2 ++ (form.xas t.xas3 ++ (form.mul t.mul4 ++
    (form.xas t.xas5 ++ form.mul t.mul6))))

/-- The distance of the jump from the loop head. -/
def loopLength : Nat := 24 + 3 * (form.mulLength + form.xasLength)

theorem bodyCode_length : (form.bodyCode t).length = 3 * (form.mulLength + form.xasLength) := by
  unfold bodyCode
  simp only [List.length_append, form.mul_length, form.xas_length]
  omega

def programCode : List Byte :=
  codeTarget ++ (rmcgBody t.rmcg0 ++ (form.bodyCode t ++ (codeBranch ++
    (emitJz form.loopLength 0 ++ form.xas t.xas8))))

/-- The offset of a jump depends on the distance alone. -/
theorem emitJz_shift (pos start : Nat) : emitJz (start + pos) start = emitJz pos 0 := by
  have h : u32 start - u32 (start + pos) = u32 0 - u32 pos := by
    rw [u32, u32, u32, u32, BitVec.ofNat_add]
    simp
  rw [emitJz, emitJz, h]

section Compile

variable {program : Program} (h : t.Describes program) (pos : List Byte)
include h

/-- The write pointer and the target in front of the branch. -/
theorem compile_front : forLoopM 7 (fun s i => form.compileInstr s program[i.castLE (m := 10) (by decide)])
    (pos, none) = some (pos ++ (codeTarget ++ (rmcgBody t.rmcg0 ++ form.bodyCode t)), some pos.length) := by
  have hrmcg {pos target} {instr : Instruction} {x : Rmcg} (hx : instr = x.instruction) :
      form.compileInstr (pos, target) instr =
        some (pos ++ (codeTarget ++ rmcgBody x), some pos.length) := hx ▸ form.compile_rmcg _ _ _
  have hmul {pos target} {instr : Instruction} {x : Mul} (hx : instr = x.instruction) :
      form.compileInstr (pos, target) instr = some (pos ++ form.mul x, target) :=
    hx ▸ form.compile_mul _ _ _
  have hxas {pos target} {instr : Instruction} {x : Xas} (hx : instr = x.instruction) :
      form.compileInstr (pos, target) instr = some (pos ++ form.xas x, target) :=
    hx ▸ form.compile_xas _ _ _
  have hloop := forLoopM_first
    (f := fun s (i : Fin 7) => form.compileInstr s program[i.castLE (m := 10) (by decide)])
    (a := (pos, none)) (hrmcg h.code0) <|
    forLoopM_first (hxas h.code1) <| forLoopM_first (hmul h.code2) <|
    forLoopM_first (hxas h.code3) <| forLoopM_first (hmul h.code4) <|
    forLoopM_first (hxas h.code5) <| forLoopM_first (hmul h.code6) rfl
  rw [hloop]
  simp only [bodyCode, List.append_assoc]

/-- A program that holds a layout compiles to the code of the layout. -/
theorem compile_eq : (forLoopM 10 (fun s i => form.compileInstr s program[i]) (pos, none)).map Prod.fst =
    some (pos ++ form.programCode t) := by
  have hfront := form.compile_front t h pos
  have hlast {pos target} : form.compileInstr (pos, target) program[8] =
      some (pos ++ form.xas t.xas8, target) := by
    rw [h.code8]
    exact form.compile_xas _ _ _
  have hloop : forLoopM 10 (fun s i => form.compileInstr s program[i]) (pos, none) =
      (((forLoopM 7 (fun s i => form.compileInstr s program[i.castLE (m := 10) (by decide)])
        (pos, none)).bind fun s => form.compileInstr s program[7]).bind fun s =>
          form.compileInstr s program[8]).bind fun s => form.compileInstr s program[9] := rfl
  have htarget : codeTarget.length = 5 := rfl
  have hbody : (rmcgBody t.rmcg0).length = 11 := rfl
  have hjump : pos.length + (5 + (11 + (form.bodyCode t).length)) + 8 = pos.length + form.loopLength := by
    rw [loopLength, form.bodyCode_length]
    omega
  rw [hloop, hfront, Option.bind_some, form.compile_branch _ _ h.branch, Option.bind_some, hlast,
    Option.bind_some, form.compile_halt _ h.halt, Option.map_some]
  simp only [List.length_append, htarget, hbody, hjump, emitJz_shift]
  simp only [programCode, List.append_assoc]

end Compile

end Form

/-! ## The loop head, RMCG and the branch -/

section Pieces

variable (access : Access)

/-- `b` branches are left at the loop head behind the test: the flag says which register
counts the others. -/
structure Head (v₀ : Machine) (b : Nat) (f : RegFile) (v : Machine) : Prop where
  le : b ≤ 32
  count : ∃ z, v.zf = some z ∧ (if z then v.rbp else v.rbx).setWidth 32 = BitVec.ofNat 32 (32 - b)
  file : v.file = f
  fixed : Fixed v₀ v

/-- `b` branches are left between two programs. -/
structure Ready (v₀ : Machine) (b : Nat) (f : RegFile) (v : Machine) : Prop where
  le : b ≤ 32
  rbx : v.rbx = BitVec.ofNat 64 (32 - b)
  rbp : v.rbp.setWidth 32 ≠ 0#32
  file : v.file = f
  fixed : Fixed v₀ v

/-- `b` branches are left behind the loop. -/
structure Left (v₀ : Machine) (b : Nat) (f : RegFile) (v : Machine) : Prop where
  le : b ≤ 32
  rbx : v.rbx = BitVec.ofNat 64 (32 - b)
  rbp : v.rbp = BitVec.ofNat 64 (33 - b)
  file : v.file = f
  fixed : Fixed v₀ v

theorem Left.ready {v₀ : Machine} {b : Nat} {f : RegFile} {v : Machine} (h : Left v₀ b f v) :
    Ready v₀ b f v := by
  refine ⟨h.le, h.rbx, ?_, h.file, h.fixed⟩
  have hle := h.le
  rw [h.rbp]
  intro hzero
  have hval := congrArg BitVec.toNat hzero
  simp only [BitVec.toNat_setWidth, BitVec.toNat_ofNat] at hval
  omega

def codeTest : List Byte := [0x85, 0xed]
def codeCmov : List Byte := [0x0f, 0x44, 0xdd]

theorem decode_test :
    decode codeTest = some (.test .dword (.reg rbp) (.reg rbp), []) := rfl

theorem decode_cmov : decode codeCmov = some (.cmovz .dword rbx (.reg rbp), []) := rfl

theorem assembles_branch : (isa access).Assembles [.alu .or .dword (.reg rdx) (.reg rbx),
    .lea .dword rbp ⟨rbx, none, 1⟩, .testByte rdx 32] codeBranch := assembles (by decide +kernel)

/-- Entered from above, the head finds a counter `ebp` that is not zero. -/
theorem straight_test (v₀ : Machine) (b : Nat) (f : RegFile) :
    (isa access).Straight Machine.state (Ready v₀ b f) codeTest fun _ v' => Head v₀ b f v' := by
  refine ⟨_, .single (encodes decode_test), fun v hv =>
    ⟨{ v with zf := some false }, ?_, hv.le, ⟨false, rfl, ?_⟩, hv.file,
      ⟨hv.fixed.rcx, hv.fixed.rsp, hv.fixed.consts, hv.fixed.mem⟩⟩⟩
  · have hz : (Size.dword.trunc v.rbp == 0#64) = false := by
      refine beq_false_of_ne fun h => hv.rbp ?_
      have hlow := congrArg (BitVec.setWidth 32) h
      simpa [Size.trunc] using hlow
    simp [Isa.execAll, isa, exec, State.read, hz]
  · simp only [hv.rbx, Bool.false_eq_true, if_false, BitVec.setWidth_ofNat_of_le (show 32 ≤ 64 by decide)]

/-- Both ways into the head leave the number of spent branches in `rbx`. -/
theorem straight_cmov (v₀ : Machine) (b : Nat) (f : RegFile) :
    (isa access).Straight Machine.state (Head v₀ b f) codeCmov fun v v' =>
      v' = { v with rbx := BitVec.ofNat 64 (32 - b) } := by
  refine ⟨_, .single (encodes decode_cmov), fun v hv => ⟨_, ?_, rfl⟩⟩
  obtain ⟨z, hz, hcount⟩ := hv.count
  have hle : 32 - b < 2 ^ 32 := by omega
  have htrunc : Size.dword.trunc (if z then Size.dword.trunc v.rbp else v.rbx) =
      BitVec.ofNat 64 (32 - b) := by
    have hsel : (if z then Size.dword.trunc v.rbp else v.rbx).setWidth 32 = BitVec.ofNat 32 (32 - b) := by
      rw [← hcount]
      cases z <;> simp [Size.trunc]
    rw [Size.trunc, hsel, BitVec.setWidth_ofNat_of_le_of_lt (by decide) hle]
  simp [Isa.execAll, isa, exec, State.read, hz, htrunc]

theorem assembles_rmcg (x : Rmcg) : (isa access).Assembles
    [.imul (vreg x.dst) (.reg (creg x.src)), .shift .ror (.reg (vreg x.dst)) x.imm,
      .mov .qword (.reg rdx) (.reg (vreg x.dst))] (rmcgBody x) :=
  .cons (encodes (decode_imul_const x.dst x.src)) <|
    .cons (encodes (decode_shift .ror x.dst (Nat.lt_succ_of_le x.imm_le)))
      (.single (encodes (decode_operands x.dst x.dst).2.2.2))

/-- RMCG, with the branch flag in `rdx`. -/
theorem straight_rmcg (x : Rmcg) :
    (isa access).Straight Machine.state (fun _ => True) (rmcgBody x) fun v v' =>
      v'.file = x.exec v.consts v.file ∧ v'.rdx = x.value v.consts v.file ∧ v'.rbx = v.rbx ∧
        Fixed v v' := by
  have hrot (d : Word) : ShiftOp.ror.apply d x.imm = BitRotate.rotr d x.imm :=
    (BitRotate.rotr_eq_rotateRight d (Nat.lt_succ_of_le x.imm_le)).symm
  refine ⟨_, assembles_rmcg access x, fun v _ => ⟨_, (Isa.execAll_cons (exec_imul_const access v _ _)).trans <|
    (Isa.execAll_cons (exec_shift access _ _ _ _)).trans
      (Isa.execAll_cons (exec_mov_rdx access _ _)), ?_, ?_, rfl, ⟨rfl, rfl, rfl, rfl⟩⟩⟩
  · simp only [Function.update_idem, Function.update_self, hrot]
    rfl
  · simp only [Function.update_self, hrot]
    rfl

/-- The bit that the branch tests: bit 5 of the flag, or of the count of spent branches. -/
theorem branch_bit (m : Word) {b : Nat} (hb : b ≤ 32) :
    ((m ||| BitVec.ofNat 64 (32 - b)).setWidth 8 &&& 32#8 == 0#8) = (!m.getLsbD 5 && b != 0) := by
  have h32 : 32#8 = BitVec.twoPow 8 5 := rfl
  have hne : (BitVec.twoPow 8 5 == 0#8) = false := by decide
  have hbit : ((m ||| BitVec.ofNat 64 (32 - b)).setWidth 8).getLsbD 5 = (m.getLsbD 5 || b == 0) := by
    rw [BitVec.getLsbD_setWidth, flag_or_spent m hb]
    rfl
  rw [h32, BitVec.and_twoPow, hbit, bne]
  cases m.getLsbD 5 <;> cases b == 0 <;> simp [hne]

theorem exec_or (v : Machine) : (isa access).exec (.alu .or .dword (.reg X86.rdx) (.reg X86.rbx)) v.state =
    some (.fall, { v with rdx := Size.dword.trunc (v.rdx ||| v.rbx)
                          zf := some (Size.dword.trunc (v.rdx ||| v.rbx) == 0) }.state) := by
  have hor : Size.dword.trunc (AluOp.or.apply (Size.dword.trunc v.rdx) (Size.dword.trunc v.rbx)) =
      Size.dword.trunc (v.rdx ||| v.rbx) := by
    simp [Size.trunc, AluOp.apply]
  simp [isa, exec, State.read, State.write, hor]

theorem exec_lea (v : Machine) : (isa access).exec (.lea .dword X86.rbp ⟨X86.rbx, none, 1⟩) v.state =
    some (.fall, { v with rbp := Size.dword.trunc (v.rbx + 1) }.state) := by
  simp [isa, exec, State.address]

theorem exec_testByte (v : Machine) : (isa access).exec (.testByte X86.rdx 32) v.state =
    some (.fall, { v with zf := some (v.rdx.setWidth 8 &&& 32 == 0) }.state) := by
  simp [isa, exec]

/-- The branch tests bit 5 of the result of RMCG and of the count together. -/
theorem straight_branch (b : Nat) :
    (isa access).Straight Machine.state
      (fun v => b ≤ 32 ∧ v.rbx = BitVec.ofNat 64 (32 - b)) codeBranch fun v v' =>
      v'.zf = some (!v.rdx.getLsbD 5 && b != 0) ∧ v'.rbx = v.rbx ∧
        v'.rbp = BitVec.ofNat 64 (33 - b) ∧ v'.file = v.file ∧ Fixed v v' := by
  refine ⟨_, assembles_branch access, fun v ⟨hb, hrbx⟩ => ⟨_,
    (Isa.execAll_cons (exec_or access v)).trans <| (Isa.execAll_cons (exec_lea access _)).trans <|
      Isa.execAll_cons (exec_testByte access _), ?_, rfl, ?_, rfl, ⟨rfl, rfl, rfl, rfl⟩⟩⟩
  · have hbyte : (Size.dword.trunc (v.rdx ||| v.rbx)).setWidth 8 = (v.rdx ||| v.rbx).setWidth 8 := by
      simp [Size.trunc]
    simp only [hbyte]
    rw [hrbx]
    exact congrArg some (branch_bit v.rdx hb)
  · have hsucc : BitVec.ofNat 64 (32 - b) + 1 = BitVec.ofNat 64 (33 - b) := by
      have h33 : 33 - b = 32 - b + 1 := by omega
      rw [h33, BitVec.ofNat_add]
      rfl
    have hlt : 33 - b < 2 ^ 32 := by omega
    simp only [hrbx, hsucc, Size.trunc, BitVec.setWidth_ofNat_of_le (show 32 ≤ 64 by decide)]
    exact BitVec.setWidth_ofNat_of_le_of_lt (by decide) hlt

end Pieces

/-! ## Runs of a program -/

section Run

variable {access : Access} {ctx : Word → Bytes 64 → Prop} {ld : Word → Word} {form : Form}
  {t : Layout}

/-- From the loop head to the jump. -/
def Form.loopCode (form : Form) (t : Layout) : List Byte :=
  codeCmov ++ (rmcgBody t.rmcg0 ++ (form.bodyCode t ++ codeBranch))

theorem Form.programCode_eq (form : Form) (t : Layout) : form.programCode t =
    codeTest ++ (form.loopCode t ++ emitJz form.loopLength 0 ++ form.xas t.xas8) := by
  simp only [programCode, loopCode, List.append_assoc]
  rfl

theorem Form.loopCode_length (form : Form) (t : Layout) :
    (form.loopCode t).length + 2 = form.loopLength := by
  have hcmov : codeCmov.length = 3 := rfl
  have hbody : (rmcgBody t.rmcg0).length = 11 := rfl
  have hbranch : codeBranch.length = 8 := rfl
  simp only [loopCode, bodyCode, List.length_append, form.mul_length, form.xas_length, hcmov, hbody,
    hbranch, loopLength]
  omega

/-- A jump back over less than 128 bytes is the short one. -/
theorem decode_jz : ∀ n : Fin 128,
    decode (emitJz (n + 1) 0) = some (.jz (BitVec.ofInt 64 (-(n + 1))), []) ∧
      (emitJz (n + 1) 0).length = 2 := by decide +kernel

/-- The jump is short. -/
theorem Form.jz (form : Form) :
    decode (emitJz form.loopLength 0) = some (.jz (BitVec.ofInt 64 (-form.loopLength)), []) ∧
      (emitJz form.loopLength 0).length = 2 ∧
        (BitVec.ofInt 64 (-form.loopLength)).toInt = -form.loopLength := by
  have hshort : form.loopLength ≤ 128 := form.short
  have hpos : 24 ≤ form.loopLength := Nat.le_add_right _ _
  have h := decode_jz ⟨form.loopLength - 1, by omega⟩
  have hn : form.loopLength - 1 + 1 = form.loopLength := by omega
  have hint : ((form.loopLength - 1 : Nat) : Int) + 1 = form.loopLength := by omega
  simp only [hn, hint] at h
  refine ⟨h.1, h.2, ?_⟩
  rw [BitVec.toInt_ofInt, Int.bmod_eq_of_le] <;> omega

/-- What a pass leaves in front of the jump. -/
structure Passed (v₀ : Machine) (b : Nat) (r : Bool × RegFile) (v : Machine) : Prop where
  zf : v.zf = some (r.1 && b != 0)
  rbx : v.rbx = BitVec.ofNat 64 (32 - b)
  rbp : v.rbp = BitVec.ofNat 64 (33 - b)
  file : v.file = r.2
  fixed : Fixed v₀ v

section Pass

variable {v₀ : Machine} (hbody : Computes access ctx (form.bodyCode t) (t.body ld))
  (hctx : ctx v₀.rsp v₀.mem)
include hbody hctx

/-- One pass of the loop. -/
theorem straight_pass (b : Nat) (f : RegFile) :
    (isa access).Straight Machine.state (Head v₀ b f) (form.loopCode t) fun _ v' =>
      Passed v₀ b (t.pass ld v₀.consts f) v' := by
  obtain ⟨is₁, his₁, hcmov⟩ := straight_cmov access v₀ b f
  obtain ⟨is₂, his₂, hrmcg⟩ := straight_rmcg access t.rmcg0
  obtain ⟨is₃, his₃, hmid⟩ := hbody
  obtain ⟨is₄, his₄, hbranch⟩ := straight_branch access b
  refine ⟨_, his₁.append (his₂.append (his₃.append his₄)), fun v hv => ?_⟩
  obtain ⟨v₁, hx₁, rfl⟩ := hcmov v hv
  obtain ⟨v₂, hx₂, hfile₂, hrdx₂, hrbx₂, hfixed₂⟩ := hrmcg { v with rbx := BitVec.ofNat 64 (32 - b) } trivial
  simp only [hv.file, hv.fixed.consts] at hfile₂ hrdx₂ hrbx₂
  have hfixed : Fixed v₀ v₂ := hv.fixed.trans ⟨hfixed₂.rcx, hfixed₂.rsp, hfixed₂.consts, hfixed₂.mem⟩
  have hctx₂ : ctx v₂.rsp v₂.mem := by
    rw [hfixed.rsp, hfixed.mem]
    exact hctx
  obtain ⟨v₃, hx₃, hfile₃, hkeeps₃⟩ := hmid v₂ hctx₂
  obtain ⟨v₄, hx₄, hzf₄, hrbx₄, hrbp₄, hfile₄, hfixed₄⟩ :=
    hbranch v₃ ⟨hv.le, hkeeps₃.rbx.trans hrbx₂⟩
  refine ⟨v₄, Isa.execAll_trans hx₁ (Isa.execAll_trans hx₂ (Isa.execAll_trans hx₃ hx₄)), ?_, ?_,
    hrbp₄, ?_, hfixed.trans (hkeeps₃.toFixed.trans hfixed₄)⟩
  · rw [hzf₄, hkeeps₃.rdx, hrdx₂]
    rfl
  · rw [hrbx₄, hkeeps₃.rbx, hrbx₂]
  · rw [hfile₄, hfile₃, hfile₂]
    rfl

variable {code : List Byte} {pc : Nat}

/-- From one loop head to the next, or out of the loop. -/
theorem pass_runs (hcode : Isa.CodeAt code pc (form.loopCode t ++ emitJz form.loopLength 0))
    {b : Nat} {f : RegFile} {v : Machine} (hv : Head v₀ b f v) :
    ∃ v', Passed v₀ b (t.pass ld v₀.consts f) v' ∧
      if b ≠ 0 ∧ (t.pass ld v₀.consts f).1 = true then
        (isa access).Runs code 1 ⟨.inside pc, v.state⟩ ⟨.inside pc, v'.state⟩
      else (isa access).Runs code 0 ⟨.inside pc, v.state⟩ ⟨.inside (pc + form.loopLength), v'.state⟩ := by
  obtain ⟨hloop, hjz⟩ := Isa.codeAt_append.mp hcode
  obtain ⟨hdecode, hlen, hoffset⟩ := form.jz
  obtain ⟨v', hruns, hpassed⟩ := (straight_pass hbody hctx b f).runs hloop hv
  refine ⟨v', hpassed, ?_⟩
  have hexec : (isa access).exec (.jz (BitVec.ofInt 64 (-form.loopLength))) v'.state =
      some (if (t.pass ld v₀.consts f).1 && b != 0 then .jump (-form.loopLength) else .fall, v'.state) := by
    simp only [isa, exec, Machine.zf_state, hpassed.zf, bind, Option.bind_some, hoffset, pure]
  have hback : ((pc + (form.loopCode t).length + (emitJz form.loopLength 0).length : Nat) : Int) +
      -form.loopLength = pc := by
    have := form.loopCode_length t
    omega
  split
  · next h =>
    rw [h.2, Bool.true_and, bne_iff_ne.mpr h.1, if_pos rfl] at hexec
    exact hruns.trans (Isa.runs_jump hjz (encodes hdecode) hexec hback)
  · next h =>
    have hfall : ((t.pass ld v₀.consts f).1 && b != 0) = false := by
      rw [Bool.and_comm]
      simpa using h
    rw [hfall, if_neg Bool.false_ne_true] at hexec
    have hfwd : pc + (form.loopCode t).length + (emitJz form.loopLength 0).length =
        pc + form.loopLength := by
      have := form.loopCode_length t
      omega
    rw [← hfwd]
    exact hruns.trans (Isa.runs_fall hjz (encodes hdecode) hexec)

/-- The loop of a program takes one jump for every branch that it spends. -/
theorem loop_runs (hcode : Isa.CodeAt code pc (form.loopCode t ++ emitJz form.loopLength 0))
    {b : Nat} {f : RegFile} {v : Machine} (hv : Head v₀ b f v) :
    let u := BoundedLoop.run (t.pass ld v₀.consts) b f
    ∃ v', (isa access).Runs code (b - u.2) ⟨.inside pc, v.state⟩
      ⟨.inside (pc + form.loopLength), v'.state⟩ ∧ Left v₀ u.2 u.1 v' := by
  intro u
  have hagain : ∀ b f cfg, Isa.At Machine.state pc (Head v₀ b f) cfg → b ≠ 0 →
      (t.pass ld v₀.consts f).1 = true → ∃ cfg', (isa access).Runs code 1 cfg cfg' ∧
        Isa.At Machine.state pc (Head v₀ (b - 1) (t.pass ld v₀.consts f).2) cfg' := by
    rintro b f _ ⟨v, rfl, hv⟩ hb htrue
    obtain ⟨v', hpassed, hruns⟩ := pass_runs hbody hctx hcode hv
    rw [if_pos ⟨hb, htrue⟩] at hruns
    have hle := hv.le
    have hcount : 33 - b = 32 - (b - 1) := by omega
    refine ⟨_, hruns, v', rfl, by omega, ⟨true, ?_, ?_⟩, hpassed.file, hpassed.fixed⟩
    · rw [hpassed.zf, htrue, bne_iff_ne.mpr hb]
      rfl
    · rw [if_pos rfl, hpassed.rbp, BitVec.setWidth_ofNat_of_le (by decide), hcount]
  have hstop : ∀ b f cfg, Isa.At Machine.state pc (Head v₀ b f) cfg →
      ¬(b ≠ 0 ∧ (t.pass ld v₀.consts f).1 = true) → ∃ cfg', (isa access).Runs code 0 cfg cfg' ∧
        Isa.At Machine.state (pc + form.loopLength) (Left v₀ b (t.pass ld v₀.consts f).2) cfg' := by
    rintro b f _ ⟨v, rfl, hv⟩ hfalse
    obtain ⟨v', hpassed, hruns⟩ := pass_runs hbody hctx hcode hv
    rw [if_neg hfalse] at hruns
    exact ⟨_, hruns, v', rfl, hv.le, hpassed.rbx, hpassed.rbp, hpassed.file, hpassed.fixed⟩
  obtain ⟨_, hruns, v', rfl, hleft⟩ := BoundedLoop.run_simulated (t.pass ld v₀.consts)
    (fun b f => Isa.At Machine.state pc (Head v₀ b f))
    (fun b f => Isa.At Machine.state (pc + form.loopLength) (Left v₀ b f))
    WeightedRun.Run.trans hagain hstop b f _ ⟨v, rfl, hv⟩
  rw [smul_eq_mul, Nat.mul_one, Nat.add_zero] at hruns
  exact ⟨v', hruns, hleft⟩

/-- **A compiled program computes what its layout means**, whatever the registers hold. -/
theorem program_runs (hxas : Computes access ctx (form.xas t.xas8) (t.xas8.exec ld))
    (hcode : Isa.CodeAt code pc (form.programCode t)) {b : Nat} {f : RegFile} {v : Machine}
    (hv : Ready v₀ b f v) :
    let u := t.run ld v₀.consts (f, b)
    ∃ v', (isa access).Runs code (b - u.2) ⟨.inside pc, v.state⟩
      ⟨.inside (pc + (form.programCode t).length), v'.state⟩ ∧ Left v₀ u.2 u.1 v' := by
  intro u
  rw [form.programCode_eq] at hcode ⊢
  obtain ⟨htest, hcode⟩ := Isa.codeAt_append.mp hcode
  obtain ⟨hloop, hlast⟩ := Isa.codeAt_append.mp hcode
  obtain ⟨v₁, hruns₁, hhead⟩ := (straight_test access v₀ b f).runs htest hv
  obtain ⟨v₂, hruns₂, hleft⟩ := loop_runs hbody hctx hloop hhead
  have hctx₂ : ctx v₂.rsp v₂.mem := by
    rw [hleft.fixed.rsp, hleft.fixed.mem]
    exact hctx
  have hlen : (form.loopCode t ++ emitJz form.loopLength 0).length = form.loopLength := by
    rw [List.length_append, form.jz.2.1, form.loopCode_length]
  rw [hlen] at hlast
  obtain ⟨v₃, hruns₃, hfile, hkeeps⟩ := hxas.runs hlast hctx₂
  have hruns := hruns₁.trans (hruns₂.trans hruns₃)
  rw [Nat.zero_add, Nat.add_zero] at hruns
  refine ⟨v₃, ?_, hleft.le, hkeeps.rbx.trans hleft.rbx, hkeeps.rbp.trans hleft.rbp, ?_,
    hleft.fixed.trans hkeeps.toFixed⟩
  · rw [List.length_append, List.length_append, hlen, ← Nat.add_assoc, ← Nat.add_assoc]
    exact hruns
  · rw [hfile, hleft.file]
    rfl

end Pass

end Run

end HashWX.CompilerX86
