import HashWX.X86.Compiler
import HashWX.X86.Registers
import HashWX.Exec.Scratchpad

/-!
# The code of one instruction

The bytes that the compiler emits for each family of instructions, what they decode to,
and what they do to the register file.
-/

namespace HashWX.CompilerX86

open X86 ByteMemory
open FinArray (load)
open CodeMachine

/-! ## Bytes -/

def MulOp.template : MulOp → BitVec 32
  | .or => 0x00c88349
  | .xor => 0x00f08349
  | .add => 0x00c08349

def PreOp.template : PreOp → BitVec 32
  | .ror => 0x00c8c149
  | .asr => 0x00f8c149
  | .lsr => 0x00e8c149

def PostOp.templateReg : PostOp → BitVec 16
  | .xor => 0xc031
  | .add => 0xc001
  | .sub => 0xc029

def PostOp.templateMem : PostOp → BitVec 32
  | .xor => 0x0404334c
  | .add => 0x0404034c
  | .sub => 0x04042b4c

def mulReg (x : Mul) : List Byte :=
  emitOpImm (MulOp.template x.op) x.dst x.imm ++ emitImulReg4d x.dst x.src

def xasReg (x : Xas) : List Byte :=
  emitOpImm (PreOp.template x.pre) x.dst x.imm ++ emitOpReg4d (PostOp.templateReg x.post) x.dst x.src

def mulMem (x : Mul) : List Byte :=
  emitOpReg4c 0xc089 0 x.src ++ (emitOpImm (MulOp.template x.op) x.dst x.imm ++
    (codeAddress ++ emitImulMem x.dst))

def xasMem (x : Xas) : List Byte :=
  emitOpReg4c 0xc089 0 x.src ++ (emitOpImm (PreOp.template x.pre) x.dst x.imm ++
    (codeAddress ++ emitOpMem (PostOp.templateMem x.post) x.dst))

/-- The code of RMCG behind `codeTarget`. -/
def rmcgBody (x : Rmcg) : List Byte :=
  emitImulReg4c x.dst (u32 (8 + x.src) - 2).toNat ++ (emitOpImm 0x00c8c149 x.dst x.imm ++
    emitOpReg4c 0xc089 2 x.dst)

section Compile

variable (pos : List Byte) (target : Option Nat)

theorem compileInstrReg_mul (x : Mul) :
    compileInstrReg (pos, target) x.instruction = some (pos ++ mulReg x, target) := by
  rw [mulReg, ← List.append_assoc]
  cases h : x.op <;> simp only [compileInstrReg, Mul.instruction, h, MulOp.opcode] <;> rfl

theorem compileInstrReg_xas (x : Xas) :
    compileInstrReg (pos, target) x.instruction = some (pos ++ xasReg x, target) := by
  rw [xasReg, ← List.append_assoc]
  cases hpre : x.pre <;> cases hpost : x.post <;>
    simp only [compileInstrReg, Xas.instruction, hpre, hpost, xasOpcode] <;> rfl

theorem compileInstrMem_mul (x : Mul) :
    compileInstrMem (pos, target) x.instruction = some (pos ++ mulMem x, target) := by
  simp only [mulMem, ← List.append_assoc]
  cases h : x.op <;> simp only [compileInstrMem, Mul.instruction, h, MulOp.opcode] <;> rfl

theorem compileInstrMem_xas (x : Xas) :
    compileInstrMem (pos, target) x.instruction = some (pos ++ xasMem x, target) := by
  simp only [xasMem, ← List.append_assoc]
  cases hpre : x.pre <;> cases hpost : x.post <;>
    simp only [compileInstrMem, Xas.instruction, hpre, hpost, xasOpcode] <;> rfl

end Compile

/-! ## Decoding -/

/-- The top byte of a template is the immediate. -/
theorem le32_or_high {x : BitVec 32} (hx : x >>> 24 = 0#32) (imm : Nat) :
    le32 (x ||| u32 imm <<< 24) =
      [x.setWidth 8, (x >>> 8).setWidth 8, (x >>> 16).setWidth 8, BitVec.ofNat 8 imm] := by
  have hlow (k : Nat) (hk : k ≤ 16) :
      ((x ||| u32 imm <<< 24) >>> k).setWidth 8 = (x >>> k).setWidth 8 := by
    ext i hi
    simp
    omega
  have hhigh : ((x ||| u32 imm <<< 24) >>> 24).setWidth 8 = BitVec.ofNat 8 imm := by
    rw [BitVec.ushiftRight_or_distrib, hx, BitVec.zero_or]
    apply BitVec.eq_of_toNat_eq
    simp only [u32, BitVec.toNat_setWidth, BitVec.toNat_ushiftRight, BitVec.toNat_shiftLeft,
      BitVec.toNat_ofNat, Nat.shiftLeft_eq, Nat.shiftRight_eq_div_pow]
    omega
  have h0 := hlow 0 (by decide)
  rw [BitVec.ushiftRight_zero, BitVec.ushiftRight_zero] at h0
  rw [le32, h0, hlow 8 (by decide), hlow 16 (by decide), hhigh]

def MulOp.alu : MulOp → AluOp
  | .or => .or
  | .xor => .xor
  | .add => .add

def PreOp.shift : PreOp → ShiftOp
  | .ror => .ror
  | .asr => .sar
  | .lsr => .shr

def PostOp.alu : PostOp → AluOp
  | .xor => .xor
  | .add => .add
  | .sub => .sub

/-- `qword ptr [rsp+rax]`. -/
def scratchWord : Operand := .mem ⟨rsp, some (rax, 0), 0⟩

/-- The immediates are sign-extended bytes, and 1, 9 and 33 have no sign bit. -/
theorem decode_alu_imm (op : MulOp) (dst : Fin 8) {imm : Nat} (himm : imm = 1 ∨ imm = 9 ∨ imm = 33) :
    decode (emitOpImm (MulOp.template op) dst imm) =
      some (.alu (MulOp.alu op) .qword (.reg (vreg dst)) (.imm (BitVec.ofNat 64 imm)), []) := by
  rcases himm with rfl | rfl | rfl <;> cases op <;> revert dst <;> decide +kernel

theorem decode_shift (op : PreOp) (dst : Fin 8) {imm : Nat} (himm : imm < 64) :
    decode (emitOpImm (PreOp.template op) dst imm) =
      some (.shift (PreOp.shift op) (.reg (vreg dst)) imm, []) := by
  have hhigh : (PreOp.template op ||| u32 dst <<< 16) >>> 24 = 0 := by
    revert dst
    cases op <;> decide +kernel
  have hbyte (v : Byte) : decode [(PreOp.template op ||| u32 dst <<< 16).setWidth 8,
      ((PreOp.template op ||| u32 dst <<< 16) >>> 8).setWidth 8,
      ((PreOp.template op ||| u32 dst <<< 16) >>> 16).setWidth 8, v] =
      some (.shift (PreOp.shift op) (.reg (vreg dst)) (v.toNat % 64), []) := by
    cases op <;> fin_cases dst <;> rfl
  have hcount : (BitVec.ofNat 8 imm).toNat % 64 = imm := by
    rw [BitVec.toNat_ofNat]
    omega
  rw [emitOpImm, le32_or_high hhigh, hbyte, hcount]

/-- Every pair of registers is tried. -/
theorem decode_operands : ∀ dst src : Fin 8,
    decode (emitImulReg4d dst src) = some (.imul (vreg dst) (.reg (vreg src)), []) ∧
    decode (emitImulMem dst) = some (.imul (vreg dst) scratchWord, []) ∧
    decode (emitOpReg4c 0xc089 0 src) = some (.mov .qword (.reg rax) (.reg (vreg src)), []) ∧
    decode (emitOpReg4c 0xc089 2 src) = some (.mov .qword (.reg rdx) (.reg (vreg src)), []) := by
  decide +kernel

theorem decode_imul_const : ∀ (dst : Fin 8) (src : Fin 2),
    decode (emitImulReg4c dst (u32 (8 + src) - 2).toNat) =
      some (.imul (vreg dst) (.reg (creg src)), []) := by decide +kernel

theorem decode_alu (op : PostOp) : ∀ dst src : Fin 8,
    decode (emitOpReg4d (PostOp.templateReg op) dst src) =
      some (.alu (PostOp.alu op) .qword (.reg (vreg dst)) (.reg (vreg src)), []) ∧
    decode (emitOpMem (PostOp.templateMem op) dst) =
      some (.alu (PostOp.alu op) .qword (.reg (vreg dst)) scratchWord, []) := by
  cases op <;> decide +kernel

theorem decode_address :
    decode codeAddress = some (.alu .and .dword (.reg rax) (.imm 2040), []) := rfl

/-! ## Execution -/

section Exec

variable (access : Access) (v : Machine)

/-- An operation with an immediate changes the destination, and the flag of its result. -/
theorem exec_alu_imm (op : AluOp) (dst : Fin 8) (n : Word) :
    (isa access).exec (.alu op .qword (.reg (vreg dst)) (.imm n)) v.state =
      some (.fall, { v with file := Function.update v.file dst (op.apply (v.file dst) n)
                            zf := some (op.apply (v.file dst) n == 0) }.state) := by
  simp [isa, exec, State.read, State.write, Size.trunc]

theorem exec_alu_reg (op : AluOp) (dst src : Fin 8) :
    (isa access).exec (.alu op .qword (.reg (vreg dst)) (.reg (vreg src))) v.state =
      some (.fall, { v with file := Function.update v.file dst (op.apply (v.file dst) (v.file src))
                            zf := some (op.apply (v.file dst) (v.file src) == 0) }.state) := by
  simp [isa, exec, State.read, State.write, Size.trunc]

theorem exec_shift (op : ShiftOp) (dst : Fin 8) (count : Nat) :
    (isa access).exec (.shift op (.reg (vreg dst)) count) v.state =
      some (.fall, { v with file := Function.update v.file dst (op.apply (v.file dst) count)
                            zf := op.zf count (op.apply (v.file dst) count) v.zf }.state) := by
  simp [isa, exec, State.read, State.write, Size.trunc]

theorem exec_imul_reg (dst src : Fin 8) :
    (isa access).exec (.imul (vreg dst) (.reg (vreg src))) v.state =
      some (.fall, { v with file := Function.update v.file dst (v.file dst * v.file src)
                            zf := none }.state) := by
  simp [isa, exec, State.read, Size.trunc]

theorem exec_imul_const (dst : Fin 8) (src : Fin 2) :
    (isa access).exec (.imul (vreg dst) (.reg (creg src))) v.state =
      some (.fall, { v with file := Function.update v.file dst (v.file dst * v.consts src)
                            zf := none }.state) := by
  simp [isa, exec, State.read, Size.trunc]

theorem exec_mov_rax (src : Fin 8) :
    (isa access).exec (.mov .qword (.reg X86.rax) (.reg (vreg src))) v.state =
      some (.fall, { v with rax := v.file src }.state) := by
  simp [isa, exec, State.read, State.write, Size.trunc]

theorem exec_mov_rdx (src : Fin 8) :
    (isa access).exec (.mov .qword (.reg X86.rdx) (.reg (vreg src))) v.state =
      some (.fall, { v with rdx := v.file src }.state) := by
  simp [isa, exec, State.read, State.write, Size.trunc]

/-- The address is masked in 32 bits, which is enough for an offset below 2048. -/
theorem and_address (a : Word) :
    Size.dword.trunc (AluOp.and.apply (Size.dword.trunc a) (Size.dword.trunc 2040#64)) = wordOffset a := by
  have hlow : a.toNat % 2 ^ 32 % 2 ^ 64 = a.toNat % 2 ^ 32 := by omega
  have hmask : 2040 % 2 ^ 64 % 2 ^ 32 % 2 ^ 64 = 2040 := rfl
  apply BitVec.eq_of_toNat_eq
  simp only [Size.trunc, AluOp.apply, wordOffset, BitVec.toNat_setWidth, BitVec.toNat_and,
    BitVec.toNat_ofNat]
  rw [hlow, hmask, and_mask]
  omega

theorem exec_address :
    (isa access).exec (.alu .and .dword (.reg X86.rax) (.imm 2040)) v.state =
      some (.fall, { v with rax := wordOffset v.rax, zf := some (wordOffset v.rax == 0) }.state) := by
  simp [isa, exec, State.read, State.write, and_address]

variable {access v}

/-- The operand in memory is the word of the scratchpad that the source addresses. -/
theorem read_scratchWord {m : Memory} (h : Scratch access m v.rsp v.mem) {a : Word}
    (hrax : v.rax = wordOffset a) : v.state.read access .qword scratchWord = some (loadWord m a) := by
  have haddr : v.state.address ⟨rsp, some (rax, 0), 0⟩ = v.rsp + wordOffset a := by
    simp [State.address, hrax]
  have hload : load64 v.mem (v.rsp + wordOffset a) = loadWord m a := h.load_offset a
  simp only [scratchWord, State.read, if_true, haddr, Split.load_eq (h.readable_offset a)]
  exact congrArg some hload

theorem exec_imul_mem {m : Memory} (h : Scratch access m v.rsp v.mem) {a : Word}
    (hrax : v.rax = wordOffset a) (dst : Fin 8) :
    (isa access).exec (.imul (vreg dst) scratchWord) v.state =
      some (.fall, { v with file := Function.update v.file dst (v.file dst * loadWord m a)
                            zf := none }.state) := by
  simp [isa, exec, read_scratchWord h hrax]

theorem exec_alu_mem {m : Memory} (h : Scratch access m v.rsp v.mem) {a : Word}
    (hrax : v.rax = wordOffset a) (op : AluOp) (dst : Fin 8) :
    (isa access).exec (.alu op .qword (.reg (vreg dst)) scratchWord) v.state =
      some (.fall, { v with file := Function.update v.file dst (op.apply (v.file dst) (loadWord m a))
                            zf := some (op.apply (v.file dst) (loadWord m a) == 0) }.state) := by
  have hread := read_scratchWord h hrax
  have hreg : v.state.read access .qword (.reg (vreg dst)) = some (v.file dst) := by
    simp [State.read, Size.trunc]
  simp [isa, exec, hread, hreg, State.write, Size.trunc]

end Exec

/-! ## What a piece of code computes -/

theorem mulOp_apply (op : MulOp) (d n : Word) : (MulOp.alu op).apply d n = op.apply d n := by
  cases op <;> rfl

theorem preOp_apply (op : PreOp) (d : Word) {n : Nat} (hn : n < 64) :
    (PreOp.shift op).apply d n = op.apply d n := by
  cases op with
  | ror => exact (BitRotate.rotr_eq_rotateRight d hn).symm
  | asr | lsr => rfl

theorem postOp_apply (op : PostOp) (d n : Word) : (PostOp.alu op).apply d n = op.apply d n := by
  cases op <;> rfl

/-- What no instruction of a program changes. -/
structure Fixed (v v' : Machine) : Prop where
  rcx : v'.rcx = v.rcx
  rsp : v'.rsp = v.rsp
  consts : v'.consts = v.consts
  mem : v'.mem = v.mem

theorem Fixed.refl (v : Machine) : Fixed v v := ⟨rfl, rfl, rfl, rfl⟩

theorem Fixed.trans {v v' v'' : Machine} (h : Fixed v v') (h' : Fixed v' v'') : Fixed v v'' :=
  ⟨h'.rcx.trans h.rcx, h'.rsp.trans h.rsp, h'.consts.trans h.consts, h'.mem.trans h.mem⟩

/-- Only R0-R7, `rax` and the flag may differ. -/
structure Keeps (v v' : Machine) : Prop extends Fixed v v' where
  rdx : v'.rdx = v.rdx
  rbx : v'.rbx = v.rbx
  rbp : v'.rbp = v.rbp

theorem Keeps.trans {v v' v'' : Machine} (h : Keeps v v') (h' : Keeps v' v'') : Keeps v v'' :=
  ⟨h.toFixed.trans h'.toFixed, h'.rdx.trans h.rdx, h'.rbx.trans h.rbx, h'.rbp.trans h.rbp⟩

/-- Straight-line code that applies `g` to R0-R7, where `rsp` and the memory are as
`ctx` says, and keeps the rest. -/
def Computes (access : Access) (ctx : Word → Bytes 64 → Prop) (bytes : List Byte)
    (g : RegFile → RegFile) : Prop :=
  (isa access).Straight Machine.state (fun v => ctx v.rsp v.mem) bytes
    fun v v' => v'.file = g v.file ∧ Keeps v v'

section Computes

variable {access : Access} {ctx : Word → Bytes 64 → Prop}

theorem Computes.append {bs cs : List Byte} {g h : RegFile → RegFile}
    (hb : Computes access ctx bs g) (hc : Computes access ctx cs h) :
    Computes access ctx (bs ++ cs) fun f => h (g f) := by
  refine Isa.Straight.append hb hc (fun v v' hv hR => ?_) (fun v v' v'' _ hR hS => ?_)
  · rw [hR.2.rsp, hR.2.mem]
    exact hv
  · exact ⟨by rw [hS.1, hR.1], hR.2.trans hS.2⟩

theorem computes_mulReg (x : Mul) (hne : x.src ≠ x.dst) :
    Computes access ctx (mulReg x) (x.exec id) := by
  refine ⟨_, .cons (encodes (decode_alu_imm x.op x.dst x.imm_mem))
    (.single (encodes (decode_operands x.dst x.src).1)), fun v _ => ⟨_,
    (Isa.execAll_cons (exec_alu_imm access v _ _ _)).trans
      (Isa.execAll_cons (exec_imul_reg access _ _ _)), ?_, ⟨⟨rfl, rfl, rfl, rfl⟩, rfl, rfl, rfl⟩⟩⟩
  simp only [Function.update_idem, Function.update_self, Function.update_of_ne hne, mulOp_apply]
  rfl

theorem computes_xasReg (x : Xas) (hne : x.src ≠ x.dst) :
    Computes access ctx (xasReg x) (x.exec id) := by
  refine ⟨_, .cons (encodes (decode_shift x.pre x.dst x.imm_lt))
    (.single (encodes (decode_alu x.post x.dst x.src).1)), fun v _ => ⟨_,
    (Isa.execAll_cons (exec_shift access v _ _ _)).trans
      (Isa.execAll_cons (exec_alu_reg access _ _ _ _)), ?_, ⟨⟨rfl, rfl, rfl, rfl⟩, rfl, rfl, rfl⟩⟩⟩
  simp only [Function.update_idem, Function.update_self, Function.update_of_ne hne,
    preOp_apply _ _ x.imm_lt, postOp_apply]
  rfl

theorem computes_mulMem (m : Memory) (x : Mul) :
    Computes access (Scratch access m) (mulMem x) (x.exec (loadWord m)) := by
  refine ⟨_, .cons (encodes (decode_operands x.dst x.src).2.2.1) <|
    .cons (encodes (decode_alu_imm x.op x.dst x.imm_mem)) <|
    .cons (encodes decode_address) (.single (encodes (decode_operands x.dst x.src).2.1)), fun v hv => ?_⟩
  refine ⟨_, (Isa.execAll_cons (exec_mov_rax access v _)).trans <|
    (Isa.execAll_cons (exec_alu_imm access _ _ _ _)).trans <|
    (Isa.execAll_cons (exec_address access _)).trans <|
    Isa.execAll_cons (exec_imul_mem (a := v.file x.src) (m := m) ?_ rfl _), ?_,
    ⟨⟨rfl, rfl, rfl, rfl⟩, rfl, rfl, rfl⟩⟩
  · exact hv
  · simp only [Function.update_idem, Function.update_self, mulOp_apply]
    rfl

theorem computes_xasMem (m : Memory) (x : Xas) :
    Computes access (Scratch access m) (xasMem x) (x.exec (loadWord m)) := by
  refine ⟨_, .cons (encodes (decode_operands x.dst x.src).2.2.1) <|
    .cons (encodes (decode_shift x.pre x.dst x.imm_lt)) <|
    .cons (encodes decode_address) (.single (encodes (decode_alu x.post x.dst x.src).2)), fun v hv => ?_⟩
  refine ⟨_, (Isa.execAll_cons (exec_mov_rax access v _)).trans <|
    (Isa.execAll_cons (exec_shift access _ _ _ _)).trans <|
    (Isa.execAll_cons (exec_address access _)).trans <|
    Isa.execAll_cons (exec_alu_mem (a := v.file x.src) (m := m) ?_ rfl _ _), ?_,
    ⟨⟨rfl, rfl, rfl, rfl⟩, rfl, rfl, rfl⟩⟩
  · exact hv
  · simp only [Function.update_idem, Function.update_self, preOp_apply _ _ x.imm_lt, postOp_apply]
    rfl

end Computes

end HashWX.CompilerX86
