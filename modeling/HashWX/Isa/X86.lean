import HashWX.Lib.CodeMachine
import HashWX.Lib.FinArray
import HashWX.Lib.GuardedMemory

/-!
# A subset of the x86-64 instruction set

Instructions on 64-bit operands, and on the 32-bit registers where the result is
extended with zeros. Only the zero flag is modelled; it is unknown after a
multiplication. Memory is accessed in words of eight bytes, and only where an access
policy permits it: an access that the policy denies is a fault.
-/

namespace X86

open ByteMemory ListReader CodeMachine

abbrev Word := BitVec 64
abbrev Reg := Fin 16

def rax : Reg := 0
def rcx : Reg := 1
def rdx : Reg := 2
def rbx : Reg := 3
def rsp : Reg := 4
def rbp : Reg := 5
def rsi : Reg := 6
def rdi : Reg := 7

inductive Size | dword | qword
deriving DecidableEq

/-- `[base + index * 2 ^ scale + disp]`. -/
structure Address where
  base : Reg
  index : Option (Reg × Nat)
  disp : Word
deriving DecidableEq

inductive Operand
  | reg (r : Reg)
  | imm (v : Word)
  | mem (a : Address)
deriving DecidableEq

inductive AluOp | add | or | and | sub | xor
deriving DecidableEq

inductive ShiftOp | ror | shr | sar
deriving DecidableEq

inductive Instr
  | push (r : Reg)
  | pop (r : Reg)
  | ret
  | jz (offset : Word)
  | mov (size : Size) (dst src : Operand)
  | lea (size : Size) (dst : Reg) (a : Address)
  | cmovz (size : Size) (dst : Reg) (src : Operand)
  | alu (op : AluOp) (size : Size) (dst src : Operand)
  | test (size : Size) (dst src : Operand)
  | testByte (r : Reg) (v : Byte)
  | imul (dst : Reg) (src : Operand)
  | shift (op : ShiftOp) (dst : Operand) (count : Nat)
deriving DecidableEq

/-! ## Decoding -/

/-- The four bits of a REX prefix. -/
structure Rex where
  w : Bool
  r : Bool
  x : Bool
  b : Bool

def Rex.size (rex : Rex) : Size := if rex.w then .qword else .dword

/-- A register number of three bits and the bit of the prefix that extends it. -/
def regOf (high : Bool) (low : Nat) : Reg := Fin.ofNat 16 (low % 8 + if high then 8 else 0)

def disp8 : Reader Byte Word := do
  let b ← next
  return b.signExtend 64

def disp32 : Reader Byte Word := do
  let b0 ← next
  let b1 ← next
  let b2 ← next
  let b3 ← next
  return (b3 ++ b2 ++ b1 ++ b0).signExtend 64

/-- The base and the index of the SIB byte; index 4 stands for no index. -/
def sib (rex : Rex) : Reader Byte (Reg × Option (Reg × Nat)) := do
  let b ← next
  let index := regOf rex.x (b.toNat / 8)
  return (regOf rex.b b.toNat, if index = rsp then none else some (index, b.toNat / 64))

/-- The base and the index that a ModRM byte names. -/
def baseIndex (rex : Rex) (b : Byte) : Reader Byte (Reg × Option (Reg × Nat)) :=
  if b.toNat % 8 = 4 then sib rex else return (regOf rex.b b.toNat, none)

/-- The forms without a base register are not in the subset. -/
def displacement (mod : Nat) (base : Reg) : Reader Byte Word :=
  if mod = 0 then
    if base.val % 8 = 5 then fail else return 0
  else if mod = 1 then disp8
  else disp32

/-- The register and the operand of the ModRM byte. -/
def modRM (rex : Rex) : Reader Byte (Reg × Operand) := do
  let b ← next
  let reg := regOf rex.r (b.toNat / 8)
  if b.toNat / 64 = 3 then
    return (reg, .reg (regOf rex.b b.toNat))
  else do
    let (base, index) ← baseIndex rex b
    let disp ← displacement (b.toNat / 64) base
    return (reg, .mem ⟨base, index, disp⟩)

def aluOp : Nat → Option AluOp
  | 0 => some .add
  | 1 => some .or
  | 4 => some .and
  | 5 => some .sub
  | 6 => some .xor
  | _ => none

def shiftOp : Nat → Option ShiftOp
  | 1 => some .ror
  | 5 => some .shr
  | 7 => some .sar
  | _ => none

/-- The two-byte opcodes. -/
def decode0f (rex : Rex) : Reader Byte Instr := do
  let op ← next
  match op.toNat with
  | 0x44 => do
    let (reg, rm) ← modRM rex
    return .cmovz rex.size reg rm
  | 0x84 => return .jz (← disp32)
  | 0xaf =>
    if rex.w then do
      let (reg, rm) ← modRM rex
      return .imul reg rm
    else fail
  | _ => fail

/-- The arithmetic block: eight operations in three encodings each. -/
def decodeAlu (rex : Rex) (op : Nat) : Reader Byte Instr := do
  let alu ← ofOption (aluOp (op / 8))
  match op % 8 with
  | 1 => do
    let (reg, rm) ← modRM rex
    return .alu alu rex.size rm (.reg reg)
  | 3 => do
    let (reg, rm) ← modRM rex
    return .alu alu rex.size (.reg reg) rm
  | 5 => return .alu alu rex.size (.reg rax) (.imm (← disp32))
  | _ => fail

/-- The one-byte opcodes. -/
def decodeOp (rex : Rex) (op : Nat) : Reader Byte Instr :=
  if op = 0x0f then decode0f rex
  else if op < 0x40 then decodeAlu rex op
  else if op < 0x50 then fail
  else if op < 0x58 then return .push (regOf rex.b op)
  else if op < 0x60 then return .pop (regOf rex.b op)
  else match op with
    | 0x74 => return .jz (← disp8)
    | 0x81 => do
      let (reg, rm) ← modRM rex
      let alu ← ofOption (aluOp (reg.val % 8))
      return .alu alu rex.size rm (.imm (← disp32))
    | 0x83 => do
      let (reg, rm) ← modRM rex
      let alu ← ofOption (aluOp (reg.val % 8))
      return .alu alu rex.size rm (.imm (← disp8))
    | 0x85 => do
      let (reg, rm) ← modRM rex
      return .test rex.size rm (.reg reg)
    | 0x89 => do
      let (reg, rm) ← modRM rex
      return .mov rex.size rm (.reg reg)
    | 0x8b => do
      let (reg, rm) ← modRM rex
      return .mov rex.size (.reg reg) rm
    | 0x8d => do
      match ← modRM rex with
      | (reg, .mem a) => return .lea rex.size reg a
      | _ => fail
    | 0xc1 =>
      if rex.w then do
        let (reg, rm) ← modRM rex
        let shift ← ofOption (shiftOp (reg.val % 8))
        let count ← next
        return .shift shift rm (count.toNat % 64)
      else fail
    | 0xc3 => return .ret
    | 0xf6 => do
      match ← modRM rex with
      | (reg, .reg r) =>
        if reg.val % 8 = 0 ∧ r.val < 4 then return .testByte r (← next) else fail
      | _ => fail
    | _ => fail

/-- An instruction with its optional REX prefix. -/
def decode : Reader Byte Instr := do
  let b ← next
  if b.toNat / 16 = 4 then do
    let op ← next
    decodeOp ⟨b.getLsbD 3, b.getLsbD 2, b.getLsbD 1, b.getLsbD 0⟩ op.toNat
  else decodeOp ⟨false, false, false, false⟩ b.toNat

/-! ## Execution -/

/-- The registers, the zero flag if it is known, and the memory. -/
structure State where
  regs : Reg → Word
  zf : Option Bool
  mem : Bytes 64

/-- What a state has besides the memory. -/
structure Core where
  regs : Reg → Word
  zf : Option Bool

def split : Split State Core where
  join p m := ⟨p.regs, p.zf, m⟩
  core s := ⟨s.regs, s.zf⟩
  mem := State.mem
  join_eta _ := rfl
  core_join _ _ := rfl
  mem_join _ _ := rfl

def Size.trunc : Size → Word → Word
  | .dword, v => (v.setWidth 32).setWidth 64
  | .qword, v => v

@[simp] theorem Size.trunc_trunc (size : Size) (v : Word) : size.trunc (size.trunc v) = size.trunc v := by
  cases size with
  | qword => rfl
  | dword =>
    apply BitVec.eq_of_toNat_eq
    simp only [trunc, BitVec.toNat_setWidth]
    omega

def AluOp.apply : AluOp → Word → Word → Word
  | .add, a, b => a + b
  | .or, a, b => a ||| b
  | .and, a, b => a &&& b
  | .sub, a, b => a - b
  | .xor, a, b => a ^^^ b

def ShiftOp.apply : ShiftOp → Word → Nat → Word
  | .ror, a, count => a.rotateRight count
  | .shr, a, count => a >>> count
  | .sar, a, count => a.sshiftRight count

namespace State

def setReg (s : State) (r : Reg) (v : Word) : State := { s with regs := Function.update s.regs r v }

def setZf (s : State) (zf : Option Bool) : State := { s with zf := zf }

def address (s : State) (a : Address) : Word :=
  s.regs a.base + (match a.index with
    | some (index, scale) => s.regs index <<< scale
    | none => 0) + a.disp

def read (access : Access) (s : State) (size : Size) : Operand → Option Word
  | .reg r => some (size.trunc (s.regs r))
  | .imm v => some (size.trunc v)
  | .mem a => if size = .qword then split.load access s (s.address a) else none

/-- A result goes to a register, extended with zeros, or to a word of memory. -/
def write (access : Access) (s : State) (size : Size) (v : Word) : Operand → Option State
  | .reg r => some (s.setReg r (size.trunc v))
  | .imm _ => none
  | .mem a => if size = .qword then split.store access s (s.address a) v else none

end State

/-- ROR leaves the zero flag, as every shift by zero does. -/
def ShiftOp.zf (op : ShiftOp) (count : Nat) (v : Word) (old : Option Bool) : Option Bool :=
  if op = .ror ∨ count = 0 then old else some (v == 0)

/-- The effect of an instruction. Jumps count from the instruction behind. -/
def exec (access : Access) : Instr → State → Option (Next × State)
  | .push r, s => do
    let sp := s.regs rsp - 8
    let s' ← split.store access s sp (s.regs r)
    return (.fall, s'.setReg rsp sp)
  | .pop r, s => do
    let v ← split.load access s (s.regs rsp)
    return (.fall, (s.setReg rsp (s.regs rsp + 8)).setReg r v)
  | .ret, s => do
    let target ← split.load access s (s.regs rsp)
    return (.leave target, s.setReg rsp (s.regs rsp + 8))
  | .jz offset, s => do
    let zf ← s.zf
    return (if zf then .jump offset.toInt else .fall, s)
  | .mov size dst src, s => do
    let v ← s.read access size src
    return (.fall, ← s.write access size v dst)
  | .lea size dst a, s => return (.fall, s.setReg dst (size.trunc (s.address a)))
  | .cmovz size dst src, s => do
    let v ← s.read access size src
    let zf ← s.zf
    return (.fall, s.setReg dst (size.trunc (if zf then v else s.regs dst)))
  | .alu op size dst src, s => do
    let v := size.trunc (op.apply (← s.read access size dst) (← s.read access size src))
    return (.fall, (← s.write access size v dst).setZf (some (v == 0)))
  | .test size dst src, s => do
    let v := (← s.read access size dst) &&& (← s.read access size src)
    return (.fall, s.setZf (some (v == 0)))
  | .testByte r v, s => return (.fall, s.setZf (some ((s.regs r).setWidth 8 &&& v == 0)))
  | .imul dst src, s => do
    let v ← s.read access .qword src
    return (.fall, (s.setReg dst (s.regs dst * v)).setZf none)
  | .shift op dst count, s => do
    let v := op.apply (← s.read access .qword dst) count
    return (.fall, (← s.write access .qword v dst).setZf (op.zf count v s.zf))

/-! ## The machine -/

theorem disp8_reads : ReadsPrefix disp8 := .bind .next fun _ => .pure _

theorem disp32_reads : ReadsPrefix disp32 :=
  .bind .next fun _ => .bind .next fun _ => .bind .next fun _ => .bind .next fun _ => .pure _

/-- No operand looks past its end. -/
theorem modRM_reads (rex : Rex) : ReadsPrefix (modRM rex) := by
  refine .bind .next fun b => .ite (.pure _) (.bind (.ite ?_ (.pure _)) fun (base, index) =>
    .bind ?_ fun _ => .pure _)
  · exact .bind .next fun _ => .pure _
  · exact .ite (.ite .fail (.pure _)) (.ite disp8_reads disp32_reads)

theorem decode0f_reads (rex : Rex) : ReadsPrefix (decode0f rex) := by
  refine .bind .next fun op => ?_
  split
  · exact .bind (modRM_reads rex) fun _ => .pure _
  · exact .bind disp32_reads fun _ => .pure _
  · exact .ite (.bind (modRM_reads rex) fun _ => .pure _) .fail
  · exact .fail

theorem decodeAlu_reads (rex : Rex) (op : Nat) : ReadsPrefix (decodeAlu rex op) := by
  refine .bind (.ofOption _) fun alu => ?_
  split
  · exact .bind (modRM_reads rex) fun _ => .pure _
  · exact .bind (modRM_reads rex) fun _ => .pure _
  · exact .bind disp32_reads fun _ => .pure _
  · exact .fail

theorem decodeOp_reads (rex : Rex) (op : Nat) : ReadsPrefix (decodeOp rex op) := by
  refine .ite (decode0f_reads rex) <| .ite (decodeAlu_reads rex op) <| .ite .fail <|
    .ite (.pure _) <| .ite (.pure _) ?_
  split
  · exact .bind disp8_reads fun _ => .pure _
  · exact .bind (modRM_reads rex) fun _ => .bind (.ofOption _) fun _ =>
      .bind disp32_reads fun _ => .pure _
  · exact .bind (modRM_reads rex) fun _ => .bind (.ofOption _) fun _ =>
      .bind disp8_reads fun _ => .pure _
  · exact .bind (modRM_reads rex) fun _ => .pure _
  · exact .bind (modRM_reads rex) fun _ => .pure _
  · exact .bind (modRM_reads rex) fun _ => .pure _
  · refine .bind (modRM_reads rex) fun _ => ?_
    split
    · exact .pure _
    · exact .fail
  · exact .ite (.bind (modRM_reads rex) fun _ => .bind (.ofOption _) fun _ =>
      .bind .next fun _ => .pure _) .fail
  · exact .pure _
  · refine .bind (modRM_reads rex) fun _ => ?_
    split
    · exact .ite (.bind .next fun _ => .pure _) .fail
    · exact .fail
  · exact .fail

/-- The decoder stops at the end of the instruction, so code decodes the same whatever follows it. -/
theorem decode_reads : ReadsPrefix decode :=
  .bind .next fun _ => .ite (.bind .next fun _ => decodeOp_reads _ _) (decodeOp_reads _ _)

def isa (access : Access) : Isa Instr State where
  decode := decode
  decode_reads := decode_reads
  exec := exec access

theorem encodes {access : Access} {i : Instr} {bytes : List Byte} (h : decode bytes = some (i, [])) :
    (isa access).Encodes i bytes := h

/-- A fixed piece of code is assembled from what the decoder reads in it. -/
theorem assembles {access : Access} {is : List Instr} {bytes : List Byte}
    (h : times decode is.length bytes = some (is, [])) : (isa access).Assembles is bytes :=
  Isa.assembles_of_times h

end X86
