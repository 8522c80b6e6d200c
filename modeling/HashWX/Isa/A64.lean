import HashWX.Lib.CodeMachine
import HashWX.Lib.FinArray
import HashWX.Lib.GuardedMemory

/-!
# A subset of the A64 instruction set

Instructions of four bytes on 64-bit registers. Register number 31 is the zero register
or the stack pointer, as the instruction has it. Only the Z flag is modelled. Memory is
accessed in words of eight bytes where an access policy permits it, and through the
stack pointer only if that is aligned to sixteen bytes.
-/

namespace A64

open ByteMemory ListReader CodeMachine

abbrev Word := BitVec 64
abbrev Reg := Fin 32

inductive LogicOp | and | orr | eor
deriving DecidableEq

inductive AddOp | add | sub
deriving DecidableEq

inductive ShiftOp | lsr | asr | ror
deriving DecidableEq

inductive Cond | eq | ne
deriving DecidableEq

inductive Instr
  | madd (d n m a : Reg)
  | shift (op : ShiftOp) (d n : Reg) (count : Nat)
  | logic (op : LogicOp) (d n m : Reg)
  | logicImm (op : LogicOp) (d n : Reg) (imm : Word)
  | ands (d n : Reg) (imm : Word)
  | addSub (op : AddOp) (d n m : Reg)
  | addSubImm (op : AddOp) (d n : Reg) (imm : Word)
  | movz (d : Reg) (imm : Word)
  | csinc (d n m : Reg) (cond : Cond)
  | branch (cond : Cond) (offset : Int)
  | ldp (t t2 n : Reg) (offset : Word)
  | stp (t t2 n : Reg) (offset : Word)
  | ldr (t n m : Reg)
  | ret (n : Reg)
deriving DecidableEq

/-! ## Decoding -/

/-- The bits of an instruction word from `low` upwards, `width` of them. -/
def field (w : BitVec 32) (low width : Nat) : Nat := w.toNat / 2 ^ low % 2 ^ width

def regAt (w : BitVec 32) (low : Nat) : Reg := Fin.ofNat 32 (w.toNat / 2 ^ low)

/-- A signed field of seven bits, in units of eight bytes. -/
def pairOffset (w : BitVec 32) : Word := (BitVec.ofNat 7 (field w 15 7)).signExtend 64 <<< 3

/-- The signed field of nineteen bits, in units of four bytes. -/
def branchOffset (w : BitVec 32) : Int := (BitVec.ofNat 19 (field w 5 19)).toInt * 4

/-- `imms + 1` ones, rotated right by `immr`; the pattern of 64 ones is reserved. -/
def bitmask (immr imms : Nat) : Option Word :=
  if imms = 63 then none else some ((BitVec.ofNat 64 (2 ^ (imms + 1) - 1)).rotateRight immr)

def condAt (n : Nat) : Option Cond :=
  if n = 0 then some .eq else if n = 1 then some .ne else none

/-- Arithmetic and logic on registers, by the upper eleven bits. The forms with a shifted
operand are not in the subset. -/
def decodeRegister (w : BitVec 32) : Option Instr :=
  let d := regAt w 0
  let n := regAt w 5
  let m := regAt w 16
  let plain (i : Instr) : Option Instr := if field w 10 6 = 0 then some i else none
  match field w 21 11 with
  | 0x4d8 => if field w 15 1 = 0 then some (.madd d n m (regAt w 10)) else none
  | 0x49e => if n = m then some (.shift .ror d n (field w 10 6)) else none
  | 0x450 => plain (.logic .and d n m)
  | 0x550 => plain (.logic .orr d n m)
  | 0x650 => plain (.logic .eor d n m)
  | 0x458 => plain (.addSub .add d n m)
  | 0x658 => plain (.addSub .sub d n m)
  | 0x4d4 => do
    if field w 10 2 = 1 then return .csinc d n m (← condAt (field w 12 4)) else none
  | 0x7c3 => if field w 10 6 = 0b011010 then some (.ldr d n m) else none
  | _ => none

/-- Forms with an immediate operand, and pairs, by the upper ten bits. -/
def decodeImmediate (w : BitVec 32) : Option Instr :=
  let d := regAt w 0
  let n := regAt w 5
  let mask := bitmask (field w 16 6) (field w 10 6)
  let shift (op : ShiftOp) : Option Instr :=
    if field w 10 6 = 63 then some (.shift op d n (field w 16 6)) else none
  match field w 22 10 with
  | 0x34d => shift .lsr
  | 0x24d => shift .asr
  | 0x249 => mask.map (.logicImm .and d n)
  | 0x2c9 => mask.map (.logicImm .orr d n)
  | 0x349 => mask.map (.logicImm .eor d n)
  | 0x3c9 => mask.map (.ands d n)
  | 0x244 => some (.addSubImm .add d n (BitVec.ofNat 64 (field w 10 12)))
  | 0x344 => some (.addSubImm .sub d n (BitVec.ofNat 64 (field w 10 12)))
  | 0x2a4 => some (.stp d (regAt w 10) n (pairOffset w))
  | 0x2a5 => if d = regAt w 10 then none else some (.ldp d (regAt w 10) n (pairOffset w))
  | _ => none

/-- The conditional branch, constants and returns; the other instructions by the bits of their group. -/
def decodeWord (w : BitVec 32) : Option Instr :=
  if field w 24 8 = 0x54 then
    if field w 4 1 = 0 then (condAt (field w 0 4)).map fun cond => .branch cond (branchOffset w)
    else none
  else if field w 21 11 = 0x694 then
    some (.movz (regAt w 0) (BitVec.ofNat 64 (field w 5 16)))
  else if field w 10 22 = 0x3597c0 then
    if field w 0 5 = 0 then some (.ret (regAt w 5)) else none
  else (decodeRegister w).or (decodeImmediate w)

def decode : Reader Byte Instr := do
  let b0 ← next
  let b1 ← next
  let b2 ← next
  let b3 ← next
  ofOption (decodeWord (b3 ++ b2 ++ b1 ++ b0))

theorem decode_reads : ReadsPrefix decode :=
  .bind .next fun _ => .bind .next fun _ => .bind .next fun _ => .bind .next fun _ => .ofOption _

/-! ## Execution -/

/-- Register 31 is not part of `x`. -/
structure State where
  x : Reg → Word
  sp : Word
  z : Bool
  mem : Bytes 64

/-- What a state has besides the memory. -/
structure Core where
  x : Reg → Word
  sp : Word
  z : Bool

def split : Split State Core where
  join p m := ⟨p.x, p.sp, p.z, m⟩
  core s := ⟨s.x, s.sp, s.z⟩
  mem := State.mem
  join_eta _ := rfl
  core_join _ _ := rfl
  mem_join _ _ := rfl

def LogicOp.apply : LogicOp → Word → Word → Word
  | .and, a, b => a &&& b
  | .orr, a, b => a ||| b
  | .eor, a, b => a ^^^ b

def AddOp.apply : AddOp → Word → Word → Word
  | .add, a, b => a + b
  | .sub, a, b => a - b

def ShiftOp.apply : ShiftOp → Word → Nat → Word
  | .lsr, a, count => a >>> count
  | .asr, a, count => a.sshiftRight count
  | .ror, a, count => a.rotateRight count

def Cond.holds : Cond → Bool → Bool
  | .eq, z => z
  | .ne, z => !z

namespace State

def setX (s : State) (r : Reg) (v : Word) : State := { s with x := Function.update s.x r v }

/-- Where 31 is the zero register. -/
def get (s : State) (r : Reg) : Word := if r = 31 then 0 else s.x r

/-- A result for the zero register is dropped. -/
def set (s : State) (r : Reg) (v : Word) : State := if r = 31 then s else s.setX r v

/-- Where 31 is the stack pointer. -/
def getSp (s : State) (r : Reg) : Word := if r = 31 then s.sp else s.x r

def setSp (s : State) (r : Reg) (v : Word) : State := if r = 31 then { s with sp := v } else s.setX r v

/-- The base address of an access. -/
def base (s : State) (r : Reg) : Option Word :=
  if r = 31 ∧ s.sp.toNat % 16 ≠ 0 then none else some (s.getSp r)

end State

/-- The effect of an instruction. Branch offsets count from the instruction itself. -/
def exec (access : Access) : Instr → State → Option (Next × State)
  | .madd d n m a, s => some (.fall, s.set d (s.get a + s.get n * s.get m))
  | .shift op d n count, s => some (.fall, s.set d (op.apply (s.get n) count))
  | .logic op d n m, s => some (.fall, s.set d (op.apply (s.get n) (s.get m)))
  | .logicImm op d n imm, s => some (.fall, s.setSp d (op.apply (s.get n) imm))
  | .ands d n imm, s =>
    some (.fall, { s.set d (s.get n &&& imm) with z := s.get n &&& imm == 0 })
  | .addSub op d n m, s => some (.fall, s.set d (op.apply (s.get n) (s.get m)))
  | .addSubImm op d n imm, s => some (.fall, s.setSp d (op.apply (s.getSp n) imm))
  | .movz d imm, s => some (.fall, s.set d imm)
  | .csinc d n m cond, s =>
    some (.fall, s.set d (if cond.holds s.z then s.get n else s.get m + 1))
  | .branch cond offset, s => some (if cond.holds s.z then .jump (offset - 4) else .fall, s)
  | .ldp t t2 n offset, s => do
    let a := (← s.base n) + offset
    let v ← split.load access s a
    let v2 ← split.load access s (a + 8)
    return (.fall, (s.set t v).set t2 v2)
  | .stp t t2 n offset, s => do
    let a := (← s.base n) + offset
    let s' ← split.store access s a (s.get t)
    return (.fall, ← split.store access s' (a + 8) (s.get t2))
  | .ldr t n m, s => do
    let v ← split.load access s ((← s.base n) + s.get m)
    return (.fall, s.set t v)
  | .ret n, s => some (.leave (s.get n), s)

/-! ## The machine -/

def isa (access : Access) : Isa Instr State where
  decode := decode
  decode_reads := decode_reads
  exec := exec access

theorem encodes {access : Access} {i : Instr} {bytes : List Byte} (h : decode bytes = some (i, [])) :
    (isa access).Encodes i bytes := h

/-- A fixed piece of code is assembled from what the decoder reads in it. -/
theorem assembles {access : Access} {is : List Instr} {bytes : List Byte}
    (h : times decode is.length bytes = some (is, [])) : (isa access).Assembles is bytes :=
  Isa.assembles_of_times h

/-! ## Pairs -/

section Pairs

variable {access : Access} {s : State} {n : Reg} {a : Word}

/-- A pair of registers is loaded from two adjacent words. -/
theorem exec_ldp (hbase : s.base n = some a) (t t2 : Reg) (i : Nat)
    (hr : access.readable (wordAddr a i) = true) (hr' : access.readable (wordAddr a (i + 1)) = true) :
    (isa access).exec (.ldp t t2 n (BitVec.ofNat 64 (8 * i))) s =
      some (.fall, (s.set t (load64 s.mem (wordAddr a i))).set t2
        (load64 s.mem (wordAddr a (i + 1)))) := by
  have hnext : a + BitVec.ofNat 64 (8 * i) + 8 = wordAddr a (i + 1) := (wordAddr_succ a i).symm
  have hload (b : Word) (hb : access.readable b = true) : split.load access s b = some (load64 s.mem b) :=
    Split.load_eq hb
  have hfirst : split.load access s (a + BitVec.ofNat 64 (8 * i)) = some (load64 s.mem (wordAddr a i)) :=
    hload _ hr
  simp only [isa, exec, hbase, bind, Option.bind_some, hnext, hfirst, hload _ hr', pure]

/-- A pair of registers is stored to two adjacent words. -/
theorem exec_stp (hbase : s.base n = some a) (t t2 : Reg) (i : Nat)
    (hw : access.writable (wordAddr a i) = true) (hw' : access.writable (wordAddr a (i + 1)) = true) :
    (isa access).exec (.stp t t2 n (BitVec.ofNat 64 (8 * i))) s =
      some (.fall, { s with mem := storeWords a [(s.get t, i), (s.get t2, i + 1)] s.mem }) := by
  have hnext : a + BitVec.ofNat 64 (8 * i) + 8 = wordAddr a (i + 1) := (wordAddr_succ a i).symm
  have hstore (s' : State) (b v : Word) (hb : access.writable b = true) :
      split.store access s' b v = some { s' with mem := store64 s'.mem b v } := Split.store_eq hb
  have hfirst : split.store access s (a + BitVec.ofNat 64 (8 * i)) (s.get t) =
      some { s with mem := store64 s.mem (wordAddr a i) (s.get t) } := hstore s _ _ hw
  simp only [isa, exec, hbase, bind, Option.bind_some, hnext, hfirst]
  rw [hstore _ _ _ hw']
  rfl

end Pairs

end A64
