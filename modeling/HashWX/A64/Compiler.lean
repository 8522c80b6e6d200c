import HashWX.Lib.CodeMachine
import HashWX.Program.Instruction

/-!
# The AArch64 compiler

`compiler_a64.c`, in the representation of the x86-64 compiler: an emitter is the list
of bytes it writes, and `none` is undefined behaviour.
-/

namespace HashWX.CompilerA64

open CodeMachine (Byte le32)
open FinArray ForLoop

def codePrologue : List Byte :=
  [0x0c, 0x34, 0x44, 0xa9, 0xe8, 0x03, 0x00, 0xaa, 0x06, 0x1c, 0x43, 0xa9, 0x04, 0x14, 0x42, 0xa9,
    0x02, 0x0c, 0x41, 0xa9, 0x00, 0x04, 0x40, 0xa9, 0x09, 0x00, 0x80, 0xd2, 0x2a, 0x01, 0x80, 0xd2,
    0x2b, 0x04, 0x80, 0xd2]

def codeEpilogue : List Byte :=
  [0x06, 0x1d, 0x03, 0xa9, 0xff, 0x03, 0x20, 0x91, 0x04, 0x15, 0x02, 0xa9, 0x02, 0x0d, 0x01, 0xa9,
    0x00, 0x05, 0x00, 0xa9, 0xc0, 0x03, 0x5f, 0xd6]

def codeBranch : List Byte := [0xdf, 0x01, 0x7b, 0xf2, 0x29, 0x15, 0x89, 0x9a]

def codeClearBc : List Byte := [0x09, 0x00, 0x80, 0xd2]

/-! ## Emitters -/

def emitMul (dst src : Nat) : List Byte := le32 (0x9b007c00 ||| u32 src <<< 16 ||| u32 dst <<< 5 ||| u32 dst)

def emitRor (dst count : Nat) : List Byte :=
  le32 (0x93c00000 ||| u32 dst <<< 16 ||| u32 dst <<< 5 ||| u32 dst ||| u32 count <<< 10)

def emitLsr (dst count : Nat) : List Byte := le32 (0xd340fc00 ||| u32 count <<< 16 ||| u32 dst <<< 5 ||| u32 dst)

def emitAsr (dst count : Nat) : List Byte := le32 (0x9340fc00 ||| u32 count <<< 16 ||| u32 dst <<< 5 ||| u32 dst)

def emitMov (dst src : Nat) : List Byte := le32 (0xaa0003e0 ||| u32 src <<< 16 ||| u32 dst)

def emitSub (dst src : Nat) : List Byte := le32 (0xcb000000 ||| u32 src <<< 16 ||| u32 dst <<< 5 ||| u32 dst)

def emitAdd (dst src : Nat) : List Byte := le32 (0x8b000000 ||| u32 src <<< 16 ||| u32 dst <<< 5 ||| u32 dst)

def emitEor (dst src : Nat) : List Byte := le32 (0xca000000 ||| u32 src <<< 16 ||| u32 dst <<< 5 ||| u32 dst)

def emitOrr (dst src1 src2 : Nat) : List Byte :=
  le32 (0xaa000000 ||| u32 src2 <<< 16 ||| u32 src1 <<< 5 ||| u32 dst)

/-- Converts 1, 9, 33, divided by 8, to 0, 1, 2. -/
def mulImmInv : Vector Nat 5 := #v[0, 1, 2, 2, 2]

def premulTpls : Vector (Vector (BitVec 32) 3) 3 :=
  #v[#v[0xb2400000, 0xaa0a0000, 0xaa0b0000],
    #v[0xd2400000, 0xca0a0000, 0xca0b0000],
    #v[0x91000400, 0x91002400, 0x91008400]]

def storePair : Vector (BitVec 32) 7 :=
  #v[0xa9020be3, 0xa90113e5, 0xa9001be7, 0xa90303e1, 0xa9020be3, 0xa90113e5, 0xa9001be7]

/-- The words of one of the three templates, with the register filled in. -/
def emitPremul (isn : Instruction) : Option (List Byte) := do
  let imm ← load mulImmInv (isn.imm / 8)
  let tpl ← load (← load premulTpls isn.opcode.toNat) imm
  return le32 (tpl ||| u32 isn.dst <<< 5 ||| u32 isn.dst)

/-- The enumeration has no negative value, so `isn->opcode - 4` is unsigned. -/
def emitPreXas (isn : Instruction) : Option (List Byte) :=
  match (u32 isn.opcode.toNat - 4).toNat / 3 with
  | 0 => some (emitRor isn.dst isn.imm)
  | 1 => some (emitAsr isn.dst isn.imm)
  | 2 => some (emitLsr isn.dst isn.imm)
  | _ => none

def emitXas (isn : Instruction) (src : Nat) : Option (List Byte) :=
  match (u32 isn.opcode.toNat - 4).toNat % 3 with
  | 0 => some (emitEor isn.dst src)
  | 1 => some (emitAdd isn.dst src)
  | 2 => some (emitSub isn.dst src)
  | _ => none

def emitBeq (pos target : Nat) : List Byte :=
  le32 (0x54000000 ||| ((u32 target - u32 pos) &&& 0x1ffffc) <<< 3)

/-- `ldr dst, [sp, dst]`. -/
def emitLdrSp (dst : Nat) : List Byte := le32 (0xf8606be0 ||| u32 dst <<< 16 ||| u32 dst)

/-- `and dst, src, 2040`. -/
def emitAnd2040 (dst src : Nat) : List Byte := le32 (0x927d1c00 ||| u32 src <<< 5 ||| u32 dst)

/-! ## Programs -/

/-- One program of the first phase, in the order in which its words are emitted. -/
def compileProgramReg (program : Program) (pos : List Byte) : Option (List Byte) := do
  let pos := pos ++ le32 0xd10103ff
  let target := pos.length
  let pos := pos ++ emitMul program[0].dst (program[0].src + 4)
  let pos := pos ++ (← emitPreXas program[1])
  let pos := pos ++ emitMov 14 program[1].src
  let pos := pos ++ (← emitPremul program[2])
  let pos := pos ++ (← emitXas program[1] 14)
  let pos := pos ++ emitMul program[2].dst program[2].src
  let pos := pos ++ (← emitPreXas program[3])
  let pos := pos ++ emitRor program[0].dst program[0].imm
  let pos := pos ++ (← emitXas program[3] program[3].src)
  let pos := pos ++ (← emitPremul program[4])
  let pos := pos ++ emitMul program[4].dst program[4].src
  let pos := pos ++ (← emitPreXas program[5])
  let pos := pos ++ emitOrr 14 program[0].dst 9
  let pos := pos ++ (← emitXas program[5] program[5].src)
  let pos := pos ++ (← emitPremul program[6])
  let pos := pos ++ codeBranch
  let pos := pos ++ emitMul program[6].dst program[6].src
  let pos := pos ++ emitBeq pos.length target
  let pairIdx := program[8].dst / 2
  let pos := pos ++ le32 (← load storePair pairIdx)
  let pos := pos ++ (← emitPreXas program[8])
  let pos := pos ++ le32 (← load storePair (pairIdx + 1))
  let pos := pos ++ (← emitXas program[8] program[8].src)
  let pos := pos ++ le32 (← load storePair (pairIdx + 2))
  let pos := pos ++ le32 (← load storePair (pairIdx + 3))
  return pos

def compileProgramMem (program : Program) (pos : List Byte) : Option (List Byte) := do
  let target := pos.length
  let pos := pos ++ emitAnd2040 15 program[1].src
  let pos := pos ++ emitLdrSp 15
  let pos := pos ++ (← emitPreXas program[1])
  let pos := pos ++ emitMul program[0].dst (program[0].src + 4)
  let pos := pos ++ (← emitXas program[1] 15)
  let pos := pos ++ emitAnd2040 16 program[2].src
  let pos := pos ++ emitLdrSp 16
  let pos := pos ++ emitAnd2040 17 program[3].src
  let pos := pos ++ emitLdrSp 17
  let pos := pos ++ (← emitPremul program[2])
  let pos := pos ++ (← emitPreXas program[3])
  let pos := pos ++ emitRor program[0].dst program[0].imm
  let pos := pos ++ emitMul program[2].dst 16
  let pos := pos ++ (← emitXas program[3] 17)
  let pos := pos ++ emitAnd2040 16 program[4].src
  let pos := pos ++ emitLdrSp 16
  let pos := pos ++ emitAnd2040 17 program[5].src
  let pos := pos ++ emitLdrSp 17
  let pos := pos ++ (← emitPremul program[4])
  let pos := pos ++ (← emitPreXas program[5])
  let pos := pos ++ emitOrr 14 program[0].dst 9
  let pos := pos ++ emitMul program[4].dst 16
  let pos := pos ++ (← emitXas program[5] 17)
  let pos := pos ++ emitAnd2040 16 program[6].src
  let pos := pos ++ emitLdrSp 16
  let pos := pos ++ emitAnd2040 17 program[8].src
  let pos := pos ++ emitLdrSp 17
  let pos := pos ++ (← emitPremul program[6])
  let pos := pos ++ codeBranch
  let pos := pos ++ emitMul program[6].dst 16
  let pos := pos ++ emitBeq pos.length target
  let pos := pos ++ (← emitPreXas program[8])
  let pos := pos ++ (← emitXas program[8] 17)
  return pos

/-- The words that `hashwx_compile_a64` writes to the start of the code buffer. -/
def hashwxCompileA64 (list : ProgramList) : Option (List Byte) := do
  let pos ← forLoopM 32 (fun pos i => compileProgramReg list[i] pos) codePrologue
  let pos ← forLoopM 32 (fun pos i => compileProgramMem list[i] pos) (pos ++ codeClearBc)
  return pos ++ codeEpilogue

/-- The write pointer in front of program `k` of the first phase. -/
def compileRegFirst (list : ProgramList) (k : Nat) (hk : k ≤ 32) : Option (List Byte) :=
  forLoopM k (fun pos i => compileProgramReg list[i.castLE hk] pos) codePrologue

/-- The write pointer in front of program `k` of the second phase. -/
def compileMemFirst (list : ProgramList) (k : Nat) (hk : k ≤ 32) : Option (List Byte) := do
  let pos ← compileRegFirst list 32 all_programs
  forLoopM k (fun pos i => compileProgramMem list[i.castLE hk] pos) (pos ++ codeClearBc)

/-- The whole code is the one after all the programs of both phases, with the epilogue behind it. -/
theorem hashwxCompileA64_eq_first (list : ProgramList) :
    hashwxCompileA64 list = (compileMemFirst list 32 le_rfl).map fun pos => pos ++ codeEpilogue := by
  rw [compileMemFirst, Option.map_eq_bind]
  exact (Option.bind_assoc _ _ _).symm

end HashWX.CompilerA64
