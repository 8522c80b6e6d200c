import HashWX.Exec.Scratchpad
import HashWX.Wasm.Program

/-!
# The instructions of a program on the stack machine

The local variables hold the registers, and between the instructions of a program the
operand stack is empty.
-/

namespace HashWX.CompilerWasm

open ByteMemory
open Siphash (Word)
open Wasm (Plain Code State Value Exec execAll)

/-- The local variables of the function and the memory. -/
structure Machine where
  rp : BitVec 32
  mp : BitVec 32
  file : RegFile
  consts : Consts
  bc : Word
  bf : Word
  mm : Word
  mem : Bytes 64

namespace Machine

/-- The local variables in the order of their indices, the parameters first. -/
def locals (v : Machine) : List Value :=
  [.i32 v.rp, .i32 v.mp, .i64 (v.file 0), .i64 (v.file 1), .i64 (v.file 2), .i64 (v.file 3),
    .i64 (v.file 4), .i64 (v.file 5), .i64 (v.file 6), .i64 (v.file 7), .i64 (v.consts 0),
    .i64 (v.consts 1), .i64 v.bc, .i64 v.bf, .i64 v.mm]

def state (v : Machine) (stack : List Value) : State := ⟨v.locals, stack, v.mem⟩

/-- The machine with other registers, `b` branches left and another flag. -/
def enter (v : Machine) (f : RegFile) (b : Nat) (flag : Word) : Machine :=
  { v with file := f, bc := BitVec.ofNat 64 (32 - b), bf := flag }

theorem locals_file (v : Machine) (k : Fin 8) : v.locals[2 + k.val]? = some (.i64 (v.file k)) := by
  match k with
  | 0 | 1 | 2 | 3 | 4 | 5 | 6 | 7 => rfl

theorem locals_consts (v : Machine) (j : Fin 2) :
    v.locals[2 + (8 + j.val)]? = some (.i64 (v.consts j)) := by
  match j with
  | 0 | 1 => rfl

theorem set_file (v : Machine) (k : Fin 8) (x : Word) :
    v.locals.set (2 + k.val) (.i64 x) = ({ v with file := Function.update v.file k x } : Machine).locals := by
  match k with
  | 0 | 1 | 2 | 3 | 4 | 5 | 6 | 7 => rfl

end Machine

/-! ## Single instructions -/

section Instructions

variable (access : Access) (v : Machine) (st : List Value)

/-- R0-R7 are the local variables from index 2 on. -/
@[simp] theorem exec_get_file (k : Fin 8) : (Plain.localGet (2 + k)).exec access (v.state st) =
    some (v.state (.i64 (v.file k) :: st)) := by
  show (v.locals[2 + k.val]?).bind _ = _
  rw [v.locals_file]
  rfl

@[simp] theorem exec_get_consts (j : Fin 2) :
    (Plain.localGet (2 + (8 + j))).exec access (v.state st) =
      some (v.state (.i64 (v.consts j) :: st)) := by
  show (v.locals[2 + (8 + j.val)]?).bind _ = _
  rw [v.locals_consts]
  rfl

@[simp] theorem exec_get_rp : (Plain.localGet 0).exec access (v.state st) =
    some (v.state (.i32 v.rp :: st)) := rfl

@[simp] theorem exec_get_mp : (Plain.localGet 1).exec access (v.state st) =
    some (v.state (.i32 v.mp :: st)) := rfl

@[simp] theorem exec_get_bc : (Plain.localGet 12).exec access (v.state st) =
    some (v.state (.i64 v.bc :: st)) := rfl

@[simp] theorem exec_get_bf : (Plain.localGet 13).exec access (v.state st) =
    some (v.state (.i64 v.bf :: st)) := rfl

@[simp] theorem exec_get_mm : (Plain.localGet 14).exec access (v.state st) =
    some (v.state (.i64 v.mm :: st)) := rfl

@[simp] theorem exec_set_file (k : Fin 8) (x : Word) :
    (Plain.localSet (2 + k)).exec access (v.state (.i64 x :: st)) =
      some (({ v with file := Function.update v.file k x } : Machine).state st) := by
  have hlen : v.locals.length = 15 := rfl
  have hlt : 2 + k.val < v.locals.length := by omega
  show (if 2 + k.val < v.locals.length then some _ else none) = _
  rw [if_pos hlt]
  exact congrArg (fun l => some (⟨l, st, v.mem⟩ : State)) (v.set_file k x)

@[simp] theorem exec_tee_file (k : Fin 8) (x : Word) :
    (Plain.localTee (2 + k)).exec access (v.state (.i64 x :: st)) =
      some (({ v with file := Function.update v.file k x } : Machine).state (.i64 x :: st)) := by
  have hlen : v.locals.length = 15 := rfl
  have hlt : 2 + k.val < v.locals.length := by omega
  show (if 2 + k.val < v.locals.length then some _ else none) = _
  rw [if_pos hlt]
  exact congrArg (fun l => some (⟨l, .i64 x :: st, v.mem⟩ : State)) (v.set_file k x)

@[simp] theorem exec_set_mp (a : BitVec 32) : (Plain.localSet 1).exec access (v.state (.i32 a :: st)) =
    some (({ v with mp := a } : Machine).state st) := rfl

@[simp] theorem exec_set_bc (x : Word) : (Plain.localSet 12).exec access (v.state (.i64 x :: st)) =
    some (({ v with bc := x } : Machine).state st) := rfl

@[simp] theorem exec_set_bf (x : Word) : (Plain.localSet 13).exec access (v.state (.i64 x :: st)) =
    some (({ v with bf := x } : Machine).state st) := rfl

@[simp] theorem exec_set_mm (x : Word) : (Plain.localSet 14).exec access (v.state (.i64 x :: st)) =
    some (({ v with mm := x } : Machine).state st) := rfl

@[simp] theorem exec_const64 (x : Word) : (Plain.i64Const x).exec access (v.state st) =
    some (v.state (.i64 x :: st)) := rfl

@[simp] theorem exec_const32 (x : BitVec 32) : (Plain.i32Const x).exec access (v.state st) =
    some (v.state (.i32 x :: st)) := rfl

@[simp] theorem exec_binop (op : Wasm.Binop) (a b : Word) :
    (Plain.i64 op).exec access (v.state (.i64 b :: .i64 a :: st)) =
      some (v.state (.i64 (op.apply a b) :: st)) := rfl

@[simp] theorem exec_add32 (a b : BitVec 32) :
    Plain.i32Add.exec access (v.state (.i32 b :: .i32 a :: st)) = some (v.state (.i32 (a + b) :: st)) := rfl

@[simp] theorem exec_sub32 (a b : BitVec 32) :
    Plain.i32Sub.exec access (v.state (.i32 b :: .i32 a :: st)) = some (v.state (.i32 (a - b) :: st)) := rfl

@[simp] theorem exec_wrap (a : Word) : Plain.i32WrapI64.exec access (v.state (.i64 a :: st)) =
    some (v.state (.i32 (a.setWidth 32) :: st)) := rfl

@[simp] theorem exec_eqz (a : Word) : Plain.i64Eqz.exec access (v.state (.i64 a :: st)) =
    some (v.state (.i32 (if a = 0 then 1 else 0) :: st)) := rfl

/-- A load of a word that the policy permits, at the address that the operand and the offset give. -/
theorem exec_load (align : Nat) {a : BitVec 32} {offset : Nat} {b : Word} (hb : Wasm.effective a offset = b)
    (hr : access.readable b = true) :
    (Plain.i64Load align offset).exec access (v.state (.i32 a :: st)) =
      some (v.state (.i64 (load64 v.mem b) :: st)) := by
  subst hb
  show Wasm.split.load access (v.state st) _ >>= _ = _
  rw [Split.load_eq hr]
  rfl

/-- A store replaces one word, and the operands are gone from the stack. -/
theorem exec_store (align : Nat) {a : BitVec 32} {offset : Nat} {b : Word} (x : Word)
    (hb : Wasm.effective a offset = b) (hw : access.writable b = true) :
    (Plain.i64Store align offset).exec access (v.state (.i64 x :: .i32 a :: st)) =
      some (({ v with mem := store64 v.mem b x } : Machine).state st) := by
  subst hb
  exact if_pos hw

end Instructions

/-! ## Instructions of a program -/

theorem mulBinop_apply (op : MulOp) (a b : Word) : (mulBinop op).apply a b = op.apply a b := by
  cases op <;> rfl

theorem postBinop_apply (op : PostOp) (a b : Word) : (postBinop op).apply a b = op.apply a b := by
  cases op <;> rfl

/-- The operator takes its count modulo 64, and the counts of the programs are below. -/
theorem rotr_apply (a : Word) {imm : Nat} (himm : imm < 64) :
    Wasm.Binop.rotr.apply a (BitVec.ofNat 64 imm) = BitRotate.rotr a imm := by
  have hcount : (BitVec.ofNat 64 imm).toNat % 64 = imm := by
    rw [BitVec.toNat_ofNat]
    omega
  rw [Wasm.Binop.apply, hcount, BitRotate.rotr_eq_rotateRight a himm]

theorem preBinop_apply (op : PreOp) (a : Word) {imm : Nat} (himm : imm < 64) :
    (preBinop op).apply a (BitVec.ofNat 64 imm) = op.apply a imm := by
  have hcount : (BitVec.ofNat 64 imm).toNat % 64 = imm := by
    rw [BitVec.toNat_ofNat]
    omega
  cases op with
  | ror => exact rotr_apply a himm
  | asr => exact congrArg a.sshiftRight hcount
  | lsr => exact congrArg (a >>> ·) hcount

/-- The mask keeps the address inside of the scratchpad, so the sum does not wrap around. -/
theorem effective_wordOffset {mp : BitVec 32} (hmp : mp.toNat + 2048 ≤ 2 ^ 32) (a : Word) :
    Wasm.effective ((a &&& 2040).setWidth 32 + mp) 0 = mp.setWidth 64 + wordOffset a := by
  rw [and_wordOffset]
  have hoffset : (wordOffset a).toNat = 8 * (a.toNat / 8 % 256) := by
    rw [wordOffset, BitVec.toNat_ofNat]
    omega
  apply BitVec.eq_of_toNat_eq
  simp only [Wasm.effective, BitVec.toNat_add, BitVec.toNat_setWidth, BitVec.toNat_ofNat, hoffset]
  omega

section Families

variable (access : Access)

/-- RMCG leaves its value in the destination and in the branch flag. -/
theorem exec_rmcg (x : Rmcg) (v : Machine) : execAll access (rmcg x) (v.state []) =
    some (({ v with file := x.exec v.consts v.file, bf := x.value v.consts v.file } : Machine).state []) := by
  have hrot := rotr_apply (v.file x.dst * v.consts x.src) (Nat.lt_succ_of_le x.imm_le)
  have hmul : Wasm.Binop.mul.apply (v.file x.dst) (v.consts x.src) = v.file x.dst * v.consts x.src := rfl
  simp [rmcg, execAll, hmul, hrot, Rmcg.exec, Rmcg.value]

/-- The product's first factor is left on the stack. -/
theorem exec_premul (x : Mul) (v : Machine) (st : List Value) : execAll access (premul x) (v.state st) =
    some (v.state (.i64 (x.op.apply (v.file x.dst) (BitVec.ofNat 64 x.imm)) :: st)) := by
  simp [premul, execAll, mulBinop_apply]

theorem exec_preXas (x : Xas) (v : Machine) (st : List Value) : execAll access (preXas x) (v.state st) =
    some (v.state (.i64 (x.pre.apply (v.file x.dst) x.imm) :: st)) := by
  simp [preXas, execAll, preBinop_apply x.pre _ x.imm_lt]

/-- A multiplication does to the machine what the interpreter does to the registers. -/
theorem exec_mulReg (x : Mul) (v : Machine) : execAll access (mulReg x) (v.state []) =
    some (({ v with file := x.exec id v.file } : Machine).state []) := by
  refine Wasm.execAll_append (exec_premul access x v []) ?_
  simp [execAll, Mul.exec, Mul.value, Wasm.Binop.apply]

theorem exec_xasReg (x : Xas) (v : Machine) : execAll access (xasReg x) (v.state []) =
    some (({ v with file := x.exec id v.file } : Machine).state []) := by
  refine Wasm.execAll_append (exec_preXas access x v []) ?_
  simp [execAll, Xas.exec, Xas.value, postBinop_apply]

section Mem

variable {access} {m : Memory} {v : Machine} (hm : Scratch access m (v.mp.setWidth 64) v.mem)
  (hmp : v.mp.toNat + 2048 ≤ 2 ^ 32) (hmm : v.mm = 2040)
include hm hmp hmm

/-- The stack gets the scratchpad word that the source register addresses. -/
theorem exec_memSrc (src : Fin 8) (st : List Value) : execAll access (memSrc src) (v.state st) =
    some (v.state (.i64 (loadWord m (v.file src)) :: st)) := by
  have hand : Wasm.Binop.and.apply (v.file src) v.mm = v.file src &&& 2040 := by
    rw [hmm]
    rfl
  have hload := exec_load access v st 3 (effective_wordOffset hmp (v.file src))
    (hm.readable_offset _)
  rw [hm.load_offset] at hload
  simp only [memSrc, execAll, exec_get_file, exec_get_mm, exec_binop, hand, exec_wrap, exec_get_mp,
    exec_add32, hload, bind, Option.bind_some]

/-- The operand of a multiplication is loaded first, so the factors are in the other order. -/
theorem exec_mulMem (x : Mul) : execAll access (mulMem x) (v.state []) =
    some (({ v with file := x.exec (loadWord m) v.file } : Machine).state []) := by
  refine Wasm.execAll_append (exec_memSrc hm hmp hmm x.src []) ?_
  refine Wasm.execAll_append (exec_premul access x v _) ?_
  simp [execAll, Mul.exec, Mul.value, Wasm.Binop.apply, BitVec.mul_comm]

/-- The operand is loaded after the shift, from the unchanged source register. -/
theorem exec_xasMem (x : Xas) : execAll access (xasMem x) (v.state []) =
    some (({ v with file := x.exec (loadWord m) v.file } : Machine).state []) := by
  refine Wasm.execAll_append (exec_preXas access x v []) ?_
  refine Wasm.execAll_append (exec_memSrc hm hmp hmm x.src _) ?_
  simp [execAll, Xas.exec, Xas.value, postBinop_apply]

end Mem

end Families

end HashWX.CompilerWasm
