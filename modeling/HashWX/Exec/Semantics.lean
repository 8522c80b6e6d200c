import HashWX.Program.Layout
import HashWX.Lib.BoundedLoop

/-!
# What a layout computes

The common meaning of a program that the interpreters, the document and the three
compilers are compared with. R0-R7 are a function, R8 and R9 are constants, a program
is a loop with a budget of branches, and the way a source operand is loaded is a
parameter: the register itself in the first phase, a memory word in the second.
-/

namespace HashWX

open Siphash BitRotate ForLoop

/-- R0-R7. -/
abbrev RegFile := Fin 8 → Word

/-- R8 and R9. -/
abbrev Consts := Fin 2 → Word

/-- The 256 words of the scratchpad. -/
abbrev Memory := Fin 256 → Word

def MulOp.apply : MulOp → Word → Word → Word
  | .or, d, imm => d ||| imm
  | .xor, d, imm => d ^^^ imm
  | .add, d, imm => d + imm

def PreOp.apply : PreOp → Word → Nat → Word
  | .ror, d, imm => rotr d imm
  | .asr, d, imm => d.sshiftRight imm
  | .lsr, d, imm => d >>> imm

def PostOp.apply : PostOp → Word → Word → Word
  | .xor, d, v => d ^^^ v
  | .add, d, v => d + v
  | .sub, d, v => d - v

/-- The product, rotated: the new value of the destination and of the branch flag. -/
def Rmcg.value (x : Rmcg) (c : Consts) (f : RegFile) : Word := rotr (f x.dst * c x.src) x.imm

def Rmcg.exec (x : Rmcg) (c : Consts) (f : RegFile) : RegFile :=
  Function.update f x.dst (x.value c f)

section Load

variable (ld : Word → Word)

def Mul.value (x : Mul) (f : RegFile) : Word :=
  x.op.apply (f x.dst) (BitVec.ofNat 64 x.imm) * ld (f x.src)

def Mul.exec (x : Mul) (f : RegFile) : RegFile := Function.update f x.dst (x.value ld f)

def Xas.value (x : Xas) (f : RegFile) : Word :=
  x.post.apply (x.pre.apply (f x.dst) x.imm) (ld (f x.src))

def Xas.exec (x : Xas) (f : RegFile) : RegFile := Function.update f x.dst (x.value ld f)

theorem Mul.exec_of_ne {x : Mul} {f : RegFile} {k : Fin 8} (h : k ≠ x.dst) : x.exec ld f k = f k :=
  Function.update_of_ne h _ f

theorem Xas.exec_of_ne {x : Xas} {f : RegFile} {k : Fin 8} (h : k ≠ x.dst) : x.exec ld f k = f k :=
  Function.update_of_ne h _ f

namespace Layout

variable (t : Layout) (c : Consts)

/-- The instructions 1 to 6. -/
def body (f : RegFile) : RegFile :=
  t.mul6.exec ld (t.xas5.exec ld (t.mul4.exec ld (t.xas3.exec ld (t.mul2.exec ld (t.xas1.exec ld f)))))

/-- The instructions 0 to 7: whether the branch asks for another pass, and the registers. -/
def pass (f : RegFile) : Bool × RegFile :=
  (!(t.rmcg0.value c f).getLsbD 5, t.body ld (t.rmcg0.exec c f))

/-- A whole program, with the branch budget. -/
def run (s : RegFile × Nat) : RegFile × Nat :=
  let s := BoundedLoop.run (t.pass ld c) s.2 s.1
  (t.xas8.exec ld s.1, s.2)

/-- Nothing after RMCG writes its destination again. -/
theorem Shuffled.body_rmcg {t : Layout} (hs : t.Shuffled) (ld : Word → Word) (f : RegFile) :
    t.body ld f t.rmcg0.dst = f t.rmcg0.dst := by
  show t.body ld f (t.dst 0) = f (t.dst 0)
  have hne (k : Fin 8) (hk : k ≠ 0) : t.dst 0 ≠ t.dst k := fun he => hk (hs.dst_injective he).symm
  rw [Layout.body, Mul.exec_of_ne ld (hne 6 (by decide)), Xas.exec_of_ne ld (hne 5 (by decide)),
    Mul.exec_of_ne ld (hne 4 (by decide)), Xas.exec_of_ne ld (hne 3 (by decide)),
    Mul.exec_of_ne ld (hne 2 (by decide)), Xas.exec_of_ne ld (hne 1 (by decide))]

theorem run_budget_le (s : RegFile × Nat) : (t.run ld c s).2 ≤ s.2 :=
  BoundedLoop.run_budget_le _ _ _

end Layout

end Load

/-- Compiled code counts the branches spent, and combines the count with the flag: bit 5 of
the count is set when the budget is used up. -/
theorem flag_or_spent (m : Word) {b : Nat} (hb : b ≤ 32) :
    (m ||| BitVec.ofNat 64 (32 - b)).getLsbD 5 = (m.getLsbD 5 || b == 0) := by
  rw [BitVec.getLsbD_or, BitVec.getLsbD_ofNat]
  rcases Nat.eq_zero_or_pos b with rfl | hpos
  · rfl
  · have hlt : 32 - b < 2 ^ 5 := by omega
    rw [Nat.testBit_lt_two_pow hlt, beq_false_of_ne (Nat.ne_of_gt hpos), Bool.and_false]

/-- The word that takes register `j` of program `i`. -/
def topIndex (i : Fin 32) (j : Fin 8) : Fin 256 := ⟨255 - 8 * i - j, by omega⟩

/-- The registers of program `i` go to the eight words that end at `255 - 8 * i`. -/
def storeFile (i : Fin 32) (f : RegFile) (mem : Memory) : Memory := fun a =>
  if a.val / 8 = 31 - i.val then f ⟨7 - a.val % 8, by omega⟩ else mem a

/-- The word a register addresses. -/
def loadWord (mem : Memory) (a : Word) : Word := mem (Fin.ofNat 256 (a.toNat / 8))

/-- Program `i` of the first phase, and its stores. -/
def writeLayout (ts : Fin 32 → Layout) (c : Consts) (s : (RegFile × Nat) × Memory) (i : Fin 32) :
    (RegFile × Nat) × Memory :=
  let u := (ts i).run id c s.1
  (u, storeFile i u.1 s.2)

/-- Program `i` of the second phase. -/
def readLayout (ts : Fin 32 → Layout) (c : Consts) (mem : Memory) (s : RegFile × Nat)
    (i : Fin 32) : RegFile × Nat :=
  (ts i).run (loadWord mem) c s

/-- The mask that the document and the compilers use to address a word. -/
theorem and_mask (n : Nat) : n &&& 2040 = 8 * (n / 8 % 256) := by
  apply Nat.eq_of_testBit_eq
  intro i
  have hmask : 2040 = (2 ^ 8 - 1) <<< 3 := rfl
  have hshift : 8 * (n / 8 % 256) = ((n >>> 3) % 2 ^ 8) <<< 3 := by
    rw [Nat.shiftLeft_eq, Nat.shiftRight_eq_div_pow, Nat.mul_comm]; rfl
  rw [Nat.testBit_and, hmask, hshift, Nat.testBit_shiftLeft, Nat.testBit_shiftLeft,
    Nat.testBit_two_pow_sub_one, Nat.testBit_mod_two_pow, Nat.testBit_shiftRight]
  by_cases hi : 3 ≤ i
  · rw [Nat.add_sub_cancel' hi, decide_eq_true hi, Bool.true_and, Bool.true_and, Bool.and_comm]
  · rw [decide_eq_false hi, Bool.false_and, Bool.false_and, Bool.and_false]

/-- The first `k` programs of the first phase; the results do not depend on the
scratchpad that it starts with. -/
def writeUpTo (ts : Fin 32 → Layout) (c : Consts) (f : RegFile) (k : Nat) (hk : k ≤ 32) :
    (RegFile × Nat) × Memory :=
  forLoop k (fun s i => writeLayout ts c s (i.castLE hk)) ((f, 32), fun _ => 0)

/-- The first `k` programs of the second phase. -/
def readUpTo (ts : Fin 32 → Layout) (c : Consts) (mem : Memory) (f : RegFile) (k : Nat) (hk : k ≤ 32) :
    RegFile × Nat :=
  forLoop k (fun s i => readLayout ts c mem s (i.castLE hk)) (f, 32)

def writePhase (ts : Fin 32 → Layout) (c : Consts) (f : RegFile) : (RegFile × Nat) × Memory :=
  writeUpTo ts c f 32 all_programs

def readPhase (ts : Fin 32 → Layout) (c : Consts) (mem : Memory) (f : RegFile) : RegFile × Nat :=
  readUpTo ts c mem f 32 all_programs

theorem writeUpTo_budget_le (ts : Fin 32 → Layout) (c : Consts) (f : RegFile) {k : Nat} (hk : k ≤ 32) :
    (writeUpTo ts c f k hk).1.2 ≤ 32 := by
  induction k with
  | zero => exact le_rfl
  | succ k ih => exact le_trans ((ts ⟨k, hk⟩).run_budget_le id c _) (ih (Nat.le_of_succ_le hk))

theorem readUpTo_budget_le (ts : Fin 32 → Layout) (c : Consts) (mem : Memory) (f : RegFile) {k : Nat}
    (hk : k ≤ 32) : (readUpTo ts c mem f k hk).2 ≤ 32 := by
  induction k with
  | zero => exact le_rfl
  | succ k ih => exact le_trans ((ts ⟨k, hk⟩).run_budget_le (loadWord mem) c _) (ih (Nat.le_of_succ_le hk))

/-- R0-R7 after both phases. -/
def executeLayouts (ts : Fin 32 → Layout) (c : Consts) (f : RegFile) : RegFile :=
  let s := writePhase ts c f
  (readPhase ts c s.2 s.1.1).1

end HashWX
