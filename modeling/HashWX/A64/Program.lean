import HashWX.A64.Instructions

/-!
# The code of one program

Both forms of a program are a scheduled block, the branch, which also counts, one more
multiplication, and the jump back. The first form then stores the registers in pairs
while the last instruction is still under way.
-/

namespace HashWX.CompilerA64

open A64 ByteMemory Assignments ForLoop
open CodeMachine

/-! ## Bytes -/

section Bytes

variable (t : Layout)

/-- The loop of `compile_program_reg` up to the branch. -/
def regFront : List Byte :=
  emitMul t.rmcg0.dst (8 + t.rmcg0.src + 4) ++ preXasCode t.xas1 ++ emitMov 14 t.xas1.src ++
    premulCode t.mul2 ++ xasCode t.xas1 14 ++ emitMul t.mul2.dst t.mul2.src ++ preXasCode t.xas3 ++
    emitRor t.rmcg0.dst t.rmcg0.imm ++ xasCode t.xas3 t.xas3.src ++ premulCode t.mul4 ++
    emitMul t.mul4.dst t.mul4.src ++ preXasCode t.xas5 ++ emitOrr 14 t.rmcg0.dst 9 ++
    xasCode t.xas5 t.xas5.src ++ premulCode t.mul6

/-- `and dst, src, 2040; ldr dst, [sp, dst]`. -/
def fetchCode (dst src : Nat) : List Byte := emitAnd2040 dst src ++ emitLdrSp dst

/-- The loop of `compile_program_mem` up to the branch. -/
def memFront : List Byte :=
  fetchCode 15 t.xas1.src ++ preXasCode t.xas1 ++ emitMul t.rmcg0.dst (8 + t.rmcg0.src + 4) ++
    xasCode t.xas1 15 ++ fetchCode 16 t.mul2.src ++ fetchCode 17 t.xas3.src ++ premulCode t.mul2 ++
    preXasCode t.xas3 ++ emitRor t.rmcg0.dst t.rmcg0.imm ++ emitMul t.mul2.dst 16 ++ xasCode t.xas3 17 ++
    fetchCode 16 t.mul4.src ++ fetchCode 17 t.xas5.src ++ premulCode t.mul4 ++ preXasCode t.xas5 ++
    emitOrr 14 t.rmcg0.dst 9 ++ emitMul t.mul4.dst 16 ++ xasCode t.xas5 17 ++
    fetchCode 16 t.mul6.src ++ fetchCode 17 t.xas8.src ++ premulCode t.mul6

/-- A loop: the block, the branch, the multiplication and the jump. -/
def loopCode (front last : List Byte) : List Byte :=
  front ++ (codeBranch ++ (last ++ emitBeq (front.length + 12) 0))

/-- `stp` of the pair number `p` in the order of the table, which repeats. -/
def pairCode (p : Fin 7) : List Byte := le32 storePair[p]

/-- The stores of the first form, with instruction 8 between them. -/
def storeCode (x : Xas) : List Byte :=
  pairCode ⟨x.dst / 2, by omega⟩ ++ preXasCode x ++ pairCode ⟨x.dst / 2 + 1, by omega⟩ ++
    xasCode x x.src ++ pairCode ⟨x.dst / 2 + 2, by omega⟩ ++ pairCode ⟨x.dst / 2 + 3, by omega⟩

/-- `sub sp, sp, 64`. -/
def codeSubSp : List Byte := le32 0xd10103ff

/-- The code of a program of the first phase. -/
def regCode : List Byte :=
  codeSubSp ++ (loopCode (regFront t) (emitMul t.mul6.dst t.mul6.src) ++ storeCode t.xas8)

/-- The code of a program of the second phase; the operand of instruction 8 is loaded inside of the loop. -/
def memCode : List Byte :=
  loopCode (memFront t) (emitMul t.mul6.dst 16) ++ (preXasCode t.xas8 ++ xasCode t.xas8 17)

end Bytes

@[simp] theorem preXasCode_length (x : Xas) : (preXasCode x).length = 4 := by
  unfold preXasCode
  cases x.pre <;> rfl

@[simp] theorem xasCode_length (x : Xas) (src : Nat) : (xasCode x src).length = 4 := by
  unfold xasCode
  cases x.post <;> rfl

@[simp] theorem le32_length (x : BitVec 32) : (le32 x).length = 4 := by
  unfold le32
  rfl

@[simp] theorem emitMul_length (dst src : Nat) : (emitMul dst src).length = 4 := le32_length _

@[simp] theorem emitRor_length (dst count : Nat) : (emitRor dst count).length = 4 := le32_length _

@[simp] theorem emitMov_length (dst src : Nat) : (emitMov dst src).length = 4 := le32_length _

@[simp] theorem emitOrr_length (dst src1 src2 : Nat) : (emitOrr dst src1 src2).length = 4 :=
  le32_length _

@[simp] theorem premulCode_length (x : Mul) : (premulCode x).length = 4 := le32_length _

@[simp] theorem emitBeq_length (pos target : Nat) : (emitBeq pos target).length = 4 := le32_length _

@[simp] theorem pairCode_length (p : Fin 7) : (pairCode p).length = 4 := le32_length _

@[simp] theorem codeSubSp_length : codeSubSp.length = 4 := le32_length _

@[simp] theorem fetchCode_length (dst src : Nat) : (fetchCode dst src).length = 8 := by
  unfold fetchCode emitAnd2040 emitLdrSp
  rw [List.length_append, le32_length, le32_length]

theorem regFront_length (t : Layout) : (regFront t).length = 60 := by
  simp [regFront]

theorem memFront_length (t : Layout) : (memFront t).length = 112 := by
  unfold memFront
  simp only [List.length_append]
  simp only [fetchCode_length, preXasCode_length, xasCode_length, emitMul_length, emitRor_length,
    emitOrr_length, premulCode_length]

theorem loopCode_length (front : List Byte) (d m : Nat) :
    (loopCode front (emitMul d m)).length = front.length + 16 := by
  have hbranch : codeBranch.length = 8 := rfl
  simp [loopCode, hbranch]

/-- The size does not depend on the program. -/
theorem regCode_length (t : Layout) : (regCode t).length = 104 := by
  simp [regCode, storeCode, loopCode_length, regFront_length]

theorem memCode_length (t : Layout) : (memCode t).length = 136 := by
  simp [memCode, loopCode_length, memFront_length]

/-- The offset of a branch depends on the distance alone. -/
theorem emitBeq_shift (pos start : Nat) : emitBeq (start + pos) start = emitBeq pos 0 := by
  have h : u32 start - u32 (start + pos) = u32 0 - u32 pos := by
    rw [u32, u32, u32, u32, BitVec.ofNat_add]
    simp
  rw [emitBeq, emitBeq, h]

/-- The jump of a loop counts from its own place. -/
theorem emitBeq_loop (pos front : List Byte) (d m : Nat) :
    emitBeq (pos ++ front ++ codeBranch ++ emitMul d m).length pos.length =
      emitBeq (front.length + 12) 0 := by
  have hbranch : codeBranch.length = 8 := rfl
  rw [List.length_append, List.length_append, List.length_append, hbranch, emitMul_length,
    Nat.add_assoc, Nat.add_assoc, emitBeq_shift]

section Compile

variable {t : Layout} {program : Program} (h : t.Describes program) (pos : List Byte)
include h

/-- For a program that holds the layout, the compiler emits its code and cannot fail. -/
theorem compileProgramReg_eq : compileProgramReg program pos = some (pos ++ regCode t) := by
  have hpair (p : Fin 7) : FinArray.load storePair p = some storePair[p] := FinArray.load_val _ p
  have hlt := t.xas8.dst.isLt
  have hpair0 := hpair ⟨t.xas8.dst / 2, by omega⟩
  have hpair1 := hpair ⟨t.xas8.dst / 2 + 1, by omega⟩
  have hpair2 := hpair ⟨t.xas8.dst / 2 + 2, by omega⟩
  have hpair3 := hpair ⟨t.xas8.dst / 2 + 3, by omega⟩
  dsimp only at hpair0 hpair1 hpair2 hpair3
  have hfront := emitBeq_loop (pos ++ codeSubSp) (regFront t) t.mul6.dst t.mul6.src
  unfold compileProgramReg
  simp only [h.code0, h.code1, h.code2, h.code3, h.code4, h.code5, h.code6, h.code8, emitPreXas_eq,
    emitXas_eq, emitPremul_eq, bind, Option.bind_some, pure]
  simp only [Rmcg.instruction, Mul.instruction, Xas.instruction, hpair0, hpair1, hpair2, hpair3,
    Option.bind_some]
  simp only [regFront, codeSubSp, List.append_assoc] at hfront
  simp only [regCode, loopCode, regFront, storeCode, pairCode, codeSubSp, List.append_assoc, hfront]

theorem compileProgramMem_eq : compileProgramMem program pos = some (pos ++ memCode t) := by
  have hfront := emitBeq_loop pos (memFront t) t.mul6.dst 16
  unfold compileProgramMem
  simp only [h.code0, h.code1, h.code2, h.code3, h.code4, h.code5, h.code6, h.code8, emitPreXas_eq,
    emitXas_eq, emitPremul_eq, bind, Option.bind_some, pure]
  simp only [Rmcg.instruction, Mul.instruction, Xas.instruction]
  unfold memFront fetchCode at hfront
  unfold memCode loopCode memFront fetchCode
  simp only [List.append_assoc] at hfront ⊢
  rw [hfront]

end Compile

/-! ## The loop -/

section Fronts

variable {access : Access} {ctx : Word → Bytes 64 → Prop} (t : Layout)

/-- The loop without its last instruction does the schedule without its last assignment. -/
theorem does_regFront : Does access ctx (regFront t) (regSchedule t).dropLast := by
  have hmul (x : Mul) : Does access ctx (emitMul x.dst x.src) [mul x (vreg x.src)] :=
    does_mul x.dst (x.src.castLE (by decide))
  have hxas (x : Xas) : Does access ctx (xasCode x x.src) [xas x (vreg x.src)] :=
    does_xas x (x.src.castLE (by decide))
  have hxas1 (x : Xas) : Does access ctx (xasCode x 14) [xas x (tmp 0)] := does_xas x 14
  have hdoes := (((((((((((((does_rmcgMul t.rmcg0).append (does_preXas t.xas1)).append
    (does_mov t.xas1.src)).append (does_premul t.mul2)).append (hxas1 t.xas1)).append
    (hmul t.mul2)).append (does_preXas t.xas3)).append (does_rmcgRor t.rmcg0)).append
    (hxas t.xas3)).append (does_premul t.mul4)).append (hmul t.mul4)).append
    (does_preXas t.xas5)).append (does_orrCount t.rmcg0.dst)).append (hxas t.xas5) |>.append
    (does_premul t.mul6 : Does access ctx _ _)
  simp only [List.cons_append, List.nil_append] at hdoes
  unfold regFront
  exact hdoes

theorem does_regLast : Does access ctx (emitMul t.mul6.dst t.mul6.src)
    [mul t.mul6 (vreg t.mul6.src)] :=
  does_mul t.mul6.dst (t.mul6.src.castLE (by decide))

theorem does_fetchCode (m : Memory) (i : Fin 4) (src : Fin 8) :
    Does access (AlignedScratch access m) (fetchCode (14 + i) src) [fetch (loadWord m) (tmp i) src] :=
  does_fetch m i src

/-- The loads come early, and the schedule says where. -/
theorem does_memFront (m : Memory) :
    Does access (AlignedScratch access m) (memFront t) (memSchedule t (loadWord m)).dropLast := by
  have hfetch1 (src : Fin 8) : Does access (AlignedScratch access m) (fetchCode 15 src)
      [fetch (loadWord m) (tmp 1) src] := does_fetchCode m 1 src
  have hfetch2 (src : Fin 8) : Does access (AlignedScratch access m) (fetchCode 16 src)
      [fetch (loadWord m) (tmp 2) src] := does_fetchCode m 2 src
  have hfetch3 (src : Fin 8) : Does access (AlignedScratch access m) (fetchCode 17 src)
      [fetch (loadWord m) (tmp 3) src] := does_fetchCode m 3 src
  have hmul2 (x : Mul) : Does access (AlignedScratch access m) (emitMul x.dst 16) [mul x (tmp 2)] :=
    does_mul x.dst 16
  have hxas1 (x : Xas) : Does access (AlignedScratch access m) (xasCode x 15) [xas x (tmp 1)] :=
    does_xas x 15
  have hxas3 (x : Xas) : Does access (AlignedScratch access m) (xasCode x 17) [xas x (tmp 3)] :=
    does_xas x 17
  have hdoes := ((((((((((((((((((((hfetch1 t.xas1.src).append (does_preXas t.xas1)).append
    (does_rmcgMul t.rmcg0)).append (hxas1 t.xas1)).append (hfetch2 t.mul2.src)).append
    (hfetch3 t.xas3.src)).append (does_premul t.mul2)).append (does_preXas t.xas3)).append
    (does_rmcgRor t.rmcg0)).append (hmul2 t.mul2)).append (hxas3 t.xas3)).append
    (hfetch2 t.mul4.src)).append (hfetch3 t.xas5.src)).append
    (does_premul t.mul4)).append (does_preXas t.xas5)).append (does_orrCount t.rmcg0.dst)).append
    (hmul2 t.mul4)).append (hxas3 t.xas5)).append
    (hfetch2 t.mul6.src)).append (hfetch3 t.xas8.src)).append
    (does_premul t.mul6 : Does access (AlignedScratch access m) _ _)
  simp only [List.cons_append, List.nil_append] at hdoes
  unfold memFront
  exact hdoes

theorem does_memLast : Does access ctx (emitMul t.mul6.dst 16) [mul t.mul6 (tmp 2)] :=
  does_mul t.mul6.dst 16

end Fronts

section Branch

variable (access : Access)

theorem assembles_branch : (isa access).Assembles
    [.ands 31 (tmp 0) 32, .csinc countReg countReg countReg .ne] codeBranch :=
  assembles (by decide +kernel)

/-- The jumps of the two loops lead back to their beginnings. -/
theorem decode_beq :
    decode (emitBeq (60 + 12) 0) = some (.branch .eq (-(60 + 12 : Nat)), []) ∧
      decode (emitBeq (112 + 12) 0) = some (.branch .eq (-(112 + 12 : Nat)), []) := by decide +kernel

theorem exec_tst (s : State) : (isa access).exec (.ands 31 (tmp 0) 32) s =
    some (.fall, { s with z := s.x (tmp 0) &&& 32 == 0 }) := by
  show some (Next.fall, { s.set 31 _ with z := s.get (tmp 0) &&& 32 == 0 }) = _
  rw [State.set, if_pos rfl, State.get, if_neg (tmp_ne_31 0)]

/-- The counter is incremented where the flag asks for another pass. -/
theorem exec_cinc (s : State) : (isa access).exec (.csinc countReg countReg countReg .ne) s =
    some (.fall, s.setX countReg (if s.z then s.x countReg + 1 else s.x countReg)) := by
  have hcount : countReg ≠ 31 := by decide
  cases hz : s.z <;> simp [isa, exec, State.get, State.set, Cond.holds, hcount, hz]

/-- `tst x14, 32; cinc x9, x9, eq`. -/
theorem execAll_branch (s : State) :
    (isa access).execAll [.ands 31 (tmp 0) 32, .csinc countReg countReg countReg .ne] s =
      some ({ s with z := s.x (tmp 0) &&& 32 == 0 }.setX countReg
        (if s.x (tmp 0) &&& 32 == 0 then s.x countReg + 1 else s.x countReg)) :=
  (Isa.execAll_cons (exec_tst access s)).trans (Isa.execAll_cons (exec_cinc access _))

theorem and_32_eq_zero (v : Word) : (v &&& 32 == 0) = !v.getLsbD 5 := by
  have h32 : (32 : Word) = BitVec.twoPow 64 5 := rfl
  have hne : (BitVec.twoPow 64 5 == 0#64) = false := by decide
  rw [h32, BitVec.and_twoPow]
  cases v.getLsbD 5
  · rfl
  · exact hne

end Branch

/-- `b` branches are left at the loop head. -/
structure Head (s₀ : State) (b : Nat) (f : RegFile) (s : State) : Prop where
  le : b ≤ 32
  count : s.x countReg = BitVec.ofNat 64 (32 - b)
  file : file s.x = f
  fixed : Fixed s₀ s

/-- A granted request is counted. -/
theorem count_spent {b : Nat} (hb : b ≤ 32) (again : Bool) :
    (if again && b != 0 then BitVec.ofNat 64 (32 - b) + 1 else BitVec.ofNat 64 (32 - b)) =
      BitVec.ofNat 64 (32 - (if b ≠ 0 ∧ again = true then b - 1 else b)) := by
  by_cases h : b ≠ 0 ∧ again = true
  · have hsucc : 32 - (b - 1) = 32 - b + 1 := by omega
    rw [if_pos h, h.2, bne_iff_ne.mpr h.1, hsucc, BitVec.ofNat_add]
    rfl
  · have hfalse : (again && b != 0) = false := by
      rw [Bool.and_comm]
      simpa using h
    rw [if_neg h, hfalse]
    rfl

/-- The constants R8 and R9. -/
def consts (s : State) : Consts := fun j => s.x (creg j)

theorem not_work_creg (j : Fin 2) : ¬ Work (creg j) ∧ creg j ≠ countReg := by
  unfold Work
  revert j
  decide

/-- R8 and R9 are not among the working registers. -/
theorem Fixed.consts {s s' : State} (h : Fixed s s') : consts s' = consts s :=
  funext fun j => h.x _ (not_work_creg j).1 (not_work_creg j).2

theorem not_work_count : ¬ Work countReg := by
  unfold Work
  decide

section Loop

variable {access : Access} {ctx : Word → Bytes 64 → Prop} {ld : Word → Word} {t : Layout}
  {front last : List Byte} {as : List Op} {a : Op} {Q : (Fin 32 → Word) → Prop}
  (hfront : Does access ctx front as) (hlast : Does access ctx last [a])
  (hcount : a.left ≠ countReg ∧ a.right ≠ countReg) (hflag : tmp 0 ≠ a.dst)
  (hspec : ∀ x, Scheduled t ld x (runAll (as ++ [a]) x) ∧ Q (runAll (as ++ [a]) x))
  (hQ : ∀ x v, Q x → Q (Function.update x countReg v))
  {s₀ : State} (hctx : Holds ctx s₀)
include hfront hlast hcount hflag hspec hQ hctx

/-- A pass up to the jump. -/
theorem pass_exec {b : Nat} {f : RegFile} {s : State} (hs : Head s₀ b f s) :
    ∃ is s', (isa access).Assembles is (front ++ (codeBranch ++ last)) ∧
      (isa access).execAll is s = some s' ∧
      s'.z = ((t.pass ld (consts s₀) f).1 && b != 0) ∧
      Head s₀ (if b ≠ 0 ∧ (t.pass ld (consts s₀) f).1 = true then b - 1 else b)
        (t.pass ld (consts s₀) f).2 s' ∧ Q s'.x := by
  obtain ⟨is, his, hexec₁⟩ := hfront.straight
  obtain ⟨js, hjs, hexec₃⟩ := hlast.straight
  have hfixed₁ : Fixed s (assignAll as s) := fixed_assignAll hfront.work s
  have hctx₁ := hctx.of_fixed (hs.fixed.trans hfixed₁)
  obtain ⟨hsched, hq⟩ := hspec s.x
  have hrun : runAll (as ++ [a]) s.x = a.run (runAll as s.x) := runAll_append as [a] s.x
  rw [hrun] at hsched hq
  -- The flag and the count are not affected by the last multiplication.
  have hcount₁ : (assignAll as s).x countReg = BitVec.ofNat 64 (32 - b) :=
    (runAll_of_ne (fun c hc (he : _ = c.dst) => not_work_count (by rw [he]; exact hfront.work c hc))
      s.x).trans hs.count
  have hconsts : (fun j => s.x (creg j)) = consts s₀ := hs.fixed.consts
  have hflag₁ : (assignAll as s).x (tmp 0) =
      t.rmcg0.value (consts s₀) f ||| BitVec.ofNat 64 (32 - b) := by
    have hvalue := hsched.flag
    rw [Assign.run_of_ne hflag, hconsts, hs.file, hs.count] at hvalue
    exact hvalue
  have hz : ((assignAll as s).x (tmp 0) &&& 32 == 0) = ((t.pass ld (consts s₀) f).1 && b != 0) := by
    rw [hflag₁, and_32_eq_zero, flag_or_spent _ hs.le, Bool.not_or]
    rfl
  have hexec₂ := execAll_branch access (assignAll as s)
  rw [hz, hcount₁] at hexec₂
  let z := (t.pass ld (consts s₀) f).1 && b != 0
  let v := if z then BitVec.ofNat 64 (32 - b) + 1 else BitVec.ofNat 64 (32 - b)
  let s₂ := ({ assignAll as s with z := z }.setX countReg v)
  have hfixed₂ : Fixed (assignAll as s) s₂ :=
    ⟨fun r _ hr => Function.update_of_ne (β := fun _ => Word) hr v _, rfl, rfl⟩
  have hdst : a.dst ≠ countReg := fun he => not_work_count (he ▸ hlast.work a (List.mem_singleton_self a))
  have hx : (assignAll [a] s₂).x = Function.update (a.run (runAll as s.x)) countReg v :=
    Assign.run_update hdst hcount.1 hcount.2 _ v
  refine ⟨is ++ (_ ++ js), assignAll [a] s₂, his.append ((assembles_branch access).append hjs),
    Isa.execAll_trans (hexec₁ s (hctx.of_fixed hs.fixed)) (Isa.execAll_trans hexec₂
      (hexec₃ s₂ (hctx₁.of_fixed hfixed₂))), rfl, ⟨?_, ?_, ?_, ?_⟩, ?_⟩
  · have hle := hs.le
    split <;> omega
  · rw [hx, Function.update_self]
    exact count_spent hs.le _
  · rw [hx, file_update_count, hsched.file, hconsts, hs.file]
  · exact hs.fixed.trans (hfixed₁.trans (hfixed₂.trans (fixed_assignAll hlast.work s₂)))
  · rw [hx]
    exact hQ _ v hq

variable (hlen : last.length = 4)
  (hbeq : decode (emitBeq (front.length + 12) 0) =
    some (.branch .eq (-(front.length + 12 : Nat)), []))
  {code : List Byte} {pc : Nat} (hcode : Isa.CodeAt code pc (loopCode front last))
include hlen hbeq hcode

/-- A pass returns to the loop head or goes on behind the loop. -/
theorem pass_runs {b : Nat} {f : RegFile} {s : State} (hs : Head s₀ b f s) :
    ∃ s', Head s₀ (if b ≠ 0 ∧ (t.pass ld (consts s₀) f).1 = true then b - 1 else b)
        (t.pass ld (consts s₀) f).2 s' ∧ Q s'.x ∧
      if b ≠ 0 ∧ (t.pass ld (consts s₀) f).1 = true then
        (isa access).Runs code 1 ⟨.inside pc, s⟩ ⟨.inside pc, s'⟩
      else (isa access).Runs code 0 ⟨.inside pc, s⟩ ⟨.inside (pc + (front.length + 16)), s'⟩ := by
  obtain ⟨is, s', his, hexec, hz, hhead, hq⟩ :=
    pass_exec hfront hlast hcount hflag hspec hQ hctx hs
  have hsplit : loopCode front last =
      (front ++ (codeBranch ++ last)) ++ emitBeq (front.length + 12) 0 := by
    simp only [loopCode, List.append_assoc]
  have hpart : (front ++ (codeBranch ++ last)).length = front.length + 12 := by
    have hbranch : codeBranch.length = 8 := rfl
    rw [List.length_append, List.length_append, hbranch, hlen]
  rw [hsplit] at hcode
  obtain ⟨hblock, hjump⟩ := Isa.codeAt_append.mp hcode
  have hruns := Isa.runs_execAll his hblock hexec
  rw [hpart] at hruns hjump
  have hbranch : (isa access).exec (.branch .eq (-(front.length + 12 : Nat))) s' =
      some (if (t.pass ld (consts s₀) f).1 && b != 0 then .jump (-(front.length + 12 : Nat) - 4)
        else .fall, s') := by
    rw [← hz]
    rfl
  have hiff : ((t.pass ld (consts s₀) f).1 && b != 0) = true ↔
      b ≠ 0 ∧ (t.pass ld (consts s₀) f).1 = true := by
    rw [Bool.and_eq_true, bne_iff_ne, and_comm]
  refine ⟨s', hhead, hq, ?_⟩
  by_cases h : b ≠ 0 ∧ (t.pass ld (consts s₀) f).1 = true
  · rw [if_pos h]
    rw [if_pos (hiff.mpr h)] at hbranch
    refine hruns.trans (Isa.runs_jump hjump (encodes hbeq) hbranch ?_)
    rw [emitBeq_length]
    omega
  · rw [if_neg h]
    rw [if_neg fun hb => h (hiff.mp hb)] at hbranch
    have hfwd := Isa.runs_fall hjump (encodes hbeq) hbranch
    rw [emitBeq_length, Nat.add_assoc pc, Nat.add_assoc front.length] at hfwd
    exact hruns.trans hfwd

/-- The loop of a program takes one jump for every branch that it spends. -/
theorem loop_runs {b : Nat} {f : RegFile} {s : State} (hs : Head s₀ b f s) :
    let u := BoundedLoop.run (t.pass ld (consts s₀)) b f
    ∃ s', (isa access).Runs code (b - u.2) ⟨.inside pc, s⟩
      ⟨.inside (pc + (front.length + 16)), s'⟩ ∧ Head s₀ u.2 u.1 s' ∧ Q s'.x := by
  intro u
  have hagain : ∀ b f cfg, Isa.At id pc (Head s₀ b f) cfg → b ≠ 0 →
      (t.pass ld (consts s₀) f).1 = true → ∃ cfg', (isa access).Runs code 1 cfg cfg' ∧
        Isa.At id pc (Head s₀ (b - 1) (t.pass ld (consts s₀) f).2) cfg' := by
    rintro b f _ ⟨s, rfl, hs⟩ hb htrue
    obtain ⟨s', hhead, -, hruns⟩ :=
      pass_runs hfront hlast hcount hflag hspec hQ hctx hlen hbeq hcode hs
    rw [if_pos ⟨hb, htrue⟩] at hhead hruns
    exact ⟨_, hruns, s', rfl, hhead⟩
  have hstop : ∀ b f cfg, Isa.At id pc (Head s₀ b f) cfg →
      ¬(b ≠ 0 ∧ (t.pass ld (consts s₀) f).1 = true) → ∃ cfg', (isa access).Runs code 0 cfg cfg' ∧
        Isa.At id (pc + (front.length + 16))
          (fun s => Head s₀ b (t.pass ld (consts s₀) f).2 s ∧ Q s.x) cfg' := by
    rintro b f _ ⟨s, rfl, hs⟩ hfalse
    obtain ⟨s', hhead, hq, hruns⟩ :=
      pass_runs hfront hlast hcount hflag hspec hQ hctx hlen hbeq hcode hs
    rw [if_neg hfalse] at hhead hruns
    exact ⟨_, hruns, s', rfl, hhead, hq⟩
  obtain ⟨_, hruns, s', rfl, hdone⟩ := BoundedLoop.run_simulated (t.pass ld (consts s₀))
    (fun b f => Isa.At id pc (Head s₀ b f))
    (fun b f => Isa.At id (pc + (front.length + 16)) fun s => Head s₀ b f s ∧ Q s.x)
    WeightedRun.Run.trans hagain hstop b f _ ⟨s, rfl, hs⟩
  rw [smul_eq_mul, Nat.mul_one, Nat.add_zero] at hruns
  exact ⟨s', hruns, hdone⟩

end Loop

end HashWX.CompilerA64
