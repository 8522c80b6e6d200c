import HashWX.A64.Compiler
import HashWX.A64.Schedule
import HashWX.Exec.Scratchpad
import HashWX.Isa.A64

/-!
# The code of the assignments

What the emitted words decode to, and that a piece of code carries out a sequence of
assignments.
-/

namespace HashWX.CompilerA64

open A64 ByteMemory Assignments
open CodeMachine

/-! ## Bytes -/

def preXasCode (x : Xas) : List Byte :=
  match x.pre with
  | .ror => emitRor x.dst x.imm
  | .asr => emitAsr x.dst x.imm
  | .lsr => emitLsr x.dst x.imm

def xasCode (x : Xas) (src : Nat) : List Byte :=
  match x.post with
  | .xor => emitEor x.dst src
  | .add => emitAdd x.dst src
  | .sub => emitSub x.dst src

/-- The instruction that combines a register with 1, 9 or 33. -/
def premulWord (op : MulOp) (imm : Nat) : BitVec 32 :=
  match op with
  | .or => if imm = 1 then 0xb2400000 else if imm = 9 then 0xaa0a0000 else 0xaa0b0000
  | .xor => if imm = 1 then 0xd2400000 else if imm = 9 then 0xca0a0000 else 0xca0b0000
  | .add => if imm = 1 then 0x91000400 else if imm = 9 then 0x91002400 else 0x91008400

def premulCode (x : Mul) : List Byte := le32 (premulWord x.op x.imm ||| u32 x.dst <<< 5 ||| u32 x.dst)

theorem emitPreXas_eq (x : Xas) : emitPreXas x.instruction = some (preXasCode x) := by
  unfold preXasCode
  cases hpre : x.pre <;> cases hpost : x.post <;>
    simp only [emitPreXas, Xas.instruction, hpre, hpost, xasOpcode] <;> rfl

theorem emitXas_eq (x : Xas) (src : Nat) : emitXas x.instruction src = some (xasCode x src) := by
  unfold xasCode
  cases hpre : x.pre <;> cases hpost : x.post <;>
    simp only [emitXas, Xas.instruction, hpre, hpost, xasOpcode] <;> rfl

theorem emitPremul_eq (x : Mul) : emitPremul x.instruction = some (premulCode x) := by
  unfold premulCode
  rcases x.imm_mem with himm | himm | himm <;> cases hop : x.op <;>
    simp only [emitPremul, Mul.instruction, hop, himm, MulOp.opcode] <;> rfl

/-! ## Decoding -/

def PreOp.shift : PreOp → ShiftOp
  | .ror => .ror
  | .asr => .asr
  | .lsr => .lsr

/-- Every word that these emitters can produce is decoded; there are few enough to try them all. -/
theorem decode_register : ∀ (d : Fin 8) (m : Fin 18),
    decode (emitMul d m) = some (.madd (vreg d) (vreg d) (m.castLE (by decide)) 31, []) ∧
    decode (emitEor d m) = some (.logic .eor (vreg d) (vreg d) (m.castLE (by decide)), []) ∧
    decode (emitAdd d m) = some (.addSub .add (vreg d) (vreg d) (m.castLE (by decide)), []) ∧
    decode (emitSub d m) = some (.addSub .sub (vreg d) (vreg d) (m.castLE (by decide)), []) := by
  decide +kernel

/-- The shifts that are not rotations have counts below four. -/
theorem decode_shift : ∀ (d : Fin 8) (k : Fin 64),
    decode (emitRor d k) = some (.shift .ror (vreg d) (vreg d) k, []) ∧
    (k.val < 4 → decode (emitLsr d k) = some (.shift .lsr (vreg d) (vreg d) k, []) ∧
      decode (emitAsr d k) = some (.shift .asr (vreg d) (vreg d) k, [])) := by
  decide +kernel

/-- Where the immediate of a MUL instruction comes from: the instruction, `x10` or `x11`. -/
def premulInstr (op : MulOp) (d : Reg) (imm : Fin 64) : Instr :=
  match op with
  | .or => if imm = 1 then .logicImm .orr d d 1 else .logic .orr d d (if imm = 9 then 10 else 11)
  | .xor => if imm = 1 then .logicImm .eor d d 1 else .logic .eor d d (if imm = 9 then 10 else 11)
  | .add => .addSubImm .add d d (BitVec.ofNat 64 imm)

/-- The immediates of the templates are 1, 9 and 33. -/
theorem decode_premul (op : MulOp) : ∀ (d : Fin 8) (imm : Fin 64), imm = 1 ∨ imm = 9 ∨ imm = 33 →
    decode (le32 (premulWord op imm ||| u32 d <<< 5 ||| u32 d)) =
      some (premulInstr op (vreg d) imm, []) := by
  cases op <;> decide +kernel

theorem decode_temporary : ∀ m : Fin 8,
    decode (emitMov 14 m) = some (.logic .orr (tmp 0) 31 (vreg m), []) ∧
    decode (emitOrr 14 m 9) = some (.logic .orr (tmp 0) (vreg m) countReg, []) ∧
    ∀ i : Fin 4, decode (emitAnd2040 (14 + i) m) = some (.logicImm .and (tmp i) (vreg m) 2040, []) ∧
      decode (emitLdrSp (14 + i)) = some (.ldr (tmp i) 31 (tmp i), []) := by
  decide +kernel

/-! ## Execution -/

/-- The registers that a program works with. -/
def Work (r : Reg) : Prop := r.val < 8 ∨ 14 ≤ r.val ∧ r.val < 18

theorem work_vreg (k : Fin 8) : Work (vreg k) := .inl k.isLt

theorem work_tmp (i : Fin 4) : Work (tmp i) := .inr ⟨Nat.le_add_right _ _, Nat.add_lt_add_left i.isLt 14⟩

def assignAll (ops : List Op) (s : State) : State := { s with x := runAll ops s.x }

/-- What no instruction of a program changes. -/
structure Fixed (s s' : State) : Prop where
  x : ∀ r, ¬ Work r → r ≠ countReg → s'.x r = s.x r
  sp : s'.sp = s.sp
  mem : s'.mem = s.mem

theorem Fixed.refl (s : State) : Fixed s s := ⟨fun _ _ _ => rfl, rfl, rfl⟩

theorem Fixed.trans {s s' s'' : State} (h : Fixed s s') (h' : Fixed s' s'') : Fixed s s'' :=
  ⟨fun r hr hc => (h'.x r hr hc).trans (h.x r hr hc), h'.sp.trans h.sp, h'.mem.trans h.mem⟩

theorem fixed_assignAll {ops : List Op} (h : ∀ a ∈ ops, Work a.dst) (s : State) :
    Fixed s (assignAll ops s) :=
  ⟨fun _ hr _ => runAll_of_ne (fun a ha (he : _ = a.dst) => hr (by rw [he]; exact h a ha)) s.x, rfl, rfl⟩

/-- The constants of the prologue, and a condition on the scratchpad. -/
structure Holds (ctx : Word → Bytes 64 → Prop) (s : State) : Prop where
  nine : s.x 10 = 9
  thirtyThree : s.x 11 = 33
  ctx : ctx s.sp s.mem

/-- The working registers are free to change: what the code relies on lies elsewhere. -/
theorem Holds.of_fixed {ctx : Word → Bytes 64 → Prop} {s s' : State} (h : Holds ctx s)
    (hfixed : Fixed s s') : Holds ctx s' := by
  have h10 : ¬ Work 10 ∧ (10 : Reg) ≠ countReg := by unfold Work; decide
  have h11 : ¬ Work 11 ∧ (11 : Reg) ≠ countReg := by unfold Work; decide
  constructor
  · rw [hfixed.x 10 h10.1 h10.2, h.nine]
  · rw [hfixed.x 11 h11.1 h11.2, h.thirtyThree]
  · rw [hfixed.sp, hfixed.mem]
    exact h.ctx

/-- The aligned scratchpad of the second phase. -/
structure AlignedScratch (access : Access) (m : Memory) (sp : Word) (mem : Bytes 64) : Prop
    extends Scratch access m sp mem where
  aligned : sp.toNat % 16 = 0

/-- Code that carries out a sequence of assignments. -/
structure Does (access : Access) (ctx : Word → Bytes 64 → Prop) (bytes : List Byte) (ops : List Op) :
    Prop where
  work : ∀ a ∈ ops, Work a.dst
  straight : ∃ is, (isa access).Assembles is bytes ∧
    ∀ s, Holds ctx s → (isa access).execAll is s = some (assignAll ops s)

section Does

variable {access : Access} {ctx : Word → Bytes 64 → Prop}

/-- Code that does one list of assignments and then another one. -/
theorem Does.append {bs cs : List Byte} {as as' : List Op} (h : Does access ctx bs as)
    (h' : Does access ctx cs as') : Does access ctx (bs ++ cs) (as ++ as') := by
  obtain ⟨hwork, is, his, hexec⟩ := h
  obtain ⟨hwork', js, hjs, hexec'⟩ := h'
  refine ⟨fun a ha => (List.mem_append.mp ha).elim (hwork a) (hwork' a), is ++ js, his.append hjs,
    fun s hs => ?_⟩
  rw [Isa.execAll_trans (hexec s hs) (hexec' _ (hs.of_fixed (fixed_assignAll hwork s)))]
  unfold assignAll
  rw [runAll_append]

/-- One instruction that does one assignment. -/
theorem does_single {bytes : List Byte} {i : Instr} {a : Op} (hdecode : decode bytes = some (i, []))
    (hwork : Work a.dst)
    (hexec : ∀ s, Holds ctx s → exec access i s = some (.fall, { s with x := a.run s.x })) :
    Does access ctx bytes [a] := by
  refine ⟨by simpa using hwork, [i], .single (encodes hdecode), fun s hs => ?_⟩
  exact Isa.execAll_cons (hexec s hs)

@[simp] theorem vreg_ne_31 (k : Fin 8) : vreg k ≠ 31 := by
  simp only [vreg, ne_eq, Fin.ext_iff]
  omega

@[simp] theorem tmp_ne_31 (i : Fin 4) : tmp i ≠ 31 := by
  simp only [tmp, ne_eq, Fin.ext_iff]
  omega

theorem low_ne_31 (m : Fin 18) : m.castLE (show 18 ≤ 32 by decide) ≠ 31 := by
  simp only [ne_eq, Fin.ext_iff, Fin.val_castLE]
  omega

theorem does_mul (d : Fin 8) (m : Fin 18) : Does access ctx (emitMul d m)
    [⟨vreg d, vreg d, m.castLE (by decide), (· * ·)⟩] := by
  refine does_single (decode_register d m).1 (work_vreg d) fun s _ => ?_
  simp [exec, State.get, State.set, State.setX, low_ne_31, Assign.run]

theorem does_rmcgMul (x : Rmcg) : Does access ctx (emitMul x.dst (8 + x.src + 4)) [rmcgMul x] := by
  have hsrc : 8 + x.src.val + 4 = (⟨12 + x.src, by omega⟩ : Fin 18).val := by
    simp only
    omega
  rw [hsrc]
  exact does_mul x.dst _

theorem does_ror (d : Fin 8) {k : Nat} (hk : k < 64) : Does access ctx (emitRor d k)
    [⟨vreg d, vreg d, vreg d, fun a _ => BitRotate.rotr a k⟩] := by
  refine does_single (decode_shift d ⟨k, hk⟩).1 (work_vreg d) fun s _ => ?_
  simp [exec, State.get, State.set, State.setX, Assign.run, A64.ShiftOp.apply,
    BitRotate.rotr_eq_rotateRight _ hk]

theorem does_preXas (x : Xas) : Does access ctx (preXasCode x) [preXas x] := by
  have himm := x.imm_le
  unfold preXasCode preXas
  cases hpre : x.pre with
  | ror => exact does_ror x.dst x.imm_lt
  | asr =>
    rw [hpre] at himm
    have hdecode := (decode_shift x.dst ⟨x.imm, x.imm_lt⟩).2 (Nat.lt_succ_of_le himm)
    refine does_single hdecode.2 (work_vreg _) fun s _ => ?_
    simp [exec, State.get, State.set, State.setX, Assign.run, A64.ShiftOp.apply, PreOp.apply]
  | lsr =>
    rw [hpre] at himm
    have hdecode := (decode_shift x.dst ⟨x.imm, x.imm_lt⟩).2 (Nat.lt_succ_of_le himm)
    refine does_single hdecode.1 (work_vreg _) fun s _ => ?_
    simp [exec, State.get, State.set, State.setX, Assign.run, A64.ShiftOp.apply, PreOp.apply]

/-- The operand is a register or a temporary that holds a word of the scratchpad. -/
theorem does_xas (x : Xas) (m : Fin 18) :
    Does access ctx (xasCode x m) [xas x (m.castLE (by decide))] := by
  unfold xasCode xas
  cases hpost : x.post with
  | xor =>
    refine does_single (decode_register x.dst m).2.1 (work_vreg _) fun s _ => ?_
    simp [exec, State.get, State.set, State.setX, low_ne_31, Assign.run, LogicOp.apply, PostOp.apply]
  | add =>
    refine does_single (decode_register x.dst m).2.2.1 (work_vreg _) fun s _ => ?_
    simp [exec, State.get, State.set, State.setX, low_ne_31, Assign.run, AddOp.apply, PostOp.apply]
  | sub =>
    refine does_single (decode_register x.dst m).2.2.2 (work_vreg _) fun s _ => ?_
    simp [exec, State.get, State.set, State.setX, low_ne_31, Assign.run, AddOp.apply, PostOp.apply]

theorem does_mov (src : Fin 8) : Does access ctx (emitMov 14 src) [fetch id (tmp 0) src] := by
  refine does_single (decode_temporary src).1 (work_tmp 0) fun s _ => ?_
  simp [exec, State.get, State.set, State.setX, Assign.run, LogicOp.apply]

theorem does_orrCount (d : Fin 8) : Does access ctx (emitOrr 14 d 9) [orrCount d] := by
  refine does_single (decode_temporary d).2.1 (work_tmp 0) fun s _ => ?_
  have hcount : countReg ≠ 31 := by decide
  simp [exec, State.get, State.set, State.setX, Assign.run, LogicOp.apply, hcount]

theorem does_rmcgRor (x : Rmcg) : Does access ctx (emitRor x.dst x.imm) [rmcgRor x] :=
  does_ror x.dst (Nat.lt_succ_of_le x.imm_le)

/-- The templates agree with the operators, in one instruction each. -/
theorem does_premul (x : Mul) : Does access ctx (premulCode x) [premul x] := by
  have himm : (⟨x.imm, x.imm_lt⟩ : Fin 64) = 1 ∨ (⟨x.imm, x.imm_lt⟩ : Fin 64) = 9 ∨
      (⟨x.imm, x.imm_lt⟩ : Fin 64) = 33 := by
    rcases x.imm_mem with h | h | h <;> simp [Fin.ext_iff, h]
  refine does_single (decode_premul x.op x.dst ⟨x.imm, x.imm_lt⟩ himm) (work_vreg _) fun s hs => ?_
  have h10 : (10 : Reg) ≠ 31 := by decide
  have h11 : (11 : Reg) ≠ 31 := by decide
  have hnine := hs.nine
  have hthirty := hs.thirtyThree
  unfold premulInstr premul
  rcases x.imm_mem with h | h | h <;> cases x.op <;>
    simp [h, exec, State.get, State.set, State.getSp, State.setSp, State.setX, Assign.run,
      LogicOp.apply, AddOp.apply, MulOp.apply, h10, h11, hnine, hthirty]

end Does

/-- The word that a register addresses is read through the stack pointer. -/
theorem does_fetch {access : Access} (m : Memory) (i : Fin 4) (src : Fin 8) :
    Does access (AlignedScratch access m) (emitAnd2040 (14 + i) src ++ emitLdrSp (14 + i))
      [fetch (loadWord m) (tmp i) src] := by
  obtain ⟨handDecode, hldrDecode⟩ := (decode_temporary src).2.2 i
  refine ⟨by simpa using work_tmp i, [_, _],
    .cons (encodes handDecode) (.single (encodes hldrDecode)), fun s hs => ?_⟩
  have haligned : ¬((31 : Reg) = 31 ∧ s.sp.toNat % 16 ≠ 0) := fun h => h.2 hs.ctx.aligned
  have hread := hs.ctx.readable_offset (s.x (vreg src))
  have hload := hs.ctx.load_offset (s.x (vreg src))
  have hand : exec access (.logicImm .and (tmp i) (vreg src) 2040) s =
      some (.fall, s.setX (tmp i) (wordOffset (s.x (vreg src)))) := by
    show some (Next.fall, s.setSp (tmp i) (s.get (vreg src) &&& 2040)) = _
    rw [State.setSp, if_neg (tmp_ne_31 i), State.get, if_neg (vreg_ne_31 src), and_wordOffset]
  have hldr : exec access (.ldr (tmp i) 31 (tmp i)) (s.setX (tmp i) (wordOffset (s.x (vreg src)))) =
      some (.fall, assignAll [fetch (loadWord m) (tmp i) src] s) := by
    have hbase : (s.setX (tmp i) (wordOffset (s.x (vreg src)))).base 31 = some s.sp := if_neg haligned
    have hget : (s.setX (tmp i) (wordOffset (s.x (vreg src)))).get (tmp i) =
        wordOffset (s.x (vreg src)) := by
      simp [State.get, State.setX]
    have hword : split.load access (s.setX (tmp i) (wordOffset (s.x (vreg src))))
        (s.sp + wordOffset (s.x (vreg src))) = some (loadWord m (s.x (vreg src))) :=
      (Split.load_eq hread).trans (congrArg some hload)
    simp only [exec, hbase, hget, hword, bind, Option.bind_some, pure]
    simp [State.set, State.setX, assignAll, Assign.run]
  exact (Isa.execAll_cons hand).trans (Isa.execAll_cons hldr)

end HashWX.CompilerA64
