import HashWX.X86.Phases

/-!
# The compiled function

The prologue saves registers and loads the array `r`, the epilogue stores R0-R7 and
restores them. Between the two the machine runs both phases, so the function leaves in
`r` what the interpreter leaves there.
-/

namespace HashWX.CompilerX86

open X86 ForLoop ByteMemory
open CodeMachine

/-! ## The calling convention -/

/-- The registers that the prologue pushes. -/
def savedRegs : Abi → List Reg
  | .sysv => [rbx, rbp, 12, 13, 14, 15]
  | .win => [rsi, rdi, rbx, rbp, 12, 13, 14, 15]

/-- The register that holds the argument `r`. -/
def argReg : Abi → Reg
  | .sysv => rdi
  | .win => rcx

/-- The registers that hold `r[0..9]` between prologue and epilogue. -/
def fileRegs : List (Reg × Nat) :=
  [(8, 0), (9, 1), (10, 2), (11, 3), (12, 4), (13, 5), (14, 6), (15, 7)]

/-- The lowest address of the frame: the scratchpad, the saved registers above it, and
the return address above them. -/
def frameBase (abi : Abi) (s : State) : Word :=
  s.regs rsp - BitVec.ofNat 64 (8 * (256 + (savedRegs abi).length))

/-- A call of the function: `r` may be read and its first eight words written, there is
stack for the frame, and the two are apart. -/
structure Entry (abi : Abi) (access : Access) (r : Regs) (s : State) : Prop where
  regs : ∀ i : Fin 10, load64 s.mem (wordAddr (s.regs (argReg abi)) i) = r[i]
  regs_readable : ∀ i < 10, access.readable (wordAddr (s.regs (argReg abi)) i) = true
  regs_writable : ∀ i < 8, access.writable (wordAddr (s.regs (argReg abi)) i) = true
  frame_readable : ∀ k ≤ 256 + (savedRegs abi).length,
    access.readable (wordAddr (frameBase abi s) k) = true
  frame_writable : ∀ k < 256 + (savedRegs abi).length,
    access.writable (wordAddr (frameBase abi s) k) = true
  apart : ∀ i < 10, ∀ k ≤ 256 + (savedRegs abi).length,
    Apart 8 (wordAddr (s.regs (argReg abi)) i) (wordAddr (frameBase abi s) k)

/-- A call, whatever may be read and written. -/
structure Call (abi : Abi) (r : Regs) (s : State) : Prop where
  regs : ∀ i : Fin 10, load64 s.mem (wordAddr (s.regs (argReg abi)) i) = r[i]
  apart : ∀ i < 10, ∀ k ≤ 256 + (savedRegs abi).length,
    Apart 8 (wordAddr (s.regs (argReg abi)) i) (wordAddr (frameBase abi s) k)

theorem Entry.call {abi : Abi} {access : Access} {r : Regs} {s : State} (h : Entry abi access r s) :
    Call abi r s := ⟨h.regs, h.apart⟩

theorem rsp_eq (abi : Abi) (s : State) :
    s.regs rsp = wordAddr (frameBase abi s) (256 + (savedRegs abi).length) :=
  (sub_add_cancel _ _).symm

section Code

variable (access : Access) (abi : Abi)

/-- `mov rcx, rdi`, where the argument is not in `rcx` already. -/
def movArg : Abi → List Instr
  | .sysv => [.mov .qword (.reg rcx) (.reg rdi)]
  | .win => []

/-- The bytes of the prologue are its instructions, in both calling conventions. -/
theorem assembles_prologue : (isa access).Assembles
    (movArg abi ++ ((savedRegs abi).map .push ++
      ((fileRegs ++ [(rsi, 8), (rdi, 9)]).map (loadWordAt rcx) ++
        [.alu .xor .dword (.reg rbx) (.reg rbx), .lea .dword rbp ⟨rbx, none, 1⟩])))
    (codePrologue abi) := by
  cases abi <;> exact assembles (by decide +kernel)

theorem assembles_epilogue : ∃ bytes, codeEpilogue abi = bytes ++ [0xc3] ∧ (isa access).Assembles
    (.alu .add .qword (.reg rsp) (.imm 2048) :: (fileRegs.map (storeWordAt rcx) ++
      (savedRegs abi).reverse.map .pop)) bytes := by
  refine ⟨_, rfl, ?_⟩
  cases abi <;> exact assembles (by decide +kernel)

theorem encodes_ret : (isa access).Encodes .ret [0xc3] := encodes rfl

theorem encodes_clearBc :
    (isa access).Encodes (.alu .xor .dword (.reg rbx) (.reg rbx)) codeClearBc :=
  encodes rfl

end Code

/-! ## Entry -/

section Entry

variable {abi : Abi} {access : Access} {r : Regs} {s : State}

theorem exec_xor_rbx (access : Access) (v : Machine) :
    (isa access).exec (.alu .xor .dword (.reg X86.rbx) (.reg X86.rbx)) v.state =
      some (.fall, { v with rbx := 0, zf := some true }.state) := by
  have hzero : Size.dword.trunc (AluOp.xor.apply (Size.dword.trunc v.rbx) (Size.dword.trunc v.rbx)) = 0 := by
    simp [AluOp.apply, Size.trunc]
  simp [isa, exec, State.read, State.write, hzero]

/-- `xor ebx, ebx; lea ebp, [rbx+1]`. -/
theorem execAll_counters (access : Access) (v : Machine) : ∃ v' : Machine,
    (isa access).execAll [.alu .xor .dword (.reg rbx) (.reg rbx), .lea .dword rbp ⟨rbx, none, 1⟩]
      v.state = some v'.state ∧ v'.rbx = 0 ∧ v'.rbp = 1 ∧ v'.file = v.file ∧ Fixed v v' :=
  ⟨_, (Isa.execAll_cons (exec_xor_rbx access v)).trans (Isa.execAll_cons (exec_lea access _)), rfl, rfl, rfl,
    ⟨rfl, rfl, rfl, rfl⟩⟩

/-- Where the argument is in another register, it is moved first. -/
theorem execAll_movArg (abi : Abi) (access : Access) (s : State) :
    ∃ s', (isa access).execAll (movArg abi) s = some s' ∧ s'.mem = s.mem ∧
      s'.regs rcx = s.regs (argReg abi) ∧ ∀ reg, reg ≠ rcx → s'.regs reg = s.regs reg := by
  cases abi with
  | win => exact ⟨s, rfl, rfl, rfl, fun _ _ => rfl⟩
  | sysv => exact ⟨_, rfl, rfl, State.setReg_regs_self _ _ _, fun _ hne => State.setReg_regs_of_ne _ _ hne⟩

/-- The values of the saved registers stand above the scratchpad, the last one lowest. -/
structure Saved (abi : Abi) (s : State) (mem : Bytes 64) : Prop where
  words : ∀ j (hj : j < (savedRegs abi).length),
    load64 mem (wordAddr (frameBase abi s) (256 + (savedRegs abi).length - 1 - j)) =
      s.regs (savedRegs abi)[j]
  others : ∀ a, (∀ k < 256 + (savedRegs abi).length, Apart 8 a (wordAddr (frameBase abi s) k)) →
    load64 mem a = load64 s.mem a

/-- Saving the registers. -/
theorem execAll_save {s₁ : State} (hw : ∀ k, 256 ≤ k → k < 256 + (savedRegs abi).length →
      access.writable (wordAddr (frameBase abi s) k) = true) (hmem : s₁.mem = s.mem)
    (hkeep : ∀ reg, reg ≠ rcx → s₁.regs reg = s.regs reg) :
    ∃ s₂, (isa access).execAll ((savedRegs abi).map .push) s₁ = some s₂ ∧
      s₂.regs rsp = wordAddr (frameBase abi s) 256 ∧ s₂.regs rcx = s₁.regs rcx ∧
        Saved abi s s₂.mem := by
  have hlen : (savedRegs abi).length ≤ 8 := by cases abi <;> decide
  have hrsp : rsp ∉ savedRegs abi := by cases abi <;> decide
  have hrcx : ∀ reg ∈ savedRegs abi, reg ≠ rcx := by cases abi <;> decide
  have hsp : s₁.regs rsp = wordAddr (frameBase abi s) (256 + (savedRegs abi).length) :=
    (hkeep rsp (by decide)).trans (rsp_eq abi s)
  have hne : rcx ≠ rsp := by decide
  have hexec := execAll_push access hrsp hsp hw
  refine ⟨_, hexec, Function.update_self rsp (wordAddr (frameBase abi s) 256) s₁.regs,
    Function.update_of_ne hne (wordAddr (frameBase abi s) 256) s₁.regs, fun j hj => ?_, fun a ha => ?_⟩
  · have hload := load64_pushWords (frameBase abi s) ((savedRegs abi).map s₁.regs)
      (256 + (savedRegs abi).length) s₁.mem (by rw [List.length_map]; omega) (by omega)
      (j := j) (by rw [List.length_map]; exact hj)
    rw [List.getElem_map, hkeep _ (hrcx _ (List.getElem_mem hj))] at hload
    exact hload
  · rw [load64_pushWords_of_apart fun k _ hk => ha k hk, hmem]

/-- The prologue. -/
theorem prologue_exec (h : Call abi r s)
    (hr : ∀ i < 10, access.readable (wordAddr (s.regs (argReg abi)) i) = true)
    (hw : ∀ k, 256 ≤ k → k < 256 + (savedRegs abi).length →
      access.writable (wordAddr (frameBase abi s) k) = true) : ∃ v : Machine,
    (isa access).execAll (movArg abi ++ ((savedRegs abi).map .push ++
      ((fileRegs ++ [(rsi, 8), (rdi, 9)]).map (loadWordAt rcx) ++
        [.alu .xor .dword (.reg rbx) (.reg rbx), .lea .dword rbp ⟨rbx, none, 1⟩]))) s = some v.state ∧
      Between (constsOf r) (s.regs (argReg abi)) (frameBase abi s) v.mem 0
        ((fileOf r, 32), fun _ => 0) v ∧ Saved abi s v.mem := by
  obtain ⟨s₁, hx₁, hmem₁, hrcx₁, hkeep₁⟩ := execAll_movArg abi access s
  obtain ⟨s₂, hx₂, hrsp₂, hrcx₂, hsaved⟩ := execAll_save hw hmem₁ hkeep₁
  rw [hrcx₁] at hrcx₂
  obtain ⟨s₃, hx₃, hmem₃, hload, hkeep₃⟩ := execAll_load access rcx
    (fileRegs ++ [(rsi, 8), (rdi, 9)]) (by decide) (by decide) s₂ fun x hx => by
      rw [hrcx₂]
      exact hr x.2 (by revert x; decide)
  have hword (i : Fin 10) : load64 s₂.mem (wordAddr (s.regs (argReg abi)) i) = r[i] := by
    rw [hsaved.others _ fun k hk => h.apart i i.isLt k (Nat.le_of_lt hk)]
    exact h.regs i
  have hfile (k : Fin 8) : s₃.regs (vreg k) = fileOf r k := by
    have hmem : (vreg k, k.val) ∈ fileRegs ++ [(rsi, 8), (rdi, 9)] := by
      revert k
      decide
    rw [hload _ hmem, hrcx₂]
    exact hword (k.castLE (by decide))
  have hconst (j : Fin 2) : s₃.regs (creg j) = constsOf r j := by
    have hmem : (creg j, 8 + j.val) ∈ fileRegs ++ [(rsi, 8), (rdi, 9)] := by
      revert j
      decide
    rw [hload _ hmem, hrcx₂]
    exact hword (Fin.natAdd 8 j)
  obtain ⟨v, hx₄, hrbx, hrbp, hfile₄, hfixed⟩ :=
    execAll_counters access (Machine.ofState s₃)
  rw [Machine.state_ofState] at hx₄
  have hmem : v.mem = s₂.mem := hfixed.mem.trans hmem₃
  refine ⟨v, Isa.execAll_trans hx₁ (Isa.execAll_trans hx₂ (Isa.execAll_trans hx₃ hx₄)), ?_, ?_⟩
  · refine ⟨⟨le_rfl, hrbx, ?_, hfile₄.trans (funext hfile), Fixed.refl v⟩,
      hfixed.consts.trans (funext hconst), ?_, ?_, filled_zero _ _, fun _ _ => rfl⟩
    · rw [hrbp]
      decide
    · exact hfixed.rcx.trans ((hkeep₃ rcx (by decide)).trans hrcx₂)
    · exact hfixed.rsp.trans ((hkeep₃ rsp (by decide)).trans hrsp₂)
  · rw [hmem]
    exact hsaved

/-! ## Exit -/

theorem exec_add_rsp (v : Machine) :
    (isa access).exec (.alu .add .qword (.reg X86.rsp) (.imm 2048)) v.state =
      some (.fall, { v with rsp := v.rsp + 2048, zf := some (v.rsp + 2048 == 0) }.state) := by
  simp [isa, exec, State.read, State.write, Size.trunc, AluOp.apply]

/-- What the function leaves behind: R0-R7 in `r`, the rest of `r` and the return address as
they were, and the saved registers restored. -/
structure Exit (abi : Abi) (s : State) (f : RegFile) (sp : Word) (s' : State) : Prop where
  rsp : s'.regs rsp = sp
  target : load64 s'.mem (s.regs X86.rsp) = load64 s.mem (s.regs X86.rsp)
  file : ∀ k : Fin 8, load64 s'.mem (wordAddr (s.regs (argReg abi)) k) = f k
  consts : ∀ j : Fin 2, load64 s'.mem (wordAddr (s.regs (argReg abi)) (8 + j)) =
    load64 s.mem (wordAddr (s.regs (argReg abi)) (8 + j))
  saved : ∀ reg ∈ savedRegs abi, s'.regs reg = s.regs reg

theorem Exit.setReg {f : RegFile} {sp : Word} {s' : State} (h : Exit abi s f sp s') (sp' : Word) :
    Exit abi s f sp' (s'.setReg X86.rsp sp') where
  rsp := State.setReg_regs_self _ _ _
  target := h.target
  file := h.file
  consts := h.consts
  saved reg hreg := by
    have hne : reg ≠ X86.rsp := by
      rintro rfl
      revert hreg
      cases abi <;> decide
    rw [State.setReg_regs_of_ne _ _ hne, h.saved reg hreg]

/-- The memory after the stores of R0-R7. -/
def storedFile (ptr : Word) (v : Machine) : Bytes 64 :=
  storeWords ptr (fileRegs.map fun x => (v.state.regs x.1, x.2)) v.mem

theorem index_lt {x : Word × Nat} {v : Machine}
    (hx : x ∈ fileRegs.map fun x => (v.state.regs x.1, x.2)) : x.2 < 8 := by
  have hlt : ∀ y ∈ fileRegs, y.2 < 8 := by decide
  obtain ⟨y, hy, rfl⟩ := List.mem_map.mp hx
  exact hlt y hy

/-- Each register is found again in the array after the stores of the epilogue. -/
theorem load_storedFile (ptr : Word) (v : Machine) (k : Fin 8) :
    load64 (storedFile ptr v) (wordAddr ptr k) = v.file k := by
  have hmem : (vreg k, k.val) ∈ fileRegs := by
    revert k
    decide
  have hnd : ((fileRegs.map fun x => (v.state.regs x.1, x.2)).map Prod.snd).Nodup := by
    rw [List.map_map]
    exact (by decide : (fileRegs.map Prod.snd).Nodup)
  have hload := load64_storeWords ptr hnd (fun x hx => by have := index_lt hx; omega)
    (m := v.mem) _ (List.mem_map_of_mem hmem)
  exact hload.trans (v.vreg_state k)

/-- The stores touch nothing that is apart from the first eight words. -/
theorem load_storedFile_of_apart {ptr a : Word} (v : Machine)
    (ha : ∀ i < 8, Apart 8 a (wordAddr ptr i)) : load64 (storedFile ptr v) a = load64 v.mem a :=
  load64_storeWords_of_apart fun x hx => ha x.2 (index_lt hx)

/-- The epilogue up to `ret`. -/
theorem epilogue_exec (h : Call abi r s)
    (hw : ∀ i < 8, access.writable (wordAddr (s.regs (argReg abi)) i) = true)
    (hr : ∀ k, 256 ≤ k → k < 256 + (savedRegs abi).length →
      access.readable (wordAddr (frameBase abi s) k) = true) {mem : Bytes 64} (hsaved : Saved abi s mem)
    {v : Machine} (hrcx : v.rcx = s.regs (argReg abi)) (hrsp : v.rsp = frameBase abi s)
    (hmem : ∀ a, (∀ i < 256, Apart 8 a (wordAddr (frameBase abi s) i)) →
      load64 v.mem a = load64 mem a) :
    ∃ s', (isa access).execAll (.alu .add .qword (.reg rsp) (.imm 2048) ::
        (fileRegs.map (storeWordAt rcx) ++ (savedRegs abi).reverse.map .pop)) v.state = some s' ∧
      Exit abi s v.file (s.regs rsp) s' := by
  have hlen : (savedRegs abi).length ≤ 8 := by cases abi <;> decide
  have hnd : (savedRegs abi).reverse.Nodup := by cases abi <;> decide
  have hnot : rsp ∉ (savedRegs abi).reverse := by cases abi <;> decide
  let v₁ : Machine := { v with rsp := v.rsp + 2048, zf := some (v.rsp + 2048 == 0) }
  have hptr : v₁.state.regs rcx = s.regs (argReg abi) := hrcx
  have hrsp₁ : v₁.state.regs rsp = wordAddr (frameBase abi s) 256 := congrArg (· + 2048#64) hrsp
  have hx₂ := execAll_store access rcx fileRegs v₁.state
    fun x hx => by
      rw [hptr]
      exact hw x.2 (by revert x; decide)
  rw [hptr] at hx₂
  obtain ⟨s', hx₃, hmem₃, hrsp₃, hpop, -⟩ := execAll_pop access hnot hnd
    (s := { v₁.state with mem := storedFile (s.regs (argReg abi)) v₁ }) hrsp₁ fun k hk hk' =>
      hr k hk (by rwa [List.length_reverse] at hk')
  have hframe (k : Nat) (hk : 256 ≤ k) (hk' : k ≤ 256 + (savedRegs abi).length) :
      load64 s'.mem (wordAddr (frameBase abi s) k) = load64 mem (wordAddr (frameBase abi s) k) := by
    rw [hmem₃]
    refine (load_storedFile_of_apart v₁ fun i hi => ((h.apart i (by omega) k hk').symm)).trans ?_
    exact hmem _ fun i hi => apart_wordAddr _ (by omega) (by omega) (by omega)
  refine ⟨s', ?_, ?_, ?_, fun k => ?_, fun j => ?_, fun reg hreg => ?_⟩
  · rw [Isa.execAll_cons (exec_add_rsp v)]
    exact Isa.execAll_trans hx₂ hx₃
  · rw [hrsp₃, List.length_reverse, rsp_eq abi s]
  · rw [rsp_eq abi s, hframe _ (by omega) le_rfl]
    exact hsaved.others _ fun k hk => apart_wordAddr _ (by omega) (by omega) (by omega)
  · rw [hmem₃]
    exact load_storedFile _ v₁ k
  · have hj := j.isLt
    rw [hmem₃]
    refine (load_storedFile_of_apart v₁ fun i hi => apart_wordAddr _ (by omega) (by omega) (by omega)).trans ?_
    refine (hmem _ fun i hi => h.apart _ (by omega) i (by omega)).trans ?_
    exact hsaved.others _ fun k hk => h.apart _ (by omega) k (Nat.le_of_lt hk)
  · obtain ⟨j, hj, rfl⟩ := List.getElem_of_mem hreg
    have hidx : (savedRegs abi).length - 1 - j < (savedRegs abi).reverse.length := by
      rw [List.length_reverse]
      omega
    have hrev : (savedRegs abi).length - 1 - ((savedRegs abi).length - 1 - j) = j := by omega
    have haddr : 256 + ((savedRegs abi).length - 1 - j) = 256 + (savedRegs abi).length - 1 - j := by omega
    have hval := hpop ((savedRegs abi).length - 1 - j) hidx
    simp only [List.getElem_reverse, hrev, haddr] at hval
    rw [hval, ← hsaved.words j hj, ← hframe _ (by omega) (by omega), hmem₃]

end Entry

/-! ## The whole function -/

section Function

variable {abi : Abi} {access : Access} {r : Regs} {s : State} {ts : Fin 32 → Layout}

/-- The code in front of the second phase. -/
def firstCode (abi : Abi) (ts : Fin 32 → Layout) : List Byte :=
  codePrologue abi ++ (List.ofFn fun i => writeCode (ts i)).flatten ++ codeClearBc

def functionCode (abi : Abi) (ts : Fin 32 → Layout) : List Byte :=
  firstCode abi ts ++ (List.ofFn fun i => readCode (ts i)).flatten ++ codeEpilogue abi

variable (hs : ∀ i, (ts i).Shuffled) (h : Call abi r s) {code : List Byte}
  (hcode : Isa.CodeAt code 0 (functionCode abi ts))
include hs h hcode

omit hs in
/-- The prologue needs to read `r` and to write above the scratchpad, and nothing else. -/
theorem enter_runs (hr : ∀ i < 10, access.readable (wordAddr (s.regs (argReg abi)) i) = true)
    (hw : ∀ k, 256 ≤ k → k < 256 + (savedRegs abi).length →
      access.writable (wordAddr (frameBase abi s) k) = true) :
    ∃ v, (isa access).Runs code 0 ⟨.inside 0, s⟩ ⟨.inside (codePrologue abi).length, v.state⟩ ∧
      Between (constsOf r) (s.regs (argReg abi)) (frameBase abi s) v.mem 0
        ((fileOf r, 32), fun _ => 0) v ∧ Saved abi s v.mem := by
  have hfirst := (Isa.codeAt_append.mp (Isa.codeAt_append.mp hcode).1).1
  obtain ⟨hprologue, -⟩ := Isa.codeAt_append.mp (Isa.codeAt_append.mp hfirst).1
  obtain ⟨v, hexec, hbetween, hsaved⟩ := prologue_exec h hr hw
  have hruns := Isa.runs_execAll (assembles_prologue access abi) hprologue hexec
  rw [Nat.zero_add] at hruns
  exact ⟨v, hruns, hbetween, hsaved⟩

omit h in
/-- The first phase needs to write the scratchpad, and nothing else. -/
theorem first_runs (hw : ∀ k < 256, access.writable (wordAddr (frameBase abi s) k) = true)
    {mem : Bytes 64} {v : Machine} (hv : Between (constsOf r) (s.regs (argReg abi)) (frameBase abi s)
      mem 0 ((fileOf r, 32), fun _ => 0) v) {k : Nat} (hk : k ≤ 32) :
    ∃ v', (isa access).Runs code (32 - (writeUpTo ts (constsOf r) (fileOf r) k hk).1.2)
        ⟨.inside (codePrologue abi).length, v.state⟩
        ⟨.inside ((codePrologue abi).length + Isa.offset (fun i => writeCode (ts i)) k), v'.state⟩ ∧
      Between (constsOf r) (s.regs (argReg abi)) (frameBase abi s) mem k
        (writeUpTo ts (constsOf r) (fileOf r) k hk) v' := by
  have hfirst := (Isa.codeAt_append.mp (Isa.codeAt_append.mp hcode).1).1
  obtain ⟨-, hwrites⟩ := Isa.codeAt_append.mp (Isa.codeAt_append.mp hfirst).1
  rw [Nat.zero_add] at hwrites
  exact write_upTo hw hs hwrites hv hk

omit hs h in
/-- The second phase needs to read the scratchpad, and nothing else. -/
theorem second_runs (hr : ∀ k < 256, access.readable (wordAddr (frameBase abi s) k) = true)
    {mem : Bytes 64} {v₁ : Machine} (hbetween : Between (constsOf r) (s.regs (argReg abi))
      (frameBase abi s) mem 32 (writePhase ts (constsOf r) (fileOf r)) v₁) {k : Nat} (hk : k ≤ 32) :
    let u := writePhase ts (constsOf r) (fileOf r)
    let w := readUpTo ts (constsOf r) u.2 u.1.1 k hk
    ∃ v, (isa access).Runs code (32 - w.2)
      ⟨.inside ((codePrologue abi).length + Isa.offset (fun i => writeCode (ts i)) 32), v₁.state⟩
      ⟨.inside ((firstCode abi ts).length + Isa.offset (fun i => readCode (ts i)) k), v.state⟩ ∧
    v.file = w.1 ∧ Fixed v₁ v := by
  intro u w
  obtain ⟨hfirst, hreads⟩ := Isa.codeAt_append.mp (Isa.codeAt_append.mp hcode).1
  obtain ⟨-, hclear⟩ := Isa.codeAt_append.mp hfirst
  have hend : 0 + (codePrologue abi ++ (List.ofFn fun i => writeCode (ts i)).flatten).length =
      (codePrologue abi).length + Isa.offset (fun i => writeCode (ts i)) 32 := by
    rw [Isa.offset_all, List.length_append, Nat.zero_add]
  rw [hend] at hclear
  have hruns₁ := Isa.runs_fall hclear (encodes_clearBc access) (exec_xor_rbx access v₁)
  let v₂ : Machine := { v₁ with rbx := 0, zf := some true }
  have hready : Ready v₂ 32 u.1.1 v₂ :=
    ⟨le_rfl, rfl, hbetween.ready.rbp, hbetween.ready.file, Fixed.refl _⟩
  have hbase : v₂.rsp = frameBase abi s := hbetween.rsp.trans (wordAddr_zero _)
  have hconsts : v₂.consts = constsOf r := hbetween.consts
  have hscratch : Scratch access u.2 v₂.rsp v₂.mem := by
    rw [hbase]
    exact ⟨fun a => hr a a.isLt, fun a => hbetween.filled.word (Nat.zero_le _)⟩
  obtain ⟨v, hruns₂, hready'⟩ := read_upTo hscratch hreads hready hk
  rw [hconsts] at hruns₂ hready'
  refine ⟨v, ?_, hready'.file, hready'.fixed.rcx, hready'.fixed.rsp, hready'.fixed.consts,
    hready'.fixed.mem⟩
  have hlen : (codePrologue abi).length + Isa.offset (fun i => writeCode (ts i)) 32 +
      codeClearBc.length = 0 + (firstCode abi ts).length := by
    simp only [← hend, firstCode, List.length_append, Nat.add_assoc]
  rw [hlen] at hruns₁
  have hruns := hruns₁.trans hruns₂
  rw [Nat.zero_add, Nat.zero_add] at hruns
  exact hruns

omit hs in
/-- The epilogue needs to write the first eight words of `r` and to read above the scratchpad. -/
theorem leave_runs (hw : ∀ i < 8, access.writable (wordAddr (s.regs (argReg abi)) i) = true)
    (hr : ∀ k, 256 ≤ k → k ≤ 256 + (savedRegs abi).length →
      access.readable (wordAddr (frameBase abi s) k) = true)
    {mem : Bytes 64} (hsaved : Saved abi s mem) {u : (RegFile × Nat) × Memory} {v₁ v : Machine}
    (hbetween : Between (constsOf r) (s.regs (argReg abi)) (frameBase abi s) mem 32 u v₁)
    (hfixed : Fixed v₁ v) :
    ∃ s', (isa access).Runs code 0
        ⟨.inside ((firstCode abi ts).length + Isa.offset (fun i => readCode (ts i)) 32), v.state⟩
        ⟨.outside (load64 s.mem (s.regs rsp)), s'⟩ ∧
      Exit abi s v.file (s.regs rsp + 8) s' := by
  obtain ⟨bytes, hbytes, hasm⟩ := assembles_epilogue access abi
  have hepilogue := (Isa.codeAt_append.mp hcode).2
  rw [hbytes] at hepilogue
  obtain ⟨hpops, hret⟩ := Isa.codeAt_append.mp hepilogue
  have hend : 0 + (firstCode abi ts ++ (List.ofFn fun i => readCode (ts i)).flatten).length =
      (firstCode abi ts).length + Isa.offset (fun i => readCode (ts i)) 32 := by
    rw [Isa.offset_all, List.length_append, Nat.zero_add]
  rw [hend] at hpops hret
  have hrsp : v.rsp = frameBase abi s := by
    rw [hfixed.rsp, hbetween.rsp]
    exact wordAddr_zero _
  obtain ⟨s', hexec, hexit⟩ := epilogue_exec h hw (fun k hk hk' => hr k hk hk'.le) hsaved
    (hfixed.rcx.trans hbetween.rcx) hrsp fun a ha => by rw [hfixed.mem, hbetween.frame a ha]
  have hruns₁ := Isa.runs_execAll hasm hpops hexec
  have hreadable : access.readable (s'.regs rsp) = true := by
    rw [hexit.rsp, rsp_eq abi s]
    exact hr _ (by omega) le_rfl
  have hruns := hruns₁.trans (Isa.runs_leave hret (encodes_ret access) (exec_ret access hreadable))
  rw [hexit.rsp, hexit.target] at hruns
  exact ⟨_, hruns, hexit.setReg _⟩

end Function

/-! ## The compiler against the interpreter -/

/-- The machine and the interpreter in front of program `k` of the first phase: the code up to there is
`pos`, every branch spent is a jump taken, and R0-R7 and the words pushed so far agree. -/
def LockstepWrite (abi : Abi) (access : Access) (code : List Byte) (s : State) (pos : List Byte)
    (k spent : Nat) (r : Regs) (mem : Scratchpad) : Prop :=
  ∃ s', (isa access).Runs code spent ⟨.inside 0, s⟩ ⟨.inside pos.length, s'⟩ ∧
    (∀ i : Fin 8, s'.regs (vreg i) = r[i]) ∧
    ∀ a : Fin 256, 256 - 8 * k ≤ a.val → load64 s'.mem (wordAddr (frameBase abi s) a) = mem[a]

/-- In front of one program of the second phase, which loads its operands from the whole scratchpad. -/
def LockstepRead (abi : Abi) (access : Access) (code : List Byte) (s : State) (pos : List Byte)
    (spent : Nat) (r : Regs) (mem : Scratchpad) : Prop :=
  ∃ s', (isa access).Runs code spent ⟨.inside 0, s⟩ ⟨.inside pos.length, s'⟩ ∧
    (∀ i : Fin 8, s'.regs (vreg i) = r[i]) ∧
    ∀ a : Fin 256, load64 s'.mem (wordAddr (frameBase abi s) a) = mem[a]

/-- The machine returns to its caller, with `r'` in the place of `r`. -/
def Returns (abi : Abi) (access : Access) (code : List Byte) (s : State) (r' : Regs) : Prop :=
  ∃ s' n, (isa access).Runs code n ⟨.inside 0, s⟩ ⟨.outside (load64 s.mem (s.regs rsp)), s'⟩ ∧
    ∀ i : Fin 10, load64 s'.mem (wordAddr (s.regs (argReg abi)) i) = r'[i]

section Refines

variable {abi : Abi} {access : Access} {r : Regs} {s : State} {list : ProgramList}
  {ts : Fin 32 → Layout} (hs : ∀ i, (ts i).Shuffled) (ht : ∀ i : Fin 32, (ts i).Describes list[i])
  (h : Entry abi access r s) {code : List Byte} (hcode : Isa.CodeAt code 0 (functionCode abi ts))
include hs ht h hcode

omit hs h hcode in
/-- What the compiler emits for a list that holds the layouts. -/
theorem hashwxCompileX86_eq : hashwxCompileX86 abi list = some (functionCode abi ts) := by
  have hall : (List.ofFn fun i => readCode (ts i)).take 32 = List.ofFn fun i => readCode (ts i) :=
    List.take_of_length_le (by rw [List.length_ofFn])
  rw [hashwxCompileX86_eq_first, compileMemFirst_eq ht abi le_rfl, hall]
  rfl

/-- In front of every program of the first phase the machine has what the interpreter has. -/
theorem lockstep_write (mem : Scratchpad) {k : Nat} (hk : k ≤ 32) :
    ∃ pos r' b mem', compileRegFirst abi list k hk = some pos ∧
      writeFirst list k hk r mem = some (r', b, mem') ∧ b ≤ 32 ∧
      LockstepWrite abi access code s pos k (32 - b) r' mem' := by
  obtain ⟨mem', hwrite, hfilled⟩ := writeFirst_eq ht (constsOf r) (fileOf r) mem hk
  rw [regs_eta] at hwrite
  obtain ⟨v₁, hruns₁, hbetween₁, -⟩ := enter_runs h.call hcode h.regs_readable
    fun k _ hk => h.frame_writable k hk
  obtain ⟨v, hruns₂, hbetween⟩ := first_runs hs hcode (fun k hk => h.frame_writable k (by omega)) hbetween₁ hk
  have hruns := hruns₁.trans hruns₂
  rw [Nat.zero_add] at hruns
  refine ⟨_, _, _, _, compileRegFirst_eq ht abi hk, hwrite, writeUpTo_budget_le _ _ _ hk, v.state, ?_,
    fun i => ?_, fun a ha => ?_⟩
  · rw [List.length_append]
    exact hruns
  · rw [v.vreg_state, hbetween.ready.file, regs_file]
  · exact (hbetween.filled.word ha).trans (hfilled.entry ha).symm

/-- The same for the second phase, where the scratchpad does not change any more. -/
theorem lockstep_read {mem : Scratchpad} {u : Regs × Nat × Scratchpad}
    (hu : writeFirst list 32 le_rfl r mem = some u) {k : Nat} (hk : k ≤ 32) :
    ∃ pos r' b, compileMemFirst abi list k hk = some pos ∧
      readFirst list u.2.2 k hk u.1 = some (r', b) ∧ b ≤ 32 ∧
      LockstepRead abi access code s pos (32 - u.2.1 + (32 - b)) r' u.2.2 := by
  obtain ⟨mem', hwrite, hfilled⟩ := writeFirst_eq ht (constsOf r) (fileOf r) mem le_rfl
  rw [regs_eta, hu] at hwrite
  obtain rfl := Option.some.inj hwrite
  obtain ⟨v₁, hruns₁, hbetween₁, -⟩ := enter_runs h.call hcode h.regs_readable
    fun k _ hk => h.frame_writable k hk
  obtain ⟨v₂, hruns₂, hbetween₂⟩ :=
    first_runs hs hcode (fun k hk => h.frame_writable k (by omega)) hbetween₁ (le_refl 32)
  obtain ⟨v, hruns₃, hfile, hfixed⟩ :=
    second_runs hcode (fun k hk => h.frame_readable k (by omega)) hbetween₂ hk
  have hruns := hruns₁.trans (hruns₂.trans hruns₃)
  rw [Nat.zero_add] at hruns
  simp only [writePhase] at hruns hfile
  refine ⟨_, _, _, compileMemFirst_eq ht abi hk, readFirst_eq ht _ hfilled.all _ hk,
    readUpTo_budget_le _ _ _ _ hk, v.state, ?_, fun i => ?_, fun a => ?_⟩
  · have hlength : (codePrologue abi ++ (List.ofFn fun i => writeCode (ts i)).flatten ++ codeClearBc ++
        ((List.ofFn fun i => readCode (ts i)).take k).flatten).length =
        (firstCode abi ts).length + Isa.offset (fun i => readCode (ts i)) k := List.length_append
    rw [hlength]
    dsimp only
    exact hruns
  · rw [v.vreg_state, hfile, regs_file]
  · have hmem : v.state.mem = v₂.mem := hfixed.mem
    rw [hmem]
    exact (hbetween₂.filled.word (Nat.zero_le _)).trans (hfilled.entry (Nat.zero_le _)).symm

/-- The call returns with the registers of the interpreter in the array. -/
theorem returns_executed (mem : Scratchpad) : ∃ r', hashwxProgramListExecute list r mem = some r' ∧
    Returns abi access code s r' ∧ r'[8] = r[8] ∧ r'[9] = r[9] := by
  obtain ⟨v₁, hruns₁, hbetween₁, hsaved⟩ := enter_runs h.call hcode h.regs_readable
    fun k _ hk => h.frame_writable k hk
  obtain ⟨v₂, hruns₂, hbetween₂⟩ :=
    first_runs hs hcode (fun k hk => h.frame_writable k (by omega)) hbetween₁ (le_refl 32)
  obtain ⟨v₃, hruns₃, hfile, hfixed⟩ :=
    second_runs hcode (fun k hk => h.frame_readable k (by omega)) hbetween₂ (le_refl 32)
  obtain ⟨s', hruns₄, hexit⟩ := leave_runs h.call hcode h.regs_writable
    (fun k _ hk => h.frame_readable k hk) hsaved hbetween₂ hfixed
  have hruns := hruns₁.trans (hruns₂.trans (hruns₃.trans hruns₄))
  rw [hfile] at hexit
  have hexecute := hashwxProgramListExecute_eq ht (constsOf r) (fileOf r) mem
  rw [regs_eta] at hexecute
  refine ⟨_, hexecute, ⟨s', _, hruns, fun i => ?_⟩, regs_const _ _ 0, regs_const _ _ 1⟩
  induction i using Fin.addCases (m := 8) (n := 2) with
  | left k => exact (hexit.file k).trans (regs_file _ _ k).symm
  | right j =>
    have hconst : (regs (executeLayouts ts (constsOf r) (fileOf r)) (constsOf r))[8 + j.val] =
        constsOf r j := regs_const _ _ j
    exact (hexit.consts j).trans ((h.regs (Fin.natAdd 8 j)).trans hconst.symm)

end Refines

/-- **The x86-64 compiler refines the interpreter.** The bytes compiled from a generated list, with
anything behind them, run to their `ret` and leave what the interpreter leaves, in step with it in
front of every program of both phases: registers, jumps taken, and the words of the scratchpad. -/
theorem hashwxCompileX86_refines (abi : Abi) (access : Access) (key : Siphash.SiphashKey)
    (memory : ProgramList) (mem : Scratchpad) (tail : List Byte) (r : Regs) (s : State)
    (h : Entry abi access r s) :
    let list := hashwxProgramListGenerate key memory
    ∃ code u, hashwxCompileX86 abi list = some code ∧ writeFirst list 32 le_rfl r mem = some u ∧
      (∃ r', hashwxProgramListExecute list r mem = some r' ∧
        Returns abi access (code ++ tail) s r' ∧ r'[8] = r[8] ∧ r'[9] = r[9]) ∧
      (∀ k hk, ∃ pos r' b mem', compileRegFirst abi list k hk = some pos ∧
        writeFirst list k hk r mem = some (r', b, mem') ∧ b ≤ 32 ∧
        LockstepWrite abi access (code ++ tail) s pos k (32 - b) r' mem') ∧
      ∀ k hk, ∃ pos r' b, compileMemFirst abi list k hk = some pos ∧
        readFirst list u.2.2 k hk u.1 = some (r', b) ∧ b ≤ 32 ∧
        LockstepRead abi access (code ++ tail) s pos (32 - u.2.1 + (32 - b)) r' u.2.2 := by
  intro list
  obtain ⟨ts, hs, ht⟩ := hashwxProgramListGenerate_describes key memory
  obtain ⟨mem', hwrite, -⟩ := writeFirst_eq ht (constsOf r) (fileOf r) mem le_rfl
  rw [regs_eta] at hwrite
  have hcode : Isa.CodeAt (functionCode abi ts ++ tail) 0 (functionCode abi ts) :=
    List.prefix_append _ _
  exact ⟨_, _, hashwxCompileX86_eq ht, hwrite, returns_executed hs ht h hcode mem,
    fun k hk => lockstep_write hs ht h hcode mem hk, fun k hk => lockstep_read hs ht h hcode hwrite hk⟩

/-- A call of `r` that lies at 4096, with the stack at 65536. Every other byte of the memory is the low
byte of its address. -/
def openState (r : Regs) : State :=
  ⟨fun reg => if reg = rsp then 65536 else 4096, none,
    storeArray 4096 (fun i : Fin 10 => r[i]) fun a => a.setWidth 8⟩

theorem openState_entry (abi : Abi) (r : Regs) :
    Entry abi ⟨fun _ => true, fun _ => true⟩ r (openState r) where
  regs i := by
    have harg : (openState r).regs (argReg abi) = 4096 := by cases abi <;> rfl
    rw [harg]
    exact load64_storeArray 4096 (fun i : Fin 10 => r[i]) _ (by decide) i
  regs_readable _ _ := rfl
  regs_writable _ _ := rfl
  frame_readable _ _ := rfl
  frame_writable _ _ := rfl
  apart i hi k hk := by
    have hlen : (savedRegs abi).length ≤ 8 := by cases abi <;> decide
    have hrsp : (openState r).regs rsp = 65536 := rfl
    have harg : (openState r).regs (argReg abi) = 4096 := by cases abi <;> rfl
    simp only [Apart, wordAddr, frameBase, hrsp, harg]
    bv_omega

theorem hashwxCompileX86_refines_sample :
    let list := hashwxProgramListGenerate ⟨0, 0⟩ (.replicate 32 (.replicate 10 ⟨.halt, 0, 0, 0⟩))
    ∃ code r', hashwxCompileX86 .sysv list = some code ∧
      hashwxProgramListExecute list sampleRegs (.replicate 256 0) = some r' ∧
      Returns .sysv ⟨fun _ => true, fun _ => true⟩ code (openState sampleRegs) r' := by
  intro list
  obtain ⟨code, u, hcompile, -, ⟨r', hexecute, hreturns, -⟩, -⟩ :=
    hashwxCompileX86_refines .sysv ⟨fun _ => true, fun _ => true⟩ ⟨0, 0⟩
      (.replicate 32 (.replicate 10 ⟨.halt, 0, 0, 0⟩)) (.replicate 256 0) [] sampleRegs
      (openState sampleRegs) (openState_entry .sysv sampleRegs)
  rw [List.append_nil] at hreturns
  exact ⟨code, r', hcompile, hexecute, hreturns⟩

end HashWX.CompilerX86
