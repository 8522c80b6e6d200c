import HashWX.A64.Phases

/-!
# The compiled function

The prologue loads the array `r` and the constants, the epilogue stores R0-R7. No register
that the caller may rely on is used, so nothing is saved; the scratchpad is the stack.
-/

namespace HashWX.CompilerA64

open A64 ByteMemory Assignments ForLoop
open CodeMachine

/-! ## The calling convention -/

/-- The lowest address of the scratchpad. -/
def frameBase (s : State) : Word := s.sp - 2048

/-- A call of the function: `x0` points to `r`, the stack pointer is aligned, and the stack
below it is apart from `r`. -/
structure Call (r : Regs) (s : State) : Prop where
  regs : ∀ i : Fin 10, load64 s.mem (wordAddr (s.x 0) i) = r[i]
  aligned : s.sp.toNat % 16 = 0
  apart : ∀ i < 10, ∀ k < 256, Apart 8 (wordAddr (s.x 0) i) (wordAddr (frameBase s) k)

/-- A call in which `r` may be read and its first eight words written, and there is stack for
the scratchpad. -/
structure Entry (access : Access) (r : Regs) (s : State) : Prop extends Call r s where
  regs_readable : ∀ i < 10, access.readable (wordAddr (s.x 0) i) = true
  regs_writable : ∀ i < 8, access.writable (wordAddr (s.x 0) i) = true
  frame_readable : ∀ k < 256, access.readable (wordAddr (frameBase s) k) = true
  frame_writable : ∀ k < 256, access.writable (wordAddr (frameBase s) k) = true

theorem sp_eq (s : State) : s.sp = wordAddr (frameBase s) 256 := (sub_add_cancel _ _).symm

/-- The scratchpad begins at a multiple of 16, as the stack pointer has to be. -/
theorem frameBase_aligned {s : State} (h : s.sp.toNat % 16 = 0) : (frameBase s).toNat % 16 = 0 := by
  unfold frameBase
  bv_omega

/-- The words of `r` that a pair of registers is loaded from or stored to. -/
def pairOffset (i : Nat) : Word := BitVec.ofNat 64 (8 * i)

def prologueInstrs : List Instr :=
  [.ldp 12 13 0 (pairOffset 8), .logic .orr 8 31 0, .ldp 6 7 0 (pairOffset 6),
    .ldp 4 5 0 (pairOffset 4), .ldp 2 3 0 (pairOffset 2), .ldp 0 1 0 (pairOffset 0),
    .movz 9 0, .movz 10 9, .movz 11 33]

def epilogueInstrs : List Instr :=
  [.stp 6 7 8 (pairOffset 6), .addSubImm .add 31 31 2048, .stp 4 5 8 (pairOffset 4),
    .stp 2 3 8 (pairOffset 2), .stp 0 1 8 (pairOffset 0)]

section Code

variable (access : Access)

/-- The bytes of the prologue are its instructions. -/
theorem assembles_prologue : (isa access).Assembles prologueInstrs codePrologue :=
  assembles (by decide +kernel)

theorem assembles_epilogue : ∃ bytes ret, codeEpilogue = bytes ++ ret ∧
    (isa access).Assembles epilogueInstrs bytes ∧ (isa access).Encodes (.ret 30) ret :=
  ⟨[0x06, 0x1d, 0x03, 0xa9, 0xff, 0x03, 0x20, 0x91, 0x04, 0x15, 0x02, 0xa9, 0x02, 0x0d, 0x01, 0xa9,
    0x00, 0x05, 0x00, 0xa9], [0xc0, 0x03, 0x5f, 0xd6], rfl, assembles (by decide +kernel),
    encodes rfl⟩

theorem encodes_clearBc : (isa access).Encodes (.movz 9 0) codeClearBc :=
  encodes rfl

end Code

section Ends

variable {access : Access} {r : Regs} {s : State}

/-- What the prologue leaves: the array in the registers, and the constants. -/
structure Loaded (r : Regs) (s s' : State) : Prop where
  file : file s'.x = fileOf r
  consts : consts s' = constsOf r
  ptr : s'.x 8 = s.x 0
  count : s'.x countReg = 0
  ten : s'.x 10 = 9 ∧ s'.x 11 = 33
  kept : ∀ q : Reg, 14 ≤ q.val → s'.x q = s.x q
  sp : s'.sp = s.sp
  mem : s'.mem = s.mem

/-- The prologue loads R0-R9 and makes room for the scratchpad. -/
theorem prologue_exec (h : Call r s) (hr : ∀ i < 10, access.readable (wordAddr (s.x 0) i) = true) :
    ∃ s', (isa access).execAll prologueInstrs s = some s' ∧ Loaded r s s' := by
  have hword (i : Fin 10) : load64 s.mem (wordAddr (s.x 0) i) = r[i] := h.regs i
  refine ⟨_, (Isa.execAll_cons (exec_ldp (a := s.x 0) rfl 12 13 8 (hr _ (by decide)) (hr _ (by decide)))).trans <|
    (Isa.execAll_cons rfl).trans <|
    (Isa.execAll_cons (exec_ldp (a := s.x 0) rfl 6 7 6 (hr _ (by decide)) (hr _ (by decide)))).trans <|
    (Isa.execAll_cons (exec_ldp (a := s.x 0) rfl 4 5 4 (hr _ (by decide)) (hr _ (by decide)))).trans <|
    (Isa.execAll_cons (exec_ldp (a := s.x 0) rfl 2 3 2 (hr _ (by decide)) (hr _ (by decide)))).trans <|
    (Isa.execAll_cons (exec_ldp (a := s.x 0) rfl 0 1 0 (hr _ (by decide)) (hr _ (by decide)))).trans <|
    (Isa.execAll_cons rfl).trans <| (Isa.execAll_cons rfl).trans (Isa.execAll_cons rfl), ?_⟩
  constructor
  · funext k
    match k with
    | 0 => exact hword 0
    | 1 => exact hword 1
    | 2 => exact hword 2
    | 3 => exact hword 3
    | 4 => exact hword 4
    | 5 => exact hword 5
    | 6 => exact hword 6
    | 7 => exact hword 7
  · funext j
    match j with
    | 0 => exact hword 8
    | 1 => exact hword 9
  · exact BitVec.zero_or
  · rfl
  · exact ⟨rfl, rfl⟩
  · intro q hq
    have hne (n : Reg) (hn : n.val < 14) : q ≠ n := by
      rintro rfl
      omega
    simp [State.set, State.setX, hne 0, hne 1, hne 2, hne 3, hne 4, hne 5, hne 6, hne 7,
      hne 8, hne 9, hne 10, hne 11, hne 12, hne 13]
  · rfl
  · rfl

/-- What the function leaves behind: R0-R7 in `r`, the rest of `r`, the stack pointer and the
registers from `x18` on as they were. -/
structure Exit (s : State) (f : RegFile) (s' : State) : Prop where
  sp : s'.sp = s.sp
  kept : ∀ q : Reg, 18 ≤ q.val → s'.x q = s.x q
  file : ∀ k : Fin 8, load64 s'.mem (wordAddr (s.x 0) k) = f k
  consts : ∀ j : Fin 2, load64 s'.mem (wordAddr (s.x 0) (8 + j)) = load64 s.mem (wordAddr (s.x 0) (8 + j))

/-- The words that the epilogue stores, in its order. -/
def fileWords (f : RegFile) : List (Word × Nat) :=
  [(f 6, 6), (f 7, 7), (f 4, 4), (f 5, 5), (f 2, 2), (f 3, 3), (f 0, 0), (f 1, 1)]

theorem fileWords_lt {f : RegFile} {x : Word × Nat} (hx : x ∈ fileWords f) : x.2 < 8 := by
  simp only [fileWords, List.mem_cons, List.not_mem_nil, or_false] at hx
  rcases hx with rfl | rfl | rfl | rfl | rfl | rfl | rfl | rfl <;> simp

/-- Each register is found again in the array after the stores of the epilogue. -/
theorem load64_fileWords (f : RegFile) (ptr : Word) (m : Bytes 64) (k : Fin 8) :
    load64 (storeWords ptr (fileWords f) m) (wordAddr ptr k) = f k := by
  have hmem : (f k, k.val) ∈ fileWords f := by
    match k with
    | 0 | 1 | 2 | 3 | 4 | 5 | 6 | 7 => simp [fileWords]
  have hnd : ((fileWords f).map Prod.snd).Nodup := by simp [fileWords]
  have hload := load64_storeWords ptr hnd (fun _ hx => by have := fileWords_lt hx; omega) (m := m) _ hmem
  dsimp only at hload
  exact hload

/-- The epilogue stores R0-R7 and gives the room back. -/
theorem epilogue_exec {ptr : Word} (hw : ∀ i < 8, access.writable (wordAddr ptr i) = true)
    (hptr : s.x 8 = ptr) : (isa access).execAll epilogueInstrs s =
      some { s with sp := s.sp + 2048, mem := storeWords ptr (fileWords (file s.x)) s.mem } := by
  have hbase (sp : Word) (mem : Bytes 64) : ({ s with sp := sp, mem := mem } : State).base 8 = some ptr := by
    have hne : ¬((8 : Reg) = 31 ∧ sp.toNat % 16 ≠ 0) := fun h => absurd h.1 (by decide)
    rw [State.base, if_neg hne, State.getSp, if_neg (by decide), hptr]
  have hstp (sp : Word) (mem : Bytes 64) (t t2 : Reg) (i : Nat) (hi : i + 1 < 8) :
      (isa access).exec (.stp t t2 8 (pairOffset i)) { s with sp := sp, mem := mem } = some (.fall,
        { s with sp := sp, mem := storeWords ptr [(s.get t, i), (s.get t2, i + 1)] mem }) :=
    exec_stp (hbase sp mem) t t2 i (hw _ (by omega)) (hw _ hi)
  exact (Isa.execAll_cons (hstp s.sp s.mem 6 7 6 (by decide))).trans <| (Isa.execAll_cons rfl).trans <|
    (Isa.execAll_cons (hstp _ _ 4 5 4 (by decide))).trans <|
    (Isa.execAll_cons (hstp _ _ 2 3 2 (by decide))).trans <| Isa.execAll_cons (hstp _ _ 0 1 0 (by decide))

end Ends

/-! ## The whole function -/

/-- The code in front of the second phase. -/
def firstCode (ts : Fin 32 → Layout) : List Byte :=
  codePrologue ++ (List.ofFn fun i => regCode (ts i)).flatten ++ codeClearBc

def functionCode (ts : Fin 32 → Layout) : List Byte :=
  firstCode ts ++ (List.ofFn fun i => memCode (ts i)).flatten ++ codeEpilogue

section Function

variable {r : Regs} {s : State} {ts : Fin 32 → Layout} (hs : ∀ i, (ts i).Shuffled) (h : Call r s)
  {code : List Byte} (hcode : Isa.CodeAt code 0 (functionCode ts))
include hs h hcode

omit hs in
/-- The prologue needs to read `r`, and nothing else. -/
theorem enter_runs {access : Access} (hr : ∀ i < 10, access.readable (wordAddr (s.x 0) i) = true) :
    ∃ s₁, (isa access).Runs code 0 ⟨.inside 0, s⟩ ⟨.inside codePrologue.length, s₁⟩ ∧ Loaded r s s₁ := by
  have hfirst := (Isa.codeAt_append.mp (Isa.codeAt_append.mp hcode).1).1
  obtain ⟨hprologue, -⟩ := Isa.codeAt_append.mp (Isa.codeAt_append.mp hfirst).1
  obtain ⟨s₁, hexec, hloaded⟩ := prologue_exec h hr
  have hruns := Isa.runs_execAll (assembles_prologue access) hprologue hexec
  rw [Nat.zero_add] at hruns
  exact ⟨s₁, hruns, hloaded⟩

/-- The first phase needs to write the scratchpad, and nothing else. -/
theorem first_runs {access : Access} (hw : ∀ k < 256, access.writable (wordAddr (frameBase s) k) = true)
    {s₁ : State} (hloaded : Loaded r s s₁) {k : Nat} (hk : k ≤ 32) :
    ∃ s₂, (isa access).Runs code (32 - (writeUpTo ts (constsOf r) (fileOf r) k hk).1.2)
        ⟨.inside codePrologue.length, s₁⟩
        ⟨.inside (codePrologue.length + Isa.offset (fun i => regCode (ts i)) k), s₂⟩ ∧
      Between s₁ (frameBase s) k (writeUpTo ts (constsOf r) (fileOf r) k hk) s₂ := by
  have hfirst := (Isa.codeAt_append.mp (Isa.codeAt_append.mp hcode).1).1
  obtain ⟨-, hwrites⟩ := Isa.codeAt_append.mp (Isa.codeAt_append.mp hfirst).1
  rw [Nat.zero_add] at hwrites
  have hstart : Between s₁ (frameBase s) 0 ((fileOf r, 32), fun _ => 0) s₁ :=
    ⟨le_rfl, hloaded.count, hloaded.file, fun _ _ _ => rfl, hloaded.sp.trans (sp_eq s),
      filled_zero _ _, fun _ _ => rfl⟩
  have hruns := write_upTo hloaded.ten (frameBase_aligned h.aligned) hw hs hwrites
    hstart hk
  rw [hloaded.consts] at hruns
  exact hruns

/-- The second phase needs to read the scratchpad, and nothing else. -/
theorem second_runs {access : Access} (hr : ∀ k < 256, access.readable (wordAddr (frameBase s) k) = true)
    {s₁ s₂ : State} (hloaded : Loaded r s s₁)
    (hbetween : Between s₁ (frameBase s) 32 (writePhase ts (constsOf r) (fileOf r)) s₂)
    {k : Nat} (hk : k ≤ 32) :
    let u := writePhase ts (constsOf r) (fileOf r)
    let w := readUpTo ts (constsOf r) u.2 u.1.1 k hk
    ∃ s₃, (isa access).Runs code (32 - w.2)
        ⟨.inside (codePrologue.length + Isa.offset (fun i => regCode (ts i)) 32), s₂⟩
        ⟨.inside ((firstCode ts).length + Isa.offset (fun i => memCode (ts i)) k), s₃⟩ ∧
      file s₃.x = w.1 ∧ Fixed s₂ s₃ := by
  intro u w
  obtain ⟨hfirst, hreads⟩ := Isa.codeAt_append.mp (Isa.codeAt_append.mp hcode).1
  obtain ⟨-, hclear⟩ := Isa.codeAt_append.mp hfirst
  have hend : 0 + (codePrologue ++ (List.ofFn fun i => regCode (ts i)).flatten).length =
      codePrologue.length + Isa.offset (fun i => regCode (ts i)) 32 := by
    rw [Isa.offset_all, List.length_append, Nat.zero_add]
  rw [hend] at hclear
  let s₃ := s₂.setX countReg 0
  have hfixed : Fixed s₂ s₃ := ⟨fun q _ hq => Function.update_of_ne (β := fun _ => Word) hq 0 _, rfl, rfl⟩
  have hexec : (isa access).exec (.movz 9 0) s₂ = some (.fall, s₃) := rfl
  have hruns₁ := Isa.runs_fall hclear (encodes_clearBc access) hexec
  have hsp : s₂.sp = frameBase s := hbetween.sp.trans (wordAddr_zero _)
  have hholds : Holds (AlignedScratch access u.2) s₃ := by
    have hten := (holds_of_kept hloaded.ten hbetween.kept).of_fixed hfixed
    refine ⟨hten.nine, hten.thirtyThree, ⟨fun a => ?_, fun a => ?_⟩, ?_⟩
    · rw [hfixed.sp, hsp]
      exact hr a a.isLt
    · rw [hfixed.sp, hsp]
      exact hbetween.filled.word (Nat.zero_le _)
    · rw [hfixed.sp, hsp]
      exact frameBase_aligned h.aligned
  have hconsts : consts s₃ = constsOf r := by
    rw [hfixed.consts, ← hloaded.consts]
    exact funext fun j => hbetween.kept _ (not_work_creg j).1 (not_work_creg j).2
  have hcount : s₃.x countReg = 0 := Function.update_self countReg 0 s₂.x
  have hhead : Head s₃ 32 u.1.1 s₃ :=
    ⟨le_rfl, hcount, (file_update_count _ _).trans hbetween.file, Fixed.refl s₃⟩
  obtain ⟨s₄, hruns₂, hdone⟩ := read_upTo hholds hs hreads hhead hk
  rw [hconsts] at hruns₂ hdone
  refine ⟨s₄, ?_, hdone.file, hfixed.trans hdone.fixed⟩
  have hlen : codePrologue.length + Isa.offset (fun i => regCode (ts i)) 32 + codeClearBc.length =
      0 + (firstCode ts).length := by
    simp only [← hend, firstCode, List.length_append, Nat.add_assoc]
  rw [hlen] at hruns₁
  have hruns := hruns₁.trans hruns₂
  rw [Nat.zero_add, Nat.zero_add] at hruns
  exact hruns

omit hs in
/-- The epilogue needs to write the first eight words of `r`, and nothing else. -/
theorem leave_runs {access : Access} (hw : ∀ i < 8, access.writable (wordAddr (s.x 0) i) = true)
    {s₁ s₂ s₃ : State} (hloaded : Loaded r s s₁) {u : (RegFile × Nat) × Memory}
    (hbetween : Between s₁ (frameBase s) 32 u s₂) (hfixed : Fixed s₂ s₃) :
    ∃ s', (isa access).Runs code 0
        ⟨.inside ((firstCode ts).length + Isa.offset (fun i => memCode (ts i)) 32), s₃⟩
        ⟨.outside (s.x 30), s'⟩ ∧ Exit s (file s₃.x) s' := by
  obtain ⟨bytes, ret, hbytes, hasm, hret⟩ := assembles_epilogue access
  have hepilogue := (Isa.codeAt_append.mp hcode).2
  rw [hbytes] at hepilogue
  obtain ⟨hstores, hleave⟩ := Isa.codeAt_append.mp hepilogue
  have hend : 0 + (firstCode ts ++ (List.ofFn fun i => memCode (ts i)).flatten).length =
      (firstCode ts).length + Isa.offset (fun i => memCode (ts i)) 32 := by
    rw [Isa.offset_all, List.length_append, Nat.zero_add]
  rw [hend] at hstores hleave
  have hkept (q : Reg) (hq : ¬ Work q ∧ q ≠ countReg) : s₃.x q = s₁.x q :=
    (hfixed.x q hq.1 hq.2).trans (hbetween.kept q hq.1 hq.2)
  have h8 : ¬ Work 8 ∧ (8 : Reg) ≠ countReg := by unfold Work; decide
  have hhigh (q : Reg) (hq : 18 ≤ q.val) : s₃.x q = s.x q := by
    have hne : ¬ Work q ∧ q ≠ countReg := by
      unfold Work countReg
      rw [ne_eq, Fin.ext_iff]
      exact ⟨by omega, by show q.val ≠ 9; omega⟩
    exact (hkept q hne).trans (hloaded.kept q (by omega))
  have hptr : s₃.x 8 = s.x 0 := (hkept 8 h8).trans hloaded.ptr
  have hexec := epilogue_exec hw hptr
  have hruns := Isa.runs_execAll hasm hstores hexec
  have htarget : s₃.x 30 = s.x 30 := hhigh 30 (by decide)
  let s' : State :=
    { s₃ with sp := s₃.sp + 2048, mem := storeWords (s.x 0) (fileWords (file s₃.x)) s₃.mem }
  have hexit : (isa access).exec (.ret 30) s' = some (.leave (s.x 30), s') := by
    rw [← htarget]
    rfl
  refine ⟨s', hruns.trans (Isa.runs_leave hleave hret hexit), ?_, hhigh,
    fun k => load64_fileWords _ _ _ k, fun j => ?_⟩
  · show s₃.sp + 2048 = s.sp
    have hsp : s₂.sp = frameBase s := hbetween.sp.trans (wordAddr_zero _)
    rw [hfixed.sp, hsp]
    exact (sp_eq s).symm
  · have hj := j.isLt
    refine (load64_storeWords_of_apart fun x hx => ?_).trans ?_
    · have hlt := fileWords_lt hx
      exact apart_wordAddr _ (by omega) (by omega) (by omega)
    · rw [hfixed.mem, hbetween.frame _ fun i hi => h.apart _ (by omega) i hi, hloaded.mem]

end Function

/-! ## The compiler against the interpreter -/

/-- The machine and the interpreter in front of program `k` of the first phase: every branch
spent is a jump taken, and R0-R7 and the words stored so far agree. -/
def LockstepWrite (access : Access) (code : List Byte) (s : State) (pos : List Byte) (k spent : Nat)
    (r : Regs) (mem : Scratchpad) : Prop :=
  ∃ s', (isa access).Runs code spent ⟨.inside 0, s⟩ ⟨.inside pos.length, s'⟩ ∧
    (∀ i : Fin 8, s'.x (vreg i) = r[i]) ∧
    ∀ a : Fin 256, 256 - 8 * k ≤ a.val → load64 s'.mem (wordAddr (frameBase s) a) = mem[a]

/-- In front of one program of the second phase, which loads its operands from the whole scratchpad. -/
def LockstepRead (access : Access) (code : List Byte) (s : State) (pos : List Byte) (spent : Nat)
    (r : Regs) (mem : Scratchpad) : Prop :=
  ∃ s', (isa access).Runs code spent ⟨.inside 0, s⟩ ⟨.inside pos.length, s'⟩ ∧
    (∀ i : Fin 8, s'.x (vreg i) = r[i]) ∧
    ∀ a : Fin 256, load64 s'.mem (wordAddr (frameBase s) a) = mem[a]

/-- The machine returns to its caller, with `r'` in the place of `r`. -/
def Returns (access : Access) (code : List Byte) (s : State) (r' : Regs) : Prop :=
  ∃ s' n, (isa access).Runs code n ⟨.inside 0, s⟩ ⟨.outside (s.x 30), s'⟩ ∧
    ∀ i : Fin 10, load64 s'.mem (wordAddr (s.x 0) i) = r'[i]

/-- The two loops carry out their schedules, in which every operation reads the operands that it
reads in program order. -/
structure HazardFree (access : Access) (t : Layout) : Prop where
  reg_does : Does access (fun _ _ => True) (regFront t ++ emitMul t.mul6.dst t.mul6.src) (regSchedule t)
  reg_order : Equivalent (regSchedule t) (regOrder t)
  mem_does (m : Memory) : Does access (AlignedScratch access m) (memFront t ++ emitMul t.mul6.dst 16)
    (memSchedule t (loadWord m))
  mem_order (ld : Word → Word) : Equivalent (memSchedule t ld) (memOrder ld t)

/-- Both loops are schedules of the program order, for every shuffled layout. -/
theorem hazardFree (access : Access) {t : Layout} (hs : t.Shuffled) : HazardFree access t where
  reg_does := (does_regFront t).append (does_regLast t)
  reg_order := equivalent_regSchedule (hazards_of_shuffled hs)
  mem_does m := (does_memFront t m).append (does_memLast t)
  mem_order ld := equivalent_memSchedule ld (hazards_of_shuffled hs)

section Refines

variable {access : Access} {r : Regs} {s : State} {list : ProgramList} {ts : Fin 32 → Layout}
  (hs : ∀ i, (ts i).Shuffled) (ht : ∀ i : Fin 32, (ts i).Describes list[i]) (h : Entry access r s)
  {code : List Byte} (hcode : Isa.CodeAt code 0 (functionCode ts))
include hs ht h hcode

omit hs h hcode in
/-- What the compiler emits for a list that holds the layouts. -/
theorem hashwxCompileA64_eq : hashwxCompileA64 list = some (functionCode ts) := by
  have hall : (List.ofFn fun i => memCode (ts i)).take 32 = List.ofFn fun i => memCode (ts i) :=
    List.take_of_length_le (by rw [List.length_ofFn])
  rw [hashwxCompileA64_eq_first, compileMemFirst_eq ht le_rfl, hall]
  rfl

/-- In front of every program of the first phase the machine has what the interpreter has. -/
theorem lockstep_write (mem : Scratchpad) {k : Nat} (hk : k ≤ 32) :
    ∃ pos r' b mem', compileRegFirst list k hk = some pos ∧
      writeFirst list k hk r mem = some (r', b, mem') ∧ b ≤ 32 ∧
      LockstepWrite access code s pos k (32 - b) r' mem' := by
  obtain ⟨mem', hwrite, hfilled⟩ := writeFirst_eq ht (constsOf r) (fileOf r) mem hk
  rw [regs_eta] at hwrite
  obtain ⟨s₁, hruns₁, hloaded⟩ := enter_runs h.toCall hcode h.regs_readable
  obtain ⟨s₂, hruns₂, hbetween⟩ := first_runs hs h.toCall hcode h.frame_writable hloaded hk
  have hruns := hruns₁.trans hruns₂
  rw [Nat.zero_add] at hruns
  refine ⟨_, _, _, _, compileRegFirst_eq ht hk, hwrite, writeUpTo_budget_le _ _ _ hk, s₂, ?_,
    fun i => ?_, fun a ha => ?_⟩
  · rw [List.length_append]
    exact hruns
  · rw [regs_file]
    exact congrFun hbetween.file i
  · exact (hbetween.filled.word ha).trans (hfilled.entry ha).symm

/-- The same for the second phase, where the scratchpad does not change any more. -/
theorem lockstep_read {mem : Scratchpad} {u : Regs × Nat × Scratchpad}
    (hu : writeFirst list 32 le_rfl r mem = some u) {k : Nat} (hk : k ≤ 32) :
    ∃ pos r' b, compileMemFirst list k hk = some pos ∧
      readFirst list u.2.2 k hk u.1 = some (r', b) ∧ b ≤ 32 ∧
      LockstepRead access code s pos (32 - u.2.1 + (32 - b)) r' u.2.2 := by
  obtain ⟨mem', hwrite, hfilled⟩ := writeFirst_eq ht (constsOf r) (fileOf r) mem le_rfl
  rw [regs_eta, hu] at hwrite
  obtain rfl := Option.some.inj hwrite
  obtain ⟨s₁, hruns₁, hloaded⟩ := enter_runs h.toCall hcode h.regs_readable
  obtain ⟨s₂, hruns₂, hbetween⟩ := first_runs hs h.toCall hcode h.frame_writable hloaded (le_refl 32)
  obtain ⟨s₃, hruns₃, hfile, hfixed⟩ :=
    second_runs hs h.toCall hcode h.frame_readable hloaded hbetween hk
  have hruns := hruns₁.trans (hruns₂.trans hruns₃)
  rw [Nat.zero_add] at hruns
  simp only [writePhase] at hruns hfile
  refine ⟨_, _, _, compileMemFirst_eq ht hk, readFirst_eq ht _ hfilled.all _ hk,
    readUpTo_budget_le _ _ _ _ hk, s₃, ?_, fun i => ?_, fun a => ?_⟩
  · have hlength : (codePrologue ++ (List.ofFn fun i => regCode (ts i)).flatten ++ codeClearBc ++
        ((List.ofFn fun i => memCode (ts i)).take k).flatten).length =
        (firstCode ts).length + Isa.offset (fun i => memCode (ts i)) k := List.length_append
    rw [hlength]
    dsimp only
    exact hruns
  · rw [regs_file]
    exact congrFun hfile i
  · rw [hfixed.mem]
    exact (hbetween.filled.word (Nat.zero_le _)).trans (hfilled.entry (Nat.zero_le _)).symm

/-- The call returns with the registers of the interpreter in the array. -/
theorem returns_executed (mem : Scratchpad) : ∃ r', hashwxProgramListExecute list r mem = some r' ∧
    Returns access code s r' ∧ r'[8] = r[8] ∧ r'[9] = r[9] := by
  obtain ⟨s₁, hruns₁, hloaded⟩ := enter_runs h.toCall hcode h.regs_readable
  obtain ⟨s₂, hruns₂, hbetween⟩ := first_runs hs h.toCall hcode h.frame_writable hloaded (le_refl 32)
  obtain ⟨s₃, hruns₃, hfile, hfixed⟩ :=
    second_runs hs h.toCall hcode h.frame_readable hloaded hbetween (le_refl 32)
  obtain ⟨s', hruns₄, hexit⟩ := leave_runs h.toCall hcode h.regs_writable hloaded hbetween hfixed
  rw [hfile] at hexit
  have hexecute := hashwxProgramListExecute_eq ht (constsOf r) (fileOf r) mem
  rw [regs_eta] at hexecute
  refine ⟨_, hexecute, ⟨s', _, hruns₁.trans (hruns₂.trans (hruns₃.trans hruns₄)), fun i => ?_⟩,
    regs_const _ _ 0, regs_const _ _ 1⟩
  induction i using Fin.addCases (m := 8) (n := 2) with
  | left k => exact (hexit.file k).trans (regs_file _ _ k).symm
  | right j =>
    have hconst : (regs (executeLayouts ts (constsOf r) (fileOf r)) (constsOf r))[8 + j.val] =
        constsOf r j := regs_const _ _ j
    exact (hexit.consts j).trans ((h.regs (Fin.natAdd 8 j)).trans hconst.symm)

end Refines

/-- **The AArch64 compiler refines the interpreter.** The words compiled from a generated list, with
anything behind them, run to their `ret` and leave what the interpreter leaves. Registers and stored
words agree in front of every program, and inside a program no operand that is read early has another
value than in program order. -/
theorem hashwxCompileA64_refines (access : Access) (key : Siphash.SiphashKey) (memory : ProgramList)
    (mem : Scratchpad) (tail : List Byte) (r : Regs) (s : State) (h : Entry access r s) :
    let list := hashwxProgramListGenerate key memory
    ∃ code u, hashwxCompileA64 list = some code ∧ writeFirst list 32 le_rfl r mem = some u ∧
      (∃ r', hashwxProgramListExecute list r mem = some r' ∧
        Returns access (code ++ tail) s r' ∧ r'[8] = r[8] ∧ r'[9] = r[9]) ∧
      (∀ k hk, ∃ pos r' b mem', compileRegFirst list k hk = some pos ∧
        writeFirst list k hk r mem = some (r', b, mem') ∧ b ≤ 32 ∧
        LockstepWrite access (code ++ tail) s pos k (32 - b) r' mem') ∧
      (∀ k hk, ∃ pos r' b, compileMemFirst list k hk = some pos ∧
        readFirst list u.2.2 k hk u.1 = some (r', b) ∧ b ≤ 32 ∧
        LockstepRead access (code ++ tail) s pos (32 - u.2.1 + (32 - b)) r' u.2.2) ∧
      ∀ i : Fin 32, ∃ t : Layout, t.Describes list[i] ∧ HazardFree access t := by
  intro list
  obtain ⟨ts, hs, ht⟩ := hashwxProgramListGenerate_describes key memory
  obtain ⟨mem', hwrite, -⟩ := writeFirst_eq ht (constsOf r) (fileOf r) mem le_rfl
  rw [regs_eta] at hwrite
  have hcode : Isa.CodeAt (functionCode ts ++ tail) 0 (functionCode ts) := List.prefix_append _ _
  exact ⟨_, _, hashwxCompileA64_eq ht, hwrite, returns_executed hs ht h hcode mem,
    fun k hk => lockstep_write hs ht h hcode mem hk, fun k hk => lockstep_read hs ht h hcode hwrite hk,
    fun i => ⟨ts i, ht i, hazardFree access (hs i)⟩⟩

/-- A call of `r` that lies at 4096, with the stack at 65536. Every other byte of the memory is the low
byte of its address. -/
def openState (r : Regs) : State :=
  ⟨fun _ => 4096, 65536, false, storeArray 4096 (fun i : Fin 10 => r[i]) fun a => a.setWidth 8⟩

theorem openState_entry (r : Regs) : Entry ⟨fun _ => true, fun _ => true⟩ r (openState r) where
  regs i := load64_storeArray 4096 (fun i : Fin 10 => r[i]) _ (by decide) i
  aligned := (rfl : (65536 : Word).toNat % 16 = 0)
  apart i hi k hk := by
    have hx : (openState r).x 0 = 4096 := rfl
    have hsp : (openState r).sp = 65536 := rfl
    simp only [Apart, wordAddr, frameBase, hx, hsp]
    bv_omega
  regs_readable _ _ := rfl
  regs_writable _ _ := rfl
  frame_readable _ _ := rfl
  frame_writable _ _ := rfl

theorem hashwxCompileA64_refines_sample :
    let list := hashwxProgramListGenerate ⟨0, 0⟩ (.replicate 32 (.replicate 10 ⟨.halt, 0, 0, 0⟩))
    ∃ code r', hashwxCompileA64 list = some code ∧
      hashwxProgramListExecute list sampleRegs (.replicate 256 0) = some r' ∧
      Returns ⟨fun _ => true, fun _ => true⟩ code (openState sampleRegs) r' := by
  intro list
  obtain ⟨code, u, hcompile, -, ⟨r', hexecute, hreturns, -⟩, -⟩ :=
    hashwxCompileA64_refines ⟨fun _ => true, fun _ => true⟩ ⟨0, 0⟩
      (.replicate 32 (.replicate 10 ⟨.halt, 0, 0, 0⟩)) (.replicate 256 0) [] sampleRegs
      (openState sampleRegs) (openState_entry sampleRegs)
  rw [List.append_nil] at hreturns
  exact ⟨code, r', hcompile, hexecute, hreturns⟩

end HashWX.CompilerA64
