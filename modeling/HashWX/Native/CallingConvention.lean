import HashWX.A64.Correct
import HashWX.Isa.A64Access
import HashWX.Isa.X86Access
import HashWX.X86.Correct

/-!
# The calling convention and the frame of native code

A call runs in four parts, each under the access policy that it needs: the prologue, the
first phase, which only writes the scratchpad, the second phase, which only reads it, and
the epilogue.
-/

namespace HashWX

open ByteMemory CodeMachine

namespace CompilerX86

open X86

/-- The registers that a function has to preserve. -/
def calleeSaved : Abi → List Reg
  | .sysv => [rbx, rbp, 12, 13, 14, 15]
  | .win => [rbx, rbp, rdi, rsi, 12, 13, 14, 15]

theorem calleeSaved_subset (abi : Abi) : calleeSaved abi ⊆ savedRegs abi := by
  cases abi <;> decide

section Policies

variable (abi : Abi) (s : State)

/-- `r[0]` to `r[n - 1]`. -/
def arrayWords (n : Nat) : List Word := wordsFrom (s.regs (argReg abi)) 0 n

/-- The scratchpad. -/
def scratchWords : List Word := wordsFrom (frameBase abi s) 0 256

/-- The saved registers, between the scratchpad and the return address. -/
def savedWords : List Word := wordsFrom (frameBase abi s) 256 (savedRegs abi).length

def enterAccess : Access := .words (arrayWords abi s 10) (savedWords abi s)

def writeAccess : Access := .words [] (scratchWords abi s)

def readAccess : Access := .words (scratchWords abi s) []

def leaveAccess : Access := .words (savedWords abi s ++ [s.regs rsp]) (arrayWords abi s 8)

/-- All that the function reads and writes. -/
def callAccess : Access :=
  .words (arrayWords abi s 10 ++ scratchWords abi s ++ savedWords abi s ++ [s.regs rsp])
    (arrayWords abi s 8 ++ scratchWords abi s ++ savedWords abi s)

end Policies

/-- A call obeys the calling convention: it runs in its four parts to the return address, with
the stack pointer behind it and the registers of the caller restored. `p` and `q` are the offsets
behind the two phases, and `mem` is the scratchpad between them. -/
structure Obeys (abi : Abi) (code : List Byte) (s : State) (p q : Nat) (mem : Scratchpad)
    (s₁ s₂ s₃ s' : State) : Prop where
  enter : (isa (enterAccess abi s)).Runs code 0 ⟨.inside 0, s⟩ ⟨.inside (codePrologue abi).length, s₁⟩
  write : ∃ n ≤ 32, (isa (writeAccess abi s)).Runs code n
    ⟨.inside (codePrologue abi).length, s₁⟩ ⟨.inside p, s₂⟩
  stored : ∀ a : Fin 256, load64 s₂.mem (wordAddr (frameBase abi s) a) = mem[a]
  read : ∃ n ≤ 32, (isa (readAccess abi s)).Runs code n ⟨.inside p, s₂⟩ ⟨.inside q, s₃⟩
  leave : (isa (leaveAccess abi s)).Runs code 0 ⟨.inside q, s₃⟩
    ⟨.outside (load64 s.mem (s.regs X86.rsp)), s'⟩
  rsp : s'.regs X86.rsp = s.regs X86.rsp + 8
  preserved : ∀ reg ∈ calleeSaved abi, s'.regs reg = s.regs reg

section Call

variable {abi : Abi} {code : List Byte} {s : State}

/-- The four parts are one run. -/
theorem Obeys.runs {p q : Nat} {mem : Scratchpad} {s₁ s₂ s₃ s' : State}
    (h : Obeys abi code s p q mem s₁ s₂ s₃ s') : ∃ n, (isa (callAccess abi s)).Runs code n
      ⟨.inside 0, s⟩ ⟨.outside (load64 s.mem (s.regs X86.rsp)), s'⟩ := by
  obtain ⟨n₂, -, hwrite⟩ := h.write
  obtain ⟨n₃, -, hread⟩ := h.read
  have henter : (enterAccess abi s).Weaker (callAccess abi s) :=
    Access.weaker_words (by simp) (by simp)
  have hfirst : (writeAccess abi s).Weaker (callAccess abi s) :=
    Access.weaker_words (by simp) (by simp)
  have hsecond : (readAccess abi s).Weaker (callAccess abi s) :=
    Access.weaker_words (by simp) (by simp)
  have hleave : (leaveAccess abi s).Weaker (callAccess abi s) :=
    Access.weaker_words (by simp) (by simp)
  exact ⟨_, (policed.runs_mono henter h.enter).trans <| (policed.runs_mono hfirst hwrite).trans <|
    (policed.runs_mono hsecond hread).trans (policed.runs_mono hleave h.leave)⟩

variable {r : Regs} {ts : Fin 32 → Layout} (hs : ∀ i, (ts i).Shuffled) (h : Call abi r s)
  (hcode : Isa.CodeAt code 0 (functionCode abi ts))
include hs h hcode

theorem obeys {mem : Scratchpad}
    (hmem : ∀ a : Fin 256, mem[a] = (writePhase ts (constsOf r) (fileOf r)).2 a) :
    ∃ s₁ s₂ s₃ s', Obeys abi code s
      ((codePrologue abi).length + Isa.offset (fun i => writeCode (ts i)) 32)
      ((firstCode abi ts).length + Isa.offset (fun i => readCode (ts i)) 32) mem s₁ s₂ s₃ s' := by
  have harray {n : Nat} (i : Nat) (hi : i < n) :
      wordAddr (s.regs (argReg abi)) i ∈ arrayWords abi s n := mem_wordsFrom _ (Nat.zero_le i) (by omega)
  have hscratch (k : Nat) (hk : k < 256) : wordAddr (frameBase abi s) k ∈ scratchWords abi s :=
    mem_wordsFrom _ (Nat.zero_le k) (by omega)
  have hsave (k : Nat) (hk : 256 ≤ k) (hk' : k < 256 + (savedRegs abi).length) :
      wordAddr (frameBase abi s) k ∈ savedWords abi s := mem_wordsFrom _ hk hk'
  have htop (k : Nat) (hk : 256 ≤ k) (hk' : k ≤ 256 + (savedRegs abi).length) :
      wordAddr (frameBase abi s) k ∈ savedWords abi s ++ [s.regs X86.rsp] := by
    rcases Nat.lt_or_eq_of_le hk' with hlt | rfl
    · exact List.mem_append_left _ (hsave k hk hlt)
    · exact List.mem_append_right _ (List.mem_singleton.mpr (rsp_eq abi s).symm)
  have henter (i : Nat) (hi : i < 10) :
      (enterAccess abi s).readable (wordAddr (s.regs (argReg abi)) i) = true :=
    Access.readable_words.mpr (harray i hi)
  have hwrite (k : Nat) (hk : k < 256) :
      (writeAccess abi s).writable (wordAddr (frameBase abi s) k) = true :=
    Access.writable_words.mpr (hscratch k hk)
  have hread (k : Nat) (hk : k < 256) :
      (readAccess abi s).readable (wordAddr (frameBase abi s) k) = true :=
    Access.readable_words.mpr (hscratch k hk)
  have hleave (i : Nat) (hi : i < 8) :
      (leaveAccess abi s).writable (wordAddr (s.regs (argReg abi)) i) = true :=
    Access.writable_words.mpr (harray i hi)
  obtain ⟨v₁, hruns₁, hbetween₁, hsaved⟩ := enter_runs h hcode henter
    fun k hk hk' => Access.writable_words.mpr (hsave k hk hk')
  obtain ⟨v₂, hruns₂, hbetween₂⟩ := first_runs hs hcode hwrite hbetween₁ (le_refl 32)
  obtain ⟨v₃, hruns₃, -, hfixed⟩ := second_runs hcode hread hbetween₂ (le_refl 32)
  obtain ⟨s', hruns₄, hexit⟩ := leave_runs h hcode hleave
    (fun k hk hk' => Access.readable_words.mpr (htop k hk hk')) hsaved hbetween₂ hfixed
  refine ⟨v₁.state, v₂.state, v₃.state, s', hruns₁, ⟨_, Nat.sub_le _ _, hruns₂⟩, fun a => ?_,
    ⟨_, Nat.sub_le _ _, hruns₃⟩, hruns₄, hexit.rsp, fun reg hreg => ?_⟩
  · rw [hmem a]
    exact hbetween₂.filled.word (Nat.zero_le _)
  · exact hexit.saved reg (calleeSaved_subset abi hreg)

end Call

end CompilerX86

namespace CompilerA64

open A64

section Policies

variable (s : State)

/-- `r[0]` to `r[n - 1]`. -/
def arrayWords (n : Nat) : List Word := wordsFrom (s.x 0) 0 n

/-- The scratchpad, directly below the stack pointer. -/
def scratchWords : List Word := wordsFrom (frameBase s) 0 256

def enterAccess : Access := .words (arrayWords s 10) []

def writeAccess : Access := .words [] (scratchWords s)

def readAccess : Access := .words (scratchWords s) []

def leaveAccess : Access := .words [] (arrayWords s 8)

/-- All that the function reads and writes. -/
def callAccess : Access :=
  .words (arrayWords s 10 ++ scratchWords s) (arrayWords s 8 ++ scratchWords s)

end Policies

/-- A call obeys the calling convention. The registers preserved are those that the caller may
rely on, `x19` to `x29`, with the platform register below and the link register above them. -/
structure Obeys (code : List Byte) (s : State) (p q : Nat) (mem : Scratchpad)
    (s₁ s₂ s₃ s' : State) : Prop where
  enter : (isa (enterAccess s)).Runs code 0 ⟨.inside 0, s⟩ ⟨.inside codePrologue.length, s₁⟩
  write : ∃ n ≤ 32, (isa (writeAccess s)).Runs code n
    ⟨.inside codePrologue.length, s₁⟩ ⟨.inside p, s₂⟩
  stored : ∀ a : Fin 256, load64 s₂.mem (wordAddr (frameBase s) a) = mem[a]
  read : ∃ n ≤ 32, (isa (readAccess s)).Runs code n ⟨.inside p, s₂⟩ ⟨.inside q, s₃⟩
  leave : (isa (leaveAccess s)).Runs code 0 ⟨.inside q, s₃⟩ ⟨.outside (s.x 30), s'⟩
  sp : s'.sp = s.sp
  preserved : ∀ reg : Reg, 18 ≤ reg.val → s'.x reg = s.x reg

section Call

variable {code : List Byte} {s : State}

/-- The four parts are one run. -/
theorem Obeys.runs {p q : Nat} {mem : Scratchpad} {s₁ s₂ s₃ s' : State}
    (h : Obeys code s p q mem s₁ s₂ s₃ s') : ∃ n, (isa (callAccess s)).Runs code n
      ⟨.inside 0, s⟩ ⟨.outside (s.x 30), s'⟩ := by
  obtain ⟨n₂, -, hwrite⟩ := h.write
  obtain ⟨n₃, -, hread⟩ := h.read
  have henter : (enterAccess s).Weaker (callAccess s) := Access.weaker_words (by simp) (by simp)
  have hfirst : (writeAccess s).Weaker (callAccess s) := Access.weaker_words (by simp) (by simp)
  have hsecond : (readAccess s).Weaker (callAccess s) := Access.weaker_words (by simp) (by simp)
  have hleave : (leaveAccess s).Weaker (callAccess s) := Access.weaker_words (by simp) (by simp)
  exact ⟨_, (policed.runs_mono henter h.enter).trans <| (policed.runs_mono hfirst hwrite).trans <|
    (policed.runs_mono hsecond hread).trans (policed.runs_mono hleave h.leave)⟩

variable {r : Regs} {ts : Fin 32 → Layout} (hs : ∀ i, (ts i).Shuffled) (h : Call r s)
  (hcode : Isa.CodeAt code 0 (functionCode ts))
include hs h hcode

theorem obeys {mem : Scratchpad}
    (hmem : ∀ a : Fin 256, mem[a] = (writePhase ts (constsOf r) (fileOf r)).2 a) :
    ∃ s₁ s₂ s₃ s', Obeys code s (codePrologue.length + Isa.offset (fun i => regCode (ts i)) 32)
      ((firstCode ts).length + Isa.offset (fun i => memCode (ts i)) 32) mem s₁ s₂ s₃ s' := by
  have harray {n : Nat} (i : Nat) (hi : i < n) : wordAddr (s.x 0) i ∈ arrayWords s n :=
    mem_wordsFrom _ (Nat.zero_le i) (by omega)
  have hscratch (k : Nat) (hk : k < 256) : wordAddr (frameBase s) k ∈ scratchWords s :=
    mem_wordsFrom _ (Nat.zero_le k) (by omega)
  have henter (i : Nat) (hi : i < 10) : (enterAccess s).readable (wordAddr (s.x 0) i) = true :=
    Access.readable_words.mpr (harray i hi)
  have hwrite (k : Nat) (hk : k < 256) : (writeAccess s).writable (wordAddr (frameBase s) k) = true :=
    Access.writable_words.mpr (hscratch k hk)
  have hread (k : Nat) (hk : k < 256) : (readAccess s).readable (wordAddr (frameBase s) k) = true :=
    Access.readable_words.mpr (hscratch k hk)
  have hleave (i : Nat) (hi : i < 8) : (leaveAccess s).writable (wordAddr (s.x 0) i) = true :=
    Access.writable_words.mpr (harray i hi)
  obtain ⟨s₁, hruns₁, hloaded⟩ := enter_runs h hcode henter
  obtain ⟨s₂, hruns₂, hbetween⟩ := first_runs hs h hcode hwrite hloaded (le_refl 32)
  obtain ⟨s₃, hruns₃, -, hfixed⟩ := second_runs hs h hcode hread hloaded hbetween (le_refl 32)
  obtain ⟨s', hruns₄, hexit⟩ := leave_runs h hcode hleave hloaded hbetween hfixed
  refine ⟨s₁, s₂, s₃, s', hruns₁, ⟨_, Nat.sub_le _ _, hruns₂⟩, fun a => ?_,
    ⟨_, Nat.sub_le _ _, hruns₃⟩, hruns₄, hexit.sp, hexit.kept⟩
  rw [hmem a]
  exact hbetween.filled.word (Nat.zero_le _)

end Call

end CompilerA64

/-- **Native code obeys the calling convention and keeps to its memory frame.** Every load of the
second phase hits the 256 words that the first phase has stored, all stores go to `r[0..7]` and to
the stack below its pointer, and the caller finds its stack pointer and its registers. -/
theorem native_code_obeys_abi (key : Siphash.SiphashKey) (memory : ProgramList) (mem : Scratchpad)
    (tail : List Byte) (r : Regs) :
    let list := hashwxProgramListGenerate key memory
    ∃ u, writeFirst list 32 le_rfl r mem = some u ∧
      (∀ abi s, CompilerX86.Call abi r s → ∃ code pos pos' s₁ s₂ s₃ s' n,
        CompilerX86.hashwxCompileX86 abi list = some code ∧
        CompilerX86.compileRegFirst abi list 32 le_rfl = some pos ∧
        CompilerX86.compileMemFirst abi list 32 le_rfl = some pos' ∧
        CompilerX86.Obeys abi (code ++ tail) s pos.length pos'.length u.2.2 s₁ s₂ s₃ s' ∧
        (X86.isa (CompilerX86.callAccess abi s)).Runs (code ++ tail) n ⟨.inside 0, s⟩
          ⟨.outside (load64 s.mem (s.regs X86.rsp)), s'⟩ ∧
        Frame (CompilerX86.arrayWords abi s 8 ++ CompilerX86.scratchWords abi s ++
          CompilerX86.savedWords abi s) s.mem s'.mem) ∧
      ∀ s, CompilerA64.Call r s → ∃ code pos pos' s₁ s₂ s₃ s' n,
        CompilerA64.hashwxCompileA64 list = some code ∧
        CompilerA64.compileRegFirst list 32 le_rfl = some pos ∧
        CompilerA64.compileMemFirst list 32 le_rfl = some pos' ∧
        CompilerA64.Obeys (code ++ tail) s pos.length pos'.length u.2.2 s₁ s₂ s₃ s' ∧
        (A64.isa (CompilerA64.callAccess s)).Runs (code ++ tail) n ⟨.inside 0, s⟩
          ⟨.outside (s.x 30), s'⟩ ∧
        Frame (CompilerA64.arrayWords s 8 ++ CompilerA64.scratchWords s) s.mem s'.mem := by
  intro list
  obtain ⟨ts, hs, ht⟩ := hashwxProgramListGenerate_describes key memory
  obtain ⟨mem', hwrite, hfilled⟩ := writeFirst_eq ht (constsOf r) (fileOf r) mem le_rfl
  rw [regs_eta] at hwrite
  have hmem (a : Fin 256) : mem'[a] = (writePhase ts (constsOf r) (fileOf r)).2 a :=
    hfilled.entry (Nat.zero_le _)
  refine ⟨_, hwrite, fun abi s h => ?_, fun s h => ?_⟩
  · have hcode : Isa.CodeAt (CompilerX86.functionCode abi ts ++ tail) 0
        (CompilerX86.functionCode abi ts) := List.prefix_append _ _
    obtain ⟨s₁, s₂, s₃, s', hobeys⟩ := CompilerX86.obeys hs h hcode hmem
    obtain ⟨n, hruns⟩ := hobeys.runs
    have hwrites : (CompilerX86.codePrologue abi ++
        ((List.ofFn fun i => CompilerX86.writeCode (ts i)).take 32).flatten).length =
        (CompilerX86.codePrologue abi).length + Isa.offset (fun i => CompilerX86.writeCode (ts i)) 32 :=
      List.length_append
    have hreads : (CompilerX86.firstCode abi ts ++
        ((List.ofFn fun i => CompilerX86.readCode (ts i)).take 32).flatten).length =
        (CompilerX86.firstCode abi ts).length + Isa.offset (fun i => CompilerX86.readCode (ts i)) 32 :=
      List.length_append
    rw [← hwrites, ← hreads] at hobeys
    exact ⟨_, _, _, s₁, s₂, s₃, s', n, CompilerX86.hashwxCompileX86_eq ht,
      CompilerX86.compileRegFirst_eq ht abi le_rfl, CompilerX86.compileMemFirst_eq ht abi le_rfl,
      hobeys, hruns, X86.policed.runs_frame hruns⟩
  · have hcode : Isa.CodeAt (CompilerA64.functionCode ts ++ tail) 0 (CompilerA64.functionCode ts) :=
      List.prefix_append _ _
    obtain ⟨s₁, s₂, s₃, s', hobeys⟩ := CompilerA64.obeys hs h hcode hmem
    obtain ⟨n, hruns⟩ := hobeys.runs
    have hwrites : (CompilerA64.codePrologue ++
        ((List.ofFn fun i => CompilerA64.regCode (ts i)).take 32).flatten).length =
        CompilerA64.codePrologue.length + Isa.offset (fun i => CompilerA64.regCode (ts i)) 32 :=
      List.length_append
    have hreads : (CompilerA64.firstCode ts ++
        ((List.ofFn fun i => CompilerA64.memCode (ts i)).take 32).flatten).length =
        (CompilerA64.firstCode ts).length + Isa.offset (fun i => CompilerA64.memCode (ts i)) 32 :=
      List.length_append
    rw [← hwrites, ← hreads] at hobeys
    exact ⟨_, _, _, s₁, s₂, s₃, s', n, CompilerA64.hashwxCompileA64_eq ht,
      CompilerA64.compileRegFirst_eq ht le_rfl, CompilerA64.compileMemFirst_eq ht le_rfl,
      hobeys, hruns, A64.policed.runs_frame hruns⟩

theorem native_code_obeys_abi_sample :
    let list := hashwxProgramListGenerate ⟨0, 0⟩ (.replicate 32 (.replicate 10 ⟨.halt, 0, 0, 0⟩))
    (∀ abi, ∃ code n s', CompilerX86.hashwxCompileX86 abi list = some code ∧
      (X86.isa (CompilerX86.callAccess abi (CompilerX86.openState sampleRegs))).Runs (code ++ []) n
        ⟨.inside 0, CompilerX86.openState sampleRegs⟩
        ⟨.outside (load64 (CompilerX86.openState sampleRegs).mem 65536), s'⟩) ∧
    ∃ code n s', CompilerA64.hashwxCompileA64 list = some code ∧
      (A64.isa (CompilerA64.callAccess (CompilerA64.openState sampleRegs))).Runs (code ++ []) n
        ⟨.inside 0, CompilerA64.openState sampleRegs⟩ ⟨.outside 4096, s'⟩ := by
  intro list
  obtain ⟨u, -, hx86, ha64⟩ := native_code_obeys_abi ⟨0, 0⟩
    (.replicate 32 (.replicate 10 ⟨.halt, 0, 0, 0⟩)) (.replicate 256 0) [] sampleRegs
  constructor
  · intro abi
    obtain ⟨code, _, _, _, _, _, s', n, hcompile, _, _, _, hruns, _⟩ :=
      hx86 abi (CompilerX86.openState sampleRegs) (CompilerX86.openState_entry abi sampleRegs).call
    exact ⟨code, n, s', hcompile, hruns⟩
  · obtain ⟨code, _, _, _, _, _, s', n, hcompile, _, _, _, hruns, _⟩ :=
      ha64 (CompilerA64.openState sampleRegs) (CompilerA64.openState_entry sampleRegs).toCall
    exact ⟨code, n, s', hcompile, hruns⟩

end HashWX
