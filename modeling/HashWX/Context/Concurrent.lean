import HashWX.Context.History
import HashWX.Native.CallingConvention

/-!
# Hashing on several threads

`hashwx_exec` takes a constant context, and the code of a compiled context only writes its
array `r` and its stack. So calls on any number of threads, on one context or on several, may
take their machine instructions in any order.
-/

namespace HashWX

open ByteMemory CodeMachine Interleave

/-! ## One call -/

namespace CompilerX86

open X86

section Call

variable (abi : Abi) (s : State)

def callReads : List Word :=
  arrayWords abi s 10 ++ scratchWords abi s ++ savedWords abi s ++ [s.regs rsp]

def callWrites : List Word := arrayWords abi s 8 ++ scratchWords abi s ++ savedWords abi s

/-- Control is behind the call, with the stack pointer and the registers of the caller restored. -/
structure Returned (c : Config Core) : Prop where
  control : c.control = .outside (load64 s.mem (s.regs rsp))
  rsp : c.state.regs rsp = s.regs rsp + 8
  preserved : ∀ reg ∈ calleeSaved abi, c.state.regs reg = s.regs reg

variable {abi s}

theorem Entry.weaker {access : Access} {r : Regs} (h : Entry abi access r s) :
    (callAccess abi s).Weaker access where
  readable a ha := by
    have hmem : a ∈ callReads abi s := Access.readable_words.mp ha
    simp only [callReads, List.mem_append, List.mem_singleton, arrayWords, scratchWords, savedWords,
      mem_wordsFrom_iff] at hmem
    rcases hmem with ((⟨i, -, hi, rfl⟩ | ⟨k, -, hk, rfl⟩) | ⟨k, -, hk, rfl⟩) | rfl
    · exact h.regs_readable i (by omega)
    · exact h.frame_readable k (by omega)
    · exact h.frame_readable k (by omega)
    · rw [rsp_eq abi s]
      exact h.frame_readable _ le_rfl
  writable a ha := by
    have hmem : a ∈ callWrites abi s := Access.writable_words.mp ha
    simp only [callWrites, List.mem_append, arrayWords, scratchWords, savedWords,
      mem_wordsFrom_iff] at hmem
    rcases hmem with (⟨i, -, hi, rfl⟩ | ⟨k, -, hk, rfl⟩) | ⟨k, -, hk, rfl⟩
    · exact h.regs_writable i (by omega)
    · exact h.frame_writable k (by omega)
    · exact h.frame_writable k (by omega)

/-- Every access of a call is to one of its words. -/
theorem Call.entry {r : Regs} (h : Call abi r s) : Entry abi (callAccess abi s) r s where
  regs := h.regs
  apart := h.apart
  regs_readable i hi := by
    refine Access.readable_words.mpr (List.mem_append_left _ <| List.mem_append_left _ <|
      List.mem_append_left _ <| mem_wordsFrom _ (Nat.zero_le i) ?_)
    omega
  regs_writable i hi := by
    refine Access.writable_words.mpr (List.mem_append_left _ <| List.mem_append_left _ <|
      mem_wordsFrom _ (Nat.zero_le i) ?_)
    omega
  frame_readable k hk := by
    refine Access.readable_words.mpr ?_
    rcases Nat.lt_or_ge k 256 with hlt | hge
    · refine List.mem_append_left _ <| List.mem_append_left _ <| List.mem_append_right _ <|
        mem_wordsFrom _ (Nat.zero_le k) ?_
      omega
    · rcases Nat.lt_or_eq_of_le hk with hlt | rfl
      · exact List.mem_append_left _ <| List.mem_append_right _ <| mem_wordsFrom _ hge hlt
      · exact List.mem_append_right _ (List.mem_singleton.mpr (rsp_eq abi s).symm)
  frame_writable k hk := by
    refine Access.writable_words.mpr ?_
    rcases Nat.lt_or_ge k 256 with hlt | hge
    · refine List.mem_append_left _ <| List.mem_append_right _ <| mem_wordsFrom _ (Nat.zero_le k) ?_
      omega
    · exact List.mem_append_right _ <| mem_wordsFrom _ hge hk

/-- A thread that makes the call alone returns. -/
theorem Call.ends {r : Regs} (h : Call abi r s) {ts : Fin 32 → Layout} (hs : ∀ i, (ts i).Shuffled)
    {list : ProgramList} (ht : ∀ i : Fin 32, (ts i).Describes list[i]) {code : List Byte}
    (hcode : Isa.CodeAt code 0 (functionCode abi ts)) (mem : Scratchpad) : ∃ r' k q m,
      hashwxProgramListExecute list r mem = some r' ∧
      Ends ((isa (callAccess abi s)).thread split code) ⟨.inside 0, split.core s⟩ s.mem k q m ∧
      Returned abi s q ∧ ∀ i : Fin 10, load64 m (wordAddr (s.regs (argReg abi)) i) = r'[i] := by
  obtain ⟨r', hexecute, ⟨s', n, hruns, hregs⟩, -⟩ := returns_executed hs ht h.entry hcode mem
  obtain ⟨mem', -, hfilled⟩ := writeFirst_eq ht (constsOf r) (fileOf r) mem le_rfl
  have hmem (a : Fin 256) : mem'[a] = (writePhase ts (constsOf r) (fileOf r)).2 a :=
    hfilled.entry (Nat.zero_le _)
  obtain ⟨s₁, s₂, s₃, s'', hobeys⟩ := obeys hs h hcode hmem
  obtain ⟨m, hruns'⟩ := hobeys.runs
  obtain rfl := Isa.runs_outside_unique hruns hruns'
  obtain ⟨k, hends⟩ := Isa.thread_ends split hruns
  exact ⟨r', k, _, _, hexecute, hends, ⟨rfl, hobeys.rsp, hobeys.preserved⟩, hregs⟩

end Call

end CompilerX86

namespace CompilerA64

open A64

section Call

variable (s : State)

def callReads : List Word := arrayWords s 10 ++ scratchWords s

def callWrites : List Word := arrayWords s 8 ++ scratchWords s

/-- Control is behind the call, with the stack pointer and the registers of the caller restored. -/
structure Returned (c : Config Core) : Prop where
  control : c.control = .outside (s.x 30)
  sp : c.state.sp = s.sp
  preserved : ∀ reg : Reg, 18 ≤ reg.val → c.state.x reg = s.x reg

variable {s}

theorem Entry.weaker {access : Access} {r : Regs} (h : Entry access r s) :
    (callAccess s).Weaker access where
  readable a ha := by
    have hmem : a ∈ callReads s := Access.readable_words.mp ha
    simp only [callReads, List.mem_append, arrayWords, scratchWords, mem_wordsFrom_iff] at hmem
    rcases hmem with ⟨i, -, hi, rfl⟩ | ⟨k, -, hk, rfl⟩
    · exact h.regs_readable i (by omega)
    · exact h.frame_readable k (by omega)
  writable a ha := by
    have hmem : a ∈ callWrites s := Access.writable_words.mp ha
    simp only [callWrites, List.mem_append, arrayWords, scratchWords, mem_wordsFrom_iff] at hmem
    rcases hmem with ⟨i, -, hi, rfl⟩ | ⟨k, -, hk, rfl⟩
    · exact h.regs_writable i (by omega)
    · exact h.frame_writable k (by omega)

/-- Every access of a call is to one of its words. -/
theorem Call.entry {r : Regs} (h : Call r s) : Entry (callAccess s) r s where
  toCall := h
  regs_readable i hi := by
    refine Access.readable_words.mpr (List.mem_append_left _ <| mem_wordsFrom _ (Nat.zero_le i) ?_)
    omega
  regs_writable i hi := by
    refine Access.writable_words.mpr (List.mem_append_left _ <| mem_wordsFrom _ (Nat.zero_le i) ?_)
    omega
  frame_readable k hk := by
    refine Access.readable_words.mpr (List.mem_append_right _ <| mem_wordsFrom _ (Nat.zero_le k) ?_)
    omega
  frame_writable k hk := by
    refine Access.writable_words.mpr (List.mem_append_right _ <| mem_wordsFrom _ (Nat.zero_le k) ?_)
    omega

/-- A thread that makes the call alone returns. -/
theorem Call.ends {r : Regs} (h : Call r s) {ts : Fin 32 → Layout} (hs : ∀ i, (ts i).Shuffled)
    {list : ProgramList} (ht : ∀ i : Fin 32, (ts i).Describes list[i]) {code : List Byte}
    (hcode : Isa.CodeAt code 0 (functionCode ts)) (mem : Scratchpad) : ∃ r' k q m,
      hashwxProgramListExecute list r mem = some r' ∧
      Ends ((isa (callAccess s)).thread split code) ⟨.inside 0, split.core s⟩ s.mem k q m ∧
      Returned s q ∧ ∀ i : Fin 10, load64 m (wordAddr (s.x 0) i) = r'[i] := by
  obtain ⟨r', hexecute, ⟨s', n, hruns, hregs⟩, -⟩ := returns_executed hs ht h.entry hcode mem
  obtain ⟨mem', -, hfilled⟩ := writeFirst_eq ht (constsOf r) (fileOf r) mem le_rfl
  have hmem (a : Fin 256) : mem'[a] = (writePhase ts (constsOf r) (fileOf r)).2 a :=
    hfilled.entry (Nat.zero_le _)
  obtain ⟨s₁, s₂, s₃, s'', hobeys⟩ := obeys hs h hcode hmem
  obtain ⟨m, hruns'⟩ := hobeys.runs
  obtain rfl := Isa.runs_outside_unique hruns hruns'
  obtain ⟨k, hends⟩ := Isa.thread_ends split hruns
  exact ⟨r', k, _, _, hexecute, hends, ⟨rfl, hobeys.sp, hobeys.preserved⟩, hregs⟩

end Call

end CompilerA64

/-! ## Calls on several threads -/

namespace Native

open Siphash (Word)

def Core : Native → Type
  | .x86 _ => X86.Core
  | .a64 => A64.Core

def split : (native : Native) → Split native.State native.Core
  | .x86 _ => X86.split
  | .a64 => A64.split

def thread (access : Access) (code : List Byte) : (native : Native) → Step (Config native.Core) (Bytes 64)
  | .x86 _ => (X86.isa access).thread X86.split code
  | .a64 => (A64.isa access).thread A64.split code

/-- The address of `r`. -/
def array : (native : Native) → native.State → Word
  | .x86 abi, s => s.regs (CompilerX86.argReg abi)
  | .a64, s => s.x 0

def callReads : (native : Native) → native.State → List Word
  | .x86 abi, s => CompilerX86.callReads abi s
  | .a64, s => CompilerA64.callReads s

def callWrites : (native : Native) → native.State → List Word
  | .x86 abi, s => CompilerX86.callWrites abi s
  | .a64, s => CompilerA64.callWrites s

def Returned : (native : Native) → native.State → Config native.Core → Prop
  | .x86 abi => CompilerX86.Returned abi
  | .a64 => CompilerA64.Returned

/-- The threads call code in memory `m`, with the arrays `r`. No thread writes a word that another
one uses: each has its own stack, and its array is on it. -/
structure Team (native : Native) {κ : Type*} (access : κ → Access) (r : κ → Regs) (core : κ → native.Core)
    (m : Bytes 64) : Prop where
  entry : ∀ t, native.Entry (access t) (r t) (native.split.join (core t) m)
  apart : ∀ t u, t ≠ u → ∀ x ∈ native.callReads (native.split.join (core t) m),
    ∀ y ∈ native.callWrites (native.split.join (core u) m), Apart 8 x y

section Threads

variable {native : Native} {code : List Byte}

/-- The accesses of one call. -/
def callAccess (s : native.State) : Access := .words (native.callReads s) (native.callWrites s)

theorem thread_mono {access access' : Access} (hle : access.Weaker access') {c : Config native.Core}
    {m : Bytes 64} {s : Config native.Core × Bytes 64} (h : native.thread access code c m = some s) :
    native.thread access' code c m = some s := by
  cases native with
  | x86 abi => exact X86.policed.thread_mono hle h
  | a64 => exact A64.policed.thread_mono hle h

theorem Entry.weaker {access : Access} {r : Regs} {s : native.State} (h : native.Entry access r s) :
    (callAccess s).Weaker access := by
  cases native with
  | x86 abi => exact CompilerX86.Entry.weaker h
  | a64 => exact CompilerA64.Entry.weaker h

theorem mem_callReads (s : native.State) {i : Nat} (hi : i < 10) :
    wordAddr (native.array s) i ∈ native.callReads s := by
  have hword (base : Word) : wordAddr base i ∈ wordsFrom base 0 10 :=
    mem_wordsFrom _ (Nat.zero_le i) (by omega)
  cases native with
  | x86 abi => exact List.mem_append_left _ <| List.mem_append_left _ <| List.mem_append_left _ (hword _)
  | a64 => exact List.mem_append_left _ (hword _)

/-- A thread that calls the code of a list alone returns what the interpreter computes. -/
theorem Entry.ends {access : Access} {r : Regs} {s : native.State} (h : native.Entry access r s)
    {key : Siphash.SiphashKey} {memory : ProgramList} {compiled : List Byte}
    (hcompile : native.compile (hashwxProgramListGenerate key memory) = some compiled)
    (hcode : compiled <+: code) (mem : Scratchpad) : ∃ r' k q m,
      hashwxProgramListExecute (hashwxProgramListGenerate key memory) r mem = some r' ∧
      Ends (native.thread (callAccess s) code) ⟨.inside 0, native.split.core s⟩ (native.split.mem s) k q m ∧
      native.Returned s q ∧ (∃ target, q.control = .outside target) ∧
      ∀ i : Fin 10, load64 m (wordAddr (native.array s) i) = r'[i] := by
  have hs := generatedLayouts_shuffled key
  have ht := generatedLayouts_describes key memory
  cases native with
  | x86 abi =>
    obtain rfl := Option.some.inj (hcompile.symm.trans (CompilerX86.hashwxCompileX86_eq ht))
    obtain ⟨r', k, q, m, hexecute, hends, hreturned, hregs⟩ :=
      (CompilerX86.Entry.call h).ends hs ht hcode mem
    exact ⟨r', k, q, m, hexecute, hends, hreturned, ⟨_, hreturned.control⟩, hregs⟩
  | a64 =>
    obtain rfl := Option.some.inj (hcompile.symm.trans (CompilerA64.hashwxCompileA64_eq ht))
    obtain ⟨r', k, q, m, hexecute, hends, hreturned, hregs⟩ :=
      (CompilerA64.Entry.toCall h).ends hs ht hcode mem
    exact ⟨r', k, q, m, hexecute, hends, hreturned, ⟨_, hreturned.control⟩, hregs⟩

theorem thread_halted {access : Access} {c : Config native.Core} (h : ∃ target, c.control = .outside target)
    (m : Bytes 64) : native.thread access code c m = none := by
  obtain ⟨_, core⟩ := c
  obtain ⟨target, rfl⟩ := h
  cases native <;> rfl

/-- The threads of a team do not see each other. -/
theorem separated {κ : Type*} {s : κ → native.State} (codes : κ → List Byte)
    (hapart : ∀ t u, t ≠ u → ∀ x ∈ native.callReads (s t), ∀ y ∈ native.callWrites (s u), Apart 8 x y) :
    Separated (fun t => native.thread (callAccess (s t)) (codes t))
      fun t => SameWords (native.callReads (s t)) := by
  cases native with
  | x86 abi => exact Isa.separated (fun t => X86.policed.footprint (List.Subset.refl _)) hapart
  | a64 => exact Isa.separated (fun t => A64.policed.footprint (List.Subset.refl _)) hapart

end Threads

end Native

open Siphash (Word) in
/-- **Concurrent calls of `hashwx_exec` do not interfere.** Any number of threads hash inputs with
compiled contexts, the same or different ones, and take their instructions in any order. A schedule
can be followed exactly as long as it gives no thread more steps than it takes alone, so no thread
is ever blocked or faults; and a thread that has had its steps has returned to its caller, with
registers from which it computes the hash of its input. -/
theorem concurrent_exec (native : Native) {κ : Type*} [DecidableEq κ] {ctx : κ → Compiled}
    {seed : κ → Seed} {input : κ → Word} {access : κ → Access} {core : κ → native.Core} {m : Bytes 64}
    (hctx : ∀ t, (ctx t).Serves native (seed t))
    (h : native.Team access (fun t => initRegs (ctx t).key (input t)) core m) :
    ∃ (code : κ → List Byte) (k : κ → Nat), (∀ t, (ctx t).func = some (code t)) ∧ ∀ w : List κ,
      let threads := fun t => native.thread (access t) (code t)
      let start := fun t => ⟨.inside 0, core t⟩
      ((∃ s, run threads w start m = some s) ↔ ∀ t, w.count t ≤ k t) ∧
      ∀ cs m', run threads w start m = some (cs, m') → ∀ t, w.count t = k t →
        native.Returned (native.split.join (core t) m) (cs t) ∧
        ∃ r : Regs, (∀ i : Fin 10,
          load64 m' (wordAddr (native.array (native.split.join (core t) m)) i) = r[i]) ∧
          finalize r = hashOf (seed t) (input t) := by
  let s (t : κ) : native.State := native.split.join (core t) m
  have hcall (t : κ) : ∃ r' k q m', finalize r' = hashOf (seed t) (input t) ∧
      Ends (native.thread (Native.callAccess (s t)) (ctx t).code.bytes.toList) ⟨.inside 0, core t⟩ m k q m' ∧
      native.Returned (s t) q ∧ (∃ target, q.control = .outside target) ∧
      ∀ i : Fin 10, load64 m' (wordAddr (native.array (s t)) i) = r'[i] := by
    obtain ⟨⟨memory, compiled, hcompile, hcode⟩, hkey⟩ := (hctx t).toHolds
    obtain ⟨r', k, q, m', hexecute, hends, hreturned, htarget, hregs⟩ :=
      (h.entry t).ends hcompile hcode (.replicate 256 0)
    rw [native.split.core_join, native.split.mem_join] at hends
    obtain ⟨r'', hexecute', hvalue⟩ := executed_hashOf (seed t) memory (input t) (.replicate 256 0)
    rw [hkey, hexecute'] at hexecute
    obtain rfl := Option.some.inj hexecute
    exact ⟨r'', k, q, m', hvalue, hends, hreturned, htarget, hregs⟩
  choose r' k q m' hvalue hends hreturned htarget hregs using hcall
  have hsep := Native.separated (s := s) (fun t => (ctx t).code.bytes.toList) h.apart
  have hweaker (t : κ) := (h.entry t).weaker
  let threads (t : κ) := native.thread (access t) (ctx t).code.bytes.toList
  have hsame (w : List κ) : run threads w (fun t => ⟨.inside 0, core t⟩) m = _ :=
    hsep.run_eq hends (fun t _ _ _ hstep => Native.thread_mono (hweaker t) hstep)
      (fun t n => Native.thread_halted (htarget t) n) w
  refine ⟨fun t => (ctx t).code.bytes.toList, k, fun t => if_pos (hctx t).rules, fun w => ?_⟩
  dsimp only
  rw [hsame w]
  obtain ⟨hfollow, hfinal⟩ := hsep.run_iff hends w
  refine ⟨hfollow, fun cs m'' hrun t ht => ?_⟩
  obtain ⟨hq, hagree⟩ := hfinal cs m'' hrun t ht
  refine ⟨hq ▸ hreturned t, r' t, fun i => ?_, hvalue t⟩
  rw [← hregs t i]
  exact (hagree.load64 (Native.mem_callReads (s t) i.isLt)).symm

/-! ## Two threads on one context -/

/-- The arrays and the stacks are a megabyte apart. -/
def pairArray (t : Bool) : Nat := if t then 0x101000 else 0x1000

def pairStack (t : Bool) : Nat := if t then 0x110000 else 0x10000

def pairCore (t : Bool) : X86.Core :=
  ⟨fun reg => BitVec.ofNat 64 (if reg = X86.rsp then pairStack t else pairArray t), none⟩

def pairMem (r : Bool → Regs) : Bytes 64 :=
  storeArray (BitVec.ofNat 64 (pairArray true)) (fun i : Fin 10 => (r true)[i]) <|
    storeArray (BitVec.ofNat 64 (pairArray false)) (fun i : Fin 10 => (r false)[i]) fun _ => 0

section Pair

variable {t : Bool} {m : Bytes 64}

theorem pairCore_array :
    (X86.split.join (pairCore t) m).regs (CompilerX86.argReg .sysv) = BitVec.ofNat 64 (pairArray t) := rfl

theorem pairCore_frame : CompilerX86.frameBase .sysv (X86.split.join (pairCore t) m) =
    BitVec.ofNat 64 (pairStack t - 2096) := by
  have hframe : CompilerX86.frameBase .sysv (X86.split.join (pairCore t) m) =
      BitVec.ofNat 64 (pairStack t) - BitVec.ofNat 64 2096 := rfl
  rw [hframe]
  cases t <;> decide

theorem pairCore_bounds : pairArray t + 0xf000 = pairStack t ∧ pairStack t ≤ 0x110000 := by
  cases t <;> decide

theorem toNat_wordAddr {b i : Nat} (hb : b + 8 * i < 2 ^ 64) :
    (wordAddr (BitVec.ofNat 64 b) i).toNat = b + 8 * i := by
  rw [wordAddr, ← BitVec.ofNat_add, BitVec.toNat_ofNat, Nat.mod_eq_of_lt hb]

theorem apart_of_toNat {x y : BitVec 64} (hx : x.toNat < 2 ^ 63) (hy : y.toNat < 2 ^ 63)
    (h : x.toNat + 8 ≤ y.toNat ∨ y.toNat + 8 ≤ x.toNat) : Apart 8 x y := by
  unfold Apart
  bv_omega

theorem pairCore_word {x : BitVec 64}
    (hx : x ∈ CompilerX86.callReads .sysv (X86.split.join (pairCore t) m)) :
    pairArray t ≤ x.toNat ∧ x.toNat ≤ pairStack t := by
  have hbounds := @pairCore_bounds t
  have hrsp : (X86.split.join (pairCore t) m).regs X86.rsp = BitVec.ofNat 64 (pairStack t) := rfl
  have hsaved : (CompilerX86.savedRegs .sysv).length = 6 := rfl
  simp only [CompilerX86.callReads, List.mem_append, List.mem_singleton, CompilerX86.arrayWords,
    CompilerX86.scratchWords, CompilerX86.savedWords, mem_wordsFrom_iff, pairCore_array, pairCore_frame,
    hrsp, hsaved] at hx
  rcases hx with ((⟨i, -, hi, rfl⟩ | ⟨i, -, hi, rfl⟩) | ⟨i, -, hi, rfl⟩) | rfl
  · rw [toNat_wordAddr (by omega)]
    omega
  · rw [toNat_wordAddr (by omega)]
    omega
  · rw [toNat_wordAddr (by omega)]
    omega
  · rw [BitVec.toNat_ofNat, Nat.mod_eq_of_lt (by omega)]
    omega

end Pair

theorem callWrites_subset (abi : CompilerX86.Abi) (s : X86.State) :
    CompilerX86.callWrites abi s ⊆ CompilerX86.callReads abi s := by
  have harray : CompilerX86.arrayWords abi s 8 ⊆ CompilerX86.arrayWords abi s 10 := by
    intro x hx
    obtain ⟨i, hlo, hi, rfl⟩ := mem_wordsFrom_iff.mp hx
    exact mem_wordsFrom _ hlo (by omega)
  intro x hx
  rcases List.mem_append.mp hx with hx | hx
  · rcases List.mem_append.mp hx with hx | hx
    · exact List.mem_append_left _ <| List.mem_append_left _ <| List.mem_append_left _ (harray hx)
    · exact List.mem_append_left _ <| List.mem_append_left _ <| List.mem_append_right _ hx
  · exact List.mem_append_left _ <| List.mem_append_right _ hx

theorem pair_entry (r : Bool → Regs) (t : Bool) : CompilerX86.Entry .sysv ⟨fun _ => true, fun _ => true⟩
    (r t) (X86.split.join (pairCore t) (pairMem r)) where
  regs i := by
    rw [pairCore_array]
    cases t with
    | true => exact load64_storeArray _ (fun i : Fin 10 => (r true)[i]) _ (by decide) i
    | false =>
      refine (load64_storeArray_of_apart _ _ fun k hk => ?_).trans
        (load64_storeArray _ (fun i : Fin 10 => (r false)[i]) _ (by decide) i)
      have hfalse : pairArray false = 0x1000 := rfl
      have htrue : pairArray true = 0x101000 := rfl
      have hi := i.isLt
      have hx : (wordAddr (BitVec.ofNat 64 (pairArray false)) i).toNat = pairArray false + 8 * i :=
        toNat_wordAddr (by omega)
      have hy : (wordAddr (BitVec.ofNat 64 (pairArray true)) k).toNat = pairArray true + 8 * k :=
        toNat_wordAddr (by omega)
      exact apart_of_toNat (by omega) (by omega) (by omega)
  regs_readable _ _ := rfl
  regs_writable _ _ := rfl
  frame_readable _ _ := rfl
  frame_writable _ _ := rfl
  apart i hi k hk := by
    have hbounds := @pairCore_bounds t
    have hsaved : (CompilerX86.savedRegs .sysv).length = 6 := rfl
    rw [hsaved] at hk
    rw [pairCore_array, pairCore_frame]
    have hx : (wordAddr (BitVec.ofNat 64 (pairArray t)) i).toNat = pairArray t + 8 * i :=
      toNat_wordAddr (by omega)
    have hy : (wordAddr (BitVec.ofNat 64 (pairStack t - 2096)) k).toNat = pairStack t - 2096 + 8 * k :=
      toNat_wordAddr (by omega)
    exact apart_of_toNat (by omega) (by omega) (by omega)

theorem pair_team (r : Bool → Regs) :
    (Native.x86 .sysv).Team (fun _ => ⟨fun _ => true, fun _ => true⟩) r pairCore (pairMem r) where
  entry t := pair_entry r t
  apart t u htu x hx y hy := by
    have hstack : pairStack t + 8 ≤ pairArray u ∨ pairStack u + 8 ≤ pairArray t := by
      cases t <;> cases u <;> first | exact absurd rfl htu | decide
    have ht := @pairCore_bounds t
    have hu := @pairCore_bounds u
    obtain ⟨hlo, hhi⟩ := pairCore_word hx
    obtain ⟨hlo', hhi'⟩ := pairCore_word (callWrites_subset _ _ hy)
    exact apart_of_toNat (by omega) (by omega) (by omega)

theorem concurrent_exec_pair : ∃ (ctx : Compiled) (code : Bool → List Byte) (k : Bool → Nat),
    (Compiled.alloc (.replicate 8192 0) ⟨0, 0⟩).make (.x86 .sysv) (.replicate 32 0)
      (.replicate 32 (.replicate 10 ⟨.halt, 0, 0, 0⟩)) true true = some ctx ∧
    (∀ t, ctx.func = some (code t)) ∧ ∀ w : List Bool, (∀ t, w.count t = k t) → ∃ cs m', ∃ r : Bool → Regs,
      run (fun t => (Native.x86 .sysv).thread ⟨fun _ => true, fun _ => true⟩ (code t)) w
        (fun t => ⟨.inside 0, pairCore t⟩) (pairMem fun t => initRegs ctx.key t.toNat) = some (cs, m') ∧
      ∀ t, (∀ i : Fin 10, load64 m' (wordAddr (BitVec.ofNat 64 (pairArray t)) i) = (r t)[i]) ∧
        finalize (r t) = hashOf (.replicate 32 0) t.toNat := by
  have hgranted : MakeEnv.Granted ⟨.replicate 32 (.replicate 10 ⟨.halt, 0, 0, 0⟩), true, true⟩ := ⟨rfl, rfl⟩
  obtain ⟨ctx, hmake, hserves⟩ := (compiledContext_live (.x86 .sysv)).make
    (Compiled.alloc (.replicate 8192 0) ⟨0, 0⟩) (.replicate 32 0) hgranted
  have hserves' (_ : Bool) := hserves
  obtain ⟨code, k, hcode, hschedules⟩ := concurrent_exec (.x86 .sysv) hserves'
    (pair_team fun t => initRegs ctx.key t.toNat)
  refine ⟨ctx, code, k, hmake, hcode, fun w hw => ?_⟩
  obtain ⟨hfollow, hfinal⟩ := hschedules w
  obtain ⟨⟨cs, m'⟩, hrun⟩ := hfollow.mpr fun t => (hw t).le
  choose r hr using fun t => (hfinal cs m' hrun t (hw t)).2
  exact ⟨cs, m', r, hrun, hr⟩

end HashWX
