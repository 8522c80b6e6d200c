import HashWX.Context.Compiled
import HashWX.Lib.Session

/-!
# Results do not depend on history

A context is a device that holds the last seed. `hashwx_make` meets what the memory of the
program list holds and the outcomes of the protection calls, `hashwx_exec` the garbage in
the stack array of the interpreter or the machine of its caller.
-/

namespace HashWX

open ByteMemory CodeMachine
open Siphash (SiphashKey Word)

/-- The hash of an input: the meaning of the layouts of the first key, between the register setup
with the second key and the finalisation. -/
def hashOf (seed : Seed) (input : Word) : Word :=
  let r := initRegs (seedKeys seed).2 input
  finalize (regs (executeLayouts (generatedLayouts (seedKeys seed).1) (constsOf r) (fileOf r)) (constsOf r))

/-- What the interpreter leaves in the registers, whatever the list and the scratchpad have held. -/
theorem executed_hashOf (seed : Seed) (memory : ProgramList) (input : Word) (mem : Scratchpad) :
    ∃ r, hashwxProgramListExecute (hashwxProgramListGenerate (seedKeys seed).1 memory)
      (initRegs (seedKeys seed).2 input) mem = some r ∧ finalize r = hashOf seed input := by
  have hexecute := hashwxProgramListExecute_eq (generatedLayouts_describes (seedKeys seed).1 memory)
    (constsOf (initRegs (seedKeys seed).2 input)) (fileOf (initRegs (seedKeys seed).2 input)) mem
  rw [regs_eta] at hexecute
  exact ⟨_, hexecute, rfl⟩

/-! ## Interpreted contexts -/

structure Interpreted where
  programList : ProgramList
  key : SiphashKey

/-- `hashwx_make`. The list is generated in its place. -/
def Interpreted.make (ctx : Interpreted) (seed : Seed) : Interpreted :=
  ⟨hashwxProgramListGenerate (seedKeys seed).1 ctx.programList, (seedKeys seed).2⟩

/-- `hashwx_exec`; `mem` is what the stack array of the interpreter holds. -/
def Interpreted.exec (ctx : Interpreted) (input : Word) (mem : Scratchpad) : Option Word :=
  hashwxExecInterpreted ctx.programList ctx.key input mem

def interpretedContext : Session.Device Interpreted Seed Unit Word Scratchpad Word where
  make ctx seed _ ctx' := ctx' = ctx.make seed
  query ctx input mem value := ctx.exec input mem = some value

/-- The list is one that the seed generates. -/
structure Interpreted.Holds (ctx : Interpreted) (seed : Seed) : Prop where
  programList : ∃ memory, ctx.programList = hashwxProgramListGenerate (seedKeys seed).1 memory
  key : ctx.key = (seedKeys seed).2

theorem Interpreted.programList_make (ctx : Interpreted) (seed : Seed) : (ctx.make seed).programList =
    hashwxProgramListGenerate (seedKeys seed).1 ctx.programList := by
  rw [Interpreted.make]

theorem Interpreted.holds_make (ctx : Interpreted) (seed : Seed) : (ctx.make seed).Holds seed where
  programList := Exists.intro ctx.programList (ctx.programList_make seed)
  key := by rw [Interpreted.make]

theorem Interpreted.exec_eq {ctx : Interpreted} {seed : Seed} (h : ctx.Holds seed) (input : Word)
    (mem : Scratchpad) : ctx.exec input mem = some (hashOf seed input) := by
  obtain ⟨⟨memory, hlist⟩, hkey⟩ := h
  obtain ⟨r, hexecute, hvalue⟩ := executed_hashOf seed memory input mem
  rw [Interpreted.exec, hashwxExecInterpreted, hlist, hkey, hexecute, ← hvalue]
  rfl

/-- The first hash of `tests.c`. -/
example :
    let ctx : Interpreted := ⟨.replicate 32 (.replicate 10 ⟨.halt, 0, 0, 0⟩), ⟨0, 0⟩⟩
    let seed1 : Seed :=
      Vector.ofFn fun k => ("This is a test seed for hashwx".toList.map fun c => BitVec.ofNat 8 c.toNat).getD k 0
    (ctx.make seed1).exec 0 (.replicate 256 0) = some 0x06b638075f29d804 := by
  decide +kernel

theorem interpretedContext_correct : Session.Correct interpretedContext Interpreted.Holds hashOf where
  make := by
    rintro ctx seed - _ rfl
    exact ctx.holds_make seed
  query := by
    intro ctx seed input mem value h hexec
    exact Option.some.inj (hexec.symm.trans (Interpreted.exec_eq h input mem))

theorem interpretedContext_live : Session.Live interpretedContext Interpreted.Holds fun _ => True where
  make ctx seed _ _ := ⟨ctx.make seed, rfl, ctx.holds_make seed⟩
  query input mem h := ⟨_, Interpreted.exec_eq h input mem⟩

/-! ## The machine of the caller -/

def Native.State : Native → Type
  | .x86 _ => X86.State
  | .a64 => A64.State

/-- A call of the code with the array `r`. -/
def Native.Entry (access : Access) (r : Regs) : (native : Native) → native.State → Prop
  | .x86 abi => CompilerX86.Entry abi access r
  | .a64 => CompilerA64.Entry access r

/-- The code returns to its caller, with `r'` in the place of the array. -/
def Native.Returns (access : Access) (code : List Byte) (r' : Regs) : (native : Native) → native.State → Prop
  | .x86 abi => fun s => CompilerX86.Returns abi access code s r'
  | .a64 => fun s => CompilerA64.Returns access code s r'

/-- The machine at the calls of `ctx->func`, for every array: what may be accessed, and the
registers and all of the memory. -/
structure Native.Caller (native : Native) where
  access : Access
  call : Regs → native.State
  entry : ∀ r, native.Entry access r (call r)

/-- There are such callers: all of memory may be accessed, and the array is at 4096. -/
def Native.openCaller : (native : Native) → native.Caller
  | .x86 abi => ⟨⟨fun _ => true, fun _ => true⟩, CompilerX86.openState, CompilerX86.openState_entry abi⟩
  | .a64 => ⟨⟨fun _ => true, fun _ => true⟩, CompilerA64.openState, CompilerA64.openState_entry⟩

instance (native : Native) : Inhabited native.Caller := ⟨native.openCaller⟩

section Machine

variable {native : Native} {access : Access} {code : List Byte} {s : native.State}

theorem Native.returns_unique {r r' : Regs} (h : native.Returns access code r s)
    (h' : native.Returns access code r' s) : r = r' := by
  apply Vector.ext
  intro i hi
  cases native with
  | x86 abi =>
    obtain ⟨s₁, n, hruns, hregs⟩ := h
    obtain ⟨s₂, m, hruns', hregs'⟩ := h'
    obtain rfl := Isa.runs_outside_unique hruns hruns'
    exact (hregs ⟨i, hi⟩).symm.trans (hregs' ⟨i, hi⟩)
  | a64 =>
    obtain ⟨s₁, n, hruns, hregs⟩ := h
    obtain ⟨s₂, m, hruns', hregs'⟩ := h'
    obtain rfl := Isa.runs_outside_unique hruns hruns'
    exact (hregs ⟨i, hi⟩).symm.trans (hregs' ⟨i, hi⟩)

/-- Code with the compiled list at its start does what the interpreter does. -/
theorem Native.returns_executed {key : SiphashKey} {memory : ProgramList} {compiled : List Byte}
    (hcompile : native.compile (hashwxProgramListGenerate key memory) = some compiled)
    (hcode : compiled <+: code) {r : Regs} (h : native.Entry access r s) (mem : Scratchpad) :
    ∃ r', hashwxProgramListExecute (hashwxProgramListGenerate key memory) r mem = some r' ∧
      native.Returns access code r' s := by
  have hs := generatedLayouts_shuffled key
  have ht := generatedLayouts_describes key memory
  cases native with
  | x86 abi =>
    obtain rfl := Option.some.inj (hcompile.symm.trans (CompilerX86.hashwxCompileX86_eq ht))
    obtain ⟨r', hexecute, hreturns, -⟩ := CompilerX86.returns_executed hs ht h hcode mem
    exact ⟨r', hexecute, hreturns⟩
  | a64 =>
    obtain rfl := Option.some.inj (hcompile.symm.trans (CompilerA64.hashwxCompileA64_eq ht))
    obtain ⟨r', hexecute, hreturns, -⟩ := CompilerA64.returns_executed hs ht h hcode mem
    exact ⟨r', hexecute, hreturns⟩

end Machine

/-! ## Compiled contexts -/

/-- What `hashwx_make` meets: the memory of its program list, and whether the two protection calls
succeed. -/
structure MakeEnv where
  memory : ProgramList
  rw : Bool
  rx : Bool

structure MakeEnv.Granted (env : MakeEnv) : Prop where
  rw : env.rw = true
  rx : env.rx = true

/-- `hashwx_exec`. -/
def Compiled.Exec (native : Native) (ctx : Compiled) (input : Word) (caller : native.Caller)
    (value : Word) : Prop :=
  ∃ code r, ctx.func = some code ∧
    native.Returns caller.access code r (caller.call (initRegs ctx.key input)) ∧ value = finalize r

def compiledContext (native : Native) :
    Session.Device Compiled Seed MakeEnv Word native.Caller Word where
  make ctx seed env ctx' := ctx.make native seed env.memory env.rw env.rx = some ctx'
  query := Compiled.Exec native

/-- The code of the seed stands at the start of the buffer. -/
structure Compiled.Holds (native : Native) (ctx : Compiled) (seed : Seed) : Prop where
  code : ∃ memory code, native.compile (hashwxProgramListGenerate (seedKeys seed).1 memory) = some code ∧
    code <+: ctx.code.bytes.toList
  key : ctx.key = (seedKeys seed).2

structure Compiled.Serves (native : Native) (ctx : Compiled) (seed : Seed) : Prop
    extends Compiled.Holds native ctx seed where
  rules : ctx.code.rules = .executeRead

section Compiled

variable (native : Native) {ctx : Compiled} {seed : Seed}

theorem Compiled.holds_make {env : MakeEnv} {ctx' : Compiled}
    (h : ctx.make native seed env.memory env.rw env.rx = some ctx') : ctx'.Holds native seed := by
  have hwritable : (hashwxVmRw env.rw ctx.code).rules = .readWrite := by
    by_contra hne
    rw [Compiled.make_none native seed env.memory env.rx hne] at h
    cases h
  obtain ⟨code, bytes, hcompile, hmake, hbytes⟩ :=
    Compiled.make_eq native seed env.memory env.rx hwritable
  obtain rfl := Option.some.inj (hmake.symm.trans h)
  refine ⟨⟨env.memory, code, hcompile, ?_⟩, rfl⟩
  rw [bytes_hashwxVmRx, hbytes]
  exact List.prefix_append _ _

/-- A call of the code leaves registers with the hash of the seed, from wherever it is called. -/
theorem Compiled.returns_hashOf (h : ctx.Holds native seed) (input : Word) (caller : native.Caller) :
    ∃ r, native.Returns caller.access ctx.code.bytes.toList r (caller.call (initRegs ctx.key input)) ∧
      finalize r = hashOf seed input := by
  obtain ⟨⟨memory, code, hcompile, hcode⟩, hkey⟩ := h
  obtain ⟨r, hexecute, hvalue⟩ := executed_hashOf seed memory input (.replicate 256 0)
  rw [hkey]
  obtain ⟨r', hexecute', hreturns⟩ := Native.returns_executed hcompile hcode
    (caller.entry (initRegs (seedKeys seed).2 input)) (.replicate 256 0)
  obtain rfl := Option.some.inj (hexecute.symm.trans hexecute')
  exact ⟨r, hreturns, hvalue⟩

theorem compiledContext_correct : Session.Correct (compiledContext native) (Compiled.Holds native) hashOf where
  make := Compiled.holds_make native
  query := by
    rintro ctx seed input caller value h ⟨code, r, hfunc, hreturns, rfl⟩
    obtain ⟨-, hfunc⟩ := Option.ite_none_right_eq_some.mp hfunc
    obtain rfl := Option.some.inj hfunc
    obtain ⟨r', hreturns', hvalue⟩ := Compiled.returns_hashOf native h input caller
    rw [Native.returns_unique hreturns hreturns', hvalue]

theorem compiledContext_live :
    Session.Live (compiledContext native) (Compiled.Serves native) MakeEnv.Granted where
  make := by
    rintro ctx seed ⟨memory, rw, rx⟩ ⟨rfl, rfl⟩
    have hwritable : (hashwxVmRw true ctx.code).rules = .readWrite := rfl
    obtain ⟨code, bytes, -, hmake, -⟩ := Compiled.make_eq native seed memory true hwritable
    have hholds : Compiled.Holds native _ seed := @Compiled.holds_make native ctx seed ⟨memory, true, true⟩ _ hmake
    have hrules := rules_hashwxVmRx true bytes
    exact ⟨_, hmake, hholds, hrules⟩
  query := by
    intro ctx seed input caller h
    obtain ⟨r, hreturns, -⟩ := Compiled.returns_hashOf native h.toHolds input caller
    exact ⟨finalize r, _, r, if_pos h.rules, hreturns, rfl⟩

end Compiled

/-- **Results are independent of history and of uninitialised memory.** In every sequence of calls on
one context that starts with `hashwx_make`, each `hashwx_exec` returns what any other context of
that type returns after a single `hashwx_make` with the last seed: interpreted contexts always, and
compiled ones if the protection calls of every `hashwx_make` succeed. Where one fails, a call may
fault, but no result differs. -/
theorem results_history_free :
    Session.HistoryFree interpretedContext (fun _ => True) ∧
      ∀ native, Session.HistoryFree (compiledContext native) MakeEnv.Granted := by
  constructor
  · exact Session.historyFree interpretedContext_correct interpretedContext_live
  · exact fun native => Session.historyFree (compiledContext_correct native) (compiledContext_live native)

end HashWX
