import HashWX.Context.History
import HashWX.Exec.Spec
import HashWX.Program.Spec
import HashWX.Siphash.Spec
import HashWX.Wasm.Correct
import Mathlib.Algebra.BigOperators.Fin

/-!
# From the seed and the nonce to the hash

The whole algorithm of the specification, with the generator of appendix A as a parameter:
the keys of section 2.1, the programs of section 2.3, and appendix D. With the words of
every generator block in the opposite order, it is what all kinds of contexts return, in any
session: interpreted ones, compiled ones on a native target, and those of the WebAssembly
build.
-/

namespace HashWX

open Siphash (SiphashKey Word)

namespace Spec

open ByteMemory (Bytes)

/-! ## The algorithm of the document -/

/-- 2.1, in little-endian format. -/
def keyWord (seed : Seed) (w : Fin 4) : Word :=
  BitVec.ofNat 64 (∑ i : Fin 8, seed[Fin.ofNat 32 (8 * w + i)].toNat * 256 ^ i.val)

/-- What no section specifies: the operands of BRANCH and HALT, and with what the Branch flag and
the memory start. -/
structure Unspecified where
  operands : Fin 32 → Fin 10 → Nat × Nat × Nat
  bf : Bool
  memory : Bytes 11

def Entry.instruction (e : Entry) (operands : Nat × Nat × Nat) : Instruction :=
  let (dst, src, imm) := e.args.getD operands
  { opcode := e.opcode, src := src, dst := dst, imm := imm }

/-- Sections 2.1 and 2.3; the generator is a function of the two key words, the salt and the
position of the output. -/
def programs (rng : Word → Word → Word → Nat → Word) (u : Unspecified) (seed : Seed) : ProgramList :=
  Vector.ofFn fun i => Vector.ofFn fun index =>
    (program (fun j => rng (keyWord seed 0) (keyWord seed 1) (-1) (16 * i + j)) index).instruction
      (u.operands i index)

/-- Section 3. -/
def hash (rng : Word → Word → Word → Nat → Word) (u : Unspecified) (seed : Seed) (nonce : Word) :
    Option Word :=
  hashwxExecute (programs rng u seed)
    (.init (fun i => rng (keyWord seed 2) (keyWord seed 3) nonce i) u.bf u.memory)

/-- A.3 with the words of every block in the order `v3`, `v2`, `v1`, `v0`. -/
def rngOutputDown (k0 k1 salt : Word) (n : Nat) : Word :=
  (rngBlock k0 k1 salt (n / 4)).word (Fin.ofNat 4 n).rev

theorem rngOutputDown_eq (key : SiphashKey) (salt : Word) :
    rngOutputDown key.k0 key.k1 salt =
      OutputStream.output Siphash.hashwxRngNext (Siphash.hashwxRngInit key salt) := by
  funext n
  rw [rngOutputDown, rngBlock_eq, Siphash.output_init]

/-! ## The keys -/

theorem toNat_append_byte {n : Nat} (x : BitVec n) (b : BitVec 8) :
    (x ++ b).toNat = x.toNat * 256 + b.toNat := by
  rw [BitVec.toNat_append, ← Nat.shiftLeft_add_eq_or_of_lt b.isLt, Nat.shiftLeft_eq]

/-- Eight bytes that follow each other, the last one most significant. -/
theorem littleEndian_eq (b : Fin 8 → BitVec 8) :
    (b 7 ++ b 6 ++ b 5 ++ b 4 ++ b 3 ++ b 2 ++ b 1 ++ b 0 : Word) =
      BitVec.ofNat 64 (∑ i : Fin 8, (b i).toNat * 256 ^ i.val) := by
  have hvalue : (b 7 ++ b 6 ++ b 5 ++ b 4 ++ b 3 ++ b 2 ++ b 1 ++ b 0 : Word).toNat =
      ∑ i : Fin 8, (b i).toNat * 256 ^ i.val := by
    simp only [toNat_append_byte, Fin.sum_univ_eight, Fin.val_zero, Fin.val_one, Fin.val_two]
    simp
    omega
  rw [← hvalue, BitVec.ofNat_toNat, BitVec.setWidth_eq]

theorem seedKeys_eq (seed : Seed) :
    seedKeys seed = (⟨keyWord seed 0, keyWord seed 1⟩, ⟨keyWord seed 2, keyWord seed 3⟩) := by
  have h0 : platformLoad64 seed 0 = keyWord seed 0 := littleEndian_eq fun i => seed[Fin.ofNat 32 (8 * 0 + i)]
  have h1 : platformLoad64 seed 8 = keyWord seed 1 := littleEndian_eq fun i => seed[Fin.ofNat 32 (8 * 1 + i)]
  have h2 : platformLoad64 seed 16 = keyWord seed 2 := littleEndian_eq fun i => seed[Fin.ofNat 32 (8 * 2 + i)]
  have h3 : platformLoad64 seed 24 = keyWord seed 3 := littleEndian_eq fun i => seed[Fin.ofNat 32 (8 * 3 + i)]
  rw [seedKeys, h0, h1, h2, h3]

/-! ## The programs -/

/-- An instruction with arguments is specified completely. -/
theorem Agrees.instruction_eq {x : Instruction} {e : Entry} (h : Agrees x e) (hargs : e.args.isSome)
    (operands : Nat × Nat × Nat) : e.instruction operands = x := by
  obtain ⟨opcode, src, dst, imm⟩ := x
  obtain ⟨opcode', _ | ⟨dst', src', imm'⟩⟩ := e
  · cases hargs
  · obtain ⟨rfl, hfields⟩ := h
    obtain ⟨rfl, rfl, rfl⟩ := hfields dst' src' imm' rfl
    rfl

theorem programs_describes (u : Unspecified) (seed : Seed) (i : Fin 32) :
    (generatedLayouts (seedKeys seed).1 i).Describes (programs rngOutputDown u seed)[i] := by
  let memory : ProgramList := .replicate 32 (.replicate 10 ⟨.halt, 0, 0, 0⟩)
  let key := (seedKeys seed).1
  have hlayout := generatedLayouts_describes key memory i
  have hagrees (index : Fin 10) : Agrees (hashwxProgramListGenerate key memory)[i][index]
      (program (fun j => OutputStream.output Siphash.hashwxRngNext (Siphash.hashwxRngInit key (-1))
        (16 * i + j)) index) := by
    rw [hashwxProgramListGenerate, programListGenerate_eq]
    exact buildProgram_agrees _ _ _
  have hstream : rngOutputDown (keyWord seed 0) (keyWord seed 1) (-1) =
      OutputStream.output Siphash.hashwxRngNext (Siphash.hashwxRngInit key (-1)) := by
    rw [← rngOutputDown_eq key]
    simp only [key, seedKeys_eq]
  have hget (index : Fin 10) : (programs rngOutputDown u seed)[i][index] =
      (program (fun j => OutputStream.output Siphash.hashwxRngNext (Siphash.hashwxRngInit key (-1))
        (16 * i + j)) index).instruction (u.operands i index) := by
    rw [programs, hstream, Vector.getElem_ofFn_fin, Vector.getElem_ofFn_fin]
  have hcode {index : Fin 10} {x : Instruction}
      (hargs : ∀ gen, (program gen index).args.isSome)
      (hx : (hashwxProgramListGenerate key memory)[i][index] = x) :
      (programs rngOutputDown u seed)[i][index] = x := by
    rw [hget, ← hx]
    exact (hagrees index).instruction_eq (hargs _) _
  have hopcode {index : Fin 10} {op : InstrType}
      (hop : (hashwxProgramListGenerate key memory)[i][index].opcode = op) :
      (programs rngOutputDown u seed)[i][index].opcode = op := by
    rw [hget, ← hop]
    exact (hagrees index).1.symm
  exact
    { code0 := hcode (fun _ => rfl) hlayout.code0
      code1 := hcode (fun _ => rfl) hlayout.code1
      code2 := hcode (fun _ => rfl) hlayout.code2
      code3 := hcode (fun _ => rfl) hlayout.code3
      code4 := hcode (fun _ => rfl) hlayout.code4
      code5 := hcode (fun _ => rfl) hlayout.code5
      code6 := hcode (fun _ => rfl) hlayout.code6
      branch := hopcode hlayout.branch
      code8 := hcode (fun _ => rfl) hlayout.code8
      halt := hopcode hlayout.halt }

/-- Whatever the document leaves open, its algorithm computes one value. -/
theorem hash_eq (u : Unspecified) (seed : Seed) (nonce : Word) :
    hash rngOutputDown u seed nonce = some (hashOf seed nonce) := by
  have hstream : rngOutputDown (keyWord seed 2) (keyWord seed 3) nonce =
      OutputStream.output Siphash.hashwxRngNext (Siphash.hashwxRngInit (seedKeys seed).2 nonce) := by
    rw [← rngOutputDown_eq, seedKeys_eq]
  rw [hash, hstream, hashwxExecute_eq (programs_describes u seed), hashOf, initRegs, adjustRegs_eq]
  generalize (fun i : Fin 8 => OutputStream.output Siphash.hashwxRngNext
    (Siphash.hashwxRngInit (seedKeys seed).2 nonce) i) = f
  have hfile : fileOf (regs f (derived f)) = f := funext (regs_file f (derived f))
  have hconsts : constsOf (regs f (derived f)) = derived f := funext (regs_const f (derived f))
  rw [hfile, hconsts]

end Spec

/-! ## Contexts of the WebAssembly build -/

namespace CompilerWasm

open ByteMemory (Bytes load64 wordAddr)

/-- The memory of the instance at the calls of the function: where the arrays of the context lie,
what they hold before `hashwx_exec_begin`, and all of the rest. -/
structure Caller where
  size : Nat
  rp : BitVec 32
  mp : BitVec 32
  placed : Placed size rp mp
  reg : Regs
  mem : Scratchpad
  call : Context → Bytes 64
  holds : ∀ ctx, Holds ctx rp mp (call ctx)

/-- There are such memories: one page, and arrays that hold other values before. -/
def pageCaller : Caller where
  size := 65536
  rp := 1024
  mp := 4096
  placed := placed_page
  reg := sampleRegs
  mem := .replicate 256 85
  call ctx := ctx.image 1024 4096
  holds := placed_page.holds_image

instance caller_inhabited : Inhabited Caller := ⟨pageCaller⟩

/-- The context between `hashwx_exec_begin` and the call of the function. -/
def Caller.begun (caller : Caller) (ctx : Context) (input : Word) : Context :=
  hashwxExecBegin { ctx with reg := caller.reg, mem := caller.mem } input

/-- The three calls of a hash. -/
def Context.Exec (ctx : Context) (input : Word) (caller : Caller) (value : Word) : Prop :=
  ∃ m bytes', Wasm.decodeModule ctx.code.toList = some m ∧
    CallExec (Wasm.linear caller.size) m caller.rp caller.mp (caller.call (caller.begun ctx input)) bytes' ∧
    value = hashwxExecFinal ((caller.begun ctx input).readBack caller.rp caller.mp bytes')

def wasmContext : Session.Device Context Seed ProgramList Word Caller Word where
  make ctx seed memory ctx' := hashwxMake true seed memory ctx = .ok ctx'
  query := Context.Exec

/-- The code is the module of the seed. -/
structure Context.Serves (ctx : Context) (seed : Seed) : Prop where
  code : ctx.code.toList = moduleCode (generatedLayouts (seedKeys seed).1)
  key : ctx.key = (seedKeys seed).2

theorem Context.make_serves (ctx : Context) (seed : Seed) (memory : ProgramList) :
    ∃ ctx', hashwxMake true seed memory ctx = .ok ctx' ∧ ctx'.Serves seed := by
  obtain ⟨code, hmake, hcode⟩ := hashwxMake_eq seed (generatedLayouts_describes (seedKeys seed).1 memory) ctx
  exact ⟨_, hmake, hcode, rfl⟩

/-- A call of the function has one outcome, and it leaves the hash. -/
theorem Context.exec_iff {ctx : Context} {seed : Seed} (h : ctx.Serves seed) (input : Word)
    (caller : Caller) (value : Word) : ctx.Exec input caller value ↔ value = hashOf seed input := by
  let ts := generatedLayouts (seedKeys seed).1
  let r := initRegs (seedKeys seed).2 input
  have hdecode : Wasm.decodeModule ctx.code.toList = some (execModule ts) := by
    rw [h.code]
    exact decodeModule_code ts
  have hbegun : (caller.begun ctx input).reg = r := by
    rw [Caller.begun, hashwxExecBegin_reg, h.key]
  have hreg (i : Fin 10) :
      load64 (caller.call (caller.begun ctx input)) (wordAddr (caller.rp.setWidth 64) i) = r[i] := by
    rw [(caller.holds _).reg, hbegun]
  obtain ⟨bytes', hcall, hregs⟩ := callExec_returns (granted_words caller.rp caller.mp) caller.placed hreg ts
  have hlinear := hcall.mono caller.placed.weaker
  have hfinal : hashwxExecFinal ((caller.begun ctx input).readBack caller.rp caller.mp bytes') =
      hashOf seed input := by
    rw [hashwxExecFinal_eq, Context.readBack_reg _ hregs]
    rfl
  constructor
  · intro hexec
    obtain ⟨m, b, hm, hb, rfl⟩ := hexec
    obtain rfl := Option.some.inj (hm.symm.trans hdecode)
    rw [hb.deterministic (execModule_valid ts) hlinear, hfinal]
  · rintro rfl
    exact ⟨_, bytes', hdecode, hlinear, hfinal.symm⟩

theorem wasmContext_correct : Session.Correct wasmContext Context.Serves hashOf where
  make := by
    intro ctx seed memory ctx' hmake
    obtain ⟨ctx'', hmake', hserves⟩ := ctx.make_serves seed memory
    obtain rfl := Except.ok.inj (hmake'.symm.trans hmake)
    exact hserves
  query h hexec := (Context.exec_iff h _ _ _).mp hexec

theorem wasmContext_live : Session.Live wasmContext Context.Serves fun _ => True where
  make ctx seed memory _ := ctx.make_serves seed memory
  query input caller h := ⟨_, (Context.exec_iff h input caller _).mpr rfl⟩

end CompilerWasm

/-! ## All kinds of contexts -/

/-- The value that the document prescribes for a nonce. -/
def Documented (seed : Seed) (nonce value : Word) : Prop :=
  ∀ u, Spec.hash Spec.rngOutputDown u seed nonce = some value

/-- **Every hash is the documented one**, but for the order of the words in a block of the
generator. In every session of calls on a context, interpreted, compiled for a native target or
compiled to WebAssembly, each answer is the value of the document for the last seed and the nonce,
whatever the document leaves open. -/
theorem sessions_conform :
    Session.Answers interpretedContext Documented ∧
      (∀ native, Session.Answers (compiledContext native) Documented) ∧
      Session.Answers CompilerWasm.wasmContext Documented := by
  have hdocumented (seed : Seed) (nonce : Word) : Documented seed nonce (hashOf seed nonce) :=
    fun u => Spec.hash_eq u seed nonce
  exact ⟨interpretedContext_correct.answers hdocumented,
    fun native => (compiledContext_correct native).answers hdocumented,
    CompilerWasm.wasmContext_correct.answers hdocumented⟩

/-- **The WebAssembly build has no history either.** In every sequence of calls on one context that
starts with `hashwx_make`, whatever its arrays and the memory of the instance hold and wherever they
lie, every call has a result, and each hash is the one of a new context. -/
theorem wasm_history_free : Session.HistoryFree CompilerWasm.wasmContext fun _ => True :=
  Session.historyFree CompilerWasm.wasmContext_correct CompilerWasm.wasmContext_live

end HashWX
