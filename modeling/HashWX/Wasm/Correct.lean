import HashWX.Wasm.Phases

/-!
# The module computes what the interpreter computes

The three calls of the WebAssembly build, with the function of the emitted module between
`hashwx_exec_begin` and `hashwx_exec_final`. The arrays of the context lie in the memory of
the instance, at the two addresses that the function is called with.
-/

namespace HashWX.CompilerWasm

open ByteMemory ForLoop
open CodeMachine (Byte)
open Siphash (Word)
open Wasm (Plain Code State Value Exec Invoke execAll)

/-! ## The memory of the instance -/

/-- `reg` and `mem` lie in a memory of so many bytes, one behind the other. -/
structure Placed (size : Nat) (rp mp : BitVec 32) : Prop where
  size_le : size ≤ 2 ^ 32
  reg_le : rp.toNat + 80 ≤ size
  mem_le : mp.toNat + 2048 ≤ size
  disjoint : rp.toNat + 80 ≤ mp.toNat ∨ mp.toNat + 2048 ≤ rp.toNat

/-- The memory holds the arrays of the context. -/
structure Holds (ctx : Context) (rp mp : BitVec 32) (bytes : Bytes 64) : Prop where
  reg : ∀ i : Fin 10, load64 bytes (wordAddr (rp.setWidth 64) i) = ctx.reg[i]
  mem : ∀ a : Fin 256, load64 bytes (wordAddr (mp.setWidth 64) a) = ctx.mem[a]

/-- The context, with its arrays as the memory has them. -/
def Context.readBack (ctx : Context) (rp mp : BitVec 32) (bytes : Bytes 64) : Context :=
  { ctx with
    reg := .ofFn fun i => load64 bytes (wordAddr (rp.setWidth 64) i)
    mem := .ofFn fun a => load64 bytes (wordAddr (mp.setWidth 64) a) }

/-- A memory that holds the arrays. -/
def Context.image (ctx : Context) (rp mp : BitVec 32) : Bytes 64 :=
  storeArray (mp.setWidth 64) (fun a : Fin 256 => ctx.mem[a])
    (storeArray (rp.setWidth 64) (fun i : Fin 10 => ctx.reg[i]) fun _ => 0)

theorem Context.readBack_reg (ctx : Context) {rp mp : BitVec 32} {bytes : Bytes 64} {r : Regs}
    (h : ∀ i : Fin 10, load64 bytes (wordAddr (rp.setWidth 64) i) = r[i]) :
    (ctx.readBack rp mp bytes).reg = r := by
  apply Vector.ext
  intro i hi
  exact (Vector.getElem_ofFn hi).trans (h ⟨i, hi⟩)

/-- A call of `exec(reg, mem)`, from one memory to another. -/
def CallExec (access : Access) (m : Wasm.Module) (rp mp : BitVec 32) (bytes bytes' : Bytes 64) : Prop :=
  Invoke access m [0x65, 0x78, 0x65, 0x63] [.i32 rp, .i32 mp] bytes bytes'

/-- What the function may read and write. -/
structure Granted (access : Access) (rp mp : BitVec 32) : Prop where
  reg_readable : ∀ i < 10, access.readable (wordAddr (rp.setWidth 64) i) = true
  reg_writable : ∀ i < 8, access.writable (wordAddr (rp.setWidth 64) i) = true
  mem_readable : ∀ a < 256, access.readable (wordAddr (mp.setWidth 64) a) = true
  mem_writable : ∀ a < 256, access.writable (wordAddr (mp.setWidth 64) a) = true

/-- The words that the function writes. -/
def writtenWords (rp mp : BitVec 32) : List Word :=
  wordsFrom (rp.setWidth 64) 0 8 ++ wordsFrom (mp.setWidth 64) 0 256

/-- The words that the function reads. -/
def readWords (rp mp : BitVec 32) : List Word :=
  wordsFrom (rp.setWidth 64) 0 10 ++ wordsFrom (mp.setWidth 64) 0 256

/-- These words are enough. -/
theorem granted_words (rp mp : BitVec 32) :
    Granted (.words (readWords rp mp) (writtenWords rp mp)) rp mp := by
  constructor
  · intro i hi
    exact Access.readable_words.mpr (List.mem_append_left _ (mem_wordsFrom _ (Nat.zero_le i) (by omega)))
  · intro i hi
    exact Access.writable_words.mpr (List.mem_append_left _ (mem_wordsFrom _ (Nat.zero_le i) (by omega)))
  · intro a ha
    exact Access.readable_words.mpr (List.mem_append_right _ (mem_wordsFrom _ (Nat.zero_le a) (by omega)))
  · intro a ha
    exact Access.writable_words.mpr (List.mem_append_right _ (mem_wordsFrom _ (Nat.zero_le a) (by omega)))

section Placed

variable {size : Nat} {rp mp : BitVec 32} (h : Placed size rp mp)
include h

/-- No word of the registers overlaps one of the scratchpad. -/
theorem Placed.apart {i a : Nat} (hi : i < 10) (ha : a < 256) :
    Apart 8 (wordAddr (rp.setWidth 64) i) (wordAddr (mp.setWidth 64) a) := by
  have hrp := rp.isLt
  have hmp := mp.isLt
  have hdisjoint := h.disjoint
  constructor <;>
  · simp only [wordAddr, BitVec.toNat_sub, BitVec.toNat_add, BitVec.toNat_setWidth, BitVec.toNat_ofNat]
    omega

/-- There is a memory for every context and every placement of its arrays. -/
theorem Placed.holds_image (ctx : Context) : Holds ctx rp mp (ctx.image rp mp) := by
  constructor
  · intro i
    have hapart : ∀ a < 256, Apart 8 (wordAddr (rp.setWidth 64) i) (wordAddr (mp.setWidth 64) a) :=
      fun a ha => h.apart i.isLt ha
    rw [Context.image, load64_storeArray_of_apart _ _ hapart]
    exact load64_storeArray _ _ _ (by decide) i
  · exact fun a => load64_storeArray _ _ _ (by decide) a

/-- All of these words lie in the memory. -/
theorem Placed.weaker : (Access.words (readWords rp mp) (writtenWords rp mp)).Weaker (Wasm.linear size) := by
  have hword {base : BitVec 32} {n : Nat} (hfits : base.toNat + 8 * n ≤ size) {x : Word}
      (hx : x ∈ wordsFrom (base.setWidth 64) 0 n) : x.toNat + 8 ≤ size := by
    obtain ⟨i, hi, rfl⟩ := List.mem_map.mp hx
    have hlt := (List.mem_range'_1.mp hi).2
    have hsize := h.size_le
    simp only [wordAddr, BitVec.toNat_add, BitVec.toNat_setWidth, BitVec.toNat_ofNat]
    omega
  have hreg := h.reg_le
  have hmem := h.mem_le
  constructor
  · intro x hx
    apply decide_eq_true
    rcases List.mem_append.mp (Access.readable_words.mp hx) with hx | hx
    · exact hword (by omega) hx
    · exact hword (by omega) hx
  · intro x hx
    apply decide_eq_true
    rcases List.mem_append.mp (Access.writable_words.mp hx) with hx | hx
    · exact hword (by omega) hx
    · exact hword (by omega) hx

end Placed

/-! ## The prologue -/

namespace Machine

/-- The machine with other registers. -/
def withRegs (v : Machine) (g : Fin 10 → Word) : Machine :=
  { v with file := fun k => g (k.castAdd 2), consts := fun j => g (j.natAdd 8) }

theorem set_withRegs (v : Machine) (g : Fin 10 → Word) (i : Fin 10) (x : Word) :
    (v.withRegs g).locals.set (2 + i.val) (.i64 x) = (v.withRegs (Function.update g i x)).locals := by
  match i with
  | 0 | 1 | 2 | 3 | 4 | 5 | 6 | 7 | 8 | 9 => rfl

end Machine

/-- The machine in front of the first phase, for the memory that the function is called with. -/
def entered (rp mp : BitVec 32) (r : Regs) (bytes : Bytes 64) : Machine :=
  ⟨rp, mp, fileOf r, constsOf r, 0, 0, 2040, bytes⟩

section Prologue

variable {access : Access} {rp : BitVec 32} {r : Regs} {bytes : Bytes 64}

/-- The prologue loads the registers in order; the induction is over the number of those loaded. -/
theorem exec_loadRegs (hreg : ∀ i : Fin 10, load64 bytes (wordAddr (rp.setWidth 64) i) = r[i])
    (hread : ∀ i < 10, access.readable (wordAddr (rp.setWidth 64) i) = true) (v : Machine)
    (hrp : v.rp = rp) (hmem : v.mem = bytes) :
    execAll access (List.ofFn fun k : Fin 10 => [.localGet 0, .i64Load 3 (8 * k), .localSet (2 + k)]).flatten
      ((v.withRegs fun _ => 0).state []) =
        some (({ v with file := fileOf r, consts := constsOf r } : Machine).state []) := by
  subst hrp hmem
  let loaded (k : Nat) : Fin 10 → Word := fun i => if i.val < k then r[i] else 0
  have hstep (k : Fin 10) : execAll access [.localGet 0, .i64Load 3 (8 * k), .localSet (2 + k)]
      ((v.withRegs (loaded k)).state []) = some ((v.withRegs (loaded (k + 1))).state []) := by
    have hnext : Function.update (loaded k) k r[k] = loaded (k + 1) := by
      funext i
      by_cases hik : i = k
      · subst hik
        simp [loaded]
      · have hne : i.val ≠ k.val := fun h => hik (Fin.ext h)
        have hlt : i.val < k.val + 1 ↔ i.val < k.val := by omega
        simp only [loaded, Function.update_of_ne hik, hlt]
    have hload : (Plain.i64Load 3 (8 * k)).exec access ((v.withRegs (loaded k)).state [.i32 v.rp]) =
        some ((v.withRegs (loaded k)).state [.i64 r[k]]) := by
      rw [exec_load access (v.withRegs (loaded k)) [] 3 rfl (hread k k.isLt)]
      exact congrArg (fun x => some ((v.withRegs (loaded k)).state [.i64 x])) (hreg k)
    have hset : (Plain.localSet (2 + k)).exec access ((v.withRegs (loaded k)).state [.i64 r[k]]) =
        some ((v.withRegs (loaded (k + 1))).state []) := by
      have hlen : (v.withRegs (loaded k)).locals.length = 15 := rfl
      have hlt : 2 + k.val < (v.withRegs (loaded k)).locals.length := by omega
      rw [← hnext]
      refine (if_pos hlt).trans ?_
      exact congrArg (fun l => some (⟨l, [], v.mem⟩ : State)) (v.set_withRegs (loaded k) k r[k])
    have hget : (Plain.localGet 0).exec access ((v.withRegs (loaded k)).state []) =
        some ((v.withRegs (loaded k)).state [.i32 v.rp]) := rfl
    simp only [execAll, hget, hload, hset, bind, Option.bind_some]
  have hall := Wasm.execAll_ofFn (fun k => (v.withRegs (loaded k)).state []) hstep
  have hend : v.withRegs (loaded 10) = { v with file := fileOf r, consts := constsOf r } := by
    have hloaded : loaded 10 = fun i => r[i] := funext fun i => if_pos i.isLt
    rw [hloaded]
    rfl
  rw [hend] at hall
  exact hall

/-- From the call of the function to the first phase. -/
theorem exec_prologue (mp : BitVec 32)
    (hreg : ∀ i : Fin 10, load64 bytes (wordAddr (rp.setWidth 64) i) = r[i])
    (hread : ∀ i < 10, access.readable (wordAddr (rp.setWidth 64) i) = true) :
    execAll access prologue
      ⟨[.i32 rp, .i32 mp] ++ (List.replicate 13 Wasm.ValType.i64).map Wasm.ValType.default, [], bytes⟩ =
        some (({ entered rp mp r bytes with mp := mpAt mp 0 } : Machine).state []) := by
  let v : Machine := ⟨rp, mp, fun _ => 0, fun _ => 0, 0, 0, 0, bytes⟩
  have hloads := exec_loadRegs hreg hread v rfl rfl
  refine Wasm.execAll_append hloads ?_
  rw [← mpAt_zero]
  rfl

end Prologue

/-! ## The epilogue -/

/-- The machine behind the stores of the epilogue. -/
def stored (v : Machine) : Machine :=
  { v with mem := storeArray (v.rp.setWidth 64) v.file v.mem }

/-- The epilogue stores R0-R7 and leaves R8 and R9 as they are. -/
theorem exec_epilogue {access : Access} {v : Machine}
    (hw : ∀ i < 8, access.writable (wordAddr (v.rp.setWidth 64) i) = true) :
    execAll access epilogue (v.state []) = some ((stored v).state []) := by
  let words : List (Word × Nat) := List.ofFn fun k : Fin 8 => (v.file k, k.val)
  have hlength : words.length = 8 := List.length_ofFn
  let mems (k : Nat) : Bytes 64 := storeWords (v.rp.setWidth 64) (words.take k) v.mem
  have hstep (k : Fin 8) : execAll access [.localGet 0, .localGet (2 + k), .i64Store 3 (8 * k)]
      (({ v with mem := mems k } : Machine).state []) =
        some (({ v with mem := mems (k + 1) } : Machine).state []) := by
    have htake : words.take (k + 1) = words.take k ++ [(v.file k, k.val)] := by
      have hlt : k.val < words.length := lt_of_lt_of_eq k.isLt hlength.symm
      have hword : words[k.val] = (v.file k, k.val) := List.getElem_ofFn _
      rw [List.take_succ_eq_append_getElem hlt, hword]
    have hnext : store64 (mems k) (wordAddr (v.rp.setWidth 64) k) (v.file k) = mems (k + 1) := by
      simp only [mems]
      rw [htake, storeWords_append]
      rfl
    have hstore : (Plain.i64Store 3 (8 * k)).exec access
        (({ v with mem := mems k } : Machine).state [.i64 (v.file k), .i32 v.rp]) =
          some (({ v with mem := mems (k + 1) } : Machine).state []) := by
      rw [← hnext]
      exact exec_store access { v with mem := mems k } [] 3 (v.file k) rfl (hw k k.isLt)
    simp only [execAll, exec_get_rp, exec_get_file, hstore, bind, Option.bind_some]
  have hall := Wasm.execAll_ofFn (fun k => ({ v with mem := mems k } : Machine).state []) hstep
  have hend : words.take 8 = words := List.take_of_length_le hlength.le
  simp only [mems, hend] at hall
  exact hall

/-! ## The function -/

section Function

variable {access : Access} {size : Nat} {rp mp : BitVec 32} {r : Regs} {bytes : Bytes 64}
  (hgranted : Granted access rp mp) (hplaced : Placed size rp mp)
  (hreg : ∀ i : Fin 10, load64 bytes (wordAddr (rp.setWidth 64) i) = r[i]) (ts : Fin 32 → Layout)
include hgranted hplaced hreg

/-- The function runs to its end. In front of the last stores the machine has the meaning of the
layouts in its registers, and has written nothing outside of the scratchpad. -/
theorem exec_function : ∃ v : Machine, Exec access (function ts) ⟨[.i32 rp, .i32 mp] ++
      (List.replicate 13 Wasm.ValType.i64).map Wasm.ValType.default, [], bytes⟩ .fall ((stored v).state []) ∧
    v.rp = rp ∧ v.file = executeLayouts ts (constsOf r) (fileOf r) ∧
    ∀ a, (∀ k < 256, Apart 8 a (wordAddr (mp.setWidth 64) k)) → load64 v.mem a = load64 bytes a := by
  have hmp : mp.toNat + 2048 ≤ 2 ^ 32 := hplaced.mem_le.trans hplaced.size_le
  let v₀ := entered rp mp r bytes
  have hpro := Wasm.exec_plains (exec_prologue mp hreg hgranted.reg_readable)
  have hinit : Between v₀ mp 0 ((fileOf r, 32), fun _ => 0) { v₀ with mp := mpAt mp 0 } :=
    ⟨le_rfl, ⟨0, rfl⟩, filled_zero _ _, fun _ _ => rfl⟩
  have hphase : executeLayouts ts (constsOf r) (fileOf r) = (readPhase ts (constsOf r)
      (writePhase ts (constsOf r) (fileOf r)).2 (writePhase ts (constsOf r) (fileOf r)).1.1).1 := rfl
  rw [hphase]
  obtain ⟨v₁, hwrites, hbetween⟩ := exec_writePrograms hmp hgranted.mem_writable ts hinit
  change Between v₀ mp 32 (writePhase ts (constsOf r) (fileOf r)) v₁ at hbetween
  generalize writePhase ts (constsOf r) (fileOf r) = u at hbetween
  obtain ⟨flag₁, heq⟩ := hbetween.eq
  rw [mpAt_all] at heq
  let v₂ : Machine := { v₀ with mem := v₁.mem }
  have hclear : execAll access clearBc (v₁.state []) = some ((v₂.enter u.1.1 32 flag₁).state []) := by
    rw [heq]
    rfl
  have hscratch : Scratch access u.2 (v₂.mp.setWidth 64) v₂.mem := by
    constructor
    · exact fun a => hgranted.mem_readable a a.isLt
    · exact fun a => hbetween.stored.filled.word (Nat.zero_le _)
  obtain ⟨flag₂, hreads⟩ := exec_readPrograms hscratch hmp rfl ts u.1.1 flag₁
  change Exec access _ _ _ ((v₂.enter (readPhase ts (constsOf r) u.2 u.1.1).1
    (readPhase ts (constsOf r) u.2 u.1.1).2 flag₂).state []) at hreads
  generalize readPhase ts (constsOf r) u.2 u.1.1 = w at hreads
  have hepi : execAll access epilogue ((v₂.enter w.1 w.2 flag₂).state []) =
      some ((stored (v₂.enter w.1 w.2 flag₂)).state []) := exec_epilogue hgranted.reg_writable
  exact ⟨_, hpro.append <| hwrites.append <| (Wasm.exec_plains hclear).append <|
    hreads.append (Wasm.exec_plains hepi), rfl, rfl, hbetween.stored.frame⟩

/-- A call of the function leaves the meaning of the layouts in R0-R7, and R8 and R9. -/
theorem callExec_returns : ∃ bytes', CallExec access (execModule ts) rp mp bytes bytes' ∧
    ∀ i : Fin 10, load64 bytes' (wordAddr (rp.setWidth 64) i) =
      (regs (executeLayouts ts (constsOf r) (fileOf r)) (constsOf r))[i] := by
  obtain ⟨v, hexec, hrp, hfile, hframe⟩ := exec_function hgranted hplaced hreg ts
  have hcall : CallExec access (execModule ts) rp mp bytes ((stored v).state []).mem :=
    .intro List.mem_cons_self rfl rfl rfl rfl rfl hexec (.inl rfl)
  refine ⟨_, hcall, fun i => ?_⟩
  rw [← hrp, ← hfile]
  induction i using Fin.addCases (m := 8) (n := 2) with
  | left k => exact (load64_storeArray _ v.file v.mem (by decide) k).trans (regs_file v.file _ k).symm
  | right j =>
    have hj := j.isLt
    have hlast : load64 (stored v).mem (wordAddr (v.rp.setWidth 64) (8 + j)) =
        load64 v.mem (wordAddr (v.rp.setWidth 64) (8 + j)) :=
      load64_storeArray_of_apart _ _ fun k hk => apart_wordAddr _ (by omega) (by omega) (by omega)
    have hwritten : load64 v.mem (wordAddr (v.rp.setWidth 64) (8 + j)) =
        load64 bytes (wordAddr (v.rp.setWidth 64) (8 + j)) := by
      rw [hrp]
      exact hframe _ fun a ha => hplaced.apart (by omega) ha
    have hconst : (regs v.file (constsOf r))[8 + j.val] = load64 bytes (wordAddr (v.rp.setWidth 64) (8 + j)) := by
      rw [regs_const, hrp]
      exact (hreg (Fin.natAdd 8 j)).symm
    exact hlast.trans (hwritten.trans hconst.symm)

end Function

/-! ## The three calls -/

theorem hashwxMake_of_code {seed : Seed} {memory : ProgramList} {ctx : Context} {pos : List Byte}
    {code : Vector Byte 11278}
    (hcompile : hashwxCompileWasm true (hashwxProgramListGenerate (seedKeys seed).1 memory) = .ok pos)
    (hstore : FinArray.storeAll ctx.code 0 pos = some code) :
    hashwxMake true seed memory ctx = .ok { ctx with code := code, key := (seedKeys seed).2 } := by
  have hmake : hashwxMake true seed memory ctx =
      (hashwxCompileWasm true (hashwxProgramListGenerate (seedKeys seed).1 memory) >>= fun code =>
        defined (FinArray.storeAll ctx.code 0 code) >>= fun code =>
          pure { ctx with code := code, key := (seedKeys seed).2 }) := rfl
  rw [hmake, hcompile]
  show defined (FinArray.storeAll ctx.code 0 pos) >>= _ = _
  rw [hstore]
  rfl

/-- The emitted bytes fill the code of the context. -/
theorem hashwxMake_eq (seed : Seed) {memory : ProgramList} {ts : Fin 32 → Layout}
    (ht : ∀ i : Fin 32, (ts i).Describes (hashwxProgramListGenerate (seedKeys seed).1 memory)[i])
    (ctx : Context) : ∃ code, hashwxMake true seed memory ctx =
      .ok { ctx with code := code, key := (seedKeys seed).2 } ∧ code.toList = moduleCode ts := by
  have hlength : (moduleCode ts).length = 11278 := moduleCode_length ts
  have hfill : 0 + (moduleCode ts).length = ctx.code.toList.length := by
    rw [hlength, Vector.length_toList]
  obtain ⟨code, hstore, hlist⟩ := @FinArray.storeAll_eq _ _ (moduleCode ts) 0 ctx.code (by omega)
  refine ⟨code, hashwxMake_of_code (hashwxCompileWasm_eq ts ht true) hstore, ?_⟩
  rw [hlist, hfill, List.drop_length, List.take_zero, List.nil_append, List.append_nil]

/-- **The WebAssembly build computes what the interpreter computes.** After `hashwx_make` and
`hashwx_exec_begin`, a call of the emitted function in a memory that holds the arrays of the context
ends in exactly one way, accesses nothing but the arrays, writes nothing but R0-R7 and the
scratchpad, and leaves registers from which `hashwx_exec_final` computes the interpreted hash. -/
theorem wasm_refines (seed : Seed) (memory memory' : ProgramList) (scratch : Scratchpad)
    (input : Word) (ctx : Context) :
    ∃ ctx₁ m value, hashwxMake true seed memory ctx = .ok ctx₁ ∧
      Wasm.decodeModule ctx₁.code.toList = some m ∧ m.Valid ∧
      hashwxExecInterpreted (hashwxProgramListGenerate (seedKeys seed).1 memory') (seedKeys seed).2
        input scratch = some value ∧
      ∀ size rp mp bytes, Placed size rp mp → Holds (hashwxExecBegin ctx₁ input) rp mp bytes →
        ∃ bytes', (∀ b, CallExec (Wasm.linear size) m rp mp bytes b ↔ b = bytes') ∧
          CallExec (.words (readWords rp mp) (writtenWords rp mp)) m rp mp bytes bytes' ∧
          Frame (writtenWords rp mp) bytes bytes' ∧
          hashwxExecFinal ((hashwxExecBegin ctx₁ input).readBack rp mp bytes') = value := by
  let ts := generatedLayouts (seedKeys seed).1
  have ht := generatedLayouts_describes (seedKeys seed).1
  obtain ⟨code, hmake, hcode⟩ := hashwxMake_eq seed (ht memory) ctx
  have hexecute := hashwxProgramListExecute_eq (ht memory')
    (constsOf (initRegs (seedKeys seed).2 input)) (fileOf (initRegs (seedKeys seed).2 input)) scratch
  rw [regs_eta] at hexecute
  refine ⟨_, execModule ts, _, hmake, ?_, execModule_valid ts,
    congrArg (Option.map finalize) hexecute, fun size rp mp bytes hplaced hholds => ?_⟩
  · rw [hcode]
    exact decodeModule_code ts
  have hreg (i : Fin 10) : load64 bytes (wordAddr (rp.setWidth 64) i) =
      (initRegs (seedKeys seed).2 input)[i] := by
    rw [hholds.reg, hashwxExecBegin_reg]
  obtain ⟨bytes', hcall, hregs⟩ := callExec_returns (granted_words rp mp) hplaced hreg ts
  have hlinear : CallExec (Wasm.linear size) (execModule ts) rp mp bytes bytes' := hcall.mono hplaced.weaker
  refine ⟨bytes', fun b => ⟨fun h => h.deterministic (execModule_valid ts) hlinear, fun h => h ▸ hlinear⟩,
    hcall, hcall.frame, ?_⟩
  rw [hashwxExecFinal_eq, Context.readBack_reg _ hregs]

/-- One page of memory, with the arrays at 1024 and 4096. -/
theorem placed_page : Placed 65536 1024 4096 where
  size_le := by decide
  reg_le := by decide
  mem_le := by decide
  disjoint := .inl (by decide)

theorem wasm_refines_zero :
    let list := hashwxProgramListGenerate (seedKeys (.replicate 32 0)).1
      (.replicate 32 (.replicate 10 ⟨.halt, 0, 0, 0⟩))
    ∃ ctx m value bytes', hashwxMake true (.replicate 32 0) (.replicate 32 (.replicate 10 ⟨.halt, 0, 0, 0⟩))
        ⟨.replicate 11278 0, ⟨0, 0⟩, .replicate 10 0, .replicate 256 0⟩ = .ok ctx ∧
      Wasm.decodeModule ctx.code.toList = some m ∧
      hashwxExecInterpreted list (seedKeys (.replicate 32 0)).2 0 (.replicate 256 0) = some value ∧
      CallExec (Wasm.linear 65536) m 1024 4096 ((hashwxExecBegin ctx 0).image 1024 4096) bytes' ∧
      hashwxExecFinal ((hashwxExecBegin ctx 0).readBack 1024 4096 bytes') = value := by
  intro list
  obtain ⟨ctx, m, value, hmake, hdecode, -, hvalue, hcalls⟩ :=
    wasm_refines (.replicate 32 0) (.replicate 32 (.replicate 10 ⟨.halt, 0, 0, 0⟩))
      (.replicate 32 (.replicate 10 ⟨.halt, 0, 0, 0⟩)) (.replicate 256 0) 0
      ⟨.replicate 11278 0, ⟨0, 0⟩, .replicate 10 0, .replicate 256 0⟩
  obtain ⟨bytes', hcall, -, -, hfinal⟩ :=
    hcalls 65536 1024 4096 _ placed_page (placed_page.holds_image (hashwxExecBegin ctx 0))
  exact ⟨ctx, m, value, bytes', hmake, hdecode, hvalue, (hcall bytes').mpr rfl, hfinal⟩

end HashWX.CompilerWasm
