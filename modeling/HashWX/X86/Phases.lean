import HashWX.X86.Program
import HashWX.Isa.X86Blocks
import HashWX.Exec.Phases
import HashWX.Program.WellFormed

/-!
# The two phases in machine code

The programs of a list stand one behind the other, and the machine passes from each to
the next in step with the interpreter. The scratchpad is the stack: after `k` programs
of the first phase the stack pointer is `64 * k` bytes below its start.
-/

namespace HashWX.CompilerX86

open X86 ForLoop ByteMemory
open CodeMachine

/-- Program `i` of the first phase, with its stores. -/
def writeCode (t : Layout) : List Byte := regForm.programCode t ++ codeStore

def readCode (t : Layout) : List Byte := memForm.programCode t

section Compile

variable {list : ProgramList} {ts : Fin 32 → Layout} (h : ∀ i : Fin 32, (ts i).Describes list[i])
  (abi : Abi)
include h

/-- The code after `k` programs of the first phase. -/
theorem compileRegFirst_eq {k : Nat} (hk : k ≤ 32) : compileRegFirst abi list k hk =
    some (codePrologue abi ++ ((List.ofFn fun i => writeCode (ts i)).take k).flatten) := by
  refine forLoopM_append hk (f := fun pos i => do
    return (← compileProgramReg list[i] pos) ++ codeStore) (fun pos i => ?_) (codePrologue abi)
  have hcompile : compileProgramReg list[i] pos = some (pos ++ regForm.programCode (ts i)) :=
    regForm.compile_eq (ts i) (h i) pos
  rw [hcompile]
  exact congrArg some (List.append_assoc _ _ _)

theorem compileMemFirst_eq {k : Nat} (hk : k ≤ 32) : compileMemFirst abi list k hk =
    some (codePrologue abi ++ (List.ofFn fun i => writeCode (ts i)).flatten ++ codeClearBc ++
      ((List.ofFn fun i => readCode (ts i)).take k).flatten) := by
  have hall : (List.ofFn fun i => writeCode (ts i)).take 32 = List.ofFn fun i => writeCode (ts i) :=
    List.take_of_length_le (by rw [List.length_ofFn])
  rw [compileMemFirst, compileRegFirst_eq h abi le_rfl, hall]
  exact forLoopM_append hk (f := fun pos i => compileProgramMem list[i] pos)
    (fun pos i => memForm.compile_eq (ts i) (h i) pos) _

end Compile

/-! ## The bodies of the programs -/

section Bodies

variable {access : Access} {t : Layout}

/-- In the first phase the operands are registers, so no source may be its own destination. -/
theorem computes_body_reg {ctx : Word → Bytes 64 → Prop} (hs : t.Shuffled) :
    Computes access ctx (regForm.bodyCode t) (t.body id) :=
  (computes_xasReg t.xas1 (hs.src_ne_dst 0)).append <|
  (computes_mulReg t.mul2 (hs.src_ne_dst 1)).append <|
  (computes_xasReg t.xas3 (hs.src_ne_dst 2)).append <|
  (computes_mulReg t.mul4 (hs.src_ne_dst 3)).append <|
  (computes_xasReg t.xas5 (hs.src_ne_dst 4)).append (computes_mulReg t.mul6 (hs.src_ne_dst 5))

theorem computes_body_mem (m : Memory) :
    Computes access (Scratch access m) (memForm.bodyCode t) (t.body (loadWord m)) :=
  (computes_xasMem m t.xas1).append <| (computes_mulMem m t.mul2).append <|
  (computes_xasMem m t.xas3).append <| (computes_mulMem m t.mul4).append <|
  (computes_xasMem m t.xas5).append (computes_mulMem m t.mul6)

end Bodies

/-! ## The first phase -/

/-- The eight pushes. -/
theorem assembles_store {access : Access} :
    (isa access).Assembles ((List.ofFn vreg).map .push) codeStore := assembles (by decide +kernel)

/-- The stores of a program push R0 first. -/
theorem straight_store {access : Access} {base : Word} {n : Nat}
    (hw : ∀ k < n + 8, access.writable (wordAddr base k) = true) :
    (isa access).Straight Machine.state (fun v => v.rsp = wordAddr base (n + 8)) codeStore fun v v' =>
      v' = { v with rsp := wordAddr base n
                    mem := pushWords base (n + 8) (List.ofFn v.file) v.mem } := by
  refine ⟨_, assembles_store, fun v hv => ⟨_, ?_, rfl⟩⟩
  have hne : rsp ∉ List.ofFn vreg := by decide
  have hfile : (List.ofFn vreg).map v.state.regs = List.ofFn v.file := by
    rw [List.map_ofFn]
    exact congrArg List.ofFn (funext fun k => v.vreg_state k)
  have hregs : Function.update v.state.regs rsp (wordAddr base n) =
      ({ v with rsp := wordAddr base n } : Machine).state.regs :=
    congrArg State.regs (v.setReg_rsp (wordAddr base n))
  rw [execAll_push access hne (n := n) hv fun k _ hk => hw k hk, hfile, hregs]
  rfl

section Write

variable {access : Access} {code : List Byte} (c : Consts) (rp base : Word) (m₀ : Bytes 64)

/-- The machine in front of program `k` of the first phase. Outside of the scratchpad the
memory is as it was at the start. -/
structure Between (k : Nat) (u : (RegFile × Nat) × Memory) (v : Machine) : Prop where
  ready : Ready v u.1.2 u.1.1 v
  consts : v.consts = c
  rcx : v.rcx = rp
  rsp : v.rsp = wordAddr base (8 * (32 - k))
  filled : Filled k (fun a => some (load64 v.mem (wordAddr base a))) u.2
  frame : ∀ a, (∀ i < 256, Apart 8 a (wordAddr base i)) → load64 v.mem a = load64 m₀ a

variable {c rp base m₀} (hw : ∀ k < 256, access.writable (wordAddr base k) = true)
include hw

/-- One program of the first phase does what its layout does, and the scratchpad grows by its words. -/
theorem write_runs {ts : Fin 32 → Layout} (i : Fin 32) (hs : (ts i).Shuffled) {pc : Nat}
    (hcode : Isa.CodeAt code pc (writeCode (ts i))) {u : (RegFile × Nat) × Memory} {v : Machine}
    (hv : Between c rp base m₀ i u v) :
    ∃ v', (isa access).Runs code (u.1.2 - (writeLayout ts c u i).1.2) ⟨.inside pc, v.state⟩
        ⟨.inside (pc + (writeCode (ts i)).length), v'.state⟩ ∧
      Between c rp base m₀ (i + 1) (writeLayout ts c u i) v' := by
  obtain ⟨hprogram, hstore⟩ := Isa.codeAt_append.mp hcode
  have hbody : Computes access (fun _ _ => True) (regForm.bodyCode (ts i)) ((ts i).body id) :=
    computes_body_reg hs
  obtain ⟨v₁, hruns₁, hleft⟩ := program_runs hbody trivial
    (computes_xasReg _ (hs.src_ne_dst 6)) hprogram hv.ready
  rw [hv.consts] at hruns₁ hleft
  have hi := i.isLt
  have htop : 8 * (32 - i.val) = 8 * (31 - i) + 8 := by omega
  have hrsp : v₁.rsp = wordAddr base (8 * (31 - i) + 8) := by
    rw [hleft.fixed.rsp, hv.rsp, htop]
  obtain ⟨v₂, hruns₂, rfl⟩ :=
    (straight_store fun k hk => hw k (by omega)).runs hstore hrsp
  have hruns := hruns₁.trans hruns₂
  rw [Nat.add_zero, Nat.add_assoc, ← List.length_append] at hruns
  have hstored : Stored base m₀ i u.2 v₁.mem := by
    rw [hleft.fixed.mem]
    exact ⟨hv.filled, hv.frame⟩
  have hpush := hstored.push v₁.file
  rw [hleft.file] at hpush
  refine ⟨_, hruns, ⟨hleft.le, hleft.rbx, hleft.ready.rbp, hleft.file, Fixed.refl _⟩,
    hleft.fixed.consts.trans hv.consts, hleft.fixed.rcx.trans hv.rcx, ?_, ?_, ?_⟩
  · exact congrArg (wordAddr base) (show 8 * (31 - i.val) = 8 * (32 - (i + 1)) by omega)
  · rw [hleft.file]
    exact hpush.filled
  · rw [hleft.file]
    exact hpush.frame

/-- The first `k` programs of the first phase. The number of jumps is the number of
branches that they have spent. -/
theorem write_upTo {ts : Fin 32 → Layout} (hs : ∀ i, (ts i).Shuffled) {f : RegFile} {pc : Nat}
    (hcode : Isa.CodeAt code pc (List.ofFn fun i => writeCode (ts i)).flatten) {v : Machine}
    (hv : Between c rp base m₀ 0 ((f, 32), fun _ => 0) v) {k : Nat} (hk : k ≤ 32) :
    ∃ v', (isa access).Runs code (32 - (writeUpTo ts c f k hk).1.2) ⟨.inside pc, v.state⟩
        ⟨.inside (pc + Isa.offset (fun i => writeCode (ts i)) k), v'.state⟩ ∧
      Between c rp base m₀ k (writeUpTo ts c f k hk) v' := by
  obtain ⟨-, hruns⟩ := Isa.runs_pieces (writeLayout ts c) (fun u => u.1.2) (Between c rp base m₀)
    (fun u i => (ts i).run_budget_le id c u.1)
    (fun i u v hv => write_runs hw i (hs i) (Isa.codeAt_piece hcode i) hv) hv hk
  exact hruns

end Write

/-! ## The second phase -/

section Read

variable {access : Access} {code : List Byte} {v₀ : Machine} {m : Memory}
  (hm : Scratch access m v₀.rsp v₀.mem)
include hm

/-- One program of the second phase, which only reads, does what its layout does. -/
theorem read_runs {ts : Fin 32 → Layout} (i : Fin 32) {pc : Nat}
    (hcode : Isa.CodeAt code pc (readCode (ts i))) {u : RegFile × Nat} {v : Machine}
    (hv : Ready v₀ u.2 u.1 v) :
    ∃ v', (isa access).Runs code (u.2 - (readLayout ts v₀.consts m u i).2) ⟨.inside pc, v.state⟩
        ⟨.inside (pc + (readCode (ts i)).length), v'.state⟩ ∧
      Ready v₀ (readLayout ts v₀.consts m u i).2 (readLayout ts v₀.consts m u i).1 v' := by
  obtain ⟨v', hruns, hleft⟩ :=
    program_runs (computes_body_mem m) hm (computes_xasMem m (ts i).xas8) hcode hv
  exact ⟨v', hruns, hleft.ready⟩

theorem read_upTo {ts : Fin 32 → Layout} {f : RegFile} {pc : Nat}
    (hcode : Isa.CodeAt code pc (List.ofFn fun i => readCode (ts i)).flatten) {v : Machine}
    (hv : Ready v₀ 32 f v) {k : Nat} (hk : k ≤ 32) :
    let u := readUpTo ts v₀.consts m f k hk
    ∃ v', (isa access).Runs code (32 - u.2) ⟨.inside pc, v.state⟩
        ⟨.inside (pc + Isa.offset (fun i => readCode (ts i)) k), v'.state⟩ ∧
      Ready v₀ u.2 u.1 v' := by
  obtain ⟨-, hruns⟩ := Isa.runs_pieces (readLayout ts v₀.consts m) Prod.snd
    (fun _ u => Ready v₀ u.2 u.1) (fun u i => (ts i).run_budget_le (loadWord m) v₀.consts u)
    (fun i u v hv => read_runs hm i (Isa.codeAt_piece hcode i) hv) (u := (f, 32)) hv hk
  exact hruns

end Read

end HashWX.CompilerX86
