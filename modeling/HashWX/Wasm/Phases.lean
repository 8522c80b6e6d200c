import HashWX.Lib.BoundedLoop
import HashWX.Wasm.Context
import HashWX.Wasm.Instructions

/-!
# The two phases of the module

A program is a loop with an up-counting budget, the first phase moves the memory pointer
down by eight words for every program, and the second phase finds it at the start of the
scratchpad again.
-/

namespace HashWX.CompilerWasm

open ByteMemory ForLoop
open Siphash (Word)
open Wasm (Plain Code State Value Exec Exit execAll)

/-! ## Programs -/

section Branch

variable (access : Access) (v : Machine) (f : RegFile) {b : Nat} (hb : b ≤ 32) (flag : Word)

def testInstrs : List Plain := [.localGet 12, .localGet 13, .i64 .or, .i64Const 32, .i64 .and, .i64Eqz]

def countInstrs : List Plain := [.i64Const 1, .localGet 12, .i64 .add, .localSet 12]

include hb

/-- Bit 5 of the count is set when no branch is left. -/
theorem count_or_flag : (BitVec.ofNat 64 (32 - b) ||| flag) &&& 32 = 0 ↔
    b ≠ 0 ∧ (!flag.getLsbD 5) = true := by
  have hspent := flag_or_spent flag hb
  have h32 : (32 : Word) = BitVec.twoPow 64 5 := rfl
  have hne : BitVec.twoPow 64 5 ≠ 0#64 := by decide
  rw [BitVec.or_comm, h32, BitVec.and_twoPow, hspent]
  cases flag.getLsbD 5 <;> by_cases hz : b = 0 <;> simp [hz, hne]

/-- The test of the branch leaves a number that is not zero exactly if the interpreter branches. -/
theorem exec_test : ∃ x : BitVec 32, execAll access testInstrs ((v.enter f b flag).state []) =
    some ((v.enter f b flag).state [.i32 x]) ∧ (x ≠ 0 ↔ b ≠ 0 ∧ (!flag.getLsbD 5) = true) := by
  refine ⟨_, rfl, ?_⟩
  rw [← count_or_flag hb flag]
  show (if (BitVec.ofNat 64 (32 - b) ||| flag) &&& 32 = 0 then (1 : BitVec 32) else 0) ≠ 0 ↔ _
  simp

/-- A branch that is taken counts and leaves for the label of the loop. -/
theorem branch_again (h : b ≠ 0 ∧ (!flag.getLsbD 5) = true) :
    Exec access branch ((v.enter f b flag).state []) (.br 0) ((v.enter f (b - 1) flag).state []) := by
  obtain ⟨x, htest, hx⟩ := exec_test access v f hb flag
  have hcount : execAll access countInstrs ((v.enter f b flag).state []) =
      some ((v.enter f (b - 1) flag).state []) := by
    have hsucc : 1 + BitVec.ofNat 64 (32 - b) = BitVec.ofNat 64 (32 - (b - 1)) := by
      have hsub : 32 - (b - 1) = 1 + (32 - b) := by omega
      rw [hsub, BitVec.ofNat_add]
      rfl
    show some (({ v.enter f b flag with bc := 1 + BitVec.ofNat 64 (32 - b) } : Machine).state []) = _
    rw [hsucc]
    rfl
  exact (Wasm.exec_plains htest).append <|
    .ifExit rfl (hx.mpr h) ((Wasm.exec_plains hcount).append .br)

theorem branch_stop (h : ¬(b ≠ 0 ∧ (!flag.getLsbD 5) = true)) :
    Exec access branch ((v.enter f b flag).state []) .fall ((v.enter f b flag).state []) := by
  obtain ⟨x, htest, hx⟩ := exec_test access v f hb flag
  have hzero : x = 0 := by
    by_contra hne
    exact h (hx.mp hne)
  subst hzero
  exact (Wasm.exec_plains htest).append (.ifZero rfl .done)

end Branch

/-- The instructions of a form do what the instructions of the program mean, with the source
operand taken by `ld`. -/
structure Form.Executes (form : Form) (access : Access) (ld : Word → Word) (v : Machine) : Prop where
  mul (x : Mul) (f b flag) : execAll access (form.mul x) ((v.enter f b flag).state []) =
    some ((v.enter (x.exec ld f) b flag).state [])
  xas (x : Xas) (f b flag) : execAll access (form.xas x) ((v.enter f b flag).state []) =
    some ((v.enter (x.exec ld f) b flag).state [])

/-- In the first phase the operand of an instruction is the source register itself. -/
theorem regForm_executes (access : Access) (v : Machine) : regForm.Executes access id v where
  mul x f b flag := exec_mulReg access x (v.enter f b flag)
  xas x f b flag := exec_xasReg access x (v.enter f b flag)

/-- In the second phase it is the scratchpad word, as long as the scratchpad is in memory. -/
theorem memForm_executes {access : Access} {m : Memory} {v : Machine}
    (hm : Scratch access m (v.mp.setWidth 64) v.mem) (hmp : v.mp.toNat + 2048 ≤ 2 ^ 32)
    (hmm : v.mm = 2040) : memForm.Executes access (loadWord m) v where
  mul x f b flag := exec_mulMem (v := v.enter f b flag) hm hmp hmm x
  xas x f b flag := exec_xasMem (v := v.enter f b flag) hm hmp hmm x

section Loop

variable {form : Form} {access : Access} {ld : Word → Word} {v : Machine}
  (hform : form.Executes access ld v) (t : Layout)
include hform

/-- The instructions in front of the branch are one pass through the layout. -/
theorem Form.Executes.exec_pass (f : RegFile) (b : Nat) (flag : Word) :
    execAll access (rmcg t.rmcg0 ++ form.middle t) ((v.enter f b flag).state []) =
      some ((v.enter (t.pass ld v.consts f).2 b (t.rmcg0.value v.consts f)).state []) := by
  have hrmcg : execAll access (rmcg t.rmcg0) ((v.enter f b flag).state []) =
      some ((v.enter (t.rmcg0.exec v.consts f) b (t.rmcg0.value v.consts f)).state []) :=
    exec_rmcg access t.rmcg0 (v.enter f b flag)
  exact Wasm.execAll_append hrmcg <| Wasm.execAll_append (hform.xas _ _ _ _) <|
    Wasm.execAll_append (hform.mul _ _ _ _) <| Wasm.execAll_append (hform.xas _ _ _ _) <|
    Wasm.execAll_append (hform.mul _ _ _ _) <|
    Wasm.execAll_append (hform.xas _ _ _ _) (hform.mul _ _ _ _)

/-- Out of the loop of a program, or back to its head, as the branch decides. -/
theorem Form.Executes.exec_loop {f : RegFile} {b : Nat} (hb : b ≤ 32) (flag : Word) :
    ∃ flag', Exec access (.loop (form.body t) .done) ((v.enter f b flag).state []) .fall
      ((v.enter (t.run ld v.consts (f, b)).1 (t.run ld v.consts (f, b)).2 flag').state []) := by
  let Out (c : Bool × State) (e : Exit) (s : State) : Prop :=
    if c.1 then Exec access (.loop (form.body t) .done) c.2 e s else Exec access .done c.2 e s
  let T (_ : Nat) (c c' : Bool × State) : Prop := ∀ e s, Out c' e s → Out c e s
  let At (b : Nat) (f : RegFile) (c : Bool × State) : Prop :=
    b ≤ 32 ∧ ∃ flag, c = (true, (v.enter f b flag).state [])
  let Done (b : Nat) (f : RegFile) (c : Bool × State) : Prop :=
    ∃ flag, c = (false, (v.enter (t.xas8.exec ld f) b flag).state [])
  have hagain (b : Nat) (f : RegFile) (c : Bool × State) (hc : At b f c) (hb : b ≠ 0)
      (hpass : (t.pass ld v.consts f).1 = true) :
      ∃ c', T 0 c c' ∧ At (b - 1) (t.pass ld v.consts f).2 c' := by
    obtain ⟨hle, flag, rfl⟩ := hc
    have hfirst := Wasm.exec_plains (hform.exec_pass t f b flag)
    have hbr := hfirst.append ((branch_again access v _ hle _ ⟨hb, hpass⟩).append_br (.plains (form.xas t.xas8)))
    exact ⟨(true, _), fun e s h => .loopAgain hbr h, by omega, _, rfl⟩
  have hstop (b : Nat) (f : RegFile) (c : Bool × State) (hc : At b f c)
      (hpass : ¬(b ≠ 0 ∧ (t.pass ld v.consts f).1 = true)) :
      ∃ c', T 0 c c' ∧ Done b (t.pass ld v.consts f).2 c' := by
    obtain ⟨hle, flag, rfl⟩ := hc
    have hfirst := Wasm.exec_plains (hform.exec_pass t f b flag)
    have hlast := Wasm.exec_plains (hform.xas t.xas8 (t.pass ld v.consts f).2 b (t.rmcg0.value v.consts f))
    have hfall := hfirst.append ((branch_stop access v _ hle _ hpass).append hlast)
    exact ⟨(false, _), fun e s h => .loopFall hfall h, _, rfl⟩
  obtain ⟨c', hrun, flag', rfl⟩ := @BoundedLoop.run_simulated _ _ (t.pass ld v.consts) _ _ T At Done 0 0
    (fun h h' e s hs => h e s (h' e s hs)) hagain hstop b f _ ⟨hb, flag, rfl⟩
  exact ⟨flag', hrun _ _ .done⟩

end Loop

/-! ## The first phase -/

section Stores

variable {access : Access} {v : Machine} {base : Word} {n : Nat}

/-- The stores of a program push R0 first. -/
theorem exec_storeRegs
    (haddr : ∀ j < 8, Wasm.effective v.mp (56 - 8 * j) = wordAddr base (n + (7 - j)))
    (hw : ∀ j < 8, access.writable (wordAddr base (n + (7 - j))) = true) :
    execAll access storeRegs (v.state []) =
      some (({ v with mem := pushWords base (n + 8) (List.ofFn v.file) v.mem } : Machine).state []) := by
  let mems (k : Nat) : Bytes 64 := pushWords base (n + 8) ((List.ofFn v.file).take k) v.mem
  have hstep (j : Fin 8) : execAll access
      [.localGet 1, .localGet (2 + j), .i64Store 3 (56 - 8 * j)]
      (({ v with mem := mems j } : Machine).state []) =
        some (({ v with mem := mems (j + 1) } : Machine).state []) := by
    have hj := j.isLt
    have hlen : ((List.ofFn v.file).take j).length = j := by
      rw [List.length_take, List.length_ofFn]
      omega
    have htake : (List.ofFn v.file).take (j + 1) = (List.ofFn v.file).take j ++ [v.file j] := by
      rw [List.take_succ_eq_append_getElem (by rw [List.length_ofFn]; omega), List.getElem_ofFn]
    have hpush := pushWords_concat base ((List.ofFn v.file).take j) (v.file j) (n + (7 - j)) v.mem
    have hidx : n + (7 - j.val) + 1 + ((List.ofFn v.file).take j).length = n + 8 := by omega
    rw [hidx, ← htake] at hpush
    have hstore := exec_store access { v with mem := mems j } [] 3 (v.file j)
      (haddr j hj) (hw j hj)
    simp only [execAll, exec_get_mp, exec_get_file, bind, Option.bind_some, hstore, mems, hpush]
  have hall := Wasm.execAll_ofFn (fun k => ({ v with mem := mems k } : Machine).state []) hstep
  have hend : (List.ofFn v.file).take 8 = List.ofFn v.file :=
    List.take_of_length_le (by rw [List.length_ofFn])
  simp only [mems, hend] at hall
  exact hall

end Stores

section Write

variable (mp : BitVec 32) (m₀ : Bytes 64)

/-- Where `mp` points in front of program `k`. -/
def mpAt (k : Nat) : BitVec 32 := mp + BitVec.ofNat 32 (64 * (32 - k))

theorem mpAt_zero : 2048 + mp = mpAt mp 0 := BitVec.add_comm 2048 mp

theorem mpAt_all : mpAt mp 32 = mp := BitVec.add_zero mp

theorem mpAt_succ {k : Nat} (hk : k < 32) : mpAt mp k - 64 = mpAt mp (k + 1) := by
  have hsum : 64 * (32 - k) = 64 * (32 - (k + 1)) + 64 := by omega
  rw [mpAt, mpAt, hsum, BitVec.ofNat_add, ← BitVec.add_assoc]
  exact BitVec.add_sub_cancel _ _

variable {mp m₀}

/-- The stores of program `i` go to its eight words, counted from the end of the scratchpad. -/
theorem effective_mpAt (hmp : mp.toNat + 2048 ≤ 2 ^ 32) {i j : Nat} (hi : i < 32) (hj : j < 8) :
    Wasm.effective (mpAt mp (i + 1)) (56 - 8 * j) =
      wordAddr (mp.setWidth 64) (8 * (31 - i) + (7 - j)) := by
  apply BitVec.eq_of_toNat_eq
  simp only [Wasm.effective, mpAt, wordAddr, BitVec.toNat_add, BitVec.toNat_setWidth,
    BitVec.toNat_ofNat]
  omega

/-- The machine in front of program `k` of the first phase; `v₀` is the one in front of all
of them. -/
structure Between (v₀ : Machine) (mp : BitVec 32) (k : Nat) (u : (RegFile × Nat) × Memory)
    (v : Machine) : Prop where
  le : u.1.2 ≤ 32
  eq : ∃ flag, v = { v₀.enter u.1.1 u.1.2 flag with mp := mpAt mp k, mem := v.mem }
  stored : Stored (mp.setWidth 64) v₀.mem k u.2 v.mem

variable {access : Access} {v₀ : Machine} (hmp : mp.toNat + 2048 ≤ 2 ^ 32)
  (hw : ∀ k < 256, access.writable (wordAddr (mp.setWidth 64) k) = true)
include hmp hw

/-- One program of the first phase does what the layout does, and stores R0-R7 behind its run. -/
theorem exec_writeProgram (ts : Fin 32 → Layout) (i : Fin 32) {u : (RegFile × Nat) × Memory}
    {v : Machine} (hv : Between v₀ mp i u v) :
    ∃ v', Exec access (writeProgram (ts i)) (v.state []) .fall (v'.state []) ∧
      Between v₀ mp (i + 1) (writeLayout ts v₀.consts u i) v' := by
  have hi := i.isLt
  obtain ⟨flag, heq⟩ := hv.eq
  have hlower : execAll access lowerMp (v.state []) =
      some (({ v with mp := mpAt mp (i + 1) } : Machine).state []) := by
    have hsub : v.mp - 64 = mpAt mp (i + 1) := by
      rw [heq]
      exact mpAt_succ mp hi
    simp only [lowerMp, execAll, exec_get_mp, exec_const32, exec_sub32, exec_set_mp, hsub, bind,
      Option.bind_some]
  let v₁ : Machine := { v₀ with mp := mpAt mp (i + 1), mem := v.mem }
  have hstart : ({ v with mp := mpAt mp (i + 1) } : Machine) = v₁.enter u.1.1 u.1.2 flag := by
    rw [heq]
    rfl
  rw [hstart] at hlower
  obtain ⟨flag', hloop⟩ := (regForm_executes access v₁).exec_loop (ts i) hv.le flag
  let w := (ts i).run id v₀.consts u.1
  have hstores := @exec_storeRegs access (v₁.enter w.1 w.2 flag') (mp.setWidth 64) (8 * (31 - i))
    (fun j hj => effective_mpAt hmp hi hj) (fun j hj => hw _ (by omega))
  exact ⟨_, (Wasm.exec_plains hlower).append (hloop.append (Wasm.exec_plains hstores)),
    ((ts i).run_budget_le id v₀.consts u.1).trans hv.le, ⟨flag', rfl⟩, hv.stored.push w.1⟩

/-- The first phase, by induction over the programs. -/
theorem exec_writePrograms (ts : Fin 32 → Layout) {f : RegFile} {v : Machine}
    (hv : Between v₀ mp 0 ((f, 32), fun _ => 0) v) :
    ∃ v', Exec access (.concat (List.ofFn fun i => writeProgram (ts i))) (v.state []) .fall
        (v'.state []) ∧ Between v₀ mp 32 (writePhase ts v₀.consts f) v' := by
  let P (k : Nat) (s : State) : Prop := ∃ hk : k ≤ 32, ∃ v,
    s = v.state [] ∧ Between v₀ mp k (writeUpTo ts v₀.consts f k hk) v
  have hstep (i : Fin 32) (s : State) (hs : P i s) :
      ∃ s', Exec access (writeProgram (ts i)) s .fall s' ∧ P (i + 1) s' := by
    obtain ⟨hk, v, rfl, hv⟩ := hs
    obtain ⟨v', hexec, hv'⟩ := exec_writeProgram hmp hw ts i hv
    exact ⟨_, hexec, i.isLt, v', rfl, hv'⟩
  obtain ⟨s, hexec, _, v', rfl, hv'⟩ := Wasm.exec_ofFn P ⟨Nat.zero_le 32, v, rfl, hv⟩ hstep
  exact ⟨v', hexec, hv'⟩

end Write

/-! ## The second phase -/

/-- The second phase only reads, so the scratchpad is the same for all of its programs. -/
theorem exec_readPrograms {access : Access} {m : Memory} {v : Machine}
    (hm : Scratch access m (v.mp.setWidth 64) v.mem) (hmp : v.mp.toNat + 2048 ≤ 2 ^ 32)
    (hmm : v.mm = 2040) (ts : Fin 32 → Layout) (f : RegFile) (flag : Word) :
    ∃ flag', Exec access (.concat (List.ofFn fun i => readProgram (ts i))) ((v.enter f 32 flag).state [])
      .fall ((v.enter (readPhase ts v.consts m f).1 (readPhase ts v.consts m f).2 flag').state []) := by
  let P (k : Nat) (s : State) : Prop := ∃ hk : k ≤ 32, ∃ flag,
    s = (v.enter (readUpTo ts v.consts m f k hk).1 (readUpTo ts v.consts m f k hk).2 flag).state []
  have hstep (i : Fin 32) (s : State) (hs : P i s) :
      ∃ s', Exec access (readProgram (ts i)) s .fall s' ∧ P (i + 1) s' := by
    obtain ⟨hk, flag, rfl⟩ := hs
    obtain ⟨flag', hloop⟩ := (memForm_executes hm hmp hmm).exec_loop (ts i)
      (readUpTo_budget_le ts v.consts m f hk) flag
    exact ⟨_, hloop, i.isLt, flag', rfl⟩
  obtain ⟨s, hexec, _, flag', rfl⟩ := Wasm.exec_ofFn P ⟨Nat.zero_le 32, flag, rfl⟩ hstep
  exact ⟨flag', hexec⟩

end HashWX.CompilerWasm
