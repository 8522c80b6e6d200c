import HashWX.A64.Program
import HashWX.Exec.Phases

/-!
# The two phases in machine code

The programs of a list stand one behind the other, and the machine passes from each to
the next in step with the interpreter. A program of the first phase moves the stack
pointer down by 64 bytes and stores R0-R7 there, two registers at a time.
-/

namespace HashWX.CompilerA64

open A64 ByteMemory Assignments ForLoop
open CodeMachine

section Compile

variable {list : ProgramList} {ts : Fin 32 → Layout} (h : ∀ i : Fin 32, (ts i).Describes list[i])
include h

/-- The code after `k` programs of the first phase. -/
theorem compileRegFirst_eq {k : Nat} (hk : k ≤ 32) : compileRegFirst list k hk =
    some (codePrologue ++ ((List.ofFn fun i => regCode (ts i)).take k).flatten) :=
  forLoopM_append hk (f := fun pos i => compileProgramReg list[i] pos)
    (fun pos i => compileProgramReg_eq (h i) pos) codePrologue

theorem compileMemFirst_eq {k : Nat} (hk : k ≤ 32) : compileMemFirst list k hk =
    some (codePrologue ++ (List.ofFn fun i => regCode (ts i)).flatten ++ codeClearBc ++
      ((List.ofFn fun i => memCode (ts i)).take k).flatten) := by
  have hall : (List.ofFn fun i => regCode (ts i)).take 32 = List.ofFn fun i => regCode (ts i) :=
    List.take_of_length_le (by rw [List.length_ofFn])
  rw [compileMemFirst, compileRegFirst_eq h le_rfl, hall]
  exact forLoopM_append hk (f := fun pos i => compileProgramMem list[i] pos)
    (fun pos i => compileProgramMem_eq (h i) pos) _

end Compile

/-! ## Storing the registers in pairs -/

/-- The registers of a pair. -/
def lo (q : Fin 4) : Fin 8 := ⟨2 * q, by omega⟩
def hi (q : Fin 4) : Fin 8 := ⟨2 * q + 1, by omega⟩

/-- The words that a pair is stored to; R0 stands highest. -/
def pairWords (f : RegFile) (q : Fin 4) : List (Word × Nat) :=
  [(f (hi q), 6 - 2 * q), (f (lo q), 7 - 2 * q)]

/-- The pair that entry `p` of the table stores. -/
def pairOf (p : Fin 7) : Fin 4 := Fin.ofNat 4 (p + 1)

/-- The pairs in the order in which they are stored, the one of the last destination at the end. -/
def allPairs (f : RegFile) (q : Fin 4) : List (Word × Nat) :=
  pairWords f (q + 1) ++ (pairWords f (q + 2) ++ (pairWords f (q + 3) ++ pairWords f q))

theorem pairOf_eq : ∀ q : Fin 4, pairOf ⟨q, by omega⟩ = q + 1 ∧ pairOf ⟨q + 1, by omega⟩ = q + 2 ∧
    pairOf ⟨q + 2, by omega⟩ = q + 3 ∧ pairOf ⟨q + 3, by omega⟩ = q := by decide

/-- The seven words of the template store the four pairs, and three of them again. -/
theorem decode_pair : ∀ p : Fin 7, decode (pairCode p) =
    some (.stp (vreg (hi (pairOf p))) (vreg (lo (pairOf p))) 31
      (BitVec.ofNat 64 (8 * (6 - 2 * (pairOf p).val))), []) := by decide +kernel

/-- A pair without the destination is the same before and after the instruction. -/
theorem pairWords_congr {f g : RegFile} {d : Fin 8} (h : ∀ k ≠ d, f k = g k) {q : Fin 4}
    (hq : q.val ≠ d.val / 2) : pairWords f q = pairWords g q := by
  have hlo : lo q ≠ d := by
    rintro rfl
    simp only [lo] at hq
    omega
  have hhi : hi q ≠ d := by
    rintro rfl
    simp only [hi] at hq
    omega
  rw [pairWords, pairWords, h _ hlo, h _ hhi]

theorem allPairs_lt {f : RegFile} {q : Fin 4} {x : Word × Nat} (hx : x ∈ allPairs f q) : x.2 < 8 := by
  simp only [allPairs, pairWords, List.mem_append, List.mem_cons, List.not_mem_nil, or_false] at hx
  rcases hx with (rfl | rfl) | (rfl | rfl) | (rfl | rfl) | rfl | rfl <;> dsimp only <;> omega

theorem allPairs_nodup (f : RegFile) (q : Fin 4) : ((allPairs f q).map Prod.snd).Nodup := by
  match q with
  | 0 | 1 | 2 | 3 => simp [allPairs, pairWords]

theorem pairWords_subset (f : RegFile) (q q' : Fin 4) : pairWords f q' ⊆ allPairs f q := by
  have hq : q' = q + 1 ∨ q' = q + 2 ∨ q' = q + 3 ∨ q' = q := by
    revert q q'
    decide
  intro x hx
  simp only [allPairs, List.mem_append]
  rcases hq with rfl | rfl | rfl | rfl
  · exact .inl hx
  · exact .inr (.inl hx)
  · exact .inr (.inr (.inl hx))
  · exact .inr (.inr (.inr hx))

/-- Every register is in one of the pairs. -/
theorem mem_allPairs (f : RegFile) (q : Fin 4) (k : Fin 8) : (f k, 7 - k.val) ∈ allPairs f q := by
  apply pairWords_subset f q ⟨k / 2, by omega⟩
  rcases Nat.mod_two_eq_zero_or_one k.val with h | h
  · have hk : k = lo ⟨k / 2, by omega⟩ := Fin.ext (by simp only [lo]; omega)
    have hidx : 7 - k.val = 7 - 2 * (k.val / 2) := by omega
    rw [hidx, pairWords, ← hk]
    exact List.mem_cons_of_mem _ List.mem_cons_self
  · have hk : k = hi ⟨k / 2, by omega⟩ := Fin.ext (by simp only [hi]; omega)
    have hidx : 7 - k.val = 6 - 2 * (k.val / 2) := by omega
    rw [hidx, pairWords, ← hk]
    exact List.mem_cons_self

/-- The eight words hold the registers, R0 highest. -/
theorem load64_allPairs (f : RegFile) (q : Fin 4) (base : Word) (m : Bytes 64) (k : Fin 8) :
    load64 (storeWords base (allPairs f q) m) (wordAddr base (7 - k.val)) = f k := by
  have hload := load64_storeWords base (allPairs_nodup f q)
    (fun _ hx => by have := allPairs_lt hx; omega) (m := m) _ (mem_allPairs f q k)
  dsimp only at hload
  exact hload

section Store

variable {access : Access} {code : List Byte}

/-- A pair goes to the two words that start where the code says. -/
theorem exec_pair (q : Fin 4) {s : State} (hsp : s.sp.toNat % 16 = 0)
    (hw : ∀ k < 8, access.writable (wordAddr s.sp k) = true) :
    (isa access).exec (.stp (vreg (hi q)) (vreg (lo q)) 31 (BitVec.ofNat 64 (8 * (6 - 2 * q.val)))) s =
      some (.fall, { s with mem := storeWords s.sp (pairWords (file s.x) q) s.mem }) := by
  have hbase : s.base 31 = some s.sp := if_neg fun h => h.2 hsp
  have hnext : 6 - 2 * q.val + 1 = 7 - 2 * q.val := by omega
  have hexec := exec_stp hbase (vreg (hi q)) (vreg (lo q)) (6 - 2 * q.val) (hw _ (by omega))
    (hw _ (by omega))
  rw [hnext, State.get, if_neg (vreg_ne_31 _), State.get, if_neg (vreg_ne_31 _)] at hexec
  exact hexec

/-- One store of a pair, as a run of one instruction. -/
theorem pair_runs (p : Fin 7) {s : State} (hsp : s.sp.toNat % 16 = 0)
    (hw : ∀ k < 8, access.writable (wordAddr s.sp k) = true) {pc : Nat}
    (hcode : Isa.CodeAt code pc (pairCode p)) :
    (isa access).Runs code 0 ⟨.inside pc, s⟩ ⟨.inside (pc + (pairCode p).length),
      { s with mem := storeWords s.sp (pairWords (file s.x) (pairOf p)) s.mem }⟩ :=
  Isa.runs_fall hcode (encodes (decode_pair p)) (exec_pair (pairOf p) hsp hw)

/-- Code that carries out assignments, as a run. -/
theorem Does.runs {ctx : Word → Bytes 64 → Prop} {bytes : List Byte} {ops : List Op}
    (h : Does access ctx bytes ops) {s : State} (hs : Holds ctx s) {pc : Nat}
    (hcode : Isa.CodeAt code pc bytes) :
    (isa access).Runs code 0 ⟨.inside pc, s⟩ ⟨.inside (pc + bytes.length), assignAll ops s⟩ := by
  obtain ⟨is, his, hexec⟩ := h.straight
  exact Isa.runs_execAll his hcode (hexec s hs)

/-- Instruction 8 runs between the stores, and the stores that come before it leave out the
pair of its destination. -/
theorem store_runs (x : Xas) (hx : x.src ≠ x.dst) {s : State} (hs : Holds (fun _ _ => True) s)
    (hsp : s.sp.toNat % 16 = 0) (hw : ∀ k < 8, access.writable (wordAddr s.sp k) = true) {pc : Nat}
    (hcode : Isa.CodeAt code pc (storeCode x)) :
    (isa access).Runs code 0 ⟨.inside pc, s⟩ ⟨.inside (pc + (storeCode x).length),
      { assignAll [preXas x, xas x (vreg x.src)] s with
        mem := storeWords s.sp (allPairs (x.exec id (file s.x)) ⟨x.dst / 2, by omega⟩) s.mem }⟩ := by
  unfold storeCode at hcode ⊢
  obtain ⟨hcode, hpair3⟩ := Isa.codeAt_append.mp hcode
  obtain ⟨hcode, hpair2⟩ := Isa.codeAt_append.mp hcode
  obtain ⟨hcode, hxas⟩ := Isa.codeAt_append.mp hcode
  obtain ⟨hcode, hpair1⟩ := Isa.codeAt_append.mp hcode
  obtain ⟨hpair0, hpre⟩ := Isa.codeAt_append.mp hcode
  let f := file s.x
  let s₂ := assignAll [preXas x] s
  let s₄ := assignAll [preXas x, xas x (vreg x.src)] s
  have hdoesPre : Does access (fun _ _ => True) (preXasCode x) [preXas x] := does_preXas x
  have hdoes : Does access (fun _ _ => True) (xasCode x x.src) [xas x (vreg x.src)] :=
    does_xas x (x.src.castLE (by decide))
  -- The memory of the state plays no role for the assignments.
  have hholds (mem : Bytes 64) : Holds (fun _ _ => True) { s with mem := mem } :=
    ⟨hs.nine, hs.thirtyThree, trivial⟩
  have hholds₂ (mem : Bytes 64) : Holds (fun _ _ => True) { s₂ with mem := mem } :=
    (hholds mem).of_fixed (fixed_assignAll hdoesPre.work _)
  have hfile₂ (k : Fin 8) (hk : k ≠ x.dst) : file s₂.x k = x.exec id f k := by
    rw [Xas.exec_of_ne id hk]
    exact Assign.run_of_ne (fun he => hk ((vreg_inj _ _).mp he)) s.x
  have hfile₄ : file s₄.x = x.exec id f := file_xas s.x x hx
  let q : Fin 4 := ⟨x.dst / 2, by omega⟩
  let m₁ := storeWords s.sp (pairWords f (q + 1)) s.mem
  let m₂ := storeWords s.sp (pairWords (file s₂.x) (q + 2)) m₁
  let m₃ := storeWords s.sp (pairWords (file s₄.x) (q + 3)) m₂
  let m₄ := storeWords s.sp (pairWords (file s₄.x) q) m₃
  have hmem : m₄ = storeWords s.sp (allPairs (x.exec id f) q) s.mem := by
    have hne : ∀ q : Fin 4, (q + 1).val ≠ q ∧ (q + 2).val ≠ q := by decide
    have h₁ : pairWords f (q + 1) = pairWords (x.exec id f) (q + 1) :=
      pairWords_congr (fun k hk => (Xas.exec_of_ne id hk).symm) (hne q).1
    have h₂ : pairWords (file s₂.x) (q + 2) = pairWords (x.exec id f) (q + 2) :=
      pairWords_congr hfile₂ (hne q).2
    simp only [m₄, m₃, m₂, m₁, h₁, h₂, hfile₄, allPairs, storeWords_append]
  obtain ⟨hq0, hq1, hq2, hq3⟩ := pairOf_eq q
  simp only [List.length_append, ← Nat.add_assoc] at hpre hpair1 hxas hpair2 hpair3 ⊢
  have hrun0 := pair_runs ⟨x.dst / 2, by omega⟩ hsp hw hpair0
  have hrunPre := hdoesPre.runs (hholds m₁) hpre
  have hrun1 := pair_runs (s := { s₂ with mem := m₁ }) ⟨x.dst / 2 + 1, by omega⟩ hsp hw hpair1
  have hrunXas := hdoes.runs (hholds₂ m₂) hxas
  have hrun2 := pair_runs (s := { s₄ with mem := m₂ }) ⟨x.dst / 2 + 2, by omega⟩ hsp hw hpair2
  have hrun3 := pair_runs (s := { s₄ with mem := m₃ }) ⟨x.dst / 2 + 3, by omega⟩ hsp hw hpair3
  rw [hq0] at hrun0
  rw [hq1] at hrun1
  rw [hq2] at hrun2
  rw [hq3] at hrun3
  have hruns := hrun0.trans (hrunPre.trans (hrun1.trans (hrunXas.trans (hrun2.trans hrun3))))
  rw [← hmem]
  exact hruns

end Store

/-! ## The first phase -/

theorem encodes_subSp (access : Access) : (isa access).Encodes (.addSubImm .sub 31 31 64) codeSubSp :=
  encodes rfl

/-- The stack pointer stays aligned. -/
theorem wordAddr_aligned {base : Word} (hbase : base.toNat % 16 = 0) (k : Nat) :
    (wordAddr base (8 * k)).toNat % 16 = 0 := by
  have hdvd : 16 ∣ 2 ^ 64 := by decide
  rw [wordAddr, BitVec.toNat_add, BitVec.toNat_ofNat, Nat.mod_mod_of_dvd _ hdvd, Nat.add_mod,
    Nat.mod_mod_of_dvd _ hdvd, hbase]
  omega

theorem wordAddr_sub (base : Word) (k : Nat) : wordAddr base (k + 8) - 64 = wordAddr base k := by
  rw [wordAddr, wordAddr, Nat.mul_add, BitVec.ofNat_add, ← BitVec.add_assoc]
  exact BitVec.add_sub_cancel _ _

/-- The loop of a program of the first phase. -/
theorem regLoop_runs (access : Access) {code : List Byte} {t : Layout} (hs : t.Shuffled) {s₁ : State}
    (hctx : Holds (fun _ _ => True) s₁) {pc : Nat}
    (hcode : Isa.CodeAt code pc (loopCode (regFront t) (emitMul t.mul6.dst t.mul6.src)))
    {b : Nat} {f : RegFile} {s : State} (h : Head s₁ b f s) :
    let u := BoundedLoop.run (t.pass id (consts s₁)) b f
    ∃ s', (isa access).Runs code (b - u.2) ⟨.inside pc, s⟩
      ⟨.inside (pc + ((regFront t).length + 16)), s'⟩ ∧ Head s₁ u.2 u.1 s' := by
  intro u
  have hbeq : decode (emitBeq ((regFront t).length + 12) 0) =
      some (.branch .eq (-((regFront t).length + 12 : Nat)), []) := by
    rw [regFront_length]
    exact decode_beq.1
  have hsplit : (regSchedule t).dropLast ++ [mul t.mul6 (vreg t.mul6.src)] = regSchedule t := rfl
  have hspec (x : Fin 32 → Word) : Scheduled t id x
      (runAll ((regSchedule t).dropLast ++ [mul t.mul6 (vreg t.mul6.src)]) x) ∧ True := by
    rw [hsplit]
    exact ⟨regSchedule_spec hs x, trivial⟩
  obtain ⟨s', hruns, hhead, -⟩ := loop_runs (Q := fun _ => True) (does_regFront t) (does_regLast t)
    ⟨vreg_ne_count _, vreg_ne_count _⟩ (tmp_ne_vreg _ _) hspec (fun _ _ _ => trivial) hctx
    (emitMul_length _ _) hbeq hcode h
  exact ⟨s', hruns, hhead⟩

section Write

variable {access : Access} {code : List Byte} (s₀ : State) (base : Word)

/-- The machine in front of program `k` of the first phase. Outside of the scratchpad the
memory is as it was at the start. -/
structure Between (k : Nat) (u : (RegFile × Nat) × Memory) (s : State) : Prop where
  le : u.1.2 ≤ 32
  count : s.x countReg = BitVec.ofNat 64 (32 - u.1.2)
  file : file s.x = u.1.1
  kept : ∀ r, ¬ Work r → r ≠ countReg → s.x r = s₀.x r
  sp : s.sp = wordAddr base (8 * (32 - k))
  filled : Filled k (fun a => some (load64 s.mem (wordAddr base a))) u.2
  frame : ∀ a, (∀ i < 256, Apart 8 a (wordAddr base i)) → load64 s.mem a = load64 s₀.mem a

variable {s₀ base} (hten : s₀.x 10 = 9 ∧ s₀.x 11 = 33) (hbase : base.toNat % 16 = 0)
  (hw : ∀ k < 256, access.writable (wordAddr base k) = true)
include hten

theorem holds_of_kept {s : State} (h : ∀ r, ¬ Work r → r ≠ countReg → s.x r = s₀.x r) :
    Holds (fun _ _ => True) s := by
  have h10 : ¬ Work 10 ∧ (10 : Reg) ≠ countReg := by unfold Work; decide
  have h11 : ¬ Work 11 ∧ (11 : Reg) ≠ countReg := by unfold Work; decide
  exact ⟨(h 10 h10.1 h10.2).trans hten.1, (h 11 h11.1 h11.2).trans hten.2, trivial⟩

include hbase hw

/-- One program of the first phase does what its layout does, and the scratchpad grows by its words. -/
theorem write_runs {ts : Fin 32 → Layout} (i : Fin 32) (hs : (ts i).Shuffled) {pc : Nat}
    (hcode : Isa.CodeAt code pc (regCode (ts i))) {u : (RegFile × Nat) × Memory} {s : State}
    (h : Between s₀ base i u s) :
    ∃ s', (isa access).Runs code (u.1.2 - (writeLayout ts (consts s₀) u i).1.2) ⟨.inside pc, s⟩
        ⟨.inside (pc + (regCode (ts i)).length), s'⟩ ∧
      Between s₀ base (i + 1) (writeLayout ts (consts s₀) u i) s' := by
  have hi := i.isLt
  unfold regCode at hcode ⊢
  obtain ⟨hsub, hcode⟩ := Isa.codeAt_append.mp hcode
  obtain ⟨hloop, hstore⟩ := Isa.codeAt_append.mp hcode
  -- The stack pointer moves down once, in front of the loop.
  have hexec : (isa access).exec (.addSubImm .sub 31 31 64) s = some (.fall, { s with sp := s.sp - 64 }) :=
    rfl
  have hruns₁ := Isa.runs_fall hsub (encodes_subSp access) hexec
  have hsp : s.sp - 64 = wordAddr base (8 * (31 - i)) := by
    have htop : 8 * (32 - i.val) = 8 * (31 - i) + 8 := by omega
    rw [h.sp, htop, wordAddr_sub]
  rw [hsp] at hruns₁
  let s₁ : State := { s with sp := wordAddr base (8 * (31 - i)) }
  have hconsts : consts s₁ = consts s₀ :=
    funext fun j => h.kept _ (not_work_creg j).1 (not_work_creg j).2
  have hholds : Holds (fun _ _ => True) s₁ := holds_of_kept hten h.kept
  have hstart : Head s₁ u.1.2 u.1.1 s₁ := ⟨h.le, h.count, h.file, Fixed.refl s₁⟩
  obtain ⟨s₂, hruns₂, hhead⟩ := regLoop_runs access hs hholds hloop hstart
  rw [hconsts] at hruns₂ hhead
  rw [loopCode_length] at hstore
  have hsp₂ : s₂.sp = wordAddr base (8 * (31 - i)) := hhead.fixed.sp
  have hbase₂ (k : Nat) : wordAddr s₂.sp k = wordAddr base (8 * (31 - i) + k) := by
    rw [hsp₂, wordAddr_add]
  have hruns₃ := store_runs (ts i).xas8 (hs.src_ne_dst 6) (hholds.of_fixed hhead.fixed)
    (by rw [hsp₂]; exact wordAddr_aligned hbase (31 - i))
    (fun k hk => by rw [hbase₂]; exact hw _ (by omega)) hstore
  let g := ((ts i).run id (consts s₀) u.1).1
  let q : Fin 4 := ⟨(ts i).xas8.dst / 2, by omega⟩
  let ops := [preXas (ts i).xas8, xas (ts i).xas8 (vreg (ts i).xas8.src)]
  let s₃ : State := { assignAll ops s₂ with mem := storeWords s₂.sp (allPairs g q) s₂.mem }
  have hfile : file s₃.x = g :=
    (file_xas s₂.x (ts i).xas8 (hs.src_ne_dst 6)).trans (congrArg _ hhead.file)
  have hkeep (r : Reg) (hr : r ≠ vreg (ts i).xas8.dst) : s₃.x r = s₂.x r := by
    have hne : ∀ a ∈ ops, r ≠ a.dst := by simp [ops, hr]
    exact runAll_of_ne hne s₂.x
  have hold (a : Word) (ha : ∀ k, 8 * (31 - i.val) ≤ k → k < 8 * (31 - i.val) + 8 →
      Apart 8 a (wordAddr base k)) : load64 s₃.mem a = load64 s.mem a := by
    refine (load64_storeWords_of_apart fun x hx => ?_).trans (congrArg (load64 · a) hhead.fixed.mem)
    have hlt := allPairs_lt hx
    rw [hbase₂]
    exact ha _ (by omega) (by omega)
  have hnew (j : Fin 8) : load64 s₃.mem (wordAddr base (255 - 8 * i - j)) = g j := by
    have hidx : 255 - 8 * i.val - j.val = 8 * (31 - i) + (7 - j) := by omega
    rw [hidx, ← hbase₂]
    exact load64_allPairs g q s₂.sp s₂.mem j
  refine ⟨s₃, ?_, hhead.le, ?_, hfile, fun r hr hc => ?_, ?_, h.filled.store (fun a ha => ?_) fun j => ?_,
    fun a ha => ?_⟩
  · rw [hhead.file] at hruns₃
    have hruns := hruns₁.trans (hruns₂.trans hruns₃)
    rw [Nat.zero_add, Nat.add_zero] at hruns
    rw [List.length_append, List.length_append, loopCode_length, ← Nat.add_assoc, ← Nat.add_assoc]
    exact hruns
  · exact (hkeep countReg (count_ne_vreg _)).trans hhead.count
  · rw [hkeep r fun he => hr (he ▸ work_vreg _), hhead.fixed.x r hr hc]
    exact h.kept r hr hc
  · rw [show s₃.sp = s₂.sp from rfl, hsp₂]
    exact congrArg (wordAddr base) (show 8 * (31 - i.val) = 8 * (32 - (i + 1)) by omega)
  · have halen := a.isLt
    exact congrArg some (hold _ fun k hk hk' => apart_wordAddr base (by omega) (by omega) (by omega))
  · exact congrArg some (hnew j)
  · exact (hold a fun k hk hk' => ha k (by omega)).trans (h.frame a ha)

/-- The first `k` programs of the first phase. The number of jumps is the number of
branches that they have spent. -/
theorem write_upTo {ts : Fin 32 → Layout} (hs : ∀ i, (ts i).Shuffled) {f : RegFile} {pc : Nat}
    (hcode : Isa.CodeAt code pc (List.ofFn fun i => regCode (ts i)).flatten) {s : State}
    (h : Between s₀ base 0 ((f, 32), fun _ => 0) s) {k : Nat} (hk : k ≤ 32) :
    ∃ s', (isa access).Runs code (32 - (writeUpTo ts (consts s₀) f k hk).1.2) ⟨.inside pc, s⟩
        ⟨.inside (pc + Isa.offset (fun i => regCode (ts i)) k), s'⟩ ∧
      Between s₀ base k (writeUpTo ts (consts s₀) f k hk) s' := by
  obtain ⟨-, hruns⟩ := Isa.runs_pieces (φ := id) (writeLayout ts (consts s₀)) (fun u => u.1.2)
    (Between s₀ base) (fun u i => (ts i).run_budget_le id (consts s₀) u.1)
    (fun i u v hv => write_runs hten hbase hw i (hs i) (Isa.codeAt_piece hcode i) hv) h hk
  exact hruns

end Write

/-! ## The second phase -/

section Read

variable {access : Access} {code : List Byte} {s₀ : State} {m : Memory}
  (hctx : Holds (AlignedScratch access m) s₀)
include hctx

/-- One program of the second phase, which only reads, does what its layout does. -/
theorem read_runs {ts : Fin 32 → Layout} (i : Fin 32) (hs : (ts i).Shuffled) {pc : Nat}
    (hcode : Isa.CodeAt code pc (memCode (ts i))) {u : RegFile × Nat} {s : State}
    (h : Head s₀ u.2 u.1 s) :
    ∃ s', (isa access).Runs code (u.2 - (readLayout ts (consts s₀) m u i).2) ⟨.inside pc, s⟩
        ⟨.inside (pc + (memCode (ts i)).length), s'⟩ ∧
      Head s₀ (readLayout ts (consts s₀) m u i).2 (readLayout ts (consts s₀) m u i).1 s' := by
  unfold memCode at hcode ⊢
  obtain ⟨hloop, hlast⟩ := Isa.codeAt_append.mp hcode
  have hbeq : decode (emitBeq ((memFront (ts i)).length + 12) 0) =
      some (.branch .eq (-((memFront (ts i)).length + 12 : Nat)), []) := by
    rw [memFront_length]
    exact decode_beq.2
  let Q (x : Fin 32 → Word) : Prop := x (tmp 3) = loadWord m (file x (ts i).xas8.src)
  have hQ (x : Fin 32 → Word) (v : Word) (hx : Q x) : Q (Function.update x countReg v) := by
    show Function.update x countReg v (tmp 3) = _
    rw [file_update_count, Function.update_of_ne (tmp_ne_count 3)]
    exact hx
  have hsplit : (memSchedule (ts i) (loadWord m)).dropLast ++ [mul (ts i).mul6 (tmp 2)] =
    memSchedule (ts i) (loadWord m) := rfl
  have hspec (x : Fin 32 → Word) : Scheduled (ts i) (loadWord m) x
      (runAll ((memSchedule (ts i) (loadWord m)).dropLast ++ [mul (ts i).mul6 (tmp 2)]) x) ∧
        Q (runAll ((memSchedule (ts i) (loadWord m)).dropLast ++ [mul (ts i).mul6 (tmp 2)]) x) := by
    rw [hsplit]
    exact memSchedule_spec hs x (loadWord m)
  obtain ⟨s₁, hruns₁, hhead, hq⟩ := loop_runs (does_memFront (ts i) m) (does_memLast (ts i))
    ⟨vreg_ne_count _, tmp_ne_count _⟩ (tmp_ne_vreg _ _) hspec hQ hctx (emitMul_length _ _) hbeq hloop h
  rw [loopCode_length] at hlast
  let ops := [preXas (ts i).xas8, xas (ts i).xas8 (tmp 3)]
  have hdoes : Does access (AlignedScratch access m)
      (preXasCode (ts i).xas8 ++ xasCode (ts i).xas8 17) ops :=
    (does_preXas (ts i).xas8).append (does_xas (ts i).xas8 17)
  have hruns₂ := hdoes.runs (hctx.of_fixed hhead.fixed) hlast
  have hfile : file (assignAll ops s₁).x = ((ts i).run (loadWord m) (consts s₀) u).1 :=
    (file_xas_tmp (loadWord m) s₁.x (ts i).xas8 3 hq).trans (congrArg _ hhead.file)
  have hcount : (assignAll ops s₁).x countReg = s₁.x countReg := by
    have hne : ∀ a ∈ ops, countReg ≠ a.dst := by simp [ops]
    exact runAll_of_ne hne s₁.x
  refine ⟨assignAll ops s₁, ?_, hhead.le, hcount.trans hhead.count, hfile,
    hhead.fixed.trans (fixed_assignAll hdoes.work s₁)⟩
  have hlength : ∀ bytes, (loopCode (memFront (ts i)) (emitMul (ts i).mul6.dst 16) ++ bytes).length =
      (memFront (ts i)).length + 16 + bytes.length := fun bytes => by
    rw [List.length_append, loopCode_length]
  rw [hlength, ← Nat.add_assoc]
  exact hruns₁.trans hruns₂

/-- The first `k` programs of the second phase. -/
theorem read_upTo {ts : Fin 32 → Layout} (hs : ∀ i, (ts i).Shuffled) {f : RegFile} {pc : Nat}
    (hcode : Isa.CodeAt code pc (List.ofFn fun i => memCode (ts i)).flatten) {s : State}
    (h : Head s₀ 32 f s) {k : Nat} (hk : k ≤ 32) :
    let u := readUpTo ts (consts s₀) m f k hk
    ∃ s', (isa access).Runs code (32 - u.2) ⟨.inside pc, s⟩
        ⟨.inside (pc + Isa.offset (fun i => memCode (ts i)) k), s'⟩ ∧ Head s₀ u.2 u.1 s' := by
  obtain ⟨-, hruns⟩ := Isa.runs_pieces (φ := id) (readLayout ts (consts s₀) m) Prod.snd
    (fun _ u => Head s₀ u.2 u.1) (fun u i => (ts i).run_budget_le (loadWord m) (consts s₀) u)
    (fun i u s hs' => read_runs hctx i (hs i) (Isa.codeAt_piece hcode i) hs') (u := (f, 32)) h hk
  exact hruns

end Read

end HashWX.CompilerA64
