import HashWX.Exec.Refinement

/-!
# The two phases of the interpreter

The first phase fills the scratchpad from the end, eight words for each program, so
after `k` programs the last `8 * k` words are known and the rest may hold anything.
After thirty-two nothing is left of the initial contents.
-/

namespace HashWX

open Siphash FinArray ForLoop

/-! ## The scratchpad -/

/-- The words that the first `k` programs have stored read back as `mem` has them. -/
def Filled (k : Nat) (read : Fin 256 → Option Word) (mem : Memory) : Prop :=
  ∀ a : Fin 256, 256 - 8 * k ≤ a.val → read a = some (mem a)

theorem filled_zero (read : Fin 256 → Option Word) (mem : Memory) : Filled 0 read mem := by
  intro a ha
  have := a.isLt
  omega

/-- Storing the registers of program `i` extends the known part by eight words. -/
theorem Filled.store {read read' : Fin 256 → Option Word} {mem : Memory} {i : Fin 32} {f : RegFile}
    (h : Filled i read mem) (hold : ∀ a : Fin 256, 256 - 8 * i.val ≤ a.val → read' a = read a)
    (hnew : ∀ j : Fin 8, read' (topIndex i j) = some (f j)) :
    Filled (i + 1) read' (storeFile i f mem) := by
  intro a ha
  by_cases hi : a.val / 8 = 31 - i.val
  · have hj : topIndex i ⟨7 - a.val % 8, by omega⟩ = a := Fin.ext (by simp only [topIndex]; omega)
    have hread := hnew ⟨7 - a.val % 8, by omega⟩
    rw [hj] at hread
    rw [storeFile, if_pos hi]
    exact hread
  · have ha' : 256 - 8 * i.val ≤ a.val := by omega
    rw [storeFile, if_neg hi, hold a ha', h a ha']

/-- All words are known after the last program. -/
theorem Filled.all {read : Fin 256 → Option Word} {mem : Memory} (h : Filled 32 read mem)
    (a : Fin 256) : read a = some (mem a) := h a (by omega)

/-- What a machine has in the place of a known word. -/
theorem Filled.word {k : Nat} {words : Fin 256 → Word} {mem : Memory}
    (h : Filled k (fun a => some (words a)) mem) {a : Fin 256} (ha : 256 - 8 * k ≤ a.val) :
    words a = mem a := Option.some.inj (h a ha)

/-- What the array of the interpreter has there. -/
theorem Filled.entry {k : Nat} {array : Scratchpad} {mem : Memory}
    (h : Filled k (fun a => load array a) mem) {a : Fin 256} (ha : 256 - 8 * k ≤ a.val) :
    array[a] = mem a := Option.some.inj ((load_val array a).symm.trans (h a ha))

theorem memIndex_eq (i : Fin 32) (j : Fin 8) : memIndex i j = 255 - 8 * i - j := by
  have hi := i.isLt
  have hj := j.isLt
  simp only [memIndex]
  bv_omega

/-- Every store of the first phase is in bounds. -/
theorem memIndex_lt (i : Fin 32) (j : Fin 8) : memIndex i j < 256 := by
  rw [memIndex_eq]
  omega

/-- The eight stores of program `i`: the new words, and the old ones above them. -/
theorem storeRegs_eq (i : Fin 32) (f : RegFile) (c : Consts) (mem : Scratchpad) :
    ∃ mem', storeRegs i (regs f c) mem = some mem' ∧
      (∀ j : Fin 8, load mem' (255 - 8 * i - j) = some (f j)) ∧
      ∀ a : Fin 256, 256 - 8 * i.val ≤ a.val → load mem' a = load mem a := by
  have hloop := forLoopM_invariant (n := 8)
    (fun k (mem' : Scratchpad) => (∀ j : Fin 8, j.val < k → load mem' (255 - 8 * i - j) = some (f j)) ∧
      ∀ a : Fin 256, 256 - 8 * i.val ≤ a.val → load mem' a = load mem a)
    (f := fun mem j => do store mem (memIndex i j) (← load (regs f c) j)) (a := mem)
    ⟨fun j hj => absurd hj (Nat.not_lt_zero _), fun _ _ => rfl⟩ ?_
  · obtain ⟨mem', hrun, hnew, hold⟩ := hloop
    exact ⟨mem', hrun, fun j => hnew j j.isLt, hold⟩
  · rintro j mem' ⟨hnew, hold⟩
    have hidx : 255 - 8 * i.val - j.val < 256 := by omega
    refine ⟨mem'.set (255 - 8 * i.val - j.val) (f j), ?_, fun j' hj' => ?_, fun a ha => ?_⟩
    · simp only [load_regs, bind, Option.bind_some, memIndex_eq, store_of_lt mem' hidx]
    · by_cases hjj : j' = j
      · subst hjj
        rw [load_of_lt _ hidx, Vector.getElem_set_self]
      · have hlt : j'.val < j.val := by
          have := fun h => hjj (Fin.ext h)
          omega
        have hidx' : 255 - 8 * i.val - j'.val < 256 := by omega
        rw [← hnew j' hlt, load_of_lt _ hidx', load_of_lt _ hidx',
          Vector.getElem_set_ne _ _ (by omega)]
    · rw [← hold a ha, load_of_lt _ a.isLt, load_of_lt _ a.isLt, Vector.getElem_set_ne _ _ (by omega)]

/-- A word register always addresses the scratchpad, and a full one gives the word. -/
theorem memOperand_eq {mem : Scratchpad} {m : Memory} (h : ∀ a : Fin 256, load mem a = some (m a)) :
    memOperand mem = total (loadWord m) := by
  funext a
  exact h (Fin.ofNat 256 (a.toNat / 8))

/-! ## The phases -/

section Phases

variable {list : ProgramList} {ts : Fin 32 → Layout} (h : ∀ i : Fin 32, (ts i).Describes list[i])
  (c : Consts)
include h

/-- What is known before program `k` of the first phase. -/
structure WriteState (c : Consts) (k : Nat) (s : Regs × Nat × Scratchpad)
    (u : (RegFile × Nat) × Memory) : Prop where
  registers : s.1 = regs u.1.1 c
  budget : s.2.1 = u.1.2
  filled : Filled k (fun a => load s.2.2 a) u.2

/-- One program of the first phase. -/
theorem write_step (i : Fin 32) (s : Regs × Nat × Scratchpad) (u : (RegFile × Nat) × Memory)
    (hs : WriteState c i s u) :
    ∃ s', writeProgram list s i = some s' ∧ WriteState c (i + 1) s' (writeLayout ts c u i) := by
  obtain ⟨r, b, mem⟩ := s
  obtain ⟨rfl, rfl, hfilled⟩ := hs
  obtain ⟨mem', hstore, hnew, hold⟩ := storeRegs_eq i ((ts i).run id c u.1).1 c mem
  have hrun : programExecuteReg list[i] (regs u.1.1 c) u.1.2 =
      some (regs ((ts i).run id c u.1).1 c, ((ts i).run id c u.1).2) :=
    programExecute_eq (h i) id c u.1
  refine ⟨(regs ((ts i).run id c u.1).1 c, ((ts i).run id c u.1).2, mem'), ?_, rfl, rfl,
    Filled.store hfilled hold hnew⟩
  simp only [writeProgram, hrun, bind, Option.bind_some, hstore, pure]

theorem read_step {mem : Scratchpad} {m : Memory} (hmem : ∀ a : Fin 256, load mem a = some (m a))
    (i : Fin 32) (u : RegFile × Nat) :
    readProgram list mem (regs u.1 c, u.2) i =
      some (regs (readLayout ts c m u i).1 c, (readLayout ts c m u i).2) := by
  rw [readProgram, programExecuteMem, memOperand_eq hmem]
  exact programExecute_eq (h i) (loadWord m) c u

/-- The first `k` programs, with what they have stored. -/
theorem writeFirst_eq (f : RegFile) (mem : Scratchpad) {k : Nat} (hk : k ≤ 32) :
    ∃ mem', writeFirst list k hk (regs f c) mem =
        some (regs (writeUpTo ts c f k hk).1.1 c, (writeUpTo ts c f k hk).1.2, mem') ∧
      Filled k (fun a => load mem' a) (writeUpTo ts c f k hk).2 := by
  have hinit : WriteState c 0 (regs f c, 32, mem) ((f, 32), fun _ => 0) :=
    ⟨rfl, rfl, filled_zero _ _⟩
  obtain ⟨⟨r, b, mem'⟩, hwrite, hr, hb, hfilled⟩ := forLoopM_relation (WriteState c) hinit
    fun i s u => write_step h c (i.castLE hk) s u
  simp only at hr hb
  rw [hr, hb] at hwrite
  exact ⟨mem', hwrite, hfilled⟩

theorem readFirst_eq {mem : Scratchpad} {m : Memory} (hmem : ∀ a : Fin 256, load mem a = some (m a))
    (f : RegFile) {k : Nat} (hk : k ≤ 32) :
    readFirst list mem k hk (regs f c) =
      some (regs (readUpTo ts c m f k hk).1 c, (readUpTo ts c m f k hk).2) := by
  obtain ⟨s, hread, hs⟩ := forLoopM_relation (n := k)
    (fun _ (s : Regs × Nat) (u : RegFile × Nat) => s = (regs u.1 c, u.2))
    (f := fun s i => readProgram list mem s (i.castLE hk))
    (g := fun s i => readLayout ts c m s (i.castLE hk)) (a := (regs f c, 32)) (b := (f, 32)) rfl
    fun i _ u hs => ⟨_, hs ▸ read_step h c hmem (i.castLE hk) u, rfl⟩
  rw [hs] at hread
  exact hread

/-- **The interpreter computes the meaning of the layouts**, whatever the stack array held. -/
theorem hashwxProgramListExecute_eq (f : RegFile) (mem : Scratchpad) :
    hashwxProgramListExecute list (regs f c) mem = some (regs (executeLayouts ts c f) c) := by
  obtain ⟨mem', hwrite, hfilled⟩ := writeFirst_eq h c f mem le_rfl
  simp only [hashwxProgramListExecute_eq_first, hwrite, bind, Option.bind_some,
    readFirst_eq h c hfilled.all, pure, executeLayouts]
  rfl

end Phases

end HashWX
