import HashWX.Isa.X86

/-!
# Blocks of moves

Sequences of pushes, pops, loads and stores, as the entry and the exit of a function
have them.
-/

namespace X86

open ByteMemory CodeMachine

variable (access : Access) {s : State} {base : Word}

@[simp] theorem State.setReg_regs_self (s : State) (r : Reg) (v : Word) :
    (s.setReg r v).regs r = v := by
  simp [State.setReg]

theorem State.setReg_regs_of_ne (s : State) {r r' : Reg} (v : Word) (h : r' ≠ r) :
    (s.setReg r v).regs r' = s.regs r' := by
  simp [State.setReg, h]

@[simp] theorem State.setReg_mem (s : State) (r : Reg) (v : Word) : (s.setReg r v).mem = s.mem := rfl

/-- A push stores one word below the stack pointer. -/
theorem exec_push {n : Nat} {r : Reg} (hsp : s.regs rsp = wordAddr base (n + 1))
    (hw : access.writable (wordAddr base n) = true) :
    (isa access).exec (.push r) s = some (.fall,
      ({ s with mem := store64 s.mem (wordAddr base n) (s.regs r) } : State).setReg rsp
        (wordAddr base n)) := by
  have hdown : s.regs rsp - 8 = wordAddr base n := by
    rw [hsp, wordAddr_succ]
    exact add_sub_cancel_right _ _
  simp only [isa, exec, hdown, Split.store_eq hw, bind, Option.bind_some, pure]
  rfl

/-- Pushes store the registers downwards. -/
theorem execAll_push {regs : List Reg} (hne : rsp ∉ regs) : ∀ {n : Nat} {s : State},
    s.regs rsp = wordAddr base (n + regs.length) →
    (∀ k, n ≤ k → k < n + regs.length → access.writable (wordAddr base k) = true) →
    (isa access).execAll (regs.map .push) s = some
      { s with regs := Function.update s.regs rsp (wordAddr base n)
               mem := pushWords base (n + regs.length) (regs.map s.regs) s.mem } := by
  induction regs with
  | nil =>
    intro n s hsp _
    have hregs : Function.update s.regs rsp (wordAddr base n) = s.regs :=
      Function.update_eq_self_iff.mpr hsp.symm
    rw [hregs]
    cases n <;> rfl
  | cons r regs ih =>
    intro n s hsp hw
    rw [List.mem_cons, not_or] at hne
    obtain ⟨hr, hregs⟩ := hne
    rw [List.length_cons, ← Nat.add_assoc] at hsp hw
    have htop := hw (n + regs.length) (Nat.le_add_right _ _) (Nat.lt_succ_self _)
    rw [List.map_cons, Isa.execAll_cons (exec_push access hsp htop),
      ih hregs (State.setReg_regs_self _ _ _) fun k hk hk' => hw k hk (Nat.lt_succ_of_lt hk')]
    have hmap : regs.map (({ s with mem := store64 s.mem (wordAddr base (n + regs.length)) (s.regs r) }
        : State).setReg rsp (wordAddr base (n + regs.length))).regs = regs.map s.regs :=
      List.map_congr_left fun r' hr' => State.setReg_regs_of_ne _ _ fun h => hregs (h ▸ hr')
    rw [hmap]
    simp only [State.setReg, Function.update_idem]
    rfl

/-- A pop loads the word at the stack pointer. -/
theorem exec_pop {r : Reg} (hr : access.readable (s.regs rsp) = true) :
    (isa access).exec (.pop r) s = some (.fall,
      (s.setReg rsp (s.regs rsp + 8)).setReg r (load64 s.mem (s.regs rsp))) := by
  simp only [isa, exec, Split.load_eq hr, bind, Option.bind_some, pure]
  rfl

/-- A return leaves for the address on the stack. -/
theorem exec_ret (hr : access.readable (s.regs rsp) = true) :
    (isa access).exec .ret s = some (.leave (load64 s.mem (s.regs rsp)),
      s.setReg rsp (s.regs rsp + 8)) := by
  simp only [isa, exec, Split.load_eq hr, bind, Option.bind_some, pure]
  rfl

/-- Pops load the registers upwards. -/
theorem execAll_pop {regs : List Reg} (hne : rsp ∉ regs) (hnd : regs.Nodup) :
    ∀ {n : Nat} {s : State}, s.regs rsp = wordAddr base n →
      (∀ k, n ≤ k → k < n + regs.length → access.readable (wordAddr base k) = true) →
      ∃ s', (isa access).execAll (regs.map .pop) s = some s' ∧ s'.mem = s.mem ∧
        s'.regs rsp = wordAddr base (n + regs.length) ∧
        (∀ j (hj : j < regs.length), s'.regs regs[j] = load64 s.mem (wordAddr base (n + j))) ∧
        ∀ r, r ≠ rsp → r ∉ regs → s'.regs r = s.regs r := by
  induction regs with
  | nil =>
    intro n s hsp _
    exact ⟨s, rfl, rfl, hsp, fun j hj => absurd hj (Nat.not_lt_zero j), fun _ _ _ => rfl⟩
  | cons r regs ih =>
    intro n s hsp hread
    rw [List.mem_cons, not_or] at hne
    obtain ⟨hr, hregs⟩ := hne
    obtain ⟨hrn, hnd'⟩ := List.nodup_cons.mp hnd
    have hfirst : access.readable (s.regs rsp) = true := by
      rw [hsp]
      exact hread n le_rfl (by rw [List.length_cons]; omega)
    have hsp' : ((s.setReg rsp (s.regs rsp + 8)).setReg r (load64 s.mem (s.regs rsp))).regs rsp =
        wordAddr base (n + 1) := by
      rw [State.setReg_regs_of_ne _ _ hr, State.setReg_regs_self, hsp, wordAddr_succ]
      rfl
    obtain ⟨s', hexec, hmem, hend, hload, hkeep⟩ := ih hregs hnd' hsp' fun k hk hk' =>
      hread k (by omega) (by rw [List.length_cons]; omega)
    refine ⟨s', ?_, hmem, ?_, fun j hj => ?_, fun r' hr' hnot => ?_⟩
    · rw [List.map_cons, Isa.execAll_cons (exec_pop access hfirst), hexec]
    · rw [hend, List.length_cons, Nat.add_right_comm, Nat.add_assoc]
    · cases j with
      | zero =>
        rw [List.getElem_cons_zero, hkeep r (Ne.symm hr) hrn, State.setReg_regs_self, hsp, Nat.add_zero]
      | succ j =>
        have hidx : n + (j + 1) = n + 1 + j := by omega
        rw [List.getElem_cons_succ, hload j (Nat.lt_of_succ_lt_succ hj), hidx]
        rfl
    · rw [List.mem_cons, not_or] at hnot
      obtain ⟨hne', hnot'⟩ := hnot
      rw [hkeep r' hr' hnot', State.setReg_regs_of_ne _ _ hne', State.setReg_regs_of_ne _ _ hr']

/-- `mov r, qword ptr [ptr + 8 * i]`. -/
def loadWordAt (ptr : Reg) (x : Reg × Nat) : Instr :=
  .mov .qword (.reg x.1) (.mem ⟨ptr, none, BitVec.ofNat 64 (8 * x.2)⟩)

/-- `mov qword ptr [ptr + 8 * i], r`. -/
def storeWordAt (ptr : Reg) (x : Reg × Nat) : Instr :=
  .mov .qword (.mem ⟨ptr, none, BitVec.ofNat 64 (8 * x.2)⟩) (.reg x.1)

/-- An offset of whole words names a word of the array that the register points to. -/
theorem address_word (s : State) (ptr : Reg) (i : Nat) :
    s.address ⟨ptr, none, BitVec.ofNat 64 (8 * i)⟩ = wordAddr (s.regs ptr) i := by
  rw [State.address, wordAddr]
  exact congrArg (· + _) (BitVec.add_zero _)

theorem exec_load {ptr : Reg} {x : Reg × Nat}
    (hr : access.readable (wordAddr (s.regs ptr) x.2) = true) :
    (isa access).exec (loadWordAt ptr x) s = some (.fall,
      s.setReg x.1 (load64 s.mem (wordAddr (s.regs ptr) x.2))) := by
  simp only [isa, exec, loadWordAt, State.read, address_word, Split.load_eq hr, if_true, bind,
    Option.bind_some, State.write, Size.trunc, pure]
  rfl

theorem exec_store {ptr : Reg} {x : Reg × Nat}
    (hw : access.writable (wordAddr (s.regs ptr) x.2) = true) :
    (isa access).exec (storeWordAt ptr x) s = some (.fall,
      { s with mem := store64 s.mem (wordAddr (s.regs ptr) x.2) (s.regs x.1) }) := by
  simp only [isa, exec, storeWordAt, State.read, State.write, address_word, Split.store_eq hw, if_true,
    bind, Option.bind_some, Size.trunc, pure]
  rfl

/-- Loads of several words of an array. -/
theorem execAll_load (ptr : Reg) (xs : List (Reg × Nat)) (hne : ptr ∉ xs.map Prod.fst)
    (hnd : (xs.map Prod.fst).Nodup) : ∀ (s : State),
      (∀ x ∈ xs, access.readable (wordAddr (s.regs ptr) x.2) = true) →
      ∃ s', (isa access).execAll (xs.map (loadWordAt ptr)) s = some s' ∧ s'.mem = s.mem ∧
        (∀ x ∈ xs, s'.regs x.1 = load64 s.mem (wordAddr (s.regs ptr) x.2)) ∧
        ∀ r ∉ xs.map Prod.fst, s'.regs r = s.regs r := by
  induction xs with
  | nil => exact fun _ _ => ⟨_, rfl, rfl, fun _ h => absurd h List.not_mem_nil, fun _ _ => rfl⟩
  | cons x xs ih =>
    intro s hread
    rw [List.map_cons, List.mem_cons, not_or] at hne
    obtain ⟨hx, hxs⟩ := hne
    obtain ⟨hxn, hnd'⟩ := List.nodup_cons.mp hnd
    have hptr : (s.setReg x.1 (load64 s.mem (wordAddr (s.regs ptr) x.2))).regs ptr = s.regs ptr :=
      State.setReg_regs_of_ne _ _ hx
    obtain ⟨s', hexec, hmem, hload, hkeep⟩ := ih hxs hnd' _ fun y hy => by
      rw [hptr]
      exact hread y (List.mem_cons_of_mem _ hy)
    refine ⟨s', ?_, hmem, fun y hy => ?_, fun r hr => ?_⟩
    · rw [List.map_cons, Isa.execAll_cons (exec_load access (hread x List.mem_cons_self)), hexec]
    · rcases List.mem_cons.mp hy with rfl | hy
      · rw [hkeep _ hxn, State.setReg_regs_self]
      · rw [hload y hy, hptr]
        rfl
    · rw [List.map_cons, List.mem_cons, not_or] at hr
      obtain ⟨hr', hrs⟩ := hr
      rw [hkeep r hrs, State.setReg_regs_of_ne _ _ hr']

/-- Stores of registers to words of an array. -/
theorem execAll_store (ptr : Reg) (xs : List (Reg × Nat)) : ∀ (s : State),
    (∀ x ∈ xs, access.writable (wordAddr (s.regs ptr) x.2) = true) →
    (isa access).execAll (xs.map (storeWordAt ptr)) s = some
      { s with mem := storeWords (s.regs ptr) (xs.map fun x => (s.regs x.1, x.2)) s.mem } := by
  induction xs with
  | nil => exact fun _ _ => rfl
  | cons x xs ih =>
    intro s hw
    rw [List.map_cons, Isa.execAll_cons (exec_store access (hw x List.mem_cons_self))]
    exact ih { s with mem := store64 s.mem (wordAddr (s.regs ptr) x.2) (s.regs x.1) }
      fun y hy => hw y (List.mem_cons_of_mem _ hy)

end X86
