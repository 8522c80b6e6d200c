import HashWX.Isa.A64
import HashWX.Lib.SharedCode

/-!
# What an access policy means

A policy only decides whether an access is a fault: under a weaker one an instruction
does the same. Memory changes only where the policy permits it, and an instruction cannot tell
memories apart that agree there.
-/

namespace A64

open ByteMemory CodeMachine

variable {access access' : Access} {s s' : State}

/-- A weaker policy changes nothing about what an instruction does. -/
theorem exec_mono (hle : access.Weaker access') {i : Instr} {next : Next}
    (h : exec access i s = some (next, s')) : exec access' i s = some (next, s') := by
  cases i with
  | ldp t t2 n offset =>
    simp only [exec, Option.bind_eq_bind, Option.bind_eq_some_iff] at h ⊢
    obtain ⟨a, ha, v, hv, v2, hv2, h⟩ := h
    exact ⟨a, ha, v, Split.load_mono hle hv, v2, Split.load_mono hle hv2, h⟩
  | stp t t2 n offset =>
    simp only [exec, Option.bind_eq_bind, Option.bind_eq_some_iff] at h ⊢
    obtain ⟨a, ha, s₁, hs₁, s₂, hs₂, h⟩ := h
    exact ⟨a, ha, s₁, Split.store_mono hle hs₁, s₂, Split.store_mono hle hs₂, h⟩
  | ldr t n m =>
    simp only [exec, Option.bind_eq_bind, Option.bind_eq_some_iff] at h ⊢
    obtain ⟨a, ha, v, hv, h⟩ := h
    exact ⟨a, ha, v, Split.load_mono hle hv, h⟩
  | _ => exact h

@[simp] theorem State.set_mem (s : State) (r : Reg) (v : Word) : (s.set r v).mem = s.mem := by
  unfold State.set
  split <;> rfl

@[simp] theorem State.setSp_mem (s : State) (r : Reg) (v : Word) : (s.setSp r v).mem = s.mem := by
  unfold State.setSp
  split <;> rfl

variable {reads writes : List Word}

/-- An instruction changes memory only where the policy permits it. -/
theorem exec_frame {i : Instr} {next : Next} (h : exec (.words reads writes) i s = some (next, s')) :
    Frame writes s.mem s'.mem := by
  have hsame (hmem : s'.mem = s.mem) : Frame writes s.mem s'.mem := hmem ▸ .refl writes s.mem
  cases i with
  | ldp t t2 n offset =>
    simp only [exec, Option.bind_eq_bind, Option.bind_eq_some_iff] at h
    obtain ⟨a, -, v, -, v2, -, h⟩ := h
    cases h
    exact hsame (by simp only [State.set_mem])
  | stp t t2 n offset =>
    simp only [exec, Option.bind_eq_bind, Option.bind_eq_some_iff] at h
    obtain ⟨a, -, s₁, hs₁, s₂, hs₂, h⟩ := h
    cases h
    exact (Split.store_frame hs₁).trans (Split.store_frame hs₂)
  | ldr t n m =>
    simp only [exec, Option.bind_eq_bind, Option.bind_eq_some_iff] at h
    obtain ⟨a, -, v, -, h⟩ := h
    cases h
    exact hsame (State.set_mem _ _ _)
  | logicImm op d n imm | addSubImm op d n imm =>
    cases h
    exact hsame (State.setSp_mem _ _ _)
  | branch cond offset | ret n =>
    cases h
    exact .refl _ _
  | _ =>
    cases h
    exact hsame (State.set_mem _ _ _)

/-! ## Memories that agree -/

/-- The registers are written alike, whatever the memory is. -/
theorem State.set_other_mem (s : State) (m : Bytes 64) (r : Reg) (v : Word) :
    State.set { s with mem := m } r v = { s.set r v with mem := m } := by
  unfold State.set
  split <;> rfl

theorem State.setSp_other_mem (s : State) (m : Bytes 64) (r : Reg) (v : Word) :
    State.setSp { s with mem := m } r v = { s.setSp r v with mem := m } := by
  unfold State.setSp
  split <;> rfl

section SameWords

variable {words : List Word} {m : Bytes 64} (hreads : reads ⊆ words) (hm : SameWords words s.mem m)
include hreads hm

/-- An instruction does the same in memories that agree on the words it may read. -/
theorem exec_agree {i : Instr} {next : Next} (h : exec (.words reads writes) i s = some (next, s')) :
    ∃ m', exec (.words reads writes) i { s with mem := m } = some (next, { s' with mem := m' }) ∧
      SameWords words s'.mem m' := by
  have hsame (d : Reg) (v : Word) : SameWords words (s.set d v).mem m := by rwa [State.set_mem]
  cases i with
  | ldp t t2 n offset =>
    simp only [exec, Option.bind_eq_bind, Option.bind_eq_some_iff] at h ⊢
    obtain ⟨a, ha, v, hv, v2, hv2, h⟩ := h
    cases h
    refine ⟨m, ⟨a, ha, v, Split.load_agree hreads hm hv, v2, Split.load_agree hreads hm hv2, ?_⟩, ?_⟩
    · have hset : State.set (State.set { s with mem := m } t v) t2 v2 =
          { (s.set t v).set t2 v2 with mem := m } := by
        rw [s.set_other_mem m t v, (s.set t v).set_other_mem m t2 v2]
      exact congrArg (fun s' => some (Next.fall, s')) hset
    · rw [State.set_mem]
      exact hsame t v
  | stp t t2 n offset =>
    simp only [exec, Option.bind_eq_bind, Option.bind_eq_some_iff] at h ⊢
    obtain ⟨a, ha, s₁, hs₁, s₂, hs₂, h⟩ := h
    obtain ⟨m₁, hs₁', hm₁⟩ := Split.store_agree hm hs₁
    obtain ⟨m₂, hs₂', hm₂⟩ := Split.store_agree hm₁ hs₂
    cases h
    exact ⟨m₂, ⟨a, ha, _, hs₁', _, hs₂', rfl⟩, hm₂⟩
  | ldr t n i =>
    simp only [exec, Option.bind_eq_bind, Option.bind_eq_some_iff] at h ⊢
    obtain ⟨a, ha, v, hv, h⟩ := h
    cases h
    refine ⟨m, ⟨a, ha, v, Split.load_agree hreads hm hv, ?_⟩, hsame t v⟩
    exact congrArg (fun s' => some (Next.fall, s')) (s.set_other_mem m t v)
  | logicImm op d n imm | addSubImm op d n imm =>
    cases h
    refine ⟨m, congrArg (fun s' => some (Next.fall, s')) (s.setSp_other_mem m d _), ?_⟩
    rwa [State.setSp_mem]
  | ands d n imm =>
    cases h
    have hset := congrArg (fun s' : State => ({ s' with z := s.get n &&& imm == 0 } : State))
      (s.set_other_mem m d (s.get n &&& imm))
    exact ⟨m, congrArg (fun s' => some (Next.fall, s')) hset, hsame d _⟩
  | branch cond offset | ret n =>
    cases h
    exact ⟨m, rfl, hm⟩
  | _ =>
    cases h
    exact ⟨m, congrArg (fun s' => some (Next.fall, s')) (s.set_other_mem m _ _), hsame _ _⟩

end SameWords

/-- The machine keeps to its policy. -/
theorem policed : Isa.Policed isa split where
  decode _ _ := rfl
  mono hle h := exec_mono hle h
  frame h := exec_frame h
  agree hreads hm h := exec_agree hreads hm h

end A64
