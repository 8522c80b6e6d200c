import HashWX.Isa.X86
import HashWX.Lib.SharedCode

/-!
# What an access policy means

A policy only decides whether an access is a fault: under a weaker one an instruction
does the same. Memory changes only where the policy permits it, and an instruction cannot tell
memories apart that agree there.
-/

namespace X86

open ByteMemory CodeMachine

variable {access access' : Access} {s s' : State}

/-- An operand is read alike under a weaker policy, in a register or in memory. -/
theorem State.read_mono (hle : access.Weaker access') {size : Size} {src : Operand} {v : Word}
    (h : s.read access size src = some v) : s.read access' size src = some v := by
  cases src with
  | reg r => exact h
  | imm v => exact h
  | mem a =>
    simp only [State.read] at h ⊢
    split at h
    · next hsize =>
      rw [if_pos hsize]
      exact Split.load_mono hle h
    · cases h

theorem State.write_mono (hle : access.Weaker access') {size : Size} {dst : Operand} {v : Word}
    (h : s.write access size v dst = some s') : s.write access' size v dst = some s' := by
  cases dst with
  | reg r => exact h
  | imm v => exact h
  | mem a =>
    simp only [State.write] at h ⊢
    split at h
    · next hsize =>
      rw [if_pos hsize]
      exact Split.store_mono hle h
    · cases h

/-- A weaker policy changes nothing about what an instruction does. -/
theorem exec_mono (hle : access.Weaker access') {i : Instr} {next : Next}
    (h : exec access i s = some (next, s')) : exec access' i s = some (next, s') := by
  cases i with
  | push r =>
    simp only [exec, Option.bind_eq_bind, Option.bind_eq_some_iff] at h ⊢
    obtain ⟨t, ht, h⟩ := h
    exact ⟨t, Split.store_mono hle ht, h⟩
  | pop r | ret =>
    simp only [exec, Option.bind_eq_bind, Option.bind_eq_some_iff] at h ⊢
    obtain ⟨v, hv, h⟩ := h
    exact ⟨v, Split.load_mono hle hv, h⟩
  | jz offset | lea size dst a | testByte r v => exact h
  | mov size dst src =>
    simp only [exec, Option.bind_eq_bind, Option.bind_eq_some_iff] at h ⊢
    obtain ⟨v, hv, t, ht, h⟩ := h
    exact ⟨v, State.read_mono hle hv, t, State.write_mono hle ht, h⟩
  | cmovz size dst src | imul dst src =>
    simp only [exec, Option.bind_eq_bind, Option.bind_eq_some_iff] at h ⊢
    obtain ⟨v, hv, h⟩ := h
    exact ⟨v, State.read_mono hle hv, h⟩
  | alu op size dst src =>
    simp only [exec, Option.bind_eq_bind, Option.bind_eq_some_iff] at h ⊢
    obtain ⟨u, hu, v, hv, t, ht, h⟩ := h
    exact ⟨u, State.read_mono hle hu, v, State.read_mono hle hv, t, State.write_mono hle ht, h⟩
  | test size dst src =>
    simp only [exec, Option.bind_eq_bind, Option.bind_eq_some_iff] at h ⊢
    obtain ⟨u, hu, v, hv, h⟩ := h
    exact ⟨u, State.read_mono hle hu, v, State.read_mono hle hv, h⟩
  | shift op dst count =>
    simp only [exec, Option.bind_eq_bind, Option.bind_eq_some_iff] at h ⊢
    obtain ⟨v, hv, t, ht, h⟩ := h
    exact ⟨v, State.read_mono hle hv, t, State.write_mono hle ht, h⟩

variable {reads writes : List Word}

/-- Only an operand in memory changes memory. -/
theorem State.write_frame {size : Size} {dst : Operand} {v : Word}
    (h : s.write (.words reads writes) size v dst = some s') : Frame writes s.mem s'.mem := by
  cases dst with
  | reg r =>
    obtain rfl := Option.some.inj h
    exact .refl _ _
  | imm v => cases h
  | mem a =>
    simp only [State.write] at h
    split at h
    · exact Split.store_frame h
    · cases h

/-- An instruction changes memory only where the policy permits it. -/
theorem exec_frame {i : Instr} {next : Next} (h : exec (.words reads writes) i s = some (next, s')) :
    Frame writes s.mem s'.mem := by
  cases i with
  | push r =>
    simp only [exec, Option.bind_eq_bind, Option.bind_eq_some_iff] at h
    obtain ⟨t, ht, h⟩ := h
    have hframe := Split.store_frame ht
    cases h
    exact hframe
  | pop r | ret | jz offset | imul dst src =>
    simp only [exec, Option.bind_eq_bind, Option.bind_eq_some_iff] at h
    obtain ⟨v, -, h⟩ := h
    cases h
    exact .refl _ _
  | cmovz size dst src | test size dst src =>
    simp only [exec, Option.bind_eq_bind, Option.bind_eq_some_iff] at h
    obtain ⟨u, -, v, -, h⟩ := h
    cases h
    exact .refl _ _
  | lea size dst a | testByte r v =>
    cases h
    exact .refl _ _
  | mov size dst src | shift op dst count =>
    simp only [exec, Option.bind_eq_bind, Option.bind_eq_some_iff] at h
    obtain ⟨v, -, t, ht, h⟩ := h
    have hframe := State.write_frame ht
    cases h
    exact hframe
  | alu op size dst src =>
    simp only [exec, Option.bind_eq_bind, Option.bind_eq_some_iff] at h
    obtain ⟨u, -, v, -, t, ht, h⟩ := h
    have hframe := State.write_frame ht
    cases h
    exact hframe

/-! ## Memories that agree -/

section SameWords

variable {words : List Word} {m : Bytes 64} (hreads : reads ⊆ words) (hm : SameWords words s.mem m)
include hm

/-- A result is written alike to memories that agree, and they agree behind it. -/
theorem State.write_agree {size : Size} {dst : Operand} {v : Word}
    (h : s.write (.words reads writes) size v dst = some s') :
    ∃ m', State.write (.words reads writes) { s with mem := m } size v dst = some { s' with mem := m' } ∧
      SameWords words s'.mem m' := by
  cases dst with
  | reg r =>
    obtain rfl := Option.some.inj h
    exact ⟨m, rfl, hm⟩
  | imm v => cases h
  | mem a =>
    simp only [State.write] at h ⊢
    split at h
    · next hsize =>
      rw [if_pos hsize]
      exact Split.store_agree hm h
    · cases h

include hreads

theorem State.read_agree {size : Size} {src : Operand} {v : Word}
    (h : s.read (.words reads writes) size src = some v) :
    State.read (.words reads writes) { s with mem := m } size src = some v := by
  cases src with
  | reg r => exact h
  | imm v => exact h
  | mem a =>
    simp only [State.read] at h ⊢
    split at h
    · next hsize =>
      rw [if_pos hsize]
      exact Split.load_agree hreads hm h
    · cases h

/-- An instruction does the same in memories that agree on the words it may read. -/
theorem exec_agree {i : Instr} {next : Next} (h : exec (.words reads writes) i s = some (next, s')) :
    ∃ m', exec (.words reads writes) i { s with mem := m } = some (next, { s' with mem := m' }) ∧
      SameWords words s'.mem m' := by
  cases i with
  | push r =>
    simp only [exec, Option.bind_eq_bind, Option.bind_eq_some_iff] at h ⊢
    obtain ⟨t, ht, h⟩ := h
    obtain ⟨m', ht', hm'⟩ := Split.store_agree hm ht
    cases h
    exact ⟨m', ⟨_, ht', rfl⟩, hm'⟩
  | pop r | ret =>
    simp only [exec, Option.bind_eq_bind, Option.bind_eq_some_iff] at h ⊢
    obtain ⟨v, hv, h⟩ := h
    cases h
    exact ⟨m, ⟨v, Split.load_agree hreads hm hv, rfl⟩, hm⟩
  | jz offset =>
    simp only [exec, Option.bind_eq_bind, Option.bind_eq_some_iff] at h ⊢
    obtain ⟨zf, hzf, h⟩ := h
    cases h
    exact ⟨m, ⟨zf, hzf, rfl⟩, hm⟩
  | lea size dst a | testByte r v =>
    cases h
    exact ⟨m, rfl, hm⟩
  | mov size dst src =>
    simp only [exec, Option.bind_eq_bind, Option.bind_eq_some_iff] at h ⊢
    obtain ⟨v, hv, t, ht, h⟩ := h
    obtain ⟨m', ht', hm'⟩ := State.write_agree hm ht
    cases h
    exact ⟨m', ⟨v, State.read_agree hreads hm hv, _, ht', rfl⟩, hm'⟩
  | cmovz size dst src =>
    simp only [exec, Option.bind_eq_bind, Option.bind_eq_some_iff] at h ⊢
    obtain ⟨v, hv, zf, hzf, h⟩ := h
    cases h
    exact ⟨m, ⟨v, State.read_agree hreads hm hv, zf, hzf, rfl⟩, hm⟩
  | imul dst src =>
    simp only [exec, Option.bind_eq_bind, Option.bind_eq_some_iff] at h ⊢
    obtain ⟨v, hv, h⟩ := h
    cases h
    exact ⟨m, ⟨v, State.read_agree hreads hm hv, rfl⟩, hm⟩
  | alu op size dst src =>
    simp only [exec, Option.bind_eq_bind, Option.bind_eq_some_iff] at h ⊢
    obtain ⟨u, hu, v, hv, t, ht, h⟩ := h
    obtain ⟨m', ht', hm'⟩ := State.write_agree hm ht
    cases h
    exact ⟨m', ⟨u, State.read_agree hreads hm hu, v, State.read_agree hreads hm hv, _, ht', rfl⟩, hm'⟩
  | test size dst src =>
    simp only [exec, Option.bind_eq_bind, Option.bind_eq_some_iff] at h ⊢
    obtain ⟨u, hu, v, hv, h⟩ := h
    cases h
    exact ⟨m, ⟨u, State.read_agree hreads hm hu, v, State.read_agree hreads hm hv, rfl⟩, hm⟩
  | shift op dst count =>
    simp only [exec, Option.bind_eq_bind, Option.bind_eq_some_iff] at h ⊢
    obtain ⟨v, hv, t, ht, h⟩ := h
    obtain ⟨m', ht', hm'⟩ := State.write_agree hm ht
    cases h
    exact ⟨m', ⟨v, State.read_agree hreads hm hv, _, ht', rfl⟩, hm'⟩

end SameWords

/-- The machine keeps to its policy. -/
theorem policed : Isa.Policed isa split where
  decode _ _ := rfl
  mono hle h := exec_mono hle h
  frame h := exec_frame h
  agree hreads hm h := exec_agree hreads hm h

end X86
