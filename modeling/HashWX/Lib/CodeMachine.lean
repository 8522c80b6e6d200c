import HashWX.Lib.ForLoop
import HashWX.Lib.ListReader
import HashWX.Lib.WeightedRun
import Mathlib.Algebra.Group.Nat.Defs

/-!
# Machines that run code from a list of bytes

An instruction set is a decoder and the effect of each instruction. The code does not
change while it runs, and positions in it are offsets from its start, so an execution
leaves the code only through an instruction that says so.
-/

namespace CodeMachine

open ListReader WeightedRun

abbrev Byte := BitVec 8

/-- The bytes of a 16-bit number, as a little-endian host stores them. -/
def le16 (x : BitVec 16) : List Byte := [x.setWidth 8, (x >>> 8).setWidth 8]

/-- The bytes of a 32-bit number. -/
def le32 (x : BitVec 32) : List Byte :=
  [x.setWidth 8, (x >>> 8).setWidth 8, (x >>> 16).setWidth 8, (x >>> 24).setWidth 8]

/-- Where an instruction sends control: to the next one, to an offset from the next
one, or to an address outside the code. -/
inductive Next
  | fall
  | jump (offset : Int)
  | leave (target : BitVec 64)

structure Isa (ι σ : Type) where
  decode : Reader Byte ι
  decode_reads : ReadsPrefix decode
  exec : ι → σ → Option (Next × σ)

inductive Control
  | inside (pc : Nat)
  | outside (target : BitVec 64)

structure Config (σ : Type) where
  control : Control
  state : σ

variable {ι σ : Type} (isa : Isa ι σ) (code : List Byte)

namespace Isa

/-- The instruction at an offset, and the offset behind it. -/
def fetch (pc : Nat) : Option (ι × Nat) := do
  let (i, rest) ← isa.decode (code.drop pc)
  return (i, pc + ((code.drop pc).length - rest.length))

/-- Control goes on at a distance from the next instruction. -/
def advance (following : Nat) : Next → Option Control
  | .fall => some (.inside following)
  | .jump offset => if 0 ≤ following + offset then some (.inside (following + offset).toNat) else none
  | .leave target => some (.outside target)

def step : Config σ → Option (Config σ)
  | ⟨.inside pc, s⟩ => do
    let (i, following) ← isa.fetch code pc
    let (next, s) ← isa.exec i s
    return ⟨← advance following next, s⟩
  | ⟨.outside _, _⟩ => none

/-- One for a step that jumps, zero for any other. -/
def jumps : Config σ → Nat
  | ⟨.inside pc, s⟩ =>
    match isa.fetch code pc with
    | some (i, _) =>
      match isa.exec i s with
      | some (.jump _, _) => 1
      | _ => 0
    | none => 0
  | ⟨.outside _, _⟩ => 0

/-- Runs of the code, with the number of jumps taken. -/
abbrev Runs : Nat → Config σ → Config σ → Prop := Run (isa.step code) (isa.jumps code)

/-! ## Code in memory -/

/-- The bytes stand at an offset of the code. -/
def CodeAt (pc : Nat) (bytes : List Byte) : Prop := bytes <+: code.drop pc

variable {code}

theorem codeAt_append {pc : Nat} {bs cs : List Byte} :
    CodeAt code pc (bs ++ cs) ↔ CodeAt code pc bs ∧ CodeAt code (pc + bs.length) cs := by
  constructor
  · rintro ⟨post, h⟩
    rw [List.append_assoc] at h
    refine ⟨⟨cs ++ post, h⟩, post, ?_⟩
    rw [← List.drop_drop, ← h, List.drop_left]
  · rintro ⟨⟨post, h⟩, post', h'⟩
    rw [← List.drop_drop, ← h, List.drop_left] at h'
    refine ⟨post', ?_⟩
    rw [List.append_assoc, h', h]

/-- The offset of piece `k` of code that consists of `n` pieces. -/
def offset {n : Nat} (g : Fin n → List Byte) (k : Nat) : Nat := ((List.ofFn g).take k).flatten.length

theorem take_succ_flatten {n : Nat} (g : Fin n → List Byte) (i : Fin n) :
    ((List.ofFn g).take (i + 1)).flatten = ((List.ofFn g).take i).flatten ++ g i := by
  have hi : i.val < (List.ofFn g).length := by
    rw [List.length_ofFn]
    exact i.isLt
  rw [List.take_succ_eq_append_getElem hi, List.flatten_append, List.getElem_ofFn,
    List.flatten_singleton]

theorem offset_succ {n : Nat} (g : Fin n → List Byte) (i : Fin n) :
    offset g (i + 1) = offset g i + (g i).length := by
  rw [offset, take_succ_flatten, List.length_append]
  rfl

theorem offset_all {n : Nat} (g : Fin n → List Byte) : offset g n = (List.ofFn g).flatten.length := by
  rw [offset, List.take_of_length_le (by rw [List.length_ofFn])]

theorem codeAt_piece {pc n : Nat} {g : Fin n → List Byte} (h : CodeAt code pc (List.ofFn g).flatten)
    (i : Fin n) : CodeAt code (pc + offset g i) (g i) := by
  rw [← List.take_append_drop (i + 1) (List.ofFn g), List.flatten_append, take_succ_flatten] at h
  exact (codeAt_append.mp (codeAt_append.mp h).1).2

variable {isa}

/-- The bytes are the code of one instruction. -/
def Encodes (isa : Isa ι σ) (i : ι) (bytes : List Byte) : Prop := isa.decode bytes = some (i, [])

theorem fetch_of_codeAt {pc : Nat} {bytes : List Byte} {i : ι} (h : CodeAt code pc bytes)
    (hi : isa.Encodes i bytes) : isa.fetch code pc = some (i, pc + bytes.length) := by
  obtain ⟨post, hpost⟩ := h
  obtain ⟨bs, hbs, hprefix⟩ := isa.decode_reads _ _ _ hi
  rw [List.append_nil] at hbs
  subst hbs
  simp only [fetch, ← hpost, hprefix post, bind, Option.bind_some, pure, List.length_append,
    Nat.add_sub_cancel]

/-- The bytes are the code of a sequence of instructions. -/
inductive Assembles (isa : Isa ι σ) : List ι → List Byte → Prop
  | nil : Assembles isa [] []
  | cons {i : ι} {is : List ι} {bs cs : List Byte} :
      isa.Encodes i bs → Assembles isa is cs → Assembles isa (i :: is) (bs ++ cs)

theorem Assembles.single {i : ι} {bs : List Byte} (h : isa.Encodes i bs) : isa.Assembles [i] bs := by
  rw [← List.append_nil bs]
  exact .cons h .nil

theorem Assembles.append {is js : List ι} {bs cs : List Byte} (h : isa.Assembles is bs)
    (h' : isa.Assembles js cs) : isa.Assembles (is ++ js) (bs ++ cs) := by
  induction h with
  | nil => exact h'
  | cons hi _ ih =>
    rw [List.append_assoc]
    exact .cons hi ih

/-- A sequence can be checked by decoding it. -/
theorem assembles_of_times {is : List ι} : ∀ {bs : List Byte},
    times isa.decode is.length bs = some (is, []) → isa.Assembles is bs := by
  induction is with
  | nil =>
    intro bs h
    obtain ⟨-, rfl⟩ := Prod.mk.inj (Option.some.inj h)
    exact .nil
  | cons i is ih =>
    intro bs h
    obtain ⟨⟨j, rest⟩, hj, h⟩ := Option.bind_eq_some_iff.mp h
    obtain ⟨⟨js, rest'⟩, hjs, h⟩ := Option.bind_eq_some_iff.mp h
    obtain ⟨hcons, rfl⟩ := Prod.mk.inj (Option.some.inj h)
    obtain ⟨rfl, rfl⟩ := List.cons.inj hcons
    obtain ⟨b, rfl, hb⟩ := isa.decode_reads _ _ _ hj
    have hb' := hb []
    rw [List.append_nil] at hb'
    exact .cons hb' (ih hjs)

/-! ## Runs -/

/-- The effect of instructions none of which jumps. -/
def execAll (isa : Isa ι σ) : List ι → σ → Option σ
  | [], s => some s
  | i :: is, s =>
    match isa.exec i s with
    | some (.fall, s') => execAll isa is s'
    | _ => none

theorem execAll_cons {i : ι} {is : List ι} {s s' : σ} (h : isa.exec i s = some (.fall, s')) :
    isa.execAll (i :: is) s = isa.execAll is s' := by
  simp only [execAll, h]

theorem execAll_append {is js : List ι} {s : σ} :
    isa.execAll (is ++ js) s = (isa.execAll is s).bind (isa.execAll js) := by
  induction is generalizing s with
  | nil => rfl
  | cons i is ih =>
    simp only [List.cons_append, execAll]
    split
    · exact ih
    · rfl

theorem execAll_trans {is js : List ι} {s s' s'' : σ} (h : isa.execAll is s = some s')
    (h' : isa.execAll js s' = some s'') : isa.execAll (is ++ js) s = some s'' := by
  rw [execAll_append, h, Option.bind_some, h']

section Steps

variable {pc : Nat} {bytes : List Byte} {i : ι} {s s' : σ} (h : CodeAt code pc bytes)
  (hi : isa.Encodes i bytes)
include h hi

theorem runs_fall (hexec : isa.exec i s = some (.fall, s')) :
    isa.Runs code 0 ⟨.inside pc, s⟩ ⟨.inside (pc + bytes.length), s'⟩ :=
  .single (by simp only [step, fetch_of_codeAt h hi, bind, Option.bind_some, hexec, advance, pure])
    (by simp only [jumps, fetch_of_codeAt h hi, hexec])

theorem runs_jump {offset : Int} {target : Nat} (hexec : isa.exec i s = some (.jump offset, s'))
    (htarget : ((pc + bytes.length : Nat) : Int) + offset = target) :
    isa.Runs code 1 ⟨.inside pc, s⟩ ⟨.inside target, s'⟩ := by
  have hadvance : advance (pc + bytes.length) (.jump offset) = some (.inside target) := by
    simp only [advance, htarget, Int.natCast_nonneg, if_true, Int.toNat_natCast]
  exact .single
    (by simp only [step, fetch_of_codeAt h hi, bind, Option.bind_some, hexec, hadvance, pure])
    (by simp only [jumps, fetch_of_codeAt h hi, hexec])

theorem runs_leave {target : BitVec 64} (hexec : isa.exec i s = some (.leave target, s')) :
    isa.Runs code 0 ⟨.inside pc, s⟩ ⟨.outside target, s'⟩ :=
  .single (by simp only [step, fetch_of_codeAt h hi, bind, Option.bind_some, hexec, advance, pure])
    (by simp only [jumps, fetch_of_codeAt h hi, hexec])

end Steps

/-- Straight-line code runs through. -/
theorem runs_execAll {is : List ι} {bytes : List Byte} (hasm : isa.Assembles is bytes) :
    ∀ {pc : Nat} {s s' : σ}, CodeAt code pc bytes → isa.execAll is s = some s' →
      isa.Runs code 0 ⟨.inside pc, s⟩ ⟨.inside (pc + bytes.length), s'⟩ := by
  induction hasm with
  | nil =>
    intro pc s s' _ hexec
    obtain rfl := Option.some.inj hexec
    exact .refl _
  | @cons i is bs cs hi _ ih =>
    intro pc s s' hcode hexec
    obtain ⟨hbs, hcs⟩ := codeAt_append.mp hcode
    rw [execAll] at hexec
    split at hexec
    · next s₁ hfall =>
      rw [List.length_append, ← Nat.add_assoc]
      exact (runs_fall hbs hi hfall).trans (ih hcs hexec)
    · cases hexec

/-- All runs that leave the code end in one state. -/
theorem runs_outside_unique {n m : Nat} {c : Config σ} {target target' : BitVec 64} {s s' : σ}
    (h : isa.Runs code n c ⟨.outside target, s⟩) (h' : isa.Runs code m c ⟨.outside target', s'⟩) : s = s' :=
  congrArg Config.state (h.end_unique h' rfl rfl)

/-- What every instruction does to the state, a run does, if it can be composed. -/
theorem runs_related {R : σ → σ → Prop} (hrefl : ∀ s, R s s)
    (htrans : ∀ s s' s'', R s s' → R s' s'' → R s s'')
    (hexec : ∀ i s next s', isa.exec i s = some (next, s') → R s s') {n : Nat} {c c' : Config σ}
    (h : isa.Runs code n c c') : R c.state c'.state := by
  induction h with
  | refl c => exact hrefl _
  | @head _ a b _ hstep _ ih =>
    refine htrans _ _ _ ?_ ih
    obtain ⟨pc | target, s⟩ := a
    · simp only [step, Option.bind_eq_bind, Option.bind_eq_some_iff] at hstep
      obtain ⟨⟨i, following⟩, -, ⟨next, s'⟩, hi, control, -, hb⟩ := hstep
      obtain rfl := Option.some.inj hb
      exact hexec i s next s' hi
    · cases hstep

/-- A machine that can do more runs the same way. -/
theorem runs_mono {isa' : Isa ι σ} (hdecode : isa'.decode = isa.decode)
    (hexec : ∀ i s next s', isa.exec i s = some (next, s') → isa'.exec i s = some (next, s'))
    {n : Nat} {c c' : Config σ} (h : isa.Runs code n c c') : isa'.Runs code n c c' := by
  induction h with
  | refl c => exact .refl _
  | @head _ a b _ hstep _ ih =>
    obtain ⟨pc | target, s⟩ := a
    · have hfetch : isa'.fetch code pc = isa.fetch code pc := by
        unfold fetch
        rw [hdecode]
      simp only [step, Option.bind_eq_bind, Option.bind_eq_some_iff] at hstep
      obtain ⟨⟨i, following⟩, hi, ⟨next, s'⟩, hnext, control, hcontrol, hb⟩ := hstep
      have hnext' := hexec i s next s' hnext
      refine .step ?_ ?_ ih
      · simp only [step, hfetch, hi, hnext', Option.bind_eq_bind, Option.bind_some, hcontrol]
        exact hb
      · simp only [jumps, hfetch, hi, hnext, hnext']
    · cases hstep

/-! ## Straight-line code -/

/-- Code without jumps: from a state that satisfies `P` it reaches one that is related by
`R`. States are given by a view `φ` of them. -/
def Straight {μ : Type} (isa : Isa ι σ) (φ : μ → σ) (P : μ → Prop) (bytes : List Byte)
    (R : μ → μ → Prop) : Prop :=
  ∃ is, isa.Assembles is bytes ∧ ∀ v, P v → ∃ v', isa.execAll is (φ v) = some (φ v') ∧ R v v'

/-- Control is at an offset, in a state with a property. -/
def At {μ : Type} (φ : μ → σ) (pc : Nat) (P : μ → Prop) (c : Config σ) : Prop :=
  ∃ v, c = ⟨.inside pc, φ v⟩ ∧ P v

section Straight

variable {μ : Type} {φ : μ → σ} {P Q : μ → Prop} {R S T : μ → μ → Prop} {bs cs : List Byte}

theorem Straight.append (h : isa.Straight φ P bs R) (h' : isa.Straight φ Q cs S)
    (hQ : ∀ v v', P v → R v v' → Q v') (hT : ∀ v v' v'', P v → R v v' → S v' v'' → T v v'') :
    isa.Straight φ P (bs ++ cs) T := by
  obtain ⟨is, his, hR⟩ := h
  obtain ⟨js, hjs, hS⟩ := h'
  refine ⟨is ++ js, his.append hjs, fun v hv => ?_⟩
  obtain ⟨v₁, hx₁, hR₁⟩ := hR v hv
  obtain ⟨v₂, hx₂, hS₂⟩ := hS v₁ (hQ v v₁ hv hR₁)
  exact ⟨v₂, execAll_trans hx₁ hx₂, hT v v₁ v₂ hv hR₁ hS₂⟩

theorem Straight.runs (h : isa.Straight φ P bs R) {pc : Nat} (hcode : CodeAt code pc bs) {v : μ}
    (hv : P v) : ∃ v', isa.Runs code 0 ⟨.inside pc, φ v⟩ ⟨.inside (pc + bs.length), φ v'⟩ ∧ R v v' := by
  obtain ⟨is, his, hR⟩ := h
  obtain ⟨v', hexec, hR'⟩ := hR v hv
  exact ⟨v', runs_execAll his hcode hexec, hR'⟩

end Straight

/-! ## Pieces of code one behind the other -/

section Pieces

open ForLoop

variable {μ U : Type} {φ : μ → σ} {n : Nat} {g : Fin n → List Byte} {pc : Nat}

/-- If every piece leads from its start to its end as `step` says, and jumps once for every unit
of the budget that `step` spends, then the first `k` pieces do. -/
theorem runs_pieces (step : U → Fin n → U) (budget : U → Nat) (I : Nat → U → μ → Prop)
    (hbudget : ∀ u i, budget (step u i) ≤ budget u)
    (hstep : ∀ (i : Fin n) (u : U) (v : μ), I i u v → ∃ v',
      isa.Runs code (budget u - budget (step u i)) ⟨.inside (pc + offset g i), φ v⟩
        ⟨.inside (pc + offset g i + (g i).length), φ v'⟩ ∧ I (i + 1) (step u i) v')
    {u : U} {v : μ} (h : I 0 u v) {k : Nat} (hk : k ≤ n) :
    budget (forLoop k (fun u i => step u (i.castLE hk)) u) ≤ budget u ∧ ∃ v',
      isa.Runs code (budget u - budget (forLoop k (fun u i => step u (i.castLE hk)) u))
        ⟨.inside pc, φ v⟩ ⟨.inside (pc + offset g k), φ v'⟩ ∧
      I k (forLoop k (fun u i => step u (i.castLE hk)) u) v' := by
  induction k with
  | zero =>
    refine ⟨le_rfl, v, ?_, h⟩
    rw [forLoop, Nat.sub_self]
    exact .refl _
  | succ k ih =>
    obtain ⟨hle, v₁, hruns₁, hv₁⟩ := ih (Nat.le_of_succ_le hk)
    obtain ⟨v₂, hruns₂, hv₂⟩ := hstep ⟨k, hk⟩ _ v₁ hv₁
    have hspent := hbudget (forLoop k (fun u i => step u (i.castLE (Nat.le_of_succ_le hk))) u) ⟨k, hk⟩
    have hruns := hruns₁.trans hruns₂
    rw [Nat.sub_add_sub_cancel hle hspent, Nat.add_assoc, ← offset_succ g ⟨k, hk⟩] at hruns
    exact ⟨hspent.trans hle, v₂, hruns, hv₂⟩

end Pieces

end Isa

end CodeMachine
