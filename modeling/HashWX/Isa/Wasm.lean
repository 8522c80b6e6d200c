import HashWX.Lib.GuardedMemory
import HashWX.Lib.Rotate
import Mathlib.Data.List.OfFn

/-!
# WebAssembly

A fragment of WebAssembly 1.0: code over `i32` and `i64` with `loop`, `if` and `br`, and
one memory. The blocks have neither parameters nor results. The policy of the memory says
which words lie inside of it; every other access traps.
-/

namespace Wasm

open ByteMemory

inductive ValType | i32 | i64
deriving DecidableEq

inductive Value
  | i32 (v : BitVec 32)
  | i64 (v : BitVec 64)
deriving DecidableEq

def Value.type : Value → ValType
  | .i32 _ => .i32
  | .i64 _ => .i64

/-- What a local variable holds at entry. -/
def ValType.default : ValType → Value
  | .i32 => .i32 0
  | .i64 => .i64 0

/-- The operators of `i64` with two operands. -/
inductive Binop | add | sub | mul | and | or | xor | shrS | shrU | rotr
deriving DecidableEq

/-- The count of a shift is taken modulo the width. -/
def Binop.apply : Binop → BitVec 64 → BitVec 64 → BitVec 64
  | .add, a, b => a + b
  | .sub, a, b => a - b
  | .mul, a, b => a * b
  | .and, a, b => a &&& b
  | .or, a, b => a ||| b
  | .xor, a, b => a ^^^ b
  | .shrS, a, b => a.sshiftRight (b.toNat % 64)
  | .shrU, a, b => a >>> (b.toNat % 64)
  | .rotr, a, b => a.rotateRight (b.toNat % 64)

/-- The instructions that do not transfer control. -/
inductive Plain
  | localGet (x : Nat)
  | localSet (x : Nat)
  | localTee (x : Nat)
  | i64Load (align offset : Nat)
  | i64Store (align offset : Nat)
  | i32Const (v : BitVec 32)
  | i64Const (v : BitVec 64)
  | i32Add
  | i32Sub
  | i32WrapI64
  | i64Eqz
  | i64 (op : Binop)
deriving DecidableEq

/-- Sequences of instructions. -/
inductive Code
  | done
  | plain (i : Plain) (rest : Code)
  | loop (body rest : Code)
  | ifThen (body rest : Code)
  | br (l : Nat) (rest : Code)

namespace Code

def append : Code → Code → Code
  | .done, c => c
  | .plain i rest, c => .plain i (rest.append c)
  | .loop body rest, c => .loop body (rest.append c)
  | .ifThen body rest, c => .ifThen body (rest.append c)
  | .br l rest, c => .br l (rest.append c)

instance : Append Code := ⟨append⟩

@[simp] theorem done_append (c : Code) : .done ++ c = c := rfl

@[simp] theorem plain_append (i : Plain) (rest c : Code) :
    .plain i rest ++ c = .plain i (rest ++ c) := rfl

@[simp] theorem loop_append (body rest c : Code) : .loop body rest ++ c = .loop body (rest ++ c) := rfl

@[simp] theorem ifThen_append (body rest c : Code) :
    .ifThen body rest ++ c = .ifThen body (rest ++ c) := rfl

@[simp] theorem br_append (l : Nat) (rest c : Code) : .br l rest ++ c = .br l (rest ++ c) := rfl

theorem append_assoc (a b c : Code) : a ++ b ++ c = a ++ (b ++ c) := by
  induction a with
  | done => rfl
  | plain i rest ih => exact congrArg _ ih
  | loop body rest _ ih => exact congrArg _ ih
  | ifThen body rest _ ih => exact congrArg _ ih
  | br l rest ih => exact congrArg _ ih

theorem append_done (a : Code) : a ++ done = a := by
  induction a with
  | done => rfl
  | plain i rest ih => exact congrArg _ ih
  | loop body rest _ ih => exact congrArg _ ih
  | ifThen body rest _ ih => exact congrArg _ ih
  | br l rest ih => exact congrArg _ ih

/-- A sequence without control instructions. -/
def plains (is : List Plain) : Code := is.foldr .plain .done

theorem plains_append (is js : List Plain) : plains (is ++ js) = plains is ++ plains js := by
  induction is with
  | nil => rfl
  | cons i is ih => exact congrArg _ ih

/-- Sequences one behind the other. -/
def concat (parts : List Code) : Code := parts.foldr (· ++ ·) .done

end Code

/-! ## Execution -/

/-- The local variables, the operands and the memory of one call. -/
structure State where
  locals : List Value
  stack : List Value
  mem : Bytes 64

/-- What a state has besides the memory. -/
structure Core where
  locals : List Value
  stack : List Value

def split : Split State Core where
  join p m := ⟨p.locals, p.stack, m⟩
  core s := ⟨s.locals, s.stack⟩
  mem := State.mem
  join_eta _ := rfl
  core_join _ _ := rfl
  mem_join _ _ := rfl

/-- The index is unsigned, and the sum does not wrap around. -/
def effective (index : BitVec 32) (offset : Nat) : BitVec 64 :=
  index.setWidth 64 + BitVec.ofNat 64 offset

namespace State

def push (s : State) (v : Value) : State := { s with stack := v :: s.stack }

def pop (s : State) : Option (Value × State) :=
  match s.stack with
  | v :: stack => some (v, { s with stack := stack })
  | [] => none

def popI32 (s : State) : Option (BitVec 32 × State) :=
  match s.stack with
  | .i32 v :: stack => some (v, { s with stack := stack })
  | _ => none

def popI64 (s : State) : Option (BitVec 64 × State) :=
  match s.stack with
  | .i64 v :: stack => some (v, { s with stack := stack })
  | _ => none

/-- An operator with one operand. -/
def unary (s : State) (f : BitVec 64 → Value) : Option State := do
  let (a, s) ← s.popI64
  return s.push (f a)

/-- An operator whose second operand is at the top. -/
def binary32 (s : State) (f : BitVec 32 → BitVec 32 → BitVec 32) : Option State := do
  let (b, s) ← s.popI32
  let (a, s) ← s.popI32
  return s.push (.i32 (f a b))

def binary64 (s : State) (f : BitVec 64 → BitVec 64 → BitVec 64) : Option State := do
  let (b, s) ← s.popI64
  let (a, s) ← s.popI64
  return s.push (.i64 (f a b))

def setLocal (s : State) (x : Nat) (v : Value) : Option State :=
  if x < s.locals.length then some { s with locals := s.locals.set x v } else none

end State

/-- The effect of an instruction without control; a missing or mistyped operand is an error. -/
def Plain.exec (access : Access) (s : State) : Plain → Option State
  | .localGet x => do return s.push (← s.locals[x]?)
  | .localSet x => do
    let (v, s) ← s.pop
    s.setLocal x v
  | .localTee x => do
    let (v, s) ← s.pop
    (s.push v).setLocal x v
  | .i64Load _ offset => do
    let (a, s) ← s.popI32
    return s.push (.i64 (← split.load access s (effective a offset)))
  | .i64Store _ offset => do
    let (v, s) ← s.popI64
    let (a, s) ← s.popI32
    split.store access s (effective a offset) v
  | .i32Const v => return s.push (.i32 v)
  | .i64Const v => return s.push (.i64 v)
  | .i32Add => s.binary32 (· + ·)
  | .i32Sub => s.binary32 (· - ·)
  | .i32WrapI64 => s.unary fun a => .i32 (a.setWidth 32)
  | .i64Eqz => s.unary fun a => .i32 (if a = 0 then 1 else 0)
  | .i64 op => s.binary64 op.apply

/-- How a sequence ends: behind its last instruction, or with a branch to a label. -/
inductive Exit
  | fall
  | br (l : Nat)
deriving DecidableEq

/-- The operands below a block are out of its reach. -/
def State.inner (s : State) : State := { s with stack := [] }

/-- The state behind a block that fell through. -/
def State.outer (s : State) (stack : List Value) : State := { s with stack := s.stack ++ stack }

/-- The state at a label of a block: the operands of the block are dropped. -/
def State.unwind (s : State) (stack : List Value) : State := { s with stack := stack }

/-- The label of a loop is its head, the label of an `if` its end. -/
inductive Exec (access : Access) : Code → State → Exit → State → Prop
  | done {s : State} : Exec access .done s .fall s
  | plain {i : Plain} {rest : Code} {s s₁ s₂ : State} {e : Exit} :
      i.exec access s = some s₁ → Exec access rest s₁ e s₂ → Exec access (.plain i rest) s e s₂
  | br {l : Nat} {rest : Code} {s : State} : Exec access (.br l rest) s (.br l) s
  | loopFall {body rest : Code} {s s₁ s₂ : State} {e : Exit} :
      Exec access body s.inner .fall s₁ → Exec access rest (s₁.outer s.stack) e s₂ →
        Exec access (.loop body rest) s e s₂
  | loopAgain {body rest : Code} {s s₁ s₂ : State} {e : Exit} :
      Exec access body s.inner (.br 0) s₁ →
        Exec access (.loop body rest) (s₁.unwind s.stack) e s₂ → Exec access (.loop body rest) s e s₂
  | loopExit {body rest : Code} {s s₁ : State} {l : Nat} :
      Exec access body s.inner (.br (l + 1)) s₁ → Exec access (.loop body rest) s (.br l) s₁
  | ifZero {body rest : Code} {s s₂ : State} {stack : List Value} {e : Exit} :
      s.stack = .i32 0 :: stack → Exec access rest (s.unwind stack) e s₂ →
        Exec access (.ifThen body rest) s e s₂
  | ifFall {body rest : Code} {s s₁ s₂ : State} {v : BitVec 32} {stack : List Value} {e : Exit} :
      s.stack = .i32 v :: stack → v ≠ 0 → Exec access body s.inner .fall s₁ →
        Exec access rest (s₁.outer stack) e s₂ → Exec access (.ifThen body rest) s e s₂
  | ifLabel {body rest : Code} {s s₁ s₂ : State} {v : BitVec 32} {stack : List Value} {e : Exit} :
      s.stack = .i32 v :: stack → v ≠ 0 → Exec access body s.inner (.br 0) s₁ →
        Exec access rest (s₁.unwind stack) e s₂ → Exec access (.ifThen body rest) s e s₂
  | ifExit {body rest : Code} {s s₁ : State} {v : BitVec 32} {stack : List Value} {l : Nat} :
      s.stack = .i32 v :: stack → v ≠ 0 → Exec access body s.inner (.br (l + 1)) s₁ →
        Exec access (.ifThen body rest) s (.br l) s₁

section Exec

variable {access access' : Access} {c c' body rest : Code} {s s₁ s₂ : State} {e e' : Exit}

/-- There is one way to run code, so that what is proved of some run holds of every one. -/
theorem Exec.deterministic (h : Exec access c s e s₁) :
    ∀ {e' s₂}, Exec access c s e' s₂ → e = e' ∧ s₁ = s₂ := by
  induction h with
  | done =>
    intro e' s₂ h'
    cases h'
    exact ⟨rfl, rfl⟩
  | plain hi _ ih =>
    intro e' s₂ h'
    cases h' with
    | plain hi' hrest' =>
      obtain rfl := Option.some.inj (hi.symm.trans hi')
      exact ih hrest'
  | br =>
    intro e' s₂ h'
    cases h'
    exact ⟨rfl, rfl⟩
  | loopFall _ _ ih ih' =>
    intro e' s₂ h'
    cases h' with
    | loopFall hb hr =>
      obtain ⟨-, rfl⟩ := ih hb
      exact ih' hr
    | loopAgain hb _ => cases (ih hb).1
    | loopExit hb => cases (ih hb).1
  | loopAgain _ _ ih ih' =>
    intro e' s₂ h'
    cases h' with
    | loopFall hb _ => cases (ih hb).1
    | loopAgain hb hr =>
      obtain ⟨-, rfl⟩ := ih hb
      exact ih' hr
    | loopExit hb => cases (ih hb).1
  | loopExit _ ih =>
    intro e' s₂ h'
    cases h' with
    | loopFall hb _ => cases (ih hb).1
    | loopAgain hb _ => cases (ih hb).1
    | loopExit hb =>
      obtain ⟨he, rfl⟩ := ih hb
      cases he
      exact ⟨rfl, rfl⟩
  | ifZero hs _ ih =>
    intro e' s₂ h'
    cases h' with
    | ifZero hs' hr =>
      cases hs.symm.trans hs'
      exact ih hr
    | ifFall hs' hv _ _ => cases hs.symm.trans hs'; exact absurd rfl hv
    | ifLabel hs' hv _ _ => cases hs.symm.trans hs'; exact absurd rfl hv
    | ifExit hs' hv _ => cases hs.symm.trans hs'; exact absurd rfl hv
  | ifFall hs hv _ _ ih ih' =>
    intro e' s₂ h'
    cases h' with
    | ifZero hs' _ => cases hs.symm.trans hs'; exact absurd rfl hv
    | ifFall hs' _ hb hr =>
      cases hs.symm.trans hs'
      obtain ⟨-, rfl⟩ := ih hb
      exact ih' hr
    | ifLabel _ _ hb _ => cases (ih hb).1
    | ifExit _ _ hb => cases (ih hb).1
  | ifLabel hs hv _ _ ih ih' =>
    intro e' s₂ h'
    cases h' with
    | ifZero hs' _ => cases hs.symm.trans hs'; exact absurd rfl hv
    | ifFall _ _ hb _ => cases (ih hb).1
    | ifLabel hs' _ hb hr =>
      cases hs.symm.trans hs'
      obtain ⟨-, rfl⟩ := ih hb
      exact ih' hr
    | ifExit _ _ hb => cases (ih hb).1
  | ifExit hs hv _ ih =>
    intro e' s₂ h'
    cases h' with
    | ifZero hs' _ => cases hs.symm.trans hs'; exact absurd rfl hv
    | ifFall _ _ hb _ => cases (ih hb).1
    | ifLabel _ _ hb _ => cases (ih hb).1
    | ifExit _ _ hb =>
      obtain ⟨he, rfl⟩ := ih hb
      cases he
      exact ⟨rfl, rfl⟩

/-- A sequence that falls through goes on with what stands behind it. -/
theorem Exec.append (h : Exec access c s .fall s₁) (h' : Exec access c' s₁ e s₂) :
    Exec access (c ++ c') s e s₂ := by
  generalize hfall : Exit.fall = x at h
  induction h with
  | done => exact h'
  | plain hi _ ih => exact .plain hi (ih h' hfall)
  | br => cases hfall
  | loopFall hb _ _ ih => exact .loopFall hb (ih h' hfall)
  | loopAgain hb _ _ ih => exact .loopAgain hb (ih h' hfall)
  | loopExit _ _ => cases hfall
  | ifZero hs _ ih => exact .ifZero hs (ih h' hfall)
  | ifFall hs hv hb _ _ ih => exact .ifFall hs hv hb (ih h' hfall)
  | ifLabel hs hv hb _ _ ih => exact .ifLabel hs hv hb (ih h' hfall)
  | ifExit _ _ _ _ => cases hfall

/-- A sequence that branches does not reach what stands behind it. -/
theorem Exec.append_br {l : Nat} (h : Exec access c s (.br l) s₁) (c' : Code) :
    Exec access (c ++ c') s (.br l) s₁ := by
  generalize hbr : Exit.br l = x at h
  induction h with
  | done => cases hbr
  | plain hi _ ih => exact .plain hi (ih hbr)
  | br => exact .br
  | loopFall hb _ _ ih => exact .loopFall hb (ih hbr)
  | loopAgain hb _ _ ih => exact .loopAgain hb (ih hbr)
  | loopExit hb _ => exact .loopExit hb
  | ifZero hs _ ih => exact .ifZero hs (ih hbr)
  | ifFall hs hv hb _ _ ih => exact .ifFall hs hv hb (ih hbr)
  | ifLabel hs hv hb _ _ ih => exact .ifLabel hs hv hb (ih hbr)
  | ifExit hs hv hb _ => exact .ifExit hs hv hb

/-- The effect of a sequence without control instructions. -/
def execAll (access : Access) : List Plain → State → Option State
  | [], s => some s
  | i :: is, s => do execAll access is (← i.exec access s)

/-- Straight code runs to its end as its instructions do. -/
theorem exec_plains {is : List Plain} (h : execAll access is s = some s₁) :
    Exec access (.plains is) s .fall s₁ := by
  induction is generalizing s with
  | nil =>
    obtain rfl := Option.some.inj h
    exact .done
  | cons i is ih =>
    obtain ⟨s', hi, his⟩ := Option.bind_eq_some_iff.mp h
    exact .plain hi (ih his)

theorem execAll_append {is js : List Plain} (h : execAll access is s = some s₁)
    (h' : execAll access js s₁ = some s₂) : execAll access (is ++ js) s = some s₂ := by
  induction is generalizing s with
  | nil =>
    obtain rfl := Option.some.inj h
    exact h'
  | cons i is ih =>
    obtain ⟨s', hi, his⟩ := Option.bind_eq_some_iff.mp h
    exact Option.bind_eq_some_iff.mpr ⟨s', hi, ih his⟩

/-- Pieces one behind the other, with the states between them. -/
theorem execAll_ofFn {n : Nat} {parts : Fin n → List Plain} (states : Nat → State)
    (h : ∀ i : Fin n, execAll access (parts i) (states i) = some (states (i + 1))) :
    execAll access (List.ofFn parts).flatten (states 0) = some (states n) := by
  induction n with
  | zero => rfl
  | succ n ih =>
    rw [List.ofFn_succ', List.concat_eq_append, List.flatten_append, List.flatten_singleton]
    exact execAll_append (ih fun i => h i.castSucc) (h (Fin.last n))

/-- The invariant rule for sequences one behind the other. -/
theorem exec_ofFn {n : Nat} {parts : Fin n → Code} (P : Nat → State → Prop) (hinit : P 0 s)
    (hstep : ∀ (i : Fin n) s, P i s → ∃ s', Exec access (parts i) s .fall s' ∧ P (i + 1) s') :
    ∃ s', Exec access (.concat (List.ofFn parts)) s .fall s' ∧ P n s' := by
  induction n generalizing s P with
  | zero => exact ⟨s, .done, hinit⟩
  | succ n ih =>
    obtain ⟨s₁, hexec, hP⟩ := hstep 0 s hinit
    obtain ⟨s₂, hrest, hend⟩ := ih (fun k => P (k + 1)) hP fun i s hs => hstep i.succ s hs
    rw [List.ofFn_succ]
    exact ⟨s₂, hexec.append hrest, hend⟩

/-! ## Permissions -/

/-- A memory of so many bytes. -/
def linear (size : Nat) : Access :=
  ⟨fun a => decide (a.toNat + 8 ≤ size), fun a => decide (a.toNat + 8 ≤ size)⟩

/-- Under a weaker policy an instruction does the same. -/
theorem Plain.exec_mono (hw : access.Weaker access') {i : Plain} (h : i.exec access s = some s₁) :
    i.exec access' s = some s₁ := by
  cases i with
  | i64Load align offset =>
    simp only [exec, bind, Option.bind_eq_some_iff] at h ⊢
    obtain ⟨a, ha, v, hv, hs⟩ := h
    exact ⟨a, ha, v, Split.load_mono hw hv, hs⟩
  | i64Store align offset =>
    simp only [exec, bind, Option.bind_eq_some_iff] at h ⊢
    obtain ⟨v, hv, a, ha, hs⟩ := h
    exact ⟨v, hv, a, ha, Split.store_mono hw hs⟩
  | _ => exact h

/-- What runs with some permissions runs the same with more of them. -/
theorem Exec.mono (hw : access.Weaker access') (h : Exec access c s e s₁) :
    Exec access' c s e s₁ := by
  induction h with
  | done => exact .done
  | plain hi _ ih => exact .plain (Plain.exec_mono hw hi) ih
  | br => exact .br
  | loopFall _ _ ih ih' => exact .loopFall ih ih'
  | loopAgain _ _ ih ih' => exact .loopAgain ih ih'
  | loopExit _ ih => exact .loopExit ih
  | ifZero hs _ ih => exact .ifZero hs ih
  | ifFall hs hv _ _ ih ih' => exact .ifFall hs hv ih ih'
  | ifLabel hs hv _ _ ih ih' => exact .ifLabel hs hv ih ih'
  | ifExit hs hv _ ih => exact .ifExit hs hv ih

theorem State.pop_mem {v : Value} (h : s.pop = some (v, s₁)) : s₁.mem = s.mem := by
  unfold State.pop at h
  split at h
  · obtain ⟨-, rfl⟩ := Prod.mk.inj (Option.some.inj h)
    rfl
  · cases h

theorem State.popI32_mem {v : BitVec 32} (h : s.popI32 = some (v, s₁)) : s₁.mem = s.mem := by
  unfold State.popI32 at h
  split at h
  · obtain ⟨-, rfl⟩ := Prod.mk.inj (Option.some.inj h)
    rfl
  · cases h

theorem State.popI64_mem {v : BitVec 64} (h : s.popI64 = some (v, s₁)) : s₁.mem = s.mem := by
  unfold State.popI64 at h
  split at h
  · obtain ⟨-, rfl⟩ := Prod.mk.inj (Option.some.inj h)
    rfl
  · cases h

theorem State.setLocal_mem {x : Nat} {v : Value} (h : s.setLocal x v = some s₁) : s₁.mem = s.mem := by
  obtain ⟨-, hs⟩ := Option.ite_none_right_eq_some.mp h
  obtain rfl := Option.some.inj hs
  rfl

theorem State.unary_mem {f : BitVec 64 → Value} (h : s.unary f = some s₁) : s₁.mem = s.mem := by
  obtain ⟨⟨a, s'⟩, hpop, hs⟩ := Option.bind_eq_some_iff.mp h
  have hmem := State.popI64_mem hpop
  obtain rfl := Option.some.inj hs
  exact hmem

theorem State.binary32_mem {f : BitVec 32 → BitVec 32 → BitVec 32} (h : s.binary32 f = some s₁) :
    s₁.mem = s.mem := by
  obtain ⟨⟨b, s'⟩, hb, h⟩ := Option.bind_eq_some_iff.mp h
  obtain ⟨⟨a, s''⟩, ha, hs⟩ := Option.bind_eq_some_iff.mp h
  obtain rfl := Option.some.inj hs
  exact (State.popI32_mem ha).trans (State.popI32_mem hb)

theorem State.binary64_mem {f : BitVec 64 → BitVec 64 → BitVec 64} (h : s.binary64 f = some s₁) :
    s₁.mem = s.mem := by
  obtain ⟨⟨b, s'⟩, hb, h⟩ := Option.bind_eq_some_iff.mp h
  obtain ⟨⟨a, s''⟩, ha, hs⟩ := Option.bind_eq_some_iff.mp h
  obtain rfl := Option.some.inj hs
  exact (State.popI64_mem ha).trans (State.popI64_mem hb)

/-- One instruction writes no word but the permitted ones. -/
theorem Plain.exec_frame {reads writes : List (BitVec 64)} {i : Plain}
    (h : i.exec (.words reads writes) s = some s₁) : Frame writes s.mem s₁.mem := by
  have same (hmem : s₁.mem = s.mem) : Frame writes s.mem s₁.mem := by
    rw [hmem]
    exact Frame.refl _ _
  cases i with
  | localGet x =>
    obtain ⟨v, -, hs⟩ := Option.bind_eq_some_iff.mp h
    obtain rfl := Option.some.inj hs
    exact Frame.refl _ _
  | localSet x =>
    obtain ⟨⟨v, s'⟩, hpop, hset⟩ := Option.bind_eq_some_iff.mp h
    exact same ((State.setLocal_mem hset).trans (State.pop_mem hpop))
  | localTee x =>
    obtain ⟨⟨v, s'⟩, hpop, hset⟩ := Option.bind_eq_some_iff.mp h
    have hmem := State.pop_mem hpop
    exact same ((State.setLocal_mem hset).trans hmem)
  | i64Load align offset =>
    obtain ⟨⟨a, s'⟩, hpop, h⟩ := Option.bind_eq_some_iff.mp h
    obtain ⟨v, -, hs⟩ := Option.bind_eq_some_iff.mp h
    have hmem := State.popI32_mem hpop
    obtain rfl := Option.some.inj hs
    exact same hmem
  | i64Store align offset =>
    obtain ⟨⟨v, s'⟩, hv, h⟩ := Option.bind_eq_some_iff.mp h
    obtain ⟨⟨a, s''⟩, ha, h⟩ := Option.bind_eq_some_iff.mp h
    rw [← State.popI64_mem hv, ← State.popI32_mem ha]
    exact Split.store_frame h
  | i32Const v | i64Const v =>
    obtain rfl := Option.some.inj h
    exact Frame.refl _ _
  | i32Add | i32Sub => exact same (State.binary32_mem h)
  | i32WrapI64 | i64Eqz =>
    simp only [exec] at h
    exact same (State.unary_mem h)
  | i64 op => exact same (State.binary64_mem h)

/-- A run that may only write some words changes no other byte. -/
theorem Exec.frame {reads writes : List (BitVec 64)} (h : Exec (.words reads writes) c s e s₁) :
    Frame writes s.mem s₁.mem := by
  induction h with
  | done => exact Frame.refl _ _
  | plain hi _ ih => exact (Plain.exec_frame hi).trans ih
  | br => exact Frame.refl _ _
  | loopFall _ _ ih ih' => exact ih.trans ih'
  | loopAgain _ _ ih ih' => exact ih.trans ih'
  | loopExit _ ih => exact ih
  | ifZero _ _ ih => exact ih
  | ifFall _ _ _ _ ih ih' => exact ih.trans ih'
  | ifLabel _ _ _ _ ih ih' => exact ih.trans ih'
  | ifExit _ _ _ ih => exact ih

end Exec

end Wasm
