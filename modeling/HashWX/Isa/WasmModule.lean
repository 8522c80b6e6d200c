import HashWX.Isa.Wasm

/-!
# Validation of WebAssembly modules

The typing of the fragment, and modules that import a memory and export functions. The
head of a list of types is the top of the operand stack.
-/

namespace Wasm

open ByteMemory

/-- What a sequence of instructions may refer to. The first label is the innermost one. -/
structure Context where
  locals : List ValType
  labels : List (List ValType)
  memory : Bool

/-- The context of a block. -/
def Context.block (ctx : Context) : Context := { ctx with labels := [] :: ctx.labels }

/-- The operands that an instruction takes and leaves. A word has eight bytes, so its
alignment is at most three. -/
def Plain.type (ctx : Context) : Plain → Option (List ValType × List ValType)
  | .localGet x => do return ([], [← ctx.locals[x]?])
  | .localSet x => do return ([← ctx.locals[x]?], [])
  | .localTee x => do return ([← ctx.locals[x]?], [← ctx.locals[x]?])
  | .i64Load align _ => if ctx.memory ∧ align ≤ 3 then some ([.i32], [.i64]) else none
  | .i64Store align _ => if ctx.memory ∧ align ≤ 3 then some ([.i64, .i32], []) else none
  | .i32Const _ => some ([], [.i32])
  | .i64Const _ => some ([], [.i64])
  | .i32Add => some ([.i32, .i32], [.i32])
  | .i32Sub => some ([.i32, .i32], [.i32])
  | .i32WrapI64 => some ([.i64], [.i32])
  | .i64Eqz => some ([.i64], [.i32])
  | .i64 _ => some ([.i64, .i64], [.i64])

/-- The types of the operand stack in front of a sequence and behind it. Behind a branch
they may be any. -/
inductive Typed : Context → Code → List ValType → List ValType → Prop
  | done {ctx : Context} {ts : List ValType} : Typed ctx .done ts ts
  | plain {ctx : Context} {i : Plain} {rest : Code} {ps qs ts us : List ValType} :
      i.type ctx = some (ps, qs) → Typed ctx rest (qs ++ ts) us →
        Typed ctx (.plain i rest) (ps ++ ts) us
  | loop {ctx : Context} {body rest : Code} {ts us : List ValType} :
      Typed ctx.block body [] [] → Typed ctx rest ts us → Typed ctx (.loop body rest) ts us
  | ifThen {ctx : Context} {body rest : Code} {ts us : List ValType} :
      Typed ctx.block body [] [] → Typed ctx rest ts us →
        Typed ctx (.ifThen body rest) (.i32 :: ts) us
  | br {ctx : Context} {l : Nat} {rest : Code} {ps ts ts' us : List ValType} :
      ctx.labels[l]? = some ps → Typed ctx rest ts' us → Typed ctx (.br l rest) (ps ++ ts) us

section Typed

variable {ctx : Context} {c c' : Code} {ts us vs : List ValType}

/-- The results of the first piece are the operands of the second. -/
theorem Typed.append (h : Typed ctx c ts us) (h' : Typed ctx c' us vs) :
    Typed ctx (c ++ c') ts vs := by
  induction h with
  | done => exact h'
  | plain hi _ ih => exact .plain hi (ih h')
  | loop hbody _ _ ih => exact .loop hbody (ih h')
  | ifThen hbody _ _ ih => exact .ifThen hbody (ih h')
  | br hl _ ih => exact .br hl (ih h')

/-- The types behind a sequence without control instructions. -/
def typeAll (ctx : Context) : List Plain → List ValType → Option (List ValType)
  | [], ts => some ts
  | i :: is, ts => do
    let (ps, qs) ← i.type ctx
    if ps = ts.take ps.length then typeAll ctx is (qs ++ ts.drop ps.length) else none

theorem typeAll_append {is js : List Plain} (h : typeAll ctx is ts = some us)
    (h' : typeAll ctx js us = some vs) : typeAll ctx (is ++ js) ts = some vs := by
  induction is generalizing ts with
  | nil =>
    obtain rfl := Option.some.inj h
    exact h'
  | cons i is ih =>
    obtain ⟨⟨ps, qs⟩, hi, h⟩ := Option.bind_eq_some_iff.mp h
    obtain ⟨hps, h⟩ := Option.ite_none_right_eq_some.mp h
    exact Option.bind_eq_some_iff.mpr ⟨(ps, qs), hi, Option.ite_none_right_eq_some.mpr ⟨hps, ih h⟩⟩

/-- Straight code is valid if its types work out one by one. -/
theorem typed_plains {is : List Plain} (h : typeAll ctx is ts = some us) :
    Typed ctx (.plains is) ts us := by
  induction is generalizing ts with
  | nil =>
    obtain rfl := Option.some.inj h
    exact .done
  | cons i is ih =>
    obtain ⟨⟨ps, qs⟩, hi, h⟩ := Option.bind_eq_some_iff.mp h
    obtain ⟨hps, h⟩ := Option.ite_none_right_eq_some.mp h
    rw [← List.take_append_drop ps.length ts, ← hps]
    exact .plain hi (ih h)

end Typed

theorem typed_concat {ctx : Context} {parts : List Code}
    (h : ∀ c ∈ parts, Typed ctx c [] []) : Typed ctx (.concat parts) [] [] := by
  induction parts with
  | nil => exact .done
  | cons c parts ih =>
    obtain ⟨hc, hparts⟩ := List.forall_mem_cons.mp h
    exact hc.append (ih hparts)

/-! ## Branches -/

/-- What a label belongs to. -/
inductive Label | func | loop | ifThen
deriving DecidableEq

/-- Every branch goes to the innermost loop around it. -/
def Code.BranchesToLoop : Code → List Label → Prop
  | .done, _ => True
  | .plain _ rest, labels => rest.BranchesToLoop labels
  | .loop body rest, labels => body.BranchesToLoop (.loop :: labels) ∧ rest.BranchesToLoop labels
  | .ifThen body rest, labels => body.BranchesToLoop (.ifThen :: labels) ∧ rest.BranchesToLoop labels
  | .br l rest, labels =>
    labels[l]? = some .loop ∧ .loop ∉ labels.take l ∧ rest.BranchesToLoop labels

namespace Code

variable {c c' : Code} {labels : List Label}

/-- Both pieces have the same labels around them. -/
theorem BranchesToLoop.append (h : c.BranchesToLoop labels) (h' : c'.BranchesToLoop labels) :
    (c ++ c').BranchesToLoop labels := by
  induction c with
  | done => exact h'
  | plain i rest ih => exact ih h
  | loop body rest _ ih => exact ⟨h.1, ih h.2⟩
  | ifThen body rest _ ih => exact ⟨h.1, ih h.2⟩
  | br l rest ih => exact ⟨h.1, h.2.1, ih h.2.2⟩

theorem branchesToLoop_plains (is : List Plain) : (plains is).BranchesToLoop labels := by
  induction is with
  | nil => trivial
  | cons i is ih => exact ih

theorem branchesToLoop_concat {parts : List Code} (h : ∀ c ∈ parts, c.BranchesToLoop labels) :
    (concat parts).BranchesToLoop labels := by
  induction parts with
  | nil => trivial
  | cons c parts ih =>
    obtain ⟨hc, hparts⟩ := List.forall_mem_cons.mp h
    exact hc.append (ih hparts)

end Code

/-! ## Modules -/

structure FuncType where
  params : List ValType
  results : List ValType
deriving DecidableEq

structure Limits where
  min : Nat
  max : Option Nat
deriving DecidableEq

/-- An imported memory. -/
structure Import where
  module : List (BitVec 8)
  name : List (BitVec 8)
  limits : Limits

structure Func where
  type : Nat
  locals : List ValType
  body : Code

/-- An exported function. -/
structure Export where
  name : List (BitVec 8)
  func : Nat

structure Module where
  types : List FuncType
  imports : List Import
  funcs : List Func
  exports : List Export

/-- Sizes count pages of 64 KiB. -/
structure Limits.Valid (limits : Limits) : Prop where
  min_le : limits.min ≤ 65536
  max_le : ∀ n, limits.max = some n → n ≤ 65536 ∧ limits.min ≤ n

/-- The body leaves the results of the function, which are also those of its label. -/
def Func.Valid (m : Module) (f : Func) : Prop :=
  ∃ t, m.types[f.type]? = some t ∧
    Typed ⟨t.params ++ f.locals, [t.results], m.imports ≠ []⟩ f.body [] t.results

structure Module.Valid (m : Module) : Prop where
  types : ∀ t ∈ m.types, t.results.length ≤ 1
  imports : ∀ i ∈ m.imports, i.limits.Valid
  memories : m.imports.length ≤ 1
  funcs : ∀ f ∈ m.funcs, f.Valid m
  exports : ∀ e ∈ m.exports, e.func < m.funcs.length
  names : (m.exports.map Export.name).Nodup

/-- A call of an exported function without results, and the memory behind it. -/
inductive Invoke (access : Access) (m : Module) (name : List (BitVec 8)) (args : List Value)
    (mem : Bytes 64) : Bytes 64 → Prop
  | intro {e : Export} {f : Func} {t : FuncType} {x : Exit} {s : State} :
      e ∈ m.exports → e.name = name → m.funcs[e.func]? = some f → m.types[f.type]? = some t →
      t.params = args.map Value.type → t.results = [] →
      Exec access f.body ⟨args ++ f.locals.map ValType.default, [], mem⟩ x s →
      x = .fall ∨ x = .br 0 → Invoke access m name args mem s.mem

section Invoke

variable {access access' : Access} {m : Module} {name : List (BitVec 8)} {args : List Value}
  {mem mem₁ mem₂ : Bytes 64}

/-- A call of a valid module has one result. -/
theorem Invoke.deterministic (hm : m.Valid) (h : Invoke access m name args mem mem₁)
    (h' : Invoke access m name args mem mem₂) : mem₁ = mem₂ := by
  obtain ⟨he, hname, hf, ht, -, -, hexec, -⟩ := h
  obtain ⟨he', hname', hf', ht', -, -, hexec', -⟩ := h'
  obtain rfl := List.inj_on_of_nodup_map hm.names he he' (hname.trans hname'.symm)
  obtain rfl := Option.some.inj (hf.symm.trans hf')
  obtain ⟨-, rfl⟩ := hexec.deterministic hexec'
  rfl

/-- A call that keeps to a policy runs the same under a weaker one. -/
theorem Invoke.mono (hw : access.Weaker access') (h : Invoke access m name args mem mem₁) :
    Invoke access' m name args mem mem₁ := by
  obtain ⟨he, hname, hf, ht, hparams, hresults, hexec, hx⟩ := h
  exact .intro he hname hf ht hparams hresults (hexec.mono hw) hx

/-- A call changes only the words that the policy permits. -/
theorem Invoke.frame {reads writes : List (BitVec 64)}
    (h : Invoke (.words reads writes) m name args mem mem₁) : Frame writes mem mem₁ := by
  obtain ⟨-, -, -, -, -, -, hexec, -⟩ := h
  exact hexec.frame

end Invoke

end Wasm
