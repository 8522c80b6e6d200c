import HashWX.Context.Target
import Mathlib.Data.List.Nodup
import Mathlib.Logic.Function.Basic

/-!
# Allocation and release of contexts

`context.c` with `compiler.c` and the allocation half of `virtual_memory.c`. The heap says
what is allocated and not released, and of a context what `hashwx_free` reads of it. A
field that has not been assigned has no value. A release of anything that is not allocated
or of the other kind, and a read of a field without a value, are faults, and have no result.
Which addresses the allocators return, or whether they fail, is decided outside.
-/

namespace HashWX.Lifetime

/-- Only the two sentinels matter as numbers. -/
abbrev Ptr := Int

def null : Ptr := 0

/-- `HASHWX_NOTSUPP`. -/
def notsupp : Ptr := -1

/-- `MAP_FAILED`. -/
def mapFailed : Ptr := -1

inductive HashwxType | interpreted | compiled
deriving DecidableEq

structure Platform where
  target : Target
  /-- `HASHWX_WIN`. -/
  win : Bool

/-- The fields of a context are `code`, which shares its place with `func` and
`program_list`, and `type`. -/
inductive Block
  | context (code : Option Ptr) (type : Option HashwxType)
  | programList
  | code
  | mapping
deriving DecidableEq

abbrev Heap := Ptr → Option Block

def Heap.put (h : Heap) (p : Ptr) (b : Block) : Heap := Function.update h p (some b)

def Heap.erase (h : Heap) (p : Ptr) : Heap := Function.update h p none

namespace Heap

variable (h : Heap) {p q : Ptr} (b b' : Block)

@[simp] theorem put_self : h.put p b p = some b := by simp [put]

theorem put_of_ne (hq : q ≠ p) : h.put p b q = h q := by simp [put, hq]

@[simp] theorem erase_self : h.erase p p = none := by simp [erase]

theorem erase_of_ne (hq : q ≠ p) : h.erase p q = h q := by simp [erase, hq]

@[simp] theorem put_put : (h.put p b).put p b' = h.put p b' := by simp [put]

theorem put_comm (hq : q ≠ p) : (h.put p b).put q b' = (h.put q b').put p b := by
  unfold put
  exact Function.update_comm hq.symm _ _ _

/-- What is put to a free address and erased again is as if it had never been there. -/
theorem erase_put (hp : h p = none) : (h.put p b).erase p = h := by
  unfold erase put
  rw [Function.update_idem, ← hp, Function.update_eq_self]

end Heap

/-! ## The allocators -/

def malloc (result : Option Ptr) (b : Block) (h : Heap) : Ptr × Heap :=
  match result with
  | some p => (p, h.put p b)
  | none => (null, h)

def free (p : Ptr) (h : Heap) : Option Heap :=
  if p = null then some h
  else match h p with
    | some .mapping | none => none
    | some _ => some (h.erase p)

/-- `VirtualAlloc`, or `mmap`. -/
def hashwxVmAlloc (platform : Platform) (result : Option Ptr) (h : Heap) : Ptr × Heap :=
  match result with
  | some p => (p, h.put p .mapping)
  | none =>
    let mem := if platform.win then null else mapFailed
    (if platform.win = false ∧ mem = mapFailed then null else mem, h)

def hashwxVmFree (p : Ptr) (h : Heap) : Option Heap :=
  match h p with
  | some .mapping => some (h.erase p)
  | _ => none

/-! ## The fields of a context -/

def readCode (ctx : Ptr) (h : Heap) : Option Ptr :=
  match h ctx with
  | some (.context code _) => code
  | _ => none

def readType (ctx : Ptr) (h : Heap) : Option HashwxType :=
  match h ctx with
  | some (.context _ type) => type
  | _ => none

def writeCode (ctx p : Ptr) (h : Heap) : Option Heap :=
  match h ctx with
  | some (.context _ type) => some (h.put ctx (.context (some p) type))
  | _ => none

def writeType (ctx : Ptr) (type : HashwxType) (h : Heap) : Option Heap :=
  match h ctx with
  | some (.context code _) => some (h.put ctx (.context code (some type)))
  | _ => none

/-! ## The functions -/

/-- What the two allocations of one `hashwx_alloc` return. -/
structure Results where
  ctx : Option Ptr
  second : Option Ptr

section Functions

variable (platform : Platform)

def hashwxCompilerInit (result : Option Ptr) (ctx : Ptr) (h : Heap) : Option (Bool × Heap) := do
  let (code, h) := if platform.target = .wasm then malloc result .code h
    else hashwxVmAlloc platform result h
  let h ← writeCode ctx code h
  return (decide ((← readCode ctx h) ≠ null), h)

def hashwxCompilerDestroy (ctx : Ptr) (h : Heap) : Option Heap := do
  let code ← readCode ctx h
  if platform.target = .wasm then free code h else hashwxVmFree code h

def hashwxFree (ctx : Ptr) (h : Heap) : Option Heap := do
  if ctx ≠ null ∧ ctx ≠ notsupp then
    let code ← readCode ctx h
    let h ← if code ≠ null then do
        match ← readType ctx h with
        | .compiled => hashwxCompilerDestroy platform ctx h
        | .interpreted => free code h
      else some h
    free ctx h
  else return h

/-- The label `failure`. -/
def allocFailure (ctx : Ptr) (h : Heap) : Option (Ptr × Heap) := do
  return (null, ← hashwxFree platform ctx h)

def hashwxAlloc (type : HashwxType) (results : Results) (h : Heap) : Option (Ptr × Heap) :=
  if hashwxCompiler platform.target = false ∧ type = .compiled then some (notsupp, h)
  else
    let (ctx, h) := malloc results.ctx (.context none none) h
    if ctx = null then allocFailure platform ctx h
    else do
      let h ← writeCode ctx null h
      match type with
      | .compiled =>
        let (done, h) ← hashwxCompilerInit platform results.second ctx h
        if done = false then allocFailure platform ctx h
        else return (ctx, ← writeType ctx .compiled h)
      | .interpreted =>
        let (list, h) := malloc results.second .programList h
        let h ← writeCode ctx list h
        if (← readCode ctx h) = null then allocFailure platform ctx h
        else return (ctx, ← writeType ctx .interpreted h)

/-- An access to the block that a context points to. -/
def useBlock (p : Ptr) (h : Heap) : Option Heap := if (h p).isSome then some h else none

/-- `hashwx_make` writes the code or the program list. It allocates and releases nothing. -/
def hashwxMake (ctx : Ptr) (h : Heap) : Option Heap := do
  match ← readType ctx h with
  | .compiled => useBlock (← readCode ctx h) h
  | .interpreted => useBlock (← readCode ctx h) h

/-- `hashwx_exec` calls the code or reads the program list. On wasm it does not look at the type. -/
def hashwxExec (ctx : Ptr) (h : Heap) : Option Heap := do
  if platform.target = .wasm then useBlock (← readCode ctx h) h
  else match ← readType ctx h with
    | .compiled => useBlock (← readCode ctx h) h
    | .interpreted => useBlock (← readCode ctx h) h

end Functions

/-! ## Ownership -/

/-- What a context owns beside its own block. -/
def secondBlock (platform : Platform) : HashwxType → Block
  | .interpreted => .programList
  | .compiled => if platform.target = .wasm then .code else .mapping

/-- `ctx` is a context of the type that owns its own block and the one at `p`. -/
structure Owns (platform : Platform) (h : Heap) (ctx p : Ptr) (type : HashwxType) : Prop where
  context : h ctx = some (.context (some p) (some type))
  second : h p = some (secondBlock platform type)
  ctx_ne : ctx ≠ null ∧ ctx ≠ notsupp
  ne_null : p ≠ null

/-- An address that an allocator may return. -/
def Fresh (h : Heap) (p : Ptr) : Prop := h p = none ∧ p ≠ null ∧ p ≠ notsupp

structure Results.Fresh (results : Results) (h : Heap) : Prop where
  ctx : ∀ p, results.ctx = some p → Lifetime.Fresh h p
  second : ∀ p, results.second = some p → Lifetime.Fresh h p
  apart : ∀ p, results.ctx = some p → results.second ≠ some p

section Ownership

variable {platform : Platform} {h : Heap}

/-- No block is the own one of a context and the second one of another. -/
theorem Owns.ne {ctx ctx' p p' : Ptr} {type type' : HashwxType} (ho : Owns platform h ctx p type)
    (ho' : Owns platform h ctx' p' type') : ctx ≠ p' := by
  rintro rfl
  have hboth := ho.context.symm.trans ho'.second
  unfold secondBlock at hboth
  cases type'
  · cases hboth
  · simp only [Option.some.injEq] at hboth
    split at hboth <;> cases hboth

theorem Owns.congr {h' : Heap} {ctx p : Ptr} {type : HashwxType} (ho : Owns platform h ctx p type)
    (hctx : h' ctx = h ctx) (hp : h' p = h p) : Owns platform h' ctx p type :=
  ⟨hctx.trans ho.context, hp.trans ho.second, ho.ctx_ne, ho.ne_null⟩

theorem Owns.unique {ctx p q : Ptr} {type type' : HashwxType} (ho : Owns platform h ctx p type)
    (ho' : Owns platform h ctx q type') : p = q ∧ type = type' := by
  have hboth := ho.context.symm.trans ho'.context
  simpa using hboth

/-- Both blocks are released, each with the deallocator that fits. -/
theorem hashwxFree_eq {ctx p : Ptr} {type : HashwxType} (ho : Owns platform h ctx p type) :
    hashwxFree platform ctx h = some ((h.erase p).erase ctx) := by
  have hcode : readCode ctx h = some p := by rw [readCode, ho.context]
  have htype : readType ctx h = some type := by rw [readType, ho.context]
  have hctx : h.erase p ctx = some (.context (some p) (some type)) := by
    unfold Heap.erase
    rw [Function.update_of_ne (ho.ne ho), ho.context]
  have hlast : free ctx (h.erase p) = some ((h.erase p).erase ctx) := by
    rw [free, if_neg ho.ctx_ne.1, hctx]
  have hsecond := ho.second
  unfold secondBlock at hsecond
  simp only [hashwxFree, if_pos ho.ctx_ne, hcode, htype, bind, Option.bind_some]
  rw [if_pos ho.ne_null]
  cases type with
  | interpreted =>
    have hfirst : free p h = some (h.erase p) := by rw [free, if_neg ho.ne_null, hsecond]
    simp only [hfirst, Option.bind_some, hlast]
  | compiled =>
    have hfirst : hashwxCompilerDestroy platform ctx h = some (h.erase p) := by
      simp only [hashwxCompilerDestroy, hcode, bind, Option.bind_some]
      by_cases hwasm : platform.target = .wasm
      · simp only [hwasm, if_true, free, if_neg ho.ne_null] at hsecond ⊢
        rw [hsecond]
      · simp only [hwasm, if_false, hashwxVmFree] at hsecond ⊢
        rw [hsecond]
    simp only [hfirst, Option.bind_some, hlast]

theorem hashwxFree_null : hashwxFree platform null h = some h := rfl

theorem hashwxFree_notsupp : hashwxFree platform notsupp h = some h := rfl

/-- A context whose second allocation has failed is released before its type is set. -/
theorem hashwxFree_unfinished {ctx : Ptr} {type : Option HashwxType} (hctx : ctx ≠ null ∧ ctx ≠ notsupp)
    (hcode : h ctx = some (.context (some null) type)) :
    hashwxFree platform ctx h = some (h.erase ctx) := by
  have hread : readCode ctx h = some null := by rw [readCode, hcode]
  have hfree : free ctx h = some (h.erase ctx) := by rw [free, if_neg hctx.1, hcode]
  simp only [hashwxFree, if_pos hctx, hread, bind, Option.bind_some]
  rw [if_neg (fun hne : null ≠ null => hne rfl)]
  exact hfree

/-- The page allocator, or `malloc` in its place. -/
theorem hashwxCompilerInit_some (platform : Platform) {ctx p : Ptr} {type : Option HashwxType} (hp : p ≠ null)
    (hne : ctx ≠ p) (hctx : h ctx = some (.context (some null) type)) :
    hashwxCompilerInit platform (some p) ctx h = some (true,
      (h.put p (secondBlock platform .compiled)).put ctx (.context (some p) type)) := by
  have halloc : (if platform.target = .wasm then malloc (some p) .code h
      else hashwxVmAlloc platform (some p) h) = (p, h.put p (secondBlock platform .compiled)) := by
    unfold secondBlock
    split <;> simp only [malloc, hashwxVmAlloc]
  have hkept : h.put p (secondBlock platform .compiled) ctx = some (.context (some null) type) :=
    (h.put_of_ne _ hne).trans hctx
  simp only [hashwxCompilerInit, halloc, writeCode, hkept, readCode, Heap.put_self, bind,
    Option.bind_some, pure]
  rw [decide_eq_true hp]

theorem hashwxCompilerInit_none (platform : Platform) {ctx : Ptr} {type : Option HashwxType}
    (hctx : h ctx = some (.context (some null) type)) :
    hashwxCompilerInit platform none ctx h = some (false, h.put ctx (.context (some null) type)) := by
  have halloc : (if platform.target = .wasm then malloc none .code h
      else hashwxVmAlloc platform none h) = (null, h) := by
    unfold malloc hashwxVmAlloc
    cases platform.win <;> simp [mapFailed]
  simp only [hashwxCompilerInit, halloc, writeCode, hctx, readCode, Heap.put_self, bind,
    Option.bind_some, pure]
  rw [decide_eq_false (fun hne : null ≠ null => hne rfl)]

/-- The heap with a new context. -/
def allocated (platform : Platform) (type : HashwxType) (ctx p : Ptr) (h : Heap) : Heap :=
  (h.put ctx (.context (some p) (some type))).put p (secondBlock platform type)

section Alloc

variable {type : HashwxType} {results : Results}
  (hsupp : ¬(hashwxCompiler platform.target = false ∧ type = .compiled)) (hf : results.Fresh h)
include hsupp

theorem hashwxAlloc_first (hctx : results.ctx = none) :
    hashwxAlloc platform type results h = some (null, h) := by
  simp only [hashwxAlloc, if_neg hsupp, hctx, malloc, if_true, allocFailure, hashwxFree_null, bind,
    Option.bind_some, pure]

include hf

theorem hashwxAlloc_second {ctx : Ptr} (hctx : results.ctx = some ctx) (hsecond : results.second = none) :
    hashwxAlloc platform type results h = some (null, h) := by
  obtain ⟨hfree, hnull, hnotsupp⟩ := hf.ctx ctx hctx
  have hfail : hashwxFree platform ctx (h.put ctx (.context (some null) none)) = some h := by
    rw [hashwxFree_unfinished ⟨hnull, hnotsupp⟩ (h.put_self _), h.erase_put _ hfree]
  have hinit := hashwxCompilerInit_none platform (h.put_self (p := ctx) (.context (some null) none))
  simp only [hashwxAlloc, if_neg hsupp, hctx, hsecond, malloc, if_neg hnull, writeCode, Heap.put_self,
    Heap.put_put, bind, Option.bind_some]
  cases type with
  | interpreted =>
    simp only [Heap.put_self, readCode, Option.bind_some, if_true, allocFailure, hfail, bind, pure]
  | compiled =>
    simp only [hinit, Heap.put_put, Option.bind_some, if_true, allocFailure, hfail, bind, pure]

theorem hashwxAlloc_done {ctx p : Ptr} (hctx : results.ctx = some ctx) (hsecond : results.second = some p) :
    hashwxAlloc platform type results h = some (ctx, allocated platform type ctx p h) := by
  obtain ⟨-, hnull, -⟩ := hf.ctx ctx hctx
  obtain ⟨-, hp, -⟩ := hf.second p hsecond
  have hne : ctx ≠ p := by
    rintro rfl
    exact hf.apart ctx hctx hsecond
  have hinit := hashwxCompilerInit_some platform hp hne (h.put_self (p := ctx) (.context (some null) none))
  -- the fields of the context are assigned on both sides of the second allocation
  have hswap (b b' : Block) : ((h.put ctx b).put p b').put ctx (.context (some p) (some type)) =
      (h.put ctx (.context (some p) (some type))).put p b' := by
    rw [Heap.put_comm _ _ _ hne, Heap.put_put]
  have hkept (b b' : Block) : (h.put ctx b).put p b' ctx = some b :=
    (Heap.put_of_ne _ _ hne).trans (h.put_self b)
  simp only [hashwxAlloc, if_neg hsupp, hctx, hsecond, malloc, if_neg hnull, writeCode, Heap.put_self,
    Heap.put_put, bind, Option.bind_some, allocated]
  cases type with
  | interpreted =>
    simp only [hkept, readCode, writeType, Heap.put_self, Heap.put_put, Option.bind_some, if_neg hp,
      hswap, secondBlock, pure]
  | compiled =>
    simp only [hinit, writeType, Heap.put_self, Heap.put_put, Option.bind_some, Bool.true_eq_false,
      if_false, hswap, pure]

end Alloc

end Ownership

/-! ## Calls in any order -/

/-- The heap and the contexts that the caller has got and not released. -/
structure World where
  heap : Heap
  contexts : List Ptr

def World.empty : World := ⟨fun _ => none, []⟩

inductive Call
  | alloc (type : HashwxType) (results : Results)
  | make (ctx : Ptr)
  | exec (ctx : Ptr)
  | free (ctx : Ptr)

def step (platform : Platform) (w : World) : Call → Option World
  | .alloc type results => do
    let (ctx, heap) ← hashwxAlloc platform type results w.heap
    return ⟨heap, if ctx = null ∨ ctx = notsupp then w.contexts else ctx :: w.contexts⟩
  | .make ctx => do return ⟨← hashwxMake ctx w.heap, w.contexts⟩
  | .exec ctx => do return ⟨← hashwxExec platform ctx w.heap, w.contexts⟩
  | .free ctx => do return ⟨← hashwxFree platform ctx w.heap, w.contexts.erase ctx⟩

def run (platform : Platform) : World → List Call → Option World
  | w, [] => some w
  | w, call :: calls => do run platform (← step platform w call) calls

/-- What callers and allocators promise: the allocators return addresses that are not in use,
and only live contexts are used and released. -/
def Allowed (w : World) : Call → Prop
  | .alloc _ results => results.Fresh w.heap
  | .make ctx | .exec ctx => ctx ∈ w.contexts
  | .free ctx => ctx = null ∨ ctx = notsupp ∨ ctx ∈ w.contexts

def AllAllowed (platform : Platform) : World → List Call → Prop
  | _, [] => True
  | w, call :: calls =>
    Allowed w call ∧ ∀ w', step platform w call = some w' → AllAllowed platform w' calls

/-- Every live context owns two blocks, no two contexts share one, and there are no others. -/
structure Balanced (platform : Platform) (w : World) : Prop where
  nodup : w.contexts.Nodup
  owns : ∀ ctx ∈ w.contexts, ∃ p type, Owns platform w.heap ctx p type
  apart : ∀ ctx ∈ w.contexts, ∀ ctx' ∈ w.contexts, ∀ p type type',
    Owns platform w.heap ctx p type → Owns platform w.heap ctx' p type' → ctx = ctx'
  only : ∀ x, w.heap x ≠ none → ∃ ctx ∈ w.contexts, ∃ p type,
    Owns platform w.heap ctx p type ∧ (x = ctx ∨ x = p)

section Steps

variable {platform : Platform} {w : World}

theorem balanced_empty : Balanced platform .empty :=
  ⟨List.nodup_nil, fun _ h => absurd h List.not_mem_nil, fun _ h => absurd h List.not_mem_nil,
    fun _ h => absurd rfl h⟩

variable (hb : Balanced platform w)
include hb

theorem Balanced.not_mem_null : null ∉ w.contexts := fun h => by
  obtain ⟨p, type, ho⟩ := hb.owns null h
  exact ho.ctx_ne.1 rfl

theorem Balanced.not_mem_notsupp : notsupp ∉ w.contexts := fun h => by
  obtain ⟨p, type, ho⟩ := hb.owns notsupp h
  exact ho.ctx_ne.2 rfl

/-- A new context shares nothing with the others. -/
theorem balanced_alloc {ctx p : Ptr} (type : HashwxType) (hctx : Fresh w.heap ctx)
    (hp : Fresh w.heap p) (hne : ctx ≠ p) :
    Balanced platform ⟨allocated platform type ctx p w.heap, ctx :: w.contexts⟩ ∧
      Owns platform (allocated platform type ctx p w.heap) ctx p type := by
  have hother (x : Ptr) (hx : w.heap x ≠ none) : allocated platform type ctx p w.heap x = w.heap x := by
    have hxctx : x ≠ ctx := fun h => hx (h ▸ hctx.1)
    have hxp : x ≠ p := fun h => hx (h ▸ hp.1)
    rw [allocated, Heap.put_of_ne _ _ hxp, Heap.put_of_ne _ _ hxctx]
  have hnew : Owns platform (allocated platform type ctx p w.heap) ctx p type :=
    ⟨by rw [allocated, Heap.put_of_ne _ _ hne, Heap.put_self], by rw [allocated, Heap.put_self],
      hctx.2, hp.2.1⟩
  have hold {c q : Ptr} {t : HashwxType} (ho : Owns platform w.heap c q t) :
      Owns platform (allocated platform type ctx p w.heap) c q t :=
    ho.congr (hother c (by rw [ho.context]; simp)) (hother q (by rw [ho.second]; simp))
  have hlive {c : Ptr} (hc : c ∈ w.contexts) : c ≠ ctx := by
    rintro rfl
    obtain ⟨q, t, ho⟩ := hb.owns c hc
    exact absurd (ho.context.symm.trans hctx.1) (by simp)
  have hback {c q : Ptr} {t : HashwxType} (hc : c ∈ w.contexts)
      (ho : Owns platform (allocated platform type ctx p w.heap) c q t) : Owns platform w.heap c q t := by
    obtain ⟨q', t', ho'⟩ := hb.owns c hc
    obtain ⟨rfl, rfl⟩ := (hold ho').unique ho
    exact ho'
  have hfresh {c q : Ptr} {t t' : HashwxType} (hc : c ∈ w.contexts)
      (ho : Owns platform (allocated platform type ctx p w.heap) ctx q t)
      (ho' : Owns platform (allocated platform type ctx p w.heap) c q t') : False := by
    obtain ⟨rfl, -⟩ := hnew.unique ho
    exact absurd ((hback hc ho').second.symm.trans hp.1) (by simp)
  refine ⟨⟨List.nodup_cons.mpr ⟨fun h => hlive h rfl, hb.nodup⟩, fun c hc => ?_, ?_, fun x hx => ?_⟩, hnew⟩
  · rcases List.mem_cons.mp hc with rfl | hc
    · exact ⟨p, type, hnew⟩
    · obtain ⟨q, t, ho⟩ := hb.owns c hc
      exact ⟨q, t, hold ho⟩
  · intro c hc c' hc' q t t' ho ho'
    rcases List.mem_cons.mp hc with rfl | hold₁
    · rcases List.mem_cons.mp hc' with rfl | hold₂
      · rfl
      · exact (hfresh hold₂ ho ho').elim
    · rcases List.mem_cons.mp hc' with rfl | hold₂
      · exact (hfresh hold₁ ho' ho).elim
      · exact hb.apart c hold₁ c' hold₂ q t t' (hback hold₁ ho) (hback hold₂ ho')
  · by_cases hxctx : x = ctx
    · exact ⟨ctx, List.mem_cons_self, p, type, hnew, .inl hxctx⟩
    by_cases hxp : x = p
    · exact ⟨ctx, List.mem_cons_self, p, type, hnew, .inr hxp⟩
    have hxold : w.heap x ≠ none := by
      dsimp only at hx
      rwa [allocated, Heap.put_of_ne _ _ hxp, Heap.put_of_ne _ _ hxctx] at hx
    obtain ⟨c, hc, q, t, ho, hxq⟩ := hb.only x hxold
    exact ⟨c, List.mem_cons_of_mem _ hc, q, t, hold ho, hxq⟩

/-- The other contexts keep what they own. -/
theorem balanced_free {ctx p : Ptr} {type : HashwxType} (hctx : ctx ∈ w.contexts)
    (ho : Owns platform w.heap ctx p type) :
    Balanced platform ⟨(w.heap.erase p).erase ctx, w.contexts.erase ctx⟩ := by
  have hmem {c : Ptr} : c ∈ w.contexts.erase ctx ↔ c ≠ ctx ∧ c ∈ w.contexts := hb.nodup.mem_erase_iff
  have hkeep {c q : Ptr} {t : HashwxType} (hc : c ∈ w.contexts.erase ctx)
      (hoc : Owns platform w.heap c q t) : Owns platform ((w.heap.erase p).erase ctx) c q t := by
    obtain ⟨hne, hc⟩ := hmem.mp hc
    have hqp : q ≠ p := by
      rintro rfl
      exact hne (hb.apart c hc ctx hctx q t type hoc ho)
    refine hoc.congr ?_ ?_
    · rw [Heap.erase_of_ne _ hne, Heap.erase_of_ne _ (hoc.ne ho)]
    · rw [Heap.erase_of_ne _ (ho.ne hoc).symm, Heap.erase_of_ne _ hqp]
  have hback {c q : Ptr} {t : HashwxType} (hc : c ∈ w.contexts.erase ctx)
      (hoc : Owns platform ((w.heap.erase p).erase ctx) c q t) : Owns platform w.heap c q t := by
    obtain ⟨q', t', hoc'⟩ := hb.owns c (hmem.mp hc).2
    obtain ⟨rfl, rfl⟩ := (hkeep hc hoc').unique hoc
    exact hoc'
  refine ⟨hb.nodup.erase ctx, fun c hc => ?_, ?_, fun x hx => ?_⟩
  · obtain ⟨q, t, hoc⟩ := hb.owns c (hmem.mp hc).2
    exact ⟨q, t, hkeep hc hoc⟩
  · intro c hc c' hc' q t t' hoc hoc'
    exact hb.apart c (hmem.mp hc).2 c' (hmem.mp hc').2 q t t' (hback hc hoc) (hback hc' hoc')
  · dsimp only at hx
    have hxctx : x ≠ ctx := by
      rintro rfl
      exact hx (Heap.erase_self _)
    rw [Heap.erase_of_ne _ hxctx] at hx
    have hxp : x ≠ p := by
      rintro rfl
      exact hx (Heap.erase_self _)
    rw [Heap.erase_of_ne _ hxp] at hx
    obtain ⟨c, hc, q, t, hoc, hxq⟩ := hb.only x hx
    have hne : c ≠ ctx := by
      rintro rfl
      obtain ⟨rfl, -⟩ := ho.unique hoc
      rcases hxq with rfl | rfl
      · exact hxctx rfl
      · exact hxp rfl
    exact ⟨c, hmem.mpr ⟨hne, hc⟩, q, t, hkeep (hmem.mpr ⟨hne, hc⟩) hoc, hxq⟩

/-- What `hashwx_alloc` does: nothing if the type is not supported or an allocation fails, and
otherwise it returns a new context with two blocks. -/
inductive Allocates (platform : Platform) (w : World) (type : HashwxType) (results : Results) :
    Ptr → Heap → Prop
  | unsupported (hsupp : hashwxCompiler platform.target = false ∧ type = .compiled) :
    Allocates platform w type results notsupp w.heap
  | failed (hsupp : ¬(hashwxCompiler platform.target = false ∧ type = .compiled))
    (h : results.ctx = none ∨ results.second = none) : Allocates platform w type results null w.heap
  | done {ctx p : Ptr} (hsupp : ¬(hashwxCompiler platform.target = false ∧ type = .compiled))
    (hctx : results.ctx = some ctx) (hsecond : results.second = some p) :
    Allocates platform w type results ctx (allocated platform type ctx p w.heap)

omit hb in
theorem hashwxAlloc_allocates (platform : Platform) (type : HashwxType) {results : Results}
    (hf : results.Fresh w.heap) :
    ∃ ctx heap, hashwxAlloc platform type results w.heap = some (ctx, heap) ∧
      Allocates platform w type results ctx heap := by
  by_cases hsupp : hashwxCompiler platform.target = false ∧ type = .compiled
  · exact ⟨_, _, if_pos hsupp, .unsupported hsupp⟩
  cases hctx : results.ctx with
  | none => exact ⟨_, _, hashwxAlloc_first hsupp hctx, .failed hsupp (.inl hctx)⟩
  | some ctx =>
    cases hsecond : results.second with
    | none => exact ⟨_, _, hashwxAlloc_second hsupp hf hctx hsecond, .failed hsupp (.inr hsecond)⟩
    | some p => exact ⟨_, _, hashwxAlloc_done hsupp hf hctx hsecond, .done hsupp hctx hsecond⟩

/-- No call that is allowed has a fault, and the balance is kept. -/
theorem step_balanced {call : Call} (ha : Allowed w call) :
    ∃ w', step platform w call = some w' ∧ Balanced platform w' := by
  have huse {ctx : Ptr} (hctx : ctx ∈ w.contexts) : hashwxMake ctx w.heap = some w.heap ∧
      hashwxExec platform ctx w.heap = some w.heap := by
    obtain ⟨p, type, ho⟩ := hb.owns ctx hctx
    have hcode : readCode ctx w.heap = some p := by rw [readCode, ho.context]
    have htype : readType ctx w.heap = some type := by rw [readType, ho.context]
    have hblock : useBlock p w.heap = some w.heap := by rw [useBlock, ho.second, Option.isSome_some, if_pos rfl]
    constructor
    · simp only [hashwxMake, htype, hcode, bind, Option.bind_some]
      cases type <;> exact hblock
    · simp only [hashwxExec, htype, hcode, bind, Option.bind_some]
      split
      · exact hblock
      · cases type <;> exact hblock
  cases call with
  | alloc type results =>
    obtain ⟨ctx, heap, halloc, hresult⟩ := hashwxAlloc_allocates platform type ha
    simp only [step, halloc, bind, Option.bind_some, pure, Option.some.injEq, exists_eq_left']
    cases hresult with
    | unsupported h => exact hb
    | failed _ h => exact hb
    | @done ctx p _ hctx hsecond =>
      obtain ⟨hfree, hnull, hnotsupp⟩ := ha.ctx ctx hctx
      have hne : ctx ≠ p := by
        rintro rfl
        exact ha.apart ctx hctx hsecond
      rw [if_neg (not_or.mpr ⟨hnull, hnotsupp⟩)]
      exact (balanced_alloc hb type ⟨hfree, hnull, hnotsupp⟩ (ha.second p hsecond) hne).1
  | make ctx =>
    refine ⟨w, ?_, hb⟩
    simp only [step, (huse ha).1, bind, Option.bind_some, pure]
  | exec ctx =>
    refine ⟨w, ?_, hb⟩
    simp only [step, (huse ha).2, bind, Option.bind_some, pure]
  | free ctx =>
    rcases ha with rfl | rfl | hctx
    · refine ⟨⟨w.heap, w.contexts.erase null⟩, rfl, ?_⟩
      rwa [List.erase_of_not_mem (hb.not_mem_null)]
    · refine ⟨⟨w.heap, w.contexts.erase notsupp⟩, rfl, ?_⟩
      rwa [List.erase_of_not_mem (hb.not_mem_notsupp)]
    · obtain ⟨p, type, ho⟩ := hb.owns ctx hctx
      refine ⟨⟨(w.heap.erase p).erase ctx, w.contexts.erase ctx⟩, ?_, balanced_free hb hctx ho⟩
      simp only [step, hashwxFree_eq ho, bind, Option.bind_some, pure]

/-- What a live context owns, and that its release is the release of just that. -/
def Releases (platform : Platform) (w : World) (ctx : Ptr) : Prop :=
  ∃ p type, Owns platform w.heap ctx p type ∧
    hashwxFree platform ctx w.heap = some ((w.heap.erase p).erase ctx)

end Steps

theorem run_balanced {platform : Platform} {w : World} {calls : List Call} (hb : Balanced platform w)
    (ha : AllAllowed platform w calls) : ∃ w', run platform w calls = some w' ∧ Balanced platform w' := by
  induction calls generalizing w with
  | nil => exact ⟨w, rfl, hb⟩
  | cons call calls ih =>
    obtain ⟨hcall, hrest⟩ := ha
    obtain ⟨w₁, hstep, hb₁⟩ := step_balanced hb hcall
    obtain ⟨w', hrun, hb'⟩ := ih hb₁ (hrest w₁ hstep)
    refine ⟨w', ?_, hb'⟩
    simp only [run, hstep, bind, Option.bind_some]
    exact hrun

/-- **Contexts balance.** Whatever the allocators return and in whatever order the calls come,
none of them has a fault; every live context owns its own block and one more, and nothing else is
allocated; a failed `hashwx_alloc` leaves nothing behind, and `hashwx_free` releases just what
its context owns. -/
theorem contexts_balanced (platform : Platform) (calls : List Call)
    (h : AllAllowed platform .empty calls) :
    ∃ w, run platform .empty calls = some w ∧ Balanced platform w ∧
      (∀ type results, results.Fresh w.heap → ∃ ctx heap,
        hashwxAlloc platform type results w.heap = some (ctx, heap) ∧
        Allocates platform w type results ctx heap) ∧
      (∀ ctx ∈ w.contexts, Releases platform w ctx) ∧
      hashwxFree platform null w.heap = some w.heap ∧
      hashwxFree platform notsupp w.heap = some w.heap := by
  obtain ⟨w, hrun, hb⟩ := run_balanced balanced_empty h
  refine ⟨w, hrun, hb, fun type _ hf => hashwxAlloc_allocates platform type hf, fun ctx hctx => ?_,
    hashwxFree_null, hashwxFree_notsupp⟩
  obtain ⟨p, type, ho⟩ := hb.owns ctx hctx
  exact ⟨p, type, ho, hashwxFree_eq ho⟩

/-- A compiled context, an interpreted one whose second allocation fails, and the release. -/
def sampleCalls : List Call :=
  [.alloc .compiled ⟨some 16, some 32⟩, .make 16, .exec 16, .alloc .interpreted ⟨some 48, none⟩,
    .free 16, .free null]

theorem AllAllowed.cons {platform : Platform} {w w' : World} {call : Call} {calls : List Call}
    (hstep : step platform w call = some w') (ha : Allowed w call)
    (hrest : AllAllowed platform w' calls) : AllAllowed platform w (call :: calls) := by
  refine ⟨ha, fun w₁ h => ?_⟩
  obtain rfl := Option.some.inj (hstep.symm.trans h)
  exact hrest

theorem contexts_balanced_sample : ∃ w, run ⟨.x86, false⟩ .empty sampleCalls = some w ∧
    Balanced ⟨.x86, false⟩ w := by
  have hallowed : AllAllowed ⟨.x86, false⟩ .empty sampleCalls := by
    refine .cons rfl ⟨?_, ?_, ?_⟩ <| .cons rfl List.mem_cons_self <| .cons rfl List.mem_cons_self <|
      .cons rfl ⟨?_, ?_, ?_⟩ <| .cons rfl (.inr (.inr List.mem_cons_self)) <| .cons rfl (.inl rfl) trivial
    · rintro _ ⟨⟩
      exact ⟨rfl, by decide, by decide⟩
    · rintro _ ⟨⟩
      exact ⟨rfl, by decide, by decide⟩
    · rintro _ ⟨⟩
      decide
    · rintro _ ⟨⟩
      exact ⟨rfl, by decide, by decide⟩
    · rintro _ ⟨⟩
    · rintro _ ⟨⟩
      decide
  obtain ⟨w, hrun, hb, -⟩ := contexts_balanced ⟨.x86, false⟩ sampleCalls hallowed
  exact ⟨w, hrun, hb⟩

end HashWX.Lifetime
