import HashWX.Context.Conformance
import HashWX.Js.Glue
import HashWX.Lib.Simulation

/-!
# What the users of the class see

A user sees handles, each with the contents of a seed array and the seed of its function, and
nothing of the memory that all contexts share. Every run of the class is a run of these
handles.
-/

namespace HashWX.Js

open ByteMemory (Bytes)
open CodeMachine (Byte)
open CompilerWasm (Context Placed CallExec hashwxExecBegin hashwxExecFinal moduleCode execModule)
open HandleTable (Slot)
open Lifetime (Ptr Heap Results hashwxAlloc hashwxFree)
open MemoryObject (Object)
open Siphash (Word SiphashKey)

/-! ## Handles -/

/-- What a handle stands for: `seed` is in its seed array, and `made` in its function. -/
structure Entry where
  isCompiled : Bool
  seed : Seed
  made : Option Seed

abbrev Handles := Int → Option Entry

def Handles.empty : Handles := fun _ => none

def Entry.make (e : Entry) (src : List Byte) : Entry :=
  { e with seed := overwrite src e.seed, made := some (overwrite src e.seed) }

@[simp] theorem Entry.make_isCompiled (e : Entry) (src : List Byte) :
    (e.make src).isCompiled = e.isCompiled := by
  rw [Entry.make]

@[simp] theorem Entry.make_seed (e : Entry) (src : List Byte) : (e.make src).seed = overwrite src e.seed := by
  rw [Entry.make]

@[simp] theorem Entry.make_made (e : Entry) (src : List Byte) :
    (e.make src).made = some (overwrite src e.seed) := by
  rw [Entry.make]

/-- A new handle is the lowest one that is free. A source that is too short leaves the rest of the old
seed in the array. Only an interpreted instance without a function can answer anything. Handle 0 stands
for `NULL`: where its use is defined at all, it throws. -/
inductive Handles.Step : Handles → Call × Outcome → Handles → Prop
  | allocNull {a : Handles} {type : BitVec 32} : Step a (.alloc type, .number 0) a
  | alloc {a : Handles} {type : BitVec 32} {h : Int} {seed : Seed} : 0 < h → a h = none →
      (∀ j, 0 < j → j < h → a j ≠ none) →
      Step a (.alloc type, .number h) (Function.update a h (some ⟨type.getLsbD 0, seed, none⟩))
  | makeUnknown {a : Handles} {i : Int} {src : List Byte} : i ≠ 0 → a i = none →
      Step a (.make i src, .typeError) a
  | makeNull {a : Handles} {src : List Byte} : Step a (.make 0 src, .typeError) a
  | makeNullLong {a : Handles} {src : List Byte} : 32 < src.length → Step a (.make 0 src, .rangeError) a
  | makeLong {a : Handles} {i : Int} {src : List Byte} {e : Entry} : a i = some e → 32 < src.length →
      Step a (.make i src, .rangeError) a
  | make {a : Handles} {i : Int} {src : List Byte} {e : Entry} : a i = some e → src.length ≤ 32 →
      Step a (.make i src, .undefined) (Function.update a i (some (e.make src)))
  | execUnknown {a : Handles} {i nonce : Int} : i ≠ 0 → a i = none → Step a (.exec i nonce, .typeError) a
  | execNull {a : Handles} {nonce : Int} : Step a (.exec 0 nonce, .typeError) a
  | exec {a : Handles} {i nonce : Int} {e : Entry} {seed : Seed} : a i = some e → e.made = some seed →
      Step a (.exec i nonce, .bigint (hashOf seed (toI64 nonce)).toInt) a
  | execUnmade {a : Handles} {i nonce : Int} {e : Entry} : a i = some e → e.made = none →
      e.isCompiled = true → Step a (.exec i nonce, .typeError) a
  | execGarbage {a : Handles} {i nonce v : Int} {e : Entry} : a i = some e → e.made = none →
      e.isCompiled = false → Step a (.exec i nonce, .bigint v) a
  | free {a : Handles} {i : Int} : Step a (.free i, .undefined) (Function.update a i none)

/-- The calls that the library defines: `NULL` is not used, and no interpreted instance without a function. -/
def Handles.Allowed (a : Handles) : Call → Prop
  | .alloc _ | .free _ => True
  | .make i _ => i ≠ 0
  | .exec i _ => i ≠ 0 ∧ ∀ e, a i = some e → e.isCompiled = false → e.made ≠ none

/-- From any other call on, the handles promise nothing. -/
def Handles.Undefined (a : Handles) (label : Call × Outcome) : Prop := ¬a.Allowed label.1

/-! ## The parts of a context -/

/-- No two parts overlap. -/
def Place.Separate (p : Place) : Prop := ∀ {f f'}, f ≠ f' → Disjoint (p.region f) (p.region f')

section Parts

variable {p : Place} {seed : Seed} {bytes bytes' made : Bytes 64} {code : BitVec 32}
  {list : Object Word Byte ProgramList}

theorem Place.region_compiled (h : p.body = .compiled code) : p.region .body = (codeArray code).region :=
  congrArg Body.region h

theorem Place.region_interpreted (h : p.body = .interpreted list) : p.region .body = list.region :=
  congrArg Body.region h

theorem Place.Make.eqOn (h : p.Make seed bytes made) {s : Set Word} (hkey : Disjoint (p.region .key) s)
    (hbody : Disjoint (p.region .body) s) : Set.EqOn made bytes s := by
  cases h with
  | compiled hcode _ =>
    rw [Place.region_compiled hcode] at hbody
    exact (Object.write_eqOn hbody _ _).trans (Object.write_eqOn hkey _ _)
  | interpreted hlist _ =>
    rw [Place.region_interpreted hlist] at hbody
    exact (Object.write_eqOn hbody _ _).trans (Object.write_eqOn hkey _ _)

/-- The main module's key is the one of the new seed, and no other part is written over it. -/
theorem Place.Make.key_eq (h : p.Make seed bytes made) (hseparate : p.Separate) :
    p.key.read made = (seedKeys seed).2 := by
  have hdisjoint : Disjoint (p.region .body) (p.region .key) := hseparate (by decide)
  cases h with
  | @compiled code memory ctx hcode hmake =>
    rw [Place.region_compiled hcode] at hdisjoint
    obtain ⟨ctx', hmake', hserves⟩ := (p.context code bytes).make_serves seed memory
    obtain rfl := Except.ok.inj (hmake'.symm.trans hmake)
    rw [Object.read_write_of_disjoint hdisjoint, Object.read_write, hserves.key]
  | interpreted hlist hmake =>
    rw [Place.region_interpreted hlist] at hdisjoint
    rw [Object.read_write_of_disjoint hdisjoint, Object.read_write, ← hmake]
    exact (Interpreted.holds_make _ seed).key

/-- The code array holds the module of the new seed. -/
theorem Place.Make.code_eq (h : p.Make seed bytes made) (hcode : p.body = .compiled code) :
    ((codeArray code).read made).toList = moduleCode (generatedLayouts (seedKeys seed).1) := by
  cases h with
  | @compiled code' memory ctx hcode' hmake =>
    obtain rfl := Body.compiled.inj (hcode'.symm.trans hcode)
    obtain ⟨ctx', hmake', hserves⟩ := (p.context code' bytes).make_serves seed memory
    obtain rfl := Except.ok.inj (hmake'.symm.trans hmake)
    rw [Object.read_write, hserves.code]
  | interpreted hlist _ => cases hlist.symm.trans hcode

theorem Place.Make.list_holds (h : p.Make seed bytes made) (hseparate : p.Separate)
    (hlist : p.body = .interpreted list) : (p.interpreted list made).Holds seed := by
  have hkey := h.key_eq hseparate
  cases h with
  | compiled hcode _ => cases hcode.symm.trans hlist
  | @interpreted list' ctx hlist' hmake =>
    obtain rfl := Body.interpreted.inj (hlist'.symm.trans hlist)
    refine ⟨⟨list'.read bytes, ?_⟩, hkey⟩
    have hread : (p.interpreted list' (list'.write ctx.programList (p.key.write ctx.key bytes))).programList =
        ctx.programList := list'.read_write _ _
    rw [hread, ← hmake]
    exact Interpreted.programList_make _ seed

theorem Place.exists_make (p : Place) (seed : Seed) (bytes : Bytes 64) : ∃ made, p.Make seed bytes made := by
  cases hbody : p.body with
  | compiled code =>
    let memory : ProgramList := .replicate 32 (.replicate 10 ⟨.halt, 0, 0, 0⟩)
    obtain ⟨ctx, hmake, -⟩ := (p.context code bytes).make_serves seed memory
    exact ⟨_, .compiled hbody hmake⟩
  | interpreted list => exact ⟨_, .interpreted hbody rfl⟩

/-! ## Instances -/

/-- The instance and its context are in the state that the handle shows. -/
structure Holds (bytes : Bytes 64) (p : Place) (obj : Instance) (e : Entry) : Prop where
  seed_eq : obj.seed = p.seed
  reg_eq : obj.reg = p.reg
  mem_eq : obj.mem = p.mem
  kind : obj.isCompiled = e.isCompiled
  body : p.body.isCompiled = e.isCompiled
  seed : (seedArray p.seed).read bytes = e.seed
  unmade : e.made = none → obj.sideModule = none
  key : ∀ {s}, e.made = some s → p.key.read bytes = (seedKeys s).2
  sideModule : ∀ {s}, e.made = some s → e.isCompiled = true →
    obj.sideModule = some (execModule (generatedLayouts (seedKeys s).1))
  list : ∀ {s list}, e.made = some s → p.body = .interpreted list → (p.interpreted list bytes).Holds s

theorem interpreted_congr (hkey : Set.EqOn bytes' bytes (p.region .key))
    (hbody : Set.EqOn bytes' bytes (p.region .body)) (hlist : p.body = .interpreted list) :
    p.interpreted list bytes' = p.interpreted list bytes := by
  rw [Place.region_interpreted hlist] at hbody
  exact congrArg₂ Interpreted.mk (list.read_congr hbody) (p.key.read_congr hkey)

/-- The registers and the scratchpad may change. -/
theorem Holds.congr {obj : Instance} {e : Entry} (h : Holds bytes p obj e)
    (hseed : Set.EqOn bytes' bytes (p.region .seed)) (hkey : Set.EqOn bytes' bytes (p.region .key))
    (hbody : Set.EqOn bytes' bytes (p.region .body)) : Holds bytes' p obj e :=
  { h with
    seed := ((seedArray p.seed).read_congr hseed).trans h.seed
    key := fun hs => (p.key.read_congr hkey).trans (h.key hs)
    list := fun hs hlist => interpreted_congr hkey hbody hlist ▸ h.list hs hlist }

end Parts

/-! ## The whole state -/

/-- `contexts` are the live contexts. -/
structure Tracks (size : Nat) (contexts : List Ptr) (w : World) (a : Handles) : Prop where
  balanced : Lifetime.Balanced wasm ⟨w.heap, contexts⟩
  live : ∀ {ctx}, (∃ p, w.places ctx = some p) ↔ ctx ∈ contexts
  owned : ∀ {ctx}, ctx ∈ contexts ↔ ∃ i obj, HandleTable.get w.instances i = .object obj ∧ obj.ctx = ctx
  owner : ∀ {i j obj obj'}, HandleTable.get w.instances i = .object obj →
    HandleTable.get w.instances j = .object obj' → obj.ctx = obj'.ctx → i = j
  placed : ∀ {ctx p}, w.places ctx = some p → Placed size p.reg p.mem ∧ p.Separate
  apart : ∀ {ctx ctx' p p'}, w.places ctx = some p → w.places ctx' = some p' → ctx ≠ ctx' →
    ∀ f f', Disjoint (p.region f) (p'.region f')
  sentinel : ∀ {i}, HandleTable.get w.instances i = .sentinel ↔ i = 0
  objects : ∀ {i obj}, HandleTable.get w.instances i = .object obj →
    ∃ e p, a i = some e ∧ w.places obj.ctx = some p ∧ Holds w.bytes p obj e
  others : ∀ {i}, (∀ obj, HandleTable.get w.instances i ≠ .object obj) → a i = none

section Tracks

variable {size : Nat} {contexts : List Ptr} {w w' : World} {a : Handles} {i : Int} {obj obj' : Instance}
  {p : Place} {e e' : Entry} {bytes' : Bytes 64}

variable (h : Tracks size contexts w a)
include h

/-- A call on one instance: nothing outside of its context changes. -/
theorem Tracks.update (hobj : HandleTable.get w.instances i = .object obj) (hp : w.places obj.ctx = some p)
    (hheap : w'.heap = w.heap) (hplaces : w'.places = w.places)
    (hget : ∀ j, HandleTable.get w'.instances j = if j = i then .object obj' else HandleTable.get w.instances j)
    (hctx : obj'.ctx = obj.ctx)
    (hkeep : ∀ {ctx p'}, ctx ≠ obj.ctx → w.places ctx = some p' → ∀ f, Set.EqOn w'.bytes w.bytes (p'.region f))
    (hholds : Holds w'.bytes p obj' e') : Tracks size contexts w' (Function.update a i (some e')) := by
  -- the objects of the new table, with those they come from
  have hback {j : Int} {x : Instance} (hx : HandleTable.get w'.instances j = .object x) :
      ∃ y, HandleTable.get w.instances j = .object y ∧ y.ctx = x.ctx := by
    rw [hget] at hx
    by_cases hj : j = i
    · rw [if_pos hj] at hx
      obtain rfl := Slot.object.inj hx
      exact ⟨obj, hj ▸ hobj, hctx.symm⟩
    · rw [if_neg hj] at hx
      exact ⟨x, hx, rfl⟩
  have hforth {j : Int} {y : Instance} (hy : HandleTable.get w.instances j = .object y) :
      ∃ x, HandleTable.get w'.instances j = .object x ∧ x.ctx = y.ctx := by
    rw [hget]
    by_cases hj : j = i
    · subst hj
      obtain rfl := Slot.object.inj (hobj.symm.trans hy)
      exact ⟨obj', if_pos rfl, hctx⟩
    · exact ⟨y, (if_neg hj).trans hy, rfl⟩
  constructor
  · rw [hheap]
    exact h.balanced
  · rw [hplaces]
    exact h.live
  · intro ctx
    rw [h.owned]
    constructor
    · intro hmem
      obtain ⟨j, y, hy, rfl⟩ := hmem
      obtain ⟨x, hx, hxy⟩ := hforth hy
      exact ⟨j, x, hx, hxy⟩
    · intro hmem
      obtain ⟨j, x, hx, rfl⟩ := hmem
      obtain ⟨y, hy, hyx⟩ := hback hx
      exact ⟨j, y, hy, hyx⟩
  · intro j k x x' hx hx' heq
    obtain ⟨y, hy, hyx⟩ := hback hx
    obtain ⟨y', hy', hyx'⟩ := hback hx'
    exact h.owner hy hy' (hyx.trans (heq.trans hyx'.symm))
  · rw [hplaces]
    exact h.placed
  · rw [hplaces]
    exact h.apart
  · intro j
    rw [← h.sentinel, hget]
    by_cases hj : j = i
    · rw [if_pos hj, hj, hobj]
      simp
    · rw [if_neg hj]
  · intro j x hx
    rw [hget] at hx
    rw [hplaces]
    by_cases hj : j = i
    · rw [if_pos hj] at hx
      obtain rfl := Slot.object.inj hx
      exact ⟨e', p, hj ▸ Function.update_self _ _ _, hctx ▸ hp, hholds⟩
    · rw [if_neg hj] at hx
      obtain ⟨e, p', he, hp', hold⟩ := h.objects hx
      have hne : x.ctx ≠ obj.ctx := fun heq => hj (h.owner hx hobj heq)
      have hsame := hkeep hne hp'
      exact ⟨e, p', (Function.update_of_ne hj _ _).trans he, hp',
        hold.congr (hsame .seed) (hsame .key) (hsame .body)⟩
  · intro j hj
    have hne : j ≠ i := by
      rintro rfl
      exact hj obj' ((hget j).trans (if_pos rfl))
    rw [Function.update_of_ne hne]
    refine h.others fun x hx => hj x ?_
    rw [hget, if_neg hne, hx]

/-- Where a handle other than 0 stands for nothing, there is no object. -/
theorem Tracks.undefined_of_none (hi : i ≠ 0) (ha : a i = none) :
    HandleTable.get w.instances i = .undefined := by
  cases hslot : HandleTable.get w.instances i with
  | undefined => rfl
  | sentinel => exact absurd (h.sentinel.mp hslot) hi
  | object obj =>
    obtain ⟨e, -, he, -⟩ := h.objects hslot
    rw [ha] at he
    cases he

theorem Tracks.shows (hobj : HandleTable.get w.instances i = .object obj) (hp : w.places obj.ctx = some p) :
    ∃ e, a i = some e ∧ Holds w.bytes p obj e ∧ p.Separate := by
  obtain ⟨e, p', he, hp', hholds⟩ := h.objects hobj
  obtain rfl := Option.some.inj (hp.symm.trans hp')
  exact ⟨e, he, hholds, (h.placed hp).2⟩

theorem Tracks.load : Tracks size contexts { w with loaded := true } a := { h with }

theorem Tracks.not_mem_of_free {ctx : Ptr} (hfree : w.heap ctx = none) : ctx ∉ contexts := by
  intro hmem
  obtain ⟨q, type, ho⟩ := h.balanced.owns ctx hmem
  exact absurd (ho.context.symm.trans hfree) (by simp)

/-- A new context is added behind the lowest free handle, apart from all others. -/
theorem Tracks.alloc {ctx : Ptr} {heap : Heap} {isCompiled : Bool} (hnew : w.heap ctx = none)
    (hbalanced : Lifetime.Balanced wasm ⟨heap, ctx :: contexts⟩) (hfits : w.Fits size p)
    (hkind : p.body.isCompiled = isCompiled) (hsettles : w.Settles w.bytes bytes') :
    let slots := HandleTable.insert (newInstance ctx p isCompiled) w.instances
    Tracks size (ctx :: contexts) ⟨true, heap, Function.update w.places ctx (some p), bytes', slots.1⟩
      (Function.update a slots.2 (some ⟨isCompiled, (seedArray p.seed).read bytes', none⟩)) := by
  intro slots
  have hnot := h.not_mem_of_free hnew
  have hget (j : Int) := HandleTable.get_insert (newInstance ctx p isCompiled) w.instances j
  obtain ⟨hfirst, -⟩ := HandleTable.get_insert_first (newInstance ctx p isCompiled) w.instances
  have hmem {j : Int} {x : Instance} (hx : HandleTable.get w.instances j = .object x) : x.ctx ∈ contexts :=
    h.owned.mpr ⟨j, x, hx, rfl⟩
  have hplace {c : Ptr} {p' : Place} (hp' : Function.update w.places ctx (some p) c = some p') :
      c = ctx ∧ p' = p ∨ c ≠ ctx ∧ w.places c = some p' := by
    by_cases hc : c = ctx
    · subst hc
      rw [Function.update_self] at hp'
      exact .inl ⟨rfl, (Option.some.inj hp').symm⟩
    · rw [Function.update_of_ne hc] at hp'
      exact .inr ⟨hc, hp'⟩
  -- the objects of the new table: the new one, and those of the old table
  have hobject {j : Int} {x : Instance} (hx : HandleTable.get slots.1 j = .object x) :
      j = slots.2 ∧ x = newInstance ctx p isCompiled ∨
        j ≠ slots.2 ∧ x.ctx ≠ ctx ∧ HandleTable.get w.instances j = .object x := by
    rw [hget] at hx
    by_cases hj : j = slots.2
    · rw [if_pos hj] at hx
      exact .inl ⟨hj, (Slot.object.inj hx).symm⟩
    · rw [if_neg hj] at hx
      exact .inr ⟨hj, fun heq => hnot (heq ▸ hmem hx), hx⟩
  have hold {j : Int} {x : Instance} (hx : HandleTable.get w.instances j = .object x) :
      HandleTable.get slots.1 j = .object x := by
    rw [hget, if_neg, hx]
    rintro rfl
    cases hfirst.symm.trans hx
  constructor
  · exact hbalanced
  · intro c
    by_cases hc : c = ctx
    · subst hc
      exact ⟨fun _ => List.mem_cons_self, fun _ => ⟨p, Function.update_self _ _ _⟩⟩
    · rw [List.mem_cons, or_iff_right hc, ← h.live]
      show (∃ p', Function.update w.places ctx (some p) c = some p') ↔ ∃ p', w.places c = some p'
      rw [Function.update_of_ne hc]
  · intro c
    rw [List.mem_cons]
    constructor
    · intro hmem
      rcases hmem with rfl | hc
      · exact ⟨slots.2, newInstance c p isCompiled, (hget _).trans (if_pos rfl), rfl⟩
      · obtain ⟨j, x, hx, rfl⟩ := h.owned.mp hc
        exact ⟨j, x, hold hx, rfl⟩
    · intro hmem
      obtain ⟨j, x, hx, rfl⟩ := hmem
      rcases hobject hx with ⟨-, rfl⟩ | ⟨-, -, hx⟩
      · exact .inl rfl
      · exact .inr (hmem hx)
  · intro j k x x' hx hx' heq
    rcases hobject hx with ⟨rfl, rfl⟩ | ⟨-, hne, hx⟩
    · rcases hobject hx' with ⟨rfl, -⟩ | ⟨-, hne', -⟩
      · rfl
      · exact absurd heq.symm hne'
    · rcases hobject hx' with ⟨-, rfl⟩ | ⟨-, -, hx'⟩
      · exact absurd heq hne
      · exact h.owner hx hx' heq
  · intro c p' hp'
    rcases hplace hp' with ⟨-, rfl⟩ | ⟨-, hp'⟩
    · exact ⟨hfits.placed, hfits.inner⟩
    · exact h.placed hp'
  · intro c c' q q' hq hq' hne f f'
    rcases hplace hq with ⟨rfl, rfl⟩ | ⟨-, hpast⟩
    · rcases hplace hq' with ⟨rfl, -⟩ | ⟨-, hpast'⟩
      · exact absurd rfl hne
      · exact hfits.outer hpast' f f'
    · rcases hplace hq' with ⟨-, rfl⟩ | ⟨-, hpast'⟩
      · exact (hfits.outer hpast f' f).symm
      · exact h.apart hpast hpast' hne f f'
  · intro j
    rw [← h.sentinel, hget]
    by_cases hj : j = slots.2
    · rw [if_pos hj, hj, hfirst]
      simp
    · rw [if_neg hj]
  · intro j x hx
    rcases hobject hx with ⟨rfl, rfl⟩ | ⟨hj, hne, hx⟩
    · refine ⟨_, p, Function.update_self _ _ _, Function.update_self _ _ _, ?_⟩
      exact ⟨rfl, rfl, rfl, rfl, hkind, rfl, fun _ => rfl, nofun, nofun, nofun⟩
    · obtain ⟨e, p', he, hp', hholds⟩ := h.objects hx
      have hsame := hsettles hp'
      exact ⟨e, p', (Function.update_of_ne hj _ _).trans he, (Function.update_of_ne hne _ _).trans hp',
        hholds.congr (hsame .seed) (hsame .key) (hsame .body)⟩
  · intro j hj
    have hne : j ≠ slots.2 := by
      rintro rfl
      exact hj _ ((hget _).trans (if_pos rfl))
    rw [Function.update_of_ne hne]
    exact h.others fun x hx => hj x (hold hx)

/-- A freed handle stands for nothing, and its blocks are returned. -/
theorem Tracks.free (hobj : HandleTable.get w.instances i = .object obj) {heap : Heap}
    (hfree : hashwxFree wasm obj.ctx w.heap = some heap)
    (hkeep : ∀ {ctx p}, ctx ≠ obj.ctx → w.places ctx = some p → ∀ f, Set.EqOn bytes' w.bytes (p.region f)) :
    Tracks size (contexts.erase obj.ctx)
      ⟨w.loaded, heap, Function.update w.places obj.ctx none, bytes',
        HandleTable.set w.instances i .undefined⟩
      (Function.update a i none) := by
  have hctx : obj.ctx ∈ contexts := h.owned.mpr ⟨i, obj, hobj, rfl⟩
  obtain ⟨q, type, ho⟩ := h.balanced.owns _ hctx
  obtain rfl := Option.some.inj ((Lifetime.hashwxFree_eq ho).symm.trans hfree)
  have hget (j : Int) : HandleTable.get (HandleTable.set w.instances i .undefined) j =
      if j = i then .undefined else HandleTable.get w.instances j :=
    HandleTable.get_set (by rw [hobj]; simp) _ j
  have hmem {c : Ptr} : c ∈ contexts.erase obj.ctx ↔ c ≠ obj.ctx ∧ c ∈ contexts :=
    h.balanced.nodup.mem_erase_iff
  have hobject {j : Int} {x : Instance} :
      HandleTable.get (HandleTable.set w.instances i .undefined) j = .object x ↔
        x.ctx ≠ obj.ctx ∧ HandleTable.get w.instances j = .object x := by
    rw [hget]
    by_cases hj : j = i
    · rw [if_pos hj, hj]
      refine ⟨nofun, fun ⟨hne, hx⟩ => ?_⟩
      obtain rfl := Slot.object.inj (hobj.symm.trans hx)
      exact absurd rfl hne
    · rw [if_neg hj]
      exact ⟨fun hx => ⟨fun heq => hj (h.owner hx hobj heq), hx⟩, And.right⟩
  have hplace {c : Ptr} {p' : Place} : Function.update w.places obj.ctx none c = some p' ↔
      c ≠ obj.ctx ∧ w.places c = some p' := by
    by_cases hc : c = obj.ctx
    · simp [hc]
    · simp [hc]
  constructor
  · exact Lifetime.balanced_free h.balanced hctx ho
  · intro c
    rw [hmem, ← h.live]
    simp only [hplace, exists_and_left]
  · intro c
    rw [hmem, h.owned]
    simp only [hobject]
    constructor
    · intro hmem
      obtain ⟨hne, j, x, hx, rfl⟩ := hmem
      exact ⟨j, x, ⟨hne, hx⟩, rfl⟩
    · intro hmem
      obtain ⟨j, x, ⟨hne, hx⟩, rfl⟩ := hmem
      exact ⟨hne, j, x, hx, rfl⟩
  · exact fun hx hx' heq => h.owner (hobject.mp hx).2 (hobject.mp hx').2 heq
  · exact fun hp' => h.placed (hplace.mp hp').2
  · exact fun hq hq' hne => h.apart (hplace.mp hq).2 (hplace.mp hq').2 hne
  · intro j
    rw [← h.sentinel, hget]
    by_cases hj : j = i
    · rw [if_pos hj, hj, hobj]
      simp
    · rw [if_neg hj]
  · intro j x hx
    obtain ⟨hne, hpast⟩ := hobject.mp hx
    obtain ⟨e, p', he, hp', hholds⟩ := h.objects hpast
    have hji : j ≠ i := by
      intro heq
      rw [heq, hobj] at hpast
      exact hne (congrArg Instance.ctx (Slot.object.inj hpast)).symm
    have hsame := hkeep hne hp'
    exact ⟨e, p', (Function.update_of_ne hji _ _).trans he, hplace.mpr ⟨hne, hp'⟩,
      hholds.congr (hsame .seed) (hsame .key) (hsame .body)⟩
  · intro j hj
    by_cases hji : j = i
    · exact hji ▸ Function.update_self _ _ _
    · rw [Function.update_of_ne hji]
      refine h.others fun x hx => hj x ?_
      rw [hget, if_neg hji, hx]

end Tracks

/-! ## A new function -/

/-- The context is the one of the seed. -/
structure Remade (bytes : Bytes 64) (p : Place) (s : Seed) : Prop where
  seed : (seedArray p.seed).read bytes = s
  key : p.key.read bytes = (seedKeys s).2
  code : ∀ {code}, p.body = .compiled code →
    ((codeArray code).read bytes).toList = moduleCode (generatedLayouts (seedKeys s).1)
  list : ∀ {list}, p.body = .interpreted list → (p.interpreted list bytes).Holds s

section Make

variable {size : Nat} {contexts : List Ptr} {w : World} {a : Handles} {i : Int} {obj : Instance}
  {p : Place} {e : Entry} {src : List Byte} {bytes' : Bytes 64}

/-- After the call the context is the one of the seed that is now in the array. -/
theorem World.Makes.remade (hmakes : w.Makes obj src p bytes') (hseparate : p.Separate)
    (hholds : Holds w.bytes p obj e) : Remade bytes' p (overwrite src e.seed) := by
  obtain @⟨made, _, -, hp, hmade, hsettles⟩ := hmakes
  have hseeded : (seedArray obj.seed).read (obj.seeded src w.bytes) = overwrite src e.seed := by
    rw [Instance.seeded, Object.read_write, hholds.seed_eq, hholds.seed]
  rw [hseeded] at hmade
  have hsame := hsettles hp
  constructor
  · have hkept : Set.EqOn made (obj.seeded src w.bytes) (p.region .seed) :=
      hmade.eqOn (hseparate (by decide)) (hseparate (by decide))
    rw [(seedArray p.seed).read_congr ((hsame .seed).trans hkept), ← hholds.seed_eq, hseeded]
  · rw [p.key.read_congr (hsame .key), hmade.key_eq hseparate]
  · intro code hcode
    have hbody := hsame .body
    rw [Place.region_compiled hcode] at hbody
    rw [(codeArray code).read_congr hbody, hmade.code_eq hcode]
  · intro list hlist
    rw [interpreted_congr (hsame .key) (hsame .body) hlist]
    exact hmade.list_holds hseparate hlist

theorem Holds.make {obj' : Instance} (hholds : Holds w.bytes p obj e)
    (hremade : Remade bytes' p (overwrite src e.seed))
    (hseed : obj'.seed = obj.seed) (hreg : obj'.reg = obj.reg) (hmem : obj'.mem = obj.mem)
    (hkind : obj'.isCompiled = obj.isCompiled)
    (hside : e.isCompiled = true →
      obj'.sideModule = some (execModule (generatedLayouts (seedKeys (overwrite src e.seed)).1))) :
    Holds bytes' p obj' (e.make src) := by
  have hmade := e.make_made src
  constructor
  · exact hseed.trans hholds.seed_eq
  · exact hreg.trans hholds.reg_eq
  · exact hmem.trans hholds.mem_eq
  · rw [Entry.make_isCompiled, hkind, hholds.kind]
  · rw [Entry.make_isCompiled, hholds.body]
  · rw [Entry.make_seed, hremade.seed]
  · intro hnone
    cases hnone.symm.trans hmade
  · intro t ht
    obtain rfl := Option.some.inj (hmade.symm.trans ht)
    exact hremade.key
  · intro t ht
    obtain rfl := Option.some.inj (hmade.symm.trans ht)
    rw [Entry.make_isCompiled]
    exact hside
  · intro t list ht
    obtain rfl := Option.some.inj (hmade.symm.trans ht)
    exact hremade.list

end Make

/-! ## A call of the function -/

section Exec

variable {size : Nat} {contexts : List Ptr} {w : World} {a : Handles} {obj : Instance} {p : Place}
  {code : BitVec 32} {nonce : Int} {begun called : Bytes 64} {seed : Seed}

theorem World.Begins.eqOn (hbegins : w.Begins obj p code nonce begun) {ctx : Ptr} {p' : Place}
    (hp' : w.places ctx = some p') {f : Field} (hdisjoint : Disjoint (p.region .reg) (p'.region f)) :
    Set.EqOn begun w.bytes (p'.region f) := by
  obtain ⟨-, -, hsettles⟩ := hbegins
  exact (hsettles hp' f).trans (Object.write_eqOn hdisjoint _ _)

/-- The side module finds the expanded registers. -/
theorem World.Begins.load (hbegins : w.Begins obj p code nonce begun)
    (hkey : p.key.read w.bytes = (seedKeys seed).2) (i : Fin 10) :
    ByteMemory.load64 begun (ByteMemory.wordAddr (p.reg.setWidth 64) i) =
      (initRegs (seedKeys seed).2 (toI64 nonce))[i] := by
  obtain ⟨hp, -, hsettles⟩ := hbegins
  have hread : (regArray p.reg).read begun = initRegs (seedKeys seed).2 (toI64 nonce) := by
    rw [(regArray p.reg).read_congr (hsettles hp .reg), Object.read_write,
      CompilerWasm.hashwxExecBegin_reg, ← hkey]
    rfl
  have hword : ((regArray p.reg).read begun)[i] =
      ByteMemory.load64 begun (ByteMemory.wordAddr (p.reg.setWidth 64) i) := Vector.getElem_ofFn i.isLt
  rw [← hword, hread]

/-- The side module has one result, which is the hash. -/
theorem call_returns (hplaced : Placed size p.reg p.mem) (code : BitVec 32) {input : Word}
    (hreg : ∀ i : Fin 10, ByteMemory.load64 begun (ByteMemory.wordAddr (p.reg.setWidth 64) i) =
      (initRegs (seedKeys seed).2 input)[i]) :
    ∃ called, (∀ b, CallExec (Wasm.linear size) (execModule (generatedLayouts (seedKeys seed).1))
        p.reg p.mem begun b ↔ b = called) ∧
      ByteMemory.Frame (CompilerWasm.writtenWords p.reg p.mem) begun called ∧
      hashwxExecFinal (p.context code called) = hashOf seed input := by
  let ts := generatedLayouts (seedKeys seed).1
  obtain ⟨called, hcall, hregs⟩ := CompilerWasm.callExec_returns
    (CompilerWasm.granted_words p.reg p.mem) hplaced hreg ts
  have hlinear := hcall.mono hplaced.weaker
  refine ⟨called, fun b => ⟨fun hb => hb.deterministic (CompilerWasm.execModule_valid ts) hlinear,
    fun hb => hb ▸ hlinear⟩, hcall.frame, ?_⟩
  have hread : (p.context code called).reg = regs (executeLayouts ts (constsOf (initRegs (seedKeys seed).2 input))
      (fileOf (initRegs (seedKeys seed).2 input))) (constsOf (initRegs (seedKeys seed).2 input)) := by
    apply Vector.ext
    intro i hi
    exact (Vector.getElem_ofFn hi).trans (hregs ⟨i, hi⟩)
  rw [CompilerWasm.hashwxExecFinal_eq, hread]
  rfl

end Exec

/-! ## Every step is one of the handles -/

section Steps

variable {size : Nat} {contexts : List Ptr} {w w' : World} {a : Handles} {label : Call × Outcome} {i : Int}

theorem Tracks.unknown (h : Tracks size contexts w a) (hslot : HandleTable.get w.instances i = .undefined) :
    i ≠ 0 ∧ a i = none := by
  constructor
  · rintro rfl
    cases hslot.symm.trans (h.sentinel.mpr rfl)
  · refine h.others fun obj hobj => ?_
    cases hslot.symm.trans hobj

/-- The handle of a new instance is the lowest free one. -/
theorem Tracks.lowest (h : Tracks size contexts w a) (x : Instance) :
    let k : Int := (HandleTable.insert x w.instances).2
    0 < k ∧ a k = none ∧ ∀ j, 0 < j → j < k → a j ≠ none := by
  intro k
  obtain ⟨hfirst, hbefore⟩ := HandleTable.get_insert_first x w.instances
  obtain ⟨hne, hnone⟩ := h.unknown hfirst
  have hnonneg : 0 ≤ k := Int.natCast_nonneg _
  refine ⟨by omega, hnone, fun j hpos hlt => ?_⟩
  intro hj
  exact hbefore j hpos.le hlt (h.undefined_of_none hpos.ne' hj)

/-- Only calls that the library does not define have undefined behavior. -/
theorem World.Undefined.guarded (h : Tracks size contexts w a) (hundefined : w.Undefined label) :
    a.Undefined label := by
  cases hundefined with
  | makeNull hslot _ _ => exact fun hallowed => hallowed (h.sentinel.mp hslot)
  | execNull hslot _ => exact fun hallowed => hallowed.1 (h.sentinel.mp hslot)
  | execInterpreted hobj hkind hp hlist hexec =>
    obtain ⟨e, he, hholds, -⟩ := h.shows hobj hp
    intro hallowed
    obtain ⟨s, hmade⟩ := Option.ne_none_iff_exists'.mp (hallowed.2 e he (hholds.kind.symm.trans hkind))
    rw [Interpreted.exec_eq (hholds.list hmade hlist)] at hexec
    cases hexec
  | @free i obj _ hobj hfree =>
    obtain ⟨q, type, ho⟩ := h.balanced.owns _ (h.owned.mpr ⟨i, obj, hobj, rfl⟩)
    cases (Lifetime.hashwxFree_eq ho).symm.trans hfree

end Steps

/-! ## No call fails -/

/-- Each call has a result or undefined behavior, the calls that the library defines have no undefined
behavior, and an instance is created wherever there is room. -/
structure Ready (size : Nat) (w : World) (a : Handles) : Prop where
  call : ∀ call, (∃ outcome w', Step size w (call, outcome) w') ∨ ∃ outcome, w.Undefined (call, outcome)
  defined : ∀ call outcome, a.Allowed call → ¬w.Undefined (call, outcome)
  new : ∀ {type results ctx second p}, w.Grants results → results.ctx = some ctx → results.second = some second →
    w.Fits size p → p.body.isCompiled = type.getLsbD 0 →
    ∃ (k : Nat) (w' : World), 0 < k ∧ Step size w (.alloc type, .number k) w'

theorem Ready.returns {size : Nat} {w : World} {a : Handles} (h : Ready size w a) (call : Call)
    (hallowed : a.Allowed call) : ∃ outcome w', Step size w (call, outcome) w' :=
  (h.call call).resolve_right fun ⟨outcome, hundefined⟩ => h.defined call outcome hallowed hundefined

section Progress

variable {size : Nat} {contexts : List Ptr} {w : World} {a : Handles} {i : Int} {obj : Instance} {e : Entry}
  {p : Place}

theorem World.settles_refl (w : World) (bytes : Bytes 64) : w.Settles bytes bytes :=
  fun _ _ => Set.eqOn_refl bytes _

theorem Tracks.exists_make (h : Tracks size contexts w a) (hobj : HandleTable.get w.instances i = .object obj)
    {src : List Byte} (hlen : src.length ≤ 32) : ∃ outcome w', Step size w (.make i src, outcome) w' := by
  obtain ⟨e, p, he, hp, hholds⟩ := h.objects hobj
  obtain ⟨made, hmade⟩ :=
    p.exists_make ((seedArray obj.seed).read (obj.seeded src w.bytes)) (obj.seeded src w.bytes)
  have hmakes : w.Makes obj src p made := .intro hlen hp hmade (w.settles_refl made)
  have hremade := hmakes.remade (h.placed hp).2 hholds
  have hkind := hholds.body.trans hholds.kind.symm
  cases hbody : p.body with
  | interpreted list =>
    rw [hbody] at hkind
    exact ⟨_, _, .makeInterpreted hobj hkind.symm hmakes⟩
  | compiled code =>
    rw [hbody] at hkind
    have hdecode := CompilerWasm.decodeModule_code (generatedLayouts (seedKeys (overwrite src e.seed)).1)
    rw [← hremade.code hbody] at hdecode
    exact ⟨_, _, .make hobj hkind.symm hmakes hbody hdecode (CompilerWasm.execModule_valid _)⟩

/-- An instance answers, unless it is an interpreted one whose list cannot be executed. -/
theorem Tracks.exists_exec (h : Tracks size contexts w a) (hobj : HandleTable.get w.instances i = .object obj)
    (nonce : Int) : (∃ outcome w', Step size w (.exec i nonce, outcome) w') ∨
      ∃ outcome, w.Undefined (.exec i nonce, outcome) := by
  obtain ⟨e, p, he, hp, hholds⟩ := h.objects hobj
  have hkind := hholds.body.trans hholds.kind.symm
  cases hbody : p.body with
  | interpreted list =>
    rw [hbody] at hkind
    cases hexec : (p.interpreted list w.bytes).exec (toI64 nonce) (.replicate 256 0) with
    | none => exact .inr ⟨.undefined, .execInterpreted hobj hkind.symm hp hbody hexec⟩
    | some v => exact .inl ⟨_, _, .execInterpreted hobj hkind.symm hp hbody hexec (w.settles_refl _)⟩
  | compiled code =>
    rw [hbody] at hkind
    left
    have hbegins : w.Begins obj p code nonce _ := .intro hp hbody (w.settles_refl _)
    cases hmade : e.made with
    | none => exact ⟨_, _, .execUnmade hobj hkind.symm (hholds.unmade hmade) hbegins⟩
    | some s =>
      have hside := hholds.sideModule hmade (hholds.kind.symm.trans hkind.symm)
      obtain ⟨called, hunique, -, -⟩ := call_returns (h.placed hp).1 code (hbegins.load (hholds.key hmade))
      have hcall := (hunique called).mpr rfl
      refine ⟨_, _, .exec hobj hkind.symm hside hbegins ?_ (w.settles_refl called)⟩
      rwa [hholds.reg_eq, hholds.mem_eq]

/-- Every call is one of those that the methods of the class distinguish. -/
theorem Tracks.ready (h : Tracks size contexts w a) : Ready size w a := by
  have hsupp {type : Lifetime.HashwxType} :
      ¬(hashwxCompiler wasm.target = false ∧ type = .compiled) := fun hsupp => absurd hsupp.1 (by decide)
  constructor
  · intro call
    cases call with
    | alloc type =>
      have hgrants : w.Grants ⟨none, none⟩ := ⟨⟨nofun, nofun, nofun⟩, nofun⟩
      exact .inl ⟨_, _, .allocNull hgrants (Lifetime.hashwxAlloc_first hsupp rfl) le_rfl (w.settles_refl _)⟩
    | make i src =>
      cases hslot : HandleTable.get w.instances i with
      | undefined => exact .inl ⟨_, _, .makeUndefined hslot⟩
      | sentinel =>
        cases hloaded : w.loaded with
        | false => exact .inl ⟨_, _, .makeUnloaded hslot hloaded⟩
        | true =>
          by_cases hlen : src.length ≤ 32
          · exact .inr ⟨.undefined, .makeNull hslot hloaded hlen⟩
          · exact .inl ⟨_, _, .makeNullLong hslot hloaded (Nat.lt_of_not_le hlen)⟩
      | object obj =>
        by_cases hlen : src.length ≤ 32
        · exact .inl (h.exists_make hslot hlen)
        · exact .inl ⟨_, _, .makeLong hslot (Nat.lt_of_not_le hlen)⟩
    | exec i nonce =>
      cases hslot : HandleTable.get w.instances i with
      | undefined => exact .inl ⟨_, _, .execUndefined hslot⟩
      | sentinel =>
        cases hloaded : w.loaded with
        | false => exact .inl ⟨_, _, .execUnloaded hslot hloaded⟩
        | true => exact .inr ⟨.undefined, .execNull hslot hloaded⟩
      | object obj => exact h.exists_exec hslot nonce
    | free i =>
      left
      cases hslot : HandleTable.get w.instances i with
      | undefined => exact ⟨_, _, .freeOther fun obj hobj => nomatch hslot.symm.trans hobj⟩
      | sentinel => exact ⟨_, _, .freeOther fun obj hobj => nomatch hslot.symm.trans hobj⟩
      | object obj =>
        obtain ⟨q, type, ho⟩ := h.balanced.owns _ (h.owned.mpr ⟨i, obj, hslot, rfl⟩)
        exact ⟨_, _, .free hslot (Lifetime.hashwxFree_eq ho) fun _ _ _ => Set.eqOn_refl _ _⟩
  · exact fun call outcome hallowed hundefined => hundefined.guarded h hallowed
  · intro type results ctx second p hgrants hctx hsecond hfits hkind
    have halloc := @Lifetime.hashwxAlloc_done wasm w.heap (hashwxType type) results hsupp hgrants.fresh ctx second
      hctx hsecond
    obtain ⟨hpos, -⟩ := h.lowest (newInstance ctx p (type.getLsbD 0))
    exact ⟨_, _, Int.natCast_pos.mp hpos,
      .alloc hgrants halloc (hgrants.positive ctx hctx) hfits hkind (w.settles_refl _)⟩

end Progress

section Session

variable {a a' : Handles} {outcome : Outcome} {i : Int} {e : Entry}

theorem Handles.Step.make_eq {src : List Byte} (h : Step a (.make i src, outcome) a') (hi : i ≠ 0)
    (he : a i = some e) (hlen : src.length ≤ 32) :
    outcome = .undefined ∧ a' = Function.update a i (some (e.make src)) := by
  cases h with
  | makeUnknown _ hnone => cases hnone.symm.trans he
  | makeNull => exact absurd rfl hi
  | makeNullLong hlong => omega
  | makeLong _ hlong => omega
  | make he' _ =>
    obtain rfl := Option.some.inj (he'.symm.trans he)
    exact ⟨rfl, rfl⟩

theorem Handles.Step.exec_eq {nonce : Int} {seed : Seed} (h : Step a (.exec i nonce, outcome) a') (hi : i ≠ 0)
    (he : a i = some e) (hmade : e.made = some seed) :
    outcome = .bigint (hashOf seed (toI64 nonce)).toInt ∧ a' = a := by
  cases h with
  | execUnknown _ hnone => cases hnone.symm.trans he
  | execNull => exact absurd rfl hi
  | exec he' hmade' =>
    obtain rfl := Option.some.inj (he'.symm.trans he)
    obtain rfl := Option.some.inj (hmade'.symm.trans hmade)
    exact ⟨rfl, rfl⟩
  | execUnmade he' hnone _ =>
    obtain rfl := Option.some.inj (he'.symm.trans he)
    cases hnone.symm.trans hmade
  | execGarbage he' hnone _ =>
    obtain rfl := Option.some.inj (he'.symm.trans he)
    cases hnone.symm.trans hmade

end Session

end HashWX.Js
