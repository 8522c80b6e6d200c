import HashWX.Context.History
import HashWX.Context.Lifetime
import HashWX.Lib.HandleTable
import HashWX.Lib.MemoryObject
import HashWX.Wasm.Correct

/-!
# The class of `hashwx.js`

The methods of the class over the exports of `hashwx.wasm`, which share one linear memory
with the side modules. Of a context the class and the side module know addresses; the key
and the program list are objects that only the main module reads and writes. While a
function of the main module runs, it uses the rest of the memory as it likes: for its own
stack, and for what the allocator notes down.
-/

namespace HashWX.Js

open ByteMemory (Bytes)
open CodeMachine (Byte)
open CompilerWasm (Context Placed CallExec hashwxExecBegin hashwxExecFinal)
open HandleTable (Slot)
open Lifetime (Ptr Heap Results HashwxType hashwxAlloc hashwxFree)
open MemoryObject (Object)
open Siphash (Word SiphashKey)

/-! ## The parts of a context -/

theorem seed_fits : 32 ≤ 2 ^ 64 := by decide

theorem reg_fits : 8 * 10 ≤ 2 ^ 64 := by decide

theorem mem_fits : 8 * 256 ≤ 2 ^ 64 := by decide

theorem code_fits : 11278 ≤ 2 ^ 64 := by decide

def seedArray (seed : BitVec 32) : Object Word Byte Seed := MemoryObject.bytes (seed.setWidth 64) seed_fits

def regArray (reg : BitVec 32) : Object Word Byte Regs := MemoryObject.words (reg.setWidth 64) reg_fits

def memArray (mem : BitVec 32) : Object Word Byte Scratchpad := MemoryObject.words (mem.setWidth 64) mem_fits

def codeArray (code : BitVec 32) : Object Word Byte (Vector Byte 11278) :=
  MemoryObject.bytes (code.setWidth 64) code_fits

/-- What the union of a context points to. -/
inductive Body
  | compiled (code : BitVec 32)
  | interpreted (list : Object Word Byte ProgramList)

def Body.isCompiled : Body → Bool
  | .compiled _ => true
  | .interpreted _ => false

def Body.region : Body → Set Word
  | .compiled code => (codeArray code).region
  | .interpreted list => list.region

/-- Where the parts of a context lie. -/
structure Place where
  seed : BitVec 32
  reg : BitVec 32
  mem : BitVec 32
  key : Object Word Byte SiphashKey
  body : Body

inductive Field | seed | reg | mem | key | body
deriving DecidableEq

def Place.region (p : Place) : Field → Set Word
  | .seed => (seedArray p.seed).region
  | .reg => (regArray p.reg).region
  | .mem => (memArray p.mem).region
  | .key => p.key.region
  | .body => p.body.region

/-- The fields of a compiled context. -/
def Place.context (p : Place) (code : BitVec 32) (bytes : Bytes 64) : Context :=
  ⟨(codeArray code).read bytes, p.key.read bytes, (regArray p.reg).read bytes, (memArray p.mem).read bytes⟩

/-- The fields of an interpreted context. -/
def Place.interpreted (p : Place) (list : Object Word Byte ProgramList) (bytes : Bytes 64) : Interpreted :=
  ⟨list.read bytes, p.key.read bytes⟩

/-- The export `hashwx_make`. -/
inductive Place.Make (p : Place) (seed : Seed) (bytes : Bytes 64) : Bytes 64 → Prop
  | compiled {code : BitVec 32} {memory : ProgramList} {ctx : Context} : p.body = .compiled code →
      CompilerWasm.hashwxMake true seed memory (p.context code bytes) = .ok ctx →
      p.Make seed bytes ((codeArray code).write ctx.code (p.key.write ctx.key bytes))
  | interpreted {list : Object Word Byte ProgramList} {ctx : Interpreted} : p.body = .interpreted list →
      (p.interpreted list bytes).make seed = ctx →
      p.Make seed bytes (list.write ctx.programList (p.key.write ctx.key bytes))

/-! ## The state -/

/-- An object of `#instances`. -/
structure Instance where
  ctx : Ptr
  seed : BitVec 32
  reg : BitVec 32
  mem : BitVec 32
  isCompiled : Bool
  sideModule : Option Wasm.Module

/-- The main module with its allocator, contexts and linear memory, and `#instances`. The first
`hashwx_alloc` loads the module, so there is no object before. -/
structure World where
  loaded : Bool
  heap : Heap
  places : Ptr → Option Place
  bytes : Bytes 64
  instances : List (Slot Instance)

/-- Before the first call: `#instances` is `[1]`. -/
def World.start (bytes : Bytes 64) : World := ⟨false, fun _ => none, fun _ => none, bytes, [.sentinel]⟩

/-- The two memories agree on all contexts. -/
def World.Settles (w : World) (bytes bytes' : Bytes 64) : Prop :=
  ∀ {ctx p}, w.places ctx = some p → ∀ f, Set.EqOn bytes' bytes (p.region f)

/-- A place that a new context may have. -/
structure World.Fits (size : Nat) (w : World) (p : Place) : Prop where
  placed : Placed size p.reg p.mem
  inner : ∀ {f f'}, f ≠ f' → Disjoint (p.region f) (p.region f')
  outer : ∀ {ctx p'}, w.places ctx = some p' → ∀ f f', Disjoint (p.region f) (p'.region f')

/-- What the allocations of `hashwx_alloc` may return. A memory of at most two GiB has no address
that is a negative number. -/
structure World.Grants (w : World) (results : Results) : Prop where
  fresh : results.Fresh w.heap
  positive : ∀ p, results.ctx = some p → 0 < p

def wasm : Lifetime.Platform := ⟨.wasm, false⟩

/-! ## The methods -/

inductive Call
  | alloc (type : BitVec 32)
  | make (i : Int) (src : List Byte)
  | exec (i : Int) (nonce : Int)
  | free (i : Int)

/-- What a method returns or throws. -/
inductive Outcome
  | undefined
  | number (i : Int)
  | bigint (v : Int)
  | typeError
  | rangeError
  | compileError

/-- `type & HASHWX_COMPILED`. -/
def hashwxType (type : BitVec 32) : HashwxType := if type.getLsbD 0 then .compiled else .interpreted

/-- `seed_dst.set(seed_src)`, if the source is not longer. -/
def overwrite (src : List Byte) (dst : Seed) : Seed := Vector.ofFn fun k => src.getD k (dst.get k)

/-- A number of any size as an argument of type `i64`. -/
def toI64 (nonce : Int) : Word := BitVec.ofInt 64 nonce

def newInstance (ctx : Ptr) (p : Place) (isCompiled : Bool) : Instance :=
  ⟨ctx, p.seed, p.reg, p.mem, isCompiled, none⟩

/-- The memory when `hashwx_make` has copied the seed. -/
def Instance.seeded (obj : Instance) (src : List Byte) (bytes : Bytes 64) : Bytes 64 :=
  (seedArray obj.seed).write (overwrite src ((seedArray obj.seed).read bytes)) bytes

/-- The memory and the result of `hashwx_make` up to the call of the main module. -/
inductive World.Makes (w : World) (obj : Instance) (src : List Byte) (p : Place) : Bytes 64 → Prop
  | intro {made bytes' : Bytes 64} : src.length ≤ 32 → w.places obj.ctx = some p →
      p.Make ((seedArray obj.seed).read (obj.seeded src w.bytes)) (obj.seeded src w.bytes) made →
      w.Settles made bytes' → w.Makes obj src p bytes'

/-- The memory behind `hashwx_exec_begin`. -/
inductive World.Begins (w : World) (obj : Instance) (p : Place) (code : BitVec 32) (nonce : Int) :
    Bytes 64 → Prop
  | intro {bytes' : Bytes 64} : w.places obj.ctx = some p → p.body = .compiled code →
      w.Settles ((regArray p.reg).write (hashwxExecBegin (p.context code w.bytes) (toI64 nonce)).reg w.bytes) bytes' →
      w.Begins obj p code nonce bytes'

/-- The calls that have undefined behavior, in a build without assertions. The sentinel is the number 1,
and the fields of a number are undefined, which is 0 for the main module: `hashwx_make` writes the seed
to the first bytes of the memory, and both functions run with `NULL` for the context. An interpreted
instance without a function executes what its program list happens to hold. -/
inductive World.Undefined (w : World) : Call × Outcome → Prop
  | makeNull {i : Int} {src : List Byte} {outcome : Outcome} : HandleTable.get w.instances i = .sentinel →
      w.loaded = true → src.length ≤ 32 → w.Undefined (.make i src, outcome)
  | execNull {i nonce : Int} {outcome : Outcome} : HandleTable.get w.instances i = .sentinel →
      w.loaded = true → w.Undefined (.exec i nonce, outcome)
  | execInterpreted {i nonce : Int} {obj : Instance} {p : Place} {list : Object Word Byte ProgramList}
      {scratch : Scratchpad} {outcome : Outcome} : HandleTable.get w.instances i = .object obj →
      obj.isCompiled = false → w.places obj.ctx = some p → p.body = .interpreted list →
      (p.interpreted list w.bytes).exec (toI64 nonce) scratch = none → w.Undefined (.exec i nonce, outcome)
  | free {i : Int} {obj : Instance} {outcome : Outcome} : HandleTable.get w.instances i = .object obj →
      hashwxFree wasm obj.ctx w.heap = none → w.Undefined (.free i, outcome)

/-- The calls of the methods that have a defined result. -/
inductive Step (size : Nat) : World → Call × Outcome → World → Prop
  | allocNull {w : World} {type : BitVec 32} {results : Results} {ctx : Ptr} {heap : Heap} {bytes' : Bytes 64} :
      w.Grants results → hashwxAlloc wasm (hashwxType type) results w.heap = some (ctx, heap) → ctx ≤ 0 →
      w.Settles w.bytes bytes' →
      Step size w (.alloc type, .number ctx) { w with loaded := true, heap := heap, bytes := bytes' }
  | alloc {w : World} {type : BitVec 32} {results : Results} {ctx : Ptr} {heap : Heap} {bytes' : Bytes 64}
      {p : Place} : w.Grants results →
      hashwxAlloc wasm (hashwxType type) results w.heap = some (ctx, heap) → 0 < ctx →
      w.Fits size p → p.body.isCompiled = type.getLsbD 0 → w.Settles w.bytes bytes' →
      Step size w
        (.alloc type, .number (HandleTable.insert (newInstance ctx p (type.getLsbD 0)) w.instances).2)
        ⟨true, heap, Function.update w.places ctx (some p), bytes',
          (HandleTable.insert (newInstance ctx p (type.getLsbD 0)) w.instances).1⟩
  | makeUndefined {w : World} {i : Int} {src : List Byte} : HandleTable.get w.instances i = .undefined →
      Step size w (.make i src, .typeError) w
  | makeUnloaded {w : World} {i : Int} {src : List Byte} : HandleTable.get w.instances i = .sentinel →
      w.loaded = false → Step size w (.make i src, .typeError) w
  | makeNullLong {w : World} {i : Int} {src : List Byte} : HandleTable.get w.instances i = .sentinel →
      w.loaded = true → 32 < src.length → Step size w (.make i src, .rangeError) w
  | makeLong {w : World} {i : Int} {src : List Byte} {obj : Instance} :
      HandleTable.get w.instances i = .object obj → 32 < src.length →
      Step size w (.make i src, .rangeError) w
  | makeInterpreted {w : World} {i : Int} {src : List Byte} {obj : Instance} {p : Place} {bytes' : Bytes 64} :
      HandleTable.get w.instances i = .object obj → obj.isCompiled = false → w.Makes obj src p bytes' →
      Step size w (.make i src, .undefined) { w with bytes := bytes' }
  | makeInvalid {w : World} {i : Int} {src : List Byte} {obj : Instance} {p : Place} {code : BitVec 32}
      {bytes' : Bytes 64} : HandleTable.get w.instances i = .object obj → obj.isCompiled = true →
      w.Makes obj src p bytes' → p.body = .compiled code →
      (∀ m, Wasm.decodeModule ((codeArray code).read bytes').toList = some m → ¬m.Valid) →
      Step size w (.make i src, .compileError) { w with bytes := bytes' }
  | make {w : World} {i : Int} {src : List Byte} {obj : Instance} {p : Place} {code : BitVec 32}
      {m : Wasm.Module} {bytes' : Bytes 64} : HandleTable.get w.instances i = .object obj →
      obj.isCompiled = true → w.Makes obj src p bytes' → p.body = .compiled code →
      Wasm.decodeModule ((codeArray code).read bytes').toList = some m → m.Valid →
      Step size w (.make i src, .undefined)
        { w with
          bytes := bytes'
          instances := HandleTable.set w.instances i (.object { obj with sideModule := some m }) }
  | execUndefined {w : World} {i nonce : Int} : HandleTable.get w.instances i = .undefined →
      Step size w (.exec i nonce, .typeError) w
  | execUnloaded {w : World} {i nonce : Int} : HandleTable.get w.instances i = .sentinel →
      w.loaded = false → Step size w (.exec i nonce, .typeError) w
  | execInterpreted {w : World} {i nonce : Int} {obj : Instance} {p : Place}
      {list : Object Word Byte ProgramList} {scratch : Scratchpad} {v : Word} {bytes' : Bytes 64} :
      HandleTable.get w.instances i = .object obj → obj.isCompiled = false → w.places obj.ctx = some p →
      p.body = .interpreted list → (p.interpreted list w.bytes).exec (toI64 nonce) scratch = some v →
      w.Settles w.bytes bytes' → Step size w (.exec i nonce, .bigint v.toInt) { w with bytes := bytes' }
  | execUnmade {w : World} {i nonce : Int} {obj : Instance} {p : Place} {code : BitVec 32}
      {bytes' : Bytes 64} : HandleTable.get w.instances i = .object obj → obj.isCompiled = true →
      obj.sideModule = none → w.Begins obj p code nonce bytes' →
      Step size w (.exec i nonce, .typeError) { w with bytes := bytes' }
  | exec {w : World} {i nonce : Int} {obj : Instance} {p : Place} {code : BitVec 32} {m : Wasm.Module}
      {begun called bytes' : Bytes 64} : HandleTable.get w.instances i = .object obj → obj.isCompiled = true →
      obj.sideModule = some m → w.Begins obj p code nonce begun →
      CallExec (Wasm.linear size) m obj.reg obj.mem begun called → w.Settles called bytes' →
      Step size w (.exec i nonce, .bigint (hashwxExecFinal (p.context code called)).toInt)
        { w with bytes := bytes' }
  | freeOther {w : World} {i : Int} : (∀ obj, HandleTable.get w.instances i ≠ .object obj) →
      Step size w (.free i, .undefined) w
  | free {w : World} {i : Int} {obj : Instance} {heap : Heap} {bytes' : Bytes 64} :
      HandleTable.get w.instances i = .object obj → hashwxFree wasm obj.ctx w.heap = some heap →
      (∀ {ctx p}, ctx ≠ obj.ctx → w.places ctx = some p → ∀ f, Set.EqOn bytes' w.bytes (p.region f)) →
      Step size w (.free i, .undefined)
        ⟨w.loaded, heap, Function.update w.places obj.ctx none, bytes',
          HandleTable.set w.instances i .undefined⟩

end HashWX.Js
