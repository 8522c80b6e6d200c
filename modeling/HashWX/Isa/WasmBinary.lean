import HashWX.Isa.WasmModule
import HashWX.Lib.ListReader
import Mathlib.Data.List.OfFn

/-!
# The binary format of WebAssembly

Readers for the productions of the binary format. Integers are in LEB128 and may be
padded; a section and a function body take exactly as many bytes as their size says.
-/

namespace Wasm

open ListReader

abbrev Byte := BitVec 8

/-! ## Integers -/

/-- An unsigned integer of `N` bits. -/
def unsigned : List Byte → Nat → Option (Nat × List Byte)
  | [], _ => none
  | b :: bs, N =>
    if b.toNat < 128 then if b.toNat < 2 ^ N then some (b.toNat, bs) else none
    else if 7 < N then do
      let (m, bs) ← unsigned bs (N - 7)
      return (128 * m + (b.toNat - 128), bs)
    else none

/-- A signed integer of `N` bits. -/
def signed : List Byte → Nat → Option (Int × List Byte)
  | [], _ => none
  | b :: bs, N =>
    if b.toNat < 64 then if b.toNat < 2 ^ (N - 1) then some (b.toNat, bs) else none
    else if b.toNat < 128 then
      if 128 ≤ b.toNat + 2 ^ (N - 1) then some ((b.toNat : Int) - 128, bs) else none
    else if 7 < N then do
      let (m, bs) ← signed bs (N - 7)
      return (128 * m + (b.toNat - 128), bs)
    else none

def u32 : Reader Byte Nat := fun bs => unsigned bs 32

def s32 : Reader Byte Int := fun bs => signed bs 32

def s64 : Reader Byte Int := fun bs => signed bs 64

/-! ## Instructions -/

/-- The immediates of an instruction. -/
def readPlain : Nat → Reader Byte Plain
  | 0x20 => do return .localGet (← u32)
  | 0x21 => do return .localSet (← u32)
  | 0x22 => do return .localTee (← u32)
  | 0x29 => do return .i64Load (← u32) (← u32)
  | 0x37 => do return .i64Store (← u32) (← u32)
  | 0x41 => do return .i32Const (.ofInt 32 (← s32))
  | 0x42 => do return .i64Const (.ofInt 64 (← s64))
  | 0x50 => return .i64Eqz
  | 0x6a => return .i32Add
  | 0x6b => return .i32Sub
  | 0x7c => return .i64 .add
  | 0x7d => return .i64 .sub
  | 0x7e => return .i64 .mul
  | 0x83 => return .i64 .and
  | 0x84 => return .i64 .or
  | 0x85 => return .i64 .xor
  | 0x87 => return .i64 .shrS
  | 0x88 => return .i64 .shrU
  | 0x8a => return .i64 .rotr
  | 0xa7 => return .i32WrapI64
  | _ => fail

/-- An instruction without control, by its first byte. -/
def readInstr : Reader Byte Plain := do readPlain (← next).toNat

/-- A block without parameters and results. -/
def blockType : Reader Byte Unit := do if (← next) = 0x40 then return () else fail

/-- Instructions to the end of a block. The number bounds how many there are. -/
def readCode : Nat → Reader Byte Code
  | 0 => fail
  | n + 1 => do
    let b ← next
    match b.toNat with
    | 0x0b => return .done
    | 0x03 => do
      blockType
      let body ← readCode n
      return .loop body (← readCode n)
    | 0x04 => do
      blockType
      let body ← readCode n
      return .ifThen body (← readCode n)
    | 0x0c => do
      let l ← u32
      return .br l (← readCode n)
    | op => do
      let i ← readPlain op
      return .plain i (← readCode n)

/-! ## Sections -/

/-- A production behind its size in bytes. -/
def sized {α : Type} (p : Reader Byte α) : Reader Byte α := do
  let content ← times next (← u32)
  match p content with
  | some (a, []) => return a
  | _ => fail

def vec {α : Type} (p : Reader Byte α) : Reader Byte (List α) := do times p (← u32)

def expect : List Byte → Reader Byte Unit
  | [] => return ()
  | b :: bs => do if (← next) = b then expect bs else fail

/-- A section, which may be left out. -/
def sectionOf {α : Type} (id : Byte) (p : Reader Byte α) : Reader Byte (List α)
  | [] => some ([], [])
  | b :: bs => if b = id then sized (vec p) bs else some ([], b :: bs)

def valType : Reader Byte ValType := do
  match (← next).toNat with
  | 0x7f => return .i32
  | 0x7e => return .i64
  | _ => fail

def funcType : Reader Byte FuncType := do
  expect [0x60]
  return ⟨← vec valType, ← vec valType⟩

/-- Names of ASCII characters. -/
def name : Reader Byte (List Byte) := do
  let bs ← vec next
  if ∀ b ∈ bs, b.toNat < 128 then return bs else fail

def limits : Reader Byte Limits := do
  match (← next).toNat with
  | 0x00 => return ⟨← u32, none⟩
  | 0x01 => return ⟨← u32, ← u32⟩
  | _ => fail

def importOf : Reader Byte Import := do
  let module ← name
  let item ← name
  expect [0x02]
  return ⟨module, item, ← limits⟩

def exportOf : Reader Byte Export := do
  let item ← name
  expect [0x00]
  return ⟨item, ← u32⟩

/-- Several local variables of one type. -/
def localsOf : Reader Byte (List ValType) := do
  let n ← u32
  return .replicate n (← valType)

/-- Instructions that fill what is left of the input. -/
def expr : Reader Byte Code := fun bs => readCode bs.length bs

/-- The local variables of a function and its body. -/
def funcOf : Reader Byte (List ValType × Code) := sized do
  let locals ← vec localsOf
  if locals.flatten.length < 2 ^ 32 then return (locals.flatten, ← expr) else fail

/-- The sections of the subset, in the order of their numbers. -/
def readModule : Reader Byte Module := do
  expect [0x00, 0x61, 0x73, 0x6d, 0x01, 0x00, 0x00, 0x00]
  let types ← sectionOf 1 funcType
  let imports ← sectionOf 2 importOf
  let funcs ← sectionOf 3 u32
  let exports ← sectionOf 7 exportOf
  let bodies ← sectionOf 10 funcOf
  if funcs.length = bodies.length then
    return ⟨types, imports, funcs.zipWith (fun t f => ⟨t, f.1, f.2⟩) bodies, exports⟩
  else fail

def decodeModule (bs : List Byte) : Option Module :=
  match readModule bs with
  | some (m, []) => some m
  | _ => none

/-! ## What is read -/

/-- The reader takes exactly `bs`, whatever follows. -/
def Reads {α : Type} (p : Reader Byte α) (bs : List Byte) (a : α) : Prop :=
  ∀ tail, p (bs ++ tail) = some (a, tail)

section Reads

variable {α β : Type} {p : Reader Byte α} {bs cs : List Byte} {a : α} {b : β}

theorem Reads.pure (a : α) : Reads (pure a) [] a := fun _ => rfl

/-- A number ends at its last byte: what follows it does not matter. -/
theorem readsPrefix_unsigned {ts us : List Byte} {N x : Nat} (h : unsigned ts N = some (x, us)) :
    ∃ bs, ts = bs ++ us ∧ ∀ vs, unsigned (bs ++ vs) N = some (x, vs) := by
  induction ts generalizing N x with
  | nil => cases h
  | cons b ts ih =>
    unfold unsigned at h
    split at h
    · next hb =>
      obtain ⟨hlt, hx⟩ := Option.ite_none_right_eq_some.mp h
      obtain ⟨rfl, rfl⟩ := Prod.mk.inj (Option.some.inj hx)
      exact ⟨[b], rfl, fun vs => by rw [List.singleton_append, unsigned, if_pos hb, if_pos hlt]⟩
    · next hb =>
      obtain ⟨hN, h⟩ := Option.ite_none_right_eq_some.mp h
      obtain ⟨⟨m, ms⟩, hm, hx⟩ := Option.bind_eq_some_iff.mp h
      obtain ⟨rfl, rfl⟩ := Prod.mk.inj (Option.some.inj hx)
      obtain ⟨bs, rfl, hbs⟩ := ih hm
      refine ⟨b :: bs, rfl, fun vs => ?_⟩
      rw [List.cons_append, unsigned, if_neg hb, if_pos hN, hbs]
      rfl

theorem readsPrefix_signed {ts us : List Byte} {N : Nat} {x : Int} (h : signed ts N = some (x, us)) :
    ∃ bs, ts = bs ++ us ∧ ∀ vs, signed (bs ++ vs) N = some (x, vs) := by
  induction ts generalizing N x with
  | nil => cases h
  | cons b ts ih =>
    unfold signed at h
    split at h
    · next hb =>
      obtain ⟨hlt, hx⟩ := Option.ite_none_right_eq_some.mp h
      obtain ⟨rfl, rfl⟩ := Prod.mk.inj (Option.some.inj hx)
      exact ⟨[b], rfl, fun vs => by rw [List.singleton_append, signed, if_pos hb, if_pos hlt]⟩
    · next hb =>
      split at h
      · next hb' =>
        obtain ⟨hle, hx⟩ := Option.ite_none_right_eq_some.mp h
        obtain ⟨rfl, rfl⟩ := Prod.mk.inj (Option.some.inj hx)
        exact ⟨[b], rfl, fun vs => by
          rw [List.singleton_append, signed, if_neg hb, if_pos hb', if_pos hle]⟩
      · next hb' =>
        obtain ⟨hN, h⟩ := Option.ite_none_right_eq_some.mp h
        obtain ⟨⟨m, ms⟩, hm, hx⟩ := Option.bind_eq_some_iff.mp h
        obtain ⟨rfl, rfl⟩ := Prod.mk.inj (Option.some.inj hx)
        obtain ⟨bs, rfl, hbs⟩ := ih hm
        refine ⟨b :: bs, rfl, fun vs => ?_⟩
        rw [List.cons_append, signed, if_neg hb, if_neg hb', if_pos hN, hbs]
        rfl

/-- No operand of an instruction looks past its end. -/
theorem readsPrefix_readPlain (op : Nat) : ReadsPrefix (readPlain op) := by
  have hu32 : ReadsPrefix u32 := fun _ _ _ => readsPrefix_unsigned
  have hs32 : ReadsPrefix s32 := fun _ _ _ => readsPrefix_signed
  have hs64 : ReadsPrefix s64 := fun _ _ _ => readsPrefix_signed
  unfold readPlain
  split
  case h_1 | h_2 | h_3 => exact hu32.bind fun _ => .pure _
  case h_4 | h_5 => exact hu32.bind fun _ => hu32.bind fun _ => .pure _
  case h_6 => exact hs32.bind fun _ => .pure _
  case h_7 => exact hs64.bind fun _ => .pure _
  case h_21 => exact .fail
  all_goals exact .pure _

theorem readInstr_readsPrefix : ReadsPrefix readInstr :=
  ReadsPrefix.next.bind fun b => readsPrefix_readPlain b.toNat

theorem reads_times_next (bs : List Byte) : Reads (times next bs.length) bs bs := by
  induction bs with
  | nil => exact Reads.pure []
  | cons b bs ih =>
    intro tail
    exact Option.bind_eq_some_iff.mpr ⟨(bs, tail), ih tail, rfl⟩

end Reads

/-- An unsigned integer of one byte. -/
theorem reads_u32 {x : Nat} (hx : x < 128) : Reads u32 [BitVec.ofNat 8 x] x := by
  intro tail
  have hb : (BitVec.ofNat 8 x).toNat = x := by
    rw [BitVec.toNat_ofNat]
    omega
  show unsigned (BitVec.ofNat 8 x :: tail) 32 = some (x, tail)
  rw [unsigned, hb, if_pos hx, if_pos (by omega)]

/-- A signed integer of one byte that is not negative. -/
theorem reads_s64 {x : Nat} (hx : x < 64) : Reads s64 [BitVec.ofNat 8 x] x := by
  intro tail
  have hb : (BitVec.ofNat 8 x).toNat = x := by
    rw [BitVec.toNat_ofNat]
    omega
  show signed (BitVec.ofNat 8 x :: tail) 64 = some ((x : Int), tail)
  rw [signed, hb, if_pos hx, if_pos (by omega)]

/-! ## Sequences of instructions -/

/-- With at least `n` instructions allowed, the bytes are read as `c`, and `rem` is left. -/
def Parses (n : Nat) (bs : List Byte) (c : Code) (rem : List Byte) : Prop :=
  ∀ m, n ≤ m → readCode m bs = some (c, rem)

/-- The bytes are a part of a sequence, read as `c`. -/
def Decodes (bs : List Byte) (c : Code) : Prop :=
  ∀ ⦃n : Nat⦄ ⦃tail : List Byte⦄ ⦃r : Code⦄ ⦃rem : List Byte⦄, Parses n tail r rem →
    Parses (n + bs.length) (bs ++ tail) (c ++ r) rem

/-- An end byte closes the innermost block. -/
theorem parses_end (rem : List Byte) : Parses 1 (0x0b :: rem) .done rem := by
  intro m hm
  obtain ⟨m, rfl⟩ := Nat.exists_eq_succ_of_ne_zero (Nat.ne_of_gt hm)
  rfl

section Decodes

variable {bs cs : List Byte} {c d : Code}

theorem decodes_nil : Decodes [] .done := fun _ _ _ _ h => h

/-- The code of two pieces of bytes is one behind the other, so that modules can be decoded piece by piece. -/
theorem Decodes.append (h : Decodes bs c) (h' : Decodes cs d) : Decodes (bs ++ cs) (c ++ d) := by
  intro n tail r rem hr
  have hparses := h (h' hr)
  rw [List.length_append, List.append_assoc, Code.append_assoc, Nat.add_comm bs.length,
    ← Nat.add_assoc]
  exact hparses

/-- A whole sequence, with its end. -/
theorem Decodes.parses (h : Decodes bs c) (rem : List Byte) :
    Parses (1 + bs.length) (bs ++ 0x0b :: rem) c rem := by
  have hparses := h (parses_end rem)
  rw [Code.append_done] at hparses
  exact hparses

/-- The first byte of a plain instruction begins no block and ends none. -/
theorem decodes_plain {i : Plain} (h : Reads readInstr bs i) : Decodes bs (.plain i .done) := by
  intro n tail r rem hr m hm
  cases bs with
  | nil => cases h []
  | cons b args =>
    have hargs : Reads (readPlain b.toNat) args i := h
    obtain ⟨m, rfl⟩ := Nat.exists_eq_succ_of_ne_zero (show m ≠ 0 by rw [List.length_cons] at hm; omega)
    have hrest := hr m (by rw [List.length_cons] at hm; omega)
    have hfail (op : Nat) (hop : readPlain op = fail) : b.toNat ≠ op := by
      rintro rfl
      have hnone := hargs []
      rw [hop] at hnone
      cases hnone
    have hread : readCode (m + 1) (b :: args ++ tail) =
        (readPlain b.toNat >>= fun i => readCode m >>= fun c => pure (.plain i c)) (args ++ tail) := by
      simp only [readCode, bind, StateT.bind, next, List.cons_append, Option.bind_some]
      generalize b.toNat = op at hfail
      split
      · exact absurd rfl (hfail 11 rfl)
      · exact absurd rfl (hfail 3 rfl)
      · exact absurd rfl (hfail 4 rfl)
      · exact absurd rfl (hfail 12 rfl)
      · rfl
    rw [hread]
    exact Option.bind_eq_some_iff.mpr ⟨(i, tail), hargs tail,
      Option.bind_eq_some_iff.mpr ⟨(r, rem), hrest, rfl⟩⟩

theorem decodes_cons {i : Plain} {is : List Plain} (h : Reads readInstr bs i)
    (h' : Decodes cs (.plains is)) : Decodes (bs ++ cs) (.plains (i :: is)) :=
  (decodes_plain h).append h'

/-- A loop, whose body ends at an `end`. -/
theorem Decodes.loop (h : Decodes bs c) : Decodes ([0x03, 0x40] ++ bs ++ [0x0b]) (.loop c .done) := by
  intro n tail r rem hr m hm
  simp only [List.length_append, List.length_cons, List.length_nil] at hm
  obtain ⟨m, rfl⟩ := Nat.exists_eq_succ_of_ne_zero (show m ≠ 0 by omega)
  have hbody := h.parses tail m (by omega)
  have hrest := hr m (by omega)
  have hbytes : [0x03, 0x40] ++ bs ++ [0x0b] ++ tail = 0x03 :: 0x40 :: (bs ++ 0x0b :: tail) := by simp
  rw [hbytes]
  exact Option.bind_eq_some_iff.mpr ⟨(c, tail), hbody, Option.bind_eq_some_iff.mpr ⟨(r, rem), hrest, rfl⟩⟩

theorem Decodes.ifThen (h : Decodes bs c) :
    Decodes ([0x04, 0x40] ++ bs ++ [0x0b]) (.ifThen c .done) := by
  intro n tail r rem hr m hm
  simp only [List.length_append, List.length_cons, List.length_nil] at hm
  obtain ⟨m, rfl⟩ := Nat.exists_eq_succ_of_ne_zero (show m ≠ 0 by omega)
  have hbody := h.parses tail m (by omega)
  have hrest := hr m (by omega)
  have hbytes : [0x04, 0x40] ++ bs ++ [0x0b] ++ tail = 0x04 :: 0x40 :: (bs ++ 0x0b :: tail) := by simp
  rw [hbytes]
  exact Option.bind_eq_some_iff.mpr ⟨(c, tail), hbody, Option.bind_eq_some_iff.mpr ⟨(r, rem), hrest, rfl⟩⟩

/-- A branch is its opcode and a label. -/
theorem decodes_br {l : Nat} (h : Reads u32 bs l) : Decodes (0x0c :: bs) (.br l .done) := by
  intro n tail r rem hr m hm
  rw [List.length_cons] at hm
  obtain ⟨m, rfl⟩ := Nat.exists_eq_succ_of_ne_zero (show m ≠ 0 by omega)
  have hrest := hr m (by omega)
  exact Option.bind_eq_some_iff.mpr ⟨(l, tail), h tail, Option.bind_eq_some_iff.mpr ⟨(r, rem), hrest, rfl⟩⟩

theorem decodes_ofFn {n : Nat} {bss : Fin n → List Byte} {parts : Fin n → Code}
    (h : ∀ i, Decodes (bss i) (parts i)) :
    Decodes (List.ofFn bss).flatten (.concat (List.ofFn parts)) := by
  induction n with
  | zero => exact decodes_nil
  | succ n ih =>
    rw [List.ofFn_succ, List.ofFn_succ]
    exact (h 0).append (ih fun i => h i.succ)

/-- A sequence without control instructions, decoded at once. -/
theorem decodes_plains {is : List Plain} (h : times readInstr is.length bs = some (is, [])) :
    Decodes bs (.plains is) := by
  induction is generalizing bs with
  | nil =>
    obtain ⟨-, rfl⟩ := Prod.mk.inj (Option.some.inj h)
    exact decodes_nil
  | cons i is ih =>
    obtain ⟨⟨j, ms⟩, hj, h⟩ := Option.bind_eq_some_iff.mp h
    obtain ⟨⟨js, us⟩, hjs, h⟩ := Option.bind_eq_some_iff.mp h
    obtain ⟨hlist, rfl⟩ := Prod.mk.inj (Option.some.inj h)
    obtain ⟨rfl, rfl⟩ := List.cons.inj hlist
    obtain ⟨as, rfl, has⟩ := readInstr_readsPrefix _ _ _ hj
    exact (decodes_plain has).append (ih hjs)

end Decodes

/-! ## Modules -/

section Modules

variable {α : Type} {p : Reader Byte α} {bs size : List Byte} {a : α} {as : List α}

/-- A stated size is the one of the bytes that follow, and they are read completely. -/
theorem Reads.sized {n : Nat} (hsize : Reads u32 size n) (hn : bs.length = n)
    (h : p bs = some (a, [])) : Reads (sized p) (size ++ bs) a := by
  subst hn
  intro tail
  rw [List.append_assoc]
  refine Option.bind_eq_some_iff.mpr ⟨(bs.length, bs ++ tail), hsize _,
    Option.bind_eq_some_iff.mpr ⟨(bs, tail), reads_times_next bs tail, ?_⟩⟩
  simp only [h]
  rfl

theorem Reads.section (id : Byte) (h : Reads (Wasm.sized (vec p)) bs as) :
    Reads (sectionOf id p) (id :: bs) as := by
  intro tail
  rw [← h tail]
  exact if_pos rfl

/-- A vector of one element. -/
theorem vec_single (h : p bs = some (a, [])) : vec p (1 :: bs) = some ([a], []) :=
  Option.bind_eq_some_iff.mpr ⟨(a, []), h, rfl⟩

/-- An expression is code with its end byte. -/
theorem Decodes.expr {c : Code} (h : Decodes bs c) : expr (bs ++ [0x0b]) = some (c, []) := by
  have hlen : 1 + bs.length ≤ (bs ++ [0x0b]).length := by
    rw [List.length_append, List.length_singleton, Nat.add_comm]
  exact h.parses [] _ hlen

end Modules

end Wasm
