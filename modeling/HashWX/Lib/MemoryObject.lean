import HashWX.Lib.ByteMemory
import Mathlib.Data.Set.BooleanAlgebra
import Mathlib.Data.Set.Function
import Mathlib.Logic.Equiv.Defs
import Mathlib.Order.CompletePartialOrder

/-!
# Objects in a memory

An object is a part of a memory with a value: it is read from its own cells, a write changes
no others, and a read gives what was written last. What happens outside of the cells of an
object does not concern it.
-/

namespace MemoryObject

open Set

structure Object (ι β α : Type*) where
  region : Set ι
  read : (ι → β) → α
  write : α → (ι → β) → ι → β
  read_congr : ∀ {m m'}, EqOn m m' region → read m = read m'
  read_write : ∀ v m, read (write v m) = v
  write_apart : ∀ v m {a}, a ∉ region → write v m a = m a

section Object

variable {ι β α γ : Type*} {o : Object ι β α} {o' : Object ι β γ}

/-- A write leaves everything that is disjoint from the object. -/
theorem Object.write_eqOn {s : Set ι} (h : Disjoint o.region s) (v : α) (m : ι → β) :
    EqOn (o.write v m) m s := fun _ ha =>
  o.write_apart v m fun hmem => disjoint_left.mp h hmem ha

theorem Object.read_write_of_disjoint (h : Disjoint o'.region o.region) (v : γ) (m : ι → β) :
    o.read (o'.write v m) = o.read m :=
  o.read_congr (Object.write_eqOn h v m)

/-- The same object with another type of values. -/
def Object.map (o : Object ι β α) (e : α ≃ γ) : Object ι β γ where
  region := o.region
  read m := e (o.read m)
  write v := o.write (e.symm v)
  read_congr h := congrArg e (o.read_congr h)
  read_write v m := (congrArg e (o.read_write (e.symm v) m)).trans (e.apply_symm_apply v)
  write_apart v := o.write_apart (e.symm v)

end Object

/-! ## Arrays in a byte-addressed memory -/

section Arrays

open ByteMemory

variable {w n : Nat} (base : BitVec w)

/-- The `n` addresses from `base` upwards. -/
def span (base : BitVec w) (n : Nat) : Set (BitVec w) := {x | (x - base).toNat < n}

theorem add_mem_span {n k : Nat} (hn : n ≤ 2 ^ w) (hk : k < n) : base + BitVec.ofNat w k ∈ span base n := by
  have hval : (base + BitVec.ofNat w k - base).toNat = k := by
    rw [BitVec.add_comm, BitVec.add_sub_cancel, BitVec.toNat_ofNat, Nat.mod_eq_of_lt (by omega)]
  show (base + BitVec.ofNat w k - base).toNat < n
  omega

/-- The bytes of a word belong to its array. -/
theorem wordAddr_add_mem_span {i k : Nat} (hn : 8 * n ≤ 2 ^ w) (hi : i < n) (hk : k < 8) :
    wordAddr base i + BitVec.ofNat w k ∈ span base (8 * n) := by
  have hsum : wordAddr base i + BitVec.ofNat w k = base + BitVec.ofNat w (8 * i + k) := by
    rw [wordAddr, BitVec.ofNat_add, BitVec.add_assoc]
  rw [hsum]
  exact add_mem_span base hn (by omega)

/-- What lies outside of an array of words is no byte of any of them. -/
theorem le_sub_wordAddr {x : BitVec w} {k : Nat} (hx : x ∉ span base (8 * n)) (hk : k < n) :
    8 ≤ (x - wordAddr base k).toNat := by
  have hge : 8 * n ≤ (x - base).toNat := Nat.le_of_not_lt hx
  have hlt := (x - base).isLt
  have hsub : x - wordAddr base k = x - base - BitVec.ofNat w (8 * k) := by rw [wordAddr, sub_sub]
  have hval : (BitVec.ofNat w (8 * k)).toNat = 8 * k := by
    rw [BitVec.toNat_ofNat, Nat.mod_eq_of_lt (by omega)]
  rw [hsub, BitVec.toNat_sub_of_le (BitVec.le_def.mpr (by omega)), hval]
  omega

theorem storeWords_of_not_mem {xs : List (BitVec 64 × Nat)} (hlt : ∀ x ∈ xs, x.2 < n) {a : BitVec w}
    (ha : a ∉ span base (8 * n)) (m : Bytes w) : storeWords base xs m a = m a := by
  induction xs generalizing m with
  | nil => rfl
  | cons x xs ih =>
    have hhead := storeLE_of_le (n := 8) m x.1 (le_sub_wordAddr base ha (hlt x List.mem_cons_self))
    exact (ih (fun y hy => hlt y (List.mem_cons_of_mem x hy)) _).trans hhead

def readBytes (m : Bytes w) : Vector (BitVec 8) n := Vector.ofFn fun i => m (base + BitVec.ofNat w i)

def writeBytes (v : Vector (BitVec 8) n) (m : Bytes w) : Bytes w := fun x =>
  if h : (x - base).toNat < n then v.get ⟨(x - base).toNat, h⟩ else m x

theorem readBytes_congr (hn : n ≤ 2 ^ w) {m m' : Bytes w} (h : EqOn m m' (span base n)) :
    (readBytes base m : Vector (BitVec 8) n) = readBytes base m' := by
  refine congrArg Vector.ofFn (funext fun i => ?_)
  exact h (add_mem_span base hn i.isLt)

theorem readBytes_writeBytes (hn : n ≤ 2 ^ w) (v : Vector (BitVec 8) n) (m : Bytes w) :
    readBytes base (writeBytes base v m) = v := by
  apply Vector.ext
  intro i hi
  have hval : (base + BitVec.ofNat w i - base).toNat = i := by
    rw [BitVec.add_comm, BitVec.add_sub_cancel, BitVec.toNat_ofNat, Nat.mod_eq_of_lt (by omega)]
  rw [readBytes, Vector.getElem_ofFn]
  simp only [writeBytes, hval, dif_pos hi]
  rfl

theorem writeBytes_apart (v : Vector (BitVec 8) n) (m : Bytes w) {a : BitVec w} (ha : a ∉ span base n) :
    writeBytes base v m a = m a := dif_neg ha

/-- An array of bytes. -/
def bytes (hn : n ≤ 2 ^ w) : Object (BitVec w) (BitVec 8) (Vector (BitVec 8) n) where
  region := span base n
  read := readBytes base
  write := writeBytes base
  read_congr := readBytes_congr base hn
  read_write := readBytes_writeBytes base hn
  write_apart := writeBytes_apart base

def readWords (m : Bytes w) : Vector (BitVec 64) n := Vector.ofFn fun i => load64 m (wordAddr base i)

def writeWords (v : Vector (BitVec 64) n) (m : Bytes w) : Bytes w := storeArray base v.get m

theorem readWords_congr (hn : 8 * n ≤ 2 ^ w) {m m' : Bytes w} (h : EqOn m m' (span base (8 * n))) :
    (readWords base m : Vector (BitVec 64) n) = readWords base m' := by
  refine congrArg Vector.ofFn (funext fun i => ?_)
  exact loadLE_congr fun k hk => h (wordAddr_add_mem_span base hn i.isLt hk)

theorem readWords_writeWords (hn : 8 * n ≤ 2 ^ w) (v : Vector (BitVec 64) n) (m : Bytes w) :
    readWords base (writeWords base v m) = v := by
  apply Vector.ext
  intro i hi
  rw [readWords, Vector.getElem_ofFn]
  exact load64_storeArray base v.get m hn ⟨i, hi⟩

theorem writeWords_apart (v : Vector (BitVec 64) n) (m : Bytes w) {a : BitVec w}
    (ha : a ∉ span base (8 * n)) : writeWords base v m a = m a := by
  refine storeWords_of_not_mem base (fun x hx => ?_) ha m
  obtain ⟨k, rfl⟩ := List.mem_ofFn.mp hx
  exact k.isLt

/-- An array of words. -/
def words (hn : 8 * n ≤ 2 ^ w) : Object (BitVec w) (BitVec 8) (Vector (BitVec 64) n) where
  region := span base (8 * n)
  read := readWords base
  write := writeWords base
  read_congr := readWords_congr base hn
  read_write := readWords_writeWords base hn
  write_apart := writeWords_apart base

end Arrays

end MemoryObject
