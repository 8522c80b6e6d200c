import Mathlib.Algebra.GroupWithZero.Nat
import Mathlib.Data.Fin.Tuple.Basic

/-!
# Fixed-size arrays with checked accesses

A C array of `n` elements is a vector. A load or a store at an index outside the
array has no result. An index of type `Fin n` is inside by its type, and a literal index is
taken for one, so the two need no proof where they are used.
-/

/-! ## Indices inside by their type -/

instance neZero_two : NeZero (2 : Nat) := ⟨by decide⟩
instance neZero_three : NeZero (3 : Nat) := ⟨by decide⟩
instance neZero_four : NeZero (4 : Nat) := ⟨by decide⟩
instance neZero_eight : NeZero (8 : Nat) := ⟨by decide⟩
instance neZero_nine : NeZero (9 : Nat) := ⟨by decide⟩
instance neZero_ten : NeZero (10 : Nat) := ⟨by decide⟩
instance neZero_sixteen : NeZero (16 : Nat) := ⟨by decide⟩
instance neZero_thirtytwo : NeZero (32 : Nat) := ⟨by decide⟩
instance neZero_twofiftysix : NeZero (256 : Nat) := ⟨by decide⟩

@[default_instance 2000]
instance Vector.instGetElemFin {α : Type*} {n : Nat} :
    GetElem (Vector α n) (Fin n) α fun _ _ => True where
  getElem xs i _ := getElem xs i.val i.isLt

/-- An index into the front of the array. -/
instance Vector.instGetElemFinLE {α : Type*} {m n : Nat} [Fact (m ≤ n)] :
    GetElem (Vector α n) (Fin m) α fun _ _ => True where
  getElem xs i _ := getElem xs i.val (Nat.lt_of_lt_of_le i.isLt Fact.out)

/-- A store at an index inside by its type. -/
abbrev Vector.setFin {α : Type*} {n : Nat} (xs : Vector α n) (i : Fin n) (v : α) : Vector α n :=
  xs.set i.val v i.isLt

theorem Vector.getElem_fin {α : Type*} {n : Nat} (xs : Vector α n) (i : Fin n) :
    xs[i] = xs[i.val] := rfl

theorem Vector.getElem_ofFn_fin {α : Type*} {n : Nat} (f : Fin n → α) (i : Fin n) :
    (Vector.ofFn f)[i] = f i := Vector.getElem_ofFn i.isLt

theorem Vector.getElem_setFin_self {α : Type*} {n : Nat} (xs : Vector α n) (i : Fin n) (v : α) :
    (xs.setFin i v)[i] = v := Vector.getElem_set_self _

theorem Vector.getElem_setFin_ne {α : Type*} {n : Nat} (xs : Vector α n) {i j : Fin n} (v : α)
    (h : i ≠ j) : (xs.setFin i v)[j] = xs[j] :=
  Vector.getElem_set_ne _ _ fun he => h (Fin.ext he)

namespace FinArray

variable {n : Nat} {α : Type*}

def load (a : Vector α n) (i : Nat) : Option α := a[i]?

def store (a : Vector α n) (i : Nat) (v : α) : Option (Vector α n) :=
  if h : i < n then some (a.set i v h) else none

theorem load_of_lt (a : Vector α n) {i : Nat} (h : i < n) : load a i = some a[i] :=
  Vector.getElem?_eq_getElem h

theorem store_of_lt (a : Vector α n) {i : Nat} (h : i < n) (v : α) :
    store a i v = some (a.set i v h) := dif_pos h

@[simp] theorem load_val (a : Vector α n) (i : Fin n) : load a i = some a[i] := load_of_lt a i.isLt

@[simp] theorem store_val (a : Vector α n) (i : Fin n) (v : α) :
    store a i v = some (a.set i v) := dif_pos i.isLt

theorem lt_of_load {a : Vector α n} {i : Nat} {v : α} (h : load a i = some v) : i < n := by
  by_contra hn
  rw [load, Vector.getElem?_eq_none (Nat.le_of_not_lt hn)] at h
  cases h

/-- Stores one behind the other, from `pos` upwards. -/
def storeAll (a : Vector α n) (pos : Nat) : List α → Option (Vector α n)
  | [] => some a
  | x :: xs => do storeAll (← store a pos x) (pos + 1) xs

theorem storeAll_eq {xs : List α} {pos : Nat} (a : Vector α n) (h : pos + xs.length ≤ n) :
    ∃ b, storeAll a pos xs = some b ∧
      b.toList = a.toList.take pos ++ xs ++ a.toList.drop (pos + xs.length) := by
  induction xs generalizing a pos with
  | nil =>
    refine ⟨a, rfl, ?_⟩
    rw [List.append_nil, List.length_nil, Nat.add_zero, List.take_append_drop]
  | cons x xs ih =>
    rw [List.length_cons] at h ⊢
    have hpos : pos < n := by omega
    have hlen : a.toList.length = n := a.length_toList
    have hset : (a.set pos x hpos).toList = (a.toList.take pos ++ [x]) ++ a.toList.drop (pos + 1) := by
      rw [Vector.toList_set, List.set_eq_take_append_cons_drop, if_pos (by omega), List.append_assoc,
        List.singleton_append]
    have htake : (a.toList.take pos ++ [x]).length = pos + 1 := by
      rw [List.length_append, List.length_take, hlen, Nat.min_eq_left hpos.le, List.length_singleton]
    have hsum : pos + (xs.length + 1) = pos + 1 + xs.length := by omega
    have hnext : pos + 1 + xs.length ≤ n := by omega
    obtain ⟨b, hb, hlist⟩ := ih (a.set pos x hpos) hnext
    refine ⟨b, ?_, ?_⟩
    · simp only [storeAll, store_of_lt a hpos, bind, Option.bind_some]
      exact hb
    · rw [hlist, hset, hsum, List.take_left' htake, ← List.drop_drop, List.drop_left' htake,
        List.drop_drop]
      simp only [List.append_assoc, List.cons_append, List.nil_append]

end FinArray

/-- An update in the right part of two arrays that stand one behind the other. -/
theorem Fin.update_append_right {m n : Nat} {α : Type*} (a : Fin m → α) (b : Fin n → α) (k : Fin n)
    (x : α) :
    Function.update (Fin.append a b) (Fin.natAdd m k) x = Fin.append a (Function.update b k x) := by
  funext i
  induction i using Fin.addCases with
  | left i =>
    have hne : Fin.castAdd n i ≠ Fin.natAdd m k := by
      intro h
      have hi := i.isLt
      have hval := congrArg Fin.val h
      simp only [Fin.val_castAdd, Fin.val_natAdd] at hval
      omega
    rw [Function.update_of_ne hne, Fin.append_left, Fin.append_left]
  | right i =>
    rw [Fin.append_right]
    by_cases h : i = k
    · subst h
      rw [Function.update_self, Function.update_self]
    · have hne : Fin.natAdd m i ≠ Fin.natAdd m k := fun he => h (Fin.natAdd_injective n m he)
      rw [Function.update_of_ne hne, Function.update_of_ne h, Fin.append_right]
