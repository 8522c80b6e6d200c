import Mathlib.Tactic.Common

/-!
# Tables of handles

A list of slots that grows at its end. An object goes to the first undefined slot, its index
is the handle, and a removed object leaves an undefined slot behind. A sentinel is a slot
that is neither undefined nor an object. Every index outside of the list is undefined.
-/

namespace HandleTable

variable {α : Type*}

inductive Slot (α : Type*)
  | undefined
  | sentinel
  | object (x : α)

def get (slots : List (Slot α)) (i : Int) : Slot α :=
  if 0 ≤ i then slots.getD i.toNat .undefined else .undefined

def insert (x : α) : List (Slot α) → List (Slot α) × Nat
  | [] => ([.object x], 0)
  | .undefined :: slots => (.object x :: slots, 0)
  | slot :: slots => (slot :: (insert x slots).1, (insert x slots).2 + 1)

/-- The slot `i` gets another value, if there is one. -/
def set (slots : List (Slot α)) (i : Int) (slot : Slot α) : List (Slot α) := slots.set i.toNat slot

section Laws

variable {slots : List (Slot α)}

theorem get_of_neg {i : Int} (h : ¬0 ≤ i) : get slots i = .undefined := if_neg h

theorem get_natCast (slots : List (Slot α)) (i : Nat) : get slots i = slots.getD i .undefined := by
  rw [get, if_pos (Int.natCast_nonneg i), Int.toNat_natCast]

/-- The slots behind the new object keep their values, and so do those in front of it. -/
theorem getD_insert (x : α) (slots : List (Slot α)) (i : Nat) :
    (insert x slots).1.getD i .undefined =
      if i = (insert x slots).2 then .object x else slots.getD i .undefined := by
  induction slots generalizing i with
  | nil => cases i <;> simp [insert]
  | cons slot slots ih =>
    cases slot with
    | undefined => cases i <;> simp [insert]
    | sentinel =>
      cases i with
      | zero => simp [insert]
      | succ i => simpa [insert] using ih i
    | object y =>
      cases i with
      | zero => simp [insert]
      | succ i => simpa [insert] using ih i

/-- The new object takes an undefined slot, and no slot in front of it is undefined. -/
theorem insert_first (x : α) (slots : List (Slot α)) :
    slots.getD (insert x slots).2 .undefined = .undefined ∧
      ∀ i < (insert x slots).2, slots.getD i .undefined ≠ .undefined := by
  induction slots with
  | nil => exact ⟨rfl, fun i hi => absurd hi (Nat.not_lt_zero i)⟩
  | cons slot slots ih =>
    obtain ⟨hat, hbefore⟩ := ih
    have hrest {first : Slot α} (hfirst : first ≠ .undefined) :
        ∀ i < (insert x slots).2 + 1, (first :: slots).getD i .undefined ≠ .undefined := by
      intro i hi
      cases i with
      | zero => exact hfirst
      | succ i => exact hbefore i (Nat.lt_of_succ_lt_succ hi)
    cases slot with
    | undefined => exact ⟨rfl, fun i hi => absurd hi (Nat.not_lt_zero i)⟩
    | sentinel => exact ⟨hat, hrest (by simp)⟩
    | object y => exact ⟨hat, hrest (by simp)⟩

theorem get_insert (x : α) (slots : List (Slot α)) (i : Int) :
    get (insert x slots).1 i = if i = (insert x slots).2 then .object x else get slots i := by
  by_cases hi : 0 ≤ i
  · obtain ⟨k, rfl⟩ := Int.eq_ofNat_of_zero_le hi
    rw [get_natCast, get_natCast, getD_insert]
    simp only [Int.natCast_inj]
  · rw [get_of_neg hi, get_of_neg hi, if_neg (by omega)]

theorem get_insert_first (x : α) (slots : List (Slot α)) :
    get slots (insert x slots).2 = .undefined ∧
      ∀ i : Int, 0 ≤ i → i < (insert x slots).2 → get slots i ≠ .undefined := by
  obtain ⟨hat, hbefore⟩ := insert_first x slots
  refine ⟨(get_natCast _ _).trans hat, fun i hi hlt => ?_⟩
  obtain ⟨k, rfl⟩ := Int.eq_ofNat_of_zero_le hi
  rw [get_natCast]
  exact hbefore k (Int.ofNat_lt.mp hlt)

/-- A slot with a value is one of the list. -/
theorem get_set {i : Int} (h : get slots i ≠ .undefined) (slot : Slot α) (j : Int) :
    get (set slots i slot) j = if j = i then slot else get slots j := by
  by_cases hi : 0 ≤ i
  · obtain ⟨k, rfl⟩ := Int.eq_ofNat_of_zero_le hi
    rw [get_natCast] at h
    have hk : k < slots.length := by
      by_contra hge
      rw [List.getD_eq_getElem?_getD, List.getElem?_eq_none (Nat.le_of_not_lt hge)] at h
      exact h rfl
    by_cases hj : 0 ≤ j
    · obtain ⟨l, rfl⟩ := Int.eq_ofNat_of_zero_le hj
      rw [get_natCast, get_natCast, set, Int.toNat_natCast]
      by_cases hlk : l = k
      · subst hlk
        rw [if_pos rfl, List.getD_eq_getElem?_getD, List.getElem?_set_self hk, Option.getD_some]
      · rw [if_neg (by omega), List.getD_eq_getElem?_getD, List.getD_eq_getElem?_getD,
          List.getElem?_set_ne (Ne.symm hlk)]
    · rw [get_of_neg hj, get_of_neg hj, if_neg (by omega)]
  · exact absurd (get_of_neg hi) h

end Laws

end HandleTable
