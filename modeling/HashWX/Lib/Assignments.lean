import Mathlib.Logic.Function.Basic
import Mathlib.Tactic.Common

/-!
# Sequences of assignments

An assignment sets one component of a state to a function of two components. Two
assignments neither of which reads or writes what the other one writes commute, so a
schedule may exchange adjacent blocks of them.
-/

namespace Assignments

/-- `x[dst] := op x[left] x[right]`. -/
structure Assign (ι α : Type) where
  dst : ι
  left : ι
  right : ι
  op : α → α → α

variable {ι α : Type} [DecidableEq ι]

def Assign.run (a : Assign ι α) (x : ι → α) : ι → α :=
  Function.update x a.dst (a.op (x a.left) (x a.right))

def runAll (as : List (Assign ι α)) (x : ι → α) : ι → α := as.foldl (fun x a => a.run x) x

@[simp] theorem runAll_nil (x : ι → α) : runAll [] x = x := rfl

@[simp] theorem runAll_cons (a : Assign ι α) (as : List (Assign ι α)) (x : ι → α) :
    runAll (a :: as) x = runAll as (a.run x) := rfl

theorem runAll_append (as bs : List (Assign ι α)) (x : ι → α) :
    runAll (as ++ bs) x = runAll bs (runAll as x) := List.foldl_append

theorem Assign.run_self (a : Assign ι α) (x : ι → α) : a.run x a.dst = a.op (x a.left) (x a.right) :=
  Function.update_self a.dst _ x

theorem Assign.run_of_ne {a : Assign ι α} {r : ι} (h : r ≠ a.dst) (x : ι → α) : a.run x r = x r :=
  Function.update_of_ne h _ x

/-- An update of a component that the assignment does not use. -/
theorem Assign.run_update {a : Assign ι α} {r : ι} (hdst : a.dst ≠ r) (hleft : a.left ≠ r)
    (hright : a.right ≠ r) (x : ι → α) (v : α) :
    a.run (Function.update x r v) = Function.update (a.run x) r v := by
  unfold Assign.run
  rw [Function.update_of_ne hleft, Function.update_of_ne hright, Function.update_comm hdst]

/-- A component that no assignment writes keeps its value. -/
theorem runAll_of_ne {as : List (Assign ι α)} {r : ι} (h : ∀ a ∈ as, r ≠ a.dst) :
    ∀ x : ι → α, runAll as x r = x r := by
  induction as with
  | nil => exact fun _ => rfl
  | cons a as ih =>
    intro x
    rw [runAll_cons, ih fun b hb => h b (List.mem_cons_of_mem a hb)]
    exact Assign.run_of_ne (h a List.mem_cons_self) x

/-- Neither assignment reads or writes what the other one writes. -/
@[grind =]
def Independent (a b : Assign ι α) : Prop :=
  a.dst ≠ b.dst ∧ a.left ≠ b.dst ∧ a.right ≠ b.dst ∧ b.left ≠ a.dst ∧ b.right ≠ a.dst

theorem Independent.comm {a b : Assign ι α} (h : Independent a b) (x : ι → α) :
    b.run (a.run x) = a.run (b.run x) := by
  obtain ⟨hdst, hal, har, hbl, hbr⟩ := h
  unfold Assign.run
  rw [Function.update_of_ne hbl, Function.update_of_ne hbr, Function.update_of_ne hal,
    Function.update_of_ne har, Function.update_comm hdst.symm]

/-- The assignments in order, each with the two values that it reads. -/
def trace : List (Assign ι α) → (ι → α) → List (Assign ι α × α × α)
  | [], _ => []
  | a :: as, x => (a, x a.left, x a.right) :: trace as (a.run x)

theorem trace_append (as bs : List (Assign ι α)) (x : ι → α) :
    trace (as ++ bs) x = trace as x ++ trace bs (runAll as x) := by
  induction as generalizing x with
  | nil => rfl
  | cons a as ih => exact congrArg _ (ih (a.run x))

/-- Two sequences leave the same state, and every assignment reads the same values in both. -/
def Equivalent (as bs : List (Assign ι α)) : Prop :=
  ∀ x : ι → α, runAll as x = runAll bs x ∧ (trace as x).Perm (trace bs x)

theorem Equivalent.refl (as : List (Assign ι α)) : Equivalent as as := fun _ => ⟨rfl, .refl _⟩

theorem Equivalent.trans {as bs cs : List (Assign ι α)} (h : Equivalent as bs)
    (h' : Equivalent bs cs) : Equivalent as cs := fun x =>
  ⟨(h x).1.trans (h' x).1, (h x).2.trans (h' x).2⟩

theorem Equivalent.append {as bs as' bs' : List (Assign ι α)} (h : Equivalent as bs)
    (h' : Equivalent as' bs') : Equivalent (as ++ as') (bs ++ bs') := by
  intro x
  obtain ⟨hrun, htrace⟩ := h x
  constructor
  · rw [runAll_append, runAll_append, hrun, (h' _).1]
  · rw [trace_append, trace_append, hrun]
    exact htrace.append (h' _).2

/-- Two independent assignments change places. -/
theorem Independent.swap {a b : Assign ι α} (h : Independent a b) : Equivalent [a, b] [b, a] := by
  intro x
  have hcomm := h.comm x
  obtain ⟨-, hal, har, hbl, hbr⟩ := h
  refine ⟨hcomm, ?_⟩
  unfold trace trace trace
  rw [Assign.run_of_ne hal, Assign.run_of_ne har, Assign.run_of_ne hbl, Assign.run_of_ne hbr]
  exact .swap _ _ _

/-- An assignment moves in front of a block that is independent of it. -/
theorem equivalent_move {as : List (Assign ι α)} {b : Assign ι α} (h : ∀ a ∈ as, Independent a b) :
    Equivalent (as ++ [b]) (b :: as) := by
  induction as with
  | nil => exact .refl [b]
  | cons a as ih =>
    have hrest := (Equivalent.refl [a]).append (ih fun c hc => h c (List.mem_cons_of_mem a hc))
    exact hrest.trans ((h a List.mem_cons_self).swap.append (.refl as))

theorem equivalent_blocks {as bs : List (Assign ι α)} (h : ∀ b ∈ bs, ∀ a ∈ as, Independent a b) :
    Equivalent (as ++ bs) (bs ++ as) := by
  induction bs with
  | nil =>
    rw [List.append_nil]
    exact .refl as
  | cons b bs ih =>
    have hmove := (equivalent_move (h b List.mem_cons_self)).append (.refl bs)
    rw [List.append_assoc] at hmove
    exact hmove.trans ((Equivalent.refl [b]).append (ih fun c hc => h c (List.mem_cons_of_mem b hc)))

/-- Adjacent blocks change places. -/
theorem equivalent_exchange (xs as bs ys : List (Assign ι α))
    (h : ∀ b ∈ bs, ∀ a ∈ as, Independent a b) :
    Equivalent (xs ++ (as ++ (bs ++ ys))) (xs ++ (bs ++ (as ++ ys))) := by
  have hblocks := (equivalent_blocks h).append (.refl ys)
  rw [List.append_assoc, List.append_assoc] at hblocks
  exact (Equivalent.refl xs).append hblocks

end Assignments
