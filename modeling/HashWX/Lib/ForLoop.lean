import Mathlib.Data.List.OfFn
import Mathlib.Tactic.Common

/-!
# Counting loops

`forLoop n f a` is `for (i = 0; i < n; ++i) a = f(a, i)`, and `forLoopM` and `forLoopE`
the same loop with a body that may fail. An invariant indexed by the counter, established
at zero and preserved by the body, holds at `n` after the loop.
-/

namespace ForLoop

variable {α β : Type*}

def forLoop : (n : Nat) → (α → Fin n → α) → α → α
  | 0, _, a => a
  | n + 1, f, a => f (forLoop n (fun a i => f a i.castSucc) a) (Fin.last n)

def forLoopM : (n : Nat) → (α → Fin n → Option α) → α → Option α
  | 0, _, a => some a
  | n + 1, f, a => (forLoopM n (fun a i => f a i.castSucc) a).bind fun a => f a (Fin.last n)

/-- The loop with a body that says why it fails. -/
def forLoopE {ε : Type*} : (n : Nat) → (α → Fin n → Except ε α) → α → Except ε α
  | 0, _, a => .ok a
  | n + 1, f, a => do f (← forLoopE n (fun a i => f a i.castSucc) a) (Fin.last n)

/-- The first iteration of a checked loop. -/
theorem forLoopM_first {n : Nat} {f : α → Fin (n + 1) → Option α} {a b c : α} (h : f a 0 = some b)
    (hrest : forLoopM n (fun a i => f a i.succ) b = some c) : forLoopM (n + 1) f a = some c := by
  induction n generalizing c with
  | zero =>
    obtain rfl := Option.some.inj hrest
    exact h
  | succ n ih =>
    obtain ⟨d, hd, hc⟩ := Option.bind_eq_some_iff.mp hrest
    exact Option.bind_eq_some_iff.mpr ⟨d, ih h hd, hc⟩

/-- The invariant rule. -/
theorem forLoop_invariant {n : Nat} (P : Nat → α → Prop) {f : α → Fin n → α} {a : α}
    (hinit : P 0 a) (hstep : ∀ (i : Fin n) a, P i a → P (i + 1) (f a i)) :
    P n (forLoop n f a) := by
  induction n with
  | zero => exact hinit
  | succ n ih =>
    exact hstep (Fin.last n) _ (ih fun i a h => hstep i.castSucc a h)

/-- The rule for two loops that run in step. -/
theorem forLoop_relation {n : Nat} (P : Nat → α → β → Prop) {f : α → Fin n → α}
    {g : β → Fin n → β} {a : α} {b : β} (hinit : P 0 a b)
    (hstep : ∀ (i : Fin n) a b, P i a b → P (i + 1) (f a i) (g b i)) :
    P n (forLoop n f a) (forLoop n g b) := by
  induction n with
  | zero => exact hinit
  | succ n ih =>
    exact hstep (Fin.last n) _ _ (ih fun i a b h => hstep i.castSucc a b h)

/-- The invariant rule for a body that may fail: under the invariant it does not. -/
theorem forLoopM_invariant {n : Nat} (P : Nat → α → Prop) {f : α → Fin n → Option α} {a : α}
    (hinit : P 0 a) (hstep : ∀ (i : Fin n) a, P i a → ∃ a', f a i = some a' ∧ P (i + 1) a') :
    ∃ a', forLoopM n f a = some a' ∧ P n a' := by
  induction n with
  | zero => exact ⟨a, rfl, hinit⟩
  | succ n ih =>
    obtain ⟨b, hb, hPb⟩ := ih fun i a h => hstep i.castSucc a h
    obtain ⟨c, hc, hPc⟩ := hstep (Fin.last n) b hPb
    refine ⟨c, ?_, hPc⟩
    simp only [forLoopM, hb, Option.bind_some, hc]

/-- The rule for a checked loop in step with a plain one. -/
theorem forLoopM_relation {n : Nat} (P : Nat → α → β → Prop) {f : α → Fin n → Option α}
    {g : β → Fin n → β} {a : α} {b : β} (hinit : P 0 a b)
    (hstep : ∀ (i : Fin n) a b, P i a b → ∃ a', f a i = some a' ∧ P (i + 1) a' (g b i)) :
    ∃ a', forLoopM n f a = some a' ∧ P n a' (forLoop n g b) := by
  induction n with
  | zero => exact ⟨a, rfl, hinit⟩
  | succ n ih =>
    obtain ⟨a₁, ha₁, hP₁⟩ := ih fun i a b h => hstep i.castSucc a b h
    obtain ⟨a₂, ha₂, hP₂⟩ := hstep (Fin.last n) _ _ hP₁
    refine ⟨a₂, ?_, hP₂⟩
    simp only [forLoopM, ha₁, Option.bind_some, ha₂]

/-- A checked loop whose body follows `g` under an invariant computes the plain loop of `g`. -/
theorem forLoopM_eq_forLoop {n : Nat} {f : α → Fin n → Option α} {g : α → Fin n → α} {a : α}
    (h : ∀ (i : Fin n) a, f a i = some (g a i)) : forLoopM n f a = some (forLoop n g a) := by
  induction n with
  | zero => rfl
  | succ n ih =>
    rw [forLoopM, forLoop, ih fun i a => h i.castSucc a, Option.bind_some, h]

theorem forLoop_append {n : Nat} (g : Fin n → List α) (as : List α) :
    forLoop n (fun as i => as ++ g i) as = as ++ (List.ofFn g).flatten := by
  induction n with
  | zero => simp [forLoop]
  | succ n ih =>
    rw [forLoop, ih, List.ofFn_succ', List.concat_eq_append, List.flatten_append,
      List.flatten_singleton, List.append_assoc]

/-- The first `k` iterations of a loop that appends. -/
theorem forLoopM_append {n k : Nat} (hk : k ≤ n) {g : Fin n → List α}
    {f : List α → Fin n → Option (List α)} (h : ∀ as i, f as i = some (as ++ g i)) (as : List α) :
    forLoopM k (fun as i => f as (i.castLE hk)) as = some (as ++ ((List.ofFn g).take k).flatten) := by
  have htake : (List.ofFn g).take k = List.ofFn fun i : Fin k => g (i.castLE hk) := by
    apply List.ext_getElem
    · simp [hk]
    · intro i _ _
      simp
  rw [forLoopM_eq_forLoop fun i as => h as (i.castLE hk),
    forLoop_append fun i => g (i.castLE hk), htake]

section Except

variable {ε : Type*}

theorem forLoopE_append {n : Nat} {g : Fin n → List α} {f : List α → Fin n → Except ε (List α)}
    (h : ∀ as i, f as i = .ok (as ++ g i)) (as : List α) :
    forLoopE n f as = .ok (as ++ (List.ofFn g).flatten) := by
  rw [← forLoop_append]
  induction n with
  | zero => rfl
  | succ n ih =>
    rw [forLoopE, ih fun as i => h as i.castSucc]
    exact h _ (Fin.last n)

/-- A body that always fails stops the loop at once. -/
theorem forLoopE_error {n : Nat} {f : α → Fin (n + 1) → Except ε α} {e : ε}
    (h : ∀ a i, f a i = .error e) (a : α) : forLoopE (n + 1) f a = .error e := by
  induction n with
  | zero => exact h a (Fin.last 0)
  | succ n ih =>
    rw [forLoopE, ih fun a i => h a i.castSucc]
    rfl

end Except

theorem length_flatten_ofFn {n k : Nat} {g : Fin n → List α} (h : ∀ i, (g i).length = k) :
    (List.ofFn g).flatten.length = n * k := by
  have hmap : (List.ofFn g).map List.length = List.replicate n k := by
    rw [List.map_ofFn, ← List.ofFn_const]
    exact congrArg List.ofFn (funext h)
  rw [List.length_flatten, hmap, List.sum_replicate_nat]

end ForLoop
