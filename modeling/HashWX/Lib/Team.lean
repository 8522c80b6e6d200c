import Mathlib.Algebra.BigOperators.Fin
import Mathlib.Algebra.Order.BigOperators.Group.Finset
import Mathlib.Data.List.FinRange
import Mathlib.Logic.Relation
import Mathlib.Tactic.Common

/-!
# A team with a common log

The members of a team have private states and take steps in any order; a step may append
events to a log that all of them share. What holds of each member and its own events holds
in every run, and if the steps of the members decrease a measure, every run is finite and
can be completed.
-/

namespace Team

variable {κ σ ε : Type*}

/-- The states of the members, and the log; an event names its member. -/
structure State (κ σ ε : Type*) where
  member : κ → σ
  log : List (κ × ε)

section Runs

variable [DecidableEq κ]

/-- One member acts. -/
inductive Step (act : κ → σ → List ε → σ → Prop) : State κ σ ε → State κ σ ε → Prop
  | mk {S : State κ σ ε} {t : κ} {events : List ε} {s : σ} : act t (S.member t) events s →
      Step act S ⟨Function.update S.member t s, S.log ++ events.map (t, ·)⟩

abbrev Runs (act : κ → σ → List ε → σ → Prop) : State κ σ ε → State κ σ ε → Prop :=
  Relation.ReflTransGen (Step act)

/-- The events of one member. -/
def State.own (S : State κ σ ε) (t : κ) : List ε := (S.log.filter fun e => e.1 = t).map Prod.snd

theorem own_append (S : State κ σ ε) (member : κ → σ) (t u : κ) (events : List ε) :
    (⟨member, S.log ++ events.map (t, ·)⟩ : State κ σ ε).own u =
      S.own u ++ if t = u then events else [] := by
  unfold State.own
  rw [List.filter_append, List.map_append, List.filter_map]
  by_cases htu : t = u
  · have hall : ((fun e : κ × ε => decide (e.1 = u)) ∘ (t, ·)) = fun _ : ε => true := by
      funext e
      simp [htu]
    rw [if_pos htu, hall, List.filter_true, List.map_map]
    exact congrArg _ (List.map_id events)
  · have hnone : ((fun e : κ × ε => decide (e.1 = u)) ∘ (t, ·)) = fun _ : ε => false := by
      funext e
      simp [htu]
    rw [if_neg htu, hnone, List.filter_false]
    rfl

section Rules

variable {act : κ → σ → List ε → σ → Prop} {P : κ → σ → List ε → Prop}
  (hstep : ∀ {t s log events s'}, P t s log → act t s events s' → P t s' (log ++ events))
include hstep

theorem Step.invariant {S S' : State κ σ ε} (h : Step act S S')
    (hinit : ∀ t, P t (S.member t) (S.own t)) : ∀ t, P t (S'.member t) (S'.own t) := by
  intro u
  obtain ⟨hact⟩ := h
  rename_i t events s
  rw [own_append]
  dsimp only
  by_cases htu : t = u
  · subst htu
    rw [if_pos rfl, Function.update_self]
    exact hstep (hinit t) hact
  · rw [if_neg htu, List.append_nil, Function.update_of_ne fun h => htu h.symm]
    exact hinit u

/-- **The invariant rule.** What a member's steps keep of its state and its events holds of every
member in every run. -/
theorem Runs.invariant {S S' : State κ σ ε} (h : Runs act S S')
    (hinit : ∀ t, P t (S.member t) (S.own t)) : ∀ t, P t (S'.member t) (S'.own t) := by
  induction h with
  | refl => exact hinit
  | tail _ hlast ih => exact hlast.invariant hstep ih

/-- No run goes on forever. -/
theorem acc_of_measure [Fintype κ] {μ : κ → σ → Nat}
    (hμ : ∀ {t s log events s'}, P t s log → act t s events s' → μ t s' < μ t s) :
    ∀ (k : Nat) (S : State κ σ ε), (∀ t, P t (S.member t) (S.own t)) → ∑ t, μ t (S.member t) < k →
      Acc (fun b a => Step act a b) S := by
  intro k
  induction k with
  | zero => exact fun S _ hlt => absurd hlt (Nat.not_lt_zero _)
  | succ k ih =>
    intro S hS hlt
    refine ⟨S, fun S' hS' => ih S' (hS'.invariant hstep hS) ?_⟩
    refine Nat.lt_of_lt_of_le ?_ (Nat.le_of_lt_succ hlt)
    obtain ⟨hact⟩ := hS'
    rename_i t events s
    have hdecrease := hμ (hS t) hact
    refine Finset.sum_lt_sum (fun u _ => ?_) ⟨t, Finset.mem_univ t, ?_⟩
    · by_cases htu : u = t
      · subst htu
        dsimp only
        rw [Function.update_self]
        exact hdecrease.le
      · exact le_of_eq (congrArg _ (Function.update_of_ne htu _ _))
    · dsimp only
      rw [Function.update_self]
      exact hdecrease

/-- **The completion rule.** If every member that is not done can act, every run is finite and can be
completed. -/
theorem completes [Fintype κ] (μ : κ → σ → Nat) (done : κ → σ → Prop)
    (hμ : ∀ {t s log events s'}, P t s log → act t s events s' → μ t s' < μ t s)
    (hact : ∀ {t s log}, P t s log → ¬done t s → ∃ events s', act t s events s') {S : State κ σ ε}
    (hS : ∀ t, P t (S.member t) (S.own t)) :
    Acc (fun b a => Step act a b) S ∧ ∃ S', Runs act S S' ∧ ∀ t, done t (S'.member t) := by
  have hacc := acc_of_measure (P := P) hstep hμ _ S hS (Nat.lt_succ_self _)
  refine ⟨hacc, ?_⟩
  induction hacc with
  | intro S _ ih =>
    by_cases hdone : ∀ t, done t (S.member t)
    · exact ⟨S, .refl, hdone⟩
    · push Not at hdone
      obtain ⟨t, ht⟩ := hdone
      obtain ⟨events, s', hs'⟩ := hact (hS t) ht
      have hnext : Step act S _ := .mk hs'
      obtain ⟨S', hruns, hall⟩ := ih _ hnext (hnext.invariant hstep hS)
      exact ⟨S', .head hnext hruns, hall⟩

end Rules

end Runs

/-! ## The log as a whole -/

theorem flatMap_cons_perm {ι α : Type*} [DecidableEq ι] {f : ι → List α} {i : ι} {x : α} {is : List ι}
    (hnodup : is.Nodup) (hi : i ∈ is) :
    (is.flatMap fun j => if i = j then x :: f j else f j).Perm (x :: is.flatMap f) := by
  induction is with
  | nil => cases hi
  | cons j is ih =>
    obtain ⟨hj, hnodup⟩ := List.nodup_cons.mp hnodup
    rw [List.flatMap_cons, List.flatMap_cons]
    by_cases hij : i = j
    · have hrest : (is.flatMap fun k => if i = k then x :: f k else f k) = is.flatMap f := by
        refine List.flatMap_congr fun k hk => if_neg ?_
        rintro rfl
        exact hj (hij ▸ hk)
      rw [if_pos hij, hrest]
      exact .refl _
    · have hmem : i ∈ is := (List.mem_cons.mp hi).resolve_left hij
      rw [if_neg hij]
      exact ((ih hnodup hmem).append_left (f j)).trans List.perm_middle

/-- The log holds the events of the members, in some order. -/
theorem State.log_perm {n : Nat} (S : State (Fin n) σ ε) :
    (S.log.map Prod.snd).Perm ((List.finRange n).flatMap S.own) := by
  obtain ⟨member, log⟩ := S
  unfold State.own
  dsimp only
  induction log with
  | nil => simp
  | cons e log ih =>
    have hcons : ((List.finRange n).flatMap fun t => ((e :: log).filter fun e => e.1 = t).map Prod.snd) =
        (List.finRange n).flatMap fun t => if e.1 = t then e.2 :: (log.filter fun e => e.1 = t).map Prod.snd
          else (log.filter fun e => e.1 = t).map Prod.snd := by
      refine List.flatMap_congr fun t _ => ?_
      by_cases het : e.1 = t
      · simp only [List.filter_cons, decide_eq_true het, if_true, if_pos het, List.map_cons]
      · simp only [List.filter_cons, decide_eq_false het, Bool.false_eq_true, if_false, if_neg het]
    rw [hcons, List.map_cons]
    exact (ih.cons e.2).trans (flatMap_cons_perm (List.nodup_finRange n) (List.mem_finRange e.1)).symm

/-! ## Dealing out a range in turns -/

/-- The first `k` numbers that member `t` of `n` gets. -/
def dealt (n t k : Nat) : List Nat := (List.range k).map fun i => t + i * n

theorem mem_dealt {n t k x : Nat} : x ∈ dealt n t k ↔ ∃ i < k, x = t + i * n := by
  simp only [dealt, List.mem_map, List.mem_range, eq_comm]

theorem dealt_succ (n t k : Nat) : dealt n t (k + 1) = dealt n t k ++ [t + k * n] := by
  rw [dealt, List.range_succ, List.map_append]
  rfl

/-- If every member stops at its first number outside the range, the members have the range. -/
theorem dealt_perm {n m : Nat} (hn : 0 < n) {k : Fin n → Nat}
    (hlt : ∀ t, ∀ i < k t, t.val + i * n < m) (hle : ∀ t, m ≤ t.val + k t * n) :
    ((List.finRange n).flatMap fun t : Fin n => dealt n t (k t)).Perm (List.range m) := by
  refine (List.perm_ext_iff_of_nodup ?_ List.nodup_range).mpr fun x => ?_
  · rw [List.nodup_flatMap]
    constructor
    · intro t _
      refine List.nodup_range.map fun i j hij => ?_
      exact Nat.eq_of_mul_eq_mul_right hn (Nat.add_left_cancel hij)
    · refine (List.nodup_finRange n).imp fun {t u} htu => ?_
      rintro x ht hu
      obtain ⟨i, -, rfl⟩ := mem_dealt.mp ht
      obtain ⟨j, -, hj⟩ := mem_dealt.mp hu
      have hmod := congrArg (· % n) hj
      simp only [Nat.add_mul_mod_self_right, Nat.mod_eq_of_lt t.isLt, Nat.mod_eq_of_lt u.isLt] at hmod
      exact htu (Fin.ext hmod)
  · rw [List.mem_flatMap, List.mem_range]
    constructor
    · intro hmem
      obtain ⟨t, -, hx⟩ := hmem
      obtain ⟨i, hi, rfl⟩ := mem_dealt.mp hx
      exact hlt t i hi
    · intro hx
      refine ⟨⟨x % n, Nat.mod_lt x hn⟩, List.mem_finRange _, mem_dealt.mpr ⟨x / n, ?_, ?_⟩⟩
      · by_contra hge
        have hmul := Nat.mul_le_mul_right n (Nat.le_of_not_lt hge)
        have hdiv := Nat.mod_add_div' x n
        have hm := hle ⟨x % n, Nat.mod_lt x hn⟩
        dsimp only at hm
        omega
      · exact (Nat.mod_add_div' x n).symm

/-- What the members accumulate on their own, and then together. -/
theorem foldl_flatMap {ι α : Type*} {op : α → α → α} {e : α} [Std.Associative op]
    [Std.LawfulIdentity op e] (f : ι → List α) (is : List ι) :
    (is.flatMap f).foldl op e = (is.map fun i => (f i).foldl op e).foldl op e := by
  have hleft (x : α) : op e x = x := Std.LawfulLeftIdentity.left_id x
  have hright (x : α) : op x e = x := Std.LawfulRightIdentity.right_id x
  have hstart (x : α) (xs : List α) : xs.foldl op x = op x (xs.foldl op e) := by
    calc xs.foldl op x = xs.foldl op (op x e) := by rw [hright]
      _ = op x (xs.foldl op e) := List.foldl_assoc
  induction is with
  | nil => rfl
  | cons i is ih =>
    rw [List.flatMap_cons, List.foldl_append, hstart, ih, List.map_cons, List.foldl_cons, hleft,
      hstart ((f i).foldl op e)]

end Team
