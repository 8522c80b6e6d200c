import Mathlib.Data.List.Count
import Mathlib.Data.List.Induction
import Mathlib.Logic.Function.Basic
import Mathlib.Tactic.Common

/-!
# Threads over one memory

Every thread has a state of its own, and all of them work on one memory. A schedule says which
thread takes the next step. If no thread changes what another one sees, then a thread gets in
any schedule exactly where it gets alone with the same number of steps.
-/

namespace Interleave

variable {ι π μ : Type*}

/-- One step of a thread: its own state and the memory behind it, unless it cannot go on. -/
abbrev Step (π μ : Type*) := π → μ → Option (π × μ)

/-- A thread that runs alone. -/
def solo (step : Step π μ) : Nat → π → μ → Option (π × μ)
  | 0, p, m => some (p, m)
  | n + 1, p, m => (step p m).bind fun s => solo step n s.1 s.2

/-- A schedule; `ps` are the states of the threads. -/
def run [DecidableEq ι] (step : ι → Step π μ) : List ι → (ι → π) → μ → Option ((ι → π) × μ)
  | [], ps, m => some (ps, m)
  | i :: w, ps, m => (step i (ps i) m).bind fun s => run step w (Function.update ps i s.1) s.2

/-- `agree i` relates memories that thread `i` cannot tell apart. A thread does the same in such
memories, and the steps of the others stay below its notice. -/
structure Separated (step : ι → Step π μ) (agree : ι → μ → μ → Prop) : Prop where
  refl : ∀ i m, agree i m m
  symm : ∀ {i m m'}, agree i m m' → agree i m' m
  trans : ∀ {i m m' m''}, agree i m m' → agree i m' m'' → agree i m m''
  insensitive : ∀ {i p m q m' n}, step i p m = some (q, m') → agree i m n →
    ∃ n', step i p n = some (q, n') ∧ agree i m' n'
  others : ∀ {i j p m q m'}, i ≠ j → step j p m = some (q, m') → agree i m m'

section Rules

variable {step : ι → Step π μ} {agree : ι → μ → μ → Prop} (h : Separated step agree)
include h

/-- A thread alone does the same in memories it cannot tell apart. -/
theorem Separated.solo_insensitive {i : ι} {k : Nat} : ∀ {p q : π} {m m' n : μ},
    solo (step i) k p m = some (q, m') → agree i m n →
      ∃ n', solo (step i) k p n = some (q, n') ∧ agree i m' n' := by
  induction k with
  | zero =>
    intro p q m m' n hsolo hmn
    obtain ⟨rfl, rfl⟩ := Prod.mk.inj (Option.some.inj hsolo)
    exact ⟨n, rfl, hmn⟩
  | succ k ih =>
    intro p q m m' n hsolo hmn
    obtain ⟨⟨p₁, m₁⟩, hstep, hrest⟩ := Option.bind_eq_some_iff.mp hsolo
    obtain ⟨n₁, hstep', hagree⟩ := h.insensitive hstep hmn
    obtain ⟨n', hrest', hend⟩ := ih hrest hagree
    exact ⟨n', Option.bind_eq_some_iff.mpr ⟨_, hstep', hrest'⟩, hend⟩

variable [DecidableEq ι]

/-- The states at the end of a schedule are those of the threads alone. -/
theorem Separated.run_solo {w : List ι} : ∀ {ps qs : ι → π} {m m' : μ},
    run step w ps m = some (qs, m') → ∀ i, ∃ n,
      solo (step i) (w.count i) (ps i) m = some (qs i, n) ∧ agree i n m' := by
  induction w with
  | nil =>
    intro ps qs m m' hrun i
    obtain ⟨rfl, rfl⟩ := Prod.mk.inj (Option.some.inj hrun)
    exact ⟨m, rfl, h.refl i m⟩
  | cons j w ih =>
    intro ps qs m m' hrun i
    obtain ⟨⟨p, m₁⟩, hstep, hrest⟩ := Option.bind_eq_some_iff.mp hrun
    obtain ⟨n, hsolo, hagree⟩ := ih hrest i
    by_cases hij : i = j
    · subst hij
      rw [Function.update_self] at hsolo
      rw [List.count_cons_self]
      exact ⟨n, Option.bind_eq_some_iff.mpr ⟨_, hstep, hsolo⟩, hagree⟩
    · rw [Function.update_of_ne hij] at hsolo
      rw [List.count_cons_of_ne (Ne.symm hij)]
      -- The step of `j` is below the notice of `i`, which could as well have started before it.
      obtain ⟨n', hsolo', hn⟩ := h.solo_insensitive hsolo (h.symm (h.others hij hstep))
      exact ⟨n', hsolo', h.trans (h.symm hn) hagree⟩

/-- A schedule can be followed if every thread alone could take its steps. -/
theorem Separated.run_of_solo {w : List ι} : ∀ {ps : ι → π} {m : μ},
    (∀ i, ∃ q n, solo (step i) (w.count i) (ps i) m = some (q, n)) →
      ∃ qs m', run step w ps m = some (qs, m') := by
  induction w with
  | nil => exact fun _ => ⟨_, _, rfl⟩
  | cons j w ih =>
    intro ps m hsolo
    obtain ⟨q, n, hj⟩ := hsolo j
    rw [List.count_cons_self] at hj
    obtain ⟨⟨p, m₁⟩, hstep, hrest⟩ := Option.bind_eq_some_iff.mp hj
    have hnext (i : ι) : ∃ q n, solo (step i) (w.count i) (Function.update ps j p i) m₁ = some (q, n) := by
      by_cases hij : i = j
      · subst hij
        rw [Function.update_self]
        exact ⟨q, n, hrest⟩
      · obtain ⟨q', n', hi⟩ := hsolo i
        rw [List.count_cons_of_ne (Ne.symm hij)] at hi
        rw [Function.update_of_ne hij]
        obtain ⟨n'', hi', -⟩ := h.solo_insensitive hi (h.others hij hstep)
        exact ⟨q', n'', hi'⟩
    obtain ⟨qs, m', hrun⟩ := ih hnext
    exact ⟨qs, m', Option.bind_eq_some_iff.mpr ⟨_, hstep, hrun⟩⟩

end Rules

/-! ## Threads that come to an end -/

/-- Alone in memory `m` a thread ends in state `q` and memory `m'` after `k` steps: from there it
has no step, whatever the memory holds. -/
structure Ends (step : Step π μ) (p : π) (m : μ) (k : Nat) (q : π) (m' : μ) : Prop where
  runs : solo step k p m = some (q, m')
  halted : ∀ n, step q n = none

theorem solo_add {step : Step π μ} (k l : Nat) : ∀ (p : π) (m : μ),
    solo step (k + l) p m = (solo step k p m).bind fun s => solo step l s.1 s.2 := by
  induction k with
  | zero => intro p m; rw [Nat.zero_add]; rfl
  | succ k ih =>
    intro p m
    rw [Nat.succ_add, solo, solo, Option.bind_assoc]
    exact congrArg _ (funext fun s => ih s.1 s.2)

theorem Ends.solo_le {step : Step π μ} {p q : π} {m m' : μ} {k l : Nat} (h : Ends step p m k q m') :
    (∃ s, solo step l p m = some s) ↔ l ≤ k := by
  constructor
  · rintro ⟨s, hs⟩
    by_contra hlt
    obtain ⟨d, rfl⟩ := Nat.exists_eq_add_of_lt (Nat.lt_of_not_le hlt)
    rw [Nat.add_assoc, solo_add, h.runs, Option.bind_some, solo, h.halted] at hs
    cases hs
  · intro hle
    obtain ⟨d, rfl⟩ := Nat.exists_eq_add_of_le hle
    have hruns := h.runs
    rw [solo_add] at hruns
    obtain ⟨s, hs, -⟩ := Option.bind_eq_some_iff.mp hruns
    exact ⟨s, hs⟩

/-- **The rule for separated threads that end alone.** A schedule can be followed exactly if it
gives no thread more steps than it takes alone; so nobody ever waits for anybody. A thread that
has had all of its steps is where it ends alone, and sees the memory it would see there. -/
theorem Separated.run_iff [DecidableEq ι] {step : ι → Step π μ} {agree : ι → μ → μ → Prop}
    (h : Separated step agree) {ps qs : ι → π} {m : μ} {ms : ι → μ} {k : ι → Nat}
    (hends : ∀ i, Ends (step i) (ps i) m (k i) (qs i) (ms i)) (w : List ι) :
    ((∃ s, run step w ps m = some s) ↔ ∀ i, w.count i ≤ k i) ∧
      ∀ ps' m', run step w ps m = some (ps', m') → ∀ i, w.count i = k i →
        ps' i = qs i ∧ agree i (ms i) m' := by
  refine ⟨⟨?_, fun hle => ?_⟩, fun ps' m' hrun i hi => ?_⟩
  · rintro ⟨⟨ps', m'⟩, hrun⟩ i
    obtain ⟨n, hsolo, -⟩ := h.run_solo hrun i
    exact (hends i).solo_le.mp ⟨_, hsolo⟩
  · obtain ⟨qs', m', hrun⟩ := h.run_of_solo fun i =>
      let ⟨s, hs⟩ := (hends i).solo_le.mpr (hle i)
      ⟨s.1, s.2, hs⟩
    exact ⟨_, hrun⟩
  · obtain ⟨n, hsolo, hagree⟩ := h.run_solo hrun i
    rw [hi, (hends i).runs] at hsolo
    obtain ⟨hq, rfl⟩ := Prod.mk.inj (Option.some.inj hsolo)
    exact ⟨hq.symm, hagree⟩

/-! ## Threads that may do more -/

theorem run_concat [DecidableEq ι] {step : ι → Step π μ} (w : List ι) (i : ι) : ∀ (ps : ι → π) (m : μ),
    run step (w ++ [i]) ps m = (run step w ps m).bind fun s =>
      (step i (s.1 i) s.2).map fun t => (Function.update s.1 i t.1, t.2) := by
  induction w with
  | nil => exact fun ps m => Option.map_eq_bind.symm
  | cons j w ih =>
    intro ps m
    rw [List.cons_append, run, run, Option.bind_assoc]
    exact congrArg _ (funext fun s => ih _ _)

/-- Threads that could do more than the separated ones, but have ended where these end, follow the
same schedules. -/
theorem Separated.run_eq [DecidableEq ι] {step step' : ι → Step π μ} {agree : ι → μ → μ → Prop}
    (h : Separated step agree) {ps qs : ι → π} {m : μ} {ms : ι → μ} {k : ι → Nat}
    (hends : ∀ i, Ends (step i) (ps i) m (k i) (qs i) (ms i))
    (hle : ∀ i p m s, step i p m = some s → step' i p m = some s)
    (hhalted : ∀ i n, step' i (qs i) n = none) (w : List ι) : run step' w ps m = run step w ps m := by
  induction w using List.reverseRecOn with
  | nil => rfl
  | append_singleton w i ih =>
    rw [run_concat, run_concat, ih]
    cases hrun : run step w ps m with
    | none => rfl
    | some s =>
      obtain ⟨ps', m'⟩ := s
      obtain ⟨hcounts, hfinal⟩ := h.run_iff hends w
      have hcount := hcounts.mp ⟨_, hrun⟩
      rcases Nat.lt_or_eq_of_le (hcount i) with hlt | heq
      · have hnext (j : ι) : (w ++ [i]).count j ≤ k j := by
          rw [List.count_append, List.count_singleton]
          by_cases hij : i = j
          · subst hij
            rw [beq_self_eq_true, if_pos rfl]
            exact hlt
          · rw [beq_false_of_ne hij, if_neg Bool.false_ne_true]
            exact hcount j
        obtain ⟨t, ht⟩ := (h.run_iff hends (w ++ [i])).1.mpr hnext
        rw [run_concat, hrun, Option.bind_some] at ht
        obtain ⟨u, hu, -⟩ := Option.map_eq_some_iff.mp ht
        rw [Option.bind_some, Option.bind_some, hu, hle i _ _ _ hu]
      · obtain ⟨hq, -⟩ := hfinal ps' m' hrun i heq
        rw [Option.bind_some, Option.bind_some]
        dsimp only
        rw [hq, hhalted, (hends i).halted]

end Interleave
