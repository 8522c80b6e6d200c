import Mathlib.Data.List.Forall2
import Mathlib.Tactic.Common

/-!
# Backtracking over lists of candidates

A value is chosen from one list of candidates after the other, and no value is chosen
twice. The search finds every such choice, and from sorted candidates in lexicographic
order, so it finds none twice.
-/

namespace Backtrack

variable {α : Type*} [DecidableEq α]

/-- The choices from `lists` without the values in `used`; the first choice varies slowest. -/
def choices : List (List α) → List α → List (List α)
  | [], _ => [[]]
  | candidates :: lists, used =>
    (candidates.filter fun x => x ∉ used).flatMap fun x => (choices lists (x :: used)).map (x :: ·)

theorem mem_choices_cons {candidates : List α} {lists : List (List α)} {used : List α} {x : α}
    {xs : List α} : x :: xs ∈ choices (candidates :: lists) used ↔
      x ∈ candidates ∧ x ∉ used ∧ xs ∈ choices lists (x :: used) := by
  simp only [choices, List.mem_flatMap, List.mem_filter, decide_eq_true_eq, List.mem_map, List.cons.injEq]
  constructor
  · intro hmem
    obtain ⟨y, ⟨hy, hused⟩, ys, hys, rfl, rfl⟩ := hmem
    exact ⟨hy, hused, hys⟩
  · intro hmem
    obtain ⟨hx, hused, hxs⟩ := hmem
    exact ⟨x, ⟨hx, hused⟩, xs, hxs, rfl, rfl⟩

/-- The choices are the lists without a repetition, one candidate from every list. -/
theorem mem_choices {lists : List (List α)} {used xs : List α} :
    xs ∈ choices lists used ↔
      List.Forall₂ (· ∈ ·) xs lists ∧ xs.Nodup ∧ ∀ x ∈ xs, x ∉ used := by
  induction lists generalizing used xs with
  | nil =>
    rw [choices, List.mem_singleton, List.forall₂_nil_right_iff]
    constructor
    · rintro rfl
      exact ⟨rfl, List.nodup_nil, List.forall_mem_nil _⟩
    · exact fun h => h.1
  | cons candidates lists ih =>
    cases xs with
    | nil =>
      refine iff_of_false (fun h => ?_) fun h => nomatch h.1
      simp only [choices, List.mem_flatMap, List.mem_map, List.cons_ne_nil, and_false, exists_false] at h
    | cons x xs =>
      rw [mem_choices_cons, ih, List.forall₂_cons, List.nodup_cons, List.forall_mem_cons]
      constructor
      · intro hmem
        obtain ⟨hx, hused, hxs, hnodup, hfresh⟩ := hmem
        refine ⟨⟨hx, hxs⟩, ⟨fun hmem => hfresh x hmem List.mem_cons_self, hnodup⟩, hused, ?_⟩
        exact fun y hy hmem => hfresh y hy (List.mem_cons_of_mem x hmem)
      · intro hmem
        obtain ⟨⟨hx, hxs⟩, ⟨hne, hnodup⟩, hused, hfresh⟩ := hmem
        refine ⟨hx, hused, hxs, hnodup, fun y hy hmem => ?_⟩
        rcases List.mem_cons.mp hmem with rfl | hmem
        · exact hne hy
        · exact hfresh y hy hmem

/-- Sorted candidates give the choices in lexicographic order. -/
theorem choices_sorted [LT α] {lists : List (List α)} (h : ∀ l ∈ lists, l.Pairwise (· < ·))
    (used : List α) : (choices lists used).Pairwise (· < ·) := by
  induction lists generalizing used with
  | nil => exact List.pairwise_singleton _ _
  | cons candidates lists ih =>
    have ih := ih fun l hl => h l (List.mem_cons_of_mem _ hl)
    rw [choices, List.pairwise_flatMap]
    constructor
    · intro x _
      rw [List.pairwise_map]
      exact (ih (x :: used)).imp fun hlt => List.cons_lt_cons_iff.mpr (.inr ⟨rfl, hlt⟩)
    · refine ((h candidates List.mem_cons_self).filter _).imp fun {x y} hxy => ?_
      intro xs hxs ys hys
      obtain ⟨xs, -, rfl⟩ := List.mem_map.mp hxs
      obtain ⟨ys, -, rfl⟩ := List.mem_map.mp hys
      exact List.cons_lt_cons_iff.mpr (.inl hxy)

end Backtrack
