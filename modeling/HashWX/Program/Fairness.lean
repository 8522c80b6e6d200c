import HashWX.Lib.Residues
import HashWX.Program.Space
import Mathlib.Algebra.BigOperators.Fin

/-!
# How evenly programs are drawn

If the sixteen words of a window are uniform, every layout that follows the rules is drawn
with the same probability up to one part in four million, except that a layout has the more
windows the fewer immediates its opcodes have.
-/

namespace HashWX

open Siphash OutputStream

/-! ## The remainders of one word -/

def opcodeCount (k : Nat) : Nat := if k % 2 = 0 then 9 else 3

/-- The number of remainders that a word of the window may have. -/
def drawCount (g : Nat → Word) (k : Fin 16) : Nat :=
  if k.val < 7 then (k.val + 2) * opcodeCount k
  else if k.val = 7 then 1250
  else immCount (buildOpcode g (Fin.ofNat 8 k))

/-- A word that may take the place of one of the window. -/
def SameWord (g : Nat → Word) (k : Fin 16) (w : Word) : Prop :=
  if k.val < 7 then
    (selectHi w).toNat % (k.val + 2) = (selectHi (g k)).toNat % (k.val + 2) ∧
      (selectLo w).toNat % opcodeCount k = (selectLo (g k)).toNat % opcodeCount k
  else if k.val = 7 then w.toNat % 1250 = (g 7).toNat % 1250
  else w.toNat % immCount (buildOpcode g (Fin.ofNat 8 k)) =
    (g k).toNat % immCount (buildOpcode g (Fin.ofNat 8 k))

section Words

variable (g : Nat → Word) (h : Fin 16 → Word)

/-- The words of a window have the same remainders independently of each other. -/
theorem sameDraws_windowOf_iff : SameDraws g (windowOf h) ↔ ∀ k, SameWord g k (h k) := by
  constructor
  · intro hsame k
    rw [← windowOf_val h k, SameWord]
    by_cases hselect : k.val < 7
    · rw [if_pos hselect, opcodeCount]
      refine ⟨(hsame.shuffle ⟨k, hselect⟩).symm, ?_⟩
      by_cases heven : k.val % 2 = 0
      · rw [if_pos heven]
        exact (hsame.sums k (by simp only [List.mem_cons, List.not_mem_nil]; omega)).symm
      · rw [if_neg heven]
        exact (hsame.products k (by simp only [List.mem_cons, List.not_mem_nil]; omega)).symm
    · rw [if_neg hselect]
      by_cases hrow : k.val = 7
      · rw [if_pos hrow, hrow]
        exact hsame.sources.symm
      · rw [if_neg hrow]
        have himm := hsame.imms (Fin.ofNat 8 k)
        have hval : 8 + (Fin.ofNat 8 k.val).val = k := by
          rw [Fin.val_ofNat]
          omega
        rw [hval] at himm
        exact himm.symm
  · intro hwords
    have hword (k : Nat) (hk : k < 16) : SameWord g ⟨k, hk⟩ (windowOf h k) := by
      rw [windowOf_val h ⟨k, hk⟩]
      exact hwords ⟨k, hk⟩
    constructor
    · intro i
      have hi := hword i (by omega)
      rw [SameWord, if_pos i.isLt] at hi
      exact hi.1.symm
    · intro i hmem
      have heven := (by decide : ∀ i ∈ [0, 2, 4, 6], i < 7 ∧ i % 2 = 0) i hmem
      have hi := hword i (by omega)
      rw [SameWord, if_pos heven.1, opcodeCount, if_pos heven.2] at hi
      exact hi.2.symm
    · intro i hmem
      have hodd := (by decide : ∀ i ∈ [1, 3, 5], i < 7 ∧ ¬i % 2 = 0) i hmem
      have hi := hword i (by omega)
      rw [SameWord, if_pos hodd.1, opcodeCount, if_neg hodd.2] at hi
      exact hi.2.symm
    · have hrow := hword 7 (by decide)
      rw [SameWord, if_neg (by decide), if_pos rfl] at hrow
      exact hrow.symm
    · intro i
      have hi := hword (8 + i) (by omega)
      have hval : Fin.ofNat 8 (8 + i.val) = i := Fin.ext (by rw [Fin.val_ofNat]; omega)
      rw [SameWord, if_neg (show ¬8 + i.val < 7 by omega), if_neg (show ¬8 + i.val = 7 by omega), hval] at hi
      exact hi.symm

end Words

/-! ## Counting windows -/

theorem append_select (w : Word) : selectHi w ++ selectLo w = w := by
  apply BitVec.eq_of_getLsbD_eq
  intro i hi
  rw [BitVec.getLsbD_append, selectHi, selectLo]
  by_cases hlow : i < 32
  · rw [if_pos hlow, BitVec.getLsbD_setWidth, decide_eq_true hlow, Bool.true_and]
  · have hhigh : i - 32 < 32 := by omega
    rw [if_neg hlow, BitVec.getLsbD_setWidth, decide_eq_true hhigh, Bool.true_and, BitVec.getLsbD_ushiftRight,
      Nat.add_sub_cancel' (by omega)]

/-- The halves of a word. -/
def selectEquiv : Word ≃ BitVec 32 × BitVec 32 where
  toFun w := (selectHi w, selectLo w)
  invFun halves := halves.1 ++ halves.2
  left_inv := append_select
  right_inv _ := Prod.ext (selectHi_append _ _) (selectLo_append _ _)

theorem card_select (a b r s : Nat) :
    Nat.card {w : Word // (selectHi w).toNat % a = r ∧ (selectLo w).toNat % b = s} =
      Nat.card {u : BitVec 32 // u.toNat % a = r} * Nat.card {v : BitVec 32 // v.toNat % b = s} := by
  rw [← Residues.card_prod]
  exact Nat.card_congr (selectEquiv.subtypeEquiv fun _ => Iff.rfl)

theorem immCount_bounds (opcode : InstrType) : 0 < immCount opcode ∧ immCount opcode ≤ 63 := by
  unfold immCount
  split
  · decide
  · split
    · decide
    · decide

section Counts

variable (g : Nat → Word)

theorem sameWord_near (k : Fin 16) : 2 ^ 64 - 2 ^ 37 ≤ Nat.card {w // SameWord g k w} * drawCount g k ∧
    Nat.card {w // SameWord g k w} * drawCount g k ≤ 2 ^ 64 + 2 ^ 37 := by
  have hword {m n : Nat} (hm : 0 < m) (hle : m ≤ 1250) :
      2 ^ 64 - 2 ^ 37 ≤ Nat.card {w : Word // w.toNat % m = n % m} * m ∧
        Nat.card {w : Word // w.toNat % m = n % m} * m ≤ 2 ^ 64 + 2 ^ 37 := by
    obtain ⟨hlow, hhigh⟩ := Residues.card_mod_near (w := 64) (Nat.mod_lt n hm)
    exact ⟨le_trans (by omega) hlow, le_trans hhigh (by omega)⟩
  unfold SameWord drawCount
  by_cases hselect : k.val < 7
  · simp only [if_pos hselect]
    have hcount : 0 < opcodeCount k ∧ opcodeCount k ≤ 9 := by
      unfold opcodeCount
      split
      · decide
      · decide
    obtain ⟨hlow, hhigh⟩ := Residues.card_mod_near (w := 32)
      (Nat.mod_lt (selectHi (g k)).toNat (show 0 < k.val + 2 by omega))
    obtain ⟨hlow', hhigh'⟩ := Residues.card_mod_near (w := 32)
      (Nat.mod_lt (selectLo (g k)).toNat hcount.1)
    rw [card_select, Nat.mul_mul_mul_comm]
    constructor
    · calc 2 ^ 64 - 2 ^ 37 ≤ (2 ^ 32 - 9) * (2 ^ 32 - 9) := by norm_num
        _ ≤ _ := Nat.mul_le_mul (by omega) (by omega)
    · calc _ ≤ (2 ^ 32 + 9) * (2 ^ 32 + 9) := Nat.mul_le_mul (by omega) (by omega)
        _ ≤ 2 ^ 64 + 2 ^ 37 := by norm_num
  · simp only [if_neg hselect]
    by_cases hrow : k.val = 7
    · simp only [if_pos hrow]
      exact hword (by decide) le_rfl
    · simp only [if_neg hrow]
      obtain ⟨hpos, hle⟩ := immCount_bounds (buildOpcode g (Fin.ofNat 8 k))
      exact hword hpos (by omega)

/-- The number of outcomes among which the words choose: shuffles, opcodes, rows with a source of
RMCG, and the immediates that the opcodes of the layout may have. -/
def Layout.drawCount (t : Layout) : Nat :=
  Nat.factorial 8 * (9 ^ 4 * 3 ^ 3) * 1250 * (63 * 3 ^ 3 *
    (t.xas1.pre.maxImm * t.xas3.pre.maxImm * t.xas5.pre.maxImm * t.xas8.pre.maxImm))

theorem drawCount_prod : ∏ k, drawCount g k = (buildLayout g).drawCount := by
  have hfirst : ∏ k : Fin 8, drawCount g (Fin.castAdd 8 k) = Nat.factorial 8 * (9 ^ 4 * 3 ^ 3) * 1250 := by
    rw [Fin.prod_univ_eight]
    show 2 * 9 * (3 * 3) * (4 * 9) * (5 * 3) * (6 * 9) * (7 * 3) * (8 * 9) * 1250 = _
    have hpermutations : Nat.factorial 8 = 40320 := rfl
    norm_num [hpermutations]
  have hsecond : ∏ k : Fin 8, drawCount g (Fin.natAdd 8 k) = ∏ k, immCount (buildOpcode g k) := by
    rw [Fin.prod_univ_eight, Fin.prod_univ_eight]
    rfl
  have himms : ∏ k, immCount (buildOpcode g k) = 63 * 3 ^ 3 * ((buildLayout g).xas1.pre.maxImm *
      (buildLayout g).xas3.pre.maxImm * (buildLayout g).xas5.pre.maxImm * (buildLayout g).xas8.pre.maxImm) := by
    rw [Fin.prod_univ_eight]
    have hxas {i : Fin 8} {w : Word} (hop : buildOpcode g i = (genXasOpcode w).1) :
        immCount (buildOpcode g i) = (xasPre (Fin.ofNat 9 (selectLo w).toNat)).maxImm := by
      rw [hop, immCount_xas]
    have hmul {i : Fin 8} {w : Word} (hop : buildOpcode g i = (genMulOpcode w).1) :
        immCount (buildOpcode g i) = 3 := by
      rw [hop, immCount_mul]
    rw [hxas (i := 1) rfl, hmul (i := 2) rfl, hxas (i := 3) rfl, hmul (i := 4) rfl, hxas (i := 5) rfl,
      hmul (i := 6) rfl, hxas (i := 7) rfl]
    show 63 * (buildLayout g).xas1.pre.maxImm * 3 * (buildLayout g).xas3.pre.maxImm * 3 *
      (buildLayout g).xas5.pre.maxImm * 3 * (buildLayout g).xas8.pre.maxImm = _
    ring
  rw [Layout.drawCount, ← hfirst, ← himms, ← hsecond]
  exact Fin.prod_univ_add (a := 8) (b := 8) _

end Counts

/-! ## Programs -/

/-- The windows of a layout are the ones with the remainders of any of them. -/
theorem describes_window_iff {g : Nat → Word} {h : Fin 16 → Word} {σ : Type} (next : σ → Word × σ) {gen : σ}
    (hgen : ∀ k : Fin 16, output next gen k = h k) (program : Program) :
    (buildLayout g).Describes (programGenerate next program gen).1 ↔ ∀ k, SameWord g k (h k) := by
  have hwindow : SameDraws (output next gen) (windowOf h) :=
    .of_words fun k => (hgen k).trans (windowOf_val h k).symm
  rw [describes_programGenerate_iff, hwindow.layout, ← sameDraws_windowOf_iff]
  exact ⟨fun heq => .of_layout heq.symm, fun hsame => hsame.layout.symm⟩

/-- **Programs are drawn evenly.** Of the `2 ^ 1024` windows of sixteen words, the share that leads to a
layout is the reciprocal of the number of outcomes, up to a relative error of `2 ^ -22`. -/
theorem programGenerate_even {t : Layout} (h : t.Scheduled) {σ : Type} (next : σ → Word × σ)
    {gen : (Fin 16 → Word) → σ} (hgen : ∀ (g : Fin 16 → Word) (k : Fin 16), output next (gen g) k = g k)
    (program : Program) :
    let n := Nat.card {g // t.Describes (programGenerate next program (gen g)).1} * t.drawCount
    2 ^ 1024 - 2 ^ 1002 ≤ n ∧ n ≤ 2 ^ 1024 + 2 ^ 1002 := by
  intro n
  obtain ⟨g, rfl⟩ := h.exists_window
  have hcard : Nat.card {w // (buildLayout g).Describes (programGenerate next program (gen w)).1} =
      Nat.card {w : Fin 16 → Word // ∀ k, SameWord g k (w k)} :=
    Nat.card_congr (Equiv.subtypeEquivRight fun w => describes_window_iff next (hgen w) program)
  have hn : n = Nat.card {w : Fin 16 → Word // ∀ k, SameWord g k (w k)} * ∏ k, drawCount g k := by
    rw [drawCount_prod, ← hcard]
  obtain ⟨hlow, hhigh⟩ := Residues.card_pi_near (SameWord g) (drawCount g) (sameWord_near g)
  rw [← hn, Fintype.card_fin] at hlow hhigh
  have hall : 2 ^ 1024 = (2 ^ 64) ^ 16 := by rw [← pow_mul]
  have herror : 2 ^ 1002 = (2 ^ 64) ^ 15 * 2 ^ 42 := by rw [← pow_mul, ← pow_add]
  rw [hall, herror]
  constructor
  · calc (2 ^ 64) ^ 16 - (2 ^ 64) ^ 15 * 2 ^ 42 ≤ (2 ^ 64 - 2 ^ 37) ^ 16 := by norm_num
      _ ≤ n := hlow
  · calc n ≤ (2 ^ 64 + 2 ^ 37) ^ 16 := hhigh
      _ ≤ (2 ^ 64) ^ 16 + (2 ^ 64) ^ 15 * 2 ^ 42 := by norm_num

/-- The layout that a window of zeros leads to. -/
theorem programGenerate_even_zero :
    let t := buildLayout fun _ => 0
    let program : Program := .replicate 10 ⟨.halt, 0, 0, 0⟩
    let n := Nat.card {g // t.Describes (programGenerate ofSequence program (windowOf g)).1} * t.drawCount
    2 ^ 1024 - 2 ^ 1002 ≤ n ∧ n ≤ 2 ^ 1024 + 2 ^ 1002 :=
  programGenerate_even (buildLayout_scheduled _) ofSequence
    (fun g k => (output_ofSequence (windowOf g) k).trans (windowOf_val g k)) _

end HashWX
