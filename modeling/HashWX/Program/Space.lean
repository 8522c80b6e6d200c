import HashWX.Lib.Backtrack
import HashWX.Program.Shuffle
import HashWX.Program.WellFormed

/-!
# The programs that can be generated

The table of source permutations lists the solutions of a few rules about which
instruction may read whose result. The layouts that follow these rules are the ones that
`program_generate` can produce, and two windows of words produce the same layout exactly
when the numbers that the generator draws from them agree.
-/

namespace HashWX

open Siphash OutputStream

/-! ## The rules behind the table -/

/-- The slots of the XAS family in front of the branch, and of the multiplications. -/
def earlySums : List (Fin 8) := [1, 3, 5]
def products : List (Fin 8) := [0, 2, 4, 6]

/-- Slot `i` may read what slot `j` writes; a reader 0 stands for the result that no slot reads.
No slot reads its own result, the last slot reads products only and every early sum is
read, and a product is not read within the five instructions behind it. -/
structure MayRead (i j : Fin 8) : Prop where
  other : i ≠ 0 → i ≠ j
  early : j ∈ earlySums → i ≠ 0 ∧ i ≠ 7
  latency : j ∈ products → j < i → (finalIndex j).val + 6 ≤ finalIndex i

instance (i j : Fin 8) : Decidable (MayRead i j) :=
  decidable_of_iff ((i ≠ 0 → i ≠ j) ∧ (j ∈ earlySums → i ≠ 0 ∧ i ≠ 7) ∧
      (j ∈ products → j < i → (finalIndex j).val + 6 ≤ finalIndex i))
    ⟨fun ⟨h, h', h''⟩ => ⟨h, h', h''⟩, fun ⟨h, h', h''⟩ => ⟨h, h', h''⟩⟩

/-- The slots whose results a slot may read. -/
def readable (i : Fin 8) : List (Fin 8) := (List.finRange 8).filter (MayRead i)

theorem mem_readable {i j : Fin 8} : j ∈ readable i ↔ MayRead i j := by
  rw [readable, List.mem_filter, decide_eq_true_eq]
  exact and_iff_right (List.mem_finRange j)

/-- The table is the result of a backtracking search, row by row. -/
theorem srcLookup_choices :
    srcLookup.map List.ofFn = Backtrack.choices ((List.finRange 8).map readable) [] := by
  decide +kernel

theorem mem_srcLookup {p : Fin 8 → Fin 8} :
    p ∈ srcLookup ↔ Function.Injective p ∧ ∀ i, MayRead i (p i) := by
  have hforall : List.Forall₂ (· ∈ ·) (List.ofFn p) ((List.finRange 8).map readable) ↔
      ∀ i, MayRead i (p i) := by
    rw [List.ofFn_eq_map, List.forall₂_map_left_iff, List.forall₂_map_right_iff, List.forall₂_same]
    exact forall_congr' fun i => ⟨fun h => mem_readable.mp (h (List.mem_finRange i)),
      fun h _ => mem_readable.mpr h⟩
  rw [← List.mem_map_of_injective List.ofFn_injective, srcLookup_choices, Backtrack.mem_choices, hforall,
    List.nodup_ofFn]
  constructor
  · intro hrow
    obtain ⟨hreads, hinjective, -⟩ := hrow
    exact ⟨hinjective, hreads⟩
  · intro hrow
    obtain ⟨hinjective, hreads⟩ := hrow
    exact ⟨hreads, hinjective, fun x _ => List.not_mem_nil⟩

theorem srcLookup_sorted : srcLookup.Pairwise fun p q => List.ofFn p < List.ofFn q := by
  rw [← List.pairwise_map (f := List.ofFn), srcLookup_choices]
  refine Backtrack.choices_sorted (fun l hl => ?_) []
  obtain ⟨i, -, rfl⟩ := List.mem_map.mp hl
  exact List.Pairwise.filter _ (List.pairwise_lt_finRange 8)

/-- **The table of source permutations** holds every permutation that follows the rules, no other
row, and its rows ascend in lexicographic order. -/
theorem srcLookup_exact :
    (∀ p, p ∈ srcLookup ↔ Function.Injective p ∧ ∀ i, MayRead i (p i)) ∧
      srcLookup.Pairwise fun p q => List.ofFn p < List.ofFn q :=
  ⟨fun _ => mem_srcLookup, srcLookup_sorted⟩

theorem srcLookup_nodup : srcLookup.Nodup := by
  refine List.nodup_iff_pairwise_ne.mpr (srcLookup_sorted.imp fun {p q} hlt heq => ?_)
  rw [heq] at hlt
  exact List.lt_irrefl _ hlt

theorem srcPerm_eq_iff (v w : Word) : srcPerm v = srcPerm w ↔ v.toNat % 625 = w.toNat % 625 := by
  rw [srcPerm, srcPerm, (List.nodup_iff_injective_get.mp srcLookup_nodup).eq_iff, Fin.mk.injEq]

/-! ## The layouts that follow the rules -/

/-- The rules of the table as properties of the registers. -/
structure Layout.Scheduled (t : Layout) : Prop where
  dst_injective : Function.Injective t.dst
  src_injective : Function.Injective t.src
  reads : ∀ (i : Fin 7) (j : Fin 8), t.src i = t.dst j → MayRead i.succ j
  sums_read : ∀ j ∈ earlySums, ∃ i, t.src i = t.dst j

/-- The result that is left over takes the unused entry of the row. -/
theorem Layout.scheduled_iff {t : Layout} : t.Scheduled ↔
    Function.Injective t.dst ∧ ∃ p ∈ srcLookup, ∀ i : Fin 7, t.src i = t.dst (p i.succ) := by
  constructor
  · intro h
    have hbijective := Finite.injective_iff_bijective.mp h.dst_injective
    choose q hq using fun i => hbijective.surjective (t.src i)
    have hinjective : Function.Injective q := by
      intro i i' hi
      apply h.src_injective
      rw [← hq i, ← hq i', hi]
    obtain ⟨y, hy⟩ : ∃ y, y ∉ Set.range q := by
      by_contra hall
      push Not at hall
      have hcard := Fintype.card_le_of_surjective q hall
      simp only [Fintype.card_fin] at hcard
      omega
    refine ⟨h.dst_injective, Fin.cons y q, mem_srcLookup.mpr ⟨?_, fun i => ?_⟩, fun i => ?_⟩
    · exact Fin.cons_injective_iff.mpr ⟨hy, hinjective⟩
    · cases i using Fin.cases with
      | zero =>
        refine ⟨fun hne => absurd rfl hne, fun hearly => ?_, fun _ hlt => absurd hlt (Fin.not_lt_zero _)⟩
        obtain ⟨i, hi⟩ := h.sums_read y hearly
        exact absurd ⟨i, h.dst_injective ((hq i).trans hi)⟩ hy
      | succ i => exact h.reads i (q i) (hq i).symm
    · exact (hq i).symm
  · intro hrules
    obtain ⟨hdst, p, hp, hsrc⟩ := hrules
    obtain ⟨hinjective, hreads⟩ := mem_srcLookup.mp hp
    refine ⟨hdst, fun i i' hi => ?_, fun i j hij => ?_, fun j hj => ?_⟩
    · rw [hsrc, hsrc] at hi
      exact Fin.succ_injective _ (hinjective (hdst hi))
    · rw [hsrc] at hij
      exact hdst hij ▸ hreads i.succ
    · obtain ⟨k, rfl⟩ := (Finite.injective_iff_surjective.mp hinjective) j
      cases k using Fin.cases with
      | zero => exact absurd rfl ((hreads 0).early hj).1
      | succ i => exact ⟨i, hsrc i⟩

/-! ## The numbers that a window draws -/

/-- The number of immediates among which `gen_imm` selects. -/
def immCount (opcode : InstrType) : Nat :=
  if opcode.toNat ≤ InstrType.muladd.toNat then 3
  else if opcode.toNat ≤ InstrType.subror.toNat then 63
  else 3

/-- Two windows give the same remainders for the shuffle, the opcodes, the row of the table with
the source of RMCG, and the immediates of the opcodes. -/
structure SameDraws (g g' : Nat → Word) : Prop where
  shuffle : ∀ i : Fin 7,
    (selectHi (g i)).toNat % (i.val + 2) = (selectHi (g' i)).toNat % (i.val + 2)
  sums : ∀ i ∈ [0, 2, 4, 6], (selectLo (g i)).toNat % 9 = (selectLo (g' i)).toNat % 9
  products : ∀ i ∈ [1, 3, 5], (selectLo (g i)).toNat % 3 = (selectLo (g' i)).toNat % 3
  sources : (g 7).toNat % 1250 = (g' 7).toNat % 1250
  imms : ∀ i : Fin 8, (g (8 + i)).toNat % immCount (buildOpcode g i) =
    (g' (8 + i)).toNat % immCount (buildOpcode g i)

/-- A window as the beginning of a stream. -/
def windowOf (g : Fin 16 → Word) : Nat → Word := fun k => g (Fin.ofNat 16 k)

theorem windowOf_val (g : Fin 16 → Word) (k : Fin 16) : windowOf g k = g k :=
  congrArg g (Fin.ext (Nat.mod_eq_of_lt k.isLt))

/-- Only the first sixteen words are drawn. -/
theorem SameDraws.of_words {g g' : Nat → Word} (h : ∀ k : Fin 16, g k = g' k) : SameDraws g g' := by
  have hword (k : Nat) (hk : k < 16) : g k = g' k := h ⟨k, hk⟩
  constructor
  · intro i
    rw [hword i (by omega)]
  · intro i hi
    rw [hword i ((by decide : ∀ i ∈ [0, 2, 4, 6], i < 16) i hi)]
  · intro i hi
    rw [hword i ((by decide : ∀ i ∈ [1, 3, 5], i < 16) i hi)]
  · rw [hword 7 (by decide)]
  · intro i
    rw [hword (8 + i) (by omega)]

theorem ofNat_eq_iff {n : Nat} [NeZero n] {a b : Nat} : Fin.ofNat n a = Fin.ofNat n b ↔ a % n = b % n :=
  Fin.ext_iff

theorem mulOp_injective : Function.Injective mulOp := by decide

theorem mulImms_injective : Function.Injective mulImms := by decide

theorem xas_injective : ∀ k k' : Fin 9, xasPre k = xasPre k' → xasPost k = xasPost k' → k = k' := by
  decide

theorem immCount_xas (w : Word) :
    immCount (genXasOpcode w).1 = (xasPre (Fin.ofNat 9 (selectLo w).toNat)).maxImm := by
  rw [genXasOpcode, xasLookup_eq]
  cases xasPre (Fin.ofNat 9 (selectLo w).toNat) <;> cases xasPost (Fin.ofNat 9 (selectLo w).toNat) <;> rfl

theorem immCount_mul (w : Word) : immCount (genMulOpcode w).1 = 3 := by
  rw [genMulOpcode, mulOpcode_eq]
  cases mulOp (Fin.ofNat 3 (selectLo w).toNat) <;> rfl

theorem mod_sources_iff {m n : Nat} : m % 1250 = n % 1250 ↔ m % 625 = n % 625 ∧ m % 2 = n % 2 := by
  omega

section Draws

variable {g g' : Nat → Word} {i : Fin 8}

theorem buildRmcg_eq_iff : buildRmcg g = buildRmcg g' ↔
    slotDst g 0 = slotDst g' 0 ∧ (g 7).toNat % 2 = (g' 7).toNat % 2 ∧
      (g 8).toNat % 63 = (g' 8).toNat % 63 := by
  rw [buildRmcg, buildRmcg, Rmcg.mk.injEq, ofNat_eq_iff, Nat.add_right_inj]

theorem buildMul_eq_iff : buildMul g i = buildMul g' i ↔
    (selectLo (g (i - 1))).toNat % 3 = (selectLo (g' (i - 1))).toNat % 3 ∧
      slotDst g i = slotDst g' i ∧ slotSrc g i = slotSrc g' i ∧
      (g (8 + i)).toNat % 3 = (g' (8 + i)).toNat % 3 := by
  rw [buildMul, buildMul, Mul.mk.injEq, mulOp_injective.eq_iff, ofNat_eq_iff, mulImms_injective.eq_iff,
    ofNat_eq_iff]

theorem buildXas_eq_iff : buildXas g i = buildXas g' i ↔
    (selectLo (g (i - 1))).toNat % 9 = (selectLo (g' (i - 1))).toNat % 9 ∧
      slotDst g i = slotDst g' i ∧ slotSrc g i = slotSrc g' i ∧
      (g (8 + i)).toNat % immCount (genXasOpcode (g (i - 1))).1 =
        (g' (8 + i)).toNat % immCount (genXasOpcode (g (i - 1))).1 := by
  rw [buildXas, buildXas, Xas.mk.injEq, Nat.add_right_inj, immCount_xas, ← ofNat_eq_iff]
  constructor
  · intro heq
    obtain ⟨hpre, hpost, hdst, hsrc, himm⟩ := heq
    have hop := xas_injective _ _ hpre hpost
    rw [← hop] at himm
    exact ⟨hop, hdst, hsrc, himm⟩
  · intro heq
    obtain ⟨hop, hdst, hsrc, himm⟩ := heq
    rw [← hop]
    exact ⟨rfl, rfl, hdst, hsrc, himm⟩

theorem slotDst_eq_iff : slotDst g = slotDst g' ↔ ∀ i : Fin 7,
    (selectHi (g i)).toNat % (i.val + 2) = (selectHi (g' i)).toNat % (i.val + 2) := by
  have hresidue (g : Nat → Word) (i : Fin 7) :
      residue (buildSelect g) i = (selectHi (g i)).toNat % (i.val + 2) := by
    match i with
    | 0 | 1 | 2 | 3 | 4 | 5 | 6 => rfl
  have hperm := destPerm_eq_iff (buildSelect g) (buildSelect g')
  simp only [hresidue] at hperm
  exact (DFunLike.coe_fn_eq (f := destPerm (buildSelect g))).trans hperm

/-- Two rows that agree behind the unused entry are equal. -/
theorem srcPerm_eq_of_succ {v w : Word} (h : ∀ i : Fin 7, srcPerm v i.succ = srcPerm w i.succ) :
    srcPerm v = srcPerm w := by
  have hv := (permitted_of_mem (List.get_mem _ _ : srcPerm v ∈ srcLookup)).injective
  have hw := (permitted_of_mem (List.get_mem _ _ : srcPerm w ∈ srcLookup)).injective
  funext i
  cases i using Fin.cases with
  | succ i => exact h i
  | zero =>
    obtain ⟨k, hk⟩ := (Finite.injective_iff_surjective.mp hw) (srcPerm v 0)
    cases k using Fin.cases with
    | zero => exact hk.symm
    | succ i => exact absurd (hv ((h i).trans hk)) (Fin.succ_ne_zero i)

theorem SameDraws.of_layout (h : buildLayout g = buildLayout g') : SameDraws g g' := by
  rw [buildLayout, buildLayout, Layout.mk.injEq] at h
  obtain ⟨h0, h1, h2, h3, h4, h5, h6, h7⟩ := h
  obtain ⟨d0, s0, i0⟩ := buildRmcg_eq_iff.mp h0
  obtain ⟨o1, d1, s1, i1⟩ := buildXas_eq_iff.mp h1
  obtain ⟨o2, d2, s2, i2⟩ := buildMul_eq_iff.mp h2
  obtain ⟨o3, d3, s3, i3⟩ := buildXas_eq_iff.mp h3
  obtain ⟨o4, d4, s4, i4⟩ := buildMul_eq_iff.mp h4
  obtain ⟨o5, d5, s5, i5⟩ := buildXas_eq_iff.mp h5
  obtain ⟨o6, d6, s6, i6⟩ := buildMul_eq_iff.mp h6
  obtain ⟨o7, d7, s7, i7⟩ := buildXas_eq_iff.mp h7
  have hdst : slotDst g = slotDst g' := by
    funext i
    match i with
    | 0 => exact d0
    | 1 => exact d1
    | 2 => exact d2
    | 3 => exact d3
    | 4 => exact d4
    | 5 => exact d5
    | 6 => exact d6
    | 7 => exact d7
  have hrow : srcPerm (g 7) = srcPerm (g' 7) := by
    refine srcPerm_eq_of_succ fun i => (destPerm (buildSelect g)).injective ?_
    show slotSrc g i.succ = slotDst g (srcPerm (g' 7) i.succ)
    rw [hdst]
    match i with
    | 0 => exact s1
    | 1 => exact s2
    | 2 => exact s3
    | 3 => exact s4
    | 4 => exact s5
    | 5 => exact s6
    | 6 => exact s7
  have hsources := mod_sources_iff.mpr ⟨(srcPerm_eq_iff _ _).mp hrow, s0⟩
  refine ⟨slotDst_eq_iff.mp hdst, ?_, ?_, hsources, fun i => ?_⟩
  · simp only [List.forall_mem_cons]
    exact ⟨o1, o3, o5, o7, List.forall_mem_nil _⟩
  · simp only [List.forall_mem_cons]
    exact ⟨o2, o4, o6, List.forall_mem_nil _⟩
  · match i with
    | 0 => exact i0
    | 1 => exact i1
    | 2 => exact (immCount_mul (g 1)).symm ▸ i2
    | 3 => exact i3
    | 4 => exact (immCount_mul (g 3)).symm ▸ i4
    | 5 => exact i5
    | 6 => exact (immCount_mul (g 5)).symm ▸ i6
    | 7 => exact i7

theorem SameDraws.layout (h : SameDraws g g') : buildLayout g = buildLayout g' := by
  obtain ⟨hshuffle, hsums, hproducts, hsources, himms⟩ := h
  rw [buildLayout, buildLayout, Layout.mk.injEq]
  have hdst := slotDst_eq_iff.mpr hshuffle
  have hmod := mod_sources_iff.mp hsources
  have hrow : srcPerm (g 7) = srcPerm (g' 7) := (srcPerm_eq_iff _ _).mpr hmod.1
  have hsrc (i : Fin 8) : slotSrc g i = slotSrc g' i := by rw [slotSrc, slotSrc, hdst, hrow]
  have hxas (i : Fin 8) (hi : i.val - 1 ∈ [0, 2, 4, 6]) (hop : buildOpcode g i = (genXasOpcode (g (i - 1))).1) :
      buildXas g i = buildXas g' i :=
    buildXas_eq_iff.mpr ⟨hsums _ hi, congrFun hdst i, hsrc i, hop ▸ himms i⟩
  have hmul (i : Fin 8) (hi : i.val - 1 ∈ [1, 3, 5]) (hop : buildOpcode g i = (genMulOpcode (g (i - 1))).1) :
      buildMul g i = buildMul g' i := by
    have himm := himms i
    rw [hop, immCount_mul] at himm
    exact buildMul_eq_iff.mpr ⟨hproducts _ hi, congrFun hdst i, hsrc i, himm⟩
  refine ⟨buildRmcg_eq_iff.mpr ⟨congrFun hdst 0, hmod.2, himms 0⟩, ?_⟩
  exact ⟨hxas 1 (by decide) rfl, hmul 2 (by decide) rfl, hxas 3 (by decide) rfl, hmul 4 (by decide) rfl,
    hxas 5 (by decide) rfl, hmul 6 (by decide) rfl, hxas 7 (by decide) rfl⟩

end Draws

/-! ## A window for every layout -/

theorem selectHi_append (u v : BitVec 32) : selectHi (u ++ v) = u := by
  apply BitVec.eq_of_getElem_eq
  intro k hk
  have hlow : ¬32 + k < 32 := by omega
  rw [selectHi, BitVec.getElem_setWidth, BitVec.getLsbD_ushiftRight, BitVec.getLsbD_append, if_neg hlow,
    Nat.add_sub_cancel_left, BitVec.getLsbD_eq_getElem hk]

theorem selectLo_append (u v : BitVec 32) : selectLo (u ++ v) = v := BitVec.setWidth_append_eq_right

theorem exists_window (select opcode : Fin 7 → BitVec 32) (row : Word) (imm : Fin 8 → Word) :
    ∃ g : Nat → Word, (∀ i : Fin 7, selectHi (g i) = select i ∧ selectLo (g i) = opcode i) ∧
      g 7 = row ∧ ∀ i : Fin 8, g (8 + i) = imm i := by
  refine ⟨fun j => if j < 7 then select (Fin.ofNat 7 j) ++ opcode (Fin.ofNat 7 j)
    else if j = 7 then row else imm (Fin.ofNat 8 j), fun i => ?_, rfl, fun i => ?_⟩
  · have hi : Fin.ofNat 7 i.val = i := Fin.ext (Nat.mod_eq_of_lt i.isLt)
    simp only [if_pos i.isLt, hi]
    exact ⟨selectHi_append _ _, selectLo_append _ _⟩
  · have hi : Fin.ofNat 8 (8 + i.val) = i := Fin.ext (by simp only [Fin.val_ofNat]; omega)
    have hlt : ¬8 + i.val < 7 := by omega
    have hne : ¬8 + i.val = 7 := by omega
    simp only [if_neg hlt, if_neg hne, hi]

theorem exists_xasWord (x : Xas) : ∃ w : BitVec 32,
    xasPre (Fin.ofNat 9 w.toNat) = x.pre ∧ xasPost (Fin.ofNat 9 w.toNat) = x.post := by
  have h : ∀ pre post, ∃ w : BitVec 32,
      xasPre (Fin.ofNat 9 w.toNat) = pre ∧ xasPost (Fin.ofNat 9 w.toNat) = post := by
    intro pre post
    cases pre <;> cases post
    · exact ⟨0, rfl, rfl⟩
    · exact ⟨1, rfl, rfl⟩
    · exact ⟨2, rfl, rfl⟩
    · exact ⟨3, rfl, rfl⟩
    · exact ⟨4, rfl, rfl⟩
    · exact ⟨5, rfl, rfl⟩
    · exact ⟨6, rfl, rfl⟩
    · exact ⟨7, rfl, rfl⟩
    · exact ⟨8, rfl, rfl⟩
  exact h x.pre x.post

theorem exists_mulWord (x : Mul) : ∃ w : BitVec 32, mulOp (Fin.ofNat 3 w.toNat) = x.op := by
  cases x.op with
  | or => exact ⟨0, rfl⟩
  | xor => exact ⟨1, rfl⟩
  | add => exact ⟨2, rfl⟩

/-- A remainder that a word has modulo a small number. -/
theorem exists_remainder {n k : Nat} (hk : k < n) (hn : n ≤ 1250) : ∃ w : Word, w.toNat % n = k := by
  refine ⟨BitVec.ofNat 64 k, ?_⟩
  have hword : k < 2 ^ 64 := by omega
  rw [BitVec.toNat_ofNat, Nat.mod_eq_of_lt hword, Nat.mod_eq_of_lt hk]

theorem exists_rmcgImm (x : Rmcg) : ∃ w : Word, 1 + w.toNat % 63 = x.imm := by
  have hpos := x.imm_pos
  have hle := x.imm_le
  obtain ⟨w, hw⟩ := exists_remainder (n := 63) (k := x.imm - 1) (by omega) (by omega)
  exact ⟨w, by omega⟩

theorem exists_xasImm (x : Xas) : ∃ w : Word, 1 + w.toNat % x.pre.maxImm = x.imm := by
  have hpos := x.imm_pos
  have hle := x.imm_le
  have hmax := x.pre.maxImm_le
  obtain ⟨w, hw⟩ := exists_remainder (n := x.pre.maxImm) (k := x.imm - 1) (by omega) (by omega)
  exact ⟨w, by omega⟩

theorem exists_mulImm (x : Mul) : ∃ w : Word, mulImms (Fin.ofNat 3 w.toNat) = x.imm := by
  rcases x.imm_mem with h | h | h
  · exact ⟨0, h.symm⟩
  · exact ⟨1, h.symm⟩
  · exact ⟨2, h.symm⟩

/-- Every row of the table with every source of RMCG. -/
theorem exists_row {p : Fin 8 → Fin 8} (hp : p ∈ srcLookup) (b : Fin 2) :
    ∃ w : Word, srcPerm w = p ∧ Fin.ofNat 2 w.toNat = b := by
  obtain ⟨k, rfl⟩ := List.mem_iff_get.mp hp
  have hk : k.val < 625 := k.isLt.trans_eq srcLookup_length
  have hb := b.isLt
  obtain ⟨n, hn, hrow, hsource⟩ : ∃ n : Nat, n < 1250 ∧ n % 625 = k.val ∧ n % 2 = b.val := by
    by_cases h : k.val % 2 = b
    · exact ⟨k.val, by omega, by omega, h⟩
    · exact ⟨k.val + 625, by omega, by omega, by omega⟩
  obtain ⟨w, hw⟩ := exists_remainder hn le_rfl
  refine ⟨w, ?_, Fin.ext ?_⟩
  · rw [srcPerm]
    congr 1
    exact Fin.ext (show w.toNat % 625 = k by omega)
  · show w.toNat % 2 = b
    omega

section Build

variable {g : Nat → Word} {i : Fin 8}

theorem buildMul_of {x : Mul} (hop : mulOp (Fin.ofNat 3 (selectLo (g (i - 1))).toNat) = x.op)
    (hdst : slotDst g i = x.dst) (hsrc : slotSrc g i = x.src)
    (himm : mulImms (Fin.ofNat 3 (g (8 + i)).toNat) = x.imm) : buildMul g i = x := by
  obtain ⟨op, dst, src, imm, himm_mem⟩ := x
  rw [buildMul, Mul.mk.injEq]
  exact ⟨hop, hdst, hsrc, himm⟩

theorem buildXas_of {x : Xas} (hpre : xasPre (Fin.ofNat 9 (selectLo (g (i - 1))).toNat) = x.pre)
    (hpost : xasPost (Fin.ofNat 9 (selectLo (g (i - 1))).toNat) = x.post)
    (hdst : slotDst g i = x.dst) (hsrc : slotSrc g i = x.src)
    (himm : 1 + (g (8 + i)).toNat % x.pre.maxImm = x.imm) : buildXas g i = x := by
  obtain ⟨pre, post, dst, src, imm, hpos, hle⟩ := x
  simp only at hpre hpost hdst hsrc himm
  subst hpre
  rw [buildXas, Xas.mk.injEq]
  exact ⟨rfl, hpost, hdst, hsrc, himm⟩

theorem buildRmcg_of {x : Rmcg} (hdst : slotDst g 0 = x.dst) (hsrc : Fin.ofNat 2 (g 7).toNat = x.src)
    (himm : 1 + (g 8).toNat % 63 = x.imm) : buildRmcg g = x := by
  obtain ⟨dst, src, imm, hpos, hle⟩ := x
  rw [buildRmcg, Rmcg.mk.injEq]
  exact ⟨hdst, hsrc, himm⟩

end Build

theorem Layout.Scheduled.exists_window {t : Layout} (h : t.Scheduled) : ∃ g, buildLayout g = t := by
  obtain ⟨hinjective, p, hp, hsrc⟩ := Layout.scheduled_iff.mp h
  obtain ⟨select, hselect⟩ :=
    exists_destPerm (Equiv.ofBijective t.dst (Finite.injective_iff_bijective.mp hinjective))
  obtain ⟨row, hrow, hsource⟩ := exists_row hp t.rmcg0.src
  choose xasWord hpre hpost using exists_xasWord
  choose mulWord hop using exists_mulWord
  choose rmcgImm hrmcg using exists_rmcgImm
  choose xasImm hxas using exists_xasImm
  choose mulImm hmul using exists_mulImm
  obtain ⟨g, hwords, hg7, himm⟩ := HashWX.exists_window select
    ![xasWord t.xas1, mulWord t.mul2, xasWord t.xas3, mulWord t.mul4, xasWord t.xas5, mulWord t.mul6,
      xasWord t.xas8] row
    ![rmcgImm t.rmcg0, xasImm t.xas1, mulImm t.mul2, xasImm t.xas3, mulImm t.mul4, xasImm t.xas5,
      mulImm t.mul6, xasImm t.xas8]
  have hbuild : buildSelect g = select := by
    funext i
    match i with
    | 0 => exact (hwords 0).1
    | 1 => exact (hwords 1).1
    | 2 => exact (hwords 2).1
    | 3 => exact (hwords 3).1
    | 4 => exact (hwords 4).1
    | 5 => exact (hwords 5).1
    | 6 => exact (hwords 6).1
  have hdst (i : Fin 8) : slotDst g i = t.dst i := by
    rw [slotDst, hbuild, hselect]
    rfl
  have hsrc (i : Fin 7) : slotSrc g i.succ = t.src i := by
    rw [slotSrc, hdst, hg7, hrow, hsrc]
  refine ⟨g, ?_⟩
  have h1 : buildXas g 1 = t.xas1 := buildXas_of ((hwords 0).2 ▸ hpre t.xas1) ((hwords 0).2 ▸ hpost t.xas1)
    (hdst 1) (hsrc 0) (himm 1 ▸ hxas t.xas1)
  have h2 : buildMul g 2 = t.mul2 := buildMul_of ((hwords 1).2 ▸ hop t.mul2) (hdst 2) (hsrc 1)
    (himm 2 ▸ hmul t.mul2)
  have h3 : buildXas g 3 = t.xas3 := buildXas_of ((hwords 2).2 ▸ hpre t.xas3) ((hwords 2).2 ▸ hpost t.xas3)
    (hdst 3) (hsrc 2) (himm 3 ▸ hxas t.xas3)
  have h4 : buildMul g 4 = t.mul4 := buildMul_of ((hwords 3).2 ▸ hop t.mul4) (hdst 4) (hsrc 3)
    (himm 4 ▸ hmul t.mul4)
  have h5 : buildXas g 5 = t.xas5 := buildXas_of ((hwords 4).2 ▸ hpre t.xas5) ((hwords 4).2 ▸ hpost t.xas5)
    (hdst 5) (hsrc 4) (himm 5 ▸ hxas t.xas5)
  have h6 : buildMul g 6 = t.mul6 := buildMul_of ((hwords 5).2 ▸ hop t.mul6) (hdst 6) (hsrc 5)
    (himm 6 ▸ hmul t.mul6)
  have h7 : buildXas g 7 = t.xas8 := buildXas_of ((hwords 6).2 ▸ hpre t.xas8) ((hwords 6).2 ▸ hpost t.xas8)
    (hdst 7) (hsrc 6) (himm 7 ▸ hxas t.xas8)
  have h0 : buildRmcg g = t.rmcg0 :=
    buildRmcg_of (hdst 0) (hg7 ▸ hsource) (himm 0 ▸ hrmcg t.rmcg0)
  rw [buildLayout, h0, h1, h2, h3, h4, h5, h6, h7]

/-! ## The space of programs -/

theorem buildLayout_scheduled (g : Nat → Word) : (buildLayout g).Scheduled := by
  refine Layout.scheduled_iff.mpr ⟨(buildLayout_shuffled g).dst_injective, srcPerm (g 7),
    List.get_mem _ _, fun i => ?_⟩
  rw [buildLayout_src, buildLayout_dst, slotSrc]

theorem xasOpcode_inj {pre pre' : PreOp} {post post' : PostOp} :
    xasOpcode pre post = xasOpcode pre' post' ↔ pre = pre' ∧ post = post' := by
  cases pre <;> cases post <;> cases pre' <;> cases post' <;> decide

theorem Rmcg.instruction_injective : Function.Injective Rmcg.instruction := by
  intro x y h
  obtain ⟨dst, src, imm, _, _⟩ := x
  obtain ⟨dst', src', imm', _, _⟩ := y
  obtain ⟨-, hsrc, hdst, rfl⟩ := Instruction.mk.inj h
  obtain rfl := Fin.ext hdst
  obtain rfl := Fin.ext (Nat.add_left_cancel hsrc)
  rfl

theorem Mul.instruction_injective : Function.Injective Mul.instruction := by
  intro x y h
  obtain ⟨op, dst, src, imm, _⟩ := x
  obtain ⟨op', dst', src', imm', _⟩ := y
  obtain ⟨hop, hsrc, hdst, rfl⟩ := Instruction.mk.inj h
  obtain rfl : op = op' := by cases op <;> cases op' <;> first | rfl | cases hop
  obtain rfl := Fin.ext hdst
  obtain rfl := Fin.ext hsrc
  rfl

theorem Xas.instruction_injective : Function.Injective Xas.instruction := by
  intro x y h
  obtain ⟨pre, post, dst, src, imm, _, _⟩ := x
  obtain ⟨pre', post', dst', src', imm', _, _⟩ := y
  obtain ⟨hop, hsrc, hdst, rfl⟩ := Instruction.mk.inj h
  obtain ⟨rfl, rfl⟩ := xasOpcode_inj.mp hop
  obtain rfl := Fin.ext hdst
  obtain rfl := Fin.ext hsrc
  rfl

/-- A program holds at most one layout. -/
theorem Layout.Describes.unique {t t' : Layout} {program : Program} (h : t.Describes program)
    (h' : t'.Describes program) : t = t' := by
  obtain ⟨x0, x1, x2, x3, x4, x5, x6, x7⟩ := t
  obtain ⟨y0, y1, y2, y3, y4, y5, y6, y7⟩ := t'
  rw [Layout.mk.injEq]
  exact ⟨Rmcg.instruction_injective (h.code0.symm.trans h'.code0),
    Xas.instruction_injective (h.code1.symm.trans h'.code1),
    Mul.instruction_injective (h.code2.symm.trans h'.code2),
    Xas.instruction_injective (h.code3.symm.trans h'.code3),
    Mul.instruction_injective (h.code4.symm.trans h'.code4),
    Xas.instruction_injective (h.code5.symm.trans h'.code5),
    Mul.instruction_injective (h.code6.symm.trans h'.code6),
    Xas.instruction_injective (h.code8.symm.trans h'.code8)⟩

theorem describes_programGenerate_iff {σ : Type} (next : σ → Word × σ) (program : Program) (gen : σ)
    {t : Layout} :
    t.Describes (programGenerate next program gen).1 ↔ buildLayout (output next gen) = t := by
  rw [programGenerate_eq]
  constructor
  · exact fun h => (buildLayout_describes _ _).unique h
  · rintro rfl
    exact buildLayout_describes _ _

/-- **The programs that `program_generate` produces** are the ones with a layout that follows the
rules: each of them is produced from some sixteen words, by every generator that yields these first, and
two generators yield the same program up to the operands of BRANCH and HALT exactly when their
words have the same remainders. -/
theorem programGenerate_space :
    (∀ t : Layout, t.Scheduled ↔ ∃ g : Fin 16 → Word, ∀ {σ : Type} (next : σ → Word × σ)
      (program : Program) (gen : σ), (∀ k : Fin 16, output next gen k = g k) →
        t.Describes (programGenerate next program gen).1) ∧
    ∀ {σ σ' : Type} (next : σ → Word × σ) (next' : σ' → Word × σ') (program program' : Program)
      (gen : σ) (gen' : σ'),
      (∃ t : Layout, t.Describes (programGenerate next program gen).1 ∧
        t.Describes (programGenerate next' program' gen').1) ↔
      SameDraws (output next gen) (output next' gen') := by
  refine ⟨fun t => ⟨fun h => ?_, fun h => ?_⟩, fun next next' program program' gen gen' => ?_⟩
  · obtain ⟨g, hg⟩ := h.exists_window
    refine ⟨fun k => g k, fun next program gen hgen => ?_⟩
    rw [describes_programGenerate_iff, (SameDraws.of_words hgen).layout, hg]
  · obtain ⟨g, hg⟩ := h
    have hdescribes := hg ofSequence (.replicate 10 ⟨.halt, 0, 0, 0⟩) (windowOf g)
      fun k => (output_ofSequence (windowOf g) k).trans (windowOf_val g k)
    rw [describes_programGenerate_iff] at hdescribes
    rw [← hdescribes]
    exact buildLayout_scheduled _
  · simp only [describes_programGenerate_iff]
    constructor
    · intro hshared
      obtain ⟨t, ht, ht'⟩ := hshared
      exact .of_layout (ht.trans ht'.symm)
    · intro h
      exact ⟨_, rfl, h.layout.symm⟩

end HashWX
