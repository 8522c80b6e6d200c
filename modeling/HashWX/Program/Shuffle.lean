import HashWX.Program.Layout

/-!
# The destination shuffle as a bijection

`gen_destinations` maps the vectors of residues one to one onto the permutations of
the eight registers: `InsideOut.product_injective` undoes the last transposition,
and `InsideOut.product_surjective` finds it.
-/

namespace HashWX

open ForLoop OutputStream Siphash

/-- `select[i - 1] % (i + 1)` for the loop indices 1 to 7. -/
def residue (select : Fin 7 → BitVec 32) (i : Fin 7) : Nat := (select i).toNat % (i.val + 2)

theorem shuffleIndex_inPrefix (select : Fin 7 → BitVec 32) :
    InsideOut.InPrefix (shuffleIndex select) := by
  intro i
  have h := Nat.mod_lt (select i).toNat (y := i.val + 2) (by omega)
  show residue select i ≤ i + 1
  unfold residue
  omega

theorem destPerm_product (select : Fin 7 → BitVec 32) :
    destPerm select = InsideOut.product Fin.succ (shuffleIndex select) := rfl

theorem shuffleIndex_eq_iff (s t : Fin 7 → BitVec 32) :
    shuffleIndex s = shuffleIndex t ↔ ∀ i, residue s i = residue t i := by
  constructor
  · intro h i
    exact congrArg Fin.val (congrFun h i)
  · intro h
    funext i
    exact Fin.ext (h i)

theorem destPerm_eq_iff (s t : Fin 7 → BitVec 32) :
    destPerm s = destPerm t ↔ ∀ i, residue s i = residue t i := by
  rw [← shuffleIndex_eq_iff]
  constructor
  · intro h
    rw [destPerm_product, destPerm_product] at h
    exact InsideOut.product_injective (fun i => Fin.val_succ i) (shuffleIndex_inPrefix s)
      (shuffleIndex_inPrefix t) h
  · intro h
    rw [destPerm_product, destPerm_product, h]

/-- A selection is the residue vector of the select words that hold it. -/
theorem exists_destPerm (σ : Equiv.Perm (Fin 8)) : ∃ select, destPerm select = σ := by
  obtain ⟨j, hj, hσ⟩ := InsideOut.product_surjective (x := (Fin.succ : Fin 7 → Fin 8))
    (fun i => Fin.val_succ i) σ fun y hy => absurd y.isLt (by omega)
  refine ⟨fun i => BitVec.ofNat 32 (j i).val, ?_⟩
  rw [destPerm_product, ← hσ]
  congr 1
  funext i
  apply Fin.ext
  have hle := hj i
  have hlt : (j i).val < 2 ^ 32 := by omega
  show (BitVec.ofNat 32 (j i).val).toNat % (i.val + 2) = (j i).val
  rw [BitVec.toNat_ofNat, Nat.mod_eq_of_lt hlt, Nat.mod_eq_of_lt (by omega)]

theorem genDestinations_eq_iff (dst : Vector Nat 8) (select : Fin 7 → BitVec 32)
    (σ : Equiv.Perm (Fin 8)) :
    (∀ i : Fin 8, (genDestinations dst select)[i] = (σ i).val) ↔ destPerm select = σ := by
  constructor
  · intro h
    apply Equiv.ext
    intro i
    apply Fin.ext
    rw [← genDestinations_eq dst, h]
  · rintro rfl i
    exact genDestinations_eq dst select i

/-- Where `program_generate` leaves the instruction of a slot: slot 7 makes room for the
branch. -/
def finalIndex (i : Fin 8) : Fin 10 := if i = 7 then 8 else slot i

theorem programGenerate_dst {σ : Type} (next : σ → Word × σ) (program : Program) (gen : σ)
    (i : Fin 8) : ((programGenerate next program gen).1[finalIndex i]).dst =
      (genDestinations (.replicate 8 0) (buildSelect (output next gen)))[i] := by
  rw [programGenerate_eq]
  match i with
  | 0 | 1 | 2 | 3 | 4 | 5 | 6 | 7 => rfl

/-- Every permutation of the registers is reached, and two select vectors give the same one
exactly when their residues agree; so the registers of a generated program are a given
permutation exactly for one vector of residues of its first seven words. -/
theorem genDestinations_bijective :
    (∀ (dst : Vector Nat 8) (σ : Equiv.Perm (Fin 8)), ∃ select : Fin 7 → BitVec 32,
      ∀ i : Fin 8, (genDestinations dst select)[i] = (σ i).val) ∧
    (∀ (dst dst' : Vector Nat 8) (s t : Fin 7 → BitVec 32),
      genDestinations dst s = genDestinations dst' t ↔
        ∀ i : Fin 7, (s i).toNat % (i.val + 2) = (t i).toNat % (i.val + 2)) ∧
    (∀ σ : Equiv.Perm (Fin 8), ∃ r : Fin 7 → Nat, (∀ i, r i < i.val + 2) ∧
      ∀ {S : Type} (next : S → Word × S) (program : Program) (gen : S),
        (∀ i : Fin 8, ((programGenerate next program gen).1[finalIndex i]).dst = (σ i).val) ↔
          ∀ i : Fin 7, (selectHi (output next gen i)).toNat % (i.val + 2) = r i) := by
  refine ⟨fun dst σ => ?_, fun dst dst' s t => ?_, fun σ => ?_⟩
  · obtain ⟨select, h⟩ := exists_destPerm σ
    exact ⟨select, (genDestinations_eq_iff dst select σ).mpr h⟩
  · have h := destPerm_eq_iff s t
    unfold residue at h
    rw [← h, eq_comm (a := destPerm s), ← genDestinations_eq_iff dst']
    constructor
    · intro he i
      rw [← he, genDestinations_eq]
    · intro he
      apply Vector.ext
      intro i hi
      exact (genDestinations_eq dst s ⟨i, hi⟩).trans (he ⟨i, hi⟩).symm
  · obtain ⟨select, h⟩ := exists_destPerm σ
    refine ⟨residue select, fun i => Nat.mod_lt _ (by omega), fun next program gen => ?_⟩
    simp only [programGenerate_dst]
    rw [genDestinations_eq_iff, ← h, destPerm_eq_iff]
    constructor
    · intro he i
      rw [← he i]
      match i with
      | 0 | 1 | 2 | 3 | 4 | 5 | 6 => rfl
    · intro he i
      rw [← he i]
      match i with
      | 0 | 1 | 2 | 3 | 4 | 5 | 6 => rfl

end HashWX
