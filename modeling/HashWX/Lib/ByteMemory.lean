import Mathlib.Data.BitVec
import Mathlib.Tactic.Common

/-!
# Byte-addressed memory

A memory of `2 ^ w` bytes with little-endian loads and stores of several bytes.
Addresses wrap around, so two accesses are apart when the distance is large enough
in both directions.
-/

namespace ByteMemory

variable {w n : Nat}

abbrev Bytes (w : Nat) := BitVec w → BitVec 8

/-- The `n` bytes from `a` upwards, the first one least significant. -/
def loadLE (m : Bytes w) (a : BitVec w) : (n : Nat) → BitVec (8 * n)
  | 0 => 0
  | n + 1 => loadLE m (a + 1) n ++ m a

def storeLE (m : Bytes w) (a : BitVec w) (v : BitVec (8 * n)) : Bytes w := fun x =>
  if (x - a).toNat < n then v.extractLsb' (8 * (x - a).toNat) 8 else m x

/-- Accesses of `n` bytes at the two addresses have no byte in common. -/
def Apart (n : Nat) (a b : BitVec w) : Prop := n ≤ (a - b).toNat ∧ n ≤ (b - a).toNat

theorem Apart.symm {a b : BitVec w} (h : Apart n a b) : Apart n b a := ⟨h.2, h.1⟩

theorem getLsbD_loadLE (m : Bytes w) {i : Nat} :
    ∀ {n : Nat} {a : BitVec w}, i < 8 * n →
      (loadLE m a n).getLsbD i = (m (a + BitVec.ofNat w (i / 8))).getLsbD (i % 8) := by
  intro n
  induction n generalizing i with
  | zero => intro a hi; omega
  | succ n ih =>
    intro a hi
    rw [loadLE, BitVec.getLsbD_append]
    by_cases h8 : i < 8
    · rw [if_pos h8, Nat.div_eq_of_lt h8, Nat.mod_eq_of_lt h8, BitVec.add_zero]
    · have hdiv : BitVec.ofNat w (i / 8) = 1 + BitVec.ofNat w ((i - 8) / 8) := by
        have hq : i / 8 = 1 + (i - 8) / 8 := by omega
        rw [hq, BitVec.ofNat_add]
        rfl
      have hmod : (i - 8) % 8 = i % 8 := by omega
      rw [if_neg h8, ih (by omega), hmod, hdiv, BitVec.add_assoc]

/-- Loads read nothing but their bytes. -/
theorem loadLE_congr {m m' : Bytes w} {a : BitVec w}
    (h : ∀ k < n, m (a + BitVec.ofNat w k) = m' (a + BitVec.ofNat w k)) :
    loadLE m a n = loadLE m' a n := by
  apply BitVec.eq_of_getLsbD_eq
  intro i hi
  rw [getLsbD_loadLE m hi, getLsbD_loadLE m' hi, h (i / 8) (by omega)]

theorem loadLE_storeLE (m : Bytes w) (a : BitVec w) (v : BitVec (8 * n)) (hn : n ≤ 2 ^ w) :
    loadLE (storeLE m a v) a n = v := by
  apply BitVec.eq_of_getLsbD_eq
  intro i hi
  have hk : (a + BitVec.ofNat w (i / 8) - a).toNat = i / 8 := by
    rw [BitVec.add_comm, BitVec.add_sub_cancel, BitVec.toNat_ofNat]
    exact Nat.mod_eq_of_lt (by omega)
  have hsum : 8 * (i / 8) + i % 8 = i := Nat.div_add_mod i 8
  have hlt : i % 8 < 8 := Nat.mod_lt _ (by decide)
  rw [getLsbD_loadLE _ hi, storeLE, hk, if_pos (by omega), BitVec.getLsbD_extractLsb', hsum,
    decide_eq_true hlt, Bool.true_and]

/-- A byte outside the range of a store keeps its value. -/
theorem storeLE_of_le (m : Bytes w) {a x : BitVec w} (v : BitVec (8 * n)) (h : n ≤ (x - a).toNat) :
    storeLE m a v x = m x := if_neg (Nat.not_lt.mpr h)

theorem Apart.le_toNat {a b : BitVec w} (h : Apart n a b) {k : Nat} (hk : k < n) :
    n ≤ (a + BitVec.ofNat w k - b).toNat := by
  obtain ⟨hab, hba⟩ := h
  rw [← neg_sub a b] at hba
  rw [add_sub_right_comm]
  generalize a - b = x at hab hba ⊢
  have hpos : 0 < x.toNat := by omega
  rw [BitVec.toNat_neg_of_pos hpos] at hba
  have hlt := x.isLt
  have hkw : k < 2 ^ w := by omega
  have hsum : x.toNat + k < 2 ^ w := by omega
  rw [BitVec.toNat_add, BitVec.toNat_ofNat, Nat.mod_eq_of_lt hkw, Nat.mod_eq_of_lt hsum]
  omega

theorem loadLE_storeLE_of_apart (m : Bytes w) {a b : BitVec w} (v : BitVec (8 * n))
    (h : Apart n a b) : loadLE (storeLE m b v) a n = loadLE m a n :=
  loadLE_congr fun _ hk => storeLE_of_le m v (h.le_toNat hk)

/-! ## Words of 64 bits -/

def load64 (m : Bytes w) (a : BitVec w) : BitVec 64 := loadLE m a 8

def store64 (m : Bytes w) (a : BitVec w) (v : BitVec 64) : Bytes w := storeLE (n := 8) m a v

theorem load64_store64 (m : Bytes w) (a : BitVec w) (v : BitVec 64) (hw : 8 ≤ 2 ^ w) :
    load64 (store64 m a v) a = v := loadLE_storeLE (n := 8) m a v hw

theorem load64_store64_of_apart (m : Bytes w) {a b : BitVec w} (v : BitVec 64)
    (h : Apart 8 a b) : load64 (store64 m b v) a = load64 m a :=
  loadLE_storeLE_of_apart (n := 8) m v h

/-- Where a word of eight bytes may be read and written. -/
structure Access where
  readable : BitVec 64 → Bool
  writable : BitVec 64 → Bool

/-- The second policy permits what the first one permits. -/
structure Access.Weaker (access access' : Access) : Prop where
  readable : ∀ a, access.readable a = true → access'.readable a = true
  writable : ∀ a, access.writable a = true → access'.writable a = true

/-- Only the listed words may be read and written. -/
def Access.words (reads writes : List (BitVec 64)) : Access :=
  ⟨fun a => decide (a ∈ reads), fun a => decide (a ∈ writes)⟩

theorem Access.readable_words {reads writes : List (BitVec 64)} {a : BitVec 64} :
    (Access.words reads writes).readable a = true ↔ a ∈ reads := decide_eq_true_iff

theorem Access.writable_words {reads writes : List (BitVec 64)} {a : BitVec 64} :
    (Access.words reads writes).writable a = true ↔ a ∈ writes := decide_eq_true_iff

theorem Access.weaker_words {reads writes reads' writes' : List (BitVec 64)} (hr : reads ⊆ reads')
    (hw : writes ⊆ writes') : (Access.words reads writes).Weaker (.words reads' writes') where
  readable _ h := readable_words.mpr (hr (readable_words.mp h))
  writable _ h := writable_words.mpr (hw (writable_words.mp h))

/-- No byte outside of the listed words has changed. -/
def Frame (writes : List (BitVec 64)) (m m' : Bytes 64) : Prop :=
  ∀ a, (∀ x ∈ writes, 8 ≤ (a - x).toNat) → m' a = m a

theorem Frame.refl (writes : List (BitVec 64)) (m : Bytes 64) : Frame writes m m := fun _ _ => rfl

theorem Frame.trans {writes : List (BitVec 64)} {m m' m'' : Bytes 64} (h : Frame writes m m')
    (h' : Frame writes m' m'') : Frame writes m m'' := fun a ha => (h' a ha).trans (h a ha)

theorem Frame.store64 {writes : List (BitVec 64)} (m : Bytes 64) {x : BitVec 64} (v : BitVec 64)
    (hx : x ∈ writes) : Frame writes m (store64 m x v) := fun _ ha =>
  storeLE_of_le (n := 8) m v (ha x hx)

/-! ## Arrays of words -/

/-- The address of word `i` of an array. -/
def wordAddr (base : BitVec w) (i : Nat) : BitVec w := base + BitVec.ofNat w (8 * i)

/-- Different words of one array are apart, if it does not wrap around. -/
theorem apart_wordAddr (base : BitVec w) {i j : Nat} (hij : i ≠ j) (hi : 8 * (i + 1) ≤ 2 ^ w)
    (hj : 8 * (j + 1) ≤ 2 ^ w) : Apart 8 (wordAddr base i) (wordAddr base j) := by
  have hdist (i d : Nat) (hd : 0 < d) (hj : 8 * (i + d + 1) ≤ 2 ^ w) :
      Apart 8 (wordAddr base (i + d)) (wordAddr base i) := by
    have hsub : wordAddr base (i + d) - wordAddr base i = BitVec.ofNat w (8 * d) := by
      rw [wordAddr, wordAddr, add_sub_add_left_eq_sub, Nat.mul_add, Nat.add_comm, BitVec.ofNat_add,
        BitVec.add_sub_cancel]
    have hval : (wordAddr base (i + d) - wordAddr base i).toNat = 8 * d := by
      rw [hsub, BitVec.toNat_ofNat, Nat.mod_eq_of_lt (by omega)]
    have hpos : 0 < (wordAddr base (i + d) - wordAddr base i).toNat := by omega
    refine ⟨by omega, ?_⟩
    rw [← neg_sub, BitVec.toNat_neg_of_pos hpos]
    omega
  rcases Nat.lt_or_gt_of_ne hij with h | h
  · obtain ⟨d, rfl⟩ := Nat.exists_eq_add_of_lt h
    exact (hdist i (d + 1) (Nat.succ_pos d) hj).symm
  · obtain ⟨d, rfl⟩ := Nat.exists_eq_add_of_lt h
    exact hdist j (d + 1) (Nat.succ_pos d) hi

/-- A store to one word of an array leaves the others. -/
theorem load64_store64_word (m : Bytes w) (base : BitVec w) (v : BitVec 64) {i j : Nat}
    (hij : i ≠ j) (hi : 8 * (i + 1) ≤ 2 ^ w) (hj : 8 * (j + 1) ≤ 2 ^ w) :
    load64 (store64 m (wordAddr base i) v) (wordAddr base j) = load64 m (wordAddr base j) :=
  load64_store64_of_apart m v (apart_wordAddr base hij.symm hj hi)

theorem wordAddr_zero (base : BitVec w) : wordAddr base 0 = base := BitVec.add_zero base

/-- The words `lo` to `lo + n - 1` of an array. -/
def wordsFrom (base : BitVec w) (lo n : Nat) : List (BitVec w) := (List.range' lo n).map (wordAddr base)

theorem mem_wordsFrom (base : BitVec w) {lo n i : Nat} (hlo : lo ≤ i) (hi : i < lo + n) :
    wordAddr base i ∈ wordsFrom base lo n := List.mem_map_of_mem (List.mem_range'_1.mpr ⟨hlo, hi⟩)

theorem mem_wordsFrom_iff {base a : BitVec w} {lo n : Nat} :
    a ∈ wordsFrom base lo n ↔ ∃ i, lo ≤ i ∧ i < lo + n ∧ a = wordAddr base i := by
  simp only [wordsFrom, List.mem_map, List.mem_range'_1, and_assoc, eq_comm]

theorem wordAddr_succ (base : BitVec w) (i : Nat) :
    wordAddr base (i + 1) = wordAddr base i + BitVec.ofNat w 8 := by
  rw [wordAddr, wordAddr, Nat.mul_add, Nat.mul_one, BitVec.ofNat_add, BitVec.add_assoc]

theorem wordAddr_add (base : BitVec w) (i j : Nat) :
    wordAddr (wordAddr base i) j = wordAddr base (i + j) := by
  rw [wordAddr, wordAddr, wordAddr, Nat.mul_add, BitVec.ofNat_add, BitVec.add_assoc]

/-- A stack that grows downwards in an array of words: the values are stored below index
`n`, the first one at the top. -/
def pushWords (base : BitVec w) : Nat → List (BitVec 64) → Bytes w → Bytes w
  | n + 1, v :: vs, m => pushWords base n vs (store64 m (wordAddr base n) v)
  | _, _, m => m

/-- Loads that are apart from the pushed words are not affected. -/
theorem load64_pushWords_of_apart {base : BitVec w} {a : BitVec w} {vs : List (BitVec 64)} :
    ∀ {n : Nat} {m : Bytes w}, (∀ k, n ≤ k + vs.length → k < n → Apart 8 a (wordAddr base k)) →
      load64 (pushWords base n vs m) a = load64 m a := by
  induction vs with
  | nil => intro n m _; cases n <;> rfl
  | cons v vs ih =>
    intro n m h
    cases n with
    | zero => rfl
    | succ n =>
      rw [pushWords, ih fun k hk hkn => h k (by rw [List.length_cons]; omega) (by omega),
        load64_store64_of_apart m v (h n (by rw [List.length_cons]; omega) (Nat.lt_succ_self n))]

theorem load64_pushWords (base : BitVec w) (vs : List (BitVec 64)) :
    ∀ (n : Nat) (m : Bytes w), vs.length ≤ n → 8 * n ≤ 2 ^ w → ∀ {j : Nat} (hj : j < vs.length),
      load64 (pushWords base n vs m) (wordAddr base (n - 1 - j)) = vs[j] := by
  induction vs with
  | nil => intro n m _ _ j hj; cases hj
  | cons v vs ih =>
    intro n m hlen hn j hj
    rw [List.length_cons] at hlen hj
    obtain ⟨n, rfl⟩ := Nat.exists_eq_succ_of_ne_zero (show n ≠ 0 by omega)
    cases j with
    | zero =>
      rw [pushWords, Nat.succ_sub_one, Nat.sub_zero, load64_pushWords_of_apart
        fun k _ hk => apart_wordAddr base (Nat.ne_of_gt hk) (by omega) (by omega)]
      exact load64_store64 m _ v (by omega)
    | succ j =>
      have hidx : n + 1 - 1 - (j + 1) = n - 1 - j := by omega
      rw [pushWords, hidx, List.getElem_cons_succ]
      exact ih _ _ (by omega) (by omega) (by omega)

/-- The last word of a stack. -/
theorem pushWords_concat (base : BitVec w) (vs : List (BitVec 64)) (v : BitVec 64) (n : Nat)
    (m : Bytes w) : pushWords base (n + 1 + vs.length) (vs ++ [v]) m =
      store64 (pushWords base (n + 1 + vs.length) vs m) (wordAddr base n) v := by
  induction vs generalizing m with
  | nil => cases n <;> rfl
  | cons x vs ih => exact ih _

/-- Stores to several words of an array, one after the other. -/
def storeWords (base : BitVec w) (xs : List (BitVec 64 × Nat)) (m : Bytes w) : Bytes w :=
  xs.foldl (fun m x => store64 m (wordAddr base x.2) x.1) m

theorem storeWords_append (base : BitVec w) (xs ys : List (BitVec 64 × Nat)) (m : Bytes w) :
    storeWords base (xs ++ ys) m = storeWords base ys (storeWords base xs m) := List.foldl_append

theorem load64_storeWords_of_apart {base a : BitVec w} {xs : List (BitVec 64 × Nat)} :
    ∀ {m : Bytes w}, (∀ x ∈ xs, Apart 8 a (wordAddr base x.2)) →
      load64 (storeWords base xs m) a = load64 m a := by
  induction xs with
  | nil => exact fun _ => rfl
  | cons x xs ih =>
    intro m h
    exact (ih fun y hy => h y (List.mem_cons_of_mem _ hy)).trans
      (load64_store64_of_apart m _ (h x List.mem_cons_self))

theorem load64_storeWords (base : BitVec w) {xs : List (BitVec 64 × Nat)}
    (hnd : (xs.map Prod.snd).Nodup) (hlt : ∀ x ∈ xs, 8 * (x.2 + 1) ≤ 2 ^ w) :
    ∀ {m : Bytes w}, ∀ x ∈ xs, load64 (storeWords base xs m) (wordAddr base x.2) = x.1 := by
  induction xs with
  | nil => exact fun _ h => absurd h List.not_mem_nil
  | cons x xs ih =>
    intro m y hy
    obtain ⟨hx, hnd'⟩ := List.nodup_cons.mp hnd
    have hlt' := fun z hz => hlt z (List.mem_cons_of_mem x hz)
    rcases List.mem_cons.mp hy with rfl | hy
    · have hbound := hlt y List.mem_cons_self
      have hapart : ∀ z ∈ xs, Apart 8 (wordAddr base y.2) (wordAddr base z.2) := fun z hz =>
        apart_wordAddr base (fun h => hx (h ▸ List.mem_map_of_mem hz)) hbound (hlt' z hz)
      exact (load64_storeWords_of_apart hapart).trans (load64_store64 m _ _ (by omega))
    · exact ih hnd' hlt' y hy

/-- The stores of a whole array. -/
def storeArray (base : BitVec w) (f : Fin n → BitVec 64) (m : Bytes w) : Bytes w :=
  storeWords base (List.ofFn fun k : Fin n => (f k, k.val)) m

theorem load64_storeArray (base : BitVec w) (f : Fin n → BitVec 64) (m : Bytes w) (hn : 8 * n ≤ 2 ^ w)
    (k : Fin n) : load64 (storeArray base f m) (wordAddr base k) = f k := by
  let words : List (BitVec 64 × Nat) := List.ofFn fun k : Fin n => (f k, k.val)
  have hnd : (words.map Prod.snd).Nodup := by
    rw [List.map_ofFn]
    exact List.nodup_ofFn.mpr Fin.val_injective
  have hlt (x : BitVec 64 × Nat) (hx : x ∈ words) : 8 * (x.2 + 1) ≤ 2 ^ w := by
    obtain ⟨j, rfl⟩ := List.mem_ofFn.mp hx
    exact le_trans (Nat.mul_le_mul_left 8 j.isLt) hn
  have hload := @load64_storeWords w base words hnd hlt m (f k, k.val) (List.mem_ofFn.mpr ⟨k, rfl⟩)
  exact hload

/-- Loads that are apart from the array are not affected. -/
theorem load64_storeArray_of_apart {base a : BitVec w} (f : Fin n → BitVec 64) (m : Bytes w)
    (ha : ∀ k < n, Apart 8 a (wordAddr base k)) :
    load64 (storeArray base f m) a = load64 m a := by
  refine load64_storeWords_of_apart fun x hx => ?_
  obtain ⟨k, rfl⟩ := List.mem_ofFn.mp hx
  exact ha k k.isLt

end ByteMemory
