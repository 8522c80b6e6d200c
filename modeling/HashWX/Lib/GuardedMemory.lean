import HashWX.Lib.ByteMemory

/-!
# Accesses under a policy

A machine state is a memory and the rest of the state. Loads and stores of words are faults where
the policy does not permit them; under a weaker one they do the same. A store changes memory only
where the policy permits it, and no access can tell memories apart that agree on the words that
may be read.
-/

namespace ByteMemory

/-! ## Memories that agree on some words -/

def SameWords (words : List (BitVec 64)) (m m' : Bytes 64) : Prop :=
  ∀ x ∈ words, ∀ a, (a - x).toNat < 8 → m a = m' a

theorem SameWords.refl (words : List (BitVec 64)) (m : Bytes 64) : SameWords words m m := fun _ _ _ _ => rfl

section SameWords

variable {words writes : List (BitVec 64)} {m m' m'' : Bytes 64}

theorem SameWords.symm (h : SameWords words m m') : SameWords words m' m := fun x hx a ha => (h x hx a ha).symm

theorem SameWords.trans (h : SameWords words m m') (h' : SameWords words m' m'') : SameWords words m m'' :=
  fun x hx a ha => (h x hx a ha).trans (h' x hx a ha)

theorem SameWords.load64 (h : SameWords words m m') {x : BitVec 64} (hx : x ∈ words) :
    load64 m x = load64 m' x := by
  refine loadLE_congr fun k hk => h x hx _ ?_
  rw [BitVec.add_comm, BitVec.add_sub_cancel, BitVec.toNat_ofNat, Nat.mod_eq_of_lt (by omega)]
  exact hk

theorem SameWords.store64 (h : SameWords words m m') (y v : BitVec 64) :
    SameWords words (store64 m y v) (store64 m' y v) := by
  intro x hx a ha
  unfold ByteMemory.store64 storeLE
  by_cases hy : (a - y).toNat < 8
  · rw [if_pos hy, if_pos hy]
  · rw [if_neg hy, if_neg hy]
    exact h x hx a ha

/-- Changes apart from the words do not show. -/
theorem SameWords.of_frame (h : Frame writes m m') (hapart : ∀ x ∈ words, ∀ y ∈ writes, Apart 8 x y) :
    SameWords words m m' := by
  intro x hx a ha
  refine (h a fun y hy => ?_).symm
  have hle := (hapart x hx y hy).le_toNat ha
  rwa [BitVec.ofNat_toNat, BitVec.setWidth_eq, BitVec.add_comm, BitVec.sub_add_cancel] at hle

end SameWords

/-! ## States with a memory -/

/-- A machine state as a memory and the rest of it, which is what a thread has for itself. -/
structure Split (σ ρ : Type) where
  join : ρ → Bytes 64 → σ
  core : σ → ρ
  mem : σ → Bytes 64
  join_eta : ∀ s, join (core s) (mem s) = s
  core_join : ∀ p m, core (join p m) = p
  mem_join : ∀ p m, mem (join p m) = m

namespace Split

variable {σ ρ : Type} (split : Split σ ρ)

def load (access : Access) (s : σ) (a : BitVec 64) : Option (BitVec 64) :=
  if access.readable a then some (load64 (split.mem s) a) else none

def store (access : Access) (s : σ) (a v : BitVec 64) : Option σ :=
  if access.writable a then some (split.join (split.core s) (store64 (split.mem s) a v)) else none

section Laws

variable {split} {access access' : Access} {s s' : σ} {a v : BitVec 64}

theorem load_eq (h : access.readable a = true) : split.load access s a = some (load64 (split.mem s) a) :=
  if_pos h

theorem store_eq (h : access.writable a = true) :
    split.store access s a v = some (split.join (split.core s) (store64 (split.mem s) a v)) := if_pos h

theorem load_mono (hle : access.Weaker access') (h : split.load access s a = some v) :
    split.load access' s a = some v := by
  obtain ⟨hr, hv⟩ := Option.ite_none_right_eq_some.mp h
  rw [load_eq (hle.readable a hr), hv]

theorem store_mono (hle : access.Weaker access') (h : split.store access s a v = some s') :
    split.store access' s a v = some s' := by
  obtain ⟨hw, hs⟩ := Option.ite_none_right_eq_some.mp h
  rw [store_eq (hle.writable a hw), hs]

variable {reads writes words : List (BitVec 64)} {m : Bytes 64}

theorem store_frame (h : split.store (.words reads writes) s a v = some s') :
    Frame writes (split.mem s) (split.mem s') := by
  obtain ⟨hw, hs⟩ := Option.ite_none_right_eq_some.mp h
  obtain rfl := Option.some.inj hs
  rw [split.mem_join]
  exact .store64 _ v (Access.writable_words.mp hw)

/-- A load does not see the rest of the memory. -/
theorem load_agree (hreads : reads ⊆ words) (hm : SameWords words (split.mem s) m)
    (h : split.load (.words reads writes) s a = some v) :
    split.load (.words reads writes) (split.join (split.core s) m) a = some v := by
  obtain ⟨hr, hv⟩ := Option.ite_none_right_eq_some.mp h
  rw [load_eq hr, split.mem_join, ← hv, hm.load64 (hreads (Access.readable_words.mp hr))]

/-- Neither does a store, and memories that agree do so behind it. -/
theorem store_agree (hm : SameWords words (split.mem s) m)
    (h : split.store (.words reads writes) s a v = some s') :
    ∃ m', split.store (.words reads writes) (split.join (split.core s) m) a v =
        some (split.join (split.core s') m') ∧ SameWords words (split.mem s') m' := by
  obtain ⟨hw, hs⟩ := Option.ite_none_right_eq_some.mp h
  obtain rfl := Option.some.inj hs
  rw [store_eq hw, split.core_join, split.mem_join, split.core_join, split.mem_join]
  exact ⟨_, rfl, hm.store64 a v⟩

end Laws

end Split

end ByteMemory
