import HashWX.Lib.CodeMachine
import HashWX.Lib.GuardedMemory
import HashWX.Lib.Interleave

/-!
# Code that runs on several threads

The memory of a machine is the common one, and the rest of its state, with the place in the code,
belongs to a thread. A machine that reads and writes listed words only cannot tell memories apart
that agree there, so threads whose words are apart from what the others write are separated.
-/

namespace CodeMachine

open ByteMemory Interleave WeightedRun

/-! ## Machines under a policy -/

namespace Isa

variable {ι σ ρ : Type}

/-- The machine does the same under a weaker policy, changes memory only where the policy permits it,
and cannot tell memories apart that agree on the words that it may read. -/
structure Policed (isa : Access → Isa ι σ) (split : Split σ ρ) : Prop where
  decode : ∀ access access', (isa access').decode = (isa access).decode
  mono : ∀ {access access' i s next s'}, access.Weaker access' →
    (isa access).exec i s = some (next, s') → (isa access').exec i s = some (next, s')
  frame : ∀ {reads writes i s next s'}, (isa (.words reads writes)).exec i s = some (next, s') →
    Frame writes (split.mem s) (split.mem s')
  agree : ∀ {reads writes words i s next s' m}, reads ⊆ words → SameWords words (split.mem s) m →
    (isa (.words reads writes)).exec i s = some (next, s') →
    ∃ m', (isa (.words reads writes)).exec i (split.join (split.core s) m) =
      some (next, split.join (split.core s') m') ∧ SameWords words (split.mem s') m'

section Policed

variable {isa : Access → Isa ι σ} {split : Split σ ρ} (h : Policed isa split) {code : List Byte} {n : Nat}
  {c c' : Config σ}
include h

theorem Policed.runs_mono {access access' : Access} (hle : access.Weaker access')
    (hruns : (isa access).Runs code n c c') : (isa access').Runs code n c c' :=
  Isa.runs_mono (h.decode access access') (fun _ _ _ _ hexec => h.mono hle hexec) hruns

theorem Policed.runs_frame {reads writes : List (BitVec 64)}
    (hruns : (isa (.words reads writes)).Runs code n c c') :
    Frame writes (split.mem c.state) (split.mem c'.state) :=
  runs_related (fun s => .refl writes (split.mem s)) (fun _ _ _ hfirst hrest => hfirst.trans hrest)
    (fun _ _ _ _ hexec => h.frame hexec) hruns

end Policed

end Isa

/-! ## Threads -/

namespace Isa

variable {ι σ ρ : Type}

/-- A thread that runs code. -/
def thread (isa : Isa ι σ) (split : Split σ ρ) (code : List Byte) : Step (Config ρ) (Bytes 64) :=
  fun c m => (isa.step code ⟨c.control, split.join c.state m⟩).map fun c' =>
    (⟨c'.control, split.core c'.state⟩, split.mem c'.state)

/-- The words that the instructions look at, and the ones that they change. -/
structure Footprint (isa : Isa ι σ) (split : Split σ ρ) (words writes : List (BitVec 64)) : Prop where
  insensitive : ∀ {i s next s' m}, isa.exec i s = some (next, s') → SameWords words (split.mem s) m →
    ∃ m', isa.exec i (split.join (split.core s) m) = some (next, split.join (split.core s') m') ∧
      SameWords words (split.mem s') m'
  frame : ∀ {i s next s'}, isa.exec i s = some (next, s') → Frame writes (split.mem s) (split.mem s')

/-- The words that a policy lists are the footprint of the machine. -/
theorem Policed.footprint {isa : Access → Isa ι σ} {split : Split σ ρ} (h : Policed isa split)
    {reads writes words : List (BitVec 64)} (hreads : reads ⊆ words) :
    (isa (.words reads writes)).Footprint split words writes where
  insensitive hexec hm := h.agree hreads hm hexec
  frame := h.frame

section Footprint

variable {isa : Isa ι σ} {split : Split σ ρ} {words writes : List (BitVec 64)} {code : List Byte}
  (h : isa.Footprint split words writes)

theorem thread_eq_some {c c' : Config ρ} {m m' : Bytes 64} :
    isa.thread split code c m = some (c', m') ↔
      isa.step code ⟨c.control, split.join c.state m⟩ = some ⟨c'.control, split.join c'.state m'⟩ := by
  unfold thread
  rw [Option.map_eq_some_iff]
  constructor
  · rintro ⟨⟨control, s⟩, hstep, heq⟩
    obtain ⟨rfl, rfl⟩ := Prod.mk.inj heq
    rw [hstep, split.join_eta]
  · intro hstep
    refine ⟨_, hstep, ?_⟩
    rw [split.core_join, split.mem_join]

theorem step_eq_some {c c' : Config σ} : isa.step code c = some c' ↔ ∃ pc i following next control,
    c.control = .inside pc ∧ isa.fetch code pc = some (i, following) ∧
      isa.exec i c.state = some (next, c'.state) ∧ advance following next = some control ∧
      c'.control = control := by
  obtain ⟨pc | target, s⟩ := c
  · simp only [step, Option.bind_eq_bind, Option.bind_eq_some_iff]
    constructor
    · rintro ⟨⟨i, following⟩, hfetch, ⟨next, s'⟩, hexec, control, hcontrol, heq⟩
      obtain rfl := Option.some.inj heq
      exact ⟨pc, i, following, next, control, rfl, hfetch, hexec, hcontrol, rfl⟩
    · rintro ⟨_, i, following, next, control, hpc, hfetch, hexec, hcontrol, heq⟩
      obtain rfl := Control.inside.inj hpc
      obtain ⟨control', s'⟩ := c'
      obtain rfl := heq
      exact ⟨_, hfetch, _, hexec, _, hcontrol, rfl⟩
  · constructor
    · exact fun hstep => absurd hstep (by simp [step])
    · rintro ⟨pc, i, following, next, control, hpc, -⟩
      cases hpc

/-- A thread does the same under a weaker policy. -/
theorem Policed.thread_mono {isa : Access → Isa ι σ} (h : Policed isa split) {access access' : Access}
    (hle : access.Weaker access') {c c' : Config ρ} {m m' : Bytes 64}
    (hstep : (isa access).thread split code c m = some (c', m')) :
    (isa access').thread split code c m = some (c', m') := by
  obtain ⟨pc, i, following, next, control, hpc, hfetch, hexec, hcontrol, hc'⟩ :=
    step_eq_some.mp (thread_eq_some.mp hstep)
  have hfetch' : (isa access').fetch code pc = some (i, following) := by
    rw [← hfetch, fetch, fetch, h.decode access access']
  exact thread_eq_some.mpr (step_eq_some.mpr
    ⟨pc, i, following, next, control, hpc, hfetch', h.mono hle hexec, hcontrol, hc'⟩)

include h

theorem Footprint.thread_insensitive {c c' : Config ρ} {m m' n : Bytes 64}
    (hstep : isa.thread split code c m = some (c', m')) (hmn : SameWords words m n) :
    ∃ n', isa.thread split code c n = some (c', n') ∧ SameWords words m' n' := by
  obtain ⟨pc, i, following, next, control, hpc, hfetch, hexec, hcontrol, hc'⟩ :=
    step_eq_some.mp (thread_eq_some.mp hstep)
  have hagree : SameWords words (split.mem (split.join c.state m)) n := by rwa [split.mem_join]
  obtain ⟨n', hexec', hagree'⟩ := h.insensitive hexec hagree
  rw [split.core_join, split.core_join] at hexec'
  rw [split.mem_join] at hagree'
  exact ⟨n', thread_eq_some.mpr (step_eq_some.mpr
    ⟨pc, i, following, next, control, hpc, hfetch, hexec', hcontrol, hc'⟩), hagree'⟩

theorem Footprint.thread_frame {c c' : Config ρ} {m m' : Bytes 64}
    (hstep : isa.thread split code c m = some (c', m')) : Frame writes m m' := by
  obtain ⟨pc, i, following, next, control, -, -, hexec, -⟩ := step_eq_some.mp (thread_eq_some.mp hstep)
  have hframe := h.frame hexec
  rwa [split.mem_join, split.mem_join] at hframe

end Footprint

/-- Threads are separated if the words of each are apart from what the others write. -/
theorem separated {κ : Type*} {isa : κ → Isa ι σ} {split : Split σ ρ} {code : κ → List Byte}
    {words writes : κ → List (BitVec 64)} (h : ∀ t, (isa t).Footprint split (words t) (writes t))
    (hapart : ∀ t u, t ≠ u → ∀ x ∈ words t, ∀ y ∈ writes u, Apart 8 x y) :
    Separated (fun t => (isa t).thread split (code t)) fun t => SameWords (words t) where
  refl t m := .refl (words t) m
  symm hagree := hagree.symm
  trans hagree hagree' := hagree.trans hagree'
  insensitive hstep hagree := (h _).thread_insensitive hstep hagree
  others hne hstep := .of_frame ((h _).thread_frame hstep) (hapart _ _ hne)

/-- A run that leaves the code is a thread that ends. -/
theorem thread_ends {isa : Isa ι σ} (split : Split σ ρ) {code : List Byte} {n : Nat} {pc : Nat}
    {s s' : σ} {target : BitVec 64} (h : isa.Runs code n ⟨.inside pc, s⟩ ⟨.outside target, s'⟩) :
    ∃ k, Ends (isa.thread split code) ⟨.inside pc, split.core s⟩ (split.mem s) k
      ⟨.outside target, split.core s'⟩ (split.mem s') := by
  have hsolo {c c' : Config σ} {n : Nat} (h : isa.Runs code n c c') : ∃ k,
      solo (isa.thread split code) k ⟨c.control, split.core c.state⟩ (split.mem c.state) =
        some (⟨c'.control, split.core c'.state⟩, split.mem c'.state) := by
    induction h with
    | refl c => exact ⟨0, rfl⟩
    | @head _ a b _ hstep _ ih =>
      obtain ⟨k, hk⟩ := ih
      have hthread : isa.thread split code ⟨a.control, split.core a.state⟩ (split.mem a.state) =
          some (⟨b.control, split.core b.state⟩, split.mem b.state) := by
        rw [thread_eq_some, split.join_eta, split.join_eta]
        exact hstep
      refine ⟨k + 1, ?_⟩
      rw [solo, hthread, Option.bind_some]
      exact hk
  obtain ⟨k, hk⟩ := hsolo h
  exact ⟨k, hk, fun m => rfl⟩

end Isa

end CodeMachine
