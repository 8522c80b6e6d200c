import Mathlib.Tactic.Common

/-!
# Readers of a list

A reader takes tokens from the front of a list, or fails. The readers built here look
at nothing behind what they take, so what a reader makes of a prefix does not depend on
what follows it.
-/

namespace ListReader

variable {τ α β : Type}

abbrev Reader (τ α : Type) := StateT (List τ) Option α

/-- The next token. -/
def next : Reader τ τ
  | [] => none
  | t :: ts => some (t, ts)

def fail : Reader τ α := fun _ => none

/-- A value that may be missing. -/
def ofOption (o : Option α) : Reader τ α := fun ts => o.map fun a => (a, ts)

theorem bind_of_eq {p : Reader τ α} {ts us : List τ} {a : α} (h : p ts = some (a, us))
    (f : α → Reader τ β) : (p >>= f) ts = f a us := by
  show (p ts).bind _ = _
  rw [h]
  rfl

/-- What was taken is a prefix, and the result depends on nothing else. -/
def ReadsPrefix (p : Reader τ α) : Prop :=
  ∀ ts a us, p ts = some (a, us) → ∃ bs, ts = bs ++ us ∧ ∀ vs, p (bs ++ vs) = some (a, vs)

theorem ReadsPrefix.pure (a : α) : ReadsPrefix (pure a : Reader τ α) := by
  intro ts b us h
  obtain ⟨rfl, rfl⟩ := Prod.mk.inj (Option.some.inj h)
  exact ⟨[], rfl, fun _ => rfl⟩

theorem ReadsPrefix.next : ReadsPrefix (next : Reader τ τ) := by
  intro ts b us h
  cases ts with
  | nil => cases h
  | cons t ts =>
    obtain ⟨rfl, rfl⟩ := Prod.mk.inj (Option.some.inj h)
    exact ⟨[t], rfl, fun _ => rfl⟩

theorem ReadsPrefix.fail : ReadsPrefix (fail : Reader τ α) := by
  intro ts b us h
  cases h

theorem ReadsPrefix.ofOption (o : Option α) : ReadsPrefix (ofOption o : Reader τ α) := by
  cases o with
  | none => exact ReadsPrefix.fail
  | some a => exact ReadsPrefix.pure a

theorem ReadsPrefix.bind {p : Reader τ α} {f : α → Reader τ β} (hp : ReadsPrefix p)
    (hf : ∀ a, ReadsPrefix (f a)) : ReadsPrefix (p >>= f) := by
  intro ts b us h
  obtain ⟨⟨a, ms⟩, ha, hb⟩ := Option.bind_eq_some_iff.mp h
  obtain ⟨as, rfl, has⟩ := hp _ _ _ ha
  obtain ⟨bs, rfl, hbs⟩ := hf a _ _ _ hb
  refine ⟨as ++ bs, (List.append_assoc as bs us).symm, fun vs => ?_⟩
  rw [List.append_assoc]
  exact Option.bind_eq_some_iff.mpr ⟨(a, bs ++ vs), has _, hbs vs⟩

theorem ReadsPrefix.ite {c : Prop} [Decidable c] {p q : Reader τ α} (hp : ReadsPrefix p)
    (hq : ReadsPrefix q) : ReadsPrefix (if c then p else q) := by
  split
  · exact hp
  · exact hq

/-- The reader repeated. -/
def times (p : Reader τ α) : Nat → Reader τ (List α)
  | 0 => pure []
  | n + 1 => do
    let a ← p
    let as ← times p n
    return a :: as

end ListReader
