import Mathlib.Tactic.Common

/-!
# Sessions with a device

A device holds a value, which one kind of call replaces and another kind queries. Both kinds
meet an environment that nobody controls. If every answer is decided by the value and the
query, and by nothing else that the device holds or meets, then in any session the device
answers like a new one that has seen the last value only.
-/

namespace Session

variable {σ ι α κ β ω : Type*}

inductive Call (ι α κ β : Type*)
  | make (x : ι) (env : α)
  | query (q : κ) (env : β)

/-- The results of the calls; one that fails has none. Queries leave the device as it is. -/
structure Device (σ ι α κ β ω : Type*) where
  make : σ → ι → α → σ → Prop
  query : σ → κ → β → ω → Prop

/-- The device in environments that are granted. -/
def Device.restrict (d : Device σ ι α κ β ω) (granted : α → Prop) : Device σ ι α κ β ω where
  make s x env s' := granted env ∧ d.make s x env s'
  query := d.query

/-- An answer, with the query and the value that was put into the device last. -/
structure Answer (ι κ ω : Type*) where
  last : ι
  query : κ
  value : ω

/-- The calls of a session and their answers; `x` is the last value so far. -/
inductive Runs (d : Device σ ι α κ β ω) :
    σ → ι → List (Call ι α κ β) → List (Answer ι κ ω) → σ → Prop
  | nil {s : σ} {x : ι} : Runs d s x [] [] s
  | make {s s' s'' : σ} {x y : ι} {env : α} {calls : List (Call ι α κ β)}
      {answers : List (Answer ι κ ω)} : d.make s y env s' → Runs d s' y calls answers s'' →
        Runs d s x (.make y env :: calls) answers s''
  | query {s s' : σ} {x : ι} {q : κ} {env : β} {v : ω} {calls : List (Call ι α κ β)}
      {answers : List (Answer ι κ ω)} : d.query s q env v → Runs d s x calls answers s' →
        Runs d s x (.query q env :: calls) (⟨x, q, v⟩ :: answers) s'

/-- No `make` of the session meets an environment that could make it fail. -/
def AllGranted (granted : α → Prop) (calls : List (Call ι α κ β)) : Prop :=
  ∀ x env, Call.make x env ∈ calls → granted env

section Rules

variable {d : Device σ ι α κ β ω} {holds serves : σ → ι → Prop} {value : ι → κ → ω}
  {granted : α → Prop}

/-- No answer is wrong. -/
structure Correct (d : Device σ ι α κ β ω) (holds : σ → ι → Prop) (value : ι → κ → ω) : Prop where
  make : ∀ {s x env s'}, d.make s x env s' → holds s' x
  query : ∀ {s x q env v}, holds s x → d.query s q env v → v = value x q

/-- No call fails in a granted environment. -/
structure Live (d : Device σ ι α κ β ω) (serves : σ → ι → Prop) (granted : α → Prop) : Prop where
  make : ∀ s x {env}, granted env → ∃ s', d.make s x env s' ∧ serves s' x
  query : ∀ {s x} q env, serves s x → ∃ v, d.query s q env v

theorem Correct.restrict (h : Correct d holds value) : Correct (d.restrict granted) holds value :=
  ⟨fun hmake => h.make hmake.2, h.query⟩

theorem Correct.runs (h : Correct d holds value) {s s' : σ} {x : ι} {calls : List (Call ι α κ β)}
    {answers : List (Answer ι κ ω)} (hruns : Runs d s x calls answers s') (hx : holds s x) :
    ∀ a ∈ answers, a.value = value a.last a.query := by
  induction hruns with
  | nil => exact fun _ ha => absurd ha List.not_mem_nil
  | make hmake _ ih => exact ih (h.make hmake)
  | query hquery _ ih => exact List.forall_mem_cons.mpr ⟨h.query hx hquery, ih hx⟩

theorem Live.runs (h : Live d serves granted) {calls : List (Call ι α κ β)} :
    ∀ {s x}, serves s x → AllGranted granted calls → ∃ answers s', Runs d s x calls answers s' := by
  induction calls with
  | nil => exact fun _ _ => ⟨[], _, .nil⟩
  | cons call calls ih =>
    intro s x hx hgranted
    have hrest : AllGranted granted calls := fun y env hy => hgranted y env (List.mem_cons_of_mem _ hy)
    cases call with
    | make y env =>
      obtain ⟨s₁, hmake, hserves⟩ := h.make s y (hgranted y env List.mem_cons_self)
      obtain ⟨answers, s', hruns⟩ := ih hserves hrest
      exact ⟨answers, s', .make hmake hruns⟩
    | query q env =>
      obtain ⟨v, hquery⟩ := h.query q env hx
      obtain ⟨answers, s', hruns⟩ := ih hx hrest
      exact ⟨⟨x, q, v⟩ :: answers, s', .query hquery hruns⟩

/-- In a session that starts with a value, whatever the device `s` has held before, every answer is
the one that any other device `t` gives to the same query when it has seen the last value alone. If
all environments are granted, every call has a result. -/
structure HistoryFree (d : Device σ ι α κ β ω) (granted : α → Prop) : Prop where
  agree : ∀ {s s₁ s' x env calls answers}, d.make s x env s₁ → Runs d s₁ x calls answers s' →
    ∀ a ∈ answers, ∀ {t t' env₁ env₂ v}, d.make t a.last env₁ t' → d.query t' a.query env₂ v →
      a.value = v
  returns : ∀ s {x env calls}, AllGranted granted (.make x env :: calls) →
    ∃ s₁ answers s', d.make s x env s₁ ∧ Runs d s₁ x calls answers s'

/-- **The rule for devices** that answer correctly and do not fail. -/
theorem historyFree (hc : Correct d holds value) (hl : Live d serves granted) :
    HistoryFree d granted := by
  constructor
  · intro s s₁ s' x env calls answers hmake hruns a ha t t' env₁ env₂ v hmake' hquery
    have hold := hc.runs hruns (hc.make hmake) a ha
    have hnew := hc.query (hc.make hmake') hquery
    rw [hold, hnew]
  · intro s x env calls hgranted
    obtain ⟨s₁, hmake, hserves⟩ := hl.make s x (hgranted x env List.mem_cons_self)
    have hcalls : AllGranted granted calls := fun y env hy => hgranted y env (List.mem_cons_of_mem _ hy)
    obtain ⟨answers, s', hruns⟩ := hl.runs hserves hcalls
    exact ⟨s₁, answers, s', hmake, hruns⟩

/-- In every session that starts with a value, whatever the device has held before, every answer
satisfies `P`. -/
def Answers (d : Device σ ι α κ β ω) (P : ι → κ → ω → Prop) : Prop :=
  ∀ {s s₁ s' x env calls answers}, d.make s x env s₁ → Runs d s₁ x calls answers s' →
    ∀ a ∈ answers, P a.last a.query a.value

theorem Correct.answers (h : Correct d holds value) {P : ι → κ → ω → Prop}
    (hP : ∀ x q, P x q (value x q)) : Answers d P := by
  intro s s₁ s' x env calls answers hmake hruns a ha
  rw [h.runs hruns (h.make hmake) a ha]
  exact hP a.last a.query

end Rules

end Session
