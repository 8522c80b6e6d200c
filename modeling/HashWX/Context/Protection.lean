import HashWX.Context.Compiled

/-!
# Page protection

No caller looks at the result of `page_protect`. The calls of the library on one context
meet the right page rules exactly if the failures of the protection calls happen to leave
them in place.
-/

namespace HashWX

open Siphash (SiphashKey Word)

/-- A call with a compiled context. `rw` and `rx` are the outcomes of the protection calls. -/
inductive Call
  | make (seed : Seed) (memory : ProgramList) (rw rx : Bool)
  | exec (input : Word)

/-- The code behind `ctx->func` does not change the context. -/
def Compiled.step (native : Native) (ctx : Compiled) : Call → Option Compiled
  | .make seed memory rw rx => ctx.make native seed memory rw rx
  | .exec _ => do
    let _ ← ctx.func
    return ctx

def Compiled.run (native : Native) : Compiled → List Call → Option Compiled
  | ctx, [] => some ctx
  | ctx, call :: calls => do (← ctx.step native call).run native calls

/-- The outcome of the last attempt to make the buffer executable; there was none at first. -/
def lastRx (calls : List Call) : Bool :=
  calls.foldl (fun last call => match call with
    | .make _ _ _ rx => rx
    | .exec _ => last) false

@[simp] theorem lastRx_make (before : List Call) (seed : Seed) (memory : ProgramList) (rw rx : Bool) :
    lastRx (before ++ [.make seed memory rw rx]) = rx := List.foldl_append

@[simp] theorem lastRx_exec (before : List Call) (input : Word) :
    lastRx (before ++ [.exec input]) = lastRx before := List.foldl_append

/-- After the calls `before`, the page rules suit the next call: its own change to
`PAGE_READWRITE` succeeds or none is needed, and what is executed is executable. -/
def Suited (before : List Call) : Call → Prop
  | .make _ _ rw _ => rw = true ∨ lastRx before = false
  | .exec _ => lastRx before = true

instance (before : List Call) (call : Call) : Decidable (Suited before call) := by
  unfold Suited
  cases call <;> infer_instance

/-- The rules that the outcomes so far leave. -/
def rulesAfter (before : List Call) : PageRules := if lastRx before then .executeRead else .readWrite

section Step

variable (native : Native) {ctx : Compiled} {before : List Call}

/-- The pages are writable after the attempt to make them so, if it succeeds or they were. -/
theorem rules_hashwxVmRw (hrules : ctx.code.rules = rulesAfter before) (rw : Bool) :
    (hashwxVmRw rw ctx.code).rules = .readWrite ↔ rw = true ∨ lastRx before = false := by
  unfold rulesAfter at hrules
  unfold hashwxVmRw pageProtect
  cases rw <;> cases hlast : lastRx before <;> simp [hlast, hrules]

/-- One call has no fault exactly if the page rules suit it. -/
theorem step_suited (hrules : ctx.code.rules = rulesAfter before) (call : Call) :
    (∃ ctx', ctx.step native call = some ctx') ↔ Suited before call := by
  cases call with
  | make seed memory rw rx =>
    have hwritable : (hashwxVmRw rw ctx.code).rules = .readWrite ↔
        Suited before (.make seed memory rw rx) := rules_hashwxVmRw hrules rw
    rw [← hwritable]
    constructor
    · rintro ⟨ctx', hmake⟩
      by_contra hne
      have hnone : ctx.step native (.make seed memory rw rx) = none :=
        Compiled.make_none native seed memory rx hne
      rw [hnone] at hmake
      cases hmake
    · intro h
      obtain ⟨-, bytes, -, hmake, -⟩ := Compiled.make_eq native seed memory rx h
      exact ⟨_, hmake⟩
  | exec input =>
    simp only [Suited, Compiled.step, Compiled.func, hrules, rulesAfter]
    cases lastRx before <;> simp

theorem step_rules (hrules : ctx.code.rules = rulesAfter before) {call : Call} {ctx' : Compiled}
    (h : ctx.step native call = some ctx') : ctx'.code.rules = rulesAfter (before ++ [call]) := by
  have hsuited := (step_suited native hrules call).mp ⟨ctx', h⟩
  cases call with
  | make seed memory rw rx =>
    obtain ⟨-, bytes, -, hmake, -⟩ :=
      Compiled.make_eq native seed memory rx ((rules_hashwxVmRw hrules rw).mpr hsuited)
    obtain rfl := Option.some.inj (hmake.symm.trans h)
    rw [rulesAfter, lastRx_make]
    exact rules_hashwxVmRx rx bytes
  | exec input =>
    simp only [Compiled.step, Option.bind_eq_bind, Option.bind_eq_some_iff] at h
    obtain ⟨_, -, h⟩ := h
    obtain rfl := Option.some.inj h
    rw [rulesAfter, lastRx_exec]
    exact hrules

end Step

/-- A run has no fault exactly if the page rules suit each of its calls. -/
theorem run_suited (native : Native) {ctx : Compiled} {calls : List Call} :
    ∀ {before : List Call}, ctx.code.rules = rulesAfter before →
      ((∃ ctx', ctx.run native calls = some ctx') ↔
        ∀ mid call after, calls = mid ++ call :: after → Suited (before ++ mid) call) := by
  induction calls generalizing ctx with
  | nil =>
    intro before _
    refine ⟨fun _ mid call after h => ?_, fun _ => ⟨ctx, rfl⟩⟩
    simp at h
  | cons call calls ih =>
    intro before hrules
    constructor
    · rintro ⟨ctx', hrun⟩ mid call' after hsplit
      simp only [Compiled.run, Option.bind_eq_bind, Option.bind_eq_some_iff] at hrun
      obtain ⟨ctx₁, hstep, hrun⟩ := hrun
      cases mid with
      | nil =>
        obtain ⟨rfl, -⟩ := List.cons.inj hsplit
        rw [List.append_nil]
        exact (step_suited native hrules call).mp ⟨ctx₁, hstep⟩
      | cons c mid =>
        obtain ⟨rfl, rfl⟩ := List.cons.inj hsplit
        have hlater := (ih (step_rules native hrules hstep)).mp ⟨ctx', hrun⟩ mid call' after rfl
        rwa [List.append_assoc] at hlater
    · intro h
      have hfirst := h [] call calls rfl
      rw [List.append_nil] at hfirst
      obtain ⟨ctx₁, hstep⟩ := (step_suited native hrules call).mpr hfirst
      obtain ⟨ctx', hrun⟩ := (ih (step_rules native hrules hstep)).mpr fun mid call' after hsplit => by
        rw [List.append_assoc]
        exact h (call :: mid) call' after (congrArg (call :: ·) hsplit)
      refine ⟨ctx', ?_⟩
      simp only [Compiled.run, hstep, bind, Option.bind_some]
      exact hrun

/-- **Page protection.** In a run of calls on a new context every store meets writable pages and
every call of the code executable ones exactly if each `hashwx_make` changes the pages back to
`PAGE_READWRITE` or finds them so, because the last change to `PAGE_EXECUTE_READ` has failed, and
before each `hashwx_exec` that last change has succeeded. -/
theorem protection_respected_iff (native : Native) (bytes : Vector CodeMachine.Byte 8192)
    (key : SiphashKey) (calls : List Call) :
    (∃ ctx, (Compiled.alloc bytes key).run native calls = some ctx) ↔
      ∀ before call after, calls = before ++ call :: after → Suited before call := by
  have hrules : (Compiled.alloc bytes key).code.rules = rulesAfter [] := rfl
  exact run_suited native hrules

/-- A `hashwx_make` whose change to `PAGE_EXECUTE_READ` fails, and a `hashwx_exec` behind it. -/
def refusedCalls : List Call :=
  [.make (.replicate 32 0) (.replicate 32 (.replicate 10 ⟨.halt, 0, 0, 0⟩)) true false, .exec 0]

/-- They call pages that are not executable. -/
theorem protection_not_respected :
    ¬∃ ctx, (Compiled.alloc (.replicate 8192 0) ⟨0, 0⟩).run (.x86 .sysv) refusedCalls = some ctx := by
  have hrules : (Compiled.alloc (.replicate 8192 0) ⟨0, 0⟩).code.rules = rulesAfter [] := rfl
  rw [run_suited (.x86 .sysv) hrules]
  intro h
  have hsuited := h refusedCalls.dropLast (.exec 0) [] rfl
  revert hsuited
  unfold refusedCalls
  decide

end HashWX
