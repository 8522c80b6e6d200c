import HashWX.Context.History
import HashWX.Context.Lifetime
import HashWX.Lib.Team

/-!
# The benchmark

`bench.c` with the options of `test_utils.h`. An `int` is an integer, and an operation
that overflows has no result. The workers run at the same time: each has its own
`worker_job` and its own context, and the lines below the threshold go to one output.
-/

namespace HashWX.Bench

open Siphash (SiphashKey SipState Word hashwxRngInit)

/-! ## Integers -/

/-- `INT_MAX`. -/
def intMax : Int := 2147483647

/-- The sum of two numbers of type `int`. -/
def addInt (a b : Int) : Option Int :=
  if -intMax - 1 ≤ a + b ∧ a + b ≤ intMax then some (a + b) else none

/-- The sum of two numbers of type `int64_t`. -/
def addInt64 (a b : Int) : Option Int :=
  if -9223372036854775808 ≤ a + b ∧ a + b ≤ 9223372036854775807 then some (a + b) else none

/-- Conversion to `uint64_t`. -/
def toUint64 (a : Int) : Word := BitVec.ofInt 64 a

/-- A quotient of type `uint64_t`. -/
def divide (a b : Word) : Option Word := if b = 0 then none else some (a / b)

/-! ## Options -/

def readOption (option : String) : List String → Bool
  | [] => false
  | arg :: args => if arg = option then true else readOption option args

/-- An argument behind the option counts if it is positive. -/
def readIntOption (atoi : String → BitVec 32) (option : String) (default : Int) : List String → Int
  | arg :: next :: args =>
    if arg = option ∧ 0 < (atoi next).toInt then (atoi next).toInt
    else readIntOption atoi option default (next :: args)
  | _ => default

structure Options where
  diff : Int
  start : Int
  seeds : Int
  nonces : Int
  threads : Int
  interpret : Bool

def readOptions (atoi : String → BitVec 32) (argv : List String) : Options where
  diff := readIntOption atoi "--diff" intMax argv
  start := readIntOption atoi "--start" 0 argv
  seeds := readIntOption atoi "--seeds" 11000 argv
  nonces := readIntOption atoi "--nonces" 463 argv
  threads := readIntOption atoi "--threads" 1 argv
  interpret := readOption "--interpret" argv

/-- `flags`. -/
def Options.flags (o : Options) : Lifetime.HashwxType := if o.interpret then .interpreted else .compiled

/-! ## Contexts -/

/-- Contexts of one type: what `hashwx_make` and `hashwx_exec` meet and do, and when `hashwx_make` does
not fail. -/
structure Contexts where
  Ctx : Type
  MakeEnv : Type
  ExecEnv : Type
  device : Session.Device Ctx Seed MakeEnv Word ExecEnv Word
  granted : MakeEnv → Prop

/-- The contexts where no `hashwx_make` fails. -/
def Contexts.reliable (c : Contexts) : Session.Device c.Ctx Seed c.MakeEnv Word c.ExecEnv Word :=
  c.device.restrict c.granted

/-- What `hashwx_alloc` returns. -/
def contextsOf (native : Native) : Lifetime.HashwxType → Contexts
  | .interpreted => ⟨Interpreted, Unit, Scratchpad, interpretedContext, fun _ => True⟩
  | .compiled => ⟨Compiled, MakeEnv, native.Caller, compiledContext native, MakeEnv.Granted⟩

/-- The contexts of the workers. -/
def Options.contexts (native : Native) (o : Options) : Contexts := contextsOf native o.flags

/-! ## Workers -/

/-- `worker_key`. -/
def workerKey : SiphashKey := ⟨0xb443266e0c61253a, 0x85cfeef0bcbdb1e9⟩

/-- The array `state` as bytes, in the order of a little-endian machine. -/
def stateBytes (s : SipState) : Seed :=
  Vector.ofFn fun k => (s.word (Fin.ofNat 4 (k.val / 8)) >>> (8 * (k.val % 8))).setWidth 8

/-- What `hashwx_make` gets for a seed number. -/
def seedBytes (seed : Int) : Seed := stateBytes (hashwxRngInit workerKey (toUint64 seed)).state

/-- `worker_job`. -/
structure Job (σ : Type) where
  id : Int
  ctx : σ
  totalHashes : Int
  bestHash : Word
  threshold : Word
  hashSum : Word
  start : Int
  step : Int
  stop : Int
  nonces : Int

/-- A line that reports a hash below the threshold. -/
structure Line where
  thread : Int
  seed : Int
  nonce : Int
  hashval : Word

/-- The smaller one of the best hash so far and another one. -/
def better (best hashval : Word) : Word := if hashval < best then hashval else best

def Job.record {σ : Type} (job : Job σ) (hashval : Word) : Job σ :=
  { job with hashSum := job.hashSum ^^^ hashval, bestHash := better job.bestHash hashval }

def Job.report {σ : Type} (job : Job σ) (seed nonce : Int) (hashval : Word) : List Line :=
  if hashval < job.threshold then [⟨job.id, seed, nonce, hashval⟩] else []

/-- Where a worker is: at its entry, at the heads of its two loops, and behind the outer one. -/
inductive Point
  | entry
  | outer (seed : Int)
  | inner (seed nonce : Int)
  | done

structure Worker (σ : Type) where
  job : Job σ
  point : Point

/-- The function `worker`, from one of these points to the next, with the lines that it prints. -/
inductive Act {σ α β : Type} (d : Session.Device σ Seed α Word β Word) :
    Worker σ → List Line → Worker σ → Prop
  | entry {job : Job σ} : Act d ⟨job, .entry⟩ []
      ⟨{ job with totalHashes := 0, bestHash := -1, hashSum := 0 }, .outer job.start⟩
  | make {job : Job σ} {seed : Int} {env : α} {ctx : σ} : seed < job.stop →
      d.make job.ctx (seedBytes seed) env ctx →
      Act d ⟨job, .outer seed⟩ [] ⟨{ job with ctx := ctx }, .inner seed 0⟩
  | exec {job : Job σ} {seed nonce next : Int} {env : β} {hashval : Word} : nonce < job.nonces →
      d.query job.ctx (toUint64 nonce) env hashval → addInt nonce 1 = some next →
      Act d ⟨job, .inner seed nonce⟩ (job.report seed nonce hashval)
        ⟨job.record hashval, .inner seed next⟩
  | next {job : Job σ} {seed nonce seed' total : Int} : ¬nonce < job.nonces →
      addInt64 job.totalHashes job.nonces = some total → addInt seed job.step = some seed' →
      Act d ⟨job, .inner seed nonce⟩ [] ⟨{ job with totalHashes := total }, .outer seed'⟩
  | leave {job : Job σ} {seed : Int} : ¬seed < job.stop → Act d ⟨job, .outer seed⟩ [] ⟨job, .done⟩

/-! ## The program -/

/-- The job of a thread; the fields that `worker` writes first hold anything. -/
def Options.job {σ : Type} (o : Options) (threshold : Word) (start stop : Int) (garbage : Job σ)
    (thd : Nat) (ctx : σ) : Job σ :=
  { garbage with
    id := thd, ctx := ctx, start := start, step := o.threads, stop := stop, nonces := o.nonces
    threshold := threshold }

/-- The jobs when the threads start: `start + thd` may overflow. -/
structure Options.Starts {σ : Type} {n : Nat} (o : Options) (threshold : Word)
    (workers : Fin n → Worker σ) : Prop where
  count : o.threads = n
  quotient : divide (-1) (toUint64 o.diff * 1000) = some threshold
  jobs : ∃ stop, addInt o.seeds o.start = some stop ∧ ∀ t : Fin n, ∃ start garbage ctx,
    addInt o.start t.val = some start ∧
    workers t = ⟨o.job threshold start stop garbage t.val ctx, .entry⟩

/-- What the program prints at its end. -/
structure Report where
  totalHashes : Int
  bestHash : Word
  bestDiff : Word
  hashSum : Word

/-- The loop that collects the results of the jobs. -/
def collect {σ : Type} (jobs : List (Job σ)) : Option (Int × Word × Word) :=
  jobs.foldlM (fun (total, best, sum) job => do
    return (← addInt64 total job.totalHashes, better best job.bestHash, sum ^^^ job.hashSum)) (0, -1, 0)

/-- A run of `main` whose allocations succeed: the lines of the workers and the report. -/
inductive Main {σ α β : Type} (d : Session.Device σ Seed α Word β Word) (o : Options) :
    List Line → Report → Prop
  | intro {n : Nat} {threshold : Word} {workers : Fin n → Worker σ} {S : Team.State (Fin n) (Worker σ) Line}
      {total : Int} {best diff sum : Word} : o.Starts threshold workers →
      Team.Runs (fun _ => Act d) ⟨workers, []⟩ S → (∀ t, (S.member t).point = .done) →
      collect ((List.finRange n).map fun t => (S.member t).job) = some (total, best, sum) →
      divide (-1) best = some diff →
      Main d o (S.log.map Prod.snd) ⟨total, best, diff, sum⟩

end HashWX.Bench
