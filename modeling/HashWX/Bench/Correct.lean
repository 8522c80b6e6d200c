import HashWX.Bench.Worker
import HashWX.Siphash.Injective

/-!
# What the benchmark reports

However many threads there are and in whatever order they run, each pair of a seed and a
nonce is hashed once, and the report and the printed lines are those of a single loop over
all pairs. No worker gets stuck, and each run ends.
-/

namespace HashWX.Bench

open Siphash (Word SipState)

/-! ## The expected results -/

/-- The hash of a nonce with a seed number. -/
def value (p : Int × Int) : Word := hashOf (seedBytes p.1) (toUint64 p.2)

def xorAll (values : List Word) : Word := values.foldl (· ^^^ ·) 0

def lowest (values : List Word) : Word := values.foldl better (-1)

/-- The first `n` nonces of a seed. -/
def pairs (seed : Int) (n : Nat) : List (Int × Int) := (List.range n).map fun j : Nat => (seed, (j : Int))

/-- Every nonce of every seed, in order. -/
def Options.tested (o : Options) : List (Int × Int) :=
  (List.range o.seeds.toNat).flatMap fun x : Nat => pairs (o.start + x) o.nonces.toNat

/-- The line for a pair: thread `t` has the seeds that leave the remainder `t`. -/
def Options.line (o : Options) (p : Int × Int) : Line :=
  ⟨(p.1 - o.start) % o.threads, p.1, p.2, value p⟩

/-! ## The two folds -/

theorem toNat_better (a b : Word) : (better a b).toNat = min a.toNat b.toNat := by
  unfold better
  by_cases h : b < a
  · rw [if_pos h, Nat.min_eq_right (BitVec.lt_def.mp h).le]
  · rw [if_neg h, Nat.min_eq_left (Nat.le_of_not_lt h)]

instance better_associative : Std.Associative better where
  assoc a b c := by
    apply BitVec.eq_of_toNat_eq
    simp only [toNat_better, Nat.min_assoc]

instance better_commutative : Std.Commutative better where
  comm a b := by
    apply BitVec.eq_of_toNat_eq
    simp only [toNat_better, Nat.min_comm]

theorem better_max (a : Word) : better (-1) a = a := by
  apply BitVec.eq_of_toNat_eq
  rw [toNat_better]
  have hmax : (-1 : Word).toNat = 2 ^ 64 - 1 := rfl
  have := a.isLt
  omega

instance better_lawfulIdentity : Std.LawfulIdentity better (-1) where
  left_id := better_max
  right_id a := (better_commutative.comm a (-1)).trans (better_max a)

instance xor_lawfulIdentity : Std.LawfulIdentity (fun a b : Word => a ^^^ b) 0 where
  left_id _ := BitVec.zero_xor
  right_id _ := BitVec.xor_zero

/-- The best hash is zero exactly if one of the hashes is. -/
theorem lowest_eq_zero_iff {values : List Word} : lowest values = 0 ↔ 0 ∈ values := by
  have h (best : Word) : values.foldl better best = 0 ↔ best = 0 ∨ 0 ∈ values := by
    induction values generalizing best with
    | nil => simp
    | cons v values ih =>
      have hbetter : better best v = 0 ↔ best = 0 ∨ v = 0 := by
        have hzero : (0 : Word).toNat = 0 := rfl
        rw [← BitVec.toNat_inj, ← BitVec.toNat_inj, ← BitVec.toNat_inj, toNat_better, hzero]
        omega
      rw [List.foldl_cons, ih, hbetter, List.mem_cons, eq_comm (a := (0 : Word)), or_assoc]
  exact (h (-1)).trans (or_iff_right (by decide))

/-! ## Options -/

structure Options.Valid (o : Options) : Prop where
  diff : 0 < o.diff ∧ o.diff ≤ intMax
  start : 0 ≤ o.start ∧ o.start ≤ intMax
  seeds : 0 < o.seeds ∧ o.seeds ≤ intMax
  nonces : 0 < o.nonces ∧ o.nonces ≤ intMax
  threads : 0 < o.threads ∧ o.threads ≤ intMax

/-- A number that is not positive is replaced by the default. -/
theorem readIntOption_eq (atoi : String → BitVec 32) (option : String) (default : Int) (argv : List String) :
    readIntOption atoi option default argv = default ∨
      0 < readIntOption atoi option default argv ∧ readIntOption atoi option default argv ≤ intMax := by
  have hle (b : BitVec 32) : b.toInt ≤ intMax := by
    have h := BitVec.toInt_lt (x := b)
    unfold intMax
    omega
  induction argv with
  | nil => exact .inl rfl
  | cons arg args ih =>
    cases args with
    | nil => exact .inl rfl
    | cons next args =>
      rw [readIntOption]
      by_cases hfound : arg = option ∧ 0 < (atoi next).toInt
      · rw [if_pos hfound]
        exact .inr ⟨hfound.2, hle _⟩
      · rw [if_neg hfound]
        exact ih

/-- Whatever the command line is, the numbers are in range. -/
theorem readOptions_valid (atoi : String → BitVec 32) (argv : List String) : (readOptions atoi argv).Valid := by
  have hpos {option : String} {default : Int} (h : 0 < default ∧ default ≤ intMax) :
      0 < readIntOption atoi option default argv ∧ readIntOption atoi option default argv ≤ intMax := by
    rcases readIntOption_eq atoi option default argv with heq | hfound
    · rwa [heq]
    · exact hfound
  refine ⟨hpos (by decide), ?_, hpos (by decide), hpos (by decide), hpos (by decide)⟩
  rcases readIntOption_eq atoi "--start" 0 argv with heq | hfound
  · have hstart : (readOptions atoi argv).start = 0 := heq
    rw [hstart]
    decide
  · exact ⟨hfound.1.le, hfound.2⟩

/-! ## One worker -/

section Worker

variable {σ α β : Type} {d : Session.Device σ Seed α Word β Word} {holds : σ → Seed → Prop}
  {o : Options} {threshold : Word} {n m N t : Nat}

/-- The fields of a job that `worker` only reads. -/
structure Given (o : Options) (threshold : Word) (n m N t : Nat) (job : Job σ) : Prop where
  id : job.id = t
  threshold : job.threshold = threshold
  step : job.step = n
  stop : job.stop = o.start + m
  nonces : job.nonces = N

/-- The pairs of all nonces with the seeds at some positions of the range. -/
def seedPairs (o : Options) (N : Nat) (xs : List Nat) : List (Int × Int) :=
  xs.flatMap fun x : Nat => pairs (o.start + x) N

theorem seedPairs_concat (o : Options) (N : Nat) (xs : List Nat) (x : Nat) :
    seedPairs o N (xs ++ [x]) = seedPairs o N xs ++ pairs (o.start + x) N := by
  rw [seedPairs, List.flatMap_append, List.flatMap_singleton]
  rfl

theorem pairs_succ (seed : Int) (j : Nat) : pairs seed (j + 1) = pairs seed j ++ [(seed, (j : Int))] := by
  rw [pairs, List.range_succ, List.map_append]
  rfl

/-- The lines of a thread for the pairs that it has hashed; `f` is their hash. -/
def linesOf (f : Int × Int → Word) (threshold : Word) (t : Nat) (tested : List (Int × Int)) : List Line :=
  (tested.filter fun p => f p < threshold).map fun p => ⟨t, p.1, p.2, f p⟩

/-- Worker `t` behind `k` of its seeds and behind further pairs. -/
structure Tested (f : Int × Int → Word) (o : Options) (threshold : Word) (n m N t k : Nat)
    (further : List (Int × Int)) (job : Job σ) (lines : List Line) : Prop where
  given : Given o threshold n m N t job
  inside : ∀ i < k, t + i * n < m
  total : job.totalHashes = (seedPairs o N (Team.dealt n t k)).length
  hashSum : job.hashSum = xorAll ((seedPairs o N (Team.dealt n t k) ++ further).map f)
  bestHash : job.bestHash = lowest ((seedPairs o N (Team.dealt n t k) ++ further).map f)
  lines : lines = linesOf f threshold t (seedPairs o N (Team.dealt n t k) ++ further)

/-- What holds of a worker and the lines that it has printed. -/
def Inv (holds : σ → Seed → Prop) (f : Int × Int → Word) (o : Options) (threshold : Word)
    (n m N t : Nat) : Worker σ → List Line → Prop
  | ⟨job, .entry⟩, lines =>
    Given o threshold n m N t job ∧ job.start = o.start + t ∧ lines = []
  | ⟨job, .outer seed⟩, lines =>
    ∃ k : Nat, seed = o.start + (t + k * n : Nat) ∧ Tested f o threshold n m N t k [] job lines
  | ⟨job, .inner seed nonce⟩, lines =>
    ∃ k j : Nat, seed = o.start + (t + k * n : Nat) ∧ nonce = j ∧ t + k * n < m ∧ j ≤ N ∧
      holds job.ctx (seedBytes seed) ∧ Tested f o threshold n m N t k (pairs seed j) job lines
  | ⟨job, .done⟩, lines =>
    ∃ k : Nat, m ≤ t + k * n ∧ Tested f o threshold n m N t k [] job lines

theorem xorAll_concat (values : List Word) (v : Word) : xorAll (values ++ [v]) = xorAll values ^^^ v :=
  List.foldl_concat _ _ _ _

theorem lowest_concat (values : List Word) (v : Word) : lowest (values ++ [v]) = better (lowest values) v :=
  List.foldl_concat _ _ _ _

variable {f : Int × Int → Word}

theorem linesOf_concat (tested : List (Int × Int)) (p : Int × Int) :
    linesOf f threshold t (tested ++ [p]) = linesOf f threshold t tested ++
      if f p < threshold then [⟨t, p.1, p.2, f p⟩] else [] := by
  rw [linesOf, List.filter_append, List.map_append]
  by_cases h : f p < threshold
  · have hfilter : [p].filter (fun p => f p < threshold) = [p] := by simp [h]
    rw [if_pos h, hfilter]
    rfl
  · have hfilter : [p].filter (fun p => f p < threshold) = [] := by simp [h]
    rw [if_neg h, hfilter]
    rfl

/-- One nonce more. -/
theorem Tested.record {k j : Nat} {seed : Int} {job : Job σ} {lines : List Line}
    (h : Tested f o threshold n m N t k (pairs seed j) job lines) :
    Tested f o threshold n m N t k (pairs seed (j + 1)) (job.record (f (seed, j)))
      (lines ++ job.report seed j (f (seed, j))) := by
  obtain ⟨⟨hid, hthreshold, hstep, hstop, hnonces⟩, hinside, htotal, hsum, hbest, hlines⟩ := h
  refine ⟨⟨hid, hthreshold, hstep, hstop, hnonces⟩, hinside, htotal, ?_, ?_, ?_⟩
  · rw [pairs_succ, ← List.append_assoc, List.map_append, List.map_singleton, xorAll_concat, ← hsum]
    rfl
  · rw [pairs_succ, ← List.append_assoc, List.map_append, List.map_singleton, lowest_concat, ← hbest]
    rfl
  · rw [pairs_succ, ← List.append_assoc, linesOf_concat, ← hlines, Job.report, hthreshold, hid]

theorem addInt_eq {a b c : Int} (h : addInt a b = some c) : a + b = c :=
  Option.some.inj (Option.ite_none_right_eq_some.mp h).2

theorem addInt64_eq {a b c : Int} (h : addInt64 a b = some c) : a + b = c :=
  Option.some.inj (Option.ite_none_right_eq_some.mp h).2

theorem Inv.entered {job : Job σ} {lines : List Line}
    (h : Inv holds f o threshold n m N t ⟨job, .entry⟩ lines) :
    Inv holds f o threshold n m N t
      ⟨{ job with totalHashes := 0, bestHash := -1, hashSum := 0 }, .outer job.start⟩ lines := by
  obtain ⟨⟨hid, hthreshold, hstep, hstop, hnonces⟩, hstart, rfl⟩ := h
  refine ⟨0, ?_, ⟨hid, hthreshold, hstep, hstop, hnonces⟩, fun i hi => absurd hi (Nat.not_lt_zero i), rfl,
    rfl, rfl, rfl⟩
  rw [hstart, Nat.zero_mul, Nat.add_zero]

theorem Inv.made {job : Job σ} {seed : Int} {ctx : σ} {lines : List Line}
    (h : Inv holds f o threshold n m N t ⟨job, .outer seed⟩ lines) (hlt : seed < job.stop)
    (hholds : holds ctx (seedBytes seed)) :
    Inv holds f o threshold n m N t ⟨{ job with ctx := ctx }, .inner seed 0⟩ lines := by
  obtain ⟨k, hseed, ⟨hid, hthreshold, hstep, hstop, hnonces⟩, hinside, htotal, hsum, hbest, hlines⟩ := h
  have hk : t + k * n < m := by omega
  exact ⟨k, 0, hseed, rfl, hk, Nat.zero_le N, hholds, ⟨hid, hthreshold, hstep, hstop, hnonces⟩, hinside,
    htotal, hsum, hbest, hlines⟩

theorem Inv.executed {job : Job σ} {seed nonce next : Int} {lines : List Line}
    (h : Inv holds f o threshold n m N t ⟨job, .inner seed nonce⟩ lines) (hlt : nonce < job.nonces)
    (hnext : addInt nonce 1 = some next) :
    Inv holds f o threshold n m N t ⟨job.record (f (seed, nonce)), .inner seed next⟩
      (lines ++ job.report seed nonce (f (seed, nonce))) := by
  obtain ⟨k, j, hseed, rfl, hk, hj, hholds, htested⟩ := h
  have hjN : j < N := by
    have hnonces := htested.given.nonces
    omega
  exact ⟨k, j + 1, hseed, (addInt_eq hnext).symm, hk, hjN, hholds, htested.record⟩

theorem Inv.advanced {job : Job σ} {seed nonce seed' total : Int} {lines : List Line}
    (h : Inv holds f o threshold n m N t ⟨job, .inner seed nonce⟩ lines) (hge : ¬nonce < job.nonces)
    (htotal : addInt64 job.totalHashes job.nonces = some total) (hnext : addInt seed job.step = some seed') :
    Inv holds f o threshold n m N t ⟨{ job with totalHashes := total }, .outer seed'⟩ lines := by
  obtain ⟨k, j, hseed, rfl, hk, hj, -, ⟨hid, hthreshold, hstep, hstop, hnonces⟩, hinside, hcount, hsum, hbest,
    hlines⟩ := h
  obtain rfl : j = N := by omega
  have hdone : seedPairs o j (Team.dealt n t (k + 1)) = seedPairs o j (Team.dealt n t k) ++ pairs seed j := by
    rw [Team.dealt_succ, seedPairs_concat, hseed]
  have hsucc : t + (k + 1) * n = t + k * n + n := by rw [Nat.succ_mul, Nat.add_assoc]
  refine ⟨k + 1, ?_, ⟨hid, hthreshold, hstep, hstop, hnonces⟩, fun i hi => ?_, ?_, ?_, ?_, ?_⟩
  · rw [← addInt_eq hnext, hseed, hstep, hsucc]
    omega
  · rcases Nat.lt_succ_iff_lt_or_eq.mp hi with hlt | rfl
    · exact hinside i hlt
    · exact hk
  · have hlength : (pairs seed j).length = j := by rw [pairs, List.length_map, List.length_range]
    rw [← addInt64_eq htotal, hdone, List.length_append, hlength, hcount, hnonces]
    rfl
  · rw [hdone, List.append_nil]
    exact hsum
  · rw [hdone, List.append_nil]
    exact hbest
  · rw [hdone, List.append_nil]
    exact hlines

theorem Inv.left {job : Job σ} {seed : Int} {lines : List Line}
    (h : Inv holds f o threshold n m N t ⟨job, .outer seed⟩ lines) (hge : ¬seed < job.stop) :
    Inv holds f o threshold n m N t ⟨job, .done⟩ lines := by
  obtain ⟨k, hseed, htested⟩ := h
  have hstop := htested.given.stop
  exact ⟨k, by omega, htested⟩

/-- What the worker relies on in its context. -/
structure Hashes (d : Session.Device σ Seed α Word β Word) (holds : σ → Seed → Prop)
    (f : Int × Int → Word) : Prop where
  make : ∀ {ctx seed env ctx'}, d.make ctx seed env ctx' → holds ctx' seed
  query : ∀ {ctx seed nonce env hashval}, holds ctx (seedBytes seed) →
    d.query ctx (toUint64 nonce) env hashval → hashval = f (seed, nonce)

/-- Each step of a worker keeps the invariant, whatever the other workers do. -/
theorem Inv.step (hd : Hashes d holds f) {w w' : Worker σ} {lines new : List Line}
    (h : Inv holds f o threshold n m N t w lines) (hact : Act d w new w') :
    Inv holds f o threshold n m N t w' (lines ++ new) := by
  cases hact with
  | entry =>
    rw [List.append_nil]
    exact h.entered
  | make hlt hmake =>
    rw [List.append_nil]
    exact h.made hlt (hd.make hmake)
  | exec hlt hquery hnext =>
    have hholds := h
    obtain ⟨_, _, _, _, _, _, hholds, _⟩ := hholds
    rw [hd.query hholds hquery]
    exact h.executed hlt hnext
  | next hge htotal hnext =>
    rw [List.append_nil]
    exact h.advanced hge htotal hnext
  | leave hge =>
    rw [List.append_nil]
    exact h.left hge

end Worker

/-! ## All workers together -/

section Workers

variable {σ α β : Type} {d : Session.Device σ Seed α Word β Word} {holds : σ → Seed → Prop}
  {f : Int × Int → Word} {o : Options} {threshold : Word} {n m N : Nat}

theorem Given.of_job {start : Int} {garbage : Job σ} {ctx : σ} (t : Nat) (hm : o.seeds = m)
    (hN : o.nonces = N) (hn : o.threads = n) :
    Given o threshold n m N t (o.job threshold start (o.seeds + o.start) garbage t ctx) where
  id := rfl
  threshold := rfl
  step := hn
  stop := by rw [Options.job, hm, add_comm]
  nonces := hN

theorem Options.Starts.inv {workers : Fin n → Worker σ} (h : o.Starts threshold workers) (hm : o.seeds = m)
    (hN : o.nonces = N) (t : Fin n) : Inv holds f o threshold n m N t (workers t) [] := by
  obtain ⟨hn, -, stop, hstop, hjobs⟩ := h
  obtain ⟨start, garbage, ctx, hstart, hworker⟩ := hjobs t
  rw [hworker, ← addInt_eq hstop]
  exact ⟨.of_job t.val hm hN hn, (addInt_eq hstart).symm, rfl⟩

/-- In every run each worker has hashed its own pairs, and printed their lines. -/
theorem runs_inv (hd : Hashes d holds f) {workers : Fin n → Worker σ} (h : o.Starts threshold workers)
    (hm : o.seeds = m) (hN : o.nonces = N) {S : Team.State (Fin n) (Worker σ) Line}
    (hruns : Team.Runs (fun _ => Act d) ⟨workers, []⟩ S) (t : Fin n) :
    Inv holds f o threshold n m N t (S.member t) (S.own t) :=
  Team.Runs.invariant (P := fun (t : Fin n) w lines => Inv holds f o threshold n m N t w lines)
    (fun hw hact => hw.step hd hact) hruns (h.inv hm hN) t

/-- The pairs of all threads are the tested ones. -/
theorem tested_perm (hm : o.seeds = m) (hN : o.nonces = N) (hn : 0 < n) {k : Fin n → Nat}
    (hinside : ∀ t, ∀ i < k t, t.val + i * n < m) (hbehind : ∀ t, m ≤ t.val + k t * n) :
    ((List.finRange n).flatMap fun t : Fin n => seedPairs o N (Team.dealt n t (k t))).Perm o.tested := by
  have htested : o.tested = seedPairs o N (List.range m) := by
    rw [Options.tested, seedPairs, hm, hN, Int.toNat_natCast, Int.toNat_natCast]
  have hflat : ((List.finRange n).flatMap fun t : Fin n => seedPairs o N (Team.dealt n t (k t))) =
      seedPairs o N ((List.finRange n).flatMap fun t : Fin n => Team.dealt n t (k t)) :=
    List.flatMap_assoc.symm
  rw [htested, hflat]
  exact (Team.dealt_perm hn hinside hbehind).flatMap_right _

/-- The report is made of sums over the jobs. -/
theorem collect_eq {jobs : List (Job σ)} {total : Int} {best sum : Word}
    (h : collect jobs = some (total, best, sum)) :
    total = (jobs.map Job.totalHashes).sum ∧ best = lowest (jobs.map Job.bestHash) ∧
      sum = xorAll (jobs.map Job.hashSum) := by
  have hfold (jobs : List (Job σ)) (total₀ : Int) (best₀ sum₀ : Word)
      (h : jobs.foldlM (fun (acc : Int × Word × Word) job => do
        return (← addInt64 acc.1 job.totalHashes, better acc.2.1 job.bestHash, acc.2.2 ^^^ job.hashSum))
        (total₀, best₀, sum₀) = some (total, best, sum)) :
      total = total₀ + (jobs.map Job.totalHashes).sum ∧
        best = (jobs.map Job.bestHash).foldl better best₀ ∧
        sum = (jobs.map Job.hashSum).foldl (· ^^^ ·) sum₀ := by
    induction jobs generalizing total₀ best₀ sum₀ with
    | nil =>
      obtain ⟨rfl, rfl, rfl⟩ : total₀ = total ∧ best₀ = best ∧ sum₀ = sum := by
        simpa only [List.foldlM_nil, pure, Option.some.injEq, Prod.mk.injEq] using h
      exact ⟨(Int.add_zero _).symm, rfl, rfl⟩
    | cons job jobs ih =>
      rw [List.foldlM_cons] at h
      obtain ⟨acc, hacc, h⟩ := Option.bind_eq_some_iff.mp h
      obtain ⟨next, hnext, hpure⟩ := Option.bind_eq_some_iff.mp hacc
      obtain rfl := Option.some.inj hpure
      obtain ⟨htotal, hbest, hsum⟩ := ih _ _ _ h
      refine ⟨?_, hbest, hsum⟩
      rw [htotal, ← addInt64_eq hnext, List.map_cons, List.sum_cons, add_assoc]
  have hall := hfold jobs 0 (-1) 0 h
  rwa [zero_add] at hall

/-- As many hashes as the report says. -/
theorem Options.tested_length (o : Options) : o.tested.length = o.seeds.toNat * o.nonces.toNat := by
  have hpairs (x : Nat) : (pairs (o.start + x) o.nonces.toNat).length = o.nonces.toNat := by
    rw [pairs, List.length_map, List.length_range]
  simp only [Options.tested, List.length_flatMap, hpairs, List.map_const', List.sum_replicate,
    List.length_range, smul_eq_mul]

/-- What a finished worker has hashed. -/
theorem tested_of_done {t : Fin n} {w : Worker σ} {lines : List Line}
    (h : Inv holds f o threshold n m N t w lines) (hdone : w.point = .done) :
    ∃ k : Nat, m ≤ t.val + k * n ∧ Tested f o threshold n m N t k [] w.job lines := by
  obtain ⟨job, point⟩ := w
  obtain rfl : point = .done := hdone
  exact h

theorem seedPairs_line {t : Fin n} {k : Nat} (hn : o.threads = n) {p : Int × Int}
    (hp : p ∈ seedPairs o N (Team.dealt n t k)) : (p.1 - o.start) % o.threads = t.val := by
  obtain ⟨x, hx, hp⟩ := List.mem_flatMap.mp hp
  obtain ⟨i, -, rfl⟩ := Team.mem_dealt.mp hx
  obtain ⟨j, -, rfl⟩ := List.mem_map.mp hp
  have hmod : (t.val + i * n) % n = t.val := by
    rw [Nat.add_mul_mod_self_right, Nat.mod_eq_of_lt t.isLt]
  rw [hn, add_sub_cancel_left, ← Int.natCast_mod, hmod]

/-- The totals of the finished jobs are those of a single loop. -/
theorem finished_jobs (hm : o.seeds = m) (hN : o.nonces = N) (hn : o.threads = n) (hpos : 0 < n)
    {S : Team.State (Fin n) (Worker σ) Line}
    (hinv : ∀ t : Fin n, Inv holds f o threshold n m N t (S.member t) (S.own t))
    (hdone : ∀ t, (S.member t).point = .done) :
    let jobs := (List.finRange n).map fun t => (S.member t).job
    (jobs.map Job.totalHashes).sum = o.seeds * o.nonces ∧
    lowest (jobs.map Job.bestHash) = lowest (o.tested.map f) ∧
    xorAll (jobs.map Job.hashSum) = xorAll (o.tested.map f) ∧
    (S.log.map Prod.snd).Perm ((o.tested.filter fun p => f p < threshold).map
      fun p => ⟨(p.1 - o.start) % o.threads, p.1, p.2, f p⟩) := by
  intro jobs
  choose k hbehind htested using fun t => tested_of_done (hinv t) (hdone t)
  let done (t : Fin n) := seedPairs o N (Team.dealt n t (k t))
  have hperm : ((List.finRange n).flatMap done).Perm o.tested :=
    tested_perm hm hN hpos (fun t => (htested t).inside) hbehind
  have hvalues : ((List.finRange n).flatMap fun t => (done t).map f).Perm (o.tested.map f) := by
    rw [← List.map_flatMap]
    exact hperm.map f
  refine ⟨?_, ?_, ?_, ?_⟩
  · have hjob : jobs.map Job.totalHashes = (List.finRange n).map fun t => ((done t).length : Int) := by
      rw [List.map_map]
      exact List.map_congr_left fun t _ => (htested t).total
    have hcast : ((List.finRange n).map fun t => ((done t).length : Int)).sum =
        (((List.finRange n).flatMap done).length : Int) := by
      rw [List.length_flatMap, Nat.cast_list_sum, List.map_map]
      rfl
    rw [hjob, hcast, hperm.length_eq, o.tested_length, hm, hN, Int.toNat_natCast, Int.toNat_natCast,
      Nat.cast_mul]
  · have hjob : jobs.map Job.bestHash = (List.finRange n).map fun t => lowest ((done t).map f) := by
      rw [List.map_map]
      refine List.map_congr_left fun t _ => ?_
      have hbest := (htested t).bestHash
      rwa [List.append_nil] at hbest
    rw [hjob]
    exact (Team.foldl_flatMap _ _).symm.trans (hvalues.foldl_op_eq)
  · have hjob : jobs.map Job.hashSum = (List.finRange n).map fun t => xorAll ((done t).map f) := by
      rw [List.map_map]
      refine List.map_congr_left fun t _ => ?_
      have hsum := (htested t).hashSum
      rwa [List.append_nil] at hsum
    rw [hjob]
    exact (Team.foldl_flatMap _ _).symm.trans (hvalues.foldl_op_eq)
  · have hown : S.own = fun t => ((done t).filter fun p => f p < threshold).map
        fun p => ⟨(p.1 - o.start) % o.threads, p.1, p.2, f p⟩ := by
      funext t
      have hlines := (htested t).lines
      rw [List.append_nil] at hlines
      rw [hlines, linesOf]
      refine List.map_congr_left fun p hp => ?_
      rw [seedPairs_line hn (List.mem_of_mem_filter hp)]
    refine S.log_perm.trans ?_
    rw [hown, ← List.map_flatMap, ← List.filter_flatMap]
    exact (hperm.filter _).map _

end Workers

/-! ## The inputs of the pairs -/

/-- The seed and the nonce that a pair stands for. -/
def input (p : Int × Int) : Seed × Word := (seedBytes p.1, toUint64 p.2)

/-- The seed bytes are the whole state, so different states are different seeds. -/
theorem stateBytes_injective : Function.Injective stateBytes := by
  intro s t h
  refine SipState.word_injective (funext fun w => BitVec.eq_of_getLsbD_eq fun i hi => ?_)
  -- bit `i` of word `w` stands in byte `8 * w + i / 8`
  have hbyte := congrArg (fun bytes : Seed => bytes[Fin.ofNat 32 (8 * w.val + i / 8)].getLsbD (i % 8)) h
  have hk : (8 * w.val + i / 8) % 32 = 8 * w.val + i / 8 := by omega
  have hword : Fin.ofNat 4 ((8 * w.val + i / 8) / 8) = w := by
    apply Fin.ext
    rw [Fin.val_ofNat]
    omega
  have hbit : 8 * ((8 * w.val + i / 8) % 8) + i % 8 = i := by omega
  simp only [stateBytes, Vector.getElem_ofFn_fin, Fin.val_ofNat, hk, hword, BitVec.getLsbD_setWidth,
    BitVec.getLsbD_ushiftRight, hbit] at hbyte
  rwa [decide_eq_true (Nat.mod_lt i (by decide)), Bool.true_and, Bool.true_and] at hbyte

theorem toUint64_injOn {a b : Int} (ha : 0 ≤ a ∧ a ≤ intMax) (hb : 0 ≤ b ∧ b ≤ intMax)
    (h : toUint64 a = toUint64 b) : a = b := by
  unfold intMax at ha hb
  have hval := congrArg BitVec.toInt h
  rw [toUint64, toUint64, BitVec.toInt_ofInt, BitVec.toInt_ofInt] at hval
  rwa [Int.bmod_eq_of_le (by omega) (by omega), Int.bmod_eq_of_le (by omega) (by omega)] at hval

/-- Different salts give different states, so no two seed numbers share their bytes. -/
theorem input_injOn {p q : Int × Int} (hp : (0 ≤ p.1 ∧ p.1 ≤ intMax) ∧ 0 ≤ p.2 ∧ p.2 ≤ intMax)
    (hq : (0 ≤ q.1 ∧ q.1 ≤ intMax) ∧ 0 ≤ q.2 ∧ q.2 ≤ intMax) (h : input p = input q) : p = q := by
  obtain ⟨hseed, hnonce⟩ := Prod.mk.inj h
  have hsalt := Siphash.initState_salt_injective workerKey (stateBytes_injective hseed)
  exact Prod.ext (toUint64_injOn hp.1 hq.1 hsalt) (toUint64_injOn hp.2 hq.2 hnonce)

theorem Options.Valid.inside {o : Options} (h : o.Valid) (hle : o.seeds + o.start ≤ intMax) {p : Int × Int}
    (hp : p ∈ o.tested) : (0 ≤ p.1 ∧ p.1 ≤ intMax) ∧ 0 ≤ p.2 ∧ p.2 ≤ intMax := by
  obtain ⟨-, hstart, -, hnonces, -⟩ := h
  obtain ⟨x, hx, hp⟩ := List.mem_flatMap.mp hp
  obtain ⟨j, hj, rfl⟩ := List.mem_map.mp hp
  rw [List.mem_range] at hx hj
  dsimp only
  omega

theorem Options.tested_nodup (o : Options) : o.tested.Nodup := by
  refine List.nodup_flatMap.mpr ⟨fun x _ => ?_, ?_⟩
  · refine List.nodup_range.map fun i j h => ?_
    exact Int.ofNat_inj.mp (congrArg Prod.snd h)
  · refine List.nodup_range.imp fun {x y} hne p hx hy => ?_
    obtain ⟨i, -, rfl⟩ := List.mem_map.mp hx
    obtain ⟨j, -, h⟩ := List.mem_map.mp hy
    have hfirst := congrArg Prod.fst h
    dsimp only at hfirst
    omega

theorem Options.Valid.inputs_nodup {o : Options} (h : o.Valid) (hle : o.seeds + o.start ≤ intMax) :
    (o.tested.map input).Nodup :=
  o.tested_nodup.map_on fun _ hp _ hq heq => input_injOn (h.inside hle hp) (h.inside hle hq) heq

/-! ## The report -/

/-- The report and the lines are those of a loop over all pairs, and no two pairs have the same inputs. -/
structure Options.Reported (o : Options) (lines : List Line) (report : Report) : Prop where
  inputs : (o.tested.map input).Nodup
  totalHashes : report.totalHashes = o.seeds * o.nonces
  hashSum : report.hashSum = xorAll (o.tested.map value)
  bestHash : report.bestHash = lowest (o.tested.map value)
  bestDiff : divide (-1) report.bestHash = some report.bestDiff
  lines : ∃ threshold, divide (-1) (toUint64 o.diff * 1000) = some threshold ∧
    lines.Perm ((o.tested.filter fun p => value p < threshold).map o.line)

theorem hashes_of_correct {σ α β : Type} {d : Session.Device σ Seed α Word β Word} {holds : σ → Seed → Prop}
    (hd : Session.Correct d holds hashOf) : Hashes d holds value :=
  ⟨hd.make, fun hholds hquery => hd.query hholds hquery⟩

/-- The report for any contexts whose hashes are right. -/
theorem main_reports {σ α β : Type} {d : Session.Device σ Seed α Word β Word} {holds : σ → Seed → Prop}
    (hd : Session.Correct d holds hashOf) {o : Options} (hvalid : o.Valid) {lines : List Line} {report : Report}
    (hmain : Main d o lines report) : o.Reported lines report := by
  obtain ⟨m, hm⟩ := Int.eq_ofNat_of_zero_le hvalid.seeds.1.le
  obtain ⟨N, hN⟩ := Int.eq_ofNat_of_zero_le hvalid.nonces.1.le
  obtain ⟨hstarts, hruns, hdone, hcollect, hdiff⟩ := hmain
  have hpos : 0 < o.threads := hvalid.threads.1
  have hn := hstarts.count
  obtain ⟨htotal, hbest, hsum⟩ := collect_eq hcollect
  obtain ⟨htotal', hbest', hsum', hlines⟩ := finished_jobs hm hN hn (by omega)
    (runs_inv (hashes_of_correct hd) hstarts hm hN hruns) hdone
  obtain ⟨stop, hstop, -⟩ := hstarts.jobs
  have hle : o.seeds + o.start ≤ intMax := (Option.ite_none_right_eq_some.mp hstop).1.2
  exact ⟨hvalid.inputs_nodup hle, htotal.trans htotal', hsum.trans hsum', hbest.trans hbest', hdiff,
    _, hstarts.quotient, hlines⟩

theorem contextsOf_correct (native : Native) (type : Lifetime.HashwxType) :
    ∃ holds, Session.Correct (contextsOf native type).device holds hashOf := by
  cases type with
  | interpreted => exact ⟨_, interpretedContext_correct⟩
  | compiled => exact ⟨_, compiledContext_correct native⟩

/-- **The benchmark reports every hash once.** With every command line, on the contexts that it asks
for, with any number of threads in any order: the totals that are printed, the exclusive or
of the hashes and the best one are those of all pairs of a seed and a nonce, which are different
inputs, and the lines that the workers print are one for each pair below the threshold. -/
theorem bench_reports (native : Native) (atoi : String → BitVec 32) (argv : List String)
    {lines : List Line} {report : Report}
    (hmain : Main ((readOptions atoi argv).contexts native).device (readOptions atoi argv) lines report) :
    (readOptions atoi argv).Reported lines report := by
  obtain ⟨holds, hcorrect⟩ := contextsOf_correct native (readOptions atoi argv).flags
  exact main_reports hcorrect (readOptions_valid atoi argv) hmain

/-! ## Every run ends -/

/-- The steps that a worker has left, at most. -/
def Worker.measure {σ : Type} (w : Worker σ) : Nat :=
  match w.point with
  | .entry => (w.job.stop - w.job.start).toNat * (w.job.nonces.toNat + 2) + 2
  | .outer seed => (w.job.stop - seed).toNat * (w.job.nonces.toNat + 2) + 1
  | .inner seed nonce =>
    (w.job.stop - seed - 1).toNat * (w.job.nonces.toNat + 2) + (w.job.nonces - nonce).toNat + 2
  | .done => 0

section Progress

variable {σ α β : Type} {d : Session.Device σ Seed α Word β Word} {serves : σ → Seed → Prop}
  {f : Int × Int → Word} {o : Options} {threshold : Word} {n m N t : Nat}

/-- The measure falls with each step, as the seed numbers of a worker only grow. -/
theorem Act.decreases {w w' : Worker σ} {lines : List Line} (h : Act d w lines w') (hstep : 0 < w.job.step) :
    w'.measure < w.measure := by
  cases h with
  | entry => exact Nat.lt_succ_self _
  | @make job seed env ctx hlt _ =>
    obtain ⟨x, hx⟩ := Int.eq_ofNat_of_zero_le (show 0 ≤ job.stop - seed - 1 by omega)
    have hrest : (job.stop - seed).toNat = x + 1 := by omega
    have hnext : (job.stop - seed - 1).toNat = x := by omega
    simp only [Worker.measure, hrest, hnext, Nat.succ_mul]
    omega
  | exec hlt _ hnext =>
    have hsum := addInt_eq hnext
    simp only [Worker.measure, Job.record]
    omega
  | @next job seed nonce seed' total hge _ hnext =>
    have hsum := addInt_eq hnext
    simp only at hstep
    have hle : (job.stop - seed').toNat ≤ (job.stop - seed - 1).toNat := by omega
    have hmul := Nat.mul_le_mul_right (job.nonces.toNat + 2) hle
    simp only [Worker.measure]
    omega
  | leave _ => exact Nat.succ_pos _

theorem Inv.step_eq {w : Worker σ} {lines : List Line} (h : Inv serves f o threshold n m N t w lines) :
    w.job.step = n := by
  obtain ⟨job, point⟩ := w
  cases point with
  | entry => exact h.1.step
  | outer seed =>
    obtain ⟨k, -, htested⟩ := h
    exact htested.given.step
  | inner seed nonce =>
    obtain ⟨k, j, -, -, -, -, -, htested⟩ := h
    exact htested.given.step
  | done =>
    obtain ⟨k, -, htested⟩ := h
    exact htested.given.step

/-- The calls of the worker do not fail. -/
structure Serving (d : Session.Device σ Seed α Word β Word) (serves : σ → Seed → Prop) : Prop where
  make : ∀ ctx seed, ∃ env ctx', d.make ctx seed env ctx'
  made : ∀ {ctx seed env ctx'}, d.make ctx seed env ctx' → serves ctx' seed
  query : ∀ {ctx seed} nonce, serves ctx seed → ∃ env hashval, d.query ctx nonce env hashval

theorem addInt_isSome {a b : Int} (hlo : -intMax - 1 ≤ a + b) (hhi : a + b ≤ intMax) :
    addInt a b = some (a + b) := if_pos ⟨hlo, hhi⟩

theorem seedPairs_length (o : Options) (N : Nat) (xs : List Nat) :
    (seedPairs o N xs).length = xs.length * N := by
  have hpairs (x : Nat) : (pairs (o.start + x) N).length = N := by
    rw [pairs, List.length_map, List.length_range]
  simp only [seedPairs, List.length_flatMap, hpairs, List.map_const', List.sum_replicate, smul_eq_mul]

/-- The ranges in which no sum of a worker overflows. -/
structure Fits (o : Options) (n m N : Nat) : Prop where
  start : 0 ≤ o.start
  threads : 0 < n
  nonces : N ≤ intMax
  seeds : o.start + m + n ≤ intMax + 1

/-- A worker that is not done can take a step. -/
theorem Inv.acts (hd : Serving d serves) (hfits : Fits o n m N) {w : Worker σ} {lines : List Line}
    (h : Inv serves f o threshold n m N t w lines) (hnot : w.point ≠ .done) :
    ∃ new w', Act d w new w' := by
  obtain ⟨job, point⟩ := w
  obtain ⟨hstart, hn, hN, hseeds⟩ := hfits
  unfold intMax at hN hseeds
  cases point with
  | entry => exact ⟨_, _, .entry⟩
  | done => exact absurd rfl hnot
  | outer seed =>
    by_cases hlt : seed < job.stop
    · obtain ⟨env, ctx, hmake⟩ := hd.make job.ctx (seedBytes seed)
      exact ⟨_, _, .make hlt hmake⟩
    · exact ⟨_, _, .leave hlt⟩
  | inner seed nonce =>
    obtain ⟨k, j, hseed, hnonce, hk, hj, hserves, htested⟩ := h
    have hnonces := htested.given.nonces
    have hstep := htested.given.step
    by_cases hlt : nonce < job.nonces
    · obtain ⟨env, hashval, hquery⟩ := hd.query (toUint64 nonce) hserves
      have hnext : addInt nonce 1 = some (nonce + 1) :=
        addInt_isSome (by unfold intMax; omega) (by unfold intMax; omega)
      exact ⟨_, _, .exec hlt hquery hnext⟩
    · have hlength : (Team.dealt n t k).length = k := by
        rw [Team.dealt, List.length_map, List.length_range]
      have htotal : job.totalHashes = (k * N : Nat) := by
        rw [htested.total, seedPairs_length, hlength]
      have hkn : k ≤ k * n := Nat.le_mul_of_pos_right k hn
      have hproduct : k * N ≤ 2147483647 * 2147483647 := Nat.mul_le_mul (by omega) (by omega)
      have hsum : addInt64 job.totalHashes job.nonces = some (job.totalHashes + job.nonces) :=
        if_pos (by omega)
      have hnext : addInt seed job.step = some (seed + job.step) :=
        addInt_isSome (by unfold intMax; omega) (by unfold intMax; omega)
      exact ⟨_, _, .next hlt hsum hnext⟩

end Progress

section Completion

variable {σ : Type}

/-- No sum of the totals overflows if the last one does not. -/
theorem collect_isSome {jobs : List (Job σ)} (hnonneg : ∀ job ∈ jobs, 0 ≤ job.totalHashes)
    (hle : (jobs.map Job.totalHashes).sum ≤ 9223372036854775807) : ∃ totals, collect jobs = some totals := by
  have hfold (jobs : List (Job σ)) (acc : Int × Word × Word) (hnonneg : ∀ job ∈ jobs, 0 ≤ job.totalHashes)
      (hacc : 0 ≤ acc.1) (hle : acc.1 + (jobs.map Job.totalHashes).sum ≤ 9223372036854775807) :
      ∃ totals, jobs.foldlM (fun (acc : Int × Word × Word) job => do
        return (← addInt64 acc.1 job.totalHashes, better acc.2.1 job.bestHash, acc.2.2 ^^^ job.hashSum))
        acc = some totals := by
    induction jobs generalizing acc with
    | nil => exact ⟨acc, rfl⟩
    | cons job jobs ih =>
      obtain ⟨hjob, hjobs⟩ := List.forall_mem_cons.mp hnonneg
      rw [List.map_cons, List.sum_cons] at hle
      have hrest : 0 ≤ (jobs.map Job.totalHashes).sum := by
        refine List.sum_nonneg fun x hx => ?_
        obtain ⟨job', hjob', rfl⟩ := List.mem_map.mp hx
        exact hjobs job' hjob'
      have hadd : addInt64 acc.1 job.totalHashes = some (acc.1 + job.totalHashes) := if_pos (by omega)
      obtain ⟨totals, htotals⟩ := ih (acc.1 + job.totalHashes, better acc.2.1 job.bestHash,
        acc.2.2 ^^^ job.hashSum) hjobs (by dsimp only; omega) (by dsimp only; omega)
      refine ⟨totals, ?_⟩
      rw [List.foldlM_cons, hadd]
      exact htotals
  exact hfold jobs (0, -1, 0) hnonneg le_rfl (by dsimp only; omega)

end Completion

/-- The workers can start on any contexts. In each run no worker runs forever or gets stuck; when all are
done, the totals are there, and the report fails only where it divides by the best hash. -/
def Options.Completes {σ α β : Type} (o : Options) (d : Session.Device σ Seed α Word β Word) : Prop :=
  ∀ {n : Nat}, o.threads = n →
    (∀ ctx : Fin n → σ, ∃ threshold workers, o.Starts threshold workers ∧ ∀ t, (workers t).job.ctx = ctx t) ∧
    ∀ {threshold : Word} {workers : Fin n → Worker σ}, o.Starts threshold workers →
      ∀ S, Team.Runs (fun _ => Act d) ⟨workers, []⟩ S →
        Acc (fun b a => Team.Step (fun _ => Act d) a b) S ∧
        ∃ S', Team.Runs (fun _ => Act d) S S' ∧ (∀ t, (S'.member t).point = .done) ∧
          ((∃ report, Main d o (S'.log.map Prod.snd) report) ↔ ∀ p ∈ o.tested, value p ≠ 0)

section Completion

variable {σ α β : Type} {d : Session.Device σ Seed α Word β Word} {o : Options} {n m N : Nat}

theorem exists_starts (hvalid : o.Valid) (hfits : Fits o n m N) (hm : o.seeds = m) (hn : o.threads = n)
    (garbage : Job σ) (ctx : Fin n → σ) :
    ∃ threshold workers, o.Starts threshold workers ∧ ∀ t : Fin n, (workers t).job.ctx = ctx t := by
  obtain ⟨hstart, hpos, -, hseeds⟩ := hfits
  obtain ⟨⟨hdiff, hdiff'⟩, -, -, -, -⟩ := hvalid
  unfold intMax at hseeds hdiff'
  have hnonzero : toUint64 o.diff * 1000 ≠ 0 := by
    obtain ⟨x, hx⟩ := Int.eq_ofNat_of_zero_le hdiff.le
    intro hzero
    have hval := congrArg BitVec.toNat hzero
    rw [toUint64, hx, BitVec.toNat_mul] at hval
    simp at hval
    omega
  have hstop : addInt o.seeds o.start = some (o.seeds + o.start) :=
    addInt_isSome (by unfold intMax; omega) (by unfold intMax; omega)
  refine ⟨_, fun t => ⟨o.job _ (o.start + t.val) (o.seeds + o.start) garbage t.val (ctx t), .entry⟩,
    ⟨hn, if_neg hnonzero, _, hstop, fun t => ⟨_, garbage, ctx t, ?_, rfl⟩⟩, fun t => rfl⟩
  have ht := t.isLt
  exact addInt_isSome (by unfold intMax; omega) (by unfold intMax; omega)

theorem divide_isSome_iff {a b : Word} : (∃ c, divide a b = some c) ↔ b ≠ 0 := by
  simp [divide]

/-- All runs end for any contexts whose calls return. -/
theorem completes {serves : σ → Seed → Prop} (hcorrect : Session.Correct d serves hashOf)
    (hserving : Serving d serves) (hvalid : o.Valid)
    (hseeds : o.start + o.seeds + o.threads ≤ intMax + 1) : o.Completes d := by
  intro n hn
  obtain ⟨m, hm⟩ := Int.eq_ofNat_of_zero_le hvalid.seeds.1.le
  obtain ⟨N, hN⟩ := Int.eq_ofNat_of_zero_le hvalid.nonces.1.le
  have hpos : 0 < n := by
    have := hvalid.threads.1
    omega
  have hfits : Fits o n m N := ⟨hvalid.start.1, hpos, hN ▸ hvalid.nonces.2, by rwa [← hm, ← hn]⟩
  refine ⟨fun ctx => ?_, fun {threshold workers} hstarts S hruns => ?_⟩
  · exact exists_starts hvalid hfits hm hn ⟨0, ctx ⟨0, hpos⟩, 0, 0, 0, 0, 0, 0, 0, 0⟩ ctx
  have hd := hashes_of_correct hcorrect
  have hinv {S : Team.State (Fin n) (Worker σ) Line} (h : Team.Runs (fun _ => Act d) ⟨workers, []⟩ S) :=
    runs_inv hd hstarts hm hN h
  obtain ⟨hacc, S', hruns', hdone⟩ := Team.completes
    (P := fun (t : Fin n) w lines => Inv serves value o threshold n m N t w lines)
    (fun hw hact => hw.step hd hact) (fun _ w => w.measure) (fun _ w => w.point = .done)
    (fun hw hact => hact.decreases (by rw [hw.step_eq]; omega)) (fun hw hnot => hw.acts hserving hfits hnot)
    (hinv hruns)
  refine ⟨hacc, S', hruns', hdone, ?_⟩
  obtain ⟨htotal, hbest, -, -⟩ := finished_jobs hm hN hn hpos (hinv (hruns.trans hruns')) hdone
  have hlowest : lowest (o.tested.map value) ≠ 0 ↔ ∀ p ∈ o.tested, value p ≠ 0 := by
    simp only [ne_eq, lowest_eq_zero_iff, List.mem_map, not_exists, not_and]
  constructor
  · rintro ⟨report, hmain⟩
    obtain ⟨-, -, -, hbest', hdiff, -⟩ := main_reports hcorrect hvalid hmain
    rw [← hlowest, ← hbest']
    exact divide_isSome_iff.mp ⟨_, hdiff⟩
  · intro hall
    have hnonneg : ∀ job ∈ (List.finRange n).map fun t => (S'.member t).job, 0 ≤ job.totalHashes := by
      intro job hjob
      obtain ⟨t, -, rfl⟩ := List.mem_map.mp hjob
      obtain ⟨k, -, htested⟩ := tested_of_done (hinv (hruns.trans hruns') t) (hdone t)
      rw [htested.total]
      exact Int.natCast_nonneg _
    have hle : (((List.finRange n).map fun t => (S'.member t).job).map Job.totalHashes).sum ≤
        9223372036854775807 := by
      obtain ⟨hstart, hpos', hNle, hmle⟩ := hfits
      unfold intMax at hNle hmle
      have hproduct : m * N ≤ 2147483647 * 2147483647 := Nat.mul_le_mul (by omega) (by omega)
      rw [htotal, hm, hN, ← Nat.cast_mul]
      omega
    obtain ⟨⟨total, best, sum⟩, hcollect⟩ := collect_isSome hnonneg hle
    have hbest' : best = lowest (o.tested.map value) := (collect_eq hcollect).2.1.trans hbest
    obtain ⟨diff, hdiff⟩ := divide_isSome_iff (a := -1).mpr (hbest' ▸ hlowest.mpr hall)
    exact ⟨_, .intro hstarts (hruns.trans hruns') hdone hcollect hdiff⟩

end Completion

/-! ## Contexts that serve -/

theorem interpreted_serving : Serving interpretedContext Interpreted.Holds where
  make ctx seed := ⟨(), ctx.make seed, rfl⟩
  made hmake := interpretedContext_correct.make hmake
  query nonce h := ⟨.replicate 256 0, interpretedContext_live.query nonce _ h⟩

theorem compiled_made (native : Native) {ctx ctx' : Compiled} {seed : Seed} {env : MakeEnv}
    (henv : env.Granted) (hmake : (compiledContext native).make ctx seed env ctx') :
    ctx'.Serves native seed := by
  obtain ⟨ctx'', hmake', hserves⟩ := (compiledContext_live native).make ctx seed henv
  obtain rfl := Option.some.inj (hmake'.symm.trans hmake)
  exact hserves

theorem compiled_serving (native : Native) :
    Serving ((compiledContext native).restrict MakeEnv.Granted) (Compiled.Serves native) where
  make ctx seed := by
    let env : MakeEnv := ⟨.replicate 32 (.replicate 10 ⟨.halt, 0, 0, 0⟩), true, true⟩
    have hgranted : env.Granted := ⟨rfl, rfl⟩
    obtain ⟨ctx', hmake, -⟩ := (compiledContext_live native).make ctx seed hgranted
    exact ⟨env, ctx', hgranted, hmake⟩
  made hmake := compiled_made native hmake.1 hmake.2
  query nonce h := ⟨native.openCaller, (compiledContext_live native).query nonce _ h⟩

theorem Serving.restrict {σ α β : Type} {d : Session.Device σ Seed α Word β Word} {serves : σ → Seed → Prop}
    {granted : α → Prop} (h : Serving d serves) (hgranted : ∀ env, granted env) :
    Serving (d.restrict granted) serves where
  make ctx seed := by
    obtain ⟨env, ctx', hmake⟩ := h.make ctx seed
    exact ⟨env, ctx', hgranted env, hmake⟩
  made hmake := h.made hmake.2
  query := h.query

theorem contextsOf_reliable (native : Native) (type : Lifetime.HashwxType) :
    ∃ serves, Session.Correct (contextsOf native type).reliable serves hashOf ∧
      Serving (contextsOf native type).reliable serves := by
  cases type with
  | interpreted =>
    exact ⟨Interpreted.Holds, interpretedContext_correct.restrict,
      interpreted_serving.restrict fun _ => trivial⟩
  | compiled =>
    refine ⟨Compiled.Serves native, ⟨fun hmake => compiled_made native hmake.1 hmake.2, ?_⟩,
      compiled_serving native⟩
    exact fun h hquery => (compiledContext_correct native).query h.toHolds hquery

/-- **Every run of the benchmark ends**, with every command line whose numbers do not overflow, on
interpreted contexts and on compiled ones whose protection calls succeed: the workers can start, in
no order do they run forever, from each state they can all get done, and then the report is
printed if and only if no hash is zero. -/
theorem bench_completes (native : Native) (atoi : String → BitVec 32) (argv : List String)
    (hseeds : (readOptions atoi argv).start + (readOptions atoi argv).seeds + (readOptions atoi argv).threads ≤
      intMax + 1) :
    (readOptions atoi argv).Completes ((readOptions atoi argv).contexts native).reliable := by
  obtain ⟨serves, hcorrect, hserving⟩ := contextsOf_reliable native (readOptions atoi argv).flags
  exact completes hcorrect hserving (readOptions_valid atoi argv) hseeds

/-! ## A sample run -/

/-- `atoi` of the numbers in the command line. -/
def sampleAtoi (s : String) : BitVec 32 := if s = "1" then 1 else if s = "2" then 2 else 0

def sampleArgs : List String := ["bench", "--seeds", "1", "--nonces", "1", "--threads", "2"]

def sampleOptions (interpret : Bool) : Options := ⟨intMax, 0, 1, 1, 2, interpret⟩

/-- The only hash of the run, from an evaluation of the interpreter. -/
theorem value_sample : value (0, 0) = 1624062676032966177 := by
  let ctx : Interpreted := ⟨.replicate 32 (.replicate 10 ⟨.halt, 0, 0, 0⟩), ⟨0, 0⟩⟩
  have hexec : (ctx.make (seedBytes 0)).exec (toUint64 0) (.replicate 256 0) = some 1624062676032966177 := by
    decide +kernel
  have hvalue := Interpreted.exec_eq (ctx.holds_make (seedBytes 0)) (toUint64 0) (.replicate 256 0)
  exact Option.some.inj (hvalue.symm.trans hexec)

theorem sampleOptions_values (interpret : Bool) : ∀ p ∈ (sampleOptions interpret).tested, value p ≠ 0 := by
  intro p hp
  obtain rfl := List.mem_singleton.mp (show p ∈ [(0, 0)] from hp)
  rw [value_sample]
  decide

theorem sampleOptions_valid (interpret : Bool) : (sampleOptions interpret).Valid := by
  constructor <;> simp [sampleOptions, intMax]

theorem sampleOptions_main {σ α β : Type} {d : Session.Device σ Seed α Word β Word} {serves : σ → Seed → Prop}
    (hcorrect : Session.Correct d serves hashOf) (hserving : Serving d serves) (interpret : Bool) (ctx : σ) :
    ∃ lines report, Main d (sampleOptions interpret) lines report := by
  obtain ⟨hstarts, hcompletes⟩ :=
    completes hcorrect hserving (sampleOptions_valid interpret) (by simp [sampleOptions, intMax]) (n := 2) rfl
  obtain ⟨threshold, workers, hstart, -⟩ := hstarts fun _ => ctx
  obtain ⟨-, S, -, -, hreport⟩ := hcompletes hstart _ .refl
  exact ⟨_, hreport.mpr (sampleOptions_values interpret)⟩

/-- Two workers with interpreted contexts. -/
theorem bench_reports_sample :
    let o := readOptions sampleAtoi (sampleArgs ++ ["--interpret"])
    ∃ lines report, Main (o.contexts .a64).device o lines report ∧ o.Reported lines report := by
  intro o
  obtain ⟨lines, report, hmain⟩ := sampleOptions_main interpretedContext_correct interpreted_serving true
    ⟨.replicate 32 (.replicate 10 ⟨.halt, 0, 0, 0⟩), ⟨0, 0⟩⟩
  exact ⟨lines, report, hmain, bench_reports .a64 sampleAtoi (sampleArgs ++ ["--interpret"]) hmain⟩

/-- Two workers with new compiled contexts. -/
theorem bench_completes_sample :
    let o := readOptions sampleAtoi sampleArgs
    let d := (o.contexts (.x86 .sysv)).reliable
    ∃ threshold workers, o.Starts threshold workers ∧ ∃ (S : Team.State (Fin 2) _ Line) (report : Report),
      Team.Runs (fun _ => Act d) ⟨workers, []⟩ S ∧ (∀ t, (S.member t).point = .done) ∧
      Main d o (S.log.map Prod.snd) report := by
  intro o d
  obtain ⟨hstarts, hcompletes⟩ := bench_completes (.x86 .sysv) sampleAtoi sampleArgs (by decide) (n := 2) rfl
  obtain ⟨threshold, workers, hstart, -⟩ := hstarts fun _ => Compiled.alloc (.replicate 8192 0) ⟨0, 0⟩
  obtain ⟨-, S, hruns, hdone, hreport⟩ := hcompletes hstart _ .refl
  obtain ⟨report, hmain⟩ := hreport.mpr (sampleOptions_values false)
  exact ⟨threshold, workers, hstart, S, report, hruns, hdone, hmain⟩

end HashWX.Bench
