import Mathlib.Algebra.BigOperators.Fin
import Mathlib.Algebra.Order.BigOperators.Group.Finset
import Mathlib.Algebra.Order.Group.Nat
import SystemsCourse.Lib.Actions
import SystemsCourse.Lib.Decimal
import SystemsCourse.NetForge.Bench

/-!
# The benchmark

Model of `main` in `capstone/reference/apps/bench_main.cpp`: the workers with their connections, each with a
share of the requests and its own samples, and what is reported after they were joined.  The clock and the
network are the outcomes of the steps.

* `sum_share`             the shares are all the requests;
* `Bench.Tally`           the samples and the failures of a run, in every interleaving;
* `benchmark_accounts`    what is reported.
-/

set_option linter.unusedVariables false

namespace NetForge
open Wire Actions Decimal

/-! ## the arguments -/

def parseSize (text : Bytes) (allowZero : Bool) : Option ℕ :=
  match fromChars text with
  | .ok (parsed, []) => if !allowZero && parsed == 0 then none else some parsed.toNat
  | _ => none

structure BenchConfig where
  requestCount : ℕ := 1000
  concurrency : ℕ := 4
  warmupPerConnection : ℕ := 10

/-- an argument with its default and its limit -/
def benchNumber (args : List Bytes) (index : ℕ) (allowZero : Bool) (default limit : ℕ) : Option ℕ :=
  ((args[index]?.map fun text => parseSize text allowZero).getD (some default)).filter (· ≤ limit)

/-- the text of an error; the program then returns 2 -/
def benchArgs (args : List Bytes) : Except Bytes BenchConfig :=
  if args.length < 3 ∨ 6 < args.length then
    .error (ascii "usage: netforge-bench HOST PORT [REQUESTS] [CONCURRENCY] [WARMUP_PER_CONNECTION]\n")
  else
    match benchNumber args 2 false 0 65535, benchNumber args 3 false 1000 10000000,
        benchNumber args 4 false 4 256, benchNumber args 5 true 10 1000000 with
    | some _, some requestCount, some concurrency, some warmup => .ok ⟨requestCount, concurrency, warmup⟩
    | _, _, _, _ => .error (ascii "invalid numeric argument\n")

theorem benchNumber_some {args : List Bytes} {index default limit n : ℕ} (hdefault : 0 < default)
    (h : benchNumber args index false default limit = some n) : 0 < n ∧ n ≤ limit := by
  obtain ⟨hget, hle⟩ := Option.filter_eq_some_iff.mp h
  refine ⟨?_, of_decide_eq_true hle⟩
  cases harg : args[index]? with
  | none =>
    rw [harg] at hget
    cases hget
    exact hdefault
  | some text =>
    rw [harg] at hget
    have hparse : parseSize text false = some n := hget
    unfold parseSize at hparse
    split at hparse
    · split at hparse
      · cases hparse
      · rename_i parsed _ hzero
        cases hparse
        refine Nat.pos_of_ne_zero fun hn => hzero ?_
        rw [UInt64.toNat_inj.mp (show parsed.toNat = (0 : UInt64).toNat from hn)]
        rfl
    · cases hparse

theorem benchArgs_ok {args : List Bytes} {config : BenchConfig} (h : benchArgs args = .ok config) :
    0 < config.requestCount ∧ config.requestCount ≤ 10000000 ∧ 0 < config.concurrency := by
  unfold benchArgs at h
  split at h
  · cases h
  · split at h
    · rename_i hrequests hconcurrency _
      cases h
      obtain ⟨hpos, hle⟩ := benchNumber_some (by decide) hrequests
      exact ⟨hpos, hle, (benchNumber_some (by decide) hconcurrency).1⟩
    · cases h

/-- `worker_request_count` -/
def BenchConfig.share (config : BenchConfig) (worker : ℕ) : ℕ :=
  config.requestCount / config.concurrency +
    if worker < config.requestCount % config.concurrency then 1 else 0

/-! ## the workers -/

inductive BenchPc where
  | connecting
  | warming (done : ℕ)
  | measuring (done : ℕ)
  | ended
deriving DecidableEq

structure Bench (config : BenchConfig) where
  failures : ℕ := 0
  samples : Fin config.concurrency → List Int64 := fun _ => []
  pc : Fin config.concurrency → BenchPc := fun _ => .connecting

/-- what a worker does, with the answer of the network; a ping that is measured takes some nanoseconds -/
inductive BenchAct (config : BenchConfig) where
  | connect (w : Fin config.concurrency) (ok : Bool)
  | warm (w : Fin config.concurrency) (done : ℕ) (ok : Bool)
  | warmed (w : Fin config.concurrency)
  | ping (w : Fin config.concurrency) (done : ℕ) (nanoseconds : Option Int64)
  | finish (w : Fin config.concurrency)

namespace Bench
variable {config : BenchConfig}

def goto (x : Bench config) (w : Fin config.concurrency) (pc : BenchPc) : Bench config :=
  { x with pc := Function.update x.pc w pc }

/-- `failures.fetch_add(1)`, and the worker returns -/
def fail (x : Bench config) (w : Fin config.concurrency) : Bench config :=
  { x.goto w .ended with failures := x.failures + 1 }

def push (x : Bench config) (w : Fin config.concurrency) (nanoseconds : Int64) : Bench config :=
  { x with samples := Function.update x.samples w (x.samples w ++ [nanoseconds]) }

end Bench

namespace BenchAct
variable {config : BenchConfig}

def Ok (x : Bench config) : BenchAct config → Prop
  | .connect w _ => x.pc w = .connecting
  | .warm w done _ => x.pc w = .warming done ∧ done < config.warmupPerConnection
  | .warmed w => x.pc w = .warming config.warmupPerConnection
  | .ping w done _ => x.pc w = .measuring done ∧ done < config.share w
  | .finish w => x.pc w = .measuring (config.share w)

def out (x : Bench config) : BenchAct config → Bench config
  | .connect w true => x.goto w (.warming 0)
  | .connect w false => x.fail w
  | .warm w done true => x.goto w (.warming (done + 1))
  | .warm w _ false => x.fail w
  | .warmed w => x.goto w (.measuring 0)
  | .ping w done (some nanoseconds) => (x.push w nanoseconds).goto w (.measuring (done + 1))
  | .ping w _ none => x.fail w
  | .finish w => x.goto w .ended

def fails : BenchAct config → Bool
  | .connect _ ok => !ok
  | .warm _ _ ok => !ok
  | .ping _ _ nanoseconds => nanoseconds.isNone
  | _ => false

def measured : BenchAct config → Option Int64
  | .ping _ _ nanoseconds => nanoseconds
  | _ => none

instance (x : Bench config) : (a : BenchAct config) → Decidable (a.Ok x)
  | .connect w _ => inferInstanceAs (Decidable (x.pc w = _))
  | .warm w _ _ => inferInstanceAs (Decidable (x.pc w = _ ∧ _ < _))
  | .warmed w => inferInstanceAs (Decidable (x.pc w = _))
  | .ping w _ _ => inferInstanceAs (Decidable (x.pc w = _ ∧ _ < _))
  | .finish w => inferInstanceAs (Decidable (x.pc w = _))

end BenchAct

/-! ## the report -/

/-- what is printed, without the rates; the percentiles are in nanoseconds -/
inductive Report where
  | failed (completed requested failures : ℕ)
  | completed (requests : ℕ) (p50 p95 p99 slowest : Int64)
deriving DecidableEq

namespace Bench
variable {config : BenchConfig}

/-- the samples of all workers -/
def merged (x : Bench config) : List Int64 := (List.finRange config.concurrency).flatMap x.samples

/-- `none` if the behaviour is undefined: an index outside of the samples -/
def report (x : Bench config) : Option Report :=
  let samples := x.merged
  if x.failures ≠ 0 ∨ samples.length ≠ config.requestCount then
    some (.failed samples.length config.requestCount x.failures)
  else do
    let sorted := samples.mergeSort fun a b => decide (a ≤ b)
    return .completed samples.length (← percentile sorted 50) (← percentile sorted 95)
      (← percentile sorted 99) (← sorted.getLast?)

end Bench

/-! ## the shares -/

theorem sum_range_share (q r c : ℕ) :
    ∑ w ∈ Finset.range c, (q + if w < r then 1 else 0) = c * q + min c r := by
  induction c with
  | zero => simp
  | succ c ih =>
    rw [Finset.sum_range_succ, ih, Nat.succ_mul]
    split_ifs with h <;> omega

/-- **the shares are all the requests** -/
theorem sum_share (config : BenchConfig) (h : 0 < config.concurrency) :
    ∑ w : Fin config.concurrency, config.share w = config.requestCount := by
  have hlt := Nat.mod_lt config.requestCount h
  have hdiv := Nat.div_add_mod config.requestCount config.concurrency
  unfold BenchConfig.share
  rw [Fin.sum_univ_eq_sum_range (fun w => config.requestCount / config.concurrency +
    if w < config.requestCount % config.concurrency then 1 else 0), sum_range_share]
  omega

/-! ## the workers of a run -/

/-- one worker adds a sample -/
theorem flatMap_update_perm {ι α : Type} [DecidableEq ι] {l : List ι} (hnodup : l.Nodup) {w : ι} (hw : w ∈ l)
    (f : ι → List α) (a : α) :
    (l.flatMap (Function.update f w (f w ++ [a]))).Perm (l.flatMap f ++ [a]) := by
  obtain ⟨before, after, rfl⟩ := List.append_of_mem hw
  have hsame {l' : List ι} (hl : w ∉ l') : l'.flatMap (Function.update f w (f w ++ [a])) = l'.flatMap f := by
    refine List.flatMap_congr fun v hv => Function.update_of_ne ?_ ..
    rintro rfl
    exact hl hv
  rw [List.nodup_append] at hnodup
  obtain ⟨-, hafter, hdisjoint⟩ := hnodup
  have hbefore : w ∉ before := fun hm => hdisjoint w hm w List.mem_cons_self rfl
  simp only [List.flatMap_append, List.flatMap_cons, Function.update_self, hsame hbefore,
    hsame (List.nodup_cons.mp hafter).1, List.append_assoc]
  refine List.Perm.append_left _ (List.Perm.append_left _ ?_)
  exact List.perm_append_comm

/-- the samples of a worker, for its place; a share is incomplete only after a failure -/
def BenchPc.Counted (share failures : ℕ) (samples : List Int64) : BenchPc → Prop
  | .connecting => samples = []
  | .warming _ => samples = []
  | .measuring done => samples.length = done ∧ done ≤ share
  | .ended => samples.length ≤ share ∧ (failures = 0 → samples.length = share)

namespace BenchPc.Counted
variable {share failures : ℕ} {samples : List Int64} {pc : BenchPc}

theorem length_le (h : pc.Counted share failures samples) : samples.length ≤ share := by
  cases pc with
  | connecting =>
    cases h
    exact Nat.zero_le _
  | warming done =>
    cases h
    exact Nat.zero_le _
  | measuring done => exact h.1.trans_le h.2
  | ended => exact h.1

theorem fail (h : pc.Counted share failures samples) : pc.Counted share (failures + 1) samples := by
  cases pc with
  | ended => exact ⟨h.1, nofun⟩
  | _ => exact h

end BenchPc.Counted

namespace Bench
variable {config : BenchConfig} {x : Bench config}

/-- the actions so far and the state -/
structure Tally (as : List (BenchAct config)) (x : Bench config) : Prop where
  failures : x.failures = as.countP BenchAct.fails
  samples : x.merged.Perm (as.filterMap BenchAct.measured)
  counted : ∀ w, (x.pc w).Counted (config.share w) x.failures (x.samples w)

section
variable {as : List (BenchAct config)} (h : x.Tally as) {a : BenchAct config} {w : Fin config.concurrency}
include h

theorem Tally.unmeasured (hmeasured : a.measured = none) :
    x.merged.Perm ((as ++ [a]).filterMap BenchAct.measured) := by
  rw [List.filterMap_append, List.filterMap_cons_none hmeasured, List.filterMap_nil, List.append_nil]
  exact h.samples

/-- a worker goes on without a sample -/
theorem Tally.goto {pc : BenchPc} (hfails : a.fails = false) (hmeasured : a.measured = none)
    (hcounted : pc.Counted (config.share w) x.failures (x.samples w)) :
    (x.goto w pc).Tally (as ++ [a]) where
  failures := by
    rw [List.countP_append, List.countP_singleton, hfails]
    exact h.failures
  samples := h.unmeasured hmeasured
  counted v := by
    show (Function.update x.pc w pc v).Counted (config.share v) x.failures (x.samples v)
    by_cases hv : v = w
    · subst hv
      rw [Function.update_self]
      exact hcounted
    · rw [Function.update_of_ne hv]
      exact h.counted v

/-- a worker fails -/
theorem Tally.fail (hfails : a.fails = true) (hmeasured : a.measured = none) :
    (x.fail w).Tally (as ++ [a]) where
  failures := by
    rw [List.countP_append, List.countP_singleton, hfails]
    exact congrArg (· + 1) h.failures
  samples := h.unmeasured hmeasured
  counted v := by
    show (Function.update x.pc w .ended v).Counted (config.share v) (x.failures + 1) (x.samples v)
    by_cases hv : v = w
    · subst hv
      rw [Function.update_self]
      exact ⟨(h.counted v).length_le, nofun⟩
    · rw [Function.update_of_ne hv]
      exact (h.counted v).fail

/-- a worker has measured a ping -/
theorem Tally.push {done : ℕ} (hpc : x.pc w = .measuring done) (hlt : done < config.share w)
    (nanoseconds : Int64) :
    ((BenchAct.ping w done (some nanoseconds)).out x).Tally (as ++ [.ping w done (some nanoseconds)]) where
  failures := by
    rw [List.countP_append, List.countP_singleton]
    exact h.failures
  samples := by
    rw [List.filterMap_append]
    refine (flatMap_update_perm (List.nodup_finRange _) (List.mem_finRange w) x.samples nanoseconds).trans ?_
    exact h.samples.append_right [nanoseconds]
  counted v := by
    have hcounted := h.counted v
    show (Function.update x.pc w (.measuring (done + 1)) v).Counted (config.share v) x.failures
      (Function.update x.samples w (x.samples w ++ [nanoseconds]) v)
    by_cases hv : v = w
    · subst hv
      rw [hpc] at hcounted
      rw [Function.update_self, Function.update_self]
      refine ⟨?_, hlt⟩
      rw [List.length_append, hcounted.1]
      rfl
    · rw [Function.update_of_ne hv, Function.update_of_ne hv]
      exact hcounted

theorem Tally.act (ha : a.Ok x) : (a.out x).Tally (as ++ [a]) := by
  cases a with
  | connect w ok =>
    have hcounted := h.counted w
    rw [show x.pc w = .connecting from ha] at hcounted
    cases ok with
    | true => exact h.goto rfl rfl hcounted
    | false => exact h.fail rfl rfl
  | warm w done ok =>
    have hcounted := h.counted w
    rw [ha.1] at hcounted
    cases ok with
    | true => exact h.goto rfl rfl hcounted
    | false => exact h.fail rfl rfl
  | warmed w =>
    have hcounted := h.counted w
    rw [show x.pc w = .warming _ from ha] at hcounted
    refine h.goto rfl rfl ⟨?_, Nat.zero_le _⟩
    rw [show x.samples w = [] from hcounted]
    rfl
  | ping w done nanoseconds =>
    cases nanoseconds with
    | none => exact h.fail rfl rfl
    | some nanoseconds => exact h.push ha.1 ha.2 nanoseconds
  | finish w =>
    have hcounted := h.counted w
    rw [show x.pc w = .measuring _ from ha] at hcounted
    exact h.goto rfl rfl ⟨hcounted.1.le, fun _ => hcounted.1⟩

end

theorem Tally.of_run {as : List (BenchAct config)} (hrun : Run BenchAct.Ok BenchAct.out {} as x) :
    x.Tally as := by
  refine run_history (fun as x => x.Tally as) hrun ⟨rfl, ?_, fun _ => rfl⟩ fun _ _ _ h ha => h.act ha
  show ((List.finRange config.concurrency).flatMap fun _ => ([] : List Int64)).Perm []
  rw [List.flatMap_eq_nil_iff.mpr fun _ _ => rfl]

theorem merged_length (x : Bench config) : x.merged.length = ∑ w, (x.samples w).length := by
  rw [merged, List.length_flatMap, Fin.sum_univ_def]

end Bench

/-! ## percentiles of one list -/

theorem mergeSort_sorted (l : List Int64) : (l.mergeSort fun a b => decide (a ≤ b)).Pairwise (· ≤ ·) := by
  have h := @List.pairwise_mergeSort Int64 (fun a b => decide (a ≤ b))
    (fun a b c hab hbc => decide_eq_true (Int64.le_trans (of_decide_eq_true hab) (of_decide_eq_true hbc)))
    (fun a b => by simpa using Int64.le_total a b) l
  exact h.imp of_decide_eq_true

/-- the three percentiles and the slowest sample, in a sorted list -/
theorem percentiles_sorted {l : List Int64} (hsorted : l.Pairwise (· ≤ ·)) (hpos : 0 < l.length)
    (hle : l.length ≤ 10000000) :
    ∃ p50 p95 p99 slowest, percentile l 50 = some p50 ∧ percentile l 95 = some p95 ∧
      percentile l 99 = some p99 ∧ l.getLast? = some slowest ∧
      NearestRank 50 l p50 ∧ NearestRank 95 l p95 ∧ NearestRank 99 l p99 ∧
      slowest ∈ l ∧ ∀ y ∈ l, y ≤ slowest := by
  obtain ⟨p50, e50, h50⟩ := @percentile_spec l 50 hpos hsorted hle (by decide) (by decide)
  obtain ⟨p95, e95, h95⟩ := @percentile_spec l 95 hpos hsorted hle (by decide) (by decide)
  obtain ⟨p99, e99, h99⟩ := @percentile_spec l 99 hpos hsorted hle (by decide) (by decide)
  have hlast : l.length - 1 < l.length := by omega
  have elast : l.getLast? = some l[l.length - 1] := by
    rw [List.getLast?_eq_getElem?, List.getElem?_eq_getElem hlast]
  refine ⟨p50, p95, p99, _, e50, e95, e99, elast, h50, h95, h99, List.getElem_mem hlast, fun y hy => ?_⟩
  obtain ⟨i, hi, rfl⟩ := List.getElem_of_mem hy
  exact Rank.getElem_le hsorted (by omega) hlast

/-! ## the steps that are left -/

def BenchPc.rank (warmup share : ℕ) : BenchPc → ℕ
  | .connecting => warmup + share + 3
  | .warming done => warmup - done + share + 2
  | .measuring done => share - done + 1
  | .ended => 0

namespace Bench
variable {config : BenchConfig} {x : Bench config}

def rank (x : Bench config) : ℕ :=
  ∑ w, (x.pc w).rank config.warmupPerConnection (config.share w)

/-- a worker goes on -/
theorem rank_lt {y : Bench config} {w : Fin config.concurrency} {pc : BenchPc}
    (hpc : y.pc = Function.update x.pc w pc)
    (hlt : pc.rank config.warmupPerConnection (config.share w)
      < (x.pc w).rank config.warmupPerConnection (config.share w)) : y.rank < x.rank := by
  refine Finset.sum_lt_sum (fun v _ => ?_) ⟨w, Finset.mem_univ w, ?_⟩
  · by_cases hv : v = w
    · subst hv
      rw [hpc, Function.update_self]
      exact hlt.le
    · rw [hpc, Function.update_of_ne hv]
  · rw [hpc, Function.update_self]
    exact hlt

theorem rank_start (h : 0 < config.concurrency) :
    ({} : Bench config).rank
      = config.concurrency * (config.warmupPerConnection + 3) + config.requestCount := by
  show ∑ w : Fin config.concurrency, (config.warmupPerConnection + config.share w + 3) = _
  simp only [Nat.add_right_comm _ _ 3]
  rw [Finset.sum_add_distrib, sum_share config h, Finset.sum_const, Finset.card_univ, Fintype.card_fin]
  rfl

end Bench

theorem BenchAct.rank_lt {config : BenchConfig} {x : Bench config} (a : BenchAct config) (ha : a.Ok x) :
    (a.out x).rank < x.rank := by
  cases a with
  | connect w ok =>
    have hpc : x.pc w = .connecting := ha
    cases ok with
    | true => exact Bench.rank_lt (w := w) rfl (by rw [hpc]; show _ - 0 + _ + 2 < _ + _ + 3; omega)
    | false => exact Bench.rank_lt (w := w) rfl (by rw [hpc]; exact Nat.succ_pos _)
  | warm w done ok =>
    obtain ⟨hpc, hlt⟩ := ha
    cases ok with
    | true =>
      refine Bench.rank_lt (w := w) rfl ?_
      rw [hpc]
      show config.warmupPerConnection - (done + 1) + _ + 2 < config.warmupPerConnection - done + _ + 2
      omega
    | false => exact Bench.rank_lt (w := w) rfl (by rw [hpc]; exact Nat.succ_pos _)
  | warmed w =>
    have hpc : x.pc w = .warming config.warmupPerConnection := ha
    refine Bench.rank_lt (w := w) rfl ?_
    rw [hpc]
    show config.share w - 0 + 1 < _ + config.share w + 2
    omega
  | ping w done nanoseconds =>
    obtain ⟨hpc, hlt⟩ := ha
    cases nanoseconds with
    | none => exact Bench.rank_lt (w := w) rfl (by rw [hpc]; exact Nat.succ_pos _)
    | some nanoseconds =>
      refine Bench.rank_lt (w := w) rfl ?_
      rw [hpc]
      show config.share w - (done + 1) + 1 < config.share w - done + 1
      omega
  | finish w =>
    have hpc : x.pc w = .measuring (config.share w) := ha
    exact Bench.rank_lt (w := w) rfl (by rw [hpc]; exact Nat.succ_pos _)

/-- **The benchmark accounts for every ping.**  However the workers are interleaved and whatever the network
answers, they end after a bounded number of steps.  If a connection or a ping has failed, the report says
how many, with the number of pings that were measured.  If none has, every request was measured, and the
percentiles and the slowest sample are those of all the measured times of the run, each counted once. -/
theorem benchmark_accounts (args : List Bytes) (config : BenchConfig) (hargs : benchArgs args = .ok config)
    (as : List (BenchAct config)) (x : Bench config) (hrun : Run BenchAct.Ok BenchAct.out {} as x) :
    as.length ≤ config.concurrency * (config.warmupPerConnection + 3) + config.requestCount ∧
    (as.filterMap BenchAct.measured).length ≤ config.requestCount ∧
    ((∀ w, x.pc w = .ended) →
      (0 < as.countP BenchAct.fails → x.report = some (.failed (as.filterMap BenchAct.measured).length
        config.requestCount (as.countP BenchAct.fails))) ∧
      (as.countP BenchAct.fails = 0 →
        (as.filterMap BenchAct.measured).length = config.requestCount ∧
        ∃ p50 p95 p99 slowest, x.report = some (.completed config.requestCount p50 p95 p99 slowest) ∧
          p50 ≤ p95 ∧ p95 ≤ p99 ∧ p99 ≤ slowest ∧ slowest ∈ as.filterMap BenchAct.measured ∧
          (∀ y ∈ as.filterMap BenchAct.measured, y ≤ slowest) ∧
          NearestRank 50 (as.filterMap BenchAct.measured) p50 ∧
          NearestRank 95 (as.filterMap BenchAct.measured) p95 ∧
          NearestRank 99 (as.filterMap BenchAct.measured) p99)) := by
  obtain ⟨hpos, hmax, hworkers⟩ := benchArgs_ok hargs
  have htally := Bench.Tally.of_run hrun
  have hshare := sum_share config hworkers
  have hmerged := x.merged_length
  have hlength := htally.samples.length_eq
  have hle : x.merged.length ≤ config.requestCount := by
    rw [hmerged, ← hshare]
    exact Finset.sum_le_sum fun w _ => (htally.counted w).length_le
  refine ⟨?_, hlength ▸ hle, fun hended => ⟨fun hfails => ?_, fun hfails => ?_⟩⟩
  · have hbound := run_bounded (fun _ : Bench config => True) Bench.rank 0 (fun _ => false)
      (fun _ _ _ _ => trivial) (fun _ a _ ha _ => a.rank_lt ha) (fun _ _ _ _ ho => by cases ho) trivial hrun
    rw [Bench.rank_start hworkers, Nat.zero_mul] at hbound
    have hcount : as.countP (fun _ => !false) = as.length :=
      congrFun List.countP_true as
    omega
  · rw [← htally.failures] at hfails ⊢
    rw [← hlength]
    exact if_pos (Or.inl hfails.ne')
  · have hall : x.merged.length = config.requestCount := by
      rw [hmerged, ← hshare]
      refine Finset.sum_congr rfl fun w _ => ?_
      have hcounted := htally.counted w
      rw [hended w] at hcounted
      exact hcounted.2 (htally.failures.trans hfails)
    refine ⟨hlength ▸ hall, ?_⟩
    set sorted := x.merged.mergeSort fun a b => decide (a ≤ b) with hsorted
    have hperm : sorted.Perm (as.filterMap BenchAct.measured) :=
      (List.mergeSort_perm _ _).trans htally.samples
    have hlen : sorted.length = config.requestCount := (List.length_mergeSort _).trans hall
    obtain ⟨p50, p95, p99, slowest, e50, e95, e99, elast, h50, h95, h99, hmem, hslowest⟩ :=
      percentiles_sorted (mergeSort_sorted x.merged) (hlen ▸ hpos) (hlen ▸ hmax)
    refine ⟨p50, p95, p99, slowest, ?_, h50.mono h95 (by decide), h95.mono h99 (by decide),
      hslowest p99 h99.mem, hperm.mem_iff.mp hmem, fun y hy => hslowest y (hperm.mem_iff.mpr hy),
      h50.perm hperm, h95.perm hperm, h99.perm hperm⟩
    unfold Bench.report
    rw [if_neg (not_or.mpr ⟨not_not.mpr (htally.failures.trans hfails), not_not.mpr hall⟩), hall]
    dsimp only
    rw [e50, e95, e99, elast]
    rfl

/-- three requests of two workers, where the second one fails at its first ping -/
def lostConnection : List (BenchAct ⟨3, 2, 0⟩) :=
  let first : Fin 2 := (Fin.last 0).castSucc
  let second : Fin 2 := Fin.last 1
  [.connect first true, .connect second true, .warmed second, .warmed first, .ping first 0 (some 7),
    .ping second 0 none, .ping first 1 (some 5), .finish first]

/-- the same without a failure -/
def undisturbed : List (BenchAct ⟨3, 2, 0⟩) :=
  let first : Fin 2 := (Fin.last 0).castSucc
  let second : Fin 2 := Fin.last 1
  [.connect first true, .connect second true, .warmed second, .warmed first, .ping first 0 (some 7),
    .ping second 0 (some 6), .finish second, .ping first 1 (some 5), .finish first]

theorem benchmark_accounts_both :
    (∃ x, Run BenchAct.Ok BenchAct.out {} lostConnection x ∧ x.report = some (.failed 2 3 1)) ∧
    (∃ x, Run BenchAct.Ok BenchAct.out {} undisturbed x ∧ x.report = some (.completed 3 6 7 7 7) ∧
      NearestRank 50 [7, 6, 5] 6 ∧ NearestRank 95 [7, 6, 5] 7 ∧ NearestRank 99 [7, 6, 5] 7) := by
  have hargs : benchArgs [ascii "netforge-bench", ascii "127.0.0.1", ascii "9000", ascii "3", ascii "2",
      ascii "0"] = .ok ⟨3, 2, 0⟩ := rfl
  constructor
  · have hrun : Run BenchAct.Ok BenchAct.out {} lostConnection
        (lostConnection.foldl BenchAct.out {}) :=
      ⟨rfl, rfl, rfl, rfl, ⟨rfl, by decide⟩, ⟨rfl, by decide⟩, ⟨rfl, by decide⟩, rfl, rfl⟩
    refine ⟨_, hrun, ?_⟩
    exact ((benchmark_accounts _ _ hargs _ _ hrun).2.2 (by decide)).1 (by decide)
  · have hrun : Run BenchAct.Ok BenchAct.out {} undisturbed (undisturbed.foldl BenchAct.out {}) :=
      ⟨rfl, rfl, rfl, rfl, ⟨rfl, by decide⟩, ⟨rfl, by decide⟩, rfl, ⟨rfl, by decide⟩, rfl, rfl⟩
    obtain ⟨-, p50, p95, p99, slowest, hreport, -, -, -, hmem, hslowest, h50, h95, h99⟩ :=
      ((benchmark_accounts _ _ hargs _ _ hrun).2.2 (by decide)).2 (by decide)
    have hsample {y : Int64} (hy : y ∈ ([7, 6, 5] : List Int64)) : y = 7 ∨ y = 6 ∨ y = 5 := by
      simpa using hy
    have r50 : NearestRank 50 [7, 6, 5] 6 := by
      refine ⟨by decide, by decide, fun y hy => ?_⟩
      rcases hsample hy with rfl | rfl | rfl <;> decide
    have r95 : NearestRank 95 [7, 6, 5] 7 := by
      refine ⟨by decide, by decide, fun y hy => ?_⟩
      rcases hsample hy with rfl | rfl | rfl <;> decide
    have r99 : NearestRank 99 [7, 6, 5] 7 := by
      refine ⟨by decide, by decide, fun y hy => ?_⟩
      rcases hsample hy with rfl | rfl | rfl <;> decide
    -- each of them is the only sample of its rank
    have hone {percent : ℕ} {x y : Int64} (hx : NearestRank percent [7, 6, 5] x)
        (hy : NearestRank percent [7, 6, 5] y) : x = y :=
      Int64.le_antisymm (hx.mono hy (Nat.le_refl _)) (hy.mono hx (Nat.le_refl _))
    cases hone h50 r50
    cases hone h95 r95
    cases hone h99 r99
    have hseven : 7 ≤ slowest := hslowest 7 List.mem_cons_self
    rcases hsample hmem with rfl | rfl | rfl
    · exact ⟨_, hrun, hreport, r50, r95, r99⟩
    · exact absurd hseven (by decide)
    · exact absurd hseven (by decide)

end NetForge
