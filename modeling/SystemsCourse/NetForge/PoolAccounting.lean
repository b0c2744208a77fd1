import SystemsCourse.NetForge.ThreadPool

/-!
# The tasks and the counters of the pool

A task whose `submit` returned true is queued, taken or was run once; when an external `shutdown` has
returned, or when nothing goes on any more, it was run (`exactly_once`).

`Stats` reads the two counters one after the other.  Between the reads tasks can be submitted and
completed, and then more completions than submissions are reported (`more_completed`); without
submissions between the reads this does not happen (`stats_ordered`).
-/

set_option linter.unusedSectionVars false
set_option linter.unusedVariables false

namespace NetForge
open Wire Actions Threads

namespace ThreadPool
variable {Tid : Type} [DecidableEq Tid] {x y : ThreadPool Tid}

/-! ## the workers -/

/-- a step keeps what is in the log -/
theorem history_act (a : PoolAct Tid) {e : Tid × QueueResult ℕ} (he : e ∈ x.tasks.history) :
    e ∈ (a.out x).tasks.history := by
  cases a with
  | queue a =>
    cases a with
    | critical t op n => exact List.mem_append_left _ he
    | throw t v n => exact List.mem_append_left _ he
    | _ => exact he
  | loadFlag t k =>
    exact PoolAct.loadFlag_out (fun y => e ∈ y.tasks.history) he he
  | exchange t =>
    exact PoolAct.exchange_out (fun y => e ∈ y.tasks.history) he he
  | _ => exact he

/-- the places of a worker in its loop, and how it leaves it -/
def Advances (x y : ThreadPool Tid) (u : Tid) : Prop :=
  (y.thread u).job = (x.thread u).job ∨
    (x.thread u).job ≠ .client ∧ (x.thread u).job ≠ .exited ∧ (y.thread u).job ≠ .client ∧
      ((y.thread u).job = .exited → x.tasks.pc u = .done .nullopt)

theorem advances_api {t : Tid} {api : Api}
    (h : y.thread = Function.update x.thread t ⟨(x.thread t).job, api⟩) (u : Tid) : x.Advances y u := by
  refine Or.inl ?_
  rw [h]
  by_cases hu : u = t
  · subst hu
    rw [Function.update_self]
  · rw [Function.update_of_ne hu]

theorem advances_job {t : Tid} (old job : Job)
    (h : y.thread = Function.update x.thread t ⟨job, (x.thread t).api⟩)
    (hold : (x.thread t).job = old) (ho : old ≠ .client ∧ old ≠ .exited) (hc : job ≠ .client)
    (he : job = .exited → x.tasks.pc t = .done .nullopt) (u : Tid) : x.Advances y u := by
  unfold Advances
  rw [h]
  by_cases hu : u = t
  · subst hu
    rw [Function.update_self, hold]
    exact Or.inr ⟨ho.1, ho.2, hc, he⟩
  · rw [Function.update_of_ne hu]
    exact Or.inl rfl

theorem advances_act (a : PoolAct Tid) (ha : a.Ok x) (u : Tid) : x.Advances (a.out x) u := by
  cases a with
  | queue a => exact Or.inl rfl
  | loadFlag t k =>
    exact PoolAct.loadFlag_out (x.Advances · u) (advances_api rfl u) (advances_api rfl u)
  | exchange t =>
    exact PoolAct.exchange_out (x.Advances · u) (advances_api rfl u) (advances_api rfl u)
  | pop t => exact Or.inl rfl
  | start t k => exact advances_job .looping (.running k) rfl ha.1 ⟨nofun, nofun⟩ nofun nofun u
  | exit t => exact advances_job .looping .exited rfl ha.1 ⟨nofun, nofun⟩ nofun (fun _ => ha.2) u
  | endTask t k thrown =>
    have hp : x.thread t = ⟨.running k, .idle⟩ := ha
    exact advances_job (.running k) (.ending k) rfl (congrArg PoolPc.job hp) ⟨nofun, nofun⟩ nofun nofun u
  | complete t k => exact advances_job (.ending k) .looping rfl ha ⟨nofun, nofun⟩ nofun nofun u
  | _ => exact advances_api rfl u

/-- The clients are those that are not workers; a worker that has left the loop has seen the queue
closed and drained; when an external `shutdown` has returned, all have left it. -/
structure Staff (worker : Tid → Bool) (x : ThreadPool Tid) : Prop where
  client : ∀ t, (x.thread t).job = .client ↔ worker t = false
  exited : ∀ t, (x.thread t).job = .exited → (t, .nullopt) ∈ x.tasks.history
  joined : x.joined = true → ∀ t, (x.thread t).job = .client ∨ (x.thread t).job = .exited

theorem lastOf_mem {Tid T : Type} [DecidableEq Tid] {t : Tid} {r : QueueResult T}
    {log : List (Tid × QueueResult T)} (h : QueueState.lastOf t log = some r) : (t, r) ∈ log := by
  obtain ⟨e, he, rfl⟩ := Option.map_eq_some_iff.mp h
  obtain ⟨hmem, ht⟩ := List.mem_filter.mp (List.mem_of_getLast? he)
  rw [← of_decide_eq_true ht]
  exact hmem

theorem joined_act (a : PoolAct Tid) (ha : a.Ok x) (h : (a.out x).joined = true) :
    x.joined = true ∨ ∀ t, (x.thread t).job = .client ∨ (x.thread t).job = .exited := by
  cases a with
  | join t => exact Or.inr ha.2
  | loadFlag t k =>
    exact PoolAct.loadFlag_out (fun y => y.joined = true → x.joined = true ∨ _) Or.inl Or.inl h
  | exchange t =>
    exact PoolAct.exchange_out (fun y => y.joined = true → x.joined = true ∨ _) Or.inl Or.inl h
  | _ => exact Or.inl h

theorem Staff.act {worker : Tid → Bool} (h : x.Staff worker) {q₀ : BlockingQueue ℕ}
    (hq : x.tasks.Inv q₀) (a : PoolAct Tid) (ha : a.Ok x) : (a.out x).Staff worker := by
  refine ⟨?_, ?_, ?_⟩
  · intro t
    rw [← h.client t]
    rcases advances_act a ha t with e | ⟨hc, _, hc', _⟩
    · rw [e]
    · exact iff_of_false hc' hc
  · intro t ht
    rcases advances_act a ha t with e | ⟨_, _, _, he⟩
    · exact history_act a (h.exited t (e.symm.trans ht))
    · exact history_act a (lastOf_mem (hq.last t .nullopt (by rw [he ht]; rfl)))
  · intro hj t
    have hall : (x.thread t).job = .client ∨ (x.thread t).job = .exited := by
      rcases joined_act a ha hj with hj | hall
      · exact h.joined hj t
      · exact hall t
    rcases advances_act a ha t with e | ⟨hc, he, _, _⟩
    · rw [e]
      exact hall
    · exact absurd hall (not_or.mpr ⟨hc, he⟩)

theorem reach_staff {tasks : BlockingQueue ℕ} {worker : Tid → Bool}
    (hr : Reach PoolAct.Ok PoolAct.out (started tasks worker) x) : x.Staff worker := by
  refine (reach_invariant (fun x : ThreadPool Tid =>
    Reach PoolAct.Ok PoolAct.out (started tasks worker) x ∧ x.Staff worker) hr
    ⟨Reach.refl _, ?_, ?_, nofun⟩ ?_).2
  · intro t
    show (if worker t then Job.looping else .client) = .client ↔ _
    cases worker t <;> simp
  · intro t ht
    have ht : (if worker t then Job.looping else .client) = .exited := ht
    split at ht <;> cases ht
  · rintro x a ⟨hr, h⟩ ha
    exact ⟨hr.trans (Reach.single ha), h.act (QueueState.reach_inv (reach_tasks hr).2) a ha⟩

end ThreadPool

/-! ## a pool in which nothing goes on -/

/-- the step begins a call, or a thread wakes up for no reason -/
def PoolAct.starts {Tid : Type} : PoolAct Tid → Bool
  | .submit _ => true
  | .submitEmpty _ => true
  | .shutdown _ => true
  | .readSubmitted _ => true
  | .queue (.spurious _ _) => true
  | _ => false

namespace ThreadPool
variable {Tid : Type} [DecidableEq Tid] {x : ThreadPool Tid}

/-- no thread can go on with what it has begun -/
def Settled (x : ThreadPool Tid) : Prop := ∀ a : PoolAct Tid, a.Ok x → a.starts = true

section
variable (hs : x.Settled) {q₀ : BlockingQueue ℕ} (hq : x.tasks.Inv q₀)
include hs hq

theorem Settled.still : x.tasks.Still := by
  refine QueueState.still_of_blocked hq fun a ha hi => ?_
  have hstarts := hs (.queue a) ⟨ha, hi⟩
  cases a with
  | spurious t op => exact ⟨t, op, rfl⟩
  | _ => cases hstarts

/-- every thread is outside of the queue or sleeps in it -/
theorem Settled.pc (h : x.Coherent) (t : Tid) :
    x.tasks.pc t = .idle ∨ ∃ op, x.tasks.pc t = .asleep op := by
  rcases hs.still hq t with e | ⟨r, hpc⟩ | e
  · exact Or.inl e
  · have hop : (x.tasks.pc t).op = some r.op := by rw [hpc]; rfl
    cases r with
    | pushed v => cases hs (.pushed t v) ⟨(h t).of_push hop, hpc⟩
    | refused v => cases hs (.refused t v) ⟨(h t).of_push hop, hpc⟩
    | threw v => cases hs (.threw t v) ⟨(h t).of_push hop, hpc⟩
    | popped v => cases hs (.start t v) ⟨(h t).of_pop hop, hpc⟩
    | nullopt => cases hs (.exit t) ⟨(h t).of_pop hop, hpc⟩
    | closed => cases hs (.closed t) ⟨(h t).of_close hop, hpc⟩
  · exact Or.inr e

/-- a worker whose task does not sleep in a call has left the loop or sleeps in `pop` -/
theorem Settled.worker (h : x.Coherent) (t : Tid)
    (hblock : ∀ k, (x.thread t).job = .running k → ∀ op, x.tasks.pc t ≠ .asleep op)
    (hw : (x.thread t).job ≠ .client) :
    (x.thread t).job = .exited ∨ (x.thread t).job = .looping ∧ x.tasks.pc t = .asleep .pop := by
  have hpc := hs.pc hq h t
  cases hj : (x.thread t).job with
  | client => exact absurd hj hw
  | exited => exact Or.inl rfl
  | ending k => cases hs (.complete t k) hj
  | looping =>
    refine Or.inr ⟨rfl, ?_⟩
    rcases hpc with e | ⟨op, e⟩
    · cases hs (.pop t) ⟨hj, e⟩
    · have hcall := (h t).call
      rw [e, (h t).of_looping hj] at hcall
      rcases hcall with e' | ⟨e', _⟩
      · cases e'
      · cases e'
        exact e
  | running k =>
    have hidle : x.tasks.pc t = .idle := hpc.resolve_right fun ⟨op, e⟩ => hblock k hj op e
    cases hapi : (x.thread t).api with
    | idle =>
      refine nomatch hs (.endTask t k false) ?_
      show x.thread t = _
      rw [← hj, ← hapi]
    | loadFlag k => cases hs (.loadFlag t k) hapi
    | increment k => cases hs (.increment t k) hapi
    | pushing k =>
      have hop := (h t).of_api (by rw [hapi]; exact nofun)
      rw [hidle, hapi] at hop
      cases hop
    | rollback k thrown => cases hs (.rollback t k thrown) hapi
    | exchange => cases hs (.exchange t) hapi
    | closing =>
      have hop := (h t).of_api (by rw [hapi]; exact nofun)
      rw [hidle, hapi] at hop
      cases hop
    | checkActive => cases hs (.checkActive t) hapi
    | joinLock => cases hj.symm.trans ((h t).joins (Or.inl hapi))
    | joining => cases hj.symm.trans ((h t).joins (Or.inr hapi))
    | readCompleted s => cases hs (.readCompleted t s) hapi

end

variable [Fintype Tid]

/-- what the constructor checks -/
theorem new_ok {worker : Tid → Bool} {queueCapacity : ℕ} {x₀ : ThreadPool Tid}
    (h : new worker queueCapacity = .ok x₀) : ∃ hcap : 0 < queueCapacity, (∃ t, worker t = true) ∧
      x₀ = started { capacity := queueCapacity, capacity_pos := hcap } worker := by
  unfold new BlockingQueue.new at h
  split at h
  · rename_i hcap
    by_cases hz : count worker = 0
    · simp [hz, bind, Except.bind, throw, throwThe, MonadExceptOf.throw] at h
    · simp [hz, bind, Except.bind, pure, Except.pure] at h
      refine ⟨hcap, ?_, h.symm⟩
      by_contra hno
      exact hz (count_eq_zero fun t => Bool.eq_false_iff.mpr fun ht => hno ⟨t, ht⟩)
  · cases h

section
variable {tasks : BlockingQueue ℕ} {worker : Tid → Bool} (hqueue : tasks.queue = [])
  (hclosed : tasks.closed = false) (hr : Reach PoolAct.Ok PoolAct.out (started tasks worker) x)
include hqueue hclosed hr

/-- a worker that has left the loop has left the queue empty -/
theorem drained {t : Tid} (ht : (x.thread t).job = .exited) : x.tasks.shared.queue = [] := by
  have hs := (QueueState.reach_inv (reach_tasks hr).2).legal.sound hqueue hclosed
  exact (hs.drained ⟨t, (reach_staff hr).exited t ht⟩).2

/-- the tasks of a pool in which nothing goes on have been taken -/
theorem Settled.queue (hs : x.Settled) (hw : ∃ t, worker t = true)
    (hblock : ∀ t k, (x.thread t).job = .running k → ∀ op, x.tasks.pc t ≠ .asleep op) :
    x.tasks.shared.queue = [] := by
  obtain ⟨h, hq⟩ := reach_tasks hr
  have hinv := QueueState.reach_inv hq
  obtain ⟨t, ht⟩ := hw
  have hne : (x.thread t).job ≠ .client := by
    rw [Ne, (reach_staff hr).client t, ht]
    exact Bool.noConfusion
  rcases hs.worker hinv h t (hblock t) hne with he | ⟨_, hpc⟩
  · exact drained hqueue hclosed hr he
  · -- it sleeps, so the queued tasks would have wake-ups under way
    have hstill : x.tasks.Still := fun u => (hs.pc hinv h u).imp_right Or.inr
    have hle : x.tasks.shared.queue.length
        ≤ x.tasks.notified .notEmpty + x.tasks.signallers .notEmpty :=
      QueueState.reach_items hq ⟨t, by rw [hpc]; rfl⟩
    rw [(hstill.counts _).1, (hstill.counts _).2.1] at hle
    exact List.length_eq_zero_iff.mp (Nat.le_zero.mp hle)

end

/-- no worker has taken a task and not started it -/
theorem taken_eq_zero (h : ∀ t, (x.thread t).job = .looping → (x.tasks.pc t).result = none)
    (P : ℕ → Bool) : x.ledger.roles (Role.takenIn P) = 0 := by
  refine count_eq_zero fun t => ?_
  show Role.takenIn P ((x.thread t).role (x.tasks.pc t).result) = false
  cases hj : (x.thread t).job with
  | looping =>
    rw [h t hj]
    simp [Role.takenIn, PoolPc.role, Job.holding, hj]
  | _ => simp [Role.takenIn, PoolPc.role, Job.holding, hj]

theorem started_eq_zero (h : ∀ t, (x.thread t).job = .client ∨ (x.thread t).job = .exited) :
    x.ledger.roles Role.started = 0 := by
  refine count_eq_zero fun t => ?_
  show Role.started ((x.thread t).role (x.tasks.pc t).result) = false
  rcases h t with e | e
  · simp [Role.started, PoolPc.role, Job.holding, e]
  · simp [Role.started, PoolPc.role, Job.holding, e]

end ThreadPool

section
variable {Tid : Type} [DecidableEq Tid] [Fintype Tid]

/-- **Tasks are run exactly once, and the counters count them.**  In every state that a pool reaches:
a task whose `submit` returned true is queued, or in the hands of one worker that is about to run it, or
has been run once; a task whose `submit` returned false or threw is not run; the counters are, modulo
`2 ^ 64`, the calls counted and not taken back and the completions, and differ by the calls between
their increment and their outcome, the queued tasks and the tasks with a worker.  When an external
`shutdown` has returned and no `submit` is in progress, both counters are the number of accepted tasks,
and each of them was run once.  Each was also run if no thread can go on with what it has begun and no
task sleeps in a call of the pool. -/
theorem exactly_once (worker : Tid → Bool) (queueCapacity : ℕ) (x₀ x : ThreadPool Tid)
    (hnew : ThreadPool.new worker queueCapacity = .ok x₀) (hrun : Reach PoolAct.Ok PoolAct.out x₀ x) :
    (∀ k, (k, .accepted) ∈ x.returns →
      x.tasks.shared.queue.count k + x.ledger.roles (Role.takenIn (· == k)) +
        (x.runs.map Prod.snd).count k = 1) ∧
    (∀ k result, (k, result) ∈ x.returns → result ≠ .accepted → ∀ t, (t, k) ∉ x.runs) ∧
    (x.submitted = UInt64.ofNat x.ledger.published ∧ x.completed = UInt64.ofNat x.completions ∧
      x.ledger.published = x.completions +
        (x.ledger.roles Role.counted + x.tasks.shared.queue.length + x.ledger.busy)) ∧
    (x.calls < 2 ^ 64 → x.completed ≤ x.submitted ∧ x.submitted.toNat - x.completed.toNat
      = x.ledger.roles Role.counted + x.tasks.shared.queue.length + x.ledger.busy) ∧
    (x.joined = true → (∀ t, (x.ledger.role t).submitting = .away) →
      x.submitted = UInt64.ofNat (x.returns.countP fun e => decide (e.2 = .accepted)) ∧
      x.completed = UInt64.ofNat (x.returns.countP fun e => decide (e.2 = .accepted)) ∧
      ∀ k, (k, .accepted) ∈ x.returns → (x.runs.map Prod.snd).count k = 1) ∧
    (x.Settled → (∀ t k, (x.thread t).job = .running k → ∀ op, x.tasks.pc t ≠ .asleep op) →
      ∀ k, (k, .accepted) ∈ x.returns → (x.runs.map Prod.snd).count k = 1) := by
  obtain ⟨hcap, hw, rfl⟩ := ThreadPool.new_ok hnew
  obtain ⟨hco, hq⟩ := ThreadPool.reach_tasks hrun
  have hinv := QueueState.reach_inv hq
  have hl := TaskLedger.reach_inv (ThreadPool.reach_ledger rfl hrun)
  have hstaff := ThreadPool.reach_staff hrun
  have hpub := hl.published_eq
  -- once the queue is empty and no task waits with a worker, the accepted ones were run
  have hran (hempty : x.tasks.shared.queue = [])
      (htaken : ∀ P, x.ledger.roles (Role.takenIn P) = 0) (k : ℕ) (hk : (k, .accepted) ∈ x.returns) :
      (x.runs.map Prod.snd).count k = 1 := by
    have hone : x.tasks.shared.queue.count k + _ + _ = 1 := hl.accepted_once hk
    rw [hempty, htaken, List.count_nil, Nat.zero_add] at hone
    exact hone
  refine ⟨fun k hk => hl.accepted_once hk, ?_, ⟨hl.submitted, hl.completed, hpub⟩, ?_, ?_, ?_⟩
  · intro k result hk hres t ht
    have hz := hl.refused_never hk hres
    have hpos : 0 < (x.runs.map Prod.snd).count k :=
      List.count_pos_iff.mpr (List.mem_map.mpr ⟨(t, k), ht, rfl⟩)
    have hruns : x.ledger.runs = x.runs := rfl
    rw [hruns] at hz
    omega
  · intro hcalls
    have hs : x.submitted.toNat = x.ledger.published := hl.published_toNat hcalls
    have hc : x.completed.toNat = x.completions := hl.completed_toNat hcalls
    have hqueue : x.ledger.queue = x.tasks.shared.queue := rfl
    have hcomp : x.ledger.completions = x.completions := rfl
    rw [UInt64.le_iff_toNat_le, hs, hc]
    rw [hqueue, hcomp] at hpub
    omega
  · -- every worker has left the loop, so the queue is empty and no task is with a worker
    intro hj haway
    have hall := hstaff.joined hj
    obtain ⟨t, ht⟩ := hw
    have hempty : x.tasks.shared.queue = [] := by
      refine ThreadPool.drained rfl rfl hrun ((hall t).resolve_left fun e => ?_)
      rw [hstaff.client t, ht] at e
      cases e
    have htaken := ThreadPool.taken_eq_zero (x := x) fun t e => by
      rcases hall t with e' | e'
      · cases e.symm.trans e'
      · cases e.symm.trans e'
    have hbusy : x.ledger.busy = 0 := by
      unfold TaskLedger.busy
      rw [htaken, ThreadPool.started_eq_zero hall]
    obtain ⟨hp, hc⟩ := hl.finished hempty hbusy haway
    have hn : x.ledger.acceptances (fun _ => true)
        = x.returns.countP fun e => decide (e.2 = .accepted) := by
      unfold TaskLedger.acceptances
      simp only [Bool.and_true]
      rfl
    rw [hn] at hp hc
    refine ⟨?_, ?_, hran hempty htaken⟩
    · rw [← hp]
      exact hl.submitted
    · rw [← hc]
      exact hl.completed
  · intro hset hblock
    have hempty := hset.queue rfl rfl hrun hw hblock
    refine hran hempty (ThreadPool.taken_eq_zero fun t _ => ?_)
    rcases hset.pc hinv hco t with e | ⟨op, e⟩
    · rw [e]
      rfl
    · rw [e]
      rfl

end

/-! ## runs of a small pool: the workers 0 and 1, and the client 2 -/

/-- the thread `c` submits the task `k`, and nobody waits for it -/
def submits (c : Fin 3) (k : ℕ) : List (PoolAct (Fin 3)) :=
  [.submit c, .loadFlag c k, .increment c k, .queue (.acquire c (.push k) false),
    .queue (.pass c (.push k) false), .queue (.critical c (.push k) false), .queue (.unlock c (.pushed k)),
    .queue (.notifyNobody c (.pushed k) .notEmpty), .pushed c k]

/-- the worker `w` takes the task `k` and starts it -/
def starts (w : Fin 3) (k : ℕ) : List (PoolAct (Fin 3)) :=
  [.pop w, .queue (.acquire w .pop false), .queue (.pass w .pop false), .queue (.critical w .pop false),
    .queue (.unlock w (.popped k)), .queue (.notifyNobody w (.popped k) .notFull), .start w k]

def finishes (w : Fin 3) (k : ℕ) : List (PoolAct (Fin 3)) :=
  [.endTask w k false, .complete w k]

def leaves (w : Fin 3) : List (PoolAct (Fin 3)) :=
  [.pop w, .queue (.acquire w .pop false), .queue (.pass w .pop false), .queue (.critical w .pop false),
    .queue (.unlock w .nullopt), .exit w]

/-- the thread `c` closes the queue and goes on to join the workers -/
def closes (c : Fin 3) : List (PoolAct (Fin 3)) :=
  [.shutdown c, .exchange c, .queue (.acquire c .close false), .queue (.pass c .close false),
    .queue (.critical c .close false), .queue (.unlock c .closed), .queue (.notifyAll c .notEmpty),
    .queue (.notifyAll c .notFull), .closed c, .checkActive c, .lockJoin c]

/-- a pool of two workers with a queue of one task -/
def smallPool : ThreadPool (Fin 3) :=
  .started { capacity := 1, capacity_pos := Nat.one_pos } fun t => decide (t.val < 2)

theorem exactly_once_shutdown :
    ThreadPool.new (fun t : Fin 3 => decide (t.val < 2)) 1 = .ok smallPool ∧
    ∃ x, Reach PoolAct.Ok PoolAct.out smallPool x ∧ x.joined = true ∧
      (0, .accepted) ∈ x.returns ∧ (1, .refused) ∈ x.returns ∧ (x.runs.map Prod.snd).count 0 = 1 ∧
      (∀ t, (t, 1) ∉ x.runs) ∧ x.submitted = 1 ∧ x.completed = 1 := by
  have hnew : ThreadPool.new (fun t : Fin 3 => decide (t.val < 2)) 1 = .ok smallPool := rfl
  have hrun : (perform PoolAct.Ok PoolAct.out smallPool (submits 2 0 ++ closes 2 ++ starts 0 0 ++
      leaves 1 ++ finishes 0 0 ++ leaves 0 ++ [.join 2, .submit 2, .loadFlag 2 1])).map
      (fun x => (x.joined, x.returns, decide (∀ t, (x.ledger.role t).submitting = .away)))
      = some (true, [(0, .accepted), (1, .refused)], true) := by
    decide +kernel
  obtain ⟨x, hx, e⟩ := Option.map_eq_some_iff.mp hrun
  obtain ⟨hj, e⟩ := Prod.mk.inj e
  obtain ⟨hret, haway⟩ := Prod.mk.inj e
  have h0 : (0, .accepted) ∈ x.returns := by rw [hret]; decide
  have h1 : (1, .refused) ∈ x.returns := by rw [hret]; decide
  obtain ⟨_, href, _, _, hshut, _⟩ := exactly_once _ 1 smallPool x hnew (perform_reach hx)
  obtain ⟨hs, hc, hone⟩ := hshut hj (of_decide_eq_true haway)
  rw [hret] at hs hc
  exact ⟨hnew, x, perform_reach hx, hj, h0, h1, hone 0 h0, href 1 _ h1 nofun, hs, hc⟩

/-! ## the report of the counters -/

def PoolAct.counts {Tid : Type} : PoolAct Tid → Bool
  | .increment _ _ => true
  | _ => false

/-- no submission is counted while a thread is between its two reads -/
def PoolAct.QuietOk {Tid : Type} (x : ThreadPool Tid) (a : PoolAct Tid) : Prop :=
  a.Ok x ∧ (a.counts = true → ∀ u, (x.thread u).api.reading = none)

instance {Tid : Type} [DecidableEq Tid] [Fintype Tid] (x : ThreadPool Tid) (a : PoolAct Tid) :
    Decidable (a.QuietOk x) :=
  inferInstanceAs (Decidable (a.Ok x ∧ (a.counts = true → ∀ u, (x.thread u).api.reading = none)))

/-- **The reported completions are at most the reported submissions** in every run in which no
submission is counted between the two reads of a report. -/
theorem stats_ordered {Tid : Type} [DecidableEq Tid] [Fintype Tid] (worker : Tid → Bool)
    (queueCapacity : ℕ) (x₀ x : ThreadPool Tid) (hnew : ThreadPool.new worker queueCapacity = .ok x₀)
    (hrun : Reach PoolAct.QuietOk PoolAct.out x₀ x) (hcalls : x.calls < 2 ^ 64) :
    ∀ report ∈ x.reports, report.2 ≤ report.1 := by
  obtain ⟨hcap, _, rfl⟩ := ThreadPool.new_ok hnew
  have hl : Reach LedgerAct.QuietOk LedgerAct.out { role := fun _ => {} } x.ledger := by
    refine ThreadPool.reach_ledger_of (fun _ _ ha => ha.1) ?_ rfl hrun
    intro y a b ha hb hcount
    refine ⟨hb, ?_⟩
    rintro t k rfl
    cases hcount
    exact ha.2 rfl
  exact (TaskLedger.reach_reports hl hcalls).reports

theorem stats_ordered_one :
    ThreadPool.new (fun t : Fin 3 => decide (t.val < 2)) 1 = .ok smallPool ∧
    ∃ x, Reach PoolAct.QuietOk PoolAct.out smallPool x ∧ x.calls < 2 ^ 64 ∧ x.reports = [(2, 1)] ∧
      ∀ report ∈ x.reports, report.2 ≤ report.1 := by
  have hnew : ThreadPool.new (fun t : Fin 3 => decide (t.val < 2)) 1 = .ok smallPool := rfl
  have hrun : (perform PoolAct.QuietOk PoolAct.out smallPool (submits 2 0 ++ starts 0 0 ++ submits 2 1 ++
      starts 1 1 ++ [.readSubmitted 0] ++ finishes 1 1 ++ [.readCompleted 0 2])).map
      (fun x => (x.calls, x.reports)) = some (2, [(2, 1)]) := by
    decide +kernel
  obtain ⟨x, hx, e⟩ := Option.map_eq_some_iff.mp hrun
  obtain ⟨hcalls, hrep⟩ := Prod.mk.inj e
  have hlt : x.calls < 2 ^ 64 := by rw [hcalls]; decide
  exact ⟨hnew, x, perform_reach hx, hlt, hrep,
    stats_ordered _ 1 smallPool x hnew (perform_reach hx) hlt⟩

/-- The task 0 reads one submission; before it reads the completions, two tasks are submitted and
completed. -/
theorem more_completed :
    ThreadPool.new (fun t : Fin 3 => decide (t.val < 2)) 1 = .ok smallPool ∧
    ∃ x, Reach PoolAct.Ok PoolAct.out smallPool x ∧ x.reports = [(1, 2)] := by
  have hrun : (perform PoolAct.Ok PoolAct.out smallPool (submits 2 0 ++ starts 0 0 ++
      [.readSubmitted 0] ++ submits 2 1 ++ starts 1 1 ++ finishes 1 1 ++ submits 2 2 ++ starts 1 2 ++
      finishes 1 2 ++ [.readCompleted 0 1])).map (fun x => x.reports) = some [(1, 2)] := by
    decide +kernel
  obtain ⟨x, hx, hrep⟩ := Option.map_eq_some_iff.mp hrun
  exact ⟨rfl, x, perform_reach hx, hrep⟩

end NetForge
