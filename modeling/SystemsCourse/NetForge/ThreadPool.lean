import SystemsCourse.NetForge.TaskLedger
import SystemsCourse.NetForge.Wakeup

/-!
# The thread pool

Model of `capstone/reference/src/thread_pool.cpp` over the model of its queue.  Workers pop tasks and
run them; clients, and tasks while they run, call `submit` and `shutdown` and read the counters.  A
task is named by the number of its `submit` call.

A step makes at most one access to shared memory.  The steps inside a call of `tasks_` are those of
the queue, so that every run of the pool is a run of its queue (`reach_tasks`).  It is also a run of the
task ledger (`reach_ledger`): what a thread does for a task is its place in the code together with the
result of its call of the queue.
-/

set_option linter.unusedSectionVars false
set_option linter.unusedVariables false

namespace NetForge
open Wire Actions Threads

/-- a thread that is not a worker, or where a worker is in `worker_loop` -/
inductive Job where
  | client
  | looping
  | running (task : ℕ)
  | ending (task : ℕ)
  | exited
deriving DecidableEq

/-- where a thread is in a call of the pool -/
inductive Api where
  | idle
  | loadFlag (task : ℕ)
  | increment (task : ℕ)
  | pushing (task : ℕ)
  | rollback (task : ℕ) (thrown : Bool)
  | exchange
  | closing
  | checkActive
  | joinLock
  | joining
  | readCompleted (submitted : UInt64)
deriving DecidableEq

structure PoolPc where
  job : Job
  api : Api := .idle
deriving DecidableEq

/-- The fields of the pool, the program counters, and, for the properties: the number of `submit`
calls, how they ended, which worker started which task, the number of completions, whether an external
`shutdown` has returned, and the pairs of counters that were reported. -/
structure ThreadPool (Tid : Type) where
  tasks : QueueState Tid ℕ
  shuttingDown : Bool := false
  submitted : UInt64 := 0
  completed : UInt64 := 0
  joinMutex : Option Tid := none
  thread : Tid → PoolPc
  calls : ℕ := 0
  returns : List (ℕ × SubmitResult) := []
  runs : List (Tid × ℕ) := []
  completions : ℕ := 0
  joined : Bool := false
  reports : List (UInt64 × UInt64) := []

inductive PoolAct (Tid : Type) where
  /-- inside a call of `tasks_` -/
  | queue (a : QueueAct Tid ℕ)
  | submit (t : Tid)
  | submitEmpty (t : Tid)
  | loadFlag (t : Tid) (task : ℕ)
  | increment (t : Tid) (task : ℕ)
  | pushed (t : Tid) (task : ℕ)
  | refused (t : Tid) (task : ℕ)
  | threw (t : Tid) (task : ℕ)
  | rollback (t : Tid) (task : ℕ) (thrown : Bool)
  | shutdown (t : Tid)
  | exchange (t : Tid)
  | closed (t : Tid)
  | checkActive (t : Tid)
  | lockJoin (t : Tid)
  | join (t : Tid)
  | pop (t : Tid)
  | start (t : Tid) (task : ℕ)
  | exit (t : Tid)
  | endTask (t : Tid) (task : ℕ) (thrown : Bool)
  | complete (t : Tid) (task : ℕ)
  | readSubmitted (t : Tid)
  | readCompleted (t : Tid) (submitted : UInt64)

/-- a step inside a call of the queue -/
def QueueAct.inner {Tid T : Type} : QueueAct Tid T → Bool
  | .call _ _ => false
  | .ret _ _ => false
  | _ => true

/-- the thread may call the pool: a client, or a task that runs on a worker -/
def PoolPc.free (p : PoolPc) : Bool :=
  match p.job, p.api with
  | .client, .idle => true
  | .running _, .idle => true
  | _, _ => false

namespace PoolAct
variable {Tid : Type}

def Ok (x : ThreadPool Tid) : PoolAct Tid → Prop
  | .queue a => a.Ok x.tasks ∧ a.inner = true
  | .submit t => (x.thread t).free = true
  | .submitEmpty t => (x.thread t).free = true
  | .loadFlag t k => (x.thread t).api = .loadFlag k
  | .increment t k => (x.thread t).api = .increment k
  | .pushed t k => (x.thread t).api = .pushing k ∧ x.tasks.pc t = .done (.pushed k)
  | .refused t k => (x.thread t).api = .pushing k ∧ x.tasks.pc t = .done (.refused k)
  | .threw t k => (x.thread t).api = .pushing k ∧ x.tasks.pc t = .done (.threw k)
  | .rollback t k thrown => (x.thread t).api = .rollback k thrown
  | .shutdown t => (x.thread t).free = true
  | .exchange t => (x.thread t).api = .exchange
  | .closed t => (x.thread t).api = .closing ∧ x.tasks.pc t = .done .closed
  | .checkActive t => (x.thread t).api = .checkActive
  | .lockJoin t => (x.thread t).api = .joinLock ∧ x.joinMutex = none
  | .join t => (x.thread t).api = .joining ∧
      ∀ u, (x.thread u).job = .client ∨ (x.thread u).job = .exited
  | .pop t => (x.thread t).job = .looping ∧ x.tasks.pc t = .idle
  | .start t k => (x.thread t).job = .looping ∧ x.tasks.pc t = .done (.popped k)
  | .exit t => (x.thread t).job = .looping ∧ x.tasks.pc t = .done .nullopt
  | .endTask t k thrown => x.thread t = ⟨.running k, .idle⟩
  | .complete t k => (x.thread t).job = .ending k
  | .readSubmitted t => (x.thread t).free = true
  | .readCompleted t s => (x.thread t).api = .readCompleted s

instance [Fintype Tid] [DecidableEq Tid] (x : ThreadPool Tid) : (a : PoolAct Tid) → Decidable (a.Ok x)
  | .queue a => inferInstanceAs (Decidable (a.Ok x.tasks ∧ a.inner = true))
  | .submit t => inferInstanceAs (Decidable ((x.thread t).free = true))
  | .submitEmpty t => inferInstanceAs (Decidable ((x.thread t).free = true))
  | .loadFlag t _ => inferInstanceAs (Decidable ((x.thread t).api = _))
  | .increment t _ => inferInstanceAs (Decidable ((x.thread t).api = _))
  | .pushed t _ => inferInstanceAs (Decidable ((x.thread t).api = _ ∧ x.tasks.pc t = _))
  | .refused t _ => inferInstanceAs (Decidable ((x.thread t).api = _ ∧ x.tasks.pc t = _))
  | .threw t _ => inferInstanceAs (Decidable ((x.thread t).api = _ ∧ x.tasks.pc t = _))
  | .rollback t _ _ => inferInstanceAs (Decidable ((x.thread t).api = _))
  | .shutdown t => inferInstanceAs (Decidable ((x.thread t).free = true))
  | .exchange t => inferInstanceAs (Decidable ((x.thread t).api = _))
  | .closed t => inferInstanceAs (Decidable ((x.thread t).api = _ ∧ x.tasks.pc t = _))
  | .checkActive t => inferInstanceAs (Decidable ((x.thread t).api = _))
  | .lockJoin t => inferInstanceAs (Decidable ((x.thread t).api = _ ∧ x.joinMutex = none))
  | .join t => inferInstanceAs (Decidable ((x.thread t).api = _ ∧
      ∀ u, (x.thread u).job = .client ∨ (x.thread u).job = .exited))
  | .pop t => inferInstanceAs (Decidable ((x.thread t).job = _ ∧ x.tasks.pc t = _))
  | .start t _ => inferInstanceAs (Decidable ((x.thread t).job = _ ∧ x.tasks.pc t = _))
  | .exit t => inferInstanceAs (Decidable ((x.thread t).job = _ ∧ x.tasks.pc t = _))
  | .endTask t _ _ => inferInstanceAs (Decidable (x.thread t = _))
  | .complete t _ => inferInstanceAs (Decidable ((x.thread t).job = _))
  | .readSubmitted t => inferInstanceAs (Decidable ((x.thread t).free = true))
  | .readCompleted t _ => inferInstanceAs (Decidable ((x.thread t).api = _))

end PoolAct

namespace ThreadPool
variable {Tid : Type} [DecidableEq Tid]

def setThread (x : ThreadPool Tid) (t : Tid) (p : PoolPc) : ThreadPool Tid :=
  { x with thread := Function.update x.thread t p }

/-- the thread goes on in the call of the pool, or ends it -/
def setApi (x : ThreadPool Tid) (t : Tid) (api : Api) : ThreadPool Tid :=
  x.setThread t ⟨(x.thread t).job, api⟩

def setJob (x : ThreadPool Tid) (t : Tid) (job : Job) : ThreadPool Tid :=
  x.setThread t ⟨job, (x.thread t).api⟩

/-- the thread begins a call of the queue -/
def call (x : ThreadPool Tid) (t : Tid) (op : QueueOp ℕ) : ThreadPool Tid :=
  { x with tasks := (QueueAct.call t op).out x.tasks }

/-- the thread returns from its call of the queue -/
def ret (x : ThreadPool Tid) (t : Tid) (r : QueueResult ℕ) : ThreadPool Tid :=
  { x with tasks := (QueueAct.ret t r).out x.tasks }

/-- `submit` returns or throws -/
def answer (x : ThreadPool Tid) (t : Tid) (task : ℕ) (r : SubmitResult) : ThreadPool Tid :=
  { x.setApi t .idle with returns := x.returns ++ [(task, r)] }

/-- the pool with its workers in front of the loop -/
def started (tasks : BlockingQueue ℕ) (worker : Tid → Bool) : ThreadPool Tid where
  tasks := { shared := tasks }
  thread t := ⟨if worker t then .looping else .client, .idle⟩

/-- the constructor, where all threads could be created -/
def new [Fintype Tid] (worker : Tid → Bool) (queueCapacity : ℕ) : Except Bytes (ThreadPool Tid) := do
  let tasks ← BlockingQueue.new queueCapacity
  if count worker = 0 then throw (ascii "ThreadPool requires at least one worker")
  return started tasks worker

end ThreadPool

open ThreadPool in
def PoolAct.out {Tid : Type} [DecidableEq Tid] (x : ThreadPool Tid) : PoolAct Tid → ThreadPool Tid
  | .queue a => { x with tasks := a.out x.tasks }
  | .submit t => { x.setApi t (.loadFlag x.calls) with calls := x.calls + 1 }
  -- `!task`
  | .submitEmpty t => { x.answer t x.calls .refused with calls := x.calls + 1 }
  | .loadFlag t k => if x.shuttingDown then x.answer t k .refused else x.setApi t (.increment k)
  | .increment t k =>
    { (x.call t (.push k)).setApi t (.pushing k) with submitted := x.submitted + 1 }
  | .pushed t k => (x.ret t (.pushed k)).answer t k .accepted
  | .refused t k => (x.ret t (.refused k)).setApi t (.rollback k false)
  | .threw t k => (x.ret t (.threw k)).setApi t (.rollback k true)
  | .rollback t k thrown =>
    { x.answer t k (if thrown then .threw else .refused) with submitted := x.submitted - 1 }
  | .shutdown t => x.setApi t .exchange
  | .exchange t =>
    if x.shuttingDown then x.setApi t .checkActive
    else { (x.call t .close).setApi t .closing with shuttingDown := true }
  | .closed t => (x.ret t .closed).setApi t .checkActive
  -- `active_pool == this` on a worker
  | .checkActive t =>
    x.setApi t (if (x.thread t).job = .client then .joinLock else .idle)
  | .lockJoin t => { x.setApi t .joining with joinMutex := some t }
  -- `workers_.clear()` has joined every worker
  | .join t => { x.setApi t .idle with joinMutex := none, joined := true }
  | .pop t => x.call t .pop
  | .start t k => { (x.ret t (.popped k)).setJob t (.running k) with runs := x.runs ++ [(t, k)] }
  | .exit t => (x.ret t .nullopt).setJob t .exited
  -- the task returns, or throws and the exception is dropped
  | .endTask t k thrown => x.setJob t (.ending k)
  | .complete t k =>
    { x.setJob t .looping with completed := x.completed + 1, completions := x.completions + 1 }
  | .readSubmitted t => x.setApi t (.readCompleted x.submitted)
  | .readCompleted t s => { x.setApi t .idle with reports := x.reports ++ [(s, x.completed)] }

namespace PoolAct
variable {Tid : Type} [DecidableEq Tid] {x : ThreadPool Tid}

/-- the branches of a step -/
theorem loadFlag_out (P : ThreadPool Tid → Prop) {t : Tid} {k : ℕ} (h : P (x.answer t k .refused))
    (h' : P (x.setApi t (.increment k))) : P ((PoolAct.loadFlag t k).out x) := by
  show P (if x.shuttingDown then x.answer t k .refused else x.setApi t (.increment k))
  split
  · exact h
  · exact h'

theorem exchange_out (P : ThreadPool Tid → Prop) {t : Tid} (h : P (x.setApi t .checkActive))
    (h' : P { (x.call t .close).setApi t .closing with shuttingDown := true }) :
    P ((PoolAct.exchange t).out x) := by
  show P (if x.shuttingDown then x.setApi t .checkActive
    else { (x.call t .close).setApi t .closing with shuttingDown := true })
  split
  · exact h
  · exact h'

theorem checkActive_out (P : ThreadPool Tid → Prop) {t : Tid}
    (h : (x.thread t).job = .client → P (x.setApi t .joinLock)) (h' : P (x.setApi t .idle)) :
    P ((PoolAct.checkActive t).out x) := by
  show P (x.setApi t (if (x.thread t).job = .client then .joinLock else .idle))
  split
  · rename_i hj
    exact h hj
  · exact h'

end PoolAct

/-! ## what the pool sees of its queue -/

section
variable {Tid T : Type}

def QueueResult.op : QueueResult T → QueueOp T
  | .pushed value => .push value
  | .refused value => .push value
  | .threw value => .push value
  | .popped _ => .pop
  | .nullopt => .pop
  | .closed => .close

/-- the operation that a thread is in -/
def QueuePc.op : QueuePc T → Option (QueueOp T)
  | .idle => none
  | .lock op _ => some op
  | .check op _ => some op
  | .asleep op => some op
  | .critical op _ => some op
  | .unlock result => some result.op
  | .notifyOne result _ => some result.op
  | .notifyAll _ => some .close
  | .done result => some result.op

theorem QueuePc.eq_idle {pc : QueuePc T} (h : pc.op = none) : pc = .idle := by
  cases pc with
  | idle => rfl
  | _ => cases h

/-- the same operation, with the same result as far as there is one -/
def QueuePc.SameCall (pc pc' : QueuePc T) : Prop := pc'.op = pc.op ∧ pc'.result = pc.result

theorem QueuePc.sameCall_wake (c : Cv) (pc : QueuePc T) : pc.SameCall (pc.wake c) := by
  unfold wake
  split
  · split_ifs
    · exact ⟨rfl, rfl⟩
    · exact ⟨rfl, rfl⟩
  · exact ⟨rfl, rfl⟩

theorem QueueResult.sameCall_next (r : QueueResult T) : (QueuePc.unlock r).SameCall r.next := by
  cases r <;> exact ⟨rfl, rfl⟩

theorem BlockingQueue.critical_op (q : BlockingQueue T) (op : QueueOp T) : (q.critical op).1.op = op := by
  cases op with
  | push v =>
    unfold critical
    dsimp only
    split_ifs
    · rfl
    · rfl
  | pop =>
    unfold critical
    dsimp only
    split
    · rfl
    · rfl
  | close => rfl

/-- a step inside a call that is not a critical section -/
def QueueAct.silent : QueueAct Tid T → Bool
  | .call _ _ => false
  | .critical _ _ _ => false
  | .throw _ _ _ => false
  | .ret _ _ => false
  | _ => true

variable [DecidableEq Tid] {x : QueueState Tid T}

theorem QueueState.goto_sameCall (t : Tid) (pc : QueuePc T) (h : (x.pc t).SameCall pc) (u : Tid) :
    (x.pc u).SameCall ((x.goto t pc).pc u) := by
  by_cases hu : u = t
  · subst hu
    rw [goto_self]
    exact h
  · rw [goto_ne x hu]
    exact ⟨rfl, rfl⟩

theorem QueueAct.silent_out (a : QueueAct Tid T) (ha : a.Ok x) (hs : a.silent = true) :
    (∀ u, (x.pc u).SameCall ((a.out x).pc u)) ∧ (a.out x).history = x.history ∧
      (a.out x).shared = x.shared := by
  refine ⟨?_, ?_⟩
  · cases a with
    | acquire t op n => exact QueueState.goto_sameCall t _ (by rw [ha.1]; exact ⟨rfl, rfl⟩)
    | sleep t op n => exact QueueState.goto_sameCall t _ (by rw [ha.1]; exact ⟨rfl, rfl⟩)
    | pass t op n => exact QueueState.goto_sameCall t _ (by rw [ha.1]; exact ⟨rfl, rfl⟩)
    | unlock t r =>
      have hpc : x.pc t = .unlock r := ha
      exact QueueState.goto_sameCall t _ (by rw [hpc]; exact r.sameCall_next)
    | notifyOne t r c w =>
      obtain ⟨hpc, hw⟩ := ha
      have hne : t ≠ w := by
        rintro rfl
        rw [hpc] at hw
        cases hw
      intro u
      have h1 := QueueState.goto_sameCall w _ (QueuePc.sameCall_wake c (x.pc w)) u
      have h2 : ((x.goto w ((x.pc w).wake c)).pc u).SameCall ((QueueAct.notifyOne t r c w |>.out x).pc u) :=
        QueueState.goto_sameCall t _ (by rw [QueueState.goto_ne x hne, hpc]; exact ⟨rfl, rfl⟩) u
      exact ⟨h2.1.trans h1.1, h2.2.trans h1.2⟩
    | notifyNobody t r c => exact QueueState.goto_sameCall t _ (by rw [ha.1]; exact ⟨rfl, rfl⟩)
    | notifyAll t c =>
      have hpc : x.pc t = .notifyAll c := ha
      intro u
      have h1 := QueuePc.sameCall_wake c (x.pc u)
      have h2 : ((x.pc u).wake c).SameCall ((QueueAct.notifyAll t c |>.out x).pc u) := by
        refine QueueState.goto_sameCall (x := { x with pc := fun u => (x.pc u).wake c }) t _ ?_ u
        dsimp only
        rw [hpc]
        cases c <;> exact ⟨rfl, rfl⟩
      exact ⟨h2.1.trans h1.1, h2.2.trans h1.2⟩
    | spurious t op =>
      have hpc : x.pc t = .asleep op := ha
      exact QueueState.goto_sameCall t _ (by rw [hpc]; exact ⟨rfl, rfl⟩)
    | call t op => cases hs
    | critical t op n => cases hs
    | throw t v n => cases hs
    | ret t r => cases hs
  · cases a with
    | critical t op n => cases hs
    | throw t v n => cases hs
    | _ => exact ⟨rfl, rfl⟩

/-- inside a call the operation stays the same -/
theorem QueueAct.inner_op (a : QueueAct Tid T) (ha : a.Ok x) (hi : a.inner = true) (u : Tid) :
    ((a.out x).pc u).op = (x.pc u).op := by
  cases a with
  | critical t op n =>
    have hpc : x.pc t = .critical op n := ha
    by_cases hu : u = t
    · subst hu
      rw [show (QueueAct.out x (.critical u op n)).pc u = .unlock (x.shared.critical op).1
        from Function.update_self .., hpc]
      exact congrArg some (BlockingQueue.critical_op ..)
    · exact congrArg QueuePc.op (Function.update_of_ne hu ..)
  | throw t v n =>
    by_cases hu : u = t
    · subst hu
      rw [show (QueueAct.out x (.throw u v n)).pc u = .unlock (.threw v)
        from Function.update_self .., ha.1]
      rfl
    · exact congrArg QueuePc.op (Function.update_of_ne hu ..)
  | call t op => cases hi
  | ret t r => cases hi
  | _ => exact ((QueueAct.silent_out _ ha rfl).1 u).1

/-- where no call can go on, unless a thread wakes up for no reason: each thread sleeps, or is outside of
a call or at its end -/
theorem QueueState.still_of_blocked {q₀ : BlockingQueue T} (hq : x.Inv q₀)
    (hs : ∀ a : QueueAct Tid T, a.Ok x → a.inner = true → ∃ t op, a = .spurious t op) :
    x.Still := by
  have hblocked {a : QueueAct Tid T} (ha : a.Ok x) (hi : a.inner = true)
      (hne : ∀ t op, a ≠ .spurious t op) : False := by
    obtain ⟨t, op, e⟩ := hs a ha hi
    exact hne t op e
  have hfree : ∀ t, (x.pc t).holds = false := by
    intro t
    cases hpc : x.pc t with
    | check op n =>
      cases hp : x.shared.predicate op with
      | true => exact (hblocked (a := .pass t op n) ⟨hpc, hp⟩ rfl nofun).elim
      | false => exact (hblocked (a := .sleep t op n) ⟨hpc, hp⟩ rfl nofun).elim
    | critical op n => exact (hblocked (a := .critical t op n) hpc rfl nofun).elim
    | unlock r => exact (hblocked (a := .unlock t r) hpc rfl nofun).elim
    | _ => rfl
  have hm : x.mutex = none := by
    cases hm : x.mutex with
    | none => rfl
    | some t => cases (hfree t).symm.trans ((hq.holder t).mpr hm)
  intro t
  have ht := hfree t
  cases hpc : x.pc t with
  | idle => exact Or.inl rfl
  | asleep op => exact Or.inr (Or.inr ⟨op, rfl⟩)
  | done r => exact Or.inr (Or.inl ⟨r, rfl⟩)
  | lock op n => exact (hblocked (a := .acquire t op n) ⟨hpc, hm⟩ rfl nofun).elim
  | notifyOne r c =>
    by_cases hex : ∃ u, (x.pc u).asleepOn c = true
    · obtain ⟨u, hu⟩ := hex
      exact (hblocked (a := .notifyOne t r c u) ⟨hpc, hu⟩ rfl nofun).elim
    · have hno : ∀ u, (x.pc u).asleepOn c = false := fun u =>
        Bool.eq_false_iff.mpr fun hu => hex ⟨u, hu⟩
      exact (hblocked (a := .notifyNobody t r c) ⟨hpc, hno⟩ rfl nofun).elim
  | notifyAll c => exact (hblocked (a := .notifyAll t c) hpc rfl nofun).elim
  | _ =>
    rw [hpc] at ht
    cases ht

end

/-! ## the calls of the pool and the calls of its queue -/

/-- the call of the queue that a call of the pool is in -/
def Api.calling : Api → Option (QueueOp ℕ)
  | .pushing task => some (.push task)
  | .closing => some .close
  | _ => none

/-- Where a thread is in the pool and where it is in the queue; only clients and tasks call the pool,
and a worker does not join. -/
structure PoolPc.Coherent (p : PoolPc) (op : Option (QueueOp ℕ)) : Prop where
  call : op = p.api.calling ∨ op = some .pop ∧ p.job = .looping
  caller : p.api = .idle ∨ p.job = .client ∨ ∃ task, p.job = .running task
  joins : p.api = .joinLock ∨ p.api = .joining → p.job = .client

namespace PoolPc.Coherent
variable {p : PoolPc} {op op' : Option (QueueOp ℕ)} (h : p.Coherent op)
include h

theorem of_api (ha : p.api ≠ .idle) : op = p.api.calling := by
  refine h.call.resolve_right ?_
  rintro ⟨_, hj⟩
  rcases h.caller with e | e | ⟨k, e⟩
  · exact ha e
  · cases hj.symm.trans e
  · cases hj.symm.trans e

/-- the call of the pool goes on -/
theorem goes (ha : p.api ≠ .idle) {api : Api} (hop : op' = api.calling)
    (hj : api = .joinLock ∨ api = .joining → p.job = .client) : Coherent ⟨p.job, api⟩ op' :=
  ⟨Or.inl hop, Or.inr (h.caller.resolve_left ha), hj⟩

/-- the call of the pool goes on without the queue -/
theorem stays {old api : Api} (ho : p.api = old) (hold : old.calling = none ∧ old ≠ .idle)
    (hop : api.calling = none) (hj : api = .joinLock ∨ api = .joining → p.job = .client) :
    Coherent ⟨p.job, api⟩ op := by
  subst ho
  exact h.goes hold.2 ((h.of_api hold.2).trans (hold.1.trans hop.symm)) hj

theorem of_free (hf : p.free = true) : op = none ∧ p.api = .idle ∧
    (p.job = .client ∨ ∃ task, p.job = .running task) := by
  obtain ⟨job, api⟩ := p
  unfold free at hf
  dsimp only at hf
  split at hf
  · exact ⟨h.call.resolve_right nofun, rfl, Or.inl rfl⟩
  · exact ⟨h.call.resolve_right nofun, rfl, Or.inr ⟨_, rfl⟩⟩
  · cases hf

/-- a call of the pool begins -/
theorem begins (hf : p.free = true) {api : Api} (hop : api.calling = none)
    (hj : api ≠ .joinLock ∧ api ≠ .joining) : Coherent ⟨p.job, api⟩ op := by
  obtain ⟨ho, _, hjob⟩ := h.of_free hf
  refine ⟨Or.inl (ho.trans hop.symm), Or.inr hjob, ?_⟩
  rintro (e | e)
  · exact absurd e hj.1
  · exact absurd e hj.2

/-- the thread that is in a `push`, `pop` or `close` -/
theorem of_push {task : ℕ} (ho : op = some (.push task)) : p.api = .pushing task := by
  have e := h.call.resolve_right (by rw [ho]; exact nofun)
  rw [ho] at e
  unfold Api.calling at e
  split at e
  · rename_i ha
    cases e
    exact ha
  · cases e
  · cases e

theorem of_close (ho : op = some .close) : p.api = .closing := by
  have e := h.call.resolve_right (by rw [ho]; exact nofun)
  rw [ho] at e
  unfold Api.calling at e
  split at e
  · cases e
  · assumption
  · cases e

theorem of_pop (ho : op = some .pop) : p.job = .looping := by
  rcases h.call with e | ⟨_, e⟩
  · rw [ho] at e
    unfold Api.calling at e
    split at e <;> cases e
  · exact e

theorem of_looping (hl : p.job = .looping) : p.api = .idle := by
  rcases h.caller with e | e | ⟨k, e⟩
  · exact e
  · cases hl.symm.trans e
  · cases hl.symm.trans e

theorem of_ending {task : ℕ} (hl : p.job = .ending task) : p.api = .idle ∧ op = none := by
  have hapi : p.api = .idle := by
    rcases h.caller with e | e | ⟨k, e⟩
    · exact e
    · cases hl.symm.trans e
    · cases hl.symm.trans e
  refine ⟨hapi, ?_⟩
  rcases h.call with e | ⟨_, e⟩
  · rw [e, hapi]
    rfl
  · cases hl.symm.trans e

omit h in
/-- a thread outside of the pool and the queue -/
theorem of_idle {job : Job} {api : Api} (ha : api = .idle) (ho : op = none) : Coherent ⟨job, api⟩ op := by
  subst ha ho
  refine ⟨Or.inl rfl, Or.inl rfl, nofun⟩

end PoolPc.Coherent

namespace ThreadPool
variable {Tid : Type} [DecidableEq Tid] {x y : ThreadPool Tid}

def Coherent (x : ThreadPool Tid) : Prop := ∀ t, (x.thread t).Coherent (x.tasks.pc t).op

theorem Coherent.move (h : x.Coherent) (t : Tid) (p : PoolPc) (pc : QueuePc ℕ)
    (hp : y.thread = Function.update x.thread t p) (hq : y.tasks.pc = Function.update x.tasks.pc t pc)
    (hc : p.Coherent pc.op) : y.Coherent := by
  intro u
  rw [hp, hq]
  by_cases hu : u = t
  · subst hu
    rw [Function.update_self, Function.update_self]
    exact hc
  · rw [Function.update_of_ne hu, Function.update_of_ne hu]
    exact h u

theorem Coherent.setThread (h : x.Coherent) (t : Tid) (p : PoolPc)
    (hp : y.thread = Function.update x.thread t p) (hq : y.tasks = x.tasks)
    (hc : p.Coherent (x.tasks.pc t).op) : y.Coherent :=
  h.move t p (x.tasks.pc t) hp (by rw [hq, Function.update_eq_self]) hc

theorem Coherent.queue (h : x.Coherent) (a : QueueAct Tid ℕ) (ha : a.Ok x.tasks) (hi : a.inner = true) :
    ((PoolAct.queue a).out x).Coherent := by
  intro u
  show (x.thread u).Coherent ((a.out x.tasks).pc u).op
  rw [a.inner_op ha hi]
  exact h u

theorem Coherent.act (h : x.Coherent) (a : PoolAct Tid) (ha : a.Ok x) : (a.out x).Coherent := by
  cases a with
  | queue a => exact h.queue a ha.1 ha.2
  | submit t => exact h.setThread t _ rfl rfl ((h t).begins ha rfl ⟨nofun, nofun⟩)
  | submitEmpty t => exact h.setThread t _ rfl rfl ((h t).begins ha rfl ⟨nofun, nofun⟩)
  | loadFlag t k =>
    refine PoolAct.loadFlag_out Coherent ?_ ?_
    · exact h.setThread t _ rfl rfl ((h t).stays ha ⟨rfl, nofun⟩ rfl nofun)
    · exact h.setThread t _ rfl rfl ((h t).stays ha ⟨rfl, nofun⟩ rfl nofun)
  | increment t k =>
    have hapi : (x.thread t).api = .increment k := ha
    exact h.move t _ _ rfl rfl ((h t).goes (by rw [hapi]; exact nofun) rfl nofun)
  | pushed t k => exact h.move t _ _ rfl rfl ((h t).goes (by rw [ha.1]; exact nofun) rfl nofun)
  | refused t k => exact h.move t _ _ rfl rfl ((h t).goes (by rw [ha.1]; exact nofun) rfl nofun)
  | threw t k => exact h.move t _ _ rfl rfl ((h t).goes (by rw [ha.1]; exact nofun) rfl nofun)
  | rollback t k thrown => exact h.setThread t _ rfl rfl ((h t).stays ha ⟨rfl, nofun⟩ rfl nofun)
  | shutdown t => exact h.setThread t _ rfl rfl ((h t).begins ha rfl ⟨nofun, nofun⟩)
  | exchange t =>
    have hapi : (x.thread t).api = .exchange := ha
    refine PoolAct.exchange_out Coherent ?_ ?_
    · exact h.setThread t _ rfl rfl ((h t).stays hapi ⟨rfl, nofun⟩ rfl nofun)
    · exact h.move t _ _ rfl rfl ((h t).goes (by rw [hapi]; exact nofun) rfl nofun)
  | closed t => exact h.move t _ _ rfl rfl ((h t).goes (by rw [ha.1]; exact nofun) rfl nofun)
  | checkActive t =>
    refine PoolAct.checkActive_out Coherent (fun hj => ?_) ?_
    · exact h.setThread t _ rfl rfl ((h t).stays ha ⟨rfl, nofun⟩ rfl fun _ => hj)
    · exact h.setThread t _ rfl rfl ((h t).stays ha ⟨rfl, nofun⟩ rfl nofun)
  | lockJoin t =>
    refine h.setThread t _ rfl rfl ((h t).stays ha.1 ⟨rfl, nofun⟩ rfl fun _ => ?_)
    exact (h t).joins (Or.inl ha.1)
  | join t => exact h.setThread t _ rfl rfl ((h t).stays ha.1 ⟨rfl, nofun⟩ rfl nofun)
  | pop t =>
    have hapi := (h t).of_looping ha.1
    exact h.move t (x.thread t) _ (Function.update_eq_self ..).symm rfl
      ⟨Or.inr ⟨rfl, ha.1⟩, Or.inl hapi, (h t).joins⟩
  | start t k =>
    have hapi := (h t).of_looping ha.1
    exact h.move t _ _ rfl rfl (.of_idle hapi rfl)
  | exit t =>
    have hapi := (h t).of_looping ha.1
    exact h.move t _ _ rfl rfl (.of_idle hapi rfl)
  | endTask t k thrown =>
    have hp : x.thread t = ⟨.running k, .idle⟩ := ha
    have hop := ((h t).of_free (by rw [hp]; rfl)).1
    exact h.setThread t _ rfl rfl (.of_idle (by rw [hp]) hop)
  | complete t k =>
    have hj : (x.thread t).job = .ending k := ha
    obtain ⟨hapi, hop⟩ := (h t).of_ending hj
    exact h.setThread t _ rfl rfl (.of_idle hapi hop)
  | readSubmitted t => exact h.setThread t _ rfl rfl ((h t).begins ha rfl ⟨nofun, nofun⟩)
  | readCompleted t s => exact h.setThread t _ rfl rfl ((h t).stays ha ⟨rfl, nofun⟩ rfl nofun)

/-- a thread that is in the pool and not in the queue -/
theorem Coherent.idle_of_api (h : x.Coherent) {t : Tid} {old : Api} (ho : (x.thread t).api = old)
    (hold : old.calling = none ∧ old ≠ .idle) : x.tasks.pc t = .idle := by
  refine QueuePc.eq_idle ?_
  rw [(h t).of_api (by rw [ho]; exact hold.2), ho]
  exact hold.1

/-- a step of the pool is a step of its queue, or none -/
theorem Coherent.tasks_act (h : x.Coherent) (a : PoolAct Tid) (ha : a.Ok x) :
    Reach QueueAct.Ok QueueAct.out x.tasks (a.out x).tasks := by
  cases a with
  | queue a => exact Reach.single ha.1
  | increment t k => exact Reach.single (a := QueueAct.call t (.push k)) (h.idle_of_api ha ⟨rfl, nofun⟩)
  | pushed t k => exact Reach.single (a := QueueAct.ret t (.pushed k)) ha.2
  | refused t k => exact Reach.single (a := QueueAct.ret t (.refused k)) ha.2
  | threw t k => exact Reach.single (a := QueueAct.ret t (.threw k)) ha.2
  | exchange t =>
    refine PoolAct.exchange_out (fun y => Reach QueueAct.Ok QueueAct.out x.tasks y.tasks) ?_ ?_
    · exact Reach.refl _
    · exact Reach.single (a := QueueAct.call t .close) (h.idle_of_api ha ⟨rfl, nofun⟩)
  | closed t => exact Reach.single (a := QueueAct.ret t .closed) ha.2
  | pop t => exact Reach.single (a := QueueAct.call t .pop) ha.2
  | start t k => exact Reach.single (a := QueueAct.ret t (.popped k)) ha.2
  | exit t => exact Reach.single (a := QueueAct.ret t .nullopt) ha.2
  | loadFlag t k =>
    exact PoolAct.loadFlag_out (fun y => Reach QueueAct.Ok QueueAct.out x.tasks y.tasks)
      (Reach.refl _) (Reach.refl _)
  | _ => exact Reach.refl _

theorem started_coherent (tasks : BlockingQueue ℕ) (worker : Tid → Bool) :
    (started tasks worker).Coherent := fun t => .of_idle rfl rfl

/-- **a run of the pool is a run of its queue** -/
theorem reach_tasks {tasks : BlockingQueue ℕ} {worker : Tid → Bool}
    (hr : Reach PoolAct.Ok PoolAct.out (started tasks worker) x) :
    x.Coherent ∧ Reach QueueAct.Ok QueueAct.out { shared := tasks } x.tasks := by
  refine reach_invariant (fun x : ThreadPool Tid => x.Coherent ∧
    Reach QueueAct.Ok QueueAct.out { shared := tasks } x.tasks) hr
    ⟨started_coherent tasks worker, Reach.refl _⟩ ?_
  rintro x a ⟨h, hq⟩ ha
  exact ⟨h.act a ha, hq.trans (h.tasks_act a ha)⟩

end ThreadPool

/-! ## the ledger of the pool -/

def Api.submitting (api : Api) (result : Option (QueueResult ℕ)) : Submitting :=
  match api, result with
  | .loadFlag k, _ => .called k
  | .increment k, _ => .called k
  | .pushing k, some (.pushed _) => .accepted k
  | .pushing k, _ => .counted k
  | .rollback k _, _ => .counted k
  | _, _ => .away

def Api.reading : Api → Option UInt64
  | .readCompleted submitted => some submitted
  | _ => none

def Job.holding (job : Job) (result : Option (QueueResult ℕ)) : Holding :=
  match job, result with
  | .looping, some (.popped k) => .taken k
  | .running k, _ => .started k
  | .ending k, _ => .started k
  | _, _ => .free

/-- what a thread does, from its place in the pool and the result of its call of the queue -/
def PoolPc.role (p : PoolPc) (result : Option (QueueResult ℕ)) : Role where
  submitting := p.api.submitting result
  holding := p.job.holding result
  reading := p.api.reading

theorem PoolPc.role_eq {p : PoolPc} {result : Option (QueueResult ℕ)} {r : Role}
    (hs : p.api.submitting result = r.submitting) (hh : p.job.holding result = r.holding)
    (hr : p.api.reading = r.reading) : p.role result = r := by
  unfold role
  rw [hs, hh, hr]

/-- the thread goes on in the pool with the same task in its hands -/
theorem PoolPc.role_api {p : PoolPc} {old api : Api} {result result' : Option (QueueResult ℕ)}
    {s : Submitting} (ho : p.api = old) (hs : api.submitting result' = s)
    (hh : p.job.holding result' = p.job.holding result) (hr : api.reading = old.reading) :
    PoolPc.role ⟨p.job, api⟩ result' = { p.role result with submitting := s } := by
  refine role_eq hs hh ?_
  rw [hr, ← ho]
  rfl

theorem PoolPc.role_api_same {p : PoolPc} {old api : Api} {result result' : Option (QueueResult ℕ)}
    (ho : p.api = old) (hs : api.submitting result' = old.submitting result)
    (hh : p.job.holding result' = p.job.holding result) (hr : api.reading = old.reading) :
    PoolPc.role ⟨p.job, api⟩ result' = p.role result := by
  refine role_eq ?_ hh ?_
  · rw [hs, ← ho]
    rfl
  · rw [hr, ← ho]
    rfl

/-- only the task of a `pop` is in the hands of the thread -/
theorem Job.holding_eq (job : Job) {r : QueueResult ℕ} (hr : ∀ v, r ≠ .popped v) :
    job.holding none = job.holding (some r) := by
  cases r with
  | popped v => exact absurd rfl (hr v)
  | _ => cases job <;> rfl

/-- a result that is neither an accepted nor a taken task -/
theorem PoolPc.role_result (p : PoolPc) {r : QueueResult ℕ}
    (hr : (∀ v, r ≠ .pushed v) ∧ ∀ v, r ≠ .popped v) : p.role (some r) = p.role none := by
  obtain ⟨job, api⟩ := p
  cases r with
  | pushed v => exact absurd rfl (hr.1 v)
  | popped v => exact absurd rfl (hr.2 v)
  | _ => cases api <;> cases job <;> rfl

namespace ThreadPool
variable {Tid : Type} [DecidableEq Tid] {x y : ThreadPool Tid}

def ledger (x : ThreadPool Tid) : TaskLedger Tid where
  role t := (x.thread t).role (x.tasks.pc t).result
  submitted := x.submitted
  completed := x.completed
  queue := x.tasks.shared.queue
  calls := x.calls
  accepted := accepted x.tasks.history
  returns := x.returns
  runs := x.runs
  completions := x.completions
  reports := x.reports

/-- one thread moves -/
theorem ledger_eq (x : ThreadPool Tid) (t : Tid) (pc : QueuePc ℕ) {p : PoolPc} {r : Role}
    {l : TaskLedger Tid}
    (hp : y.thread = Function.update x.thread t p) (hq : y.tasks.pc = Function.update x.tasks.pc t pc)
    (hr : p.role pc.result = r) (hl : { y.ledger with role := Function.update x.ledger.role t r } = l) :
    y.ledger = l := by
  have hrole : y.ledger.role = Function.update x.ledger.role t r := by
    funext u
    show (y.thread u).role (y.tasks.pc u).result = _
    rw [hp, hq]
    by_cases hu : u = t
    · subst hu
      rw [Function.update_self, Function.update_self, Function.update_self, hr]
    · rw [Function.update_of_ne hu, Function.update_of_ne hu, Function.update_of_ne hu]
      rfl
  rw [← hl, ← hrole]

/-- one thread moves and has the same role -/
theorem ledger_same (x : ThreadPool Tid) (t : Tid) {p : PoolPc} {pc : QueuePc ℕ} {l : TaskLedger Tid}
    (hp : y.thread = Function.update x.thread t p) (hq : y.tasks.pc = Function.update x.tasks.pc t pc)
    (hr : p.role pc.result = (x.thread t).role (x.tasks.pc t).result)
    (hl : { y.ledger with role := x.ledger.role } = l) : y.ledger = l := by
  refine ledger_eq x t _ hp hq hr ?_
  rw [show Function.update x.ledger.role t ((x.thread t).role (x.tasks.pc t).result) = x.ledger.role
    from Function.update_eq_self ..]
  exact hl

/-- a thread that is not in the queue goes on in the pool, and its task stays where it is -/
theorem ledger_stays (x : ThreadPool Tid) (t : Tid) {old api : Api} {l : TaskLedger Tid}
    (ho : (x.thread t).api = old) (hp : y.thread = Function.update x.thread t ⟨(x.thread t).job, api⟩)
    (hq : y.tasks.pc = x.tasks.pc) (hs : ∀ result, api.submitting result = old.submitting result)
    (hr : api.reading = old.reading) (hl : { y.ledger with role := x.ledger.role } = l) :
    y.ledger = l := by
  have hpc : y.tasks.pc = Function.update x.tasks.pc t (x.tasks.pc t) :=
    hq.trans (Function.update_eq_self ..).symm
  exact ledger_same x t hp hpc (PoolPc.role_api_same ho (hs _) rfl hr) hl

/-- a thread returns from a call of the queue that was no `pop` -/
theorem ledger_back (x : ThreadPool Tid) (t : Tid) {old api : Api} {result : QueueResult ℕ}
    {l : TaskLedger Tid} (ho : (x.thread t).api = old) (hpc : x.tasks.pc t = .done result)
    (hresult : ∀ v, result ≠ .popped v)
    (hp : y.thread = Function.update x.thread t ⟨(x.thread t).job, api⟩)
    (hq : y.tasks.pc = Function.update x.tasks.pc t .idle)
    (hs : api.submitting none = old.submitting (some result)) (hr : api.reading = old.reading)
    (hl : { y.ledger with role := x.ledger.role } = l) : y.ledger = l := by
  refine ledger_same x t hp hq (PoolPc.role_api_same ho ?_ ?_ hr) hl
  · rw [hpc]
    exact hs
  · rw [hpc]
    exact Job.holding_eq _ hresult

/-- the calls and counts of the ledger are those of the pool -/
def Issues (a : PoolAct Tid) : LedgerAct Tid → Prop
  | .call t => a = .submit t
  | .empty => ∃ t, a = .submitEmpty t
  | .count t k => a = .increment t k
  | _ => True

/-- the step of the ledger that a step of the pool is, if it is one -/
inductive LedgerStep (x y : ThreadPool Tid) (a : PoolAct Tid) : Prop
  | none (h : y.ledger = x.ledger)
  | act (b : LedgerAct Tid) (hb : b.Ok x.ledger) (h : y.ledger = b.out x.ledger) (hc : Issues a b)

theorem Coherent.ledger_critical (h : x.Coherent) {q₀ : BlockingQueue ℕ} (hq : x.tasks.Inv q₀) {t : Tid}
    {op : QueueOp ℕ} {n : Bool} (hpc : x.tasks.pc t = .critical op n) :
    LedgerStep x ((PoolAct.queue (.critical t op n)).out x) (.queue (.critical t op n)) := by
  have hkeep : x.thread = Function.update x.thread t (x.thread t) := (Function.update_eq_self ..).symm
  have hnone : (x.tasks.pc t).result = none := by rw [hpc]; rfl
  have hop : (x.tasks.pc t).op = some op := by rw [hpc]; rfl
  have hother (hr : (∀ v, (x.tasks.shared.critical op).1 ≠ .pushed v) ∧
      ∀ v, (x.tasks.shared.critical op).1 ≠ .popped v)
      (hqueue : (x.tasks.shared.critical op).2.queue = x.tasks.shared.queue) :
      LedgerStep x ((PoolAct.queue (.critical t op n)).out x) (.queue (.critical t op n)) := by
    refine .none (ledger_same x t hkeep rfl ?_ ?_)
    · rw [hnone]
      exact PoolPc.role_result _ hr
    · show ({ x.ledger with
        accepted := accepted (x.tasks.history ++ [(t, (x.tasks.shared.critical op).1)])
        queue := (x.tasks.shared.critical op).2.queue } : TaskLedger Tid) = _
      rw [accepted_concat_of_ne hr.1, hqueue]
      rfl
  rcases x.tasks.shared.critical_cases op (hq.passed t op n hpc) with ⟨v, rfl, hc, e⟩ |
    ⟨v, rfl, hc, hlt, e⟩ | ⟨rfl, hqu, hc, e⟩ | ⟨v, rest, rfl, hqu, e⟩ | ⟨rfl, e⟩
  · exact hother (by rw [e]; exact ⟨nofun, nofun⟩) (by rw [e])
  · -- the task is accepted
    have hapi := (h t).of_push hop
    refine .act (.accept t v) ?_ (ledger_eq x t (.unlock (.pushed v)) hkeep ?_
      (PoolPc.role_eq (r := { x.ledger.role t with submitting := .accepted v }) ?_ ?_ rfl) ?_) trivial
    · show (x.thread t).api.submitting (x.tasks.pc t).result = _
      rw [hapi, hnone]
      rfl
    · show Function.update x.tasks.pc t (.unlock (x.tasks.shared.critical (.push v)).1) = _
      rw [e]
    · rw [hapi]
      rfl
    · show _ = (x.thread t).job.holding (x.tasks.pc t).result
      rw [hnone]
      exact (Job.holding_eq (r := .pushed v) _ nofun).symm
    · show ({ x.ledger with
        role := _
        accepted := accepted (x.tasks.history ++ [(t, (x.tasks.shared.critical (.push v)).1)])
        queue := (x.tasks.shared.critical (.push v)).2.queue } : TaskLedger Tid) = _
      rw [e, accepted_concat]
      rfl
  · exact hother (by rw [e]; exact ⟨nofun, nofun⟩) (by rw [e])
  · -- a task is taken
    have hj := (h t).of_pop hop
    have hapi := (h t).of_looping hj
    refine .act (.take t v) ⟨?_, ?_⟩ (ledger_eq x t (.unlock (.popped v)) hkeep ?_
      (PoolPc.role_eq (r := { x.ledger.role t with holding := .taken v }) ?_ ?_ rfl) ?_) trivial
    · show (x.thread t).job.holding (x.tasks.pc t).result = _
      rw [hj, hnone]
      rfl
    · show x.tasks.shared.queue.head? = _
      rw [hqu]
      rfl
    · show Function.update x.tasks.pc t (.unlock (x.tasks.shared.critical .pop).1) = _
      rw [e]
    · show (x.thread t).api.submitting _ = (x.thread t).api.submitting _
      rw [hapi]
      rfl
    · rw [hj]
      rfl
    · show ({ x.ledger with
        role := _
        accepted := accepted (x.tasks.history ++ [(t, (x.tasks.shared.critical .pop).1)])
        queue := (x.tasks.shared.critical .pop).2.queue } : TaskLedger Tid) = _
      have htail : x.tasks.shared.queue.tail = rest := by rw [hqu]; rfl
      rw [e, accepted_concat_of_ne nofun, ← htail]
      rfl
  · exact hother (by rw [e]; exact ⟨nofun, nofun⟩) (by rw [e])

theorem Coherent.ledger_queue (h : x.Coherent) {q₀ : BlockingQueue ℕ} (hq : x.tasks.Inv q₀)
    (a : QueueAct Tid ℕ) (ha : a.Ok x.tasks) (hi : a.inner = true) :
    LedgerStep x ((PoolAct.queue a).out x) (.queue a) := by
  have hsilent (hs : a.silent = true) : LedgerStep x ((PoolAct.queue a).out x) (.queue a) := by
    obtain ⟨hcall, hhist, hshared⟩ := QueueAct.silent_out a ha hs
    refine .none ?_
    show ledger { x with tasks := a.out x.tasks } = _
    unfold ledger
    simp only [hhist, hshared, (hcall _).2]
  cases a with
  | critical t op n => exact h.ledger_critical hq ha
  | throw t v n =>
    refine .none (ledger_same x t (Function.update_eq_self ..).symm rfl ?_ ?_)
    · rw [ha.1]
      exact PoolPc.role_result _ ⟨nofun, nofun⟩
    · show ({ x.ledger with accepted := accepted (x.tasks.history ++ [(t, .threw v)]) } : TaskLedger Tid) = _
      rw [accepted_concat_of_ne nofun]
      rfl
  | call t op => cases hi
  | ret t r => cases hi
  | _ => exact hsilent rfl

/-- a call of `submit` begins -/
theorem Coherent.ledger_submit (h : x.Coherent) {t : Tid} (hf : (x.thread t).free = true) :
    (LedgerAct.call t).Ok x.ledger ∧
      ((PoolAct.submit t).out x).ledger = (LedgerAct.call t).out x.ledger := by
  obtain ⟨_, hapi, _⟩ := (h t).of_free hf
  refine ⟨?_, ledger_eq x t _ rfl (Function.update_eq_self ..).symm (PoolPc.role_api hapi rfl rfl rfl) rfl⟩
  show (x.thread t).api.submitting _ = _
  rw [hapi]
  rfl

/-- a call of `shutdown` begins -/
theorem Coherent.ledger_shutdown (h : x.Coherent) {t : Tid} (hf : (x.thread t).free = true) :
    ((PoolAct.shutdown t).out x).ledger = x.ledger := by
  obtain ⟨_, hapi, _⟩ := (h t).of_free hf
  exact ledger_stays x t hapi rfl rfl (fun _ => rfl) rfl rfl

theorem Coherent.ledger_act (h : x.Coherent) {q₀ : BlockingQueue ℕ} (hq : x.tasks.Inv q₀)
    (a : PoolAct Tid) (ha : a.Ok x) : LedgerStep x (a.out x) a := by
  have hsub (t : Tid) {api : Api} (e : (x.thread t).api = api) :
      (x.ledger.role t).submitting = api.submitting (x.tasks.pc t).result := by
    rw [← e]
    rfl
  have hkeep (t : Tid) : x.tasks.pc = Function.update x.tasks.pc t (x.tasks.pc t) :=
    (Function.update_eq_self ..).symm
  cases a with
  | queue a => exact h.ledger_queue hq a ha.1 ha.2
  | submit t =>
    obtain ⟨hok, e⟩ := h.ledger_submit ha
    exact .act (.call t) hok e rfl
  | submitEmpty t =>
    obtain ⟨_, hapi, _⟩ := (h t).of_free ha
    exact .act .empty trivial (ledger_stays x t hapi rfl rfl (fun _ => rfl) rfl rfl) ⟨t, rfl⟩
  | loadFlag t k =>
    have hapi : (x.thread t).api = .loadFlag k := ha
    refine PoolAct.loadFlag_out (LedgerStep x · _) ?_ ?_
    · exact .act (.refuse t k) (hsub t hapi)
        (ledger_eq x t _ rfl (hkeep t) (PoolPc.role_api hapi rfl rfl rfl) rfl) trivial
    · exact .none (ledger_stays x t hapi rfl rfl (fun _ => rfl) rfl rfl)
  | increment t k =>
    have hapi : (x.thread t).api = .increment k := ha
    have hpc := h.idle_of_api ha ⟨rfl, nofun⟩
    refine .act (.count t k) (hsub t hapi)
      (ledger_eq x t _ rfl rfl (PoolPc.role_api hapi rfl ?_ rfl) rfl) rfl
    rw [hpc]
    rfl
  | pushed t k =>
    obtain ⟨hapi, hpc⟩ := ha
    refine .act (.answer t k) ?_ (ledger_eq x t _ rfl rfl (PoolPc.role_api hapi rfl ?_ rfl) rfl) trivial
    · show (x.ledger.role t).submitting = _
      rw [hsub t hapi, hpc]
      rfl
    · rw [hpc]
      exact Job.holding_eq _ nofun
  | refused t k => exact .none (ledger_back x t ha.1 ha.2 nofun rfl rfl rfl rfl rfl)
  | threw t k => exact .none (ledger_back x t ha.1 ha.2 nofun rfl rfl rfl rfl rfl)
  | rollback t k thrown =>
    have hapi : (x.thread t).api = .rollback k thrown := ha
    refine .act (.retreat t k (if thrown then .threw else .refused)) ⟨hsub t hapi, ?_⟩
      (ledger_eq x t _ rfl (hkeep t) (PoolPc.role_api hapi rfl rfl rfl) rfl) trivial
    cases thrown <;> exact nofun
  | shutdown t => exact .none (h.ledger_shutdown ha)
  | exchange t =>
    have hapi : (x.thread t).api = .exchange := ha
    have hpc := h.idle_of_api ha ⟨rfl, nofun⟩
    refine PoolAct.exchange_out (LedgerStep x · _) ?_ ?_
    · exact .none (ledger_stays x t hapi rfl rfl (fun _ => rfl) rfl rfl)
    · refine .none (ledger_same x t rfl rfl (PoolPc.role_api_same hapi rfl ?_ rfl) rfl)
      rw [hpc]
      rfl
  | closed t => exact .none (ledger_back x t ha.1 ha.2 nofun rfl rfl rfl rfl rfl)
  | checkActive t =>
    have hapi : (x.thread t).api = .checkActive := ha
    refine PoolAct.checkActive_out (LedgerStep x · _) (fun _ => ?_) ?_
    · exact .none (ledger_stays x t hapi rfl rfl (fun _ => rfl) rfl rfl)
    · exact .none (ledger_stays x t hapi rfl rfl (fun _ => rfl) rfl rfl)
  | lockJoin t => exact .none (ledger_stays x t ha.1 rfl rfl (fun _ => rfl) rfl rfl)
  | join t => exact .none (ledger_stays x t ha.1 rfl rfl (fun _ => rfl) rfl rfl)
  | pop t =>
    refine .none (ledger_same x t (Function.update_eq_self ..).symm rfl ?_ rfl)
    rw [ha.2]
    rfl
  | start t k =>
    obtain ⟨hj, hpc⟩ := ha
    have hapi := (h t).of_looping hj
    refine .act (.start t k) ?_ (ledger_eq x t _ rfl rfl (PoolPc.role_eq ?_ rfl rfl) rfl) trivial
    · show (x.thread t).job.holding (x.tasks.pc t).result = _
      rw [hj, hpc]
      rfl
    · show (x.thread t).api.submitting _ = (x.thread t).api.submitting _
      rw [hapi]
      rfl
  | exit t =>
    obtain ⟨hj, hpc⟩ := ha
    have hapi := (h t).of_looping hj
    refine .none (ledger_same x t rfl rfl (PoolPc.role_eq ?_ ?_ rfl) rfl)
    · show (x.thread t).api.submitting _ = (x.thread t).api.submitting _
      rw [hapi]
      rfl
    · show _ = (x.thread t).job.holding _
      rw [hj, hpc]
      rfl
  | endTask t k thrown =>
    have hp : x.thread t = ⟨.running k, .idle⟩ := ha
    refine .none (ledger_same x t rfl (hkeep t) (PoolPc.role_eq rfl ?_ rfl) rfl)
    show _ = (x.thread t).job.holding _
    rw [hp]
    rfl
  | complete t k =>
    have hj : (x.thread t).job = .ending k := ha
    have hpc := QueuePc.eq_idle ((h t).of_ending hj).2
    refine .act (.complete t k) ?_ (ledger_eq x t _ rfl (hkeep t) (PoolPc.role_eq rfl ?_ rfl) rfl) trivial
    · show (x.thread t).job.holding _ = _
      rw [hj]
      rfl
    · rw [hpc]
      rfl
  | readSubmitted t =>
    obtain ⟨_, hapi, _⟩ := (h t).of_free ha
    refine .act (.readSubmitted t) trivial
      (ledger_eq x t _ rfl (hkeep t) (PoolPc.role_eq ?_ rfl rfl) rfl) trivial
    show _ = (x.thread t).api.submitting _
    rw [hapi]
    rfl
  | readCompleted t s =>
    have hapi : (x.thread t).api = .readCompleted s := ha
    refine .act (.readCompleted t s) ?_
      (ledger_eq x t _ rfl (hkeep t) (PoolPc.role_eq ?_ rfl rfl) rfl) trivial
    · show (x.thread t).api.reading = _
      rw [hapi]
      rfl
    · show _ = (x.thread t).api.submitting _
      rw [hapi]
      rfl

theorem started_ledger {tasks : BlockingQueue ℕ} (hq : tasks.queue = []) (worker : Tid → Bool) :
    (started tasks worker).ledger = { role := fun _ => {} } := by
  have hrole : (started tasks worker).ledger.role = fun _ => {} := by
    funext t
    show PoolPc.role ⟨if worker t then .looping else .client, .idle⟩ none = {}
    split <;> rfl
  show ({ role := (started tasks worker).ledger.role, queue := tasks.queue } : TaskLedger Tid) = _
  rw [hrole, hq]

/-- A run of the pool is a run of the ledger, also if the steps of both are restricted. -/
theorem reach_ledger_of {Ok : ThreadPool Tid → PoolAct Tid → Prop}
    {OkL : TaskLedger Tid → LedgerAct Tid → Prop} (hok : ∀ x a, Ok x a → a.Ok x)
    (hmap : ∀ x a b, Ok x a → b.Ok x.ledger → Issues a b → OkL x.ledger b)
    {tasks : BlockingQueue ℕ} {worker : Tid → Bool} (hq : tasks.queue = [])
    (hr : Reach Ok PoolAct.out (started tasks worker) x) :
    Reach OkL LedgerAct.out { role := fun _ => {} } x.ledger := by
  refine (reach_invariant (fun x : ThreadPool Tid =>
    Reach PoolAct.Ok PoolAct.out (started tasks worker) x ∧
    Reach OkL LedgerAct.out { role := fun _ => {} } x.ledger) hr
    ⟨Reach.refl _, by rw [started_ledger hq]; exact Reach.refl _⟩ ?_).2
  rintro x a ⟨hr, hl⟩ ha
  obtain ⟨h, hq⟩ := reach_tasks hr
  refine ⟨hr.trans (Reach.single (hok x a ha)), ?_⟩
  cases h.ledger_act (QueueState.reach_inv hq) a (hok x a ha) with
  | none e =>
    rw [e]
    exact hl
  | act b hb e hc =>
    rw [e]
    exact hl.trans (Reach.single (hmap x a b ha hb hc))

/-- **a run of the pool is a run of the ledger** -/
theorem reach_ledger {tasks : BlockingQueue ℕ} {worker : Tid → Bool} (hq : tasks.queue = [])
    (hr : Reach PoolAct.Ok PoolAct.out (started tasks worker) x) :
    Reach LedgerAct.Ok LedgerAct.out { role := fun _ => {} } x.ledger :=
  reach_ledger_of (fun _ _ ha => ha) (fun _ _ _ _ hb _ => hb) hq hr

end ThreadPool

end NetForge
