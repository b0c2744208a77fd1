import SystemsCourse.NetForge.StopRank

/-!
# The end of `Server::run`

After a request to stop, the accept loop, the workers and the queue between them come to an end by
themselves, whatever the schedule.

* `AcceptLoop.Alone`      who is in which call of the pool, for each place of the loop;
* `AcceptLoop.not_stuck`  until `run` has returned some step of the program can be made;
* `graceful_stop`         so that every run ends, after at most one more connection.
-/

set_option linter.unusedSectionVars false
set_option linter.unusedVariables false

namespace NetForge
open Wire Actions Threads

/-! ## who is in which call -/

/-- no call, or one that reads the counters -/
def Api.reads : Api → Bool
  | .idle => true
  | .readCompleted _ => true
  | _ => false

/-- a call of `submit`, or one that has returned -/
def Api.submits : Api → Bool
  | .idle => true
  | .loadFlag _ => true
  | .increment _ => true
  | .pushing _ => true
  | .rollback _ _ => true
  | _ => false

section
variable {Tid : Type}

/-- the only call of `shutdown`, or that it has returned -/
def Api.Stops (pool : ThreadPool Tid) : Api → Prop
  | .exchange => pool.shuttingDown = false ∧ pool.joinMutex = none
  | .closing => pool.joinMutex = none
  | .checkActive => pool.joinMutex = none ∧ ∃ t, (t, .closed) ∈ pool.tasks.history
  | .joinLock => pool.joinMutex = none ∧ ∃ t, (t, .closed) ∈ pool.tasks.history
  | .joining => ∃ t, (t, .closed) ∈ pool.tasks.history
  | .idle => pool.joined = true
  | _ => False

/-- the call of the pool that the loop is in -/
def LoopPc.Calls (pool : ThreadPool Tid) (api : Api) : LoopPc → Prop
  | .submitting _ _ => api.submits = true ∧ pool.shuttingDown = false ∧ pool.joinMutex = none
  | .stopping => api.Stops pool
  | .returned => api = .idle ∧ pool.joined = true
  | _ => api = .idle ∧ pool.shuttingDown = false ∧ pool.joinMutex = none

variable {pool : ThreadPool Tid} {api : Api} {pc : LoopPc}

theorem LoopPc.Calls.of_submit (h : pc.Calls pool api) (hi : api ≠ .idle) (ha : api.submits = true) :
    (∃ c k, pc = .submitting c k) ∧ pool.shuttingDown = false ∧ pool.joinMutex = none := by
  cases pc with
  | submitting c k => exact ⟨⟨c, k, rfl⟩, h.2⟩
  | stopping =>
    have h : api.Stops pool := h
    cases api with
    | idle => exact absurd rfl hi
    | loadFlag k => exact h.elim
    | increment k => exact h.elim
    | pushing k => exact h.elim
    | rollback k thrown => exact h.elim
    | _ => cases ha
  | _ => exact absurd h.1 hi

theorem LoopPc.Calls.of_shutdown (h : pc.Calls pool api) (ha : api.submits = false) :
    pc = .stopping ∧ api.Stops pool := by
  have hi : api ≠ .idle := by
    rintro rfl
    cases ha
  cases pc with
  | submitting c k => cases ha.symm.trans h.1
  | stopping => exact ⟨rfl, h⟩
  | _ => exact absurd h.1 hi

end

namespace AcceptLoop
variable {Tid : Type} [DecidableEq Tid] [Fintype Tid]

variable {acceptor : Tid} {pool pool' : ThreadPool Tid} {pc : LoopPc}

/-- nothing changes that the place of the loop speaks of -/
theorem calls_keep {api : Api} (h : pc.Calls pool api) (hsd : pool'.shuttingDown = pool.shuttingDown)
    (hjm : pool'.joinMutex = pool.joinMutex) (hj : pool'.joined = pool.joined)
    (hh : ∀ e ∈ pool.tasks.history, e ∈ pool'.tasks.history) : pc.Calls pool' api := by
  cases pc with
  | submitting c k =>
    obtain ⟨h1, h2, h3⟩ := h
    exact ⟨h1, hsd.trans h2, hjm.trans h3⟩
  | stopping =>
    have hclosed : (∃ t, (t, .closed) ∈ pool.tasks.history) → ∃ t, (t, .closed) ∈ pool'.tasks.history :=
      fun ⟨t, ht⟩ => ⟨t, hh _ ht⟩
    have h : api.Stops pool := h
    show api.Stops pool'
    cases api with
    | exchange => exact ⟨hsd.trans h.1, hjm.trans h.2⟩
    | closing => exact hjm.trans h
    | checkActive => exact ⟨hjm.trans h.1, hclosed h.2⟩
    | joinLock => exact ⟨hjm.trans h.1, hclosed h.2⟩
    | joining => exact hclosed h
    | idle => exact hj.trans h
    | _ => exact h.elim
  | returned => exact ⟨h.1, hj.trans h.2⟩
  | _ => exact ⟨h.1, hsd.trans h.2.1, hjm.trans h.2.2⟩

/-- only the loop calls `submit` and `shutdown`, and its place says how far it is -/
def Alone (acceptor : Tid) (pool : ThreadPool Tid) (pc : LoopPc) : Prop :=
  (∀ t, t ≠ acceptor → (pool.thread t).api.reads = true) ∧ pc.Calls pool (pool.thread acceptor).api

section
variable (h : Alone acceptor pool pc)
include h

theorem Alone.keep (hapi : ∀ t, (pool'.thread t).api = (pool.thread t).api)
    (hsd : pool'.shuttingDown = pool.shuttingDown) (hjm : pool'.joinMutex = pool.joinMutex)
    (hj : pool'.joined = pool.joined) (hh : ∀ e ∈ pool.tasks.history, e ∈ pool'.tasks.history) :
    Alone acceptor pool' pc := by
  refine ⟨fun t ht => ?_, ?_⟩
  · rw [hapi]
    exact h.1 t ht
  · rw [hapi]
    exact calls_keep h.2 hsd hjm hj hh

/-- a thread goes on in its loop -/
theorem Alone.job (t : Tid) (job : Job)
    (hp : pool'.thread = Function.update pool.thread t ⟨job, (pool.thread t).api⟩)
    (hsd : pool'.shuttingDown = pool.shuttingDown) (hjm : pool'.joinMutex = pool.joinMutex)
    (hj : pool'.joined = pool.joined) (hh : ∀ e ∈ pool.tasks.history, e ∈ pool'.tasks.history) :
    Alone acceptor pool' pc := by
  refine h.keep (fun u => ?_) hsd hjm hj hh
  rw [hp]
  by_cases hu : u = t
  · subst hu
    rw [Function.update_self]
  · rw [Function.update_of_ne hu]

/-- the call that a thread goes on with is that of the loop, unless it reads the counters -/
theorem Alone.own {t : Tid} {old : Api} (ho : (pool.thread t).api = old) (hold : old.reads = false) :
    t = acceptor ∧ pc.Calls pool old := by
  have ht : t = acceptor := by
    by_contra hne
    have := h.1 t hne
    rw [ho, hold] at this
    cases this
  subst ht
  exact ⟨rfl, ho ▸ h.2⟩

/-- the loop goes on in its call -/
theorem Alone.goes (api : Api)
    (hp : pool'.thread = Function.update pool.thread acceptor ⟨(pool.thread acceptor).job, api⟩)
    (hc : pc.Calls pool' api) : Alone acceptor pool' pc := by
  refine ⟨fun t ht => ?_, ?_⟩
  · rw [hp, Function.update_of_ne ht]
    exact h.1 t ht
  · rw [hp, Function.update_self]
    exact hc

/-- another thread begins or ends a read of the counters -/
theorem Alone.reads {t : Tid} (api : Api) (ht : t ≠ acceptor)
    (hp : pool'.thread = Function.update pool.thread t ⟨(pool.thread t).job, api⟩)
    (hr : api.reads = true) (hsd : pool'.shuttingDown = pool.shuttingDown)
    (hjm : pool'.joinMutex = pool.joinMutex) (hj : pool'.joined = pool.joined)
    (hh : pool'.tasks = pool.tasks) : Alone acceptor pool' pc := by
  refine ⟨fun u hu => ?_, ?_⟩
  · rw [hp]
    by_cases hut : u = t
    · subst hut
      rw [Function.update_self]
      exact hr
    · rw [Function.update_of_ne hut]
      exact h.1 u hu
  · rw [hp, Function.update_of_ne (Ne.symm ht)]
    exact calls_keep h.2 hsd hjm hj fun e he => by rwa [hh]

/-- the loop goes on in its call of `submit` -/
theorem Alone.submits {t : Tid} {old : Api} (api : Api) (ho : (pool.thread t).api = old)
    (hold : old.reads = false ∧ old.submits = true) (hs : api.submits = true)
    (hp : pool'.thread = Function.update pool.thread t ⟨(pool.thread t).job, api⟩)
    (hsd : pool'.shuttingDown = pool.shuttingDown) (hjm : pool'.joinMutex = pool.joinMutex) :
    Alone acceptor pool' pc := by
  obtain ⟨rfl, hc⟩ := h.own ho hold.1
  have hi : old ≠ .idle := by
    rintro rfl
    cases hold.1
  obtain ⟨⟨c, k, rfl⟩, h1, h2⟩ := hc.of_submit hi hold.2
  exact h.goes api hp ⟨hs, hsd.trans h1, hjm.trans h2⟩

/-- the loop goes on in its call of `shutdown` -/
theorem Alone.stops {t : Tid} {old : Api} (api : Api) (ho : (pool.thread t).api = old)
    (hold : old.submits = false) (hr : old.reads = false)
    (hp : pool'.thread = Function.update pool.thread t ⟨(pool.thread t).job, api⟩)
    (hs : t = acceptor → old.Stops pool → api.Stops pool') : Alone acceptor pool' pc := by
  obtain ⟨rfl, hc⟩ := h.own ho hr
  obtain ⟨rfl, hc⟩ := hc.of_shutdown hold
  exact h.goes api hp (hs rfl hc)

/-- **a step of the pool** -/
theorem Alone.act (hclient : (pool.thread acceptor).job = .client) {q₀ : BlockingQueue ℕ}
    (hq : pool.tasks.Inv q₀) (a : PoolAct Tid) (ha : a.Ok pool) (hf : a.foreign acceptor = true) :
    Alone acceptor (a.out pool) pc := by
  have hh : ∀ e ∈ pool.tasks.history, e ∈ (a.out pool).tasks.history :=
    fun e he => ThreadPool.history_act a he
  cases a with
  | queue a => exact h.keep (fun _ => rfl) rfl rfl rfl hh
  | submit t => cases hf
  | submitEmpty t => cases hf
  | shutdown t => cases hf
  | loadFlag t k =>
    refine PoolAct.loadFlag_out (Alone acceptor · pc) ?_ ?_
    · exact h.submits .idle ha ⟨rfl, rfl⟩ rfl rfl rfl rfl
    · exact h.submits (.increment k) ha ⟨rfl, rfl⟩ rfl rfl rfl rfl
  | increment t k => exact h.submits (.pushing k) ha ⟨rfl, rfl⟩ rfl rfl rfl rfl
  | pushed t k => exact h.submits .idle ha.1 ⟨rfl, rfl⟩ rfl rfl rfl rfl
  | refused t k => exact h.submits (.rollback k false) ha.1 ⟨rfl, rfl⟩ rfl rfl rfl rfl
  | threw t k => exact h.submits (.rollback k true) ha.1 ⟨rfl, rfl⟩ rfl rfl rfl rfl
  | rollback t k thrown => exact h.submits .idle ha ⟨rfl, rfl⟩ rfl rfl rfl rfl
  | exchange t =>
    show Alone acceptor (if pool.shuttingDown then pool.setApi t .checkActive
      else { (pool.call t .close).setApi t .closing with shuttingDown := true }) pc
    split
    · rename_i hsd
      refine h.stops .checkActive ha rfl rfl rfl fun _ hs => ?_
      cases hs.1.symm.trans hsd
    · exact h.stops .closing ha rfl rfl rfl fun _ hs => hs.2
  | closed t =>
    refine h.stops .checkActive ha.1 rfl rfl rfl fun _ hs => ⟨hs, t, ?_⟩
    exact ThreadPool.lastOf_mem (hq.last t .closed (by rw [ha.2]; rfl))
  | checkActive t =>
    show Alone acceptor (pool.setApi t (if (pool.thread t).job = .client then .joinLock else .idle)) pc
    refine h.stops _ ha rfl rfl rfl ?_
    rintro rfl hs
    rw [if_pos hclient]
    exact hs
  | lockJoin t => exact h.stops .joining ha.1 rfl rfl rfl fun _ hs => hs.2
  | join t => exact h.stops .idle ha.1 rfl rfl rfl fun _ _ => rfl
  | pop t => exact h.keep (fun _ => rfl) rfl rfl rfl hh
  | start t k => exact h.job t (.running k) rfl rfl rfl rfl hh
  | exit t => exact h.job t .exited rfl rfl rfl rfl hh
  | endTask t k thrown => exact h.job t (.ending k) rfl rfl rfl rfl hh
  | complete t k => exact h.job t .looping rfl rfl rfl rfl hh
  | readSubmitted t => exact h.reads _ (of_decide_eq_true hf) rfl rfl rfl rfl rfl rfl
  | readCompleted t s =>
    refine h.reads (t := t) .idle ?_ rfl rfl rfl rfl rfl rfl
    rintro rfl
    have hc := h.2
    rw [show (pool.thread t).api = .readCompleted s from ha] at hc
    exact (hc.of_shutdown rfl).2

end

/-- no other thread sleeps until there is a free slot -/
theorem Alone.not_asleep (h : Alone acceptor pool pc) (hco : pool.Coherent) {t : Tid} (ht : t ≠ acceptor) :
    (pool.tasks.pc t).asleepOn .notFull = false := by
  rw [Bool.eq_false_iff]
  intro hs
  obtain ⟨op, hpc, hcv⟩ := QueuePc.asleepOn_iff.mp hs
  have hr := h.1 t ht
  cases op with
  | push v =>
    rw [(hco t).of_push (show _ = some (QueueOp.push v) by rw [hpc]; rfl)] at hr
    cases hr
  | pop => cases hcv
  | close => cases hcv

/-- a `push` that throws is the loop's own, and then no thread sleeps until there is a free slot -/
theorem Alone.slots (h : Alone acceptor pool pc) (hco : pool.Coherent) {q₀ : BlockingQueue ℕ}
    (hq : pool.tasks.Inv q₀) (hw : pool.tasks.Wakeful .notFull) (a : PoolAct Tid) (ha : a.Ok pool) :
    (a.out pool).tasks.Wakeful .notFull := by
  have hcall {t : Tid} (op : QueueOp ℕ) (hi : pool.tasks.pc t = .idle) :
      ((QueueAct.call t op).out pool.tasks).Wakeful .notFull := hw.act hq (.call t op) hi fun _ => rfl
  have hret {t : Tid} {r : QueueResult ℕ} (hd : pool.tasks.pc t = .done r) :
      ((QueueAct.ret t r).out pool.tasks).Wakeful .notFull := hw.act hq (.ret t r) hd fun _ => rfl
  cases a with
  | queue a =>
    cases a with
    | throw t v n =>
      obtain ⟨⟨hpc, _⟩, _⟩ := ha
      have ht : t = acceptor := by
        have hop : (pool.tasks.pc t).op = some (.push v) := by
          rw [hpc]
          rfl
        exact (h.own ((hco t).of_push hop) rfl).1
      subst ht
      rintro ⟨u, hu⟩
      exfalso
      by_cases hut : u = t
      · subst hut
        have e : ((PoolAct.queue (.throw u v n)).out pool).tasks.pc u = .unlock (.threw v) :=
          QueueState.goto_self ..
        rw [e] at hu
        cases hu
      · have e : ((PoolAct.queue (.throw t v n)).out pool).tasks.pc u = pool.tasks.pc u :=
          QueueState.goto_ne _ hut _
        rw [e, h.not_asleep hco hut] at hu
        cases hu
    | _ => exact hw.act hq _ ha.1 fun _ => rfl
  | increment t k => exact hcall (.push k) (hco.idle_of_api ha ⟨rfl, nofun⟩)
  | pushed t k => exact hret ha.2
  | refused t k => exact hret ha.2
  | threw t k => exact hret ha.2
  | exchange t =>
    exact PoolAct.exchange_out (fun y => y.tasks.Wakeful .notFull) hw
      (hcall .close (hco.idle_of_api ha ⟨rfl, nofun⟩))
  | closed t => exact hret ha.2
  | pop t => exact hcall .pop ha.2
  | start t k => exact hret ha.2
  | exit t => exact hret ha.2
  | loadFlag t k => exact PoolAct.loadFlag_out (fun y => y.tasks.Wakeful .notFull) hw hw
  | _ => exact hw

/-- what the steps of the loop and the pool keep, beside `Inv` -/
structure Orderly (acceptor : Tid) (x : AcceptLoop Tid) : Prop where
  alone : Alone acceptor x.pool x.pc
  slots : x.pool.tasks.Wakeful .notFull

theorem Orderly.act {x : AcceptLoop Tid} (h : x.Orderly acceptor) {tasks : BlockingQueue ℕ}
    {worker : Tid → Bool} (hr : Reach PoolAct.Ok PoolAct.out (.started tasks worker) x.pool)
    (hacc : worker acceptor = false) (a : LoopAct Tid) (ha : a.Ok acceptor x) :
    (a.out acceptor x).Orderly acceptor := by
  obtain ⟨hco, hq⟩ := ThreadPool.reach_tasks hr
  have hinv := QueueState.reach_inv hq
  obtain ⟨halone, hslots⟩ := h
  obtain ⟨pool, pc, stopRequested, error, conns, sent⟩ := x
  dsimp only at halone hslots hr hco hinv
  -- the loop goes to another place without a call of the pool
  have hgoto (pc' : LoopPc) (hc : pc'.Calls pool (pool.thread acceptor).api) :
      Alone acceptor pool pc' := ⟨halone.1, hc⟩
  have hidle (hf : (pool.thread acceptor).free = true) : (pool.thread acceptor).api = .idle :=
    PoolPc.api_of_free hf
  cases a with
  | stop =>
    obtain ⟨rfl, _⟩ := ha
    exact ⟨hgoto .shutdown halone.2, hslots⟩
  | goOn =>
    obtain ⟨rfl, _⟩ := ha
    exact ⟨hgoto .poll halone.2, hslots⟩
  | pollNothing =>
    cases ha
    exact ⟨hgoto .check halone.2, hslots⟩
  | pollFailed error =>
    cases ha
    exact ⟨hgoto .shutdown halone.2, hslots⟩
  | pollHangup =>
    cases ha
    exact ⟨hgoto .shutdown halone.2, hslots⟩
  | pollReady =>
    cases ha
    exact ⟨hgoto .accept halone.2, hslots⟩
  | acceptRetry =>
    cases ha
    exact ⟨hgoto .check halone.2, hslots⟩
  | acceptFailed error =>
    cases ha
    exact ⟨hgoto .check halone.2, hslots⟩
  | accept =>
    cases ha
    exact ⟨hgoto (.configure _) halone.2, hslots⟩
  | configureFailed c =>
    cases ha
    exact ⟨hgoto .check halone.2, hslots⟩
  | configured c =>
    cases ha
    exact ⟨hgoto (.share c) halone.2, hslots⟩
  | shareFailed c =>
    cases ha
    exact ⟨hgoto .shutdown halone.2, hslots⟩
  | submit c =>
    obtain ⟨rfl, hf⟩ := ha
    exact ⟨(hgoto (.submitting c pool.calls) ⟨by rw [hidle hf]; rfl, halone.2.2⟩).goes
      (.loadFlag pool.calls) rfl ⟨rfl, halone.2.2⟩, hslots⟩
  | accepted c k =>
    obtain ⟨rfl, hf, _⟩ := ha
    exact ⟨hgoto .check ⟨hidle hf, halone.2.2⟩, hslots⟩
  | refused c k =>
    obtain ⟨rfl, hf, _⟩ := ha
    exact ⟨hgoto (.reject c) ⟨hidle hf, halone.2.2⟩, hslots⟩
  | threw c k =>
    obtain ⟨rfl, hf, _⟩ := ha
    exact ⟨hgoto .shutdown ⟨hidle hf, halone.2.2⟩, hslots⟩
  | reject c sent =>
    cases ha
    exact ⟨hgoto .check halone.2, hslots⟩
  | shutdown =>
    obtain ⟨rfl, hf⟩ := ha
    refine ⟨⟨fun t ht => ?_, ?_⟩, hslots⟩
    · show (Function.update pool.thread acceptor _ t).api.reads = true
      rw [Function.update_of_ne ht]
      exact halone.1 t ht
    · show LoopPc.stopping.Calls _ (Function.update pool.thread acceptor _ acceptor).api
      rw [Function.update_self]
      exact halone.2.2
  | finished =>
    obtain ⟨rfl, hf⟩ := ha
    have hs : (pool.thread acceptor).api.Stops pool := halone.2
    rw [hidle hf] at hs
    exact ⟨hgoto .returned ⟨hidle hf, hs⟩, hslots⟩
  | requestStop => exact ⟨halone, hslots⟩
  | pool a =>
    obtain ⟨ha, hforeign⟩ := ha
    have hclient := ((ThreadPool.reach_staff hr).client acceptor).mpr hacc
    exact ⟨halone.act hclient hinv a ha hforeign, halone.slots hco hinv hslots a ha⟩

/-- **the invariant of every run of the loop** -/
theorem reach_orderly {x : AcceptLoop Tid} {tasks : BlockingQueue ℕ} {worker : Tid → Bool}
    (hqueue : tasks.queue = []) (hacc : worker acceptor = false)
    (hr : Reach (LoopAct.Ok acceptor) (LoopAct.out acceptor) (run true (.started tasks worker)) x) :
    x.Inv acceptor tasks worker ∧ x.Orderly acceptor := by
  have hslots : (run true (ThreadPool.started tasks worker)).pool.tasks.Wakeful .notFull := by
    rintro ⟨t, ht⟩
    cases ht
  refine reach_invariant (fun x => x.Inv acceptor tasks worker ∧ x.Orderly acceptor) hr
    ⟨run_inv hqueue true, ⟨fun t _ => rfl, rfl, rfl, rfl⟩, hslots⟩ ?_
  rintro x a ⟨hi, ho⟩ ha
  exact ⟨(hi.act hqueue a ha).1, ho.act hi.pool hacc a ha⟩

/-! ## until `run` has returned, some step of the program can be made -/

section
variable {x : AcceptLoop Tid} {tasks : BlockingQueue ℕ} {worker : Tid → Bool}

/-- no step of the program can be made -/
def Stuck (acceptor : Tid) (x : AcceptLoop Tid) : Prop :=
  ∀ a : LoopAct Tid, a.Ok acceptor x → a.outside = true

theorem Stuck.settled (h : x.Stuck acceptor) : x.pool.Settled := by
  intro a ha
  cases hs : a.starts with
  | true => rfl
  | false =>
    have hforeign : a.foreign acceptor = true := by
      cases a <;> first | rfl | cases hs
    have hout := h (.pool a) ⟨ha, hforeign⟩
    unfold LoopAct.outside at hout
    split at hout
    · rename_i e
      cases e
    · rename_i e
      cases e
      cases hs
    · rename_i e
      cases e
      cases hs
    · cases hout

section
variable (hqueue : tasks.queue = []) (hclosed : tasks.closed = false) (hinv : x.Inv acceptor tasks worker)
  (hord : x.Orderly acceptor) (hstuck : x.Stuck acceptor)
include hqueue hclosed hinv hord hstuck

/-- a thread that sleeps in the queue would be woken, if the queue is closed -/
theorem Stuck.not_closed {t : Tid} {op : QueueOp ℕ} {c : Cv} (hpc : x.pool.tasks.pc t = .asleep op)
    (hcv : op.cv = some c) : x.pool.tasks.shared.closed = false := by
  obtain ⟨hco, hq⟩ := ThreadPool.reach_tasks hinv.pool
  have hset := hstuck.settled
  have hstill : x.pool.tasks.Still := fun u => (hset.pc (QueueState.reach_inv hq) hco u).imp_right Or.inr
  rw [Bool.eq_false_iff]
  intro hcl
  obtain ⟨u, hu⟩ := QueueState.reach_closing hq c hcl ⟨t, by rw [hpc]; exact decide_eq_true hcv⟩
  rw [(hstill.counts c).2.2 u] at hu
  cases hu

/-- a worker has left its loop or sleeps in `pop`; no task calls the queue -/
theorem Stuck.at_rest {t : Tid} (ht : (x.pool.thread t).job ≠ .client) (hta : t ≠ acceptor) :
    (x.pool.thread t).job = .exited ∨ x.pool.tasks.pc t = .asleep .pop := by
  obtain ⟨hco, hq⟩ := ThreadPool.reach_tasks hinv.pool
  refine (hstuck.settled.worker (QueueState.reach_inv hq) hco t ?_ ht).imp_right And.right
  intro k hk op hpc
  -- a call of the queue would be a `push` or a `close` of the task
  have hr := hord.alone.1 t hta
  have hcall := (hco t).call
  rw [hpc] at hcall
  rcases hcall with e | ⟨_, hj⟩
  · cases hapi : (x.pool.thread t).api with
    | idle =>
      rw [hapi] at e
      cases e
    | readCompleted s =>
      rw [hapi] at e
      cases e
    | _ =>
      rw [hapi] at hr
      cases hr
  · cases hk.symm.trans hj

/-- the loop does not wait for room in the queue -/
theorem Stuck.not_full (hw : ∃ t, worker t = true) (hacc : worker acceptor = false) {k : ℕ}
    (hpc : x.pool.tasks.pc acceptor = .asleep (.push k)) : False := by
  obtain ⟨hco, hq⟩ := ThreadPool.reach_tasks hinv.pool
  have hqi := QueueState.reach_inv hq
  have hset := hstuck.settled
  have hopen := hstuck.not_closed hqueue hclosed hinv hord hpc rfl
  -- no wake-up is under way, so the queue is full
  have hstill : x.pool.tasks.Still := fun u => (hset.pc hqi hco u).imp_right Or.inr
  have hslots : x.pool.tasks.shared.available .notFull
      ≤ x.pool.tasks.notified .notFull + x.pool.tasks.signallers .notFull :=
    hord.slots ⟨acceptor, by rw [hpc]; rfl⟩
  rw [(hstill.counts _).1, (hstill.counts _).2.1] at hslots
  have hfull : x.pool.tasks.shared.capacity ≤ x.pool.tasks.shared.queue.length := by
    have : x.pool.tasks.shared.available .notFull
        = x.pool.tasks.shared.capacity - x.pool.tasks.shared.queue.length := by
      simp [BlockingQueue.available, hopen]
    omega
  -- but no task of the queue is left to a worker
  have hempty : x.pool.tasks.shared.queue = [] := by
    refine hset.queue hqueue hclosed hinv.pool hw fun t k hk op hpc' => ?_
    have hta : t ≠ acceptor := by
      rintro rfl
      cases hk.symm.trans (((ThreadPool.reach_staff hinv.pool).client t).mpr hacc)
    rcases hstuck.at_rest hqueue hclosed hinv hord (by simp [hk]) hta with e | e
    · cases hk.symm.trans e
    · have hj := (hco t).of_pop (by rw [e]; rfl)
      cases hk.symm.trans hj
  rw [hempty] at hfull
  have := x.pool.tasks.shared.capacity_pos
  simp only [List.length_nil] at hfull
  omega

/-- when the queue is closed every worker has left its loop -/
theorem Stuck.exited (hacc : worker acceptor = false) (hcl : ∃ t, (t, .closed) ∈ x.pool.tasks.history)
    (t : Tid) : (x.pool.thread t).job = .client ∨ (x.pool.thread t).job = .exited := by
  obtain ⟨hco, hq⟩ := ThreadPool.reach_tasks hinv.pool
  have hsound := (QueueState.reach_inv hq).legal.sound hqueue hclosed
  by_cases hj : (x.pool.thread t).job = .client
  · exact Or.inl hj
  · right
    have hta : t ≠ acceptor := by
      rintro rfl
      exact hj (((ThreadPool.reach_staff hinv.pool).client t).mpr hacc)
    rcases hstuck.at_rest hqueue hclosed hinv hord hj hta with e | e
    · exact e
    · cases (hstuck.not_closed hqueue hclosed hinv hord e rfl).symm.trans (hsound.closed.mpr hcl)

end

/-- **the program is not stuck** before `run` has returned -/
theorem not_stuck (hqueue : tasks.queue = []) (hclosed : tasks.closed = false)
    (hinv : x.Inv acceptor tasks worker) (hord : x.Orderly acceptor) (hw : ∃ t, worker t = true)
    (hacc : worker acceptor = false) (hstop : x.stopRequested = true) (hstuck : x.Stuck acceptor) :
    x.pc = .returned := by
  obtain ⟨hco, hq⟩ := ThreadPool.reach_tasks hinv.pool
  have hset := hstuck.settled
  have hpcs := hset.pc (QueueState.reach_inv hq) hco acceptor
  have hclient := ((ThreadPool.reach_staff hinv.pool).client acceptor).mpr hacc
  have hown := hord.alone.2
  have hfree (hi : (x.pool.thread acceptor).api = .idle) : (x.pool.thread acceptor).free = true := by
    unfold PoolPc.free
    rw [hclient, hi]
  -- the queue call of a `push` or a `close` of the loop: it sleeps
  have hcall {api : Api} {op : QueueOp ℕ} (ha : (x.pool.thread acceptor).api = api)
      (hop : api.calling = some op) : x.pool.tasks.pc acceptor = .asleep op := by
    have hne : (x.pool.thread acceptor).api ≠ .idle := by
      rw [ha]
      rintro rfl
      cases hop
    have e := (hco acceptor).of_api hne
    rw [ha, hop] at e
    rcases hpcs with hi | ⟨op', hs⟩
    · rw [hi] at e
      cases e
    · rw [hs] at e
      cases e
      exact hs
  cases hpc : x.pc with
  | check => cases hstuck .stop ⟨hpc, hstop⟩
  | poll => cases hstuck .pollNothing hpc
  | accept => cases hstuck .acceptRetry hpc
  | configure c => cases hstuck (.configured c) hpc
  | share c =>
    rw [hpc] at hown
    cases hstuck (.submit c) ⟨hpc, hfree hown.1⟩
  | reject c => cases hstuck (.reject c true) hpc
  | shutdown =>
    rw [hpc] at hown
    cases hstuck .shutdown ⟨hpc, hfree hown.1⟩
  | returned => rfl
  | submitting c k =>
    rw [hpc] at hown
    cases hapi : (x.pool.thread acceptor).api with
    | idle =>
      -- `submit` has returned, and the loop can go on with its result
      have hhand := hinv.custody.hand
      rw [hpc] at hhand
      have haway : (x.pool.ledger.role acceptor).submitting = .away := by
        show (x.pool.thread acceptor).api.submitting _ = _
        rw [hapi]
        rfl
      obtain ⟨_, e | e | e | ⟨_, result, hres⟩⟩ := hhand
      · cases haway.symm.trans e
      · cases haway.symm.trans e
      · cases haway.symm.trans e
      · cases result with
        | accepted => cases hstuck (.accepted c k) ⟨hpc, hfree hapi, hres⟩
        | refused => cases hstuck (.refused c k) ⟨hpc, hfree hapi, hres⟩
        | threw => cases hstuck (.threw c k) ⟨hpc, hfree hapi, hres⟩
    | loadFlag k => cases hset (.loadFlag acceptor k) hapi
    | increment k => cases hset (.increment acceptor k) hapi
    | pushing k =>
      exact (hstuck.not_full hqueue hclosed hinv hord hw hacc (hcall hapi rfl)).elim
    | rollback k thrown => cases hset (.rollback acceptor k thrown) hapi
    | _ =>
      rw [hapi] at hown
      cases hown.1
  | stopping =>
    rw [hpc] at hown
    have hown : (x.pool.thread acceptor).api.Stops x.pool := hown
    cases hapi : (x.pool.thread acceptor).api with
    | idle => cases hstuck .finished ⟨hpc, hfree hapi⟩
    | exchange => cases hset (.exchange acceptor) hapi
    | closing => exact (QueueState.reach_close_awake hq acceptor (hcall hapi rfl)).elim
    | checkActive => cases hset (.checkActive acceptor) hapi
    | joinLock =>
      rw [hapi] at hown
      cases hset (.lockJoin acceptor) ⟨hapi, hown.1⟩
    | joining =>
      rw [hapi] at hown
      cases hset (.join acceptor) ⟨hapi, hstuck.exited hqueue hclosed hinv hord hacc hown⟩
    | _ =>
      rw [hapi] at hown
      exact hown.elim

end

/-! ## the end of every run -/

variable {x : AcceptLoop Tid}

theorem stopRequested_act (a : LoopAct Tid) (h : x.stopRequested = true) :
    (a.out acceptor x).stopRequested = true := by
  cases a with
  | requestStop => rfl
  | _ => exact h

/-- connections so far, and the one that may come before the loop looks at `stop_requested_` again -/
def expected (x : AcceptLoop Tid) : ℕ :=
  x.conns.length + if x.pc = .poll ∨ x.pc = .accept then 1 else 0

theorem expected_le (h : x.stopRequested = true) (a : LoopAct Tid) (ha : a.Ok acceptor x) :
    (a.out acceptor x).expected ≤ x.expected := by
  unfold expected
  obtain ⟨pool, pc, stopRequested, error, conns, sent⟩ := x
  cases a with
  | goOn => cases h.symm.trans ha.2
  | accept =>
    cases ha
    simp [LoopAct.out]
  | pollReady =>
    cases ha
    simp [LoopAct.out]
  | requestStop => exact Nat.le_refl _
  | pool a => exact Nat.le_refl _
  | _ => simp [LoopAct.out]

end AcceptLoop

section
variable {Tid : Type} [DecidableEq Tid] [Fintype Tid]

/-- **The server stops.**  Once stop is requested, every run of the accept loop, the workers and the
queue has only so many steps, but for a few more after each step from outside (a wake-up without a
reason, a read of the counters); until `run` has returned the program can make a step; and at most one
more connection is accepted. -/
theorem graceful_stop (options : ServerOptions) (worker : Tid → Bool) (acceptor : Tid)
    (pool : ThreadPool Tid)
    (hnew : ThreadPool.new worker (max 1 options.queueCapacity) = .ok pool)
    (hacc : worker acceptor = false) (x : AcceptLoop Tid)
    (hrun : Reach (LoopAct.Ok acceptor) (LoopAct.out acceptor) (.run true pool) x)
    (hstop : x.stopRequested = true) :
    (∃ bound, ∀ as y, Run (LoopAct.Ok acceptor) (LoopAct.out acceptor) x as y →
      as.countP (fun a => !a.outside) ≤ bound + 2 * as.countP LoopAct.outside) ∧
    (∀ y, Reach (LoopAct.Ok acceptor) (LoopAct.out acceptor) x y →
      y.pc = .returned ∨ ∃ a : LoopAct Tid, a.Ok acceptor y ∧ a.outside = false) ∧
    (∀ y, Reach (LoopAct.Ok acceptor) (LoopAct.out acceptor) x y →
      y.conns.length ≤ x.conns.length + 1) := by
  obtain ⟨hcap, hw, rfl⟩ := ThreadPool.new_ok hnew
  have hstops {y : AcceptLoop Tid} (hr : Reach (LoopAct.Ok acceptor) (LoopAct.out acceptor) x y) :
      y.stopRequested = true :=
    reach_invariant (fun y => y.stopRequested = true) hr hstop
      fun _ a h _ => AcceptLoop.stopRequested_act a h
  refine ⟨⟨x.rank, fun as y has => ?_⟩, fun y hr => ?_, fun y hr => ?_⟩
  · have hb := run_bounded
      (fun y : AcceptLoop Tid => y.Inv acceptor _ worker ∧ y.stopRequested = true)
      AcceptLoop.rank 2 LoopAct.outside
      (fun y a h ha => ⟨(h.1.act rfl a ha).1, AcceptLoop.stopRequested_act a h.2⟩)
      (fun y a h ha ho => a.rank_lt (ThreadPool.reach_tasks h.1.pool).1 h.2 ha ho)
      (fun y a _ ha ho => a.rank_outside ha ho)
      ⟨(AcceptLoop.reach_orderly rfl hacc hrun).1, hstop⟩ has
    omega
  · by_contra hno
    obtain ⟨hret, hno⟩ := not_or.mp hno
    obtain ⟨hinv, hord⟩ := AcceptLoop.reach_orderly rfl hacc (hrun.trans hr)
    refine hret (AcceptLoop.not_stuck rfl rfl hinv hord hw hacc (hstops hr) fun a ha => ?_)
    by_contra ho
    exact hno ⟨a, ha, Bool.eq_false_iff.mpr ho⟩
  · have hle : y.stopRequested = true ∧ y.expected ≤ x.expected :=
      reach_invariant (fun y : AcceptLoop Tid => y.stopRequested = true ∧ y.expected ≤ x.expected)
        hr ⟨hstop, Nat.le_refl _⟩ fun y a h ha =>
          ⟨AcceptLoop.stopRequested_act a h.1, (AcceptLoop.expected_le h.1 a ha).trans h.2⟩
    have hx : x.expected ≤ x.conns.length + 1 := by
      unfold AcceptLoop.expected
      split_ifs <;> omega
    exact (Nat.le_add_right _ _).trans (hle.2.trans hx)

end

theorem graceful_stop_first :
    ∃ x, Reach (LoopAct.Ok 1) (LoopAct.out 1) smallServer x ∧ x.stopRequested = true ∧
      x.conns = [.submitted 0] ∧
      ∃ bound, ∀ as y, Run (LoopAct.Ok 1) (LoopAct.out 1) x as y →
        as.countP (fun a => !a.outside) ≤ bound + 2 * as.countP LoopAct.outside := by
  have hrun : (perform (LoopAct.Ok 1) (LoopAct.out 1) smallServer
      (connection 0 0 ++ [.requestStop])).map (fun x => (x.stopRequested, x.conns))
      = some (true, [.submitted 0]) := by
    decide +kernel
  obtain ⟨x, hx, e⟩ := Option.map_eq_some_iff.mp hrun
  obtain ⟨hstop, hconns⟩ := Prod.mk.inj e
  exact ⟨x, perform_reach hx, hstop, hconns,
    (graceful_stop { queueCapacity := 1 } (fun t => decide (t = 0)) 1 smallServer.pool rfl (by decide) x
      (perform_reach hx) hstop).1⟩

end NetForge
