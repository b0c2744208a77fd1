import SystemsCourse.NetForge.AcceptLoop

/-!
# How many steps are left

A number for each state of the accept loop with its pool: once stop is requested each step of the
program makes it smaller (`LoopAct.rank_lt`), and a step from outside makes it larger by two at most
(`LoopAct.rank_outside`).

A call that is under way pays for the steps after it, a queued task for the worker that will run it,
and a close for the threads that it wakes.
-/

set_option linter.unusedSectionVars false
set_option linter.unusedVariables false

namespace NetForge
open Wire Actions Threads

/-! ## the steps that are left: the queue -/

section
variable {T : Type}

/-- the steps from the critical section of a call on, with those of the threads it wakes; there are
`n` threads -/
def QueueOp.rank (n : ℕ) : QueueOp T → ℕ
  | .push _ => 24
  | .pop => 2
  | .close => 4 * n + 12

def QueueResult.rank (n : ℕ) : QueueResult T → ℕ
  | .nullopt => 1
  | .closed => 4 * n + 11
  | _ => 12

def QueuePc.rank (n : ℕ) : QueuePc T → ℕ
  | .idle => 5
  | .lock op _ => op.rank n + 2
  | .check op _ => op.rank n + 1
  | .asleep op => op.rank n
  | .critical op _ => op.rank n
  | .unlock result => result.rank n
  | .notifyOne _ _ => 11
  | .notifyAll .notEmpty => 4 * n + 10
  | .notifyAll .notFull => 2 * n + 9
  | .done .nullopt => 0
  | .done _ => 8

variable (n : ℕ)

theorem QueuePc.rank_done_le (r : QueueResult T) : QueuePc.rank n (.done r) ≤ 8 := by
  cases r with
  | nullopt => exact Nat.zero_le _
  | _ => exact Nat.le_refl _

theorem QueuePc.rank_wake (c : Cv) (pc : QueuePc T) : (pc.wake c).rank n ≤ pc.rank n + 2 := by
  unfold wake
  split
  · split_ifs
    · exact Nat.le_refl _
    · exact Nat.le_add_right _ _
  · exact Nat.le_add_right _ _

theorem QueueResult.rank_next (r : QueueResult T) : r.next.rank n < r.rank n := by
  cases r <;> simp [next, rank, QueuePc.rank]

theorem Cv.rank_afterAll (c : Cv) :
    (c.afterAll : QueuePc T).rank n + n * 2 < QueuePc.rank n (.notifyAll c : QueuePc T) := by
  cases c with
  | notEmpty =>
    show 2 * n + 9 + n * 2 < 4 * n + 10
    omega
  | notFull =>
    show 8 + n * 2 < 2 * n + 9
    omega

/-- a critical section pays for its result; a `push` also for the task that it queues, and a `pop` is
paid by the task that it takes -/
theorem BlockingQueue.rank_critical (q : BlockingQueue T) (op : QueueOp T) :
    11 * (q.critical op).2.queue.length + (q.critical op).1.rank n
      < 11 * q.queue.length + op.rank n := by
  cases op with
  | push v =>
    unfold critical
    dsimp only
    split_ifs
    · show 11 * q.queue.length + 12 < 11 * q.queue.length + 24
      omega
    · show 11 * (q.queue ++ [v]).length + 12 < 11 * q.queue.length + 24
      rw [List.length_append, List.length_singleton]
      omega
  | pop =>
    cases hq : q.queue with
    | nil =>
      simp [critical, hq, QueueResult.rank, QueueOp.rank]
    | cons v rest =>
      simp only [critical, hq, QueueResult.rank, QueueOp.rank, List.length_cons]
      omega
  | close =>
    show 11 * q.queue.length + (4 * n + 11) < 11 * q.queue.length + (4 * n + 12)
    omega

end

namespace QueueState
variable {Tid T : Type} [DecidableEq Tid] [Fintype Tid] {x y : QueueState Tid T}

def rank (x : QueueState Tid T) : ℕ :=
  11 * x.shared.queue.length + total fun t => (x.pc t).rank (Fintype.card Tid)

/-- one thread moves -/
theorem rank_move (t : Tid) (pc : QueuePc T) (hpc : y.pc = Function.update x.pc t pc) :
    y.rank + 11 * x.shared.queue.length + (x.pc t).rank (Fintype.card Tid)
      = x.rank + 11 * y.shared.queue.length + pc.rank (Fintype.card Tid) := by
  have h := total_update (QueuePc.rank (Fintype.card Tid)) x.pc t pc
  unfold rank
  rw [hpc]
  omega

theorem rank_goto (t : Tid) (pc : QueuePc T) :
    (x.goto t pc).rank + (x.pc t).rank (Fintype.card Tid)
      = x.rank + pc.rank (Fintype.card Tid) := by
  have h := rank_move (y := x.goto t pc) t pc rfl
  rw [show (x.goto t pc).shared = x.shared from rfl] at h
  omega

/-- one thread moves down and the queue stays as it is -/
theorem rank_goto_lt {t : Tid} {pc₀ : QueuePc T} (pc : QueuePc T) (hpc : x.pc t = pc₀)
    (hlt : pc.rank (Fintype.card Tid) < pc₀.rank (Fintype.card Tid)) : (x.goto t pc).rank < x.rank := by
  have h := rank_goto (x := x) t pc
  rw [hpc] at h
  omega

theorem rank_notifyOne {t w : Tid} {r : QueueResult T} {c : Cv} (hpc : x.pc t = .notifyOne r c)
    (hw : (x.pc w).asleepOn c = true) : ((QueueAct.notifyOne t r c w).out x).rank < x.rank := by
  have hne : t ≠ w := by
    rintro rfl
    rw [hpc] at hw
    cases hw
  have h1 := rank_goto (x := x) w ((x.pc w).wake c)
  have h2 := rank_goto (x := x.goto w ((x.pc w).wake c)) t (.done r)
  rw [goto_ne x hne, hpc] at h2
  have h3 := QueuePc.rank_wake (Fintype.card Tid) c (x.pc w)
  have h4 := QueuePc.rank_done_le (Fintype.card Tid) r
  have h5 : QueuePc.rank (Fintype.card Tid) (.notifyOne r c) = 11 := rfl
  show ((x.goto w ((x.pc w).wake c)).goto t (.done r)).rank < x.rank
  omega

theorem rank_notifyAll {t : Tid} {c : Cv} (hpc : x.pc t = .notifyAll c) :
    ((QueueAct.notifyAll t c).out x).rank < x.rank := by
  have hall : QueueState.rank { x with pc := fun u => (x.pc u).wake c }
      ≤ x.rank + Fintype.card Tid * 2 := by
    unfold rank
    rw [Nat.add_assoc]
    exact Nat.add_le_add_left (total_le_add fun u => QueuePc.rank_wake _ c (x.pc u)) _
  have h := rank_goto (x := { x with pc := fun u => (x.pc u).wake c }) t c.afterAll
  have hself : (x.pc t).wake c = .notifyAll c := by
    rw [hpc]
    rfl
  dsimp only at h
  rw [hself] at h
  have hafter := Cv.rank_afterAll (T := T) (Fintype.card Tid) c
  show (QueueState.goto { x with pc := fun u => (x.pc u).wake c } t c.afterAll).rank < x.rank
  omega

/-- **a step inside a call**; only a thread that wakes up for no reason has more to do -/
theorem rank_inner (a : QueueAct Tid T) (ha : a.Ok x) (hi : a.inner = true) :
    (a.out x).rank < x.rank ∨ (∃ t op, a = .spurious t op) ∧ (a.out x).rank ≤ x.rank + 2 := by
  cases a with
  | call t op => cases hi
  | ret t r => cases hi
  | acquire t op n => exact Or.inl (rank_goto_lt (x := x) (.check op n) ha.1 (Nat.lt_succ_self _))
  | sleep t op n => exact Or.inl (rank_goto_lt (x := x) (.asleep op) ha.1 (Nat.lt_succ_self _))
  | pass t op n => exact Or.inl (rank_goto_lt (x := x) (.critical op n) ha.1 (Nat.lt_succ_self _))
  | critical t op n =>
    have hpc : x.pc t = .critical op n := ha
    have h := rank_move (y := (QueueAct.critical t op n).out x) t
      (.unlock (x.shared.critical op).1) rfl
    rw [hpc] at h
    have hc := x.shared.rank_critical (Fintype.card Tid) op
    have h1 : QueuePc.rank (Fintype.card Tid) (.critical op n) = op.rank (Fintype.card Tid) := rfl
    have h2 : QueuePc.rank (Fintype.card Tid) (.unlock (x.shared.critical op).1)
      = (x.shared.critical op).1.rank (Fintype.card Tid) := rfl
    have h3 : ((QueueAct.critical t op n).out x).shared = (x.shared.critical op).2 := rfl
    rw [h3] at h
    exact Or.inl (by omega)
  | throw t v n =>
    exact Or.inl (rank_goto_lt (x := x) (.unlock (.threw v)) ha.1 (by decide : 12 < 24))
  | unlock t r => exact Or.inl (rank_goto_lt (x := x) r.next ha (r.rank_next _))
  | notifyOne t r c w => exact Or.inl (rank_notifyOne ha.1 ha.2)
  | notifyNobody t r c =>
    exact Or.inl (rank_goto_lt (x := x) (.done r) ha.1
      (Nat.lt_of_le_of_lt (QueuePc.rank_done_le _ r) (by decide : 8 < 11)))
  | notifyAll t c => exact Or.inl (rank_notifyAll ha)
  | spurious t op =>
    have hpc : x.pc t = .asleep op := ha
    have h := rank_goto (x := x) t (.lock op false)
    rw [hpc] at h
    have h1 : QueuePc.rank (Fintype.card Tid) (.asleep op) = op.rank (Fintype.card Tid) := rfl
    have h2 : QueuePc.rank (Fintype.card Tid) (.lock op false) = op.rank (Fintype.card Tid) + 2 := rfl
    refine Or.inr ⟨⟨t, op, rfl⟩, ?_⟩
    show (x.goto t (.lock op false)).rank ≤ x.rank + 2
    omega

/-- a thread that sleeps after a step has slept before, or has found its predicate false -/
theorem asleep_act (a : QueueAct Tid T) {t : Tid} {op : QueueOp T} (ha : a.Ok x)
    (h : (a.out x).pc t = .asleep op) : x.pc t = .asleep op ∨ x.shared.predicate op = false := by
  have hgoto {y : QueueState Tid T} {u : Tid} {pc : QueuePc T} (hy : (y.goto u pc).pc t = .asleep op)
      (hpc : pc ≠ .asleep op) : y.pc t = .asleep op := by
    by_cases hu : t = u
    · subst hu
      rw [goto_self] at hy
      exact absurd hy hpc
    · rwa [goto_ne y hu] at hy
  have hwake {c : Cv} {pc : QueuePc T} (hw : pc.wake c = .asleep op) : pc = .asleep op := by
    unfold QueuePc.wake at hw
    split at hw
    · split_ifs at hw
      exact hw
    · exact hw
  cases a with
  | sleep u op' n =>
    by_cases hu : t = u
    · subst hu
      have e : ((QueueAct.sleep t op' n).out x).pc t = .asleep op' := goto_self ..
      cases e.symm.trans h
      exact Or.inr ha.2
    · exact Or.inl ((goto_ne x hu _).symm.trans h)
  | unlock u r => exact Or.inl (hgoto h (by cases r <;> exact nofun))
  | notifyOne u r c w =>
    have h := hgoto (y := x.goto w ((x.pc w).wake c)) h nofun
    by_cases hw : t = w
    · subst hw
      rw [goto_self] at h
      exact Or.inl (hwake h)
    · exact Or.inl ((goto_ne x hw _).symm.trans h)
  | notifyAll u c =>
    have h := hgoto (y := { x with pc := fun u => (x.pc u).wake c }) h (by cases c <;> exact nofun)
    exact Or.inl (hwake h)
  | _ => exact Or.inl (hgoto h nofun)

/-- `close` does not wait -/
theorem reach_close_awake {q₀ : BlockingQueue T}
    (hr : Reach QueueAct.Ok QueueAct.out { shared := q₀ } x) (t : Tid) : x.pc t ≠ .asleep .close := by
  refine reach_invariant (fun x : QueueState Tid T => x.pc t ≠ .asleep .close) hr nofun ?_
  intro x a h ha hs
  exact (asleep_act a ha hs).elim h nofun

end QueueState

/-! ## the pool and the loop -/

def Job.rank : Job → ℕ
  | .client => 0
  | .looping => 6
  | .running _ => 8
  | .ending _ => 7
  | .exited => 0

def Api.rank (n : ℕ) : Api → ℕ
  | .idle => 0
  | .loadFlag _ => 23
  | .increment _ => 22
  | .pushing _ => 0
  | .rollback _ _ => 1
  | .exchange => 4 * n + 13
  | .closing => 3
  | .checkActive => 3
  | .joinLock => 2
  | .joining => 1
  | .readCompleted _ => 1

def PoolPc.rank (n : ℕ) (p : PoolPc) : ℕ := p.job.rank + p.api.rank n

def LoopPc.rank (n : ℕ) : LoopPc → ℕ
  | .check => 4 * n + 16
  | .poll => 4 * n + 45
  | .accept => 4 * n + 44
  | .configure _ => 4 * n + 43
  | .share _ => 4 * n + 42
  | .submitting _ _ => 4 * n + 18
  | .reject _ => 4 * n + 17
  | .shutdown => 4 * n + 15
  | .stopping => 1
  | .returned => 0

theorem PoolPc.api_of_free {p : PoolPc} (h : p.free = true) : p.api = .idle := by
  obtain ⟨job, api⟩ := p
  unfold free at h
  dsimp only at h
  split at h
  · rfl
  · rfl
  · cases h

namespace ThreadPool
variable {Tid : Type} [DecidableEq Tid] [Fintype Tid] {x y : ThreadPool Tid}

def rank (x : ThreadPool Tid) : ℕ :=
  x.tasks.rank + total fun t => (x.thread t).rank (Fintype.card Tid)

theorem rank_move (t : Tid) (p : PoolPc) (hp : y.thread = Function.update x.thread t p) :
    y.rank + x.tasks.rank + (x.thread t).rank (Fintype.card Tid)
      = x.rank + y.tasks.rank + p.rank (Fintype.card Tid) := by
  have h := total_update (PoolPc.rank (Fintype.card Tid)) x.thread t p
  unfold rank
  rw [hp]
  omega

/-- a thread goes on in its call of the pool, outside of the queue -/
theorem rank_api {t : Tid} {old : Api} (api : Api) (hold : (x.thread t).api = old)
    (hp : y.thread = Function.update x.thread t ⟨(x.thread t).job, api⟩) (hq : y.tasks = x.tasks) :
    y.rank + old.rank (Fintype.card Tid) = x.rank + api.rank (Fintype.card Tid) := by
  have h := rank_move t _ hp
  rw [hq] at h
  subst hold
  unfold PoolPc.rank at h
  dsimp only at h
  omega

theorem rank_job {t : Tid} {old : Job} (job : Job) (hold : (x.thread t).job = old)
    (hp : y.thread = Function.update x.thread t ⟨job, (x.thread t).api⟩) (hq : y.tasks = x.tasks) :
    y.rank + old.rank = x.rank + job.rank := by
  have h := rank_move t _ hp
  rw [hq] at h
  subst hold
  unfold PoolPc.rank at h
  dsimp only at h
  omega

/-- a thread begins a call of the queue or returns from one -/
theorem rank_call_api {t : Tid} {old api : Api} {pc₀ pc : QueuePc ℕ} (hold : (x.thread t).api = old)
    (hpc : x.tasks.pc t = pc₀) (hp : y.thread = Function.update x.thread t ⟨(x.thread t).job, api⟩)
    (hq : y.tasks = x.tasks.goto t pc)
    (hlt : pc.rank (Fintype.card Tid) + api.rank (Fintype.card Tid)
      < pc₀.rank (Fintype.card Tid) + old.rank (Fintype.card Tid)) : y.rank < x.rank := by
  have h1 := rank_move t _ hp
  have h2 := QueueState.rank_goto (x := x.tasks) t pc
  rw [hq] at h1
  rw [hpc] at h2
  subst hold
  unfold PoolPc.rank at h1
  dsimp only at h1
  omega

theorem rank_call_job {t : Tid} {old job : Job} {pc₀ pc : QueuePc ℕ} (hold : (x.thread t).job = old)
    (hpc : x.tasks.pc t = pc₀) (hp : y.thread = Function.update x.thread t ⟨job, (x.thread t).api⟩)
    (hq : y.tasks = x.tasks.goto t pc)
    (hlt : pc.rank (Fintype.card Tid) + job.rank < pc₀.rank (Fintype.card Tid) + old.rank) :
    y.rank < x.rank := by
  have h1 := rank_move t _ hp
  have h2 := QueueState.rank_goto (x := x.tasks) t pc
  rw [hq] at h1
  rw [hpc] at h2
  subst hold
  unfold PoolPc.rank at h1
  dsimp only at h1
  omega

end ThreadPool

open ThreadPool in
/-- **a step of the pool** that does not begin a call -/
theorem PoolAct.rank_lt {Tid : Type} [DecidableEq Tid] [Fintype Tid] {x : ThreadPool Tid}
    (h : x.Coherent) (a : PoolAct Tid) (ha : a.Ok x) (hs : a.starts = false) :
    (a.out x).rank < x.rank := by
  cases a with
  | queue a =>
    obtain ⟨ha, hi⟩ := ha
    have hlt : (a.out x.tasks).rank < x.tasks.rank := by
      rcases x.tasks.rank_inner a ha hi with hlt | ⟨⟨t, op, rfl⟩, _⟩
      · exact hlt
      · cases hs
    exact Nat.add_lt_add_right hlt _
  | submit t => cases hs
  | submitEmpty t => cases hs
  | shutdown t => cases hs
  | readSubmitted t => cases hs
  | loadFlag t k =>
    refine loadFlag_out (fun y => y.rank < x.rank) ?_ ?_
    · have e := rank_api (y := x.answer t k .refused) .idle ha rfl rfl
      simp only [Api.rank] at e
      omega
    · have e := rank_api (y := x.setApi t (.increment k)) (.increment k) ha rfl rfl
      simp only [Api.rank] at e
      omega
  | increment t k =>
    have hpc := h.idle_of_api ha ⟨rfl, nofun⟩
    exact rank_call_api ha hpc rfl rfl (by decide : 26 + 0 < 5 + 22)
  | pushed t k => exact rank_call_api ha.1 ha.2 rfl rfl (by decide : 5 + 0 < 8 + 0)
  | refused t k => exact rank_call_api ha.1 ha.2 rfl rfl (by decide : 5 + 1 < 8 + 0)
  | threw t k => exact rank_call_api ha.1 ha.2 rfl rfl (by decide : 5 + 1 < 8 + 0)
  | rollback t k thrown =>
    have e := rank_api (y := (PoolAct.rollback t k thrown).out x) .idle ha rfl rfl
    simp only [Api.rank] at e
    omega
  | exchange t =>
    refine exchange_out (fun y => y.rank < x.rank) ?_ ?_
    · have e := rank_api (y := x.setApi t .checkActive) .checkActive ha rfl rfl
      simp only [Api.rank] at e
      omega
    · have hpc := h.idle_of_api ha ⟨rfl, nofun⟩
      have hlt : (QueuePc.lock (.close : QueueOp ℕ) false).rank (Fintype.card Tid)
          + Api.closing.rank (Fintype.card Tid)
          < (QueuePc.idle : QueuePc ℕ).rank (Fintype.card Tid) + Api.exchange.rank (Fintype.card Tid) := by
        simp only [QueuePc.rank, QueueOp.rank, Api.rank]
        omega
      exact rank_call_api ha hpc rfl rfl hlt
  | closed t => exact rank_call_api ha.1 ha.2 rfl rfl (by decide : 5 + 3 < 8 + 3)
  | checkActive t =>
    refine checkActive_out (fun y => y.rank < x.rank) (fun _ => ?_) ?_
    · have e := rank_api (y := x.setApi t .joinLock) .joinLock ha rfl rfl
      simp only [Api.rank] at e
      omega
    · have e := rank_api (y := x.setApi t .idle) .idle ha rfl rfl
      simp only [Api.rank] at e
      omega
  | lockJoin t =>
    have e := rank_api (y := (PoolAct.lockJoin t).out x) .joining ha.1 rfl rfl
    simp only [Api.rank] at e
    omega
  | join t =>
    have e := rank_api (y := (PoolAct.join t).out x) .idle ha.1 rfl rfl
    simp only [Api.rank] at e
    omega
  | pop t =>
    have e := QueueState.rank_goto_lt (x := x.tasks) (.lock .pop false) ha.2 (by decide : 4 < 5)
    exact Nat.add_lt_add_right e _
  | start t k => exact rank_call_job ha.1 ha.2 rfl rfl (by decide : 5 + 8 < 8 + 6)
  | exit t => exact rank_call_job ha.1 ha.2 rfl rfl (by decide : 5 + 0 < 0 + 6)
  | endTask t k thrown =>
    have hp : x.thread t = ⟨.running k, .idle⟩ := ha
    have e := rank_job (y := (PoolAct.endTask t k thrown).out x) (.ending k) (congrArg PoolPc.job hp)
      rfl rfl
    simp only [Job.rank] at e
    omega
  | complete t k =>
    have e := rank_job (y := (PoolAct.complete t k).out x) .looping ha rfl rfl
    simp only [Job.rank] at e
    omega
  | readCompleted t s =>
    have e := rank_api (y := (PoolAct.readCompleted t s).out x) .idle ha rfl rfl
    simp only [Api.rank] at e
    omega

/-- a step that the program does not make by itself: stop is requested, a task or another thread asks
for the counters, a thread wakes up for no reason -/
def LoopAct.outside {Tid : Type} : LoopAct Tid → Bool
  | .requestStop => true
  | .pool (.readSubmitted _) => true
  | .pool (.queue (.spurious _ _)) => true
  | _ => false

namespace AcceptLoop
variable {Tid : Type} [DecidableEq Tid] [Fintype Tid] {x : AcceptLoop Tid}

def rank (x : AcceptLoop Tid) : ℕ := x.pc.rank (Fintype.card Tid) + x.pool.rank

/-- the loop goes on, and the pool stays as it is -/
theorem rank_pc_lt {y : AcceptLoop Tid} {pc₀ : LoopPc} (pc : LoopPc) (hpc : x.pc = pc₀)
    (hy : y.pc = pc) (hpool : y.pool = x.pool)
    (hlt : pc.rank (Fintype.card Tid) < pc₀.rank (Fintype.card Tid)) : y.rank < x.rank := by
  unfold rank
  rw [hy, hpool, hpc]
  exact Nat.add_lt_add_right hlt _

end AcceptLoop

namespace LoopAct
variable {Tid : Type} [DecidableEq Tid] [Fintype Tid] {acceptor : Tid} {x : AcceptLoop Tid}

open AcceptLoop in
/-- **a step of the program**, once stop is requested -/
theorem rank_lt (h : x.pool.Coherent) (hstop : x.stopRequested = true) (a : LoopAct Tid)
    (ha : a.Ok acceptor x) (hout : a.outside = false) : (a.out acceptor x).rank < x.rank := by
  cases a with
  | stop => exact rank_pc_lt .shutdown ha.1 rfl rfl (Nat.lt_succ_self _)
  | goOn => cases hstop.symm.trans ha.2
  | pollNothing => exact rank_pc_lt .check ha rfl rfl (by simp [LoopPc.rank])
  | pollFailed error => exact rank_pc_lt .shutdown ha rfl rfl (by simp [LoopPc.rank])
  | pollHangup => exact rank_pc_lt .shutdown ha rfl rfl (by simp [LoopPc.rank])
  | pollReady => exact rank_pc_lt .accept ha rfl rfl (Nat.lt_succ_self _)
  | acceptRetry => exact rank_pc_lt .check ha rfl rfl (by simp [LoopPc.rank])
  | acceptFailed error => exact rank_pc_lt .check ha rfl rfl (by simp [LoopPc.rank])
  | accept => exact rank_pc_lt (.configure _) ha rfl rfl (Nat.lt_succ_self _)
  | configureFailed c => exact rank_pc_lt .check ha rfl rfl (by simp [LoopPc.rank])
  | configured c => exact rank_pc_lt (.share c) ha rfl rfl (Nat.lt_succ_self _)
  | shareFailed c => exact rank_pc_lt .shutdown ha rfl rfl (by simp [LoopPc.rank])
  | submit c =>
    obtain ⟨hpc, hf⟩ := ha
    have e := ThreadPool.rank_api (y := (PoolAct.submit acceptor).out x.pool) (.loadFlag _)
      (PoolPc.api_of_free hf) rfl rfl
    simp only [Api.rank] at e
    unfold AcceptLoop.rank
    rw [hpc]
    show 4 * Fintype.card Tid + 18 + ((PoolAct.submit acceptor).out x.pool).rank
      < 4 * Fintype.card Tid + 42 + x.pool.rank
    omega
  | accepted c k => exact rank_pc_lt .check ha.1 rfl rfl (by simp [LoopPc.rank])
  | refused c k => exact rank_pc_lt (.reject c) ha.1 rfl rfl (Nat.lt_succ_self _)
  | threw c k => exact rank_pc_lt .shutdown ha.1 rfl rfl (by simp [LoopPc.rank])
  | reject c sent => exact rank_pc_lt .check ha rfl rfl (Nat.lt_succ_self _)
  | shutdown =>
    obtain ⟨hpc, hf⟩ := ha
    have e := ThreadPool.rank_api (y := (PoolAct.shutdown acceptor).out x.pool) .exchange
      (PoolPc.api_of_free hf) rfl rfl
    simp only [Api.rank] at e
    unfold AcceptLoop.rank
    rw [hpc]
    show 1 + ((PoolAct.shutdown acceptor).out x.pool).rank < 4 * Fintype.card Tid + 15 + x.pool.rank
    omega
  | finished => exact rank_pc_lt .returned ha.1 rfl rfl Nat.one_pos
  | requestStop => cases hout
  | pool a =>
    obtain ⟨ha, hforeign⟩ := ha
    have hs : a.starts = false := by
      cases a with
      | submit t => cases hforeign
      | submitEmpty t => cases hforeign
      | shutdown t => cases hforeign
      | readSubmitted t => cases hout
      | queue a =>
        cases a with
        | spurious t op => cases hout
        | _ => rfl
      | _ => rfl
    exact Nat.add_lt_add_left (a.rank_lt h ha hs) _

/-- a step from outside adds at most two -/
theorem rank_outside (a : LoopAct Tid) (ha : a.Ok acceptor x) (hout : a.outside = true) :
    (a.out acceptor x).rank ≤ x.rank + 2 := by
  unfold outside at hout
  split at hout
  · exact Nat.le_add_right _ _
  · rename_i t
    obtain ⟨hf, _⟩ := ha
    have e := ThreadPool.rank_api (y := (PoolAct.readSubmitted t).out x.pool) (.readCompleted _)
      (PoolPc.api_of_free hf) rfl rfl
    simp only [Api.rank] at e
    show x.pc.rank _ + ((PoolAct.readSubmitted t).out x.pool).rank ≤ x.pc.rank _ + x.pool.rank + 2
    omega
  · rename_i t op
    obtain ⟨⟨ha, hi⟩, _⟩ := ha
    have e : ((QueueAct.spurious t op).out x.pool.tasks).rank ≤ x.pool.tasks.rank + 2 := by
      rcases x.pool.tasks.rank_inner (.spurious t op) ha hi with hlt | ⟨_, hle⟩
      · exact Nat.le_of_lt (Nat.lt_add_right 2 hlt)
      · exact hle
    have hpool : ((PoolAct.queue (.spurious t op)).out x.pool).rank ≤ x.pool.rank + 2 :=
      (Nat.add_le_add_right e _).trans (Nat.le_of_eq (Nat.add_right_comm ..))
    exact Nat.add_le_add_left hpool _
  · cases hout

end LoopAct

end NetForge
