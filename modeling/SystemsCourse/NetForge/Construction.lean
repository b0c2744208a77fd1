import Mathlib.Data.Fintype.Option
import SystemsCourse.NetForge.StopRank

/-!
# The constructor of the thread pool

Model of `ThreadPool::ThreadPool` in `capstone/reference/src/thread_pool.cpp` while it runs: the workers that
were started already pop from the queue, and starting the next one may fail.  The handler then closes the
queue, joins the workers and throws again.  Nobody else has the pool yet, so nothing is pushed.

* `Construction.Inv`    what holds in every interleaving;
* `BuildAct.rank_lt`    each step of the program makes a number smaller;
* `construction_ends`   the constructor returns or throws, and if it throws no worker is left.
-/

set_option linter.unusedSectionVars false
set_option linter.unusedVariables false

namespace NetForge
open Wire Actions Threads

/-- where the constructor is -/
inductive BuildPc where
  | spawning
  /-- in the handler -/
  | failed
  | closing
  /-- in `workers_.clear()`, with the workers that were joined -/
  | joining (joined : ℕ)
  | constructed
  | rethrown
deriving DecidableEq

/-- `none` is the thread of the constructor, and `started` is `workers_.size()` -/
structure Construction (n : ℕ) where
  tasks : QueueState (Option (Fin n)) ℕ
  started : ℕ := 0
  job : Fin n → Job := fun _ => .looping
  pc : BuildPc := .spawning

inductive BuildAct (n : ℕ) where
  /-- inside a call of `tasks_` -/
  | queue (a : QueueAct (Option (Fin n)) ℕ)
  | spawn
  | finish
  /-- `reserve` or the thread throws -/
  | fail
  | close
  | closed
  | join (i : Fin n)
  | rethrow
  | pop (i : Fin n)
  | start (i : Fin n) (task : ℕ)
  | exit (i : Fin n)
  | endTask (i : Fin n) (task : ℕ)
  | complete (i : Fin n) (task : ℕ)

namespace Construction
variable {n : ℕ}

/-- before the first worker -/
def begin (workers queueCapacity : ℕ) : Except Bytes (Construction workers) := do
  let tasks ← BlockingQueue.new queueCapacity
  if workers = 0 then throw (ascii "ThreadPool requires at least one worker")
  return { tasks := { shared := tasks } }

/-- a thread goes on in the queue -/
def go (x : Construction n) (t : Option (Fin n)) (pc : QueuePc ℕ) : Construction n :=
  { x with tasks := x.tasks.goto t pc }

def setJob (x : Construction n) (i : Fin n) (job : Job) : Construction n :=
  { x with job := Function.update x.job i job }

end Construction

namespace BuildAct
variable {n : ℕ}

def Ok (x : Construction n) : BuildAct n → Prop
  | .queue a => a.Ok x.tasks ∧ a.inner = true
  | .spawn => x.pc = .spawning ∧ x.started < n
  | .finish => x.pc = .spawning ∧ x.started = n
  | .fail => x.pc = .spawning ∧ x.started < n
  | .close => x.pc = .failed ∧ x.tasks.pc none = .idle
  | .closed => x.pc = .closing ∧ x.tasks.pc none = .done .closed
  | .join i => x.pc = .joining i.val ∧ i.val < x.started ∧ x.job i = .exited
  | .rethrow => x.pc = .joining x.started
  | .pop i => i.val < x.started ∧ x.job i = .looping ∧ x.tasks.pc (some i) = .idle
  | .start i task => x.job i = .looping ∧ x.tasks.pc (some i) = .done (.popped task)
  | .exit i => x.job i = .looping ∧ x.tasks.pc (some i) = .done .nullopt
  | .endTask i task => x.job i = .running task
  | .complete i task => x.job i = .ending task

def out (x : Construction n) : BuildAct n → Construction n
  | .queue a => { x with tasks := a.out x.tasks }
  | .spawn => { x with started := x.started + 1 }
  | .finish => { x with pc := .constructed }
  | .fail => { x with pc := .failed }
  | .close => { x.go none (.lock .close false) with pc := .closing }
  | .closed => { x.go none .idle with pc := .joining 0 }
  | .join i => { x with pc := .joining (i.val + 1) }
  | .rethrow => { x with pc := .rethrown }
  | .pop i => x.go (some i) (.lock .pop false)
  | .start i task => (x.go (some i) .idle).setJob i (.running task)
  | .exit i => (x.go (some i) .idle).setJob i .exited
  | .endTask i task => x.setJob i (.ending task)
  | .complete i task => x.setJob i .looping

/-- only a wake-up for no reason is not a step of the program -/
def outside : BuildAct n → Bool
  | .queue (.spurious _ _) => true
  | _ => false

instance (x : Construction n) : (a : BuildAct n) → Decidable (a.Ok x)
  | .queue a => inferInstanceAs (Decidable (a.Ok x.tasks ∧ a.inner = true))
  | .spawn => inferInstanceAs (Decidable (x.pc = _ ∧ x.started < n))
  | .finish => inferInstanceAs (Decidable (x.pc = _ ∧ x.started = n))
  | .fail => inferInstanceAs (Decidable (x.pc = _ ∧ x.started < n))
  | .close => inferInstanceAs (Decidable (x.pc = _ ∧ x.tasks.pc none = _))
  | .closed => inferInstanceAs (Decidable (x.pc = _ ∧ x.tasks.pc none = _))
  | .join i => inferInstanceAs (Decidable (x.pc = _ ∧ i.val < x.started ∧ x.job i = _))
  | .rethrow => inferInstanceAs (Decidable (x.pc = _))
  | .pop i => inferInstanceAs (Decidable (i.val < x.started ∧ x.job i = _ ∧ x.tasks.pc (some i) = _))
  | .start i _ => inferInstanceAs (Decidable (x.job i = _ ∧ x.tasks.pc (some i) = _))
  | .exit i => inferInstanceAs (Decidable (x.job i = _ ∧ x.tasks.pc (some i) = _))
  | .endTask i _ => inferInstanceAs (Decidable (x.job i = _))
  | .complete i _ => inferInstanceAs (Decidable (x.job i = _))

end BuildAct

/-! ## the queue, if nothing is pushed -/

section
variable {Tid T : Type} [DecidableEq Tid] {x : QueueState Tid T}

/-- a step inside of calls of `pop` and `close` -/
theorem QueueAct.inner_unfilled (a : QueueAct Tid T) (ha : a.Ok x) (hi : a.inner = true)
    (hqueue : x.shared.queue = []) (hops : ∀ t v, (x.pc t).op ≠ some (.push v)) :
    (a.out x).shared.queue = [] ∧
      ((a.out x).history = x.history ∧ (a.out x).shared = x.shared ∨
        ∃ t r, (a.out x).history = x.history ++ [(t, r)] ∧
          (r = .nullopt ∧ (a.out x).shared = x.shared ∨
            r = .closed ∧ (x.pc t).op = some .close ∧ (a.out x).shared.closed = true)) := by
  cases a with
  | critical t op n =>
    have hpc : x.pc t = .critical op n := ha
    have hop : (x.pc t).op = some op := by rw [hpc]; rfl
    cases op with
    | push v => exact absurd hop (hops t v)
    | pop =>
      have hcritical : x.shared.critical .pop = (.nullopt, x.shared) := by
        simp [BlockingQueue.critical, hqueue]
      refine ⟨?_, Or.inr ⟨t, (x.shared.critical .pop).1, rfl, Or.inl ⟨?_, ?_⟩⟩⟩
      · show (x.shared.critical .pop).2.queue = []
        rw [hcritical]
        exact hqueue
      · rw [hcritical]
      · show (x.shared.critical .pop).2 = x.shared
        rw [hcritical]
    | close => exact ⟨hqueue, Or.inr ⟨t, .closed, rfl, Or.inr ⟨rfl, hop, rfl⟩⟩⟩
  | throw t v n =>
    refine absurd ?_ (hops t v)
    rw [ha.1]
    rfl
  | call t op => cases hi
  | ret t r => cases hi
  | _ => exact ⟨hqueue, Or.inl ⟨rfl, rfl⟩⟩

end

/-! ## the invariant -/

namespace Construction
variable {n : ℕ} {x : Construction n} {q₀ : BlockingQueue ℕ}

/-- what the place of the constructor says -/
def Phase (x : Construction n) : BuildPc → Prop
  | .spawning => x.tasks.shared.closed = false
  | .failed => x.tasks.shared.closed = false
  | .closing => True
  | .joining k => x.tasks.shared.closed = true ∧ k ≤ x.started ∧ ∀ i : Fin n, i.val < k → x.job i = .exited
  | .constructed => x.tasks.shared.closed = false ∧ x.started = n
  | .rethrown => x.tasks.shared.closed = true ∧ ∀ i : Fin n, i.val < x.started → x.job i = .exited

/-- workers that have left their loop stay outside -/
theorem Phase.mono {y : Construction n} {pc : BuildPc} (h : x.Phase pc)
    (hshared : y.tasks.shared = x.tasks.shared) (hstarted : y.started = x.started)
    (hjob : ∀ i, x.job i = .exited → y.job i = .exited) : y.Phase pc := by
  have hclosed : y.tasks.shared.closed = x.tasks.shared.closed := congrArg BlockingQueue.closed hshared
  cases pc with
  | spawning => exact hclosed.trans h
  | failed => exact hclosed.trans h
  | closing => trivial
  | joining k =>
    obtain ⟨hc, hk, hexited⟩ := h
    exact ⟨hclosed.trans hc, hk.trans_eq hstarted.symm, fun i hi => hjob i (hexited i hi)⟩
  | constructed =>
    obtain ⟨hc, hall⟩ := h
    exact ⟨hclosed.trans hc, hstarted.trans hall⟩
  | rethrown =>
    obtain ⟨hc, hexited⟩ := h
    exact ⟨hclosed.trans hc, fun i hi => hjob i (hexited i (hi.trans_eq hstarted))⟩

structure Inv (q₀ : BlockingQueue ℕ) (x : Construction n) : Prop where
  tasks : Reach QueueAct.Ok QueueAct.out { shared := q₀ } x.tasks
  owner : (x.tasks.pc none).op = if x.pc = .closing then some .close else none
  worker : ∀ i, (x.tasks.pc (some i)).op = none ∨
    (x.tasks.pc (some i)).op = some .pop ∧ x.job i = .looping ∧ i.val < x.started
  queue : x.tasks.shared.queue = []
  results : ∀ e ∈ x.tasks.history, e.2 = .nullopt ∨ e.2 = .closed
  started : x.started ≤ n
  job : ∀ i, x.job i = .looping ∨ x.job i = .exited ∧ x.tasks.shared.closed = true
  phase : x.Phase x.pc

theorem begin_inv (q₀ : BlockingQueue ℕ) (hqueue : q₀.queue = []) (hclosed : q₀.closed = false) :
    Inv q₀ ({ tasks := { shared := q₀ } } : Construction n) where
  tasks := Reach.refl _
  owner := rfl
  worker _ := Or.inl rfl
  queue := hqueue
  results _ he := by cases he
  started := Nat.zero_le n
  job _ := Or.inl rfl
  phase := hclosed

section
variable (h : x.Inv q₀)
include h

theorem Inv.no_push (t : Option (Fin n)) (v : ℕ) : (x.tasks.pc t).op ≠ some (.push v) := by
  intro hop
  cases t with
  | none =>
    rw [h.owner] at hop
    split_ifs at hop
    cases hop
  | some i =>
    rcases h.worker i with e | ⟨e, -⟩
    · cases e.symm.trans hop
    · cases e.symm.trans hop

/-- only the constructor closes the queue -/
theorem Inv.closing_of_close {t : Option (Fin n)} (hop : (x.tasks.pc t).op = some .close) :
    t = none ∧ x.pc = .closing := by
  cases t with
  | none =>
    rw [h.owner] at hop
    split_ifs at hop with hpc
    exact ⟨rfl, hpc⟩
  | some i =>
    rcases h.worker i with e | ⟨e, -⟩
    · cases e.symm.trans hop
    · cases e.symm.trans hop

/-- a call that has ended left its result in the log -/
theorem Inv.done_mem {t : Option (Fin n)} {r : QueueResult ℕ} (hpc : x.tasks.pc t = .done r) :
    (t, r) ∈ x.tasks.history := by
  exact ThreadPool.lastOf_mem ((QueueState.reach_inv h.tasks).last t r (by rw [hpc]; rfl))

theorem Inv.closed_of_done (hqueue : q₀.queue = []) (hclosed : q₀.closed = false)
    {t : Option (Fin n)} {r : QueueResult ℕ} (hpc : x.tasks.pc t = .done r) :
    x.tasks.shared.closed = true := by
  have hsound := (QueueState.reach_inv h.tasks).legal.sound hqueue hclosed
  have hmem := h.done_mem hpc
  rcases h.results _ hmem with e | e
  · cases e
    exact (hsound.drained ⟨t, hmem⟩).1
  · cases e
    exact hsound.closed.mpr ⟨t, hmem⟩

/-- a thread calls the queue, or returns from it -/
theorem Inv.reach_goto {a : QueueAct (Option (Fin n)) ℕ} (ha : a.Ok x.tasks) :
    Reach QueueAct.Ok QueueAct.out { shared := q₀ } (a.out x.tasks) :=
  h.tasks.trans (Reach.single ha)

/-- a step inside a call -/
theorem Inv.inner (a : QueueAct (Option (Fin n)) ℕ) (ha : a.Ok x.tasks) (hi : a.inner = true) :
    ((BuildAct.queue a).out x).Inv q₀ := by
  have hop := a.inner_op ha hi
  obtain ⟨hqueue, heffect⟩ := a.inner_unfilled ha hi h.queue h.no_push
  have hresults : ∀ e ∈ (a.out x.tasks).history, e.2 = .nullopt ∨ e.2 = .closed := by
    intro e he
    rcases heffect with ⟨hhistory, -⟩ | ⟨t, r, hhistory, hr⟩
    · rw [hhistory] at he
      exact h.results e he
    · rw [hhistory] at he
      rcases List.mem_append.mp he with he | he
      · exact h.results e he
      · cases List.mem_singleton.mp he
        exact hr.imp (fun hr => hr.1) fun hr => hr.1
  -- the queue is as before, or the constructor has closed it
  have hshared : (a.out x.tasks).shared = x.tasks.shared ∨
      x.pc = .closing ∧ (a.out x.tasks).shared.closed = true := by
    rcases heffect with ⟨-, hsame⟩ | ⟨t, r, -, ⟨-, hsame⟩ | ⟨-, hclose, hclosed⟩⟩
    · exact Or.inl hsame
    · exact Or.inl hsame
    · exact Or.inr ⟨(h.closing_of_close hclose).2, hclosed⟩
  refine ⟨h.reach_goto ha, (hop none).trans h.owner, fun i => ?_, hqueue, hresults, h.started,
    fun i => ?_, ?_⟩
  · exact (h.worker i).imp (hop _).trans fun hw => ⟨(hop _).trans hw.1, hw.2⟩
  · rcases hshared with hsame | ⟨-, hclosed⟩
    · refine (h.job i).imp_right fun hj => ⟨hj.1, ?_⟩
      exact (congrArg BlockingQueue.closed hsame).trans hj.2
    · exact (h.job i).imp_right fun hj => ⟨hj.1, hclosed⟩
  · rcases hshared with hsame | ⟨hpc, -⟩
    · exact h.phase.mono hsame rfl fun _ hj => hj
    · show Phase _ x.pc
      rw [hpc]
      trivial

/-- a thread calls the queue or returns from it, and its operation is the right one -/
theorem Inv.go {a : QueueAct (Option (Fin n)) ℕ} {t : Option (Fin n)} {pc : QueuePc ℕ} {p : BuildPc}
    (ha : a.Ok x.tasks) (hout : a.out x.tasks = x.tasks.goto t pc)
    (howner : ((x.tasks.goto t pc).pc none).op = if p = .closing then some .close else none)
    (hworker : ∀ i, ((x.tasks.goto t pc).pc (some i)).op = none ∨
      ((x.tasks.goto t pc).pc (some i)).op = some .pop ∧ x.job i = .looping ∧ i.val < x.started)
    (hphase : x.Phase p) : Inv q₀ { x.go t pc with pc := p } := by
  have hreach := h.reach_goto ha
  rw [hout] at hreach
  exact ⟨hreach, howner, hworker, h.queue, h.results, h.started, h.job, hphase.mono rfl rfl fun _ hj => hj⟩

/-- the constructor goes on, outside of the queue -/
theorem Inv.goes {old p : BuildPc} (hpc : x.pc = old) (hold : old ≠ .closing) (hp : p ≠ .closing)
    (hphase : x.Phase p) : Inv q₀ { x with pc := p } := by
  refine { h with owner := ?_, phase := hphase.mono rfl rfl fun _ hj => hj }
  have howner := h.owner
  rw [hpc, if_neg hold] at howner
  exact howner.trans (if_neg hp).symm

theorem Inv.act (hqueue : q₀.queue = []) (hclosed : q₀.closed = false) (a : BuildAct n) (ha : a.Ok x) :
    (a.out x).Inv q₀ := by
  have hphase := h.phase
  cases a with
  | queue a => exact h.inner a ha.1 ha.2
  | spawn =>
    obtain ⟨hpc, hlt⟩ := ha
    rw [hpc] at hphase
    refine { h with started := hlt, worker := fun i => ?_, phase := ?_ }
    · exact (h.worker i).imp_right fun hw => ⟨hw.1, hw.2.1, Nat.lt_succ_of_lt hw.2.2⟩
    · show Phase _ x.pc
      rw [hpc]
      exact hphase
  | finish =>
    obtain ⟨hpc, hall⟩ := ha
    rw [hpc] at hphase
    exact h.goes hpc nofun nofun ⟨hphase, hall⟩
  | fail =>
    obtain ⟨hpc, -⟩ := ha
    rw [hpc] at hphase
    exact h.goes hpc nofun nofun hphase
  | close =>
    obtain ⟨hpc, hidle⟩ := ha
    refine h.go (a := .call none .close) hidle rfl ?_ (fun i => ?_) trivial
    · rw [QueueState.goto_self]
      rfl
    · rw [QueueState.goto_ne _ (Option.some_ne_none i)]
      exact h.worker i
  | closed =>
    obtain ⟨hpc, hdone⟩ := ha
    refine h.go (a := .ret none .closed) hdone rfl ?_ (fun i => ?_)
      ⟨h.closed_of_done hqueue hclosed hdone, Nat.zero_le _, nofun⟩
    · rw [QueueState.goto_self]
      rfl
    · rw [QueueState.goto_ne _ (Option.some_ne_none i)]
      exact h.worker i
  | join i =>
    obtain ⟨hpc, hlt, hexited⟩ := ha
    rw [hpc] at hphase
    refine h.goes hpc nofun nofun ⟨hphase.1, hlt, fun j hj => ?_⟩
    rcases Nat.lt_succ_iff_lt_or_eq.mp hj with hj | hj
    · exact hphase.2.2 j hj
    · rw [Fin.ext hj]
      exact hexited
  | rethrow =>
    have hpc : x.pc = .joining x.started := ha
    rw [hpc] at hphase
    exact h.goes hpc nofun nofun ⟨hphase.1, hphase.2.2⟩
  | pop i =>
    obtain ⟨hlt, hj, hidle⟩ := ha
    refine h.go (a := .call (some i) .pop) hidle rfl ?_ (fun j => ?_) hphase
    · rw [QueueState.goto_ne _ (Option.some_ne_none i).symm]
      exact h.owner
    · by_cases hij : j = i
      · subst hij
        rw [QueueState.goto_self]
        exact Or.inr ⟨rfl, hj, hlt⟩
      · rw [QueueState.goto_ne _ (fun e => hij (Option.some.inj e))]
        exact h.worker j
  | start i task =>
    rcases h.results _ (h.done_mem ha.2) with e | e
    · cases e
    · cases e
  | exit i =>
    obtain ⟨hj, hdone⟩ := ha
    have hcl := h.closed_of_done hqueue hclosed hdone
    have hother {j : Fin n} (hij : j ≠ i) : some j ≠ some i := fun e => hij (Option.some.inj e)
    have hreach := h.reach_goto (a := .ret (some i) .nullopt) hdone
    refine ⟨hreach, ?_, fun j => ?_, h.queue, h.results, h.started, fun j => ?_, ?_⟩
    · exact (congrArg QueuePc.op (QueueState.goto_ne _ (Option.some_ne_none i).symm _)).trans h.owner
    · by_cases hij : j = i
      · subst hij
        exact Or.inl (congrArg QueuePc.op (QueueState.goto_self ..))
      · have hpc := congrArg QueuePc.op (QueueState.goto_ne x.tasks (hother hij) .idle)
        refine (h.worker j).imp hpc.trans fun hw => ⟨hpc.trans hw.1, ?_, hw.2.2⟩
        exact (Function.update_of_ne hij ..).trans hw.2.1
    · by_cases hij : j = i
      · subst hij
        exact Or.inr ⟨Function.update_self .., hcl⟩
      · exact (h.job j).imp (Function.update_of_ne hij ..).trans
          fun hexited => ⟨(Function.update_of_ne hij ..).trans hexited.1, hexited.2⟩
    · refine hphase.mono rfl rfl fun j hexited => ?_
      by_cases hij : j = i
      · subst hij
        exact Function.update_self ..
      · exact (Function.update_of_ne hij ..).trans hexited
  | endTask i task =>
    rcases h.job i with e | ⟨e, -⟩
    · cases e.symm.trans ha
    · cases e.symm.trans ha
  | complete i task =>
    rcases h.job i with e | ⟨e, -⟩
    · cases e.symm.trans ha
    · cases e.symm.trans ha

end

theorem Inv.of_reach {start : Construction n} (hstart : start.Inv q₀) (hqueue : q₀.queue = [])
    (hclosed : q₀.closed = false) (hr : Reach BuildAct.Ok BuildAct.out start x) : x.Inv q₀ :=
  reach_invariant (Inv q₀) hr hstart fun _ a h ha => h.act hqueue hclosed a ha

end Construction

/-! ## the steps that are left -/

/-- the steps of the constructor, and those of the threads that its `close` wakes -/
def BuildPc.rank (n started : ℕ) : BuildPc → ℕ
  | .spawning => 5 * n + 16 + (n - started)
  | .failed => 5 * n + 15
  | .closing => n + 1
  | .joining joined => n + 1 - joined
  | .constructed => 0
  | .rethrown => 0

namespace Construction
variable {n : ℕ} {x : Construction n} {q₀ : BlockingQueue ℕ}

def rank (x : Construction n) : ℕ :=
  x.tasks.rank + total (fun i => (x.job i).rank) + x.pc.rank n x.started

theorem rank_tasks (x : Construction n) (tasks : QueueState (Option (Fin n)) ℕ) :
    ({ x with tasks := tasks } : Construction n).rank + x.tasks.rank = x.rank + tasks.rank := by
  unfold rank
  dsimp only
  omega

theorem rank_setJob {i : Fin n} {old : Job} (hold : x.job i = old) (job : Job) :
    (x.setJob i job).rank + old.rank = x.rank + job.rank := by
  have h := total_update Job.rank x.job i job
  rw [hold] at h
  unfold rank setJob
  dsimp only
  omega

theorem rank_go {t : Option (Fin n)} {old : QueuePc ℕ} (hold : x.tasks.pc t = old) (pc : QueuePc ℕ) :
    (x.go t pc).rank + old.rank (n + 1) = x.rank + pc.rank (n + 1) := by
  have hgoto := x.tasks.rank_goto t pc
  rw [hold, Fintype.card_option, Fintype.card_fin] at hgoto
  have htasks := x.rank_tasks (x.tasks.goto t pc)
  show ({ x with tasks := x.tasks.goto t pc } : Construction n).rank + _ = _
  omega

theorem rank_pc {old : BuildPc} (hold : x.pc = old) (pc : BuildPc) :
    ({ x with pc := pc } : Construction n).rank + old.rank n x.started
      = x.rank + pc.rank n x.started := by
  subst hold
  unfold rank
  dsimp only
  omega

end Construction

open Construction in
/-- **each step of the program makes the rank smaller** -/
theorem BuildAct.rank_lt {n : ℕ} {x : Construction n} {q₀ : BlockingQueue ℕ} (h : x.Inv q₀) (a : BuildAct n)
    (ha : a.Ok x) : (a.out x).rank < x.rank ∨ a.outside = true ∧ (a.out x).rank ≤ x.rank + 2 := by
  cases a with
  | queue a =>
    have htasks := x.rank_tasks (a.out x.tasks)
    rcases x.tasks.rank_inner a ha.1 ha.2 with hlt | ⟨⟨t, op, rfl⟩, hle⟩
    · refine Or.inl ?_
      show ({ x with tasks := a.out x.tasks } : Construction n).rank < x.rank
      omega
    · refine Or.inr ⟨rfl, ?_⟩
      show ({ x with tasks := (QueueAct.spurious t op).out x.tasks } : Construction n).rank ≤ x.rank + 2
      omega
  | spawn =>
    obtain ⟨hpc, hlt⟩ := ha
    have hrank : ∀ started, BuildPc.rank n started x.pc = 5 * n + 16 + (n - started) := by
      rw [hpc]
      exact fun _ => rfl
    refine Or.inl ?_
    show x.tasks.rank + total (fun i => (x.job i).rank) + x.pc.rank n (x.started + 1)
      < x.tasks.rank + total (fun i => (x.job i).rank) + x.pc.rank n x.started
    rw [hrank, hrank]
    omega
  | finish =>
    have hrank : ((BuildAct.finish).out x).rank + (5 * n + 16 + (n - x.started)) = x.rank + 0 :=
      rank_pc ha.1 .constructed
    exact Or.inl (by omega)
  | fail =>
    have hrank : ((BuildAct.fail).out x).rank + (5 * n + 16 + (n - x.started)) = x.rank + (5 * n + 15) :=
      rank_pc ha.1 .failed
    exact Or.inl (by omega)
  | close =>
    have hgo : (x.go none (.lock .close false)).rank + 5 = x.rank + (4 * (n + 1) + 12 + 2) := rank_go ha.2 _
    have hrank : ((BuildAct.close).out x).rank + (5 * n + 15)
        = (x.go none (.lock .close false)).rank + (n + 1) :=
      rank_pc (show (x.go none (.lock .close false)).pc = .failed from ha.1) .closing
    exact Or.inl (by omega)
  | closed =>
    have hgo : (x.go none .idle).rank + 8 = x.rank + 5 := rank_go ha.2 _
    have hrank : ((BuildAct.closed).out x).rank + (n + 1) = (x.go none .idle).rank + (n + 1 - 0) :=
      rank_pc (show (x.go none .idle).pc = .closing from ha.1) (.joining 0)
    exact Or.inl (by omega)
  | join i =>
    have hrank : ((BuildAct.join i).out x).rank + (n + 1 - i.val) = x.rank + (n + 1 - (i.val + 1)) :=
      rank_pc ha.1 _
    have hlt := i.isLt
    exact Or.inl (by omega)
  | rethrow =>
    have hrank : ((BuildAct.rethrow).out x).rank + (n + 1 - x.started) = x.rank + 0 := rank_pc ha .rethrown
    have hstarted := h.started
    exact Or.inl (by omega)
  | pop i =>
    have hgo : ((BuildAct.pop i).out x).rank + 5 = x.rank + 4 := rank_go ha.2.2 _
    exact Or.inl (by omega)
  | start i task =>
    have hgo : (x.go (some i) .idle).rank + 8 = x.rank + 5 := rank_go ha.2 _
    have hjob : ((BuildAct.start i task).out x).rank + 6 = (x.go (some i) .idle).rank + 8 :=
      rank_setJob (show (x.go (some i) .idle).job i = .looping from ha.1) _
    exact Or.inl (by omega)
  | exit i =>
    have hgo : (x.go (some i) .idle).rank + 0 = x.rank + 5 := rank_go ha.2 _
    have hjob : ((BuildAct.exit i).out x).rank + 6 = (x.go (some i) .idle).rank + 0 :=
      rank_setJob (show (x.go (some i) .idle).job i = .looping from ha.1) _
    exact Or.inl (by omega)
  | endTask i task =>
    have hjob : ((BuildAct.endTask i task).out x).rank + 8 = x.rank + 7 := rank_setJob ha _
    exact Or.inl (by omega)
  | complete i task =>
    have hjob : ((BuildAct.complete i task).out x).rank + 7 = x.rank + 6 := rank_setJob ha _
    exact Or.inl (by omega)

/-! ## no deadlock -/

namespace Construction
variable {n : ℕ} {x : Construction n} {q₀ : BlockingQueue ℕ}

/-- no step of the program is possible -/
def Stuck (x : Construction n) : Prop := ∀ a : BuildAct n, a.Ok x → a.outside = true

section
variable (hs : x.Stuck) (h : x.Inv q₀)
include hs h

theorem Stuck.still : x.tasks.Still := by
  refine QueueState.still_of_blocked (QueueState.reach_inv h.tasks) fun a ha hi => ?_
  have hout := hs (.queue a) ⟨ha, hi⟩
  cases a with
  | spurious t op => exact ⟨t, op, rfl⟩
  | _ => cases hout

/-- a worker of a closed queue has left its loop -/
theorem Stuck.exited (hclosed : x.tasks.shared.closed = true) {i : Fin n} (hi : i.val < x.started) :
    x.job i = .exited := by
  rcases h.job i with hj | ⟨hj, -⟩
  · exfalso
    rcases hs.still h (some i) with hpc | ⟨r, hpc⟩ | ⟨op, hpc⟩
    · cases hs (.pop i) ⟨hi, hj, hpc⟩
    · have hop : (x.tasks.pc (some i)).op = some r.op := by rw [hpc]; rfl
      rcases h.results _ (h.done_mem hpc) with e | e
      · cases e
        cases hs (.exit i) ⟨hj, hpc⟩
      · cases e
        cases (h.closing_of_close hop).1
    · -- the `notify_all` of `close` has not missed it
      have hop : (x.tasks.pc (some i)).op = some op := by rw [hpc]; rfl
      rcases h.worker i with e | ⟨e, -⟩
      · cases e.symm.trans hop
      · cases e.symm.trans hop
        obtain ⟨u, hu⟩ := QueueState.reach_closing h.tasks .notEmpty hclosed
          ⟨some i, by rw [hpc]; rfl⟩
        rw [((hs.still h).counts .notEmpty).2.2 u] at hu
        cases hu
  · exact hj

/-- **the constructor does not wait for ever** -/
theorem Stuck.ended : x.pc = .constructed ∨ x.pc = .rethrown := by
  have hphase := h.phase
  have howner := h.owner
  cases hpc : x.pc with
  | spawning =>
    rcases Nat.lt_or_eq_of_le h.started with hlt | heq
    · cases hs .spawn ⟨hpc, hlt⟩
    · cases hs .finish ⟨hpc, heq⟩
  | failed =>
    rw [hpc] at howner
    cases hs .close ⟨hpc, QueuePc.eq_idle howner⟩
  | closing =>
    rw [hpc, if_pos rfl] at howner
    rcases hs.still h none with hidle | ⟨r, hdone⟩ | ⟨op, hasleep⟩
    · rw [hidle] at howner
      cases howner
    · rw [hdone] at howner
      cases r with
      | closed => cases hs .closed ⟨hpc, hdone⟩
      | _ => cases howner
    · rw [hasleep] at howner
      cases howner
      exact absurd hasleep (QueueState.reach_close_awake h.tasks none)
  | joining k =>
    rw [hpc] at hphase
    obtain ⟨hclosed, hk, -⟩ := hphase
    rcases Nat.lt_or_eq_of_le hk with hlt | rfl
    · have hkn : k < n := Nat.lt_of_lt_of_le hlt h.started
      cases hs (.join ⟨k, hkn⟩) ⟨hpc, hlt, hs.exited h hclosed hlt⟩
    · cases hs .rethrow hpc
  | constructed => exact Or.inl rfl
  | rethrown => exact Or.inr rfl

end

/-- if the constructor throws again, no thread is in the queue -/
theorem Inv.idle_of_rethrown (h : x.Inv q₀) (hpc : x.pc = .rethrown) :
    (∀ t, x.tasks.pc t = .idle) ∧ x.tasks.mutex = none := by
  have hphase := h.phase
  rw [hpc] at hphase
  have hidle : ∀ t, x.tasks.pc t = .idle := by
    intro t
    apply QueuePc.eq_idle
    cases t with
    | none =>
      rw [h.owner, hpc]
      rfl
    | some i =>
      rcases h.worker i with e | ⟨-, hj, hlt⟩
      · exact e
      · cases hj.symm.trans (hphase.2 i hlt)
  refine ⟨hidle, ?_⟩
  cases hm : x.tasks.mutex with
  | none => rfl
  | some t =>
    have hholds := ((QueueState.reach_inv h.tasks).holder t).mpr hm
    rw [hidle] at hholds
    cases hholds

theorem begin_ok {workers queueCapacity : ℕ} {start : Construction workers}
    (h : begin workers queueCapacity = .ok start) :
    ∃ q₀ : BlockingQueue ℕ, q₀.queue = [] ∧ q₀.closed = false ∧ start = { tasks := { shared := q₀ } } := by
  unfold begin BlockingQueue.new at h
  split at h
  · dsimp only [bind, Except.bind] at h
    split at h
    · cases h
    · cases h
      exact ⟨_, rfl, rfl, rfl⟩
  · cases h

theorem rank_begin (q₀ : BlockingQueue ℕ) (hqueue : q₀.queue = []) :
    ({ tasks := { shared := q₀ } } : Construction n).rank = 17 * n + 21 := by
  have htasks : ({ shared := q₀ } : QueueState (Option (Fin n)) ℕ).rank = 5 * (n + 1) := by
    show 11 * q₀.queue.length + total (fun _ : Option (Fin n) => 5) = 5 * (n + 1)
    rw [hqueue, total, Finset.sum_const, Finset.card_univ, Fintype.card_option, Fintype.card_fin]
    exact (Nat.zero_add _).trans (Nat.mul_comm _ _)
  have hjobs : total (fun _ : Fin n => Job.rank .looping) = 6 * n := by
    rw [total, Finset.sum_const, Finset.card_univ, Fintype.card_fin]
    exact Nat.mul_comm n 6
  show ({ shared := q₀ } : QueueState (Option (Fin n)) ℕ).rank + total (fun _ : Fin n => Job.rank .looping)
    + (5 * n + 16 + (n - 0)) = 17 * n + 21
  rw [htasks, hjobs]
  omega

end Construction

/-- **The constructor of the pool ends.**  Whichever of its workers cannot be started, and however the
others are interleaved with it: the program makes at most `17 * workers + 21` steps, and two more for each
wake-up without a reason, and it can always go on until the constructor has returned or thrown again.  If
it has returned, every worker is in its loop.  If it has thrown, every worker that was started has left its
loop and no thread is in the queue that is then destroyed.  No task is ever run. -/
theorem construction_ends (workers queueCapacity : ℕ) (start : Construction workers)
    (hnew : Construction.begin workers queueCapacity = .ok start) :
    (∀ as y, Run BuildAct.Ok BuildAct.out start as y →
      as.countP (fun a => !a.outside) ≤ 17 * workers + 21 + 2 * as.countP BuildAct.outside) ∧
    ∀ x, Reach BuildAct.Ok BuildAct.out start x →
      (x.pc = .constructed ∨ x.pc = .rethrown ∨ ∃ a : BuildAct workers, a.Ok x ∧ a.outside = false) ∧
      (x.pc = .constructed → x.started = workers ∧ (∀ i, x.job i = .looping) ∧
        x.tasks.shared.closed = false) ∧
      (x.pc = .rethrown → (∀ i, i.val < x.started → x.job i = .exited) ∧
        (∀ t, x.tasks.pc t = .idle) ∧ x.tasks.mutex = none) ∧
      x.tasks.shared.queue = [] ∧ ∀ i task, x.job i ≠ .running task := by
  obtain ⟨q₀, hqueue, hclosed, rfl⟩ := Construction.begin_ok hnew
  have hbegin := Construction.begin_inv (n := workers) q₀ hqueue hclosed
  refine ⟨fun as y has => ?_, fun x hr => ?_⟩
  · have hbound := run_bounded (Construction.Inv q₀) Construction.rank 2 BuildAct.outside
      (fun x a h ha => h.act hqueue hclosed a ha)
      (fun x a h ha ho => (a.rank_lt h ha).resolve_right fun hout => by cases ho.symm.trans hout.1)
      (fun x a h ha ho => (a.rank_lt h ha).elim (fun hlt => by omega) fun hout => hout.2) hbegin has
    rw [Construction.rank_begin q₀ hqueue] at hbound
    omega
  · have hinv := Construction.Inv.of_reach hbegin hqueue hclosed hr
    have hphase := hinv.phase
    refine ⟨?_, fun hpc => ?_, fun hpc => ?_, hinv.queue, fun i task hj => ?_⟩
    · by_cases hex : ∃ a : BuildAct workers, a.Ok x ∧ a.outside = false
      · exact Or.inr (Or.inr hex)
      · have hstuck : x.Stuck := fun a ha => Bool.of_not_eq_false fun ho => hex ⟨a, ha, ho⟩
        exact (hstuck.ended hinv).imp_right Or.inl
    · rw [hpc] at hphase
      refine ⟨hphase.2, fun i => (hinv.job i).resolve_right fun hj => ?_, hphase.1⟩
      cases hphase.1.symm.trans hj.2
    · obtain ⟨hidle, hmutex⟩ := hinv.idle_of_rethrown hpc
      rw [hpc] at hphase
      exact ⟨hphase.2, hidle, hmutex⟩
    · rcases hinv.job i with e | ⟨e, -⟩
      · cases e.symm.trans hj
      · cases e.symm.trans hj

/-- one worker sleeps in `pop` when the second one cannot be started -/
def secondFails : List (BuildAct 2) :=
  let worker : Fin 2 := ⟨0, Nat.zero_lt_succ 1⟩
  [.spawn, .pop worker, .queue (.acquire (some worker) .pop false),
    .queue (.sleep (some worker) .pop false), .fail, .close, .queue (.acquire none .close false),
    .queue (.pass none .close false), .queue (.critical none .close false), .queue (.unlock none .closed),
    .queue (.notifyAll none .notEmpty), .queue (.acquire (some worker) .pop true),
    .queue (.pass (some worker) .pop true), .queue (.critical (some worker) .pop true),
    .queue (.unlock (some worker) .nullopt), .exit worker, .queue (.notifyAll none .notFull), .closed,
    .join worker, .rethrow]

theorem construction_ends_second :
    ∃ start x, Construction.begin 2 1 = .ok start ∧ Reach BuildAct.Ok BuildAct.out start x ∧
      x.pc = .rethrown ∧ x.started = 1 ∧ (∀ t, x.tasks.pc t = .idle) ∧ x.tasks.mutex = none := by
  have hrun : (perform BuildAct.Ok BuildAct.out
      ({ tasks := { shared := { capacity := 1, capacity_pos := Nat.one_pos } } } : Construction 2)
      secondFails).map (fun x => (x.pc, x.started)) = some (.rethrown, 1) := by
    decide +kernel
  obtain ⟨x, hx, e⟩ := Option.map_eq_some_iff.mp hrun
  obtain ⟨hpc, hstarted⟩ := Prod.mk.inj e
  obtain ⟨-, hall⟩ := construction_ends 2 1 _ rfl
  exact ⟨_, x, rfl, perform_reach hx, hpc, hstarted, ((hall x (perform_reach hx)).2.2.1 hpc).2⟩

end NetForge
