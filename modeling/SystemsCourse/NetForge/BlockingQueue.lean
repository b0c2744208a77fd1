import Mathlib.Data.Fintype.Basic
import SystemsCourse.Lib.Actions
import SystemsCourse.Lib.Frames

/-!
# The blocking queue

Model of `capstone/reference/include/netforge/blocking_queue.hpp`: `push`, `pop` and `close` as
programs of any number of threads.  A thread takes the mutex, evaluates the predicate of its wait,
sleeps or goes on to its critical section, releases the mutex and notifies.  Threads wake up when
they are notified, or for no reason, and then compete for the mutex again.

The critical sections, in the order in which they run, are a run of the sequential bounded queue
(`Legal`); from that the properties of the queue follow (`bounded_fifo`).
-/

set_option linter.unusedVariables false

namespace NetForge
open Wire Actions

/-- the two condition variables -/
inductive Cv where
  | notEmpty
  | notFull
deriving DecidableEq

inductive QueueOp (T : Type) where
  | push (value : T)
  | pop
  | close
deriving DecidableEq

/-- how a call ends: `push` returns true or false or throws (the allocation of `queue_.push`), `pop`
returns a value or nothing -/
inductive QueueResult (T : Type) where
  | pushed (value : T)
  | refused (value : T)
  | threw (value : T)
  | popped (value : T)
  | nullopt
  | closed
deriving DecidableEq

structure BlockingQueue (T : Type) where
  capacity : ℕ
  capacity_pos : 0 < capacity
  queue : List T := []
  closed : Bool := false

namespace BlockingQueue
variable {T : Type}

/-- the constructor -/
def new (capacity : ℕ) : Except Bytes (BlockingQueue T) :=
  if h : 0 < capacity then .ok { capacity := capacity, capacity_pos := h }
  else .error (ascii "BlockingQueue capacity must be positive")

/-- the predicate of the wait; `close` does not wait -/
def predicate (q : BlockingQueue T) : QueueOp T → Bool
  | .push _ => q.closed || decide (q.queue.length < q.capacity)
  | .pop => q.closed || !q.queue.isEmpty
  | .close => true

/-- what is done under the mutex after the wait -/
def critical (q : BlockingQueue T) : QueueOp T → QueueResult T × BlockingQueue T
  | .push value =>
    if q.closed then (.refused value, q)
    else (.pushed value, { q with queue := q.queue ++ [value] })
  | .pop =>
    match q.queue with
    | [] => (.nullopt, q)
    | value :: rest => (.popped value, { q with queue := rest })
  | .close => (.closed, { q with closed := true })

end BlockingQueue

def QueueOp.cv {T : Type} : QueueOp T → Option Cv
  | .push _ => some .notFull
  | .pop => some .notEmpty
  | .close => none

/-- where a thread is in a call; `notified` is set if it was woken by a notification, and until it
has evaluated its predicate and acted on it -/
inductive QueuePc (T : Type) where
  | idle
  | lock (op : QueueOp T) (notified : Bool)
  | check (op : QueueOp T) (notified : Bool)
  | asleep (op : QueueOp T)
  | critical (op : QueueOp T) (notified : Bool)
  | unlock (result : QueueResult T)
  | notifyOne (result : QueueResult T) (cv : Cv)
  | notifyAll (cv : Cv)
  | done (result : QueueResult T)
deriving DecidableEq

/-- after the mutex is released -/
def QueueResult.next {T : Type} : QueueResult T → QueuePc T
  | .pushed value => .notifyOne (.pushed value) .notEmpty
  | .popped value => .notifyOne (.popped value) .notFull
  | .closed => .notifyAll .notEmpty
  | result => .done result

/-- after the `notify_all` of `close` on the condition variable -/
def Cv.afterAll {T : Type} : Cv → QueuePc T
  | .notEmpty => .notifyAll .notFull
  | .notFull => .done .closed

namespace QueuePc
variable {T : Type}

/-- the thread holds the mutex -/
def holds : QueuePc T → Bool
  | .check _ _ => true
  | .critical _ _ => true
  | .unlock _ => true
  | _ => false

def asleepOn (c : Cv) : QueuePc T → Bool
  | .asleep op => decide (op.cv = some c)
  | _ => false

/-- the effect of a notification on a thread that sleeps on `c` -/
def wake (c : Cv) : QueuePc T → QueuePc T
  | .asleep op => if op.cv = some c then .lock op true else .asleep op
  | pc => pc

/-- the result that the call will return -/
def result : QueuePc T → Option (QueueResult T)
  | .unlock result => some result
  | .notifyOne result _ => some result
  | .notifyAll _ => some .closed
  | .done result => some result
  | _ => none

theorem asleepOn_iff {c : Cv} {pc : QueuePc T} :
    pc.asleepOn c = true ↔ ∃ op, pc = .asleep op ∧ op.cv = some c := by
  cases pc with
  | asleep op => simp [asleepOn]
  | _ => exact iff_of_false nofun nofun

end QueuePc

/-- the shared state, the program counters, and the results of the critical sections so far -/
structure QueueState (Tid T : Type) where
  shared : BlockingQueue T
  mutex : Option Tid := none
  pc : Tid → QueuePc T := fun _ => .idle
  history : List (Tid × QueueResult T) := []

/-- a step, with the data it depends on -/
inductive QueueAct (Tid T : Type) where
  | call (t : Tid) (op : QueueOp T)
  | acquire (t : Tid) (op : QueueOp T) (notified : Bool)
  | sleep (t : Tid) (op : QueueOp T) (notified : Bool)
  | pass (t : Tid) (op : QueueOp T) (notified : Bool)
  | critical (t : Tid) (op : QueueOp T) (notified : Bool)
  | throw (t : Tid) (value : T) (notified : Bool)
  | unlock (t : Tid) (result : QueueResult T)
  | notifyOne (t : Tid) (result : QueueResult T) (c : Cv) (woken : Tid)
  | notifyNobody (t : Tid) (result : QueueResult T) (c : Cv)
  | notifyAll (t : Tid) (c : Cv)
  | spurious (t : Tid) (op : QueueOp T)
  | ret (t : Tid) (result : QueueResult T)

namespace QueueAct
variable {Tid T : Type}

/-- the step can be made -/
def Ok (x : QueueState Tid T) : QueueAct Tid T → Prop
  | .call t op => x.pc t = .idle
  | .acquire t op n => x.pc t = .lock op n ∧ x.mutex = none
  | .sleep t op n => x.pc t = .check op n ∧ x.shared.predicate op = false
  | .pass t op n => x.pc t = .check op n ∧ x.shared.predicate op = true
  | .critical t op n => x.pc t = .critical op n
  | .throw t value n => x.pc t = .critical (.push value) n ∧ x.shared.closed = false
  | .unlock t result => x.pc t = .unlock result
  | .notifyOne t result c woken => x.pc t = .notifyOne result c ∧ (x.pc woken).asleepOn c = true
  | .notifyNobody t result c => x.pc t = .notifyOne result c ∧ ∀ u, (x.pc u).asleepOn c = false
  | .notifyAll t c => x.pc t = .notifyAll c
  | .spurious t op => x.pc t = .asleep op
  | .ret t result => x.pc t = .done result

end QueueAct

/-! ## the sequential queue -/

section
variable {Tid T : Type}

/-- `log` is a run of the sequential queue from `q₀` to `q`: each operation waits until its
predicate holds -/
inductive Legal (q₀ : BlockingQueue T) : List (Tid × QueueResult T) → BlockingQueue T → Prop
  | nil : Legal q₀ [] q₀
  | critical {log : List (Tid × QueueResult T)} {q : BlockingQueue T} (h : Legal q₀ log q) (t : Tid)
      (op : QueueOp T) (hp : q.predicate op = true) :
      Legal q₀ (log ++ [(t, (q.critical op).1)]) (q.critical op).2
  | throw {log : List (Tid × QueueResult T)} {q : BlockingQueue T} (h : Legal q₀ log q) (t : Tid)
      (value : T) (hc : q.closed = false) : Legal q₀ (log ++ [(t, .threw value)]) q

/-- the values whose `push` returned true -/
def accepted (log : List (Tid × QueueResult T)) : List T :=
  log.filterMap fun e => match e.2 with | .pushed value => some value | _ => none

/-- the values that `pop` returned -/
def returned (log : List (Tid × QueueResult T)) : List T :=
  log.filterMap fun e => match e.2 with | .popped value => some value | _ => none

theorem accepted_concat (log : List (Tid × QueueResult T)) (t : Tid) (r : QueueResult T) :
    accepted (log ++ [(t, r)]) = accepted log ++ (match r with | .pushed v => [v] | _ => []) := by
  unfold accepted
  rw [List.filterMap_append]
  cases r <;> rfl

theorem accepted_concat_of_ne {log : List (Tid × QueueResult T)} {t : Tid} {r : QueueResult T}
    (h : ∀ v, r ≠ .pushed v) : accepted (log ++ [(t, r)]) = accepted log := by
  rw [accepted_concat]
  cases r with
  | pushed v => exact absurd rfl (h v)
  | _ => exact List.append_nil _

theorem returned_concat (log : List (Tid × QueueResult T)) (t : Tid) (r : QueueResult T) :
    returned (log ++ [(t, r)]) = returned log ++ (match r with | .popped v => [v] | _ => []) := by
  unfold returned
  rw [List.filterMap_append]
  cases r <;> rfl

/-- what an event says about the events before it -/
def Justified (before : List (Tid × QueueResult T)) : QueueResult T → Prop
  | .pushed _ => ∀ t, (t, .closed) ∉ before
  | .refused _ => ∃ t, (t, .closed) ∈ before
  | .popped value => ∃ rest, accepted before = returned before ++ value :: rest
  | .nullopt => (∃ t, (t, .closed) ∈ before) ∧ accepted before = returned before
  | .threw _ => ∀ t, (t, .closed) ∉ before
  | .closed => True

theorem justified_concat {log : List (Tid × QueueResult T)} {t : Tid} {r : QueueResult T}
    (h : ∀ pre e post, log = pre ++ e :: post → Justified pre e.2) (hr : Justified log r) :
    ∀ pre e post, log ++ [(t, r)] = pre ++ e :: post → Justified pre e.2 := by
  intro pre e post he
  rcases List.eq_nil_or_concat post with rfl | ⟨post, x, rfl⟩
  · obtain ⟨rfl, e1⟩ := List.append_inj' he rfl
    cases e1
    exact hr
  · rw [List.concat_eq_append, ← List.cons_append, ← List.append_assoc] at he
    exact h pre e post (List.append_inj' he rfl).1

/-- the cases of a critical section -/
theorem BlockingQueue.critical_cases (q : BlockingQueue T) (op : QueueOp T)
    (hp : q.predicate op = true) :
    (∃ v, op = .push v ∧ q.closed = true ∧ q.critical op = (.refused v, q)) ∨
    (∃ v, op = .push v ∧ q.closed = false ∧ q.queue.length < q.capacity ∧
      q.critical op = (.pushed v, { q with queue := q.queue ++ [v] })) ∨
    (op = .pop ∧ q.queue = [] ∧ q.closed = true ∧ q.critical op = (.nullopt, q)) ∨
    (∃ v rest, op = .pop ∧ q.queue = v :: rest ∧
      q.critical op = (.popped v, { q with queue := rest })) ∨
    (op = .close ∧ q.critical op = (.closed, { q with closed := true })) := by
  cases op with
  | push v =>
    cases hc : q.closed with
    | true => exact Or.inl ⟨v, rfl, rfl, by simp [critical, hc]⟩
    | false =>
      refine Or.inr (Or.inl ⟨v, rfl, rfl, ?_, by simp [critical, hc]⟩)
      simpa [predicate, hc] using hp
  | pop =>
    cases hq : q.queue with
    | nil =>
      refine Or.inr (Or.inr (Or.inl ⟨rfl, rfl, ?_, by simp [critical, hq]⟩))
      simpa [predicate, hq] using hp
    | cons v rest =>
      exact Or.inr (Or.inr (Or.inr (Or.inl ⟨v, rest, rfl, rfl, by simp [critical, hq]⟩)))
  | close => exact Or.inr (Or.inr (Or.inr (Or.inr ⟨rfl, rfl⟩)))

/-- the state of the queue and its log -/
structure Sound (cap : ℕ) (log : List (Tid × QueueResult T)) (q : BlockingQueue T) : Prop where
  capacity : q.capacity = cap
  bounded : q.queue.length ≤ cap
  fifo : accepted log = returned log ++ q.queue
  closed : q.closed = true ↔ ∃ t, (t, .closed) ∈ log
  drained : (∃ t, (t, .nullopt) ∈ log) → q.closed = true ∧ q.queue = []
  justified : ∀ pre e post, log = pre ++ e :: post → Justified pre e.2

theorem exists_mem_concat {log : List (Tid × QueueResult T)} {t : Tid} {r r' : QueueResult T} :
    (∃ u, (u, r') ∈ log ++ [(t, r)]) ↔ (∃ u, (u, r') ∈ log) ∨ r' = r := by
  constructor
  · rintro ⟨u, hu⟩
    rcases List.mem_append.mp hu with hu | hu
    · exact Or.inl ⟨u, hu⟩
    · cases List.mem_singleton.mp hu
      exact Or.inr rfl
  · rintro (⟨u, hu⟩ | rfl)
    · exact ⟨u, List.mem_append_left _ hu⟩
    · exact ⟨t, List.mem_append_right _ (List.mem_singleton_self _)⟩

section
variable {cap : ℕ} {log : List (Tid × QueueResult T)} {q q' : BlockingQueue T} {t : Tid}
  {r : QueueResult T} (h : Sound cap log q)
include h

theorem Sound.not_closed (hc : q.closed = false) (t : Tid) : (t, .closed) ∉ log := by
  intro hm
  rw [h.closed.mpr ⟨t, hm⟩] at hc
  cases hc

/-- the result `r` is appended to the log -/
theorem Sound.concat (hcap : q'.capacity = q.capacity) (hb : q'.queue.length ≤ cap)
    (hf : accepted (log ++ [(t, r)]) = returned (log ++ [(t, r)]) ++ q'.queue)
    (hc : q'.closed = true ↔ q.closed = true ∨ r = .closed)
    (hd : (∃ u, (u, .nullopt) ∈ log) ∨ r = .nullopt → q'.closed = true ∧ q'.queue = [])
    (hj : Justified log r) : Sound cap (log ++ [(t, r)]) q' where
  capacity := hcap.trans h.capacity
  bounded := hb
  fifo := hf
  closed := by
    rw [exists_mem_concat, hc, h.closed]
    exact or_congr_right eq_comm
  drained hn := by
    rw [exists_mem_concat] at hn
    exact hd (hn.imp_right Eq.symm)
  justified := justified_concat h.justified hj

theorem Sound.throw (t : Tid) (v : T) (hc : q.closed = false) :
    Sound cap (log ++ [(t, .threw v)]) q := by
  refine h.concat rfl h.bounded ?_ (by simp) ?_ (h.not_closed hc)
  · rw [accepted_concat, returned_concat, List.append_nil, List.append_nil]
    exact h.fifo
  · exact fun hn => h.drained (hn.resolve_right nofun)

theorem Sound.critical (t : Tid) (op : QueueOp T) (hp : q.predicate op = true) :
    Sound cap (log ++ [(t, (q.critical op).1)]) (q.critical op).2 := by
  have hb := h.bounded
  have hf := h.fifo
  rcases q.critical_cases op hp with ⟨v, rfl, hc, e⟩ | ⟨v, rfl, hc, hlt, e⟩ | ⟨rfl, hq, hc, e⟩ |
    ⟨v, rest, rfl, hq, e⟩ | ⟨rfl, e⟩
  · -- a push is refused
    rw [e]
    refine h.concat rfl hb ?_ (by simp) ?_ (h.closed.mp hc)
    · rw [accepted_concat, returned_concat, List.append_nil, List.append_nil]
      exact hf
    · exact fun hn => h.drained (hn.resolve_right nofun)
  · -- a push is accepted; no `pop` has found the queue drained
    rw [e]
    refine h.concat rfl ?_ ?_ (by simp) ?_ (h.not_closed hc)
    · have hcap := h.capacity
      simp only [List.length_append, List.length_singleton]
      omega
    · rw [accepted_concat, returned_concat, List.append_nil, hf, List.append_assoc]
    · intro hn
      rw [(h.drained (hn.resolve_right nofun)).1] at hc
      cases hc
  · -- a pop of the closed and empty queue
    rw [e]
    refine h.concat rfl hb ?_ (by simp) (fun _ => ⟨hc, hq⟩) ?_
    · rw [accepted_concat, returned_concat, List.append_nil, List.append_nil]
      exact hf
    · rw [hq, List.append_nil] at hf
      exact ⟨h.closed.mp hc, hf⟩
  · -- a pop of the front
    rw [e]
    refine h.concat rfl ?_ ?_ (by simp) ?_ ⟨rest, by rw [hf, hq]⟩
    · rw [hq, List.length_cons] at hb
      exact Nat.le_of_succ_le hb
    · rw [accepted_concat, returned_concat, List.append_nil, hf, hq, List.append_assoc]
      rfl
    · intro hn
      rw [(h.drained (hn.resolve_right nofun)).2] at hq
      cases hq
  · rw [e]
    refine h.concat rfl hb ?_ (by simp) ?_ trivial
    · rw [accepted_concat, returned_concat, List.append_nil, List.append_nil]
      exact hf
    · exact fun hn => ⟨rfl, (h.drained (hn.resolve_right nofun)).2⟩

end

theorem Legal.sound {q₀ q : BlockingQueue T} {log : List (Tid × QueueResult T)}
    (h : Legal q₀ log q) (hq : q₀.queue = []) (hc : q₀.closed = false) :
    Sound q₀.capacity log q := by
  induction h with
  | nil =>
    refine ⟨rfl, by simp [hq], by rw [hq]; rfl, ?_, nofun, ?_⟩
    · rw [hc]
      exact iff_of_false nofun nofun
    · intro pre e post he
      exact absurd he.symm (List.append_ne_nil_of_right_ne_nil _ (List.cons_ne_nil _ _))
  | critical _ t op hp ih => exact ih.critical t op hp
  | throw _ t v hc ih => exact ih.throw t v hc

end


variable {Tid T : Type} [DecidableEq Tid]

def QueueState.goto (x : QueueState Tid T) (t : Tid) (pc : QueuePc T) : QueueState Tid T :=
  { x with pc := Function.update x.pc t pc }

/-- the state after the step -/
def QueueAct.out (x : QueueState Tid T) : QueueAct Tid T → QueueState Tid T
  | .call t op => x.goto t (.lock op false)
  | .acquire t op n => { x.goto t (.check op n) with mutex := some t }
  | .sleep t op n => { x.goto t (.asleep op) with mutex := none }
  | .pass t op n => x.goto t (.critical op n)
  | .critical t op n =>
    { x.goto t (.unlock (x.shared.critical op).1) with
      shared := (x.shared.critical op).2, history := x.history ++ [(t, (x.shared.critical op).1)] }
  | .throw t value n =>
    { x.goto t (.unlock (.threw value)) with history := x.history ++ [(t, .threw value)] }
  | .unlock t result => { x.goto t result.next with mutex := none }
  | .notifyOne t result c woken => (x.goto woken ((x.pc woken).wake c)).goto t (.done result)
  | .notifyNobody t result c => x.goto t (.done result)
  | .notifyAll t c =>
    QueueState.goto { x with pc := fun u => (x.pc u).wake c } t c.afterAll
  | .spurious t op => x.goto t (.lock op false)
  | .ret t result => x.goto t .idle

instance [Fintype Tid] [DecidableEq T] (x : QueueState Tid T) :
    (a : QueueAct Tid T) → Decidable (a.Ok x)
  | .call t _ => inferInstanceAs (Decidable (x.pc t = _))
  | .acquire t _ _ => inferInstanceAs (Decidable (x.pc t = _ ∧ x.mutex = _))
  | .sleep t op _ => inferInstanceAs (Decidable (x.pc t = _ ∧ x.shared.predicate op = _))
  | .pass t op _ => inferInstanceAs (Decidable (x.pc t = _ ∧ x.shared.predicate op = _))
  | .critical t _ _ => inferInstanceAs (Decidable (x.pc t = _))
  | .throw t _ _ => inferInstanceAs (Decidable (x.pc t = _ ∧ x.shared.closed = _))
  | .unlock t _ => inferInstanceAs (Decidable (x.pc t = _))
  | .notifyOne t _ c w => inferInstanceAs (Decidable (x.pc t = _ ∧ (x.pc w).asleepOn c = _))
  | .notifyNobody t _ c => inferInstanceAs (Decidable (x.pc t = _ ∧ ∀ u, (x.pc u).asleepOn c = _))
  | .notifyAll t _ => inferInstanceAs (Decidable (x.pc t = _))
  | .spurious t _ => inferInstanceAs (Decidable (x.pc t = _))
  | .ret t _ => inferInstanceAs (Decidable (x.pc t = _))

/-! ## the threads -/

namespace QueueState
variable {x : QueueState Tid T}

theorem goto_self (x : QueueState Tid T) (t : Tid) (pc : QueuePc T) : (x.goto t pc).pc t = pc :=
  Function.update_self ..

theorem goto_ne (x : QueueState Tid T) {t u : Tid} (h : u ≠ t) (pc : QueuePc T) :
    (x.goto t pc).pc u = x.pc u := Function.update_of_ne h ..

/-- the last result of a thread -/
def lastOf (t : Tid) (log : List (Tid × QueueResult T)) : Option (QueueResult T) :=
  ((log.filter fun e => decide (e.1 = t)).getLast?).map Prod.snd

theorem lastOf_concat_self (t : Tid) (log : List (Tid × QueueResult T)) (r : QueueResult T) :
    lastOf t (log ++ [(t, r)]) = some r := by
  simp [lastOf]

theorem lastOf_concat_ne {t u : Tid} (h : t ≠ u) (log : List (Tid × QueueResult T))
    (r : QueueResult T) : lastOf u (log ++ [(t, r)]) = lastOf u log := by
  simp [lastOf, h]

/-- the mutex excludes, a predicate that was true is still true in the critical section, the critical
sections are a sequential run, and a call returns the result of its critical section -/
structure Inv (q₀ : BlockingQueue T) (x : QueueState Tid T) : Prop where
  holder : ∀ t, (x.pc t).holds = true ↔ x.mutex = some t
  passed : ∀ t op n, x.pc t = .critical op n → x.shared.predicate op = true
  legal : Legal q₀ x.history x.shared
  last : ∀ t r, (x.pc t).result = some r → lastOf t x.history = some r

variable {q₀ : BlockingQueue T} (h : x.Inv q₀)
include h

/-- one thread moves, and takes or releases the mutex or not -/
theorem Inv.move (t : Tid) (pc : QueuePc T) (mutex : Option Tid)
    (hh : pc.holds = true ↔ mutex = some t) (hm : ∀ u, u ≠ t → (mutex = some u ↔ x.mutex = some u))
    (hc : ∀ op n, pc = .critical op n → x.shared.predicate op = true)
    (hr : ∀ r, pc.result = some r → (x.pc t).result = some r) :
    Inv q₀ { x.goto t pc with mutex := mutex } := by
  refine ⟨?_, ?_, h.legal, ?_⟩
  · intro u
    by_cases hu : u = t
    · subst hu
      rw [goto_self]
      exact hh
    · rw [goto_ne x hu, h.holder u]
      exact (hm u hu).symm
  · intro u op n e
    by_cases hu : u = t
    · subst hu
      rw [goto_self] at e
      exact hc op n e
    · rw [goto_ne x hu] at e
      exact h.passed u op n e
  · intro u r e
    by_cases hu : u = t
    · subst hu
      rw [goto_self] at e
      exact h.last u r (hr r e)
    · rw [goto_ne x hu] at e
      exact h.last u r e

/-- one thread moves and keeps the mutex if it has it -/
theorem Inv.goto (t : Tid) (pc : QueuePc T) (hh : pc.holds = (x.pc t).holds)
    (hc : ∀ op n, pc = .critical op n → x.shared.predicate op = true)
    (hr : ∀ r, pc.result = some r → (x.pc t).result = some r) : (x.goto t pc).Inv q₀ :=
  h.move t pc x.mutex (by rw [hh, h.holder]) (fun _ _ => Iff.rfl) hc hr

/-- the sleepers of a condition variable are woken -/
theorem Inv.wakeAll (c : Cv) : Inv q₀ { x with pc := fun u => (x.pc u).wake c } := by
  have hw : ∀ pc : QueuePc T, (pc.wake c).holds = pc.holds ∧ (pc.wake c).result = pc.result ∧
      ∀ op n, pc.wake c = .critical op n → pc = .critical op n := by
    intro pc
    unfold QueuePc.wake
    split
    · split_ifs
      · exact ⟨rfl, rfl, nofun⟩
      · exact ⟨rfl, rfl, nofun⟩
    · exact ⟨rfl, rfl, fun _ _ e => e⟩
  refine ⟨?_, ?_, h.legal, ?_⟩
  · intro t
    rw [(hw _).1]
    exact h.holder t
  · intro t op n e
    exact h.passed t op n ((hw _).2.2 op n e)
  · intro t r e
    rw [(hw _).2.1] at e
    exact h.last t r e

/-- a thread in its critical section appends its result -/
theorem Inv.append (t : Tid) {op : QueueOp T} {n : Bool} (hpc : x.pc t = .critical op n)
    (r : QueueResult T) (q : BlockingQueue T) (hl : Legal q₀ (x.history ++ [(t, r)]) q) :
    Inv q₀ { x.goto t (.unlock r) with shared := q, history := x.history ++ [(t, r)] } := by
  have hheld : x.mutex = some t := (h.holder t).mp (by rw [hpc]; rfl)
  refine ⟨?_, ?_, hl, ?_⟩
  · intro u
    by_cases hu : u = t
    · subst hu
      rw [goto_self]
      exact iff_of_true rfl hheld
    · rw [goto_ne x hu]
      exact h.holder u
  · -- no other thread is in a critical section
    intro u op' n' e
    by_cases hu : u = t
    · subst hu
      rw [goto_self] at e
      cases e
    · rw [goto_ne x hu] at e
      have hother := (h.holder u).mp (by rw [e]; rfl)
      rw [hheld] at hother
      exact absurd (Option.some.inj hother).symm hu
  · intro u r' e
    by_cases hu : u = t
    · subst hu
      rw [goto_self] at e
      cases e
      exact lastOf_concat_self ..
    · rw [goto_ne x hu] at e
      rw [lastOf_concat_ne (Ne.symm hu)]
      exact h.last u r' e

theorem Inv.act (a : QueueAct Tid T) (ha : a.Ok x) : (a.out x).Inv q₀ := by
  cases a with
  | call t op =>
    have hpc : x.pc t = .idle := ha
    exact h.goto t _ (by rw [hpc]; rfl) nofun nofun
  | acquire t op n =>
    obtain ⟨hpc, hm⟩ := ha
    refine h.move t _ (some t) (iff_of_true rfl rfl) ?_ nofun nofun
    intro u hu
    rw [hm]
    exact iff_of_false (fun e => hu (Option.some.inj e).symm) nofun
  | sleep t op n =>
    obtain ⟨hpc, _⟩ := ha
    have hheld : x.mutex = some t := (h.holder t).mp (by rw [hpc]; rfl)
    refine h.move t _ none (iff_of_false nofun nofun) ?_ nofun nofun
    intro u hu
    rw [hheld]
    exact iff_of_false nofun fun e => hu (Option.some.inj e).symm
  | pass t op n =>
    obtain ⟨hpc, hp⟩ := ha
    refine h.goto t _ (by rw [hpc]; rfl) ?_ nofun
    intro op' n' e
    cases e
    exact hp
  | critical t op n =>
    have hpc : x.pc t = .critical op n := ha
    exact h.append t hpc _ _ (h.legal.critical t op (h.passed t op n hpc))
  | throw t v n =>
    obtain ⟨hpc, hc⟩ := ha
    exact h.append t hpc _ _ (h.legal.throw t v hc)
  | unlock t r =>
    have hpc : x.pc t = .unlock r := ha
    have hheld : x.mutex = some t := (h.holder t).mp (by rw [hpc]; rfl)
    refine h.move t _ none (iff_of_false (by cases r <;> nofun) nofun) ?_ ?_ ?_
    · intro u hu
      rw [hheld]
      exact iff_of_false nofun fun e => hu (Option.some.inj e).symm
    · cases r <;> nofun
    · intro r' e
      rw [hpc]
      cases r <;> exact e
  | notifyOne t r c w =>
    obtain ⟨hpc, hw⟩ := ha
    have hne : t ≠ w := by
      rintro rfl
      rw [hpc] at hw
      cases hw
    obtain ⟨op, hpw, hcv⟩ := QueuePc.asleepOn_iff.mp hw
    have hwake : (x.pc w).wake c = .lock op true := by rw [hpw, QueuePc.wake, if_pos hcv]
    have h1 : (x.goto w (.lock op true)).Inv q₀ := h.goto w _ (by rw [hpw]; rfl) nofun nofun
    show ((x.goto w ((x.pc w).wake c)).goto t (.done r)).Inv q₀
    rw [hwake]
    refine h1.goto t _ (by rw [goto_ne x hne, hpc]; rfl) nofun ?_
    intro r' e
    rw [goto_ne x hne, hpc]
    exact e
  | notifyNobody t r c =>
    obtain ⟨hpc, _⟩ := ha
    exact h.goto t _ (by rw [hpc]; rfl) nofun (by rw [hpc]; exact fun _ e => e)
  | notifyAll t c =>
    have hpc : x.pc t = .notifyAll c := ha
    refine (h.wakeAll c).goto t _ ?_ ?_ ?_
    · dsimp only
      rw [hpc]
      cases c <;> rfl
    · cases c <;> nofun
    · intro r e
      dsimp only
      rw [hpc]
      cases c <;> exact e
  | spurious t op =>
    have hpc : x.pc t = .asleep op := ha
    exact h.goto t _ (by rw [hpc]; rfl) nofun nofun
  | ret t r =>
    have hpc : x.pc t = .done r := ha
    exact h.goto t _ (by rw [hpc]; rfl) nofun nofun

omit h in
theorem new_inv (q₀ : BlockingQueue T) : Inv q₀ ({ shared := q₀ } : QueueState Tid T) :=
  ⟨fun _ => iff_of_false nofun nofun, nofun, Legal.nil, nofun⟩

omit h in
theorem reach_inv (hr : Reach QueueAct.Ok QueueAct.out { shared := q₀ } x) : x.Inv q₀ :=
  reach_invariant (Inv q₀) hr (new_inv q₀) fun _ a h ha => h.act a ha

end QueueState

/-- **The queue is a bounded FIFO.**  In every state that threads can reach by the steps of `push`,
`pop` and `close`, where the log has the results in the order of the critical sections: the queue is
within its capacity; what `pop` returned is the first part of what was accepted, and the queue is the
rest; no value is accepted after a close; `pop` returns nothing only when the queue is closed and
empty, and from then on all accepted values have been popped.  A call returns the result in the log. -/
theorem bounded_fifo (capacity : ℕ) (hcap : 0 < capacity) (x : QueueState Tid T)
    (hrun : Reach QueueAct.Ok QueueAct.out
      { shared := { capacity := capacity, capacity_pos := hcap } } x) :
    x.shared.queue.length ≤ capacity ∧
    returned x.history <+: accepted x.history ∧
    accepted x.history = returned x.history ++ x.shared.queue ∧
    (∀ pre t v post, x.history = pre ++ (t, .pushed v) :: post → ∀ u, (u, .closed) ∉ pre) ∧
    (∀ pre t post, x.history = pre ++ (t, .nullopt) :: post →
      (∃ u, (u, .closed) ∈ pre) ∧ accepted pre = returned pre) ∧
    ((∃ t, (t, .nullopt) ∈ x.history) → accepted x.history = returned x.history) ∧
    (∀ t r, x.pc t = .done r → QueueState.lastOf t x.history = some r) := by
  have h := QueueState.reach_inv hrun
  have hs := h.legal.sound rfl rfl
  refine ⟨hs.bounded, ⟨x.shared.queue, hs.fifo.symm⟩, hs.fifo, ?_, ?_, ?_, ?_⟩
  · intro pre t v post e
    exact hs.justified pre _ post e
  · intro pre t post e
    exact hs.justified pre _ post e
  · intro hn
    have hf := hs.fifo
    rw [(hs.drained hn).2, List.append_nil] at hf
    exact hf
  · intro t r e
    exact h.last t r (by rw [e]; rfl)

/-- a producer finds the queue full and sleeps, a consumer takes the value and wakes it -/
def fullQueue : List (QueueAct Bool ℕ) :=
  [.call false (.push 7), .acquire false (.push 7) false, .pass false (.push 7) false,
    .critical false (.push 7) false, .unlock false (.pushed 7), .notifyNobody false (.pushed 7) .notEmpty,
    .ret false (.pushed 7), .call false (.push 8), .acquire false (.push 8) false,
    .sleep false (.push 8) false, .call true .pop, .acquire true .pop false, .pass true .pop false,
    .critical true .pop false, .unlock true (.popped 7), .notifyOne true (.popped 7) .notFull false]

theorem bounded_fifo_full :
    ∃ x : QueueState Bool ℕ, Reach QueueAct.Ok QueueAct.out
        { shared := { capacity := 1, capacity_pos := Nat.one_pos } } x ∧
      x.history = [(false, .pushed 7), (true, .popped 7)] ∧ x.pc false = .lock (.push 8) true ∧
      x.shared.queue.length ≤ 1 ∧ returned x.history <+: accepted x.history := by
  have hrun : (perform QueueAct.Ok QueueAct.out
      ({ shared := { capacity := 1, capacity_pos := Nat.one_pos } } : QueueState Bool ℕ)
      fullQueue).map (fun x => (x.history, x.pc false))
      = some ([(false, .pushed 7), (true, .popped 7)], .lock (.push 8) true) := by
    decide +kernel
  obtain ⟨x, hx, e⟩ := Option.map_eq_some_iff.mp hrun
  obtain ⟨h1, h2⟩ := Prod.mk.inj e
  obtain ⟨h3, h4, _⟩ := bounded_fifo 1 Nat.one_pos x (perform_reach hx)
  exact ⟨x, perform_reach hx, h1, h2, h3, h4⟩

end NetForge
