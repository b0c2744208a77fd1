import SystemsCourse.NetForge.PoolAccounting
import SystemsCourse.NetForge.Server

/-!
# The accept loop

Model of `Server::run` in `capstone/reference/src/server.cpp`, as one more thread of the pool: it polls
and accepts, sets up the connection, submits it to the pool, and rejects it if the pool refuses.  The
tasks are the connections; they read the counters and do not call the pool otherwise.

The queue of the pool holds at most its capacity, but the loop accepts one more connection before it
waits for room (`waiting_over`).  If it accepted only while there is room, the capacity would bound the
connections that wait (`waiting_bounded`).
-/

set_option linter.unusedSectionVars false
set_option linter.unusedVariables false

namespace NetForge
open Wire Actions Threads

/-- a connection that `accept` has returned: the loop has it, or the task of a call of `submit` -/
inductive Conn where
  | held
  | submitted (task : ℕ)
  | closed
  | rejected
deriving DecidableEq

inductive LoopPc where
  | check
  | poll
  | accept
  | configure (conn : ℕ)
  | share (conn : ℕ)
  | submitting (conn task : ℕ)
  | reject (conn : ℕ)
  | shutdown
  | stopping
  | returned
deriving DecidableEq

/-- The pool, the place of the loop, and the connections in the order of `accept`; `sent` are the frames
that the loop sent. -/
structure AcceptLoop (Tid : Type) where
  pool : ThreadPool Tid
  pc : LoopPc := .check
  stopRequested : Bool := false
  error : Bytes := []
  conns : List Conn := []
  sent : List (ℕ × Bytes) := []

inductive LoopAct (Tid : Type) where
  | stop
  | goOn
  /-- interrupted, timed out, or no event that matters -/
  | pollNothing
  | pollFailed (error : Bytes)
  | pollHangup
  | pollReady
  | acceptRetry
  | acceptFailed (error : Bytes)
  | accept
  /-- one of the calls of `fcntl` and `setsockopt` failed -/
  | configureFailed (conn : ℕ)
  | configured (conn : ℕ)
  | shareFailed (conn : ℕ)
  | submit (conn : ℕ)
  | accepted (conn task : ℕ)
  | refused (conn task : ℕ)
  | threw (conn task : ℕ)
  | reject (conn : ℕ) (sent : Bool)
  | shutdown
  | finished
  | requestStop
  | pool (a : PoolAct Tid)

/-- steps of the pool that other code than the loop makes, or that go on with a call of the loop -/
def PoolAct.foreign {Tid : Type} [DecidableEq Tid] (acceptor : Tid) : PoolAct Tid → Bool
  | .submit _ => false
  | .submitEmpty _ => false
  | .shutdown _ => false
  | .readSubmitted t => decide (t ≠ acceptor)
  | _ => true

namespace LoopAct
variable {Tid : Type} [DecidableEq Tid]

def Ok (acceptor : Tid) (x : AcceptLoop Tid) : LoopAct Tid → Prop
  | .stop => x.pc = .check ∧ x.stopRequested = true
  | .goOn => x.pc = .check ∧ x.stopRequested = false
  | .pollNothing => x.pc = .poll
  | .pollFailed _ => x.pc = .poll
  | .pollHangup => x.pc = .poll
  | .pollReady => x.pc = .poll
  | .acceptRetry => x.pc = .accept
  | .acceptFailed _ => x.pc = .accept
  | .accept => x.pc = .accept
  | .configureFailed c => x.pc = .configure c
  | .configured c => x.pc = .configure c
  | .shareFailed c => x.pc = .share c
  | .submit c => x.pc = .share c ∧ (x.pool.thread acceptor).free = true
  | .accepted c k => x.pc = .submitting c k ∧ (x.pool.thread acceptor).free = true ∧
      (k, .accepted) ∈ x.pool.returns
  | .refused c k => x.pc = .submitting c k ∧ (x.pool.thread acceptor).free = true ∧
      (k, .refused) ∈ x.pool.returns
  | .threw c k => x.pc = .submitting c k ∧ (x.pool.thread acceptor).free = true ∧
      (k, .threw) ∈ x.pool.returns
  | .reject c _ => x.pc = .reject c
  | .shutdown => x.pc = .shutdown ∧ (x.pool.thread acceptor).free = true
  | .finished => x.pc = .stopping ∧ (x.pool.thread acceptor).free = true
  | .requestStop => True
  | .pool a => a.Ok x.pool ∧ a.foreign acceptor = true

instance [Fintype Tid] (acceptor : Tid) (x : AcceptLoop Tid) :
    (a : LoopAct Tid) → Decidable (a.Ok acceptor x)
  | .stop => inferInstanceAs (Decidable (x.pc = _ ∧ x.stopRequested = _))
  | .goOn => inferInstanceAs (Decidable (x.pc = _ ∧ x.stopRequested = _))
  | .pollNothing => inferInstanceAs (Decidable (x.pc = _))
  | .pollFailed _ => inferInstanceAs (Decidable (x.pc = _))
  | .pollHangup => inferInstanceAs (Decidable (x.pc = _))
  | .pollReady => inferInstanceAs (Decidable (x.pc = _))
  | .acceptRetry => inferInstanceAs (Decidable (x.pc = _))
  | .acceptFailed _ => inferInstanceAs (Decidable (x.pc = _))
  | .accept => inferInstanceAs (Decidable (x.pc = _))
  | .configureFailed _ => inferInstanceAs (Decidable (x.pc = _))
  | .configured _ => inferInstanceAs (Decidable (x.pc = _))
  | .shareFailed _ => inferInstanceAs (Decidable (x.pc = _))
  | .submit _ => inferInstanceAs (Decidable (x.pc = _ ∧ (x.pool.thread acceptor).free = _))
  | .accepted _ _ => inferInstanceAs (Decidable (x.pc = _ ∧ (x.pool.thread acceptor).free = _ ∧ _))
  | .refused _ _ => inferInstanceAs (Decidable (x.pc = _ ∧ (x.pool.thread acceptor).free = _ ∧ _))
  | .threw _ _ => inferInstanceAs (Decidable (x.pc = _ ∧ (x.pool.thread acceptor).free = _ ∧ _))
  | .reject _ _ => inferInstanceAs (Decidable (x.pc = _))
  | .shutdown => inferInstanceAs (Decidable (x.pc = _ ∧ (x.pool.thread acceptor).free = _))
  | .finished => inferInstanceAs (Decidable (x.pc = _ ∧ (x.pool.thread acceptor).free = _))
  | .requestStop => inferInstanceAs (Decidable True)
  | .pool a => inferInstanceAs (Decidable (a.Ok x.pool ∧ a.foreign acceptor = true))

def out (acceptor : Tid) (x : AcceptLoop Tid) : LoopAct Tid → AcceptLoop Tid
  | .stop => { x with pc := .shutdown }
  | .goOn => { x with pc := .poll }
  | .pollNothing => { x with pc := .check }
  | .pollFailed error => { x with pc := .shutdown, error := error }
  | .pollHangup => { x with pc := .shutdown }
  | .pollReady => { x with pc := .accept }
  | .acceptRetry => { x with pc := .check }
  | .acceptFailed error => { x with pc := .check, error := error }
  | .accept => { x with pc := .configure x.conns.length, conns := x.conns ++ [.held] }
  -- `continue` destroys `accepted`
  | .configureFailed c => { x with pc := .check, conns := x.conns.set c .closed }
  | .configured c => { x with pc := .share c }
  | .shareFailed c =>
    { x with
      pc := .shutdown, conns := x.conns.set c .closed
      error := ascii "could not queue accepted client work" }
  | .submit c =>
    { x with
      pool := (PoolAct.submit acceptor).out x.pool
      pc := .submitting c x.pool.calls, conns := x.conns.set c (.submitted x.pool.calls) }
  | .accepted _ _ => { x with pc := .check }
  | .refused c _ => { x with pc := .reject c }
  | .threw c _ =>
    { x with
      pc := .shutdown, conns := x.conns.set c .closed
      error := ascii "could not queue accepted client work" }
  | .reject c sent =>
    { x with
      pc := .check, conns := x.conns.set c .rejected
      sent := if sent then x.sent ++ [(c, ascii "ERR overloaded")] else x.sent }
  | .shutdown => { x with pool := (PoolAct.shutdown acceptor).out x.pool, pc := .stopping }
  | .finished => { x with pc := .returned }
  | .requestStop => { x with stopRequested := true }
  | .pool a => { x with pool := a.out x.pool }

end LoopAct

/-- `run` is called; without a listener it returns at once -/
def AcceptLoop.run {Tid : Type} (ready : Bool) (pool : ThreadPool Tid) : AcceptLoop Tid where
  pool := pool
  pc := if ready then .check else .returned

/-- accepted, not closed, not rejected, and not taken from the queue by a worker -/
def Conn.waits {Tid : Type} (log : List (Tid × QueueResult ℕ)) : Conn → Bool
  | .held => true
  | .submitted task => !decide (task ∈ returned log)
  | .closed => false
  | .rejected => false

def AcceptLoop.waiting {Tid : Type} (x : AcceptLoop Tid) : ℕ :=
  x.conns.countP (Conn.waits x.pool.tasks.history)

/-! ## the connection in the hands of the loop -/

/-- the connection waits, in terms of the ledger: its task is queued, or not yet accepted -/
def Conn.waitsIn {Tid : Type} (l : TaskLedger Tid) : Conn → Bool
  | .held => true
  | .submitted task => decide (task ∈ l.queue) || !decide (task ∈ l.accepted)
  | .closed => false
  | .rejected => false

theorem Conn.waits_eq {Tid : Type} [DecidableEq Tid] {tasks : BlockingQueue ℕ} {worker : Tid → Bool}
    {x : ThreadPool Tid} [Fintype Tid] (hqueue : tasks.queue = []) (hclosed : tasks.closed = false)
    (hr : Reach PoolAct.Ok PoolAct.out (.started tasks worker) x) (c : Conn) :
    c.waits x.tasks.history = c.waitsIn x.ledger := by
  have hf : x.ledger.accepted = returned x.tasks.history ++ x.ledger.queue :=
    ((QueueState.reach_inv (ThreadPool.reach_tasks hr).2).legal.sound hqueue hclosed).fifo
  have hnd := (TaskLedger.reach_inv (ThreadPool.reach_ledger hqueue hr)).accepted_nodup
  rw [hf] at hnd
  cases c with
  | submitted k =>
    have hdisj : k ∈ returned x.tasks.history → k ∉ x.ledger.queue := fun h h' =>
      (List.nodup_append.mp hnd).2.2 k h k h' rfl
    unfold waits waitsIn
    rw [hf]
    by_cases hm : k ∈ returned x.tasks.history
    · simp [hm, hdisj hm]
    · by_cases hm' : k ∈ x.ledger.queue <;> simp [hm, hm']
  | _ => rfl

namespace LoopPc

/-- what the loop has done for its connection, where `s` is its own call of `submit` -/
def Hand (conns : List Conn) (returns : List (ℕ × SubmitResult)) (s : Submitting) : LoopPc → Prop
  | .configure c => s = .away ∧ conns[c]? = some .held
  | .share c => s = .away ∧ conns[c]? = some .held
  | .submitting c k => conns[c]? = some (.submitted k) ∧
      (s = .called k ∨ s = .counted k ∨ s = .accepted k ∨ s = .away ∧ ∃ result, (k, result) ∈ returns)
  | .reject c => s = .away ∧ ∃ k, conns[c]? = some (.submitted k) ∧ (k, .refused) ∈ returns
  | _ => s = .away

/-- the loop has a connection that waits and is not in the queue -/
def inHand (accepted : List ℕ) : LoopPc → ℕ
  | .configure _ => 1
  | .share _ => 1
  | .submitting _ k => if k ∈ accepted then 0 else 1
  | .reject _ => 1
  | _ => 0

theorem inHand_le (accepted : List ℕ) (pc : LoopPc) : pc.inHand accepted ≤ 1 := by
  cases pc with
  | submitting c k =>
    show (if k ∈ accepted then 0 else 1) ≤ 1
    split_ifs
    · exact Nat.zero_le _
    · exact Nat.le_refl _
  | _ => simp [inHand]

/-- a call of `submit` that has not returned is the one for the connection -/
theorem Hand.submitting {conns : List Conn} {returns : List (ℕ × SubmitResult)} {s : Submitting}
    {pc : LoopPc} (h : pc.Hand conns returns s) (hs : s ≠ .away) :
    ∃ c k, pc = .submitting c k ∧ conns[c]? = some (.submitted k) ∧
      (s = .called k ∨ s = .counted k ∨ s = .accepted k) := by
  cases pc with
  | submitting c k =>
    obtain ⟨hc, h⟩ := h
    refine ⟨c, k, rfl, hc, ?_⟩
    rcases h with h | h | h | ⟨h, _⟩
    · exact Or.inl h
    · exact Or.inr (Or.inl h)
    · exact Or.inr (Or.inr h)
    · exact absurd h hs
  | configure c => exact absurd h.1 hs
  | share c => exact absurd h.1 hs
  | reject c => exact absurd h.1 hs
  | _ => exact absurd h hs

end LoopPc

section
variable {Tid : Type} [DecidableEq Tid] [Fintype Tid] {acceptor : Tid} {l l' : TaskLedger Tid}
  {conns : List Conn} {pc pc' : LoopPc}

/-- the queued tasks and the connection in the hands of the loop -/
def load (l : TaskLedger Tid) (pc : LoopPc) : ℕ := l.queue.length + pc.inHand l.accepted

/-- only the loop submits; it has at most one connection in its hands; accepted tasks belong to
connections; the connections that wait are queued or in the hands of the loop -/
structure Custody (acceptor : Tid) (l : TaskLedger Tid) (conns : List Conn) (pc : LoopPc) : Prop where
  alone : ∀ t, t ≠ acceptor → (l.role t).submitting = .away
  hand : pc.Hand conns l.returns (l.role acceptor).submitting
  owned : ∀ k ∈ l.accepted, Conn.submitted k ∈ conns
  waiting : conns.countP (Conn.waitsIn l) ≤ load l pc

namespace Custody

section
variable (h : Custody acceptor l conns pc)
include h

/-- the loop goes on with the same connection, or with none -/
theorem goto (pc' : LoopPc) (hh : pc'.Hand conns l.returns (l.role acceptor).submitting)
    (hi : pc'.inHand l.accepted = pc.inHand l.accepted) :
    Custody acceptor l conns pc' ∧ load l pc' ≤ load l pc := by
  have hload : load l pc' = load l pc := congrArg (l.queue.length + ·) hi
  refine ⟨⟨h.alone, hh, h.owned, ?_⟩, Nat.le_of_eq hload⟩
  rw [hload]
  exact h.waiting

/-- the loop closes or rejects its connection -/
theorem drop (pc' : LoopPc) {c : ℕ} {s : Conn} (s' : Conn) (hs : conns[c]? = some s)
    (hw : s.waitsIn l = true) (hw' : s'.waitsIn l = false) (hne : ∀ k ∈ l.accepted, Conn.submitted k ≠ s)
    (hh : pc'.Hand (conns.set c s') l.returns (l.role acceptor).submitting)
    (hi : pc.inHand l.accepted = 1) (hi' : pc'.inHand l.accepted = 0) :
    Custody acceptor l (conns.set c s') pc' ∧ load l pc' ≤ load l pc := by
  have hcount := Counting.countP_set (b := s') (Conn.waitsIn l) hs
  have hwait := h.waiting
  rw [hw, hw', Bool.toNat_true, Bool.toNat_false] at hcount
  unfold load at hwait ⊢
  rw [hi] at hwait ⊢
  rw [hi']
  refine ⟨⟨h.alone, hh, ?_, ?_⟩, Nat.le_succ _⟩
  · intro k hk
    exact Counting.mem_set_of_ne (h.owned k hk) hs (hne k hk)
  · unfold load
    rw [hi']
    omega

end

/-- `accept` returns a connection -/
theorem accept (h : Custody acceptor l conns .accept) :
    Custody acceptor l (conns ++ [.held]) (.configure conns.length) := by
  refine ⟨h.alone, ⟨h.hand, by simp⟩, ?_, ?_⟩
  · intro k hk
    exact List.mem_append_left _ (h.owned k hk)
  · rw [List.countP_append]
    exact Nat.add_le_add_right h.waiting 1

/-- the loop calls `submit` -/
theorem submit {c : ℕ} (h : Custody acceptor l conns (.share c)) (hl : l.Inv) :
    Custody acceptor (LedgerAct.out l (.call acceptor)) (conns.set c (.submitted l.calls))
      (.submitting c l.calls) ∧
    load (LedgerAct.out l (.call acceptor)) (.submitting c l.calls) ≤ load l (.share c) := by
  obtain ⟨haway, hheld⟩ := h.hand
  have hfresh : l.calls ∉ l.accepted := fun hk => Nat.lt_irrefl _ (hl.accepted_lt hk)
  have hload : load (LedgerAct.out l (.call acceptor)) (.submitting c l.calls) = load l (.share c) :=
    congrArg (l.queue.length + ·) (if_neg hfresh)
  have hcount := Counting.countP_set (b := .submitted l.calls) (Conn.waitsIn l) hheld
  refine ⟨⟨?_, ⟨?_, Or.inl ?_⟩, ?_, ?_⟩, Nat.le_of_eq hload⟩
  · intro t ht
    show (Function.update l.role acceptor _ t).submitting = _
    rw [Function.update_of_ne ht]
    exact h.alone t ht
  · rw [List.getElem?_set_self (List.getElem?_eq_some_iff.mp hheld).1]
  · show (Function.update l.role acceptor _ acceptor).submitting = _
    rw [Function.update_self]
  · intro k hk
    exact Counting.mem_set_of_ne (h.owned k hk) hheld nofun
  · rw [hload]
    have hw : (Conn.submitted l.calls).waitsIn l = true := by simp [Conn.waitsIn, hfresh]
    rw [hw, show Conn.held.waitsIn l = true from rfl] at hcount
    exact (Nat.le_of_eq (Nat.add_right_cancel hcount)).trans h.waiting

section
variable (h : Custody acceptor l conns pc)
include h

/-- the pool goes on without the queue -/
theorem pool (ha : ∀ t, t ≠ acceptor → (l'.role t).submitting = .away)
    (hh : pc.Hand conns l'.returns (l'.role acceptor).submitting) (hq : l'.queue = l.queue)
    (hacc : l'.accepted = l.accepted) : Custody acceptor l' conns pc ∧ load l' pc ≤ load l pc := by
  have hload : load l' pc = load l pc := by
    unfold load
    rw [hq, hacc]
  have hwaits : Conn.waitsIn l' = Conn.waitsIn l := by
    funext c
    unfold Conn.waitsIn
    rw [hq, hacc]
  refine ⟨⟨ha, hh, by rw [hacc]; exact h.owned, ?_⟩, Nat.le_of_eq hload⟩
  rw [hload, hwaits]
  exact h.waiting

/-- a call of `submit` is the loop's own, for its connection -/
theorem caller {t : Tid} (ht : (l.role t).submitting ≠ .away) :
    t = acceptor ∧ ∃ c k, pc = .submitting c k ∧ conns[c]? = some (.submitted k) ∧
      ((l.role t).submitting = .called k ∨ (l.role t).submitting = .counted k ∨
        (l.role t).submitting = .accepted k) := by
  have hta : t = acceptor := by
    by_contra hne
    exact ht (h.alone t hne)
  subst hta
  exact ⟨rfl, h.hand.submitting ht⟩

/-- the loop's call of `submit` goes on or returns -/
theorem own {t : Tid} {k : ℕ} {s s' : Submitting} (hs : (l.role t).submitting = s)
    (hsk : s = .called k ∨ s = .counted k ∨ s = .accepted k)
    (hrole : l'.role = Function.update l.role t { l.role t with submitting := s' })
    (hs' : s' = .called k ∨ s' = .counted k ∨ s' = .accepted k ∨
      s' = .away ∧ ∃ result, (k, result) ∈ l'.returns)
    (hq : l'.queue = l.queue) (hacc : l'.accepted = l.accepted) :
    Custody acceptor l' conns pc ∧ load l' pc ≤ load l pc := by
  obtain ⟨rfl, c, k', rfl, hc, hk⟩ := h.caller (t := t) (by rw [hs]; rcases hsk with e | e | e <;> simp [e])
  have hkk : k' = k := by
    rw [hs] at hk
    rcases hsk with rfl | rfl | rfl
    all_goals rcases hk with e | e | e
    all_goals cases e
    all_goals rfl
  subst hkk
  refine h.pool ?_ ⟨hc, ?_⟩ hq hacc
  · intro u hu
    rw [hrole, Function.update_of_ne hu]
    exact h.alone u hu
  · rw [hrole, Function.update_self]
    exact hs'

/-- the roles change, and no call of `submit` does -/
theorem others {t : Tid} {r : Role} (hrole : l'.role = Function.update l.role t r)
    (hs : r.submitting = (l.role t).submitting) (hret : l'.returns = l.returns)
    (hq : l'.queue = l.queue) (hacc : l'.accepted = l.accepted) :
    Custody acceptor l' conns pc ∧ load l' pc ≤ load l pc := by
  have hsame : ∀ u, (l'.role u).submitting = (l.role u).submitting := by
    intro u
    rw [hrole]
    by_cases hu : u = t
    · subst hu
      rw [Function.update_self, hs]
    · rw [Function.update_of_ne hu]
  refine h.pool ?_ ?_ hq hacc
  · intro u hu
    rw [hsame]
    exact h.alone u hu
  · rw [hsame, hret]
    exact h.hand

variable (hl : l.Inv)
include hl

/-- the task of the connection gets into the queue -/
theorem accepts {t : Tid} {k : ℕ} (hs : (l.role t).submitting = .counted k) :
    Custody acceptor (LedgerAct.out l (.accept t k)) conns pc ∧
      load (LedgerAct.out l (.accept t k)) pc ≤ load l pc := by
  obtain ⟨rfl, c, k', rfl, hc, hk⟩ := h.caller (t := t) (by rw [hs]; exact nofun)
  have hkk : k' = k := by
    rw [hs] at hk
    rcases hk with e | e | e
    all_goals cases e
    rfl
  subst hkk
  have hnot := hl.counted_not_accepted hs
  have hload : load (LedgerAct.out l (.accept t k')) (.submitting c k') = load l (.submitting c k') := by
    have h1 : LoopPc.inHand l.accepted (.submitting c k') = 1 := if_neg hnot
    have h2 : LoopPc.inHand (l.accepted ++ [k']) (.submitting c k') = 0 := if_pos (by simp)
    show (l.queue ++ [k']).length + LoopPc.inHand (l.accepted ++ [k']) (.submitting c k')
      = l.queue.length + LoopPc.inHand l.accepted (.submitting c k')
    rw [h1, h2, List.length_append]
    rfl
  refine ⟨⟨?_, ⟨hc, Or.inr (Or.inr (Or.inl ?_))⟩, ?_, ?_⟩, Nat.le_of_eq hload⟩
  · intro u hu
    show (Function.update l.role t _ u).submitting = _
    rw [Function.update_of_ne hu]
    exact h.alone u hu
  · show (Function.update l.role t _ t).submitting = _
    rw [Function.update_self]
  · intro k hk
    rcases List.mem_append.mp hk with hk | hk
    · exact h.owned k hk
    · cases List.mem_singleton.mp hk
      exact List.mem_of_getElem? hc
  · rw [hload]
    refine (List.countP_mono_left fun s _ hs => ?_).trans h.waiting
    cases s with
    | submitted j =>
      have hs : j ∈ l.queue ++ [k'] ∨ j ∉ l.accepted ++ [k'] := by
        simpa [Conn.waitsIn, LedgerAct.out, TaskLedger.setSubmitting] using hs
      have : j ∈ l.queue ∨ j ∉ l.accepted := by
        rcases hs with hs | hs
        · rcases List.mem_append.mp hs with hs | hs
          · exact Or.inl hs
          · cases List.mem_singleton.mp hs
            exact Or.inr hnot
        · exact Or.inr fun hj => hs (List.mem_append_left _ hj)
      simpa [Conn.waitsIn] using this
    | _ => exact hs

/-- a worker takes the task of a connection -/
theorem takes {t : Tid} {k : ℕ} (hk : l.queue.head? = some k) :
    Custody acceptor (LedgerAct.out l (.take t k)) conns pc ∧
      load (LedgerAct.out l (.take t k)) pc ≤ load l pc := by
  obtain ⟨rest, hq⟩ := List.head?_eq_some_iff.mp hk
  have hmem : k ∈ l.queue := by rw [hq]; exact List.mem_cons_self
  have hrest : k ∉ rest := by
    have hnd := hl.queue_nodup
    rw [hq] at hnd
    exact (List.nodup_cons.mp hnd).1
  have htail : (LedgerAct.out l (.take t k)).queue = rest := by
    show l.queue.tail = rest
    rw [hq]
    rfl
  have hload : load (LedgerAct.out l (.take t k)) pc + 1 = load l pc := by
    show (LedgerAct.out l (.take t k)).queue.length + pc.inHand l.accepted + 1
      = l.queue.length + pc.inHand l.accepted
    rw [htail, hq, List.length_cons]
    omega
  obtain ⟨h', _⟩ : Custody acceptor (l.setHolding t (.taken k)) conns pc ∧ load _ pc ≤ load l pc :=
    h.others rfl rfl rfl rfl rfl
  refine ⟨⟨h'.alone, h'.hand, h'.owned, ?_⟩, Nat.le_of_succ_le (Nat.le_of_eq hload)⟩
  have hlt : conns.countP (Conn.waitsIn (LedgerAct.out l (.take t k))) + 1
      ≤ conns.countP (Conn.waitsIn l) := by
    refine Counting.countP_lt (h.owned k (hl.queue_subset hmem)) ?_ ?_ ?_
    · simp [Conn.waitsIn, hmem]
    · unfold Conn.waitsIn
      rw [htail]
      have : k ∈ (LedgerAct.out l (.take t k)).accepted := hl.queue_subset hmem
      simp [hrest, this]
    · intro s hs
      cases s with
      | submitted j =>
        unfold Conn.waitsIn at hs ⊢
        rw [htail] at hs
        rw [hq]
        have hs : j ∈ rest ∨ j ∉ (LedgerAct.out l (.take t k)).accepted := by simpa using hs
        have : (j = k ∨ j ∈ rest) ∨ j ∉ l.accepted := hs.imp_left Or.inr
        simpa using this
      | _ => exact hs
  have := h.waiting
  omega

/-- a step of the pool that is not a call of `submit` -/
theorem ledger (b : LedgerAct Tid) (hb : b.Ok l) (hcall : ∀ t, b ≠ .call t) (hempty : b ≠ .empty) :
    Custody acceptor (b.out l) conns pc ∧ load (b.out l) pc ≤ load l pc := by
  cases b with
  | call t => exact absurd rfl (hcall t)
  | empty => exact absurd rfl hempty
  | refuse t k =>
    exact h.own hb (Or.inl rfl) rfl (Or.inr (Or.inr (Or.inr ⟨rfl, _, List.mem_append_right _
      (List.mem_singleton_self _)⟩))) rfl rfl
  | count t k => exact h.own hb (Or.inl rfl) rfl (Or.inr (Or.inl rfl)) rfl rfl
  | accept t k => exact h.accepts hl hb
  | retreat t k result =>
    exact h.own hb.1 (Or.inr (Or.inl rfl)) rfl (Or.inr (Or.inr (Or.inr ⟨rfl, _, List.mem_append_right _
      (List.mem_singleton_self _)⟩))) rfl rfl
  | answer t k =>
    exact h.own hb (Or.inr (Or.inr rfl)) rfl (Or.inr (Or.inr (Or.inr ⟨rfl, _, List.mem_append_right _
      (List.mem_singleton_self _)⟩))) rfl rfl
  | take t k => exact h.takes hl hb.2
  | start t k => exact h.others rfl rfl rfl rfl rfl
  | complete t k => exact h.others rfl rfl rfl rfl rfl
  | readSubmitted t => exact h.others rfl rfl rfl rfl rfl
  | readCompleted t s => exact h.others rfl rfl rfl rfl rfl

end

end Custody

end

namespace AcceptLoop
variable {Tid : Type} [DecidableEq Tid] [Fintype Tid] {acceptor : Tid} {x : AcceptLoop Tid}
  {tasks : BlockingQueue ℕ} {worker : Tid → Bool}

/-- the pool is in a state that it can reach, and the loop keeps its connections -/
structure Inv (acceptor : Tid) (tasks : BlockingQueue ℕ) (worker : Tid → Bool) (x : AcceptLoop Tid) :
    Prop where
  pool : Reach PoolAct.Ok PoolAct.out (.started tasks worker) x.pool
  custody : Custody acceptor x.pool.ledger x.conns x.pc

/-- **a step of the loop**; only `accept` adds to the load -/
theorem Inv.act (h : x.Inv acceptor tasks worker) (hqueue : tasks.queue = []) (a : LoopAct Tid)
    (ha : a.Ok acceptor x) : (a.out acceptor x).Inv acceptor tasks worker ∧
      (a = .accept ∨ load (a.out acceptor x).pool.ledger (a.out acceptor x).pc ≤ load x.pool.ledger x.pc) := by
  have hl := TaskLedger.reach_inv (ThreadPool.reach_ledger hqueue h.pool)
  obtain ⟨hr, hc⟩ := h
  obtain ⟨pool, pc, stopRequested, error, conns, sent⟩ := x
  dsimp only at hr hc hl
  have hfree (hf : (pool.thread acceptor).free = true) :
      (pool.ledger.role acceptor).submitting = .away := by
    show (pool.thread acceptor).api.submitting _ = _
    rw [(((ThreadPool.reach_tasks hr).1 acceptor).of_free hf).2.1]
    rfl
  cases a with
  | stop =>
    obtain ⟨rfl, _⟩ := ha
    exact (hc.goto .shutdown hc.hand rfl).imp (⟨hr, ·⟩) Or.inr
  | goOn =>
    obtain ⟨rfl, _⟩ := ha
    exact (hc.goto .poll hc.hand rfl).imp (⟨hr, ·⟩) Or.inr
  | pollNothing =>
    cases ha
    exact (hc.goto .check hc.hand rfl).imp (⟨hr, ·⟩) Or.inr
  | pollFailed error =>
    cases ha
    exact (hc.goto .shutdown hc.hand rfl).imp (⟨hr, ·⟩) Or.inr
  | pollHangup =>
    cases ha
    exact (hc.goto .shutdown hc.hand rfl).imp (⟨hr, ·⟩) Or.inr
  | pollReady =>
    cases ha
    exact (hc.goto .accept hc.hand rfl).imp (⟨hr, ·⟩) Or.inr
  | acceptRetry =>
    cases ha
    exact (hc.goto .check hc.hand rfl).imp (⟨hr, ·⟩) Or.inr
  | acceptFailed error =>
    cases ha
    exact (hc.goto .check hc.hand rfl).imp (⟨hr, ·⟩) Or.inr
  | accept =>
    cases ha
    exact ⟨⟨hr, hc.accept⟩, Or.inl rfl⟩
  | configureFailed c =>
    cases ha
    exact (hc.drop .check .closed hc.hand.2 rfl rfl nofun hc.hand.1 rfl rfl).imp (⟨hr, ·⟩) Or.inr
  | configured c =>
    cases ha
    exact (hc.goto (.share c) hc.hand rfl).imp (⟨hr, ·⟩) Or.inr
  | shareFailed c =>
    cases ha
    exact (hc.drop .shutdown .closed hc.hand.2 rfl rfl nofun hc.hand.1 rfl rfl).imp (⟨hr, ·⟩) Or.inr
  | submit c =>
    obtain ⟨rfl, hf⟩ := ha
    obtain ⟨_, e⟩ := (ThreadPool.reach_tasks hr).1.ledger_submit hf
    obtain ⟨h', hle⟩ := hc.submit hl
    rw [← e] at h' hle
    exact ⟨⟨hr.trans (Reach.single (a := PoolAct.submit acceptor) hf), h'⟩, Or.inr hle⟩
  | accepted c k =>
    obtain ⟨rfl, hf, hk⟩ := ha
    have hin : LoopPc.inHand pool.ledger.accepted (.submitting c k) = 0 := if_pos (hl.mem_accepted hk)
    exact (hc.goto .check (hfree hf) hin.symm).imp (⟨hr, ·⟩) Or.inr
  | refused c k =>
    obtain ⟨rfl, hf, hk⟩ := ha
    have hin : LoopPc.inHand pool.ledger.accepted (.submitting c k) = 1 :=
      if_neg (hl.refused_not_accepted hk nofun)
    exact (hc.goto (.reject c) ⟨hfree hf, k, hc.hand.1, hk⟩ hin.symm).imp (⟨hr, ·⟩) Or.inr
  | threw c k =>
    obtain ⟨rfl, hf, hk⟩ := ha
    have hnot := hl.refused_not_accepted hk nofun
    refine (hc.drop .shutdown .closed hc.hand.1 ?_ rfl ?_ (hfree hf) (if_neg hnot)
      rfl).imp (⟨hr, ·⟩) Or.inr
    · simp [Conn.waitsIn, hnot]
    · rintro j hj ⟨rfl⟩
      exact hnot hj
  | reject c sent =>
    cases ha
    obtain ⟨haway, k, hck, hk⟩ := hc.hand
    have hnot := hl.refused_not_accepted hk nofun
    refine (hc.drop .check .rejected hck ?_ rfl ?_ haway rfl rfl).imp (⟨hr, ·⟩) Or.inr
    · simp [Conn.waitsIn, hnot]
    · rintro j hj ⟨rfl⟩
      exact hnot hj
  | shutdown =>
    obtain ⟨rfl, hf⟩ := ha
    have e := (ThreadPool.reach_tasks hr).1.ledger_shutdown hf
    obtain ⟨h', hle⟩ := hc.goto .stopping hc.hand rfl
    refine ⟨⟨hr.trans (Reach.single (a := PoolAct.shutdown acceptor) hf), ?_⟩, Or.inr ?_⟩
    · show Custody acceptor ((PoolAct.shutdown acceptor).out pool).ledger conns .stopping
      rw [e]
      exact h'
    · show load ((PoolAct.shutdown acceptor).out pool).ledger .stopping ≤ load pool.ledger .shutdown
      rw [e]
      exact hle
  | finished =>
    obtain ⟨rfl, _⟩ := ha
    exact (hc.goto .returned hc.hand rfl).imp (⟨hr, ·⟩) Or.inr
  | requestStop => exact ⟨⟨hr, hc⟩, Or.inr (Nat.le_refl _)⟩
  | pool a =>
    obtain ⟨ha, hforeign⟩ := ha
    have hr' := hr.trans (Reach.single ha)
    obtain ⟨hco, hq⟩ := ThreadPool.reach_tasks hr
    cases hco.ledger_act (QueueState.reach_inv hq) a ha with
    | none e =>
      refine ⟨⟨hr', ?_⟩, Or.inr ?_⟩
      · show Custody acceptor (a.out pool).ledger conns pc
        rw [e]
        exact hc
      · show load (a.out pool).ledger pc ≤ load pool.ledger pc
        rw [e]
    | act b hb e hi =>
      have hb' := hc.ledger hl b hb (by
        rintro t rfl
        cases hi
        cases hforeign) (by
        rintro rfl
        obtain ⟨t, rfl⟩ := hi
        cases hforeign)
      rw [← e] at hb'
      exact hb'.imp (⟨hr', ·⟩) Or.inr

theorem run_inv (hqueue : tasks.queue = []) (ready : Bool) :
    (run ready (.started tasks worker)).Inv acceptor tasks worker := by
  refine ⟨Reach.refl _, ?_⟩
  show Custody acceptor (ThreadPool.started tasks worker).ledger [] (if ready then .check else .returned)
  rw [ThreadPool.started_ledger hqueue]
  refine ⟨fun _ _ => rfl, ?_, nofun, Nat.zero_le _⟩
  split <;> rfl

/-- the connections that wait are queued or in the hands of the loop -/
theorem Inv.waiting_le (h : x.Inv acceptor tasks worker) (hqueue : tasks.queue = [])
    (hclosed : tasks.closed = false) : x.waiting ≤ load x.pool.ledger x.pc := by
  have e : Conn.waits x.pool.tasks.history = Conn.waitsIn x.pool.ledger :=
    funext fun c => Conn.waits_eq hqueue hclosed h.pool c
  unfold waiting
  rw [e]
  exact h.custody.waiting

/-- in every run the loop has at most one connection more than the queue has room for -/
theorem waiting_le_succ (hqueue : tasks.queue = []) (hclosed : tasks.closed = false) {ready : Bool}
    (hr : Reach (LoopAct.Ok acceptor) (LoopAct.out acceptor) (run ready (.started tasks worker)) x) :
    x.waiting ≤ tasks.capacity + 1 := by
  have h := reach_invariant (Inv acceptor tasks worker) hr (run_inv hqueue ready)
    fun x a h ha => (h.act hqueue a ha).1
  have hq : x.pool.ledger.queue.length ≤ tasks.capacity :=
    ((QueueState.reach_inv (ThreadPool.reach_tasks h.pool).2).legal.sound hqueue hclosed).bounded
  exact (h.waiting_le hqueue hclosed).trans (Nat.add_le_add hq (LoopPc.inHand_le _ _))

end AcceptLoop

def LoopAct.accepts {Tid : Type} : LoopAct Tid → Bool
  | .accept => true
  | _ => false

/-- the loop accepts a connection only while the queue has room -/
def LoopAct.RoomOk {Tid : Type} [DecidableEq Tid] (acceptor : Tid) (x : AcceptLoop Tid)
    (a : LoopAct Tid) : Prop :=
  a.Ok acceptor x ∧
    (a.accepts = true → x.pool.tasks.shared.queue.length < x.pool.tasks.shared.capacity)

instance {Tid : Type} [DecidableEq Tid] [Fintype Tid] (acceptor : Tid) (x : AcceptLoop Tid)
    (a : LoopAct Tid) : Decidable (a.RoomOk acceptor x) :=
  inferInstanceAs (Decidable (a.Ok acceptor x ∧ (a.accepts = true → _ < _)))

/-- **The capacity of the queue bounds the connections that wait**, in every run in which the loop
accepts a connection only while the queue has room for it. -/
theorem waiting_bounded {Tid : Type} [DecidableEq Tid] [Fintype Tid] (options : ServerOptions)
    (worker : Tid → Bool) (acceptor : Tid) (ready : Bool) (pool : ThreadPool Tid)
    (hnew : ThreadPool.new worker (max 1 options.queueCapacity) = .ok pool) (x : AcceptLoop Tid)
    (hrun : Reach (LoopAct.RoomOk acceptor) (LoopAct.out acceptor) (.run ready pool) x) :
    x.waiting ≤ max 1 options.queueCapacity := by
  obtain ⟨hcap, _, rfl⟩ := ThreadPool.new_ok hnew
  refine (reach_invariant (fun x : AcceptLoop Tid => x.Inv acceptor _ worker ∧
    load x.pool.ledger x.pc ≤ max 1 options.queueCapacity) hrun
    ⟨AcceptLoop.run_inv rfl ready, ?_⟩ ?_).elim fun h hle => (h.waiting_le rfl rfl).trans hle
  · show load (ThreadPool.started _ worker).ledger (if ready then .check else .returned) ≤ _
    rw [ThreadPool.started_ledger rfl]
    split <;> exact Nat.zero_le _
  · rintro x a ⟨h, hle⟩ ⟨ha, hroom⟩
    obtain ⟨h', hload⟩ := h.act rfl a ha
    refine ⟨h', ?_⟩
    rcases hload with rfl | hload
    · -- there was room before
      have hs := (QueueState.reach_inv (ThreadPool.reach_tasks h.pool).2).legal.sound rfl rfl
      have hlt := hroom rfl
      rw [hs.capacity] at hlt
      exact hlt
    · exact hload.trans hle

/-- the server with one worker and a queue of one task -/
def smallServer : AcceptLoop (Fin 2) :=
  .run true (.started { capacity := 1, capacity_pos := Nat.one_pos } fun t => decide (t = 0))

/-- the loop accepts a connection and submits its task -/
def connection (conn task : ℕ) : List (LoopAct (Fin 2)) :=
  [.goOn, .pollReady, .accept, .configured conn, .submit conn, .pool (.loadFlag 1 task),
    .pool (.increment 1 task), .pool (.queue (.acquire 1 (.push task) false)),
    .pool (.queue (.pass 1 (.push task) false)), .pool (.queue (.critical 1 (.push task) false)),
    .pool (.queue (.unlock 1 (.pushed task))), .pool (.queue (.notifyNobody 1 (.pushed task) .notEmpty)),
    .pool (.pushed 1 task), .accepted conn task]

/-- the worker takes the task and starts it -/
def takes (task : ℕ) : List (LoopAct (Fin 2)) :=
  [.pool (.pop 0), .pool (.queue (.acquire 0 .pop false)), .pool (.queue (.pass 0 .pop false)),
    .pool (.queue (.critical 0 .pop false)), .pool (.queue (.unlock 0 (.popped task))),
    .pool (.queue (.notifyNobody 0 (.popped task) .notFull)), .pool (.start 0 task)]

/-- a second connection, while the first one is served -/
theorem waiting_bounded_second :
    ThreadPool.new (fun t : Fin 2 => decide (t = 0)) (max 1 1) = .ok smallServer.pool ∧
    ∃ x, Reach (LoopAct.RoomOk 1) (LoopAct.out 1) smallServer x ∧
      x.conns = [.submitted 0, .submitted 1] ∧ x.pool.runs = [(0, 0)] ∧ x.waiting ≤ 1 := by
  have hnew : ThreadPool.new (fun t : Fin 2 => decide (t = 0)) (max 1 1) = .ok smallServer.pool := rfl
  have hrun : (perform (LoopAct.RoomOk 1) (LoopAct.out 1) smallServer
      (connection 0 0 ++ takes 0 ++ connection 1 1)).map (fun x => (x.conns, x.pool.runs))
      = some ([.submitted 0, .submitted 1], [(0, 0)]) := by
    decide +kernel
  obtain ⟨x, hx, e⟩ := Option.map_eq_some_iff.mp hrun
  obtain ⟨hconns, hruns⟩ := Prod.mk.inj e
  exact ⟨hnew, x, perform_reach hx, hconns, hruns,
    waiting_bounded { queueCapacity := 1 } _ 1 true _ hnew x (perform_reach hx)⟩

/-- The queue is full, and the loop accepts another connection. -/
theorem waiting_over :
    ThreadPool.new (fun t : Fin 2 => decide (t = 0)) (max 1 1) = .ok smallServer.pool ∧
    ∃ x, Reach (LoopAct.Ok 1) (LoopAct.out 1) smallServer x ∧ x.waiting = 2 := by
  have hrun : (perform (LoopAct.Ok 1) (LoopAct.out 1) smallServer
      (connection 0 0 ++ [.goOn, .pollReady, .accept])).map (fun x => x.waiting) = some 2 := by
    decide +kernel
  obtain ⟨x, hx, e⟩ := Option.map_eq_some_iff.mp hrun
  exact ⟨rfl, x, perform_reach hx, e⟩

end NetForge
