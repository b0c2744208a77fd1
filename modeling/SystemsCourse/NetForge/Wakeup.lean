import SystemsCourse.Lib.Threads
import SystemsCourse.NetForge.BlockingQueue

/-!
# No lost wake-up

`available c` is what the sleepers of the condition variable `c` wait for: queued items, or free slots
as long as the queue is open.  `Wakeful c`: if a thread sleeps on `c`, then for each available unit
there is a thread that was notified and has not acted yet, or one that is about to notify.  A step
changes both sides by what its thread adds to them (`Wakeful.move`).

After a close the free slots are not covered any more (`slots_after_close`): a notified producer
finds the queue closed and leaves its slot free.  Then the `notify_all` of the closer is due
(`Closing`).
-/

set_option linter.unusedSectionVars false
set_option linter.unusedVariables false

namespace NetForge
open Wire Actions Threads

section
variable {T : Type}

/-- the condition variable that `notify_one` is called on after the critical section -/
def QueueResult.signal : QueueResult T → Option Cv
  | .pushed _ => some .notEmpty
  | .popped _ => some .notFull
  | _ => none

/-- what the sleepers of `c` wait for -/
def BlockingQueue.available (q : BlockingQueue T) : Cv → ℕ
  | .notEmpty => q.queue.length
  | .notFull => if q.closed then 0 else q.capacity - q.queue.length

namespace QueuePc

/-- woken by a notification of `c`, and not yet through the check and the critical section -/
def notifiedOn (c : Cv) : QueuePc T → Bool
  | .lock op true => decide (op.cv = some c)
  | .check op true => decide (op.cv = some c)
  | .critical op true => decide (op.cv = some c)
  | _ => false

/-- through the critical section, and about to call `notify_one` on `c` -/
def signals (c : Cv) : QueuePc T → Bool
  | .unlock r => decide (r.signal = some c)
  | .notifyOne _ c' => decide (c' = c)
  | _ => false

/-- notified on `c` and waiting for the mutex -/
def waking (c : Cv) : QueuePc T → Bool
  | .lock op true => decide (op.cv = some c)
  | _ => false

/-- at its `notify_one` on `c` -/
def notifying (c : Cv) : QueuePc T → Bool
  | .notifyOne _ c' => decide (c' = c)
  | _ => false

/-- a closer that has not yet called `notify_all` on `c` -/
def closing (c : Cv) : QueuePc T → Bool
  | .unlock .closed => true
  | .notifyAll .notEmpty => true
  | .notifyAll .notFull => decide (c = .notFull)
  | _ => false

/-- what a thread adds to the wake-ups of `c` that are under way -/
def weight (c : Cv) (pc : QueuePc T) : ℕ := (pc.notifiedOn c).toNat + (pc.signals c).toNat

theorem weight_next (c : Cv) (r : QueueResult T) : weight c r.next = weight c (.unlock r) := by
  cases c <;> cases r <;> rfl

theorem weight_wake_ne {c c' : Cv} (h : c' ≠ c) (pc : QueuePc T) :
    (pc.wake c').notifiedOn c = pc.notifiedOn c ∧ (pc.wake c').signals c = pc.signals c ∧
      (pc.wake c').asleepOn c = pc.asleepOn c := by
  unfold wake
  split
  · rename_i op
    split_ifs with hcv
    · have hne : ¬ op.cv = some c := by
        rw [hcv]
        exact fun e => h (Option.some.inj e)
      simp [notifiedOn, signals, asleepOn, hne]
    · exact ⟨rfl, rfl, rfl⟩
  · exact ⟨rfl, rfl, rfl⟩

theorem asleepOn_wake (c : Cv) (pc : QueuePc T) : (pc.wake c).asleepOn c = false := by
  unfold wake
  split
  · split_ifs with hcv
    · rfl
    · simpa [asleepOn] using hcv
  · rename_i h
    cases pc <;> first | rfl | exact absurd rfl (h _)

end QueuePc

/-- a thread that goes to sleep waits for nothing that is there -/
theorem BlockingQueue.available_eq_zero {q : BlockingQueue T} {op : QueueOp T} {c : Cv}
    (hp : q.predicate op = false) (hc : op.cv = some c) : q.available c = 0 := by
  cases op with
  | push v =>
    cases hc
    have : q.closed = false ∧ q.capacity ≤ q.queue.length := by simpa [predicate] using hp
    simp [available, this.1, this.2]
  | pop =>
    cases hc
    have : q.closed = false ∧ q.queue = [] := by simpa [predicate] using hp
    simp [available, this.2]
  | close => cases hc

/-- a critical section that waited on `c` takes a unit of it, and one that makes a unit available
signals it -/
theorem BlockingQueue.critical_available {q : BlockingQueue T} {op : QueueOp T}
    (hp : q.predicate op = true) (c : Cv) :
    (q.critical op).2.available c = 0 ∨
      (q.critical op).2.available c + (if op.cv = some c then 1 else 0)
        ≤ q.available c + (if (q.critical op).1.signal = some c then 1 else 0) := by
  rcases q.critical_cases op hp with ⟨v, rfl, hc, e⟩ | ⟨v, rfl, hc, hlt, e⟩ | ⟨rfl, hq, hc, e⟩ |
    ⟨v, rest, rfl, hq, e⟩ | ⟨rfl, e⟩
  all_goals rw [e]
  · -- the queue is closed, so no free slot is available
    cases c with
    | notFull => exact Or.inl (if_pos hc)
    | notEmpty => exact Or.inr (Nat.le_refl _)
  · right
    cases c with
    | notFull =>
      simp [available, hc, QueueOp.cv, QueueResult.signal]
      omega
    | notEmpty => simp [available, QueueOp.cv, QueueResult.signal]
  · cases c with
    | notEmpty => exact Or.inl (by simp [available, hq])
    | notFull => exact Or.inr (Nat.le_refl _)
  · right
    cases c with
    | notEmpty => simp [available, hq, QueueOp.cv, QueueResult.signal]
    | notFull =>
      simp only [available, hq, List.length_cons, QueueOp.cv, QueueResult.signal, if_true,
        Option.some.injEq, reduceCtorEq, if_false]
      split_ifs <;> omega
  · cases c with
    | notFull => exact Or.inl rfl
    | notEmpty => exact Or.inr (Nat.le_refl _)

end

/-- the step throws no exception -/
def QueueAct.quiet {Tid T : Type} : QueueAct Tid T → Bool
  | .throw _ _ _ => false
  | _ => true

def QueueAct.QuietOk {Tid T : Type} (x : QueueState Tid T) (a : QueueAct Tid T) : Prop :=
  a.Ok x ∧ a.quiet = true

namespace QueueState
variable {Tid T : Type} [DecidableEq Tid] [Fintype Tid] {x y : QueueState Tid T}

/-- the threads that were notified on `c` and have not acted -/
def notified (x : QueueState Tid T) (c : Cv) : ℕ := count fun t => (x.pc t).notifiedOn c

/-- the threads that are about to notify one on `c` -/
def signallers (x : QueueState Tid T) (c : Cv) : ℕ := count fun t => (x.pc t).signals c

/-- if a thread sleeps on `c`, the wake-ups under way cover what is available, but for `k` -/
def Covered (c : Cv) (k : ℕ) (x : QueueState Tid T) : Prop :=
  (∃ t, (x.pc t).asleepOn c = true) → x.shared.available c ≤ x.notified c + x.signallers c + k

def Wakeful (c : Cv) (x : QueueState Tid T) : Prop := x.Covered c 0

theorem count_goto (p : QueuePc T → Bool) (t : Tid) (pc : QueuePc T)
    (hpc : y.pc = Function.update x.pc t pc) :
    count (fun u => p (y.pc u)) + (p (x.pc t)).toNat = count (fun u => p (x.pc u)) + (p pc).toNat := by
  rw [hpc]
  exact count_update p x.pc t pc

/-- one thread moves: either nothing is available any more, or it does not go to sleep and the
balance is kept -/
theorem Covered.move {c : Cv} {k k' : ℕ} (h : x.Covered c k) (t : Tid) (pc : QueuePc T)
    (hpc : y.pc = Function.update x.pc t pc)
    (hw : y.shared.available c = 0 ∨ pc.asleepOn c = false ∧
      y.shared.available c + (x.pc t).weight c + k ≤ x.shared.available c + pc.weight c + k') :
    y.Covered c k' := by
  rintro ⟨u, hu⟩
  rcases hw with hz | ⟨hs, hle⟩
  · rw [hz]
    exact Nat.zero_le _
  · have hut : u ≠ t := by
      rintro rfl
      rw [hpc, Function.update_self, hs] at hu
      cases hu
    rw [hpc, Function.update_of_ne hut] at hu
    have hx := h ⟨u, hu⟩
    have h1 := count_goto (QueuePc.notifiedOn c) t pc hpc
    have h2 := count_goto (QueuePc.signals c) t pc hpc
    unfold QueuePc.weight at hle
    unfold notified signallers at hx ⊢
    omega

/-- one thread moves and the shared state is the same -/
theorem Covered.goto {c : Cv} {k k' : ℕ} (h : x.Covered c k) (t : Tid) (pc : QueuePc T)
    (hs : pc.asleepOn c = false) (hw : (x.pc t).weight c + k ≤ pc.weight c + k') :
    (x.goto t pc).Covered c k' := by
  refine h.move t pc rfl (Or.inr ⟨hs, ?_⟩)
  show x.shared.available c + _ + _ ≤ _
  omega

section
variable {c : Cv} (h : x.Wakeful c)
include h

theorem Wakeful.critical {q₀ : BlockingQueue T} (hinv : x.Inv q₀) (t : Tid) {op : QueueOp T} {n : Bool}
    (hpc : x.pc t = .critical op n) : ((QueueAct.critical t op n).out x).Wakeful c := by
  have hold : (QueuePc.critical op n).weight c ≤ if op.cv = some c then 1 else 0 := by
    cases n <;> by_cases hc : op.cv = some c <;>
      simp [QueuePc.weight, QueuePc.notifiedOn, QueuePc.signals, hc]
  have hnew : (QueuePc.unlock (x.shared.critical op).1).weight c
      = if (x.shared.critical op).1.signal = some c then 1 else 0 := by
    by_cases hc : (x.shared.critical op).1.signal = some c <;>
      simp [QueuePc.weight, QueuePc.notifiedOn, QueuePc.signals, hc]
  refine Covered.move h t (.unlock (x.shared.critical op).1) rfl ?_
  rw [hpc, hnew]
  rcases BlockingQueue.critical_available (hinv.passed t op n hpc) c with hz | hle
  · exact Or.inl hz
  · exact Or.inr ⟨rfl, (Nat.add_le_add_left hold _).trans hle⟩

theorem Wakeful.sleep {t : Tid} {op : QueueOp T} {n : Bool} (hpc : x.pc t = .check op n)
    (hp : x.shared.predicate op = false) : ((QueueAct.sleep t op n).out x).Wakeful c := by
  refine Covered.move h t (.asleep op) rfl ?_
  by_cases hc : op.cv = some c
  · exact Or.inl (BlockingQueue.available_eq_zero hp hc)
  · refine Or.inr ⟨by simpa [QueuePc.asleepOn] using hc, ?_⟩
    have hw : (x.pc t).weight c = 0 := by
      rw [hpc]
      cases n <;> simp [QueuePc.weight, QueuePc.notifiedOn, QueuePc.signals, hc]
    rw [hw]
    exact Nat.le_add_right _ _

/-- one sleeper is notified: the debt of the thread that notifies passes to it -/
theorem Wakeful.notifyOne {t w : Tid} {r : QueueResult T} {d : Cv} (hpc : x.pc t = .notifyOne r d)
    (hw : (x.pc w).asleepOn d = true) : ((QueueAct.notifyOne t r d w).out x).Wakeful c := by
  obtain ⟨op, hpw, hcv⟩ := QueuePc.asleepOn_iff.mp hw
  have hne : w ≠ t := by
    rintro rfl
    rw [hpc] at hpw
    cases hpw
  have hwake : (x.pc w).wake d = .lock op true := by rw [hpw, QueuePc.wake, if_pos hcv]
  have hswap : (QueueAct.notifyOne t r d w).out x = (x.goto t (.done r)).goto w (.lock op true) := by
    show (x.goto w ((x.pc w).wake d)).goto t (.done r) = _
    rw [hwake]
    unfold goto
    dsimp only
    rw [Function.update_comm hne]
  have hdebt : (QueuePc.lock op true).weight c = (QueuePc.notifyOne r d).weight c := by
    simp [QueuePc.weight, QueuePc.notifiedOn, QueuePc.signals, hcv]
  rw [hswap]
  have h₁ : (x.goto t (.done r)).Covered c ((QueuePc.notifyOne r d).weight c) :=
    Covered.goto h t _ rfl (by rw [hpc]; exact Nat.le_add_left _ _)
  refine h₁.goto w _ rfl ?_
  rw [goto_ne x hne, hpw, hdebt]
  exact Nat.le_of_eq (Nat.zero_add _)

/-- all sleepers of `d` are notified -/
theorem Wakeful.notifyAll {t : Tid} {d : Cv} (hpc : x.pc t = .notifyAll d) :
    ((QueueAct.notifyAll t d).out x).Wakeful c := by
  have hw : Wakeful c { x with pc := fun u => (x.pc u).wake d } := by
    rintro ⟨u, hu⟩
    dsimp only at hu
    by_cases hd : d = c
    · subst hd
      rw [QueuePc.asleepOn_wake] at hu
      cases hu
    · rw [(QueuePc.weight_wake_ne hd _).2.2] at hu
      have hx := h ⟨u, hu⟩
      unfold notified signallers at hx ⊢
      rwa [count_congr fun t => (QueuePc.weight_wake_ne hd (x.pc t)).1,
        count_congr fun t => (QueuePc.weight_wake_ne hd (x.pc t)).2.1]
  refine Covered.goto hw t _ (by cases d <;> rfl) ?_
  dsimp only
  rw [hpc]
  exact Nat.zero_le _

/-- nobody sleeps on `d` -/
theorem Wakeful.notifyNobody {t : Tid} {r : QueueResult T} {d : Cv} (hpc : x.pc t = .notifyOne r d)
    (hd : ∀ u, (x.pc u).asleepOn d = false) : ((QueueAct.notifyNobody t r d).out x).Wakeful c := by
  by_cases hdc : d = c
  · subst hdc
    rintro ⟨u, hu⟩
    by_cases hut : u = t
    · subst hut
      rw [show ((QueueAct.notifyNobody u r d).out x).pc u = .done r from goto_self ..] at hu
      cases hu
    · rw [show ((QueueAct.notifyNobody t r d).out x).pc u = x.pc u from goto_ne x hut _, hd u] at hu
      cases hu
  · refine Covered.goto h t _ rfl ?_
    rw [hpc]
    simp [QueuePc.weight, QueuePc.notifiedOn, QueuePc.signals, hdc]

/-- **a step keeps the wake-ups**; an exception in `push` would leave a slot free -/
theorem Wakeful.act {q₀ : BlockingQueue T} (hinv : x.Inv q₀) (a : QueueAct Tid T) (ha : a.Ok x)
    (hq : c = .notFull → a.quiet = true) : (a.out x).Wakeful c := by
  cases a with
  | call t op =>
    have hpc : x.pc t = .idle := ha
    exact Covered.goto h t _ rfl (by rw [hpc]; exact Nat.zero_le _)
  | acquire t op n =>
    obtain ⟨hpc, _⟩ := ha
    refine Covered.move h t (.check op n) rfl (Or.inr ⟨rfl, ?_⟩)
    rw [hpc]
    cases n <;> exact Nat.le_refl _
  | sleep t op n => exact h.sleep ha.1 ha.2
  | pass t op n =>
    obtain ⟨hpc, _⟩ := ha
    refine Covered.goto h t _ rfl ?_
    rw [hpc]
    cases n <;> exact Nat.le_refl _
  | critical t op n => exact h.critical hinv t ha
  | throw t v n =>
    obtain ⟨hpc, _⟩ := ha
    cases c with
    | notFull => exact absurd (hq rfl) Bool.noConfusion
    | notEmpty =>
      refine Covered.move h t (.unlock (.threw v)) rfl (Or.inr ⟨rfl, ?_⟩)
      rw [hpc]
      cases n <;> exact Nat.le_refl _
  | unlock t r =>
    have hpc : x.pc t = .unlock r := ha
    refine Covered.move h t r.next rfl (Or.inr ⟨by cases r <;> rfl, ?_⟩)
    rw [hpc, QueuePc.weight_next]
    exact Nat.le_refl _
  | notifyOne t r d w => exact h.notifyOne ha.1 ha.2
  | notifyNobody t r d => exact h.notifyNobody ha.1 ha.2
  | notifyAll t d => exact h.notifyAll ha
  | spurious t op =>
    have hpc : x.pc t = .asleep op := ha
    exact Covered.goto h t _ rfl (by rw [hpc]; exact Nat.zero_le _)
  | ret t r =>
    have hpc : x.pc t = .done r := ha
    exact Covered.goto h t _ rfl (by rw [hpc]; exact Nat.zero_le _)

end

/-! ## closing -/

/-- in a closed queue, what sleeps on `c` is going to be woken by a closer -/
def Closing (c : Cv) (x : QueueState Tid T) : Prop :=
  x.shared.closed = true → (∃ t, (x.pc t).asleepOn c = true) → ∃ u, (x.pc u).closing c = true

section
variable {c : Cv} (h : x.Closing c)
include h

/-- one thread moves, and if it was a closer that is due it still is -/
theorem Closing.move (t : Tid) (pc : QueuePc T) (hpc : y.pc = Function.update x.pc t pc)
    (hc : y.shared.closed = true → x.shared.closed = true) (hs : pc.asleepOn c = false)
    (hk : (x.pc t).closing c = true → pc.closing c = true) : y.Closing c := by
  rintro hy ⟨u, hu⟩
  have hut : u ≠ t := by
    rintro rfl
    rw [hpc, Function.update_self, hs] at hu
    cases hu
  rw [hpc, Function.update_of_ne hut] at hu
  obtain ⟨v, hv⟩ := h (hc hy) ⟨u, hu⟩
  by_cases hvt : v = t
  · subst hvt
    exact ⟨v, by rw [hpc, Function.update_self]; exact hk hv⟩
  · exact ⟨v, by rw [hpc, Function.update_of_ne hvt]; exact hv⟩

/-- a thread moves that is no closer -/
theorem Closing.goto {pc₀ : QueuePc T} (t : Tid) (pc : QueuePc T) (hpc : y.pc = Function.update x.pc t pc)
    (hc : y.shared.closed = true → x.shared.closed = true) (hs : pc.asleepOn c = false)
    (hpc₀ : x.pc t = pc₀) (hk : pc₀.closing c = false) : y.Closing c := by
  refine h.move t pc hpc hc hs fun e => ?_
  rw [hpc₀, hk] at e
  cases e

theorem Closing.notifyAll {t : Tid} {d : Cv} (hpc : x.pc t = .notifyAll d) :
    ((QueueAct.notifyAll t d).out x).Closing c := by
  rintro hy ⟨u, hu⟩
  have hout : ∀ v, v ≠ t → ((QueueAct.notifyAll t d).out x).pc v = (x.pc v).wake d :=
    fun v hv => goto_ne { x with pc := fun u => (x.pc u).wake d } hv _
  have hself : ((QueueAct.notifyAll t d).out x).pc t = d.afterAll := goto_self ..
  have hut : u ≠ t := by
    rintro rfl
    rw [hself] at hu
    cases d <;> cases hu
  rw [hout u hut] at hu
  cases d with
  | notEmpty =>
    cases c with
    | notEmpty =>
      rw [QueuePc.asleepOn_wake] at hu
      cases hu
    | notFull => exact ⟨t, by rw [hself]; rfl⟩
  | notFull =>
    cases c with
    | notFull =>
      rw [QueuePc.asleepOn_wake] at hu
      cases hu
    | notEmpty =>
      rw [(QueuePc.weight_wake_ne (by decide) _).2.2] at hu
      obtain ⟨v, hv⟩ := h hy ⟨u, hu⟩
      have hvt : v ≠ t := by
        rintro rfl
        rw [hpc] at hv
        cases hv
      refine ⟨v, ?_⟩
      rw [hout v hvt]
      cases hpv : x.pc v with
      | asleep op =>
        rw [hpv] at hv
        cases hv
      | _ =>
        rw [hpv] at hv
        exact hv

theorem Closing.act {q₀ : BlockingQueue T} (hinv : x.Inv q₀) (a : QueueAct Tid T) (ha : a.Ok x) :
    (a.out x).Closing c := by
  cases a with
  | call t op =>
    have hpc : x.pc t = .idle := ha
    exact h.goto t _ rfl id rfl hpc rfl
  | acquire t op n =>
    obtain ⟨hpc, _⟩ := ha
    exact h.goto t (.check op n) rfl id rfl hpc rfl
  | sleep t op n =>
    -- only in an open queue
    obtain ⟨_, hp⟩ := ha
    intro hy
    have hclosed : x.shared.closed = true := hy
    cases op <;> simp [BlockingQueue.predicate, hclosed] at hp
  | pass t op n =>
    obtain ⟨hpc, _⟩ := ha
    exact h.goto t _ rfl id rfl hpc rfl
  | critical t op n =>
    have hpc : x.pc t = .critical op n := ha
    rcases x.shared.critical_cases op (hinv.passed t op n hpc) with ⟨v, rfl, hc, e⟩ |
      ⟨v, rfl, hc, hlt, e⟩ | ⟨rfl, hq, hc, e⟩ | ⟨v, rest, rfl, hq, e⟩ | ⟨rfl, e⟩
    case inr.inr.inr.inr =>
      rintro _ _
      exact ⟨t, by rw [show ((QueueAct.critical t .close n).out x).pc t = .unlock .closed from
        goto_self ..]; rfl⟩
    all_goals
      refine h.goto t (.unlock (x.shared.critical _).1) rfl ?_ rfl hpc rfl
      show (x.shared.critical _).2.closed = true → _
      rw [e]
      exact id
  | throw t v n =>
    obtain ⟨hpc, _⟩ := ha
    exact h.goto t (.unlock (.threw v)) rfl id rfl hpc rfl
  | unlock t r =>
    have hpc : x.pc t = .unlock r := ha
    refine h.move t r.next rfl id (by cases r <;> rfl) ?_
    rw [hpc]
    cases r <;> exact id
  | notifyOne t r d w =>
    obtain ⟨hpc, hw⟩ := ha
    obtain ⟨op, hpw, hcv⟩ := QueuePc.asleepOn_iff.mp hw
    have hne : t ≠ w := by
      rintro rfl
      rw [hpc] at hpw
      cases hpw
    have hwake : (x.pc w).wake d = .lock op true := by rw [hpw, QueuePc.wake, if_pos hcv]
    have h₁ : (x.goto w ((x.pc w).wake d)).Closing c := by
      rw [hwake]
      exact h.goto w _ rfl id rfl hpw rfl
    exact h₁.goto t (.done r) rfl id rfl ((goto_ne x hne _).trans hpc) rfl
  | notifyNobody t r d =>
    obtain ⟨hpc, _⟩ := ha
    exact h.goto t _ rfl id rfl hpc rfl
  | notifyAll t d => exact h.notifyAll ha
  | spurious t op =>
    have hpc : x.pc t = .asleep op := ha
    exact h.goto t _ rfl id rfl hpc rfl
  | ret t r =>
    have hpc : x.pc t = .done r := ha
    exact h.goto t _ rfl id rfl hpc rfl

end

/-! ## runs -/

variable {q₀ : BlockingQueue T}

theorem reach_of_quiet (hr : Reach QueueAct.QuietOk QueueAct.out x y) :
    Reach QueueAct.Ok QueueAct.out x y :=
  reach_map id hr fun _ _ ha => Reach.single ha.1

theorem reach_closing (hr : Reach QueueAct.Ok QueueAct.out { shared := q₀ } x) (c : Cv) :
    x.Closing c := by
  refine (reach_invariant (fun x => x.Inv q₀ ∧ x.Closing c) hr ⟨new_inv q₀, ?_⟩
    fun _ a h ha => ⟨h.1.act a ha, h.2.act h.1 a ha⟩).2
  rintro _ ⟨t, ht⟩
  cases ht

theorem reach_items (hr : Reach QueueAct.Ok QueueAct.out { shared := q₀ } x) :
    x.Wakeful .notEmpty := by
  refine (reach_invariant (fun x => x.Inv q₀ ∧ x.Wakeful .notEmpty) hr ⟨new_inv q₀, ?_⟩
    fun _ a h ha => ⟨h.1.act a ha, h.2.act h.1 a ha nofun⟩).2
  rintro ⟨t, ht⟩
  cases ht

theorem reach_slots (hr : Reach QueueAct.QuietOk QueueAct.out { shared := q₀ } x) :
    x.Wakeful .notFull := by
  refine (reach_invariant (fun x => x.Inv q₀ ∧ x.Wakeful .notFull) hr ⟨new_inv q₀, ?_⟩
    fun _ a h ha => ⟨h.1.act a ha.1, h.2.act h.1 a ha.1 fun _ => ha.2⟩).2
  rintro ⟨t, ht⟩
  cases ht

/-- a thread that does not hold the mutex and is counted waits for it or is at its `notify_one` -/
theorem free_counts (hinv : x.Inv q₀) (hm : x.mutex = none) (c : Cv) :
    x.notified c = count (fun t => (x.pc t).waking c) ∧
      x.signallers c = count (fun t => (x.pc t).notifying c) := by
  have hfree : ∀ t, (x.pc t).holds = false := by
    intro t
    rw [Bool.eq_false_iff]
    intro hh
    rw [(hinv.holder t).mp hh] at hm
    cases hm
  constructor
  · refine count_congr fun t => ?_
    have ht := hfree t
    cases hpc : x.pc t with
    | lock op n => cases n <;> rfl
    | check op n =>
      rw [hpc] at ht
      cases ht
    | critical op n =>
      rw [hpc] at ht
      cases ht
    | _ => rfl
  · refine count_congr fun t => ?_
    have ht := hfree t
    cases hpc : x.pc t with
    | unlock r =>
      rw [hpc] at ht
      cases ht
    | _ => rfl

end QueueState

section
variable {Tid T : Type} [DecidableEq Tid] [Fintype Tid]

/-- no thread is on its way: each one is outside a call, has ended it, or sleeps without a
notification -/
def QueueState.Still (x : QueueState Tid T) : Prop :=
  ∀ t, x.pc t = .idle ∨ (∃ r, x.pc t = .done r) ∨ ∃ op, x.pc t = .asleep op

theorem QueueState.Still.counts {x : QueueState Tid T} (h : x.Still) (c : Cv) :
    x.notified c = 0 ∧ x.signallers c = 0 ∧ ∀ t, (x.pc t).closing c = false := by
  refine ⟨count_eq_zero fun t => ?_, count_eq_zero fun t => ?_, fun t => ?_⟩
  all_goals
    rcases h t with e | ⟨r, e⟩ | ⟨op, e⟩
    all_goals
      rw [e]
      rfl

/-- **No lost wake-up.**  In every state of a run without exceptions: (a) if a consumer sleeps, each
queued item has a consumer that was notified and has not acted, or a pusher that is about to notify;
(b) as long as the queue is open, the same for producers and free slots; (c) if the queue is closed and
a thread sleeps, a closer has not yet called `notify_all` for it.  When the mutex is free, the threads
counted are at the mutex or at their `notify_one`.  So if no thread is on its way, what sleeps could
not go on. -/
theorem no_lost_wakeup (capacity : ℕ) (hcap : 0 < capacity) (x : QueueState Tid T)
    (hrun : Reach QueueAct.QuietOk QueueAct.out
      { shared := { capacity := capacity, capacity_pos := hcap } } x) :
    ((∃ t, x.pc t = .asleep .pop) →
      x.shared.queue.length ≤ x.notified .notEmpty + x.signallers .notEmpty) ∧
    (x.shared.closed = false → (∃ t v, x.pc t = .asleep (.push v)) →
      capacity - x.shared.queue.length ≤ x.notified .notFull + x.signallers .notFull) ∧
    (x.shared.closed = true →
      ((∃ t, x.pc t = .asleep .pop) → ∃ u, (x.pc u).closing .notEmpty = true) ∧
      ((∃ t v, x.pc t = .asleep (.push v)) → ∃ u, (x.pc u).closing .notFull = true)) ∧
    (x.mutex = none → ∀ c, x.notified c = count (fun t => (x.pc t).waking c) ∧
      x.signallers c = count (fun t => (x.pc t).notifying c)) ∧
    (x.Still →
      ((∃ t, x.pc t = .asleep .pop) → x.shared.queue = [] ∧ x.shared.closed = false) ∧
      ((∃ t v, x.pc t = .asleep (.push v)) →
        x.shared.queue.length = capacity ∧ x.shared.closed = false)) := by
  have hr := QueueState.reach_of_quiet hrun
  have hinv := QueueState.reach_inv hr
  have hs := hinv.legal.sound rfl rfl
  have hpop : (∃ t, x.pc t = .asleep .pop) → ∃ t, (x.pc t).asleepOn .notEmpty = true := by
    rintro ⟨t, e⟩
    exact ⟨t, by rw [e]; rfl⟩
  have hpush : (∃ t v, x.pc t = .asleep (.push v)) → ∃ t, (x.pc t).asleepOn .notFull = true := by
    rintro ⟨t, v, e⟩
    exact ⟨t, by rw [e]; rfl⟩
  have ha : (∃ t, x.pc t = .asleep .pop) →
      x.shared.queue.length ≤ x.notified .notEmpty + x.signallers .notEmpty :=
    fun he => QueueState.reach_items hr (hpop he)
  have hb : x.shared.closed = false → (∃ t v, x.pc t = .asleep (.push v)) →
      capacity - x.shared.queue.length ≤ x.notified .notFull + x.signallers .notFull := by
    intro hc he
    have hle := QueueState.reach_slots hrun (hpush he)
    rw [BlockingQueue.available, hc, hs.capacity] at hle
    exact hle
  have hclosing := QueueState.reach_closing hr
  refine ⟨ha, hb, fun hc => ⟨fun he => hclosing _ hc (hpop he), fun he => hclosing _ hc (hpush he)⟩,
    fun hm c => QueueState.free_counts hinv hm c, ?_⟩
  intro hstill
  have hopen : ∀ c, (∃ t, (x.pc t).asleepOn c = true) → x.shared.closed = false := by
    intro c he
    rw [Bool.eq_false_iff]
    intro hc
    obtain ⟨u, hu⟩ := hclosing c hc he
    rw [(hstill.counts c).2.2 u] at hu
    cases hu
  constructor
  · intro he
    have hle := ha he
    rw [(hstill.counts _).1, (hstill.counts _).2.1] at hle
    exact ⟨List.length_eq_zero_iff.mp (Nat.le_zero.mp hle), hopen _ (hpop he)⟩
  · intro he
    have hc := hopen _ (hpush he)
    have hle := hb hc he
    rw [(hstill.counts _).1, (hstill.counts _).2.1] at hle
    have hb' : x.shared.queue.length ≤ capacity := hs.bounded
    exact ⟨by omega, hc⟩

end

instance {Tid T : Type} [DecidableEq Tid] [Fintype Tid] [DecidableEq T] (x : QueueState Tid T)
    (a : QueueAct Tid T) : Decidable (a.QuietOk x) :=
  inferInstanceAs (Decidable (a.Ok x ∧ a.quiet = true))

/-- two producers sleep in front of a full queue; a pop wakes the first one -/
def twoProducers : List (QueueAct (Fin 3) ℕ) :=
  [.call 0 (.push 5), .acquire 0 (.push 5) false, .pass 0 (.push 5) false, .critical 0 (.push 5) false,
    .unlock 0 (.pushed 5), .notifyNobody 0 (.pushed 5) .notEmpty, .ret 0 (.pushed 5),
    .call 1 (.push 6), .acquire 1 (.push 6) false, .sleep 1 (.push 6) false,
    .call 2 (.push 7), .acquire 2 (.push 7) false, .sleep 2 (.push 7) false,
    .call 0 .pop, .acquire 0 .pop false, .pass 0 .pop false, .critical 0 .pop false,
    .unlock 0 (.popped 5), .notifyOne 0 (.popped 5) .notFull 1, .ret 0 (.popped 5)]

theorem no_lost_wakeup_producers :
    ∃ x : QueueState (Fin 3) ℕ, Reach QueueAct.QuietOk QueueAct.out
        { shared := { capacity := 1, capacity_pos := Nat.one_pos } } x ∧
      x.pc 2 = .asleep (.push 7) ∧ x.shared.closed = false ∧
      1 - x.shared.queue.length ≤ x.notified .notFull + x.signallers .notFull := by
  have hrun : (perform QueueAct.QuietOk QueueAct.out
      ({ shared := { capacity := 1, capacity_pos := Nat.one_pos } } : QueueState (Fin 3) ℕ)
      twoProducers).map (fun x => (x.pc 2, x.shared.closed)) = some (.asleep (.push 7), false) := by
    decide +kernel
  obtain ⟨x, hx, e⟩ := Option.map_eq_some_iff.mp hrun
  obtain ⟨h1, h2⟩ := Prod.mk.inj e
  obtain ⟨_, hb, _⟩ := no_lost_wakeup 1 Nat.one_pos x (perform_reach hx)
  exact ⟨x, perform_reach hx, h1, h2, hb h2 ⟨2, 7, h1⟩⟩

/-- **a free slot that no wake-up covers**: after a close the notified producer leaves, the other one
still sleeps, the slot is free, and no thread was notified or is about to notify one -/
theorem slots_after_close :
    ∃ x : QueueState (Fin 3) ℕ, Reach QueueAct.QuietOk QueueAct.out
        { shared := { capacity := 1, capacity_pos := Nat.one_pos } } x ∧
      (∃ t v, x.pc t = .asleep (.push v)) ∧
      ¬ 1 - x.shared.queue.length ≤ x.notified .notFull + x.signallers .notFull := by
  have hrun : (perform QueueAct.QuietOk QueueAct.out
      ({ shared := { capacity := 1, capacity_pos := Nat.one_pos } } : QueueState (Fin 3) ℕ)
      (twoProducers ++ [.call 0 .close, .acquire 0 .close false, .pass 0 .close false,
        .critical 0 .close false, .unlock 0 .closed, .acquire 1 (.push 6) true,
        .pass 1 (.push 6) true, .critical 1 (.push 6) true, .unlock 1 (.refused 6),
        .ret 1 (.refused 6)])).map
      (fun x => (x.pc 2, x.shared.queue.length, x.notified .notFull, x.signallers .notFull))
      = some (.asleep (.push 7), 0, 0, 0) := by
    decide +kernel
  obtain ⟨x, hx, e⟩ := Option.map_eq_some_iff.mp hrun
  obtain ⟨h1, e⟩ := Prod.mk.inj e
  obtain ⟨h2, e⟩ := Prod.mk.inj e
  obtain ⟨h3, h4⟩ := Prod.mk.inj e
  refine ⟨x, perform_reach hx, ⟨2, 7, h1⟩, ?_⟩
  rw [h2, h3, h4]
  decide

end NetForge
