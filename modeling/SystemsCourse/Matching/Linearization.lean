import SystemsCourse.Lib.Linearizable
import SystemsCourse.Matching.Progress

/-!
# The ingress queue as one queue

What the callers of `try_push` and `try_pop` see, as invocations and responses.  A call that takes a ticket
takes effect with its compare-exchange: a push then appends its item, and a pop takes the oldest one, although
the value is written, or moved out, by later accesses.

A call that returns without a ticket may be refused by a cell whose owner has not finished, when the queue is
neither full nor empty.  `Contended` are the refusals during which a call of the other kind was under way.

* `Fifo`                   the queue, where a call may be refused;
* `Calls.Sim`              the calls of the threads and those of the queue;
* `ingress_linearizable`   the calls are linearizable, and every refusal that is not contended is one by
                           a queue that is full, or empty.
-/

set_option linter.unusedSectionVars false
set_option linter.unusedVariables false

namespace Matching
open Actions Linearizable

inductive RingOp (α : Type) where
  | push (item : α)
  | pop

inductive RingRes (α : Type) where
  | pushed (accepted : Bool)
  | popped (result : Option α)

def RingOp.isPush {α : Type} : RingOp α → Bool
  | .push _ => true
  | .pop => false

def RingRes.refused {α : Type} : RingRes α → Bool
  | .pushed accepted => !accepted
  | .popped result => result.isNone

/-- a bounded queue whose calls may be refused -/
inductive Fifo {α : Type} (n : ℕ) : List α → RingOp α → RingRes α → List α → Prop
  | push (s : List α) (item : α) (h : s.length < n) : Fifo n s (.push item) (.pushed true) (s ++ [item])
  | pop (item : α) (s : List α) : Fifo n (item :: s) .pop (.popped (some item)) s
  | refusePush (s : List α) (item : α) : Fifo n s (.push item) (.pushed false) s
  | refusePop (s : List α) : Fifo n s .pop (.popped none) s

/-- the queue has no place for a push, or nothing for a pop -/
def RingOp.Blocked {α : Type} (n : ℕ) (s : List α) : RingOp α → Prop
  | .push _ => s.length = n
  | .pop => s = []

/-- a call of the other kind was under way when the call returned -/
def Contended {α : Type} (h : List (Event (RingOp α) (RingRes α))) (i : ℕ) (op : RingOp α) : Prop :=
  ∃ h₁ r h₂ j op', h = h₁ ++ .res i r :: h₂ ∧ Open h₁ j op' ∧ op'.isPush ≠ op.isPush

/-- each refusal in the order is contended, or one by a queue that is full or empty -/
def Exact {α : Type} (n : ℕ) (h : List (Event (RingOp α) (RingRes α)))
    (order : List (ℕ × RingOp α × RingRes α)) : Prop :=
  ∀ o₁ i op r o₂, order = o₁ ++ (i, op, r) :: o₂ → r.refused = true →
    Contended h i op ∨ ∃ s, Legal (Fifo n) [] o₁ s ∧ op.Blocked n s

section
variable {α : Type} {n : ℕ} {h h' : List (Event (RingOp α) (RingRes α))}
  {order : List (ℕ × RingOp α × RingRes α)}

theorem Contended.append {i : ℕ} {op : RingOp α} (hc : Contended h i op)
    (h' : List (Event (RingOp α) (RingRes α))) : Contended (h ++ h') i op := by
  obtain ⟨h₁, r, h₂, j, op', rfl, hopen, hkind⟩ := hc
  exact ⟨h₁, r, h₂ ++ h', j, op', by rw [List.append_assoc, List.cons_append], hopen, hkind⟩

theorem Exact.append (hx : Exact n h order) (h' : List (Event (RingOp α) (RingRes α))) :
    Exact n (h ++ h') order := by
  intro o₁ i op r o₂ heq hr
  exact (hx o₁ i op r o₂ heq hr).imp_left fun hc => hc.append h'

theorem Exact.concat (hx : Exact n h order) {i : ℕ} {op : RingOp α} {r : RingRes α}
    (hlast : r.refused = true → Contended h i op ∨ ∃ s, Legal (Fifo n) [] order s ∧ op.Blocked n s) :
    Exact n h (order ++ [(i, op, r)]) := by
  intro o₁ i' op' r' o₂ heq hr
  cases o₂ using List.reverseRecOn with
  | nil =>
    obtain ⟨rfl, hlast'⟩ := List.append_inj' heq rfl
    cases hlast'
    exact hlast hr
  | append_singleton o₂ last =>
    rw [← List.cons_append, ← List.append_assoc] at heq
    exact hx o₁ i' op' r' o₂ (List.append_inj' heq rfl).1 hr

end

/-! ## the calls -/

/-- what a call returns if the access from here is its last one -/
def IngressPc.answer {α : Type} : IngressPc α → List (RingRes α)
  | .pushSequence _ _ => [.pushed false]
  | .pushStore _ _ => [.pushed true]
  | .popSequence _ => [.popped none]
  | .popStore _ result => [.popped result]
  | _ => []

/-- what a thread that goes on at `after` returns -/
def IngressPc.returns {α : Type} (before after : IngressPc α) : List (RingRes α) :=
  match after with
  | .idle => before.answer
  | _ => []

structure Calls (Tid α : Type) where
  queue : Queue Tid α
  /-- the number of the last call of a thread -/
  id : Tid → ℕ
  next : ℕ
  history : List (Event (RingOp α) (RingRes α))

namespace Calls
variable {Tid α : Type} [DecidableEq Tid]

def init (capacity : UInt64) : Calls Tid α := ⟨.init capacity, fun _ => 0, 0, []⟩

/-- a thread makes a call -/
def call (c : Calls Tid α) (t : Tid) (op : RingOp α) (p : IngressPc α) : Calls Tid α :=
  ⟨c.queue.goto t p, Function.update c.id t c.next, c.next + 1, c.history ++ [.inv c.next op]⟩

def out (moved : α → α) (c : Calls Tid α) : IngressAct Tid α → Calls Tid α
  | .tryPush t item => c.call t (.push item) (.pushLoad item)
  | .tryPop t => c.call t .pop .popLoad
  | .access t =>
    ⟨c.queue.access moved t, c.id, c.next, c.history ++
      ((c.queue.pc t).returns ((c.queue.access moved t).pc t)).map (.res (c.id t))⟩
  | .spurious t => { c with queue := c.queue.fails t }

def Ok (c : Calls Tid α) (a : IngressAct Tid α) : Prop := a.Ok c.queue

/-- the queue takes the steps of `Queue.Step` -/
theorem queue_out (moved : α → α) (c : Calls Tid α) (a : IngressAct Tid α) :
    (c.out moved a).queue = a.out moved c.queue := by
  cases a <;> rfl

theorem out_access {moved : α → α} {c : Calls Tid α} {t : Tid} {p q : IngressPc α}
    (hp : c.queue.pc t = p) (hq : (c.queue.accessAt moved t p).pc t = q) :
    c.out moved (.access t)
      = ⟨c.queue.accessAt moved t p, c.id, c.next, c.history ++ (p.returns q).map (.res (c.id t))⟩ := by
  show Calls.mk (c.queue.access moved t) _ _ _ = _
  rw [Queue.access_eq hp, hp, hq]

end Calls

/-! ## the simulation -/

theorem Queue.pushBranch_cases {α : Type} (item : α) (position sequence : UInt64) :
    pushBranch item position sequence = .pushExchange item position ∨
      pushBranch item position sequence = .idle ∨ pushBranch item position sequence = .pushLoad item := by
  unfold pushBranch
  split_ifs
  · exact .inl rfl
  · exact .inr (.inl rfl)
  · exact .inr (.inr rfl)

theorem Queue.popBranch_cases (α : Type) (position sequence : UInt64) :
    (popBranch position sequence : IngressPc α) = .popExchange position ∨
      (popBranch position sequence : IngressPc α) = .idle ∨
      (popBranch position sequence : IngressPc α) = .popLoad := by
  unfold popBranch
  split_ifs
  · exact .inl rfl
  · exact .inr (.inl rfl)
  · exact .inr (.inr rfl)

/-- where the call of a thread is, for the queue -/
def IngressPc.Agrees {Tid α : Type} (pushes : List (Tid × α)) (st : Status (RingOp α) (RingRes α)) :
    IngressPc α → Prop
  | .idle => True
  | .pushLoad item => st = .invoked (.push item)
  | .pushSequence item _ => st = .invoked (.push item)
  | .pushExchange item _ => st = .invoked (.push item)
  | .pushWrite item _ => st = .taken (.push item) (.pushed true)
  | .pushStore item _ => st = .taken (.push item) (.pushed true)
  | .popLoad => st = .invoked .pop
  | .popSequence _ => st = .invoked .pop
  | .popExchange _ => st = .invoked .pop
  | .popMove p => ∃ t item, pushes[p.toNat]? = some (t, item) ∧ st = .taken .pop (.popped (some item))
  | .popReset _ result => st = .taken .pop (.popped result)
  | .popStore _ result => st = .taken .pop (.popped result)

theorem IngressPc.Agrees.mono {Tid α : Type} {pushes pushes' : List (Tid × α)}
    {st : Status (RingOp α) (RingRes α)} {p : IngressPc α} (h : p.Agrees pushes st)
    (hpre : pushes <+: pushes') : p.Agrees pushes' st := by
  cases p with
  | popMove p =>
    obtain ⟨t, item, hget, hst⟩ := h
    obtain ⟨rest, rfl⟩ := hpre
    exact ⟨t, item, (List.getElem?_append_left (List.getElem?_eq_some_iff.mp hget).1).trans hget, hst⟩
  | _ => exact h

theorem IngressPc.Agrees.popping {Tid α : Type} {pushes : List (Tid × α)}
    {st : Status (RingOp α) (RingRes α)} {p : IngressPc α} (h : p.Agrees pushes st) {q : UInt64}
    (hq : p.popping = some q) : ∃ r, st = .taken .pop r := by
  cases p with
  | popMove p =>
    obtain ⟨t, item, -, hst⟩ := h
    exact ⟨_, hst⟩
  | popReset p result => exact ⟨_, h⟩
  | popStore p result => exact ⟨_, h⟩
  | _ => cases hq

theorem IngressPc.Agrees.pushing {Tid α : Type} {pushes : List (Tid × α)}
    {st : Status (RingOp α) (RingRes α)} {p : IngressPc α} (h : p.Agrees pushes st) {q : UInt64}
    (hq : p.pushing = some q) : ∃ item r, st = .taken (.push item) r := by
  cases p with
  | pushWrite item p => exact ⟨_, _, h⟩
  | pushStore item p => exact ⟨_, _, h⟩
  | _ => cases hq

namespace Calls
variable {Tid α : Type} [DecidableEq Tid]

structure Sim (c : Calls Tid α) (a : Linearizable.Atomic (List α) (RingOp α) (RingRes α)) : Prop where
  history : a.history = c.history
  state : a.state = (c.queue.pushes.drop c.queue.pops).map Prod.snd
  fresh : ∀ i, c.next ≤ i → a.status i = .fresh
  below : ∀ t, c.queue.pc t ≠ .idle → c.id t < c.next
  distinct : ∀ t u, c.queue.pc t ≠ .idle → c.queue.pc u ≠ .idle → c.id t = c.id u → t = u
  agrees : ∀ t, (c.queue.pc t).Agrees c.queue.pushes (a.status (c.id t))

theorem init_sim (capacity : UInt64) : Sim (init capacity : Calls Tid α) (Linearizable.Atomic.init []) :=
  ⟨rfl, rfl, fun _ _ => rfl, fun _ h => absurd rfl h, fun _ _ h => absurd rfl h, fun _ => trivial⟩

section
variable {c c' : Calls Tid α} {a a' : Linearizable.Atomic (List α) (RingOp α) (RingRes α)}
  (h : Sim c a) {t : Tid}
include h

/-- the call of a thread goes on -/
theorem Sim.move {p : IngressPc α} (hbusy : c.queue.pc t ≠ .idle)
    (hpc : c'.queue.pc = Function.update c.queue.pc t p) (hid : c'.id = c.id) (hnext : c'.next = c.next)
    (hhistory : a'.history = c'.history)
    (hstate : a'.state = (c'.queue.pushes.drop c'.queue.pops).map Prod.snd)
    (hstatus : ∀ i, i ≠ c.id t → a'.status i = a.status i) (hpre : c.queue.pushes <+: c'.queue.pushes)
    (hagrees : p.Agrees c'.queue.pushes (a'.status (c.id t))) : Sim c' a' := by
  have hidle {u : Tid} (hu : c'.queue.pc u ≠ .idle) : c.queue.pc u ≠ .idle := by
    by_cases hut : u = t
    · rw [hut]
      exact hbusy
    · rw [hpc, Function.update_of_ne hut] at hu
      exact hu
  refine ⟨hhistory, hstate, fun i hi => ?_, fun u hu => ?_, fun u v hu hv he => ?_, fun u => ?_⟩
  · rw [hnext] at hi
    have hlt := h.below t hbusy
    rw [hstatus i (by omega)]
    exact h.fresh i hi
  · rw [hid, hnext]
    exact h.below u (hidle hu)
  · rw [hid] at he
    exact h.distinct u v (hidle hu) (hidle hv) he
  · rw [hid, hpc]
    by_cases hut : u = t
    · rw [hut, Function.update_self]
      exact hagrees
    · rw [Function.update_of_ne hut]
      by_cases hu : c.queue.pc u = .idle
      · rw [hu]
        trivial
      · rw [hstatus _ fun he => hut (h.distinct u t hu hbusy he)]
        exact (h.agrees u).mono hpre

/-- ... and the queue does nothing -/
theorem Sim.stay {p : IngressPc α} (hbusy : c.queue.pc t ≠ .idle)
    (hpc : c'.queue.pc = Function.update c.queue.pc t p) (hid : c'.id = c.id) (hnext : c'.next = c.next)
    (hhistory : c'.history = c.history) (hpushes : c'.queue.pushes = c.queue.pushes)
    (hpops : c'.queue.pops = c.queue.pops) (hagrees : p.Agrees c.queue.pushes (a.status (c.id t))) :
    Sim c' a := by
  refine h.move hbusy hpc hid hnext (h.history.trans hhistory.symm) ?_ (fun _ _ => rfl) ?_ ?_
  · rw [hpushes, hpops]
    exact h.state
  · rw [hpushes]
  · rw [hpushes]
    exact hagrees

/-- a thread makes a call -/
theorem Sim.call (hidle : c.queue.pc t = .idle) {op : RingOp α} {p : IngressPc α} (hp : p ≠ .idle)
    (hagrees : ∀ pushes : List (Tid × α), p.Agrees pushes (.invoked op)) :
    Sim (c.call t op p) { a with
      history := a.history ++ [.inv c.next op], status := Function.update a.status c.next (.invoked op) } := by
  have hpc {u : Tid} (hut : u ≠ t) : (c.call t op p).queue.pc u = c.queue.pc u :=
    Function.update_of_ne hut ..
  have hid {u : Tid} (hut : u ≠ t) : (c.call t op p).id u = c.id u := Function.update_of_ne hut ..
  have hself : (c.call t op p).id t = c.next := Function.update_self ..
  refine ⟨?_, h.state, fun i hi => ?_, fun u hu => ?_, fun u v hu hv he => ?_, fun u => ?_⟩
  · exact congrArg (· ++ [_]) h.history
  · have hi : c.next + 1 ≤ i := hi
    show Function.update a.status c.next _ i = _
    rw [Function.update_of_ne (by omega)]
    exact h.fresh i (by omega)
  · show _ < c.next + 1
    by_cases hut : u = t
    · rw [hut, hself]
      omega
    · rw [hpc hut] at hu
      rw [hid hut]
      have := h.below u hu
      omega
  · by_cases hut : u = t
    · by_cases hvt : v = t
      · rw [hut, hvt]
      · rw [hpc hvt] at hv
        rw [hut, hself, hid hvt] at he
        have := h.below v hv
        omega
    · rw [hpc hut] at hu
      have := h.below u hu
      by_cases hvt : v = t
      · rw [hvt, hself, hid hut] at he
        omega
      · rw [hpc hvt] at hv
        rw [hid hut, hid hvt] at he
        exact h.distinct u v hu hv he
  · by_cases hut : u = t
    · rw [hut, hself]
      show (Function.update c.queue.pc t p t).Agrees _ (Function.update a.status c.next _ c.next)
      rw [Function.update_self, Function.update_self]
      exact hagrees _
    · rw [hpc hut, hid hut]
      by_cases hu : c.queue.pc u = .idle
      · rw [hu]
        trivial
      · have := h.below u hu
        show (c.queue.pc u).Agrees _ (Function.update a.status c.next _ (c.id u))
        rw [Function.update_of_ne (by omega)]
        exact h.agrees u

end

/-- the calls, those of the queue, and the refusals among them -/
structure Linked (n : ℕ) (c : Calls Tid α) (a : Linearizable.Atomic (List α) (RingOp α) (RingRes α)) :
    Prop where
  sim : Sim c a
  reach : Relation.ReflTransGen (Linearizable.Atomic.Step (Fifo n)) (Linearizable.Atomic.init []) a
  exact : Exact n a.history a.order

section
variable {n : ℕ} {c c' : Calls Tid α} {a : Linearizable.Atomic (List α) (RingOp α) (RingRes α)}
  (h : Linked n c a)
  {t : Tid}
include h

theorem Linked.call (hidle : c.queue.pc t = .idle) {op : RingOp α} {p : IngressPc α} (hp : p ≠ .idle)
    (hagrees : ∀ pushes : List (Tid × α), p.Agrees pushes (.invoked op)) :
    ∃ a', Linked n (c.call t op p) a' :=
  ⟨_, h.sim.call hidle hp hagrees, h.reach.tail (.inv a c.next op (h.sim.fresh _ (le_refl _))),
    h.exact.append _⟩

/-- a call takes effect -/
theorem Linked.take {op : RingOp α} {r : RingRes α} {s : List α} {p : IngressPc α}
    (hbusy : c.queue.pc t ≠ .idle) (hst : a.status (c.id t) = .invoked op) (hspec : Fifo n a.state op r s)
    (hr : r.refused = false) (hpc : c'.queue.pc = Function.update c.queue.pc t p) (hid : c'.id = c.id)
    (hnext : c'.next = c.next) (hhistory : c'.history = c.history)
    (hstate : s = (c'.queue.pushes.drop c'.queue.pops).map Prod.snd)
    (hpre : c.queue.pushes <+: c'.queue.pushes) (hagrees : p.Agrees c'.queue.pushes (.taken op r)) :
    ∃ a', Linked n c' a' := by
  have htake := Linearizable.Atomic.Step.take a (c.id t) op r s hst hspec
  refine ⟨_, ?_, h.reach.tail htake, h.exact.concat fun hrefused => ?_⟩
  · refine h.sim.move hbusy hpc hid hnext (h.sim.history.trans hhistory.symm) hstate
      (fun i hi => Function.update_of_ne hi ..) hpre ?_
    show p.Agrees _ (Function.update a.status (c.id t) _ (c.id t))
    rw [Function.update_self]
    exact hagrees
  · rw [hr] at hrefused
    cases hrefused

/-- a call that took effect returns -/
theorem Linked.respond {op : RingOp α} {r : RingRes α} (hbusy : c.queue.pc t ≠ .idle)
    (hst : a.status (c.id t) = .taken op r) (hpc : c'.queue.pc = Function.update c.queue.pc t .idle)
    (hid : c'.id = c.id) (hnext : c'.next = c.next) (hhistory : c'.history = c.history ++ [.res (c.id t) r])
    (hpushes : c'.queue.pushes = c.queue.pushes) (hpops : c'.queue.pops = c.queue.pops) :
    ∃ a', Linked n c' a' := by
  have hres : Linearizable.Atomic.Step (Fifo n) a _ := .res a (c.id t) op r hst
  refine ⟨_, ?_, h.reach.tail hres, h.exact.append _⟩
  refine h.sim.move hbusy hpc hid hnext ?_ ?_ (fun i hi => Function.update_of_ne hi ..) ?_ trivial
  · rw [hhistory, ← h.sim.history]
  · rw [hpushes, hpops]
    exact h.sim.state
  · rw [hpushes]

/-- a call is refused: it takes effect and returns at once -/
theorem Linked.refuse {op : RingOp α} {r : RingRes α} (hbusy : c.queue.pc t ≠ .idle)
    (hst : a.status (c.id t) = .invoked op) (hspec : Fifo n a.state op r a.state)
    (hwhy : (∃ j op' r', a.status j = .taken op' r' ∧ op'.isPush ≠ op.isPush) ∨ op.Blocked n a.state)
    (hpc : c'.queue.pc = Function.update c.queue.pc t .idle) (hid : c'.id = c.id)
    (hnext : c'.next = c.next) (hhistory : c'.history = c.history ++ [.res (c.id t) r])
    (hpushes : c'.queue.pushes = c.queue.pushes) (hpops : c'.queue.pops = c.queue.pops) :
    ∃ a', Linked n c' a' := by
  have htake := h.reach.tail (.take a (c.id t) op r a.state hst hspec)
  have hres := htake.tail (.res _ (c.id t) op r (Function.update_self ..))
  refine ⟨_, ?_, hres, Exact.concat (h.exact.append _) fun _ => ?_⟩
  · refine h.sim.move hbusy hpc hid hnext ?_ ?_ (fun i hi => ?_) ?_ trivial
    · rw [hhistory, ← h.sim.history]
    · rw [hpushes, hpops]
      exact h.sim.state
    · exact (Function.update_of_ne hi ..).trans (Function.update_of_ne hi ..)
    · rw [hpushes]
  · rcases hwhy with ⟨j, op', r', hj, hkind⟩ | hblocked
    · have hopen := Linearizable.Atomic.open_of_taken (Fifo n) h.reach hj
      exact .inl ⟨a.history, r, [], j, op', rfl, hopen, hkind⟩
    · have hinv := Linearizable.Atomic.steps_inv (Fifo n) (Linearizable.Atomic.init_inv _ _) h.reach
      exact .inr ⟨a.state, hinv.legal, hblocked⟩

theorem Linked.length_state : a.state.length = c.queue.pushes.length - c.queue.pops := by
  rw [h.sim.state, List.length_map, List.length_drop]

/-- an access in the course of a call -/
theorem Linked.go_on {moved : α → α} {p q : IngressPc α} (hp : c.queue.pc t = p) (hne : p ≠ .idle)
    (hq : q ≠ .idle) (hpc : (c.queue.accessAt moved t p).pc = Function.update c.queue.pc t q)
    (hpushes : (c.queue.accessAt moved t p).pushes = c.queue.pushes)
    (hpops : (c.queue.accessAt moved t p).pops = c.queue.pops)
    (hagrees : q.Agrees c.queue.pushes (a.status (c.id t))) :
    ∃ a', Linked n (c.out moved (.access t)) a' := by
  have hq' : (c.queue.accessAt moved t p).pc t = q := by rw [hpc, Function.update_self]
  have hnone : p.returns q = [] := by
    cases q with
    | idle => exact absurd rfl hq
    | _ => rfl
  rw [out_access hp hq', hnone]
  refine ⟨a, ?_, h.reach, h.exact⟩
  exact h.sim.stay (by rw [hp]; exact hne) hpc rfl rfl (List.append_nil _) hpushes hpops hagrees

/-- a weak compare-exchange fails -/
theorem Linked.spurious {moved : α → α} {q : IngressPc α} (hbusy : c.queue.pc t ≠ .idle)
    (hfails : c.queue.fails t = c.queue.goto t q)
    (hagrees : q.Agrees c.queue.pushes (a.status (c.id t))) :
    ∃ a', Linked n (c.out moved (.spurious t)) a' := by
  have hout : c.out moved (.spurious t) = { c with queue := c.queue.goto t q } := by
    rw [← hfails]
    rfl
  rw [hout]
  exact ⟨a, h.sim.stay hbusy rfl rfl rfl rfl rfl rfl hagrees, h.reach, h.exact⟩

end

section
variable {n : ℕ} {moved : α → α} {c : Calls Tid α} {a : Linearizable.Atomic (List α) (RingOp α) (RingRes α)}
  {g : ℕ → ℕ × Phase Tid} (h : Linked n c a) (hx : c.queue.Inv moved g) {t : Tid}
include h hx

/-- the sequence number of the cell is loaded by a push -/
theorem Linked.pushSequence (hn : c.queue.size = n) (hops : c.queue.pushes.length < 2^62) {item : α}
    {p : UInt64} (hpc : c.queue.pc t = .pushSequence item p) :
    ∃ a', Linked n (c.out moved (.access t)) a' := by
  have hst := h.sim.agrees t
  have hp := hx.threads t
  rw [hpc] at hst hp
  have hupdate : (c.queue.accessAt moved t (.pushSequence item p)).pc
      = Function.update c.queue.pc t (Queue.pushBranch item p (c.queue.cell p).sequence) := rfl
  have hcases := Queue.pushBranch_cases item p (c.queue.cell p).sequence
  rcases hcases with hbranch | hbranch | hbranch
  · rw [hbranch] at hupdate
    exact h.go_on hpc (by simp) (by simp) hupdate rfl rfl hst
  · rw [hbranch] at hupdate
    rw [out_access hpc (by rw [hupdate, Function.update_self])]
    refine h.refuse (by rw [hpc]; simp) hst (.refusePush _ item) ?_ hupdate rfl rfl rfl rfl rfl
    rcases hx.push_refused hops hp hbranch with hfull | ⟨u, q, hq, -⟩
    · refine .inr ?_
      show a.state.length = n
      rw [h.length_state, hfull]
      omega
    · obtain ⟨r, hr⟩ := (h.sim.agrees u).popping hq
      exact .inl ⟨c.id u, .pop, r, hr, Bool.false_ne_true⟩
  · rw [hbranch] at hupdate
    exact h.go_on hpc (by simp) (by simp) hupdate rfl rfl hst

/-- the sequence number of the cell is loaded by a pop -/
theorem Linked.popSequence (hops : c.queue.pushes.length < 2^62) {p : UInt64}
    (hpc : c.queue.pc t = .popSequence p) : ∃ a', Linked n (c.out moved (.access t)) a' := by
  have hst := h.sim.agrees t
  have hp := hx.threads t
  rw [hpc] at hst hp
  have hupdate : (c.queue.accessAt moved t (.popSequence p)).pc
      = Function.update c.queue.pc t (Queue.popBranch p (c.queue.cell p).sequence) := rfl
  have hcases := Queue.popBranch_cases α p (c.queue.cell p).sequence
  rcases hcases with hbranch | hbranch | hbranch
  · rw [hbranch] at hupdate
    exact h.go_on hpc (by simp) (by simp) hupdate rfl rfl hst
  · rw [hbranch] at hupdate
    rw [out_access hpc (by rw [hupdate, Function.update_self])]
    refine h.refuse (by rw [hpc]; simp) hst (.refusePop _) ?_ hupdate rfl rfl rfl rfl rfl
    rcases hx.pop_refused hops hp hbranch with hempty | ⟨-, u, hu⟩
    · refine .inr (List.eq_nil_of_length_eq_zero ?_)
      rw [h.length_state, hempty, Nat.sub_self]
    · obtain ⟨item, r, hr⟩ := (h.sim.agrees u).pushing hu
      exact .inl ⟨c.id u, .push item, r, hr, Bool.noConfusion⟩
  · rw [hbranch] at hupdate
    exact h.go_on hpc (by simp) (by simp) hupdate rfl rfl hst

/-- the compare-exchange of a push -/
theorem Linked.pushExchange (hn : c.queue.size = n) {g' : ℕ → ℕ × Phase Tid} {item : α} {p : UInt64}
    (hpc : c.queue.pc t = .pushExchange item p)
    (hy : (c.queue.access moved t).Inv moved g') : ∃ a', Linked n (c.out moved (.access t)) a' := by
  have hst := h.sim.agrees t
  rw [hpc] at hst
  rw [Queue.access_eq hpc] at hy
  by_cases he : c.queue.enqueue = p
  · have haccess : c.queue.accessAt moved t (.pushExchange item p)
        = { c.queue.goto t (.pushWrite item p) with
          enqueue := p + 1, pushes := c.queue.pushes ++ [(t, item)] } := if_pos he
    rw [out_access hpc (q := .pushWrite item p) (by rw [haccess]; exact Function.update_self ..), haccess]
    rw [haccess] at hy
    have hle := hx.pops_le
    have hbound : (c.queue.pushes ++ [(t, item)]).length ≤ c.queue.pops + c.queue.size := hy.pushes_le
    rw [List.length_append, List.length_singleton] at hbound
    refine h.take (by rw [hpc]; simp) hst (.push _ item ?_) rfl rfl rfl rfl (List.append_nil _) ?_
      (List.prefix_append _ _) rfl
    · rw [h.length_state]
      omega
    · show _ = ((c.queue.pushes ++ [(t, item)]).drop c.queue.pops).map Prod.snd
      rw [List.drop_append_of_le_length hle, List.map_append, h.sim.state]
      rfl
  · have haccess : c.queue.accessAt moved t (.pushExchange item p)
        = c.queue.goto t (.pushSequence item c.queue.enqueue) := if_neg he
    exact h.go_on hpc (by simp) (q := .pushSequence item c.queue.enqueue) (by simp)
      (by rw [haccess]; rfl) (by rw [haccess]; rfl) (by rw [haccess]; rfl) hst

/-- the compare-exchange of a pop -/
theorem Linked.popExchange {g' : ℕ → ℕ × Phase Tid} {p : UInt64} (hpc : c.queue.pc t = .popExchange p)
    (hy : (c.queue.access moved t).Inv moved g') : ∃ a', Linked n (c.out moved (.access t)) a' := by
  have hst := h.sim.agrees t
  rw [hpc] at hst
  rw [Queue.access_eq hpc] at hy
  by_cases he : c.queue.dequeue = p
  · have haccess : c.queue.accessAt moved t (.popExchange p)
        = { c.queue.goto t (.popMove p) with dequeue := p + 1, pops := c.queue.pops + 1 } := if_pos he
    rw [out_access hpc (q := .popMove p) (by rw [haccess]; exact Function.update_self ..), haccess]
    rw [haccess] at hy
    have hlt : c.queue.pops < c.queue.pushes.length := hy.pops_le
    have hp : p.toNat = c.queue.pops := by rw [← he, hx.dequeue]
    have hdrop := List.drop_eq_getElem_cons hlt
    have hstate := h.sim.state
    rw [hdrop, List.map_cons] at hstate
    have hspec := Fifo.pop (n := n) (c.queue.pushes[c.queue.pops]).2
      ((c.queue.pushes.drop (c.queue.pops + 1)).map Prod.snd)
    rw [← hstate] at hspec
    refine h.take (by rw [hpc]; simp) hst hspec rfl rfl rfl rfl (List.append_nil _) rfl
      List.prefix_rfl ⟨(c.queue.pushes[c.queue.pops]).1, _, ?_, rfl⟩
    show c.queue.pushes[p.toNat]? = _
    rw [hp]
    exact List.getElem?_eq_getElem hlt
  · have haccess : c.queue.accessAt moved t (.popExchange p)
        = c.queue.goto t (.popSequence c.queue.dequeue) := if_neg he
    exact h.go_on hpc (by simp) (q := .popSequence c.queue.dequeue) (by simp)
      (by rw [haccess]; rfl) (by rw [haccess]; rfl) (by rw [haccess]; rfl) hst

/-- the value that a pop moves out is the one it has taken -/
theorem Linked.popMove {p : UInt64} (hpc : c.queue.pc t = .popMove p) :
    ∃ a', Linked n (c.out moved (.access t)) a' := by
  have hst := h.sim.agrees t
  have hp := hx.threads t
  rw [hpc] at hst hp
  obtain ⟨u, item, hget, hst⟩ := hst
  obtain ⟨_, _, _, _, u', item', p', _, hget', hcell⟩ := hx.cell_at hp
  rw [hpc] at hcell
  have hvalue : (c.queue.cell p).value = some item := by
    rw [hx.cell_eq]
    rcases hcell with ⟨_, hvalue⟩ | ⟨hother, _⟩ | ⟨hother, _⟩
    · rw [hvalue]
      rw [hget] at hget'
      cases hget'
      rfl
    · cases hother
    · cases hother
  refine h.go_on hpc (by simp) (q := .popReset p (c.queue.cell p).value) (by simp) rfl rfl rfl ?_
  rw [hvalue]
  exact hst

/-- every access of a thread -/
theorem Linked.access (hn : c.queue.size = n) (hops : c.queue.pushes.length < 2^62)
    {g' : ℕ → ℕ × Phase Tid} (hbusy : c.queue.pc t ≠ .idle)
    (hy : (c.queue.access moved t).Inv moved g') : ∃ a', Linked n (c.out moved (.access t)) a' := by
  have hst := h.sim.agrees t
  cases hpc : c.queue.pc t with
  | idle => exact absurd hpc hbusy
  | pushLoad item =>
    rw [hpc] at hst
    exact h.go_on hpc (by simp) (q := .pushSequence item c.queue.enqueue) (by simp) rfl rfl rfl hst
  | pushSequence item p => exact h.pushSequence hx hn hops hpc
  | pushExchange item p => exact h.pushExchange hx hn hpc hy
  | pushWrite item p =>
    rw [hpc] at hst
    exact h.go_on hpc (by simp) (q := .pushStore item p) (by simp) rfl rfl rfl hst
  | pushStore item p =>
    rw [hpc] at hst
    rw [out_access hpc (q := .idle) (Function.update_self ..)]
    exact h.respond hbusy hst rfl rfl rfl rfl rfl rfl
  | popLoad =>
    rw [hpc] at hst
    exact h.go_on hpc (by simp) (q := .popSequence c.queue.dequeue) (by simp) rfl rfl rfl hst
  | popSequence p => exact h.popSequence hx hops hpc
  | popExchange p => exact h.popExchange hx hpc hy
  | popMove p => exact h.popMove hx hpc
  | popReset p result =>
    rw [hpc] at hst
    exact h.go_on hpc (by simp) (q := .popStore p result) (by simp) rfl rfl rfl hst
  | popStore p result =>
    rw [hpc] at hst
    rw [out_access hpc (q := .idle) (Function.update_self ..)]
    exact h.respond hbusy hst rfl rfl rfl rfl rfl rfl

end

/-- every action -/
theorem Linked.out {n : ℕ} {moved : α → α} {c : Calls Tid α}
    {a : Linearizable.Atomic (List α) (RingOp α) (RingRes α)} (h : Linked n c a) {g g' : ℕ → ℕ × Phase Tid}
    (hx : c.queue.Inv moved g) (hn : c.queue.size = n) (hops : c.queue.pushes.length < 2^62)
    {act : IngressAct Tid α} (hok : act.Ok c.queue) (hy : (act.out moved c.queue).Inv moved g') :
    ∃ a', Linked n (c.out moved act) a' := by
  cases act with
  | tryPush t item => exact h.call hok (by simp) fun _ => rfl
  | tryPop t => exact h.call hok (by simp) fun _ => rfl
  | access t => exact h.access hx hn hops hok hy
  | spurious t =>
    have hst := h.sim.agrees t
    rcases hok with ⟨item, hpc⟩ | hpc
    · rw [hpc] at hst
      exact h.spurious (q := .pushSequence item c.queue.enqueue) (by rw [hpc]; simp)
        (by rw [Queue.fails, hpc]) hst
    · rw [hpc] at hst
      exact h.spurious (q := .popSequence c.queue.dequeue) (by rw [hpc]; simp)
        (by rw [Queue.fails, hpc]) hst

/-- the queue of the calls is one of `Queue.Step` -/
theorem reach_queue {moved : α → α} {c c' : Calls Tid α} (hrun : Reach Ok (out moved) c c') :
    Relation.ReflTransGen (Queue.Step moved) c.queue c'.queue := by
  induction hrun with
  | refl => exact .refl
  | tail _ hstep ih =>
    obtain ⟨act, hok, rfl⟩ := hstep
    rw [queue_out]
    exact ih.tail (IngressAct.step hok)

theorem reach_linked {moved : α → α} {capacity : UInt64} {k : ℕ} (h1 : 1 ≤ k) (h2 : k ≤ 62)
    (hcapacity : capacity.toNat = 2^k) {c : Calls Tid α}
    (hrun : Reach Ok (out moved) (.init capacity) c) (hops : c.queue.operations < 2^62) :
    ∃ a, Linked capacity.toNat c a := by
  induction hrun with
  | refl =>
    refine ⟨Linearizable.Atomic.init [], init_sim capacity, .refl, fun o₁ i op r o₂ heq => ?_⟩
    cases o₁ <;> cases heq
  | @tail c c' hrun hstep ih =>
    obtain ⟨act, hok, rfl⟩ := hstep
    have hqueue := reach_queue hrun
    have hstep : Queue.Step moved c.queue (act.out moved c.queue) := IngressAct.step hok
    rw [queue_out] at hops
    obtain ⟨hpush, hpop⟩ := Queue.operations_mono hstep
    have hbefore : c.queue.operations < 2^62 := Nat.lt_of_le_of_lt (Nat.add_le_add hpush hpop) hops
    obtain ⟨a, ha⟩ := ih hbefore
    obtain ⟨g, hx⟩ := Queue.run_inv (Queue.init_inv h1 h2 hcapacity) hqueue hbefore
    obtain ⟨g', hy⟩ := Queue.run_inv (Queue.init_inv h1 h2 hcapacity) (hqueue.tail hstep) hops
    have hsize : c.queue.size = capacity.toNat := congrArg UInt64.toNat (Queue.run_size hqueue)
    exact ha.out hx hsize (Nat.lt_of_le_of_lt (Nat.le_add_right _ _) hbefore) hok hy

end Calls

/-- **The ingress queue is linearizable.**  For any threads and any interleaving of their accesses there is
an order of the calls, which keeps the order of calls that do not overlap, in which accepted pushes and pops
are those of one bounded queue, first in, first out; and a call is refused by a queue that is full, or empty,
unless a call of the other kind was under way when it returned. -/
theorem ingress_linearizable {Tid α : Type} [DecidableEq Tid] (moved : α → α) {capacity : UInt64} {k : ℕ}
    (h1 : 1 ≤ k) (h2 : k ≤ 62) (hcapacity : capacity.toNat = 2^k) {c : Calls Tid α}
    (hrun : Reach Calls.Ok (Calls.out moved) (.init capacity) c) (hops : c.queue.operations < 2^62) :
    ∃ order, Linearization (Fifo capacity.toNat) [] c.history order ∧
      Exact capacity.toNat c.history order := by
  obtain ⟨a, ha⟩ := Calls.reach_linked h1 h2 hcapacity hrun hops
  have hlinear := Linearizable.Atomic.reachable_linearization _ ha.reach
  have hexact := ha.exact
  rw [ha.sim.history] at hlinear hexact
  exact ⟨a.order, hlinear, hexact⟩

/-- a push has taken the first ticket and does not go on: another push returns, and then a pop finds
nothing -/
def overtaken : List (IngressAct Bool ℕ) :=
  [.tryPush true 7, .access true, .access true, .access true, .tryPush false 8, .access false,
    .access false, .access false, .access false, .access false, .tryPop false, .access false,
    .access false]

theorem ingress_linearizable_overtaken : ∃ c : Calls Bool ℕ,
    Reach Calls.Ok (Calls.out id) (.init 4) c ∧
      c.history = [.inv 0 (.push 7), .inv 1 (.push 8), .res 1 (.pushed true), .inv 2 .pop,
        .res 2 (.popped none)] ∧
      ∃ order, Linearization (Fifo 4) [] c.history order ∧ Exact 4 c.history order := by
  have hrun : Run Calls.Ok (Calls.out id) (.init 4) overtaken
      (overtaken.foldl (Calls.out id) (.init 4)) :=
    ⟨rfl, nofun, nofun, nofun, rfl, nofun, nofun, nofun, nofun, nofun, rfl, nofun, nofun, rfl⟩
  exact ⟨_, hrun.reach, rfl,
    ingress_linearizable id (k := 2) (by decide) (by decide) (by decide) hrun.reach (by decide)⟩

end Matching
