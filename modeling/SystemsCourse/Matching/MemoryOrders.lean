import SystemsCourse.Lib.Views
import SystemsCourse.Matching.IngressSafety

/-!
# The memory orders of the lock-free ingress queue

`Queue.Step` is sequentially consistent.  The source asks for less: `enqueue_` and `dequeue_` are read
and exchanged `relaxed`, the sequence number of a cell is loaded `acquire` and stored `release`, and the
value of a cell is a plain object.  `Ordered.Step` is the queue over the memory of `Lib.Views`: a load may
read an old message, a store may be put anywhere after what the thread has seen, and only the sequence
numbers carry views.  The part `queue` holds the local states of the threads and the last value of each
location; no load reads the latter.

The invariant of the sequentially consistent queue does not need that a load reads the last value: it
says that a position is not ahead of its counter and that the sequence number of the cell is not behind
what was read.  For the values of the cells: the last message of a cell that no thread is inside of covers
all accesses to its value (`Ordered.Inv.released`), and a thread that wins the exchange has read that
message (`Ordered.Inv.read_last`).

* `memory_orders_suffice`  no access to the value of a cell is a race, and the queue is safe.
-/

set_option linter.unusedSectionVars false
set_option linter.unusedVariables false

namespace Matching
open Words Views

/-- the atomic locations -/
inductive Atomic where
  | enqueue
  | dequeue
  /-- `cells_[index].sequence` -/
  | sequence (index : ℕ)
deriving DecidableEq

/-- the locations with a release store and an acquire load -/
def Atomic.Synchronizes : Atomic → Prop
  | .sequence _ => True
  | _ => False

/-- the plain locations are the values of the cells, by their index -/
abbrev IngressMemory (Tid : Type) := Memory Tid Atomic ℕ UInt64

structure Ordered (Tid α : Type) where
  queue : Queue Tid α
  memory : IngressMemory Tid

namespace Ordered

section
variable {Tid α : Type} [DecidableEq Tid]

/-- the constructor; its stores happen before everything else -/
def init (capacity : UInt64) : Ordered Tid α :=
  ⟨.init capacity, .init fun
    | .enqueue => 0
    | .dequeue => 0
    | .sequence index => UInt64.ofNat index⟩

/-- the sequence number of the cell of a position -/
def sequenceOf (x : Ordered Tid α) (position : UInt64) : Atomic := .sequence (x.queue.index position)

/-- one access of the thread `t`, as in `Queue.Step` -/
inductive Step (moved : α → α) : Ordered Tid α → Ordered Tid α → Prop
  | tryPush (x : Ordered Tid α) (t : Tid) (item : α) (h : x.queue.pc t = .idle) :
      Step moved x ⟨x.queue.goto t (.pushLoad item), x.memory⟩
  | pushLoad (x : Ordered Tid α) (t : Tid) (item : α) (time : ℕ) (m : Message Atomic ℕ UInt64)
      (h : x.queue.pc t = .pushLoad item) (hr : x.memory.Reads t .enqueue time m) :
      Step moved x ⟨x.queue.goto t (.pushSequence item m.value), x.memory.relaxed t .enqueue time⟩
  | pushSequence (x : Ordered Tid α) (t : Tid) (item : α) (position : UInt64) (time : ℕ)
      (m : Message Atomic ℕ UInt64) (h : x.queue.pc t = .pushSequence item position)
      (hr : x.memory.Reads t (x.sequenceOf position) time m) :
      Step moved x
        ⟨x.queue.goto t (Queue.pushBranch item position m.value), x.memory.acquire t m⟩
  -- the message of an exchange is next to the one it read
  | pushExchange (x : Ordered Tid α) (t : Tid) (item : α) (position : UInt64) (time : ℕ)
      (m : Message Atomic ℕ UInt64) (h : x.queue.pc t = .pushExchange item position)
      (hr : x.memory.Reads t .enqueue time m) (hv : m.value = position)
      (hnone : x.memory.messages .enqueue (time + 1) = none) :
      Step moved x
        ⟨{ x.queue.goto t (.pushWrite item position) with
            enqueue := position + 1, pushes := x.queue.pushes ++ [(t, item)] },
          x.memory.exchange t .enqueue time m (position + 1)⟩
  | pushFail (x : Ordered Tid α) (t : Tid) (item : α) (position : UInt64) (time : ℕ)
      (m : Message Atomic ℕ UInt64) (h : x.queue.pc t = .pushExchange item position)
      (hr : x.memory.Reads t .enqueue time m) :
      Step moved x ⟨x.queue.goto t (.pushSequence item m.value), x.memory.relaxed t .enqueue time⟩
  | pushWrite (x : Ordered Tid α) (t : Tid) (item : α) (position : UInt64)
      (h : x.queue.pc t = .pushWrite item position) :
      Step moved x
        ⟨(x.queue.setCell position { x.queue.cell position with value := some item }).goto t
            (.pushStore item position),
          x.memory.access t (x.queue.index position)⟩
  | pushStore (x : Ordered Tid α) (t : Tid) (item : α) (position : UInt64) (time : ℕ)
      (h : x.queue.pc t = .pushStore item position)
      (hlt : x.memory.view t (.inl (x.sequenceOf position)) < time)
      (hnone : x.memory.messages (x.sequenceOf position) time = none) :
      Step moved x
        ⟨{ (x.queue.setCell position { x.queue.cell position with sequence := position + 1 }).goto t
              .idle with pushed := x.queue.pushed ++ [(position.toNat, t, item)] },
          x.memory.release t (x.sequenceOf position) time (position + 1)⟩
  | tryPop (x : Ordered Tid α) (t : Tid) (h : x.queue.pc t = .idle) :
      Step moved x ⟨x.queue.goto t .popLoad, x.memory⟩
  | popLoad (x : Ordered Tid α) (t : Tid) (time : ℕ) (m : Message Atomic ℕ UInt64)
      (h : x.queue.pc t = .popLoad) (hr : x.memory.Reads t .dequeue time m) :
      Step moved x ⟨x.queue.goto t (.popSequence m.value), x.memory.relaxed t .dequeue time⟩
  | popSequence (x : Ordered Tid α) (t : Tid) (position : UInt64) (time : ℕ)
      (m : Message Atomic ℕ UInt64) (h : x.queue.pc t = .popSequence position)
      (hr : x.memory.Reads t (x.sequenceOf position) time m) :
      Step moved x ⟨x.queue.goto t (Queue.popBranch position m.value), x.memory.acquire t m⟩
  | popExchange (x : Ordered Tid α) (t : Tid) (position : UInt64) (time : ℕ)
      (m : Message Atomic ℕ UInt64) (h : x.queue.pc t = .popExchange position)
      (hr : x.memory.Reads t .dequeue time m) (hv : m.value = position)
      (hnone : x.memory.messages .dequeue (time + 1) = none) :
      Step moved x
        ⟨{ x.queue.goto t (.popMove position) with
            dequeue := position + 1, pops := x.queue.pops + 1 },
          x.memory.exchange t .dequeue time m (position + 1)⟩
  | popFail (x : Ordered Tid α) (t : Tid) (position : UInt64) (time : ℕ)
      (m : Message Atomic ℕ UInt64) (h : x.queue.pc t = .popExchange position)
      (hr : x.memory.Reads t .dequeue time m) :
      Step moved x ⟨x.queue.goto t (.popSequence m.value), x.memory.relaxed t .dequeue time⟩
  | popMove (x : Ordered Tid α) (t : Tid) (position : UInt64)
      (h : x.queue.pc t = .popMove position) :
      Step moved x
        ⟨(x.queue.setCell position
            { x.queue.cell position with value := (x.queue.cell position).value.map moved }).goto t
            (.popReset position (x.queue.cell position).value),
          x.memory.access t (x.queue.index position)⟩
  | popReset (x : Ordered Tid α) (t : Tid) (position : UInt64) (result : Option α)
      (h : x.queue.pc t = .popReset position result) :
      Step moved x
        ⟨(x.queue.setCell position { x.queue.cell position with value := none }).goto t
            (.popStore position result),
          x.memory.access t (x.queue.index position)⟩
  | popStore (x : Ordered Tid α) (t : Tid) (position : UInt64) (result : Option α) (time : ℕ)
      (h : x.queue.pc t = .popStore position result)
      (hlt : x.memory.view t (.inl (x.sequenceOf position)) < time)
      (hnone : x.memory.messages (x.sequenceOf position) time = none) :
      Step moved x
        ⟨{ (x.queue.setCell position
              { x.queue.cell position with sequence := position + x.queue.capacity }).goto t
              .idle with popped := x.queue.popped ++ [(position.toNat, t, result)] },
          x.memory.release t (x.sequenceOf position) time (position + x.queue.capacity)⟩

end

end Ordered

/-! ## the invariant -/

/-- the thread is inside the cell -/
def Queue.Holds {Tid α : Type} (x : Queue Tid α) (t : Tid) (c : ℕ) : Prop :=
  ∃ p, (x.pc t).inside = some p ∧ p.toNat % x.size = c

namespace Ordered

section
variable {Tid α : Type}

/-- the messages of a counter that was exchanged `n` times -/
structure Counts (memory : IngressMemory Tid) (a : Atomic) (n : ℕ) : Prop where
  value : ∀ time m, memory.messages a time = some m → m.value.toNat = time
  some_iff : ∀ time, (memory.messages a time).isSome ↔ time ≤ n

def Ascending (memory : IngressMemory Tid) (a : Atomic) : Prop :=
  ∀ time time' m m', memory.messages a time = some m → memory.messages a time' = some m' →
    time < time' → m.value.toNat < m'.value.toNat

/-- the last message of a cell has the current sequence number, and the message of a cell that no thread is
inside of covers the accesses to its value -/
def Published (x : Ordered Tid α) (c : ℕ) : Prop :=
  Ascending x.memory (.sequence c) ∧ ∃ time m, x.memory.Last (.sequence c) time m ∧
    m.value = (x.queue.cells c).sequence ∧
    ((∀ t, ¬ x.queue.Holds t c) → m.view (.inr c) = x.memory.accesses c)

/-- the thread knows of all accesses to the value and of the last message of the cell -/
def Owns (x : Ordered Tid α) (t : Tid) (c : ℕ) : Prop :=
  x.memory.RaceFree t c ∧
    ∃ m, x.memory.Last (.sequence c) (x.memory.view t (.inl (.sequence c))) m

/-- the message of the cell of `p` that the thread has seen is at least `n` -/
def Seen (x : Ordered Tid α) (t : Tid) (p : UInt64) (n : ℕ) : Prop :=
  ∃ m, x.memory.messages (.sequence (p.toNat % x.queue.size))
      (x.memory.view t (.inl (.sequence (p.toNat % x.queue.size)))) = some m ∧ n ≤ m.value.toNat

def Informed (x : Ordered Tid α) (t : Tid) : IngressPc α → Prop
  | .pushExchange _ p => x.Seen t p p.toNat
  | .popExchange p => x.Seen t p (p.toNat + 1)
  | _ => True

end

section
variable {Tid α : Type} [DecidableEq Tid]

structure Inv (moved : α → α) (x : Ordered Tid α) : Prop where
  queue : ∃ g, x.queue.Inv moved g
  wf : x.memory.Wf Atomic.Synchronizes
  enqueue : Counts x.memory .enqueue x.queue.pushes.length
  dequeue : Counts x.memory .dequeue x.queue.pops
  published : ∀ c, c < x.queue.size → x.Published c
  owns : ∀ t c, x.queue.Holds t c → x.Owns t c
  informed : ∀ t, x.Informed t (x.queue.pc t)

/-- from `x` to `y` the thread `t` has changed at most the cell `c` -/
structure Touches (x y : Ordered Tid α) (t : Tid) (c : ℕ) : Prop where
  size : y.queue.size = x.queue.size
  cells : ∀ c', c' ≠ c → y.queue.cells c' = x.queue.cells c'
  pc : ∀ u, u ≠ t → y.queue.pc u = x.queue.pc u
  messages : ∀ c', c' ≠ c → y.memory.messages (.sequence c') = x.memory.messages (.sequence c')
  keeps : ∀ time m, x.memory.messages (.sequence c) time = some m →
    y.memory.messages (.sequence c) time = some m
  accesses : ∀ c', c' ≠ c → y.memory.accesses c' = x.memory.accesses c'
  view : ∀ u, u ≠ t → y.memory.view u = x.memory.view u

end

/-! ## counters -/

section
variable {Tid : Type} [DecidableEq Tid] {memory : IngressMemory Tid} {a b : Atomic} {n time : ℕ}
  {m : Message Atomic ℕ UInt64}

theorem Counts.value_le (h : Counts memory a n) (hm : memory.messages a time = some m) :
    m.value.toNat ≤ n := by
  rw [h.value time m hm, ← h.some_iff, hm]
  rfl

/-- an exchange reads the last value -/
theorem Counts.value_eq (h : Counts memory a n) (hm : memory.messages a time = some m)
    (hnone : memory.messages a (time + 1) = none) : time = n ∧ m.value.toNat = n := by
  have hle := h.value_le hm
  have htime := h.value time m hm
  have hnot : ¬ time + 1 ≤ n := by
    rw [← h.some_iff, hnone]
    exact Bool.false_ne_true
  omega

theorem Counts.put (h : Counts memory a n) (hv : m.value.toNat = n + 1) :
    Counts (memory.put a (n + 1) m) a (n + 1) := by
  refine ⟨fun time m' hm' => ?_, fun time => ?_⟩
  · rcases Memory.put_cases hm' with ⟨-, rfl, rfl⟩ | hm'
    · exact hv
    · exact h.value time m' hm'
  · by_cases ht : time = n + 1
    · subst ht
      rw [Memory.put_self]
      exact ⟨fun _ => Nat.le_refl _, fun _ => rfl⟩
    · rw [Memory.put_of_ne_time ht, h.some_iff]
      omega

theorem Counts.congr {memory' : IngressMemory Tid} (h : Counts memory a n)
    (hmessages : memory'.messages a = memory.messages a) : Counts memory' a n :=
  ⟨by rw [hmessages]; exact h.value, by rw [hmessages]; exact h.some_iff⟩

theorem Ascending.congr {memory' : IngressMemory Tid} (h : Ascending memory a)
    (hmessages : memory'.messages a = memory.messages a) : Ascending memory' a := by
  unfold Ascending
  rw [hmessages]
  exact h

theorem Ascending.put {m₀ : Message Atomic ℕ UInt64} {time₀ : ℕ} (h : Ascending memory a)
    (hlast : memory.Last a time₀ m₀) (hlt : time₀ < time)
    (hv : m₀.value.toNat < m.value.toNat) : Ascending (memory.put a time m) a := by
  -- an old message is not above the last one
  have hold {time' : ℕ} {m' : Message Atomic ℕ UInt64} (hm' : memory.messages a time' = some m') :
      time' < time ∧ m'.value.toNat < m.value.toNat := by
    have hle := hlast.time_le hm'
    refine ⟨by omega, ?_⟩
    rcases Nat.lt_or_eq_of_le hle with hlt' | rfl
    · exact Nat.lt_trans (h time' time₀ m' m₀ hm' hlast.1 hlt') hv
    · rw [hlast.1] at hm'
      cases hm'
      exact hv
  intro time₁ time₂ m₁ m₂ hm₁ hm₂ h12
  rcases Memory.put_cases hm₁ with ⟨-, ht₁, e₁⟩ | h₁ <;>
    rcases Memory.put_cases hm₂ with ⟨-, ht₂, e₂⟩ | h₂
  · omega
  · have := (hold h₂).1
    omega
  · rw [e₂]
    exact (hold h₁).2
  · exact h time₁ time₂ m₁ m₂ h₁ h₂ h12

end

/-! ## what a step leaves alone -/

section
variable {Tid α : Type} [DecidableEq Tid] {moved : α → α} {x y : Ordered Tid α} {t : Tid} {c : ℕ}

theorem Touches.holds_iff (h : Touches x y t c) {u : Tid} (hu : u ≠ t) (c' : ℕ) :
    y.queue.Holds u c' ↔ x.queue.Holds u c' := by
  unfold Queue.Holds
  rw [h.pc u hu, h.size]

theorem Touches.published (h : Touches x y t c) {c' : ℕ} (hc : c' ≠ c) (hx : ¬ x.queue.Holds t c')
    (hp : x.Published c') : y.Published c' := by
  obtain ⟨hasc, time, m, hlast, hvalue, hcovers⟩ := hp
  refine ⟨hasc.congr (h.messages c' hc), time, m, ?_, ?_, fun hunheld => ?_⟩
  · unfold Memory.Last
    rw [h.messages c' hc]
    exact hlast
  · rw [h.cells c' hc]
    exact hvalue
  · rw [h.accesses c' hc]
    refine hcovers fun u hu => ?_
    by_cases hut : u = t
    · exact hx (hut ▸ hu)
    · exact hunheld u ((h.holds_iff hut c').mpr hu)

theorem Touches.owns (h : Touches x y t c) {u : Tid} (hu : u ≠ t) {c' : ℕ} (hc : c' ≠ c)
    (ho : x.Owns u c') : y.Owns u c' := by
  unfold Owns Memory.RaceFree Memory.Last
  rw [h.view u hu, h.accesses c' hc, h.messages c' hc]
  exact ho

theorem Touches.informed (h : Touches x y t c) {u : Tid} (hu : u ≠ t) {p : IngressPc α}
    (hi : x.Informed u p) : y.Informed u p := by
  have hseen {q : UInt64} {n : ℕ} (hs : x.Seen u q n) : y.Seen u q n := by
    obtain ⟨m, hm, hle⟩ := hs
    refine ⟨m, ?_, hle⟩
    rw [h.size, h.view u hu]
    by_cases hc : q.toNat % x.queue.size = c
    · rw [hc] at hm ⊢
      exact h.keeps _ _ hm
    · rw [h.messages _ hc]
      exact hm
  cases p with
  | pushExchange item q => exact hseen hi
  | popExchange q => exact hseen hi
  | _ => trivial

theorem informed_of_inside {p : IngressPc α} {q : UInt64} (h : p.inside = some q) : x.Informed t p := by
  cases p with
  | pushExchange item r => cases h
  | popExchange r => cases h
  | _ => trivial

theorem Inv.holds_lt (h : x.Inv moved) {c : ℕ} (hh : x.queue.Holds t c) : c < x.queue.size := by
  obtain ⟨g, hg⟩ := h.queue
  obtain ⟨p, -, rfl⟩ := hh
  exact hg.mod_lt _

/-- no two threads are inside a cell -/
theorem Inv.holds_unique (h : x.Inv moved) {u : Tid} (ht : x.queue.Holds t c)
    (hu : x.queue.Holds u c) : u = t := by
  obtain ⟨g, hg⟩ := h.queue
  obtain ⟨p, hp, rfl⟩ := ht
  obtain ⟨q, hq, hqp⟩ := hu
  have ho := (hg.inside_owner hq).2
  rw [hqp, (hg.inside_owner hp).2] at ho
  exact (Option.some.inj ho).symm

/-- **frame**: what is left to show for the thread `t` and the cell `c` -/
theorem Inv.frame (h : x.Inv moved) (hframe : Touches x y t c)
    (hqueue : ∃ g, y.queue.Inv moved g) (hwf : y.memory.Wf Atomic.Synchronizes)
    (henqueue : Counts y.memory .enqueue y.queue.pushes.length)
    (hdequeue : Counts y.memory .dequeue y.queue.pops)
    (hx : ∀ c', x.queue.Holds t c' → c' = c) (hy : ∀ c', y.queue.Holds t c' → c' = c)
    (hother : ∀ u, x.queue.Holds u c → u = t) (hpublished : c < x.queue.size → y.Published c)
    (howns : y.queue.Holds t c → y.Owns t c) (hinformed : y.Informed t (y.queue.pc t)) :
    y.Inv moved := by
  refine ⟨hqueue, hwf, henqueue, hdequeue, fun c' hc' => ?_, fun u c' hu => ?_, fun u => ?_⟩
  · rw [hframe.size] at hc'
    by_cases hc : c' = c
    · subst hc
      exact hpublished hc'
    · exact hframe.published hc (fun hh => hc (hx c' hh)) (h.published c' hc')
  · by_cases hut : u = t
    · subst hut
      have hc := hy c' hu
      subst hc
      exact howns hu
    · have hu' := (hframe.holds_iff hut c').mp hu
      refine hframe.owns hut ?_ (h.owns u c' hu')
      rintro rfl
      exact hut (hother u hu')
  · by_cases hut : u = t
    · subst hut
      exact hinformed
    · rw [hframe.pc u hut]
      exact hframe.informed hut (h.informed u)

end

/-! ## the steps -/

section
variable {Tid α : Type} [DecidableEq Tid] {moved : α → α} {x : Ordered Tid α} {t : Tid}

/-- a load or a call: a thread outside all cells moves, and at most its view changes -/
theorem Inv.quiet (h : x.Inv moved) {p : IngressPc α} {v : View Atomic ℕ}
    (hin : (x.queue.pc t).inside = none) (hp : p.inside = none)
    (hok : ∀ g, x.queue.Inv moved g → x.queue.ThreadOk g t p)
    (hv : x.memory.Sound Atomic.Synchronizes v)
    (hinformed : Informed ⟨x.queue.goto t p, x.memory.look t v⟩ t p) :
    Inv moved ⟨x.queue.goto t p, x.memory.look t v⟩ := by
  obtain ⟨g, hg⟩ := h.queue
  have hself : (x.queue.goto t p).pc t = p := Function.update_self ..
  -- no cell is touched
  have hframe : Touches x ⟨x.queue.goto t p, x.memory.look t v⟩ t x.queue.size :=
    ⟨rfl, fun _ _ => rfl, fun u hu => Function.update_of_ne hu .., fun _ _ => rfl, fun _ _ hm => hm,
      fun _ _ => rfl, fun u hu => Memory.look_of_ne hu⟩
  refine h.frame hframe ⟨g, hg.outside hin (hok g hg)⟩ (h.wf.look hv) (h.enqueue.congr rfl)
    (h.dequeue.congr rfl) ?_ ?_ ?_ (fun hlt => absurd hlt (Nat.lt_irrefl _)) ?_ ?_
  · rintro c' ⟨q, hq, -⟩
    rw [hin] at hq
    cases hq
  · rintro c' ⟨q, hq, -⟩
    rw [hself, hp] at hq
    cases hq
  · intro u hu
    exact absurd (h.holds_lt hu) (Nat.lt_irrefl _)
  · rintro ⟨q, hq, -⟩
    rw [hself, hp] at hq
    cases hq
  · rw [hself]
    exact hinformed

/-- **who wins the exchange has read the last message** -/
theorem Inv.read_last (h : x.Inv moved) {p : UInt64} {n : ℕ} (hseen : x.Seen t p n)
    (hn : (x.queue.cells (p.toNat % x.queue.size)).sequence.toNat = n)
    (hfree : ∀ u, ¬ x.queue.Holds u (p.toNat % x.queue.size)) :
    x.Owns t (p.toNat % x.queue.size) := by
  obtain ⟨g, hg⟩ := h.queue
  obtain ⟨hasc, time, m, hlast, hvalue, hcovers⟩ := h.published _ (hg.mod_lt p.toNat)
  obtain ⟨m', hm', hle⟩ := hseen
  have htime : x.memory.view t (.inl (.sequence (p.toNat % x.queue.size))) = time := by
    refine Nat.le_antisymm (hlast.time_le hm') (Nat.le_of_not_lt fun hlt => ?_)
    have := hasc _ _ m' m hm' hlast.1 hlt
    rw [hvalue, hn] at this
    omega
  rw [htime, hlast.1] at hm'
  cases hm'
  refine ⟨h.wf.covers (show Atomic.Synchronizes (.sequence _) from trivial)
    (by rw [htime]; exact hlast.1) (hcovers hfree), m, ?_⟩
  rw [htime]
  exact hlast

/-- no thread is inside a cell without an owner -/
theorem Inv.unheld (h : x.Inv moved) {g : ℕ → ℕ × Phase Tid} (hg : x.queue.Inv moved g) {c : ℕ}
    (hc : (g c).2.owner = none) (u : Tid) : ¬ x.queue.Holds u c := by
  rintro ⟨q, hq, rfl⟩
  rw [(hg.inside_owner hq).2] at hc
  cases hc

/-- a thread wins an exchange and is inside the cell -/
theorem Inv.enter (h : x.Inv moved) {q : Queue Tid α} {p value : UInt64} {a : Atomic} {time : ℕ}
    {m : Message Atomic ℕ UInt64} (ha : ¬ a.Synchronizes) (hr : x.memory.Reads t a time m)
    (hnone : x.memory.messages a (time + 1) = none) (hin : (x.queue.pc t).inside = none)
    (hqueue : ∃ g, q.Inv moved g) (hsize : q.size = x.queue.size) (hcells : q.cells = x.queue.cells)
    (hpc : ∀ u, u ≠ t → q.pc u = x.queue.pc u) (hpt : (q.pc t).inside = some p)
    (henqueue : Counts (x.memory.exchange t a time m value) .enqueue q.pushes.length)
    (hdequeue : Counts (x.memory.exchange t a time m value) .dequeue q.pops)
    (hfree : ∀ u, ¬ x.queue.Holds u (p.toNat % x.queue.size))
    (howns : x.Owns t (p.toNat % x.queue.size)) : Inv moved ⟨q, x.memory.exchange t a time m value⟩ := by
  have hseq (c : ℕ) : (x.memory.exchange t a time m value).messages (.sequence c)
      = x.memory.messages (.sequence c) := by
    refine Memory.exchange_of_ne ?_
    rintro rfl
    exact ha trivial
  have hholds : q.Holds t (p.toNat % x.queue.size) := ⟨p, hpt, by rw [hsize]⟩
  have hframe : Touches x ⟨q, x.memory.exchange t a time m value⟩ t (p.toNat % x.queue.size) :=
    ⟨hsize, fun c' _ => by rw [hcells], hpc, fun c' _ => hseq c', fun time m hm => by rw [hseq, hm],
      fun _ _ => rfl, fun u hu => Memory.look_of_ne hu⟩
  refine h.frame hframe hqueue (h.wf.exchange ha hr hnone) henqueue hdequeue ?_ ?_
    (fun u hu => absurd hu (hfree u)) (fun hlt => ?_) (fun _ => ?_) (informed_of_inside hpt)
  · rintro c' ⟨q', hq', -⟩
    rw [hin] at hq'
    cases hq'
  · rintro c' ⟨q', hq', rfl⟩
    rw [hpt] at hq'
    cases hq'
    rw [hsize]
  · obtain ⟨hasc, time', m', hlast, hvalue, -⟩ := h.published _ hlt
    refine ⟨hasc.congr (hseq _), time', m', ?_, ?_, fun hunheld => absurd hholds (hunheld t)⟩
    · unfold Memory.Last
      rw [hseq]
      exact hlast
    · rw [hcells]
      exact hvalue
  · -- the exchange changes the view at the counter only
    have hview (l : Atomic ⊕ ℕ) (hl : l ≠ .inl a) :
        (x.memory.exchange t a time m value).view t l = x.memory.view t l := by
      unfold Memory.exchange
      rw [Memory.look_self, Function.update_of_ne hl]
    have hne : (Sum.inl (Atomic.sequence (p.toNat % x.queue.size)) : Atomic ⊕ ℕ) ≠ .inl a := by
      intro he
      rw [← Sum.inl.inj he] at ha
      exact ha trivial
    unfold Owns Memory.RaceFree Memory.Last
    rw [hview _ Sum.inr_ne_inl, hview _ hne, hseq]
    exact howns

/-- a thread inside a cell accesses its value -/
theorem Inv.plain (h : x.Inv moved) {p : UInt64} {pc : IngressPc α} {v : Option α}
    (hin : (x.queue.pc t).inside = some p) (hpc : pc.inside = some p)
    (hqueue : ∃ g, ((x.queue.setCell p { x.queue.cell p with value := v }).goto t pc).Inv moved g) :
    Inv moved ⟨(x.queue.setCell p { x.queue.cell p with value := v }).goto t pc,
      x.memory.access t (x.queue.index p)⟩ := by
  obtain ⟨g, hg⟩ := h.queue
  rw [hg.index_eq]
  have hself : ((x.queue.setCell p { x.queue.cell p with value := v }).goto t pc).pc t = pc :=
    Function.update_self ..
  have hx : x.queue.Holds t (p.toNat % x.queue.size) := ⟨p, hin, rfl⟩
  have hy : ((x.queue.setCell p { x.queue.cell p with value := v }).goto t pc).Holds t
      (p.toNat % x.queue.size) := ⟨p, by rw [hself, hpc], rfl⟩
  have hframe : Touches x
      ⟨(x.queue.setCell p { x.queue.cell p with value := v }).goto t pc,
        x.memory.access t (p.toNat % x.queue.size)⟩ t (p.toNat % x.queue.size) :=
    ⟨rfl, fun c' hc' => hg.cells_setCell_ne p _ hc', fun u hu => Function.update_of_ne hu ..,
      fun _ _ => rfl, fun _ _ hm => hm, fun c' hc' => Function.update_of_ne hc' ..,
      fun u hu => Memory.look_of_ne hu⟩
  refine h.frame hframe hqueue h.wf.access (h.enqueue.congr rfl) (h.dequeue.congr rfl) ?_ ?_
    (fun u hu => h.holds_unique hx hu) (fun hlt => ?_) (fun _ => ?_) ?_
  · rintro c' ⟨q', hq', rfl⟩
    rw [hin] at hq'
    cases hq'
    rfl
  · rintro c' ⟨q', hq', rfl⟩
    rw [hself, hpc] at hq'
    cases hq'
    rfl
  · obtain ⟨hasc, time', m', hlast, hvalue, -⟩ := h.published _ hlt
    exact ⟨hasc, time', m', hlast, hvalue.trans (hg.writeValue_cell p v).1.symm,
      fun hunheld => absurd hy (hunheld t)⟩
  · obtain ⟨-, m', hlast⟩ := h.owns t _ hx
    have hview (l : Atomic ⊕ ℕ) : (x.memory.access t (p.toNat % x.queue.size)).view t l
        = Function.update (x.memory.view t) (.inr (p.toNat % x.queue.size))
            (x.memory.accesses (p.toNat % x.queue.size) + 1) l := by
      show Function.update x.memory.view t _ t l = _
      rw [Function.update_self]
    refine ⟨?_, m', ?_⟩
    · show (x.memory.access t (p.toNat % x.queue.size)).view t _
        = Function.update x.memory.accesses _ _ _
      rw [hview, Function.update_self, Function.update_self]
    · show (x.memory.access t (p.toNat % x.queue.size)).Last _
        ((x.memory.access t (p.toNat % x.queue.size)).view t _) m'
      rw [hview, Function.update_of_ne Sum.inl_ne_inr]
      exact hlast
  · show Informed _ t (((x.queue.setCell p { x.queue.cell p with value := v }).goto t pc).pc t)
    rw [hself]
    exact informed_of_inside hpc

/-- a thread stores the sequence number of its cell and leaves it -/
theorem Inv.leave (h : x.Inv moved) {q : Queue Tid α} {p value : UInt64} {time : ℕ}
    (hin : (x.queue.pc t).inside = some p) (hqueue : ∃ g, q.Inv moved g)
    (hsize : q.size = x.queue.size)
    (hcells : ∀ c, c ≠ p.toNat % x.queue.size → q.cells c = x.queue.cells c)
    (hseq : (q.cells (p.toNat % x.queue.size)).sequence = value)
    (hvalue : (x.queue.cells (p.toNat % x.queue.size)).sequence.toNat < value.toNat)
    (hpc : ∀ u, u ≠ t → q.pc u = x.queue.pc u) (hpt : q.pc t = .idle)
    (hpushes : q.pushes = x.queue.pushes) (hpops : q.pops = x.queue.pops)
    (hlt : x.memory.view t (.inl (.sequence (p.toNat % x.queue.size))) < time)
    (hnone : x.memory.messages (.sequence (p.toNat % x.queue.size)) time = none) :
    Inv moved ⟨q, x.memory.release t (.sequence (p.toNat % x.queue.size)) time value⟩ := by
  have hx : x.queue.Holds t (p.toNat % x.queue.size) := ⟨p, hin, rfl⟩
  have hy (c : ℕ) : ¬ q.Holds t c := by
    rintro ⟨q', hq', -⟩
    rw [hpt] at hq'
    cases hq'
  obtain ⟨hfree, m', hlast⟩ := h.owns t _ hx
  have hframe : Touches x
      ⟨q, x.memory.release t (.sequence (p.toNat % x.queue.size)) time value⟩ t
      (p.toNat % x.queue.size) :=
    ⟨hsize, hcells, hpc, fun c' hc' => Memory.release_of_ne fun he => hc' (Atomic.sequence.inj he),
      fun _ _ => Memory.put_keeps hnone, fun _ _ => rfl, fun u hu => Memory.look_of_ne hu⟩
  refine h.frame hframe hqueue (h.wf.release hlt hnone) ?_ ?_ ?_ (fun c hc => absurd hc (hy c))
    (fun u hu => h.holds_unique hx hu) (fun hc => ?_) (fun hc => absurd hc (hy _)) ?_
  · rw [hpushes]
    exact h.enqueue.congr (Memory.release_of_ne Atomic.noConfusion)
  · rw [hpops]
    exact h.dequeue.congr (Memory.release_of_ne Atomic.noConfusion)
  · rintro c' ⟨q', hq', rfl⟩
    rw [hin] at hq'
    cases hq'
    rfl
  · obtain ⟨hasc, time₀, m₀, hlast₀, hvalue₀, -⟩ := h.published _ hc
    have hm₀ : m₀ = m' ∧ time₀ = x.memory.view t (.inl (.sequence (p.toNat % x.queue.size))) := by
      have htime := Nat.le_antisymm (hlast.time_le hlast₀.1) (hlast₀.time_le hlast.1)
      have := hlast₀.1
      rw [htime, hlast.1] at this
      exact ⟨(Option.some.inj this).symm, htime⟩
    obtain ⟨rfl, -⟩ := hm₀
    refine ⟨hasc.put hlast hlt (by rw [hvalue₀]; exact hvalue), time, _, hlast.put hlt, hseq.symm,
      fun _ => ?_⟩
    have hview : Function.update (x.memory.view t) (.inl (.sequence (p.toNat % x.queue.size))) time
        (.inr (p.toNat % x.queue.size)) = x.memory.accesses (p.toNat % x.queue.size) := by
      rw [Function.update_of_ne Sum.inr_ne_inl]
      exact hfree
    exact hview
  · show Informed _ t (q.pc t)
    rw [hpt]
    trivial

/-- a load of a counter -/
theorem Inv.load (h : x.Inv moved) {p : IngressPc α} {a : Atomic} {time : ℕ}
    {m : Message Atomic ℕ UInt64} (ha : ¬ a.Synchronizes) (hr : x.memory.Reads t a time m)
    (hin : (x.queue.pc t).inside = none) (hp : p.inside = none)
    (hok : ∀ g, x.queue.Inv moved g → x.queue.ThreadOk g t p)
    (hinformed : Informed ⟨x.queue.goto t p, x.memory.relaxed t a time⟩ t p) :
    Inv moved ⟨x.queue.goto t p, x.memory.relaxed t a time⟩ :=
  h.quiet hin hp hok ((h.wf.thread t).update_inl ha hr.2) hinformed

/-- a call -/
theorem Inv.call (h : x.Inv moved) {p : IngressPc α} (hin : (x.queue.pc t).inside = none)
    (hp : p.inside = none) (hok : ∀ g, x.queue.Inv moved g → x.queue.ThreadOk g t p)
    (hinformed : ∀ y : Ordered Tid α, y.Informed t p) : Inv moved ⟨x.queue.goto t p, x.memory⟩ := by
  have hquiet := h.quiet hin hp hok (h.wf.thread t) (hinformed _)
  rwa [show x.memory.look t (x.memory.view t) = x.memory by
    rw [Memory.look, Function.update_eq_self]] at hquiet

/-- a message of a cell is not ahead of the current sequence number -/
theorem Inv.message_le (h : x.Inv moved) {c time : ℕ} {m : Message Atomic ℕ UInt64}
    (hc : c < x.queue.size) (hm : x.memory.messages (.sequence c) time = some m) :
    m.value.toNat ≤ (x.queue.cells c).sequence.toNat := by
  obtain ⟨hasc, time', m', hlast, hvalue, -⟩ := h.published c hc
  rw [← hvalue]
  rcases Nat.lt_or_eq_of_le (hlast.time_le hm) with hlt | rfl
  · exact Nat.le_of_lt (hasc _ _ m m' hm hlast.1 hlt)
  · rw [hlast.1] at hm
    cases hm
    exact Nat.le_refl _

theorem sequenceOf_eq {g : ℕ → ℕ × Phase Tid} (hg : x.queue.Inv moved g) (p : UInt64) :
    x.sequenceOf p = .sequence (p.toNat % x.queue.size) := by
  rw [sequenceOf, hg.index_eq]

/-- a load of the sequence number of a cell -/
theorem Inv.loadSequence (h : x.Inv moved) {q : UInt64} {p : IngressPc α} {time : ℕ}
    {m : Message Atomic ℕ UInt64}
    (hr : x.memory.Reads t (.sequence (q.toNat % x.queue.size)) time m)
    (hin : (x.queue.pc t).inside = none) (hp : p.inside = none)
    (hok : ∀ g, x.queue.Inv moved g → x.queue.ThreadOk g t p)
    (hinformed : ∀ y : Ordered Tid α, y.Seen t q m.value.toNat → y.Informed t p) :
    Inv moved ⟨x.queue.goto t p, x.memory.acquire t m⟩ := by
  have hsync : Atomic.Synchronizes (.sequence (q.toNat % x.queue.size)) := trivial
  refine h.quiet hin hp hok ((h.wf.thread t).sup (h.wf.message _ time m hsync hr.1))
    (hinformed _ ⟨m, ?_, Nat.le_refl _⟩)
  have hview := h.wf.acquire_view hr
  show x.memory.messages (.sequence (q.toNat % x.queue.size)) ((x.memory.acquire t m).view t _) = _
  exact (congrArg _ hview).trans hr.1

end

/-! ## every run -/

section
variable {Tid α : Type} [DecidableEq Tid] {moved : α → α} {x y : Ordered Tid α}

theorem init_inv {capacity : UInt64} {k : ℕ} (h1 : 1 ≤ k) (h2 : k ≤ 62)
    (hc : capacity.toNat = 2^k) : (init capacity : Ordered Tid α).Inv moved := by
  have hcounts {a : Atomic} (ha : a = .enqueue ∨ a = .dequeue) :
      Counts (init capacity : Ordered Tid α).memory a 0 := by
    refine ⟨fun time m hm => ?_, fun time => ?_⟩
    · obtain ⟨rfl, rfl⟩ := Memory.init_messages hm
      rcases ha with rfl | rfl <;> rfl
    · cases time with
      | zero => exact ⟨fun _ => Nat.le_refl _, fun _ => rfl⟩
      | succ time =>
        exact ⟨fun hs => absurd hs Bool.false_ne_true, fun hle => absurd hle (Nat.not_succ_le_zero _)⟩
  refine ⟨⟨_, Queue.init_inv h1 h2 hc⟩, Memory.init_wf _, hcounts (.inl rfl), hcounts (.inr rfl),
    fun c _ => ⟨?_, 0, _, ⟨rfl, fun later hlt => if_neg (Nat.ne_of_gt hlt)⟩, rfl, fun _ => rfl⟩, ?_,
    fun _ => trivial⟩
  · intro time time' m m' hm hm' hlt
    obtain ⟨rfl, -⟩ := Memory.init_messages hm
    obtain ⟨rfl, -⟩ := Memory.init_messages hm'
    exact absurd hlt (Nat.lt_irrefl _)
  · rintro t c ⟨q, hq, -⟩
    cases hq

theorem operations_mono (hstep : Step moved x y) :
    x.queue.pushes.length ≤ y.queue.pushes.length ∧ x.queue.pops ≤ y.queue.pops := by
  cases hstep <;> refine ⟨?_, ?_⟩ <;>
    first
      | exact le_refl _
      | exact Nat.le_succ _
      | (show _ ≤ (x.queue.pushes ++ [_]).length; rw [List.length_append]; exact Nat.le_add_right _ _)

theorem step_inv (h : x.Inv moved) (hstep : Step moved x y) (hops : x.queue.pushes.length < 2^62) :
    y.Inv moved := by
  obtain ⟨g, hg⟩ := h.queue
  have hpops := hg.pops_le
  cases hstep with
  | tryPush t item hpc => exact h.call (by rw [hpc]; rfl) rfl (fun _ _ => trivial) fun _ => trivial
  | tryPop t hpc => exact h.call (by rw [hpc]; rfl) rfl (fun _ _ => trivial) fun _ => trivial
  | pushLoad t item time m hpc hr =>
    exact h.load not_false hr (by rw [hpc]; rfl) rfl (fun _ _ => h.enqueue.value_le hr.1) trivial
  | popLoad t time m hpc hr =>
    exact h.load not_false hr (by rw [hpc]; rfl) rfl (fun _ _ => h.dequeue.value_le hr.1) trivial
  | pushFail t item p time m hpc hr =>
    exact h.load not_false hr (by rw [hpc]; rfl) rfl (fun _ _ => h.enqueue.value_le hr.1) trivial
  | popFail t p time m hpc hr =>
    exact h.load not_false hr (by rw [hpc]; rfl) rfl (fun _ _ => h.dequeue.value_le hr.1) trivial
  | pushSequence t item p time m hpc hr =>
    have ht := hg.threads t
    rw [hpc] at ht
    have hp : p.toNat ≤ x.queue.pushes.length := ht
    rw [sequenceOf_eq hg] at hr
    have hle := h.message_le (hg.mod_lt _) hr.1
    have hlt := hg.sequence_lt hops (hg.mod_lt p.toNat)
    -- an old sequence number that is the position is not ahead of the current one
    have hzero := difference_eq_zero (a := m.value) (b := p) (by omega) (by omega)
    have hcases : Queue.pushBranch item p m.value = .pushExchange item p ∧ m.value.toNat = p.toNat ∨
        Queue.pushBranch item p m.value = .idle ∨
        Queue.pushBranch item p m.value = .pushLoad item := by
      unfold Queue.pushBranch
      split_ifs with h0 hneg
      · exact .inl ⟨rfl, hzero.mp h0⟩
      · exact .inr (.inl rfl)
      · exact .inr (.inr rfl)
    refine h.loadSequence hr (by rw [hpc]; rfl) ?_ (fun _ _ => ?_) fun y hseen => ?_
    · rcases hcases with ⟨e, -⟩ | e | e <;> rw [e] <;> rfl
    · rcases hcases with ⟨e, hv⟩ | e | e <;> rw [e]
      · exact ⟨hp, by omega⟩
      · trivial
      · trivial
    · rcases hcases with ⟨e, hv⟩ | e | e <;> rw [e]
      · rw [hv] at hseen
        exact hseen
      · trivial
      · trivial
  | popSequence t p time m hpc hr =>
    have ht := hg.threads t
    rw [hpc] at ht
    have hp : p.toNat ≤ x.queue.pops := ht
    have hsucc : (p + 1).toNat = p.toNat + 1 := toNat_succ_of_lt (by omega)
    rw [sequenceOf_eq hg] at hr
    have hle := h.message_le (hg.mod_lt _) hr.1
    have hlt := hg.sequence_lt hops (hg.mod_lt p.toNat)
    have hzero := difference_eq_zero (a := m.value) (b := p + 1) (by omega) (by omega)
    have hcases : (Queue.popBranch p m.value : IngressPc α) = .popExchange p ∧
          m.value.toNat = p.toNat + 1 ∨
        (Queue.popBranch p m.value : IngressPc α) = .idle ∨
        (Queue.popBranch p m.value : IngressPc α) = .popLoad := by
      unfold Queue.popBranch
      split_ifs with h0 hneg
      · exact .inl ⟨rfl, (hzero.mp h0).trans hsucc⟩
      · exact .inr (.inl rfl)
      · exact .inr (.inr rfl)
    refine h.loadSequence hr (by rw [hpc]; rfl) ?_ (fun _ _ => ?_) fun y hseen => ?_
    · rcases hcases with ⟨e, -⟩ | e | e <;> rw [e] <;> rfl
    · rcases hcases with ⟨e, hv⟩ | e | e <;> rw [e]
      · exact ⟨hp, by omega⟩
      · trivial
      · trivial
    · rcases hcases with ⟨e, hv⟩ | e | e <;> rw [e]
      · rw [hv] at hseen
        exact hseen
      · trivial
      · trivial
  | pushExchange t item p time m hpc hr hv hnone =>
    obtain ⟨htime, hvalue⟩ := h.enqueue.value_eq hr.1 hnone
    rw [hv] at hvalue
    have he : x.queue.enqueue = p := UInt64.toNat.inj (by rw [hg.enqueue, hvalue])
    have ht := hg.threads t
    have hi := h.informed t
    rw [hpc] at ht hi
    have hfree := hg.free_of_exchange hvalue ht.2
    have hcell := (hg.cell_at hfree).2.1
    have hunheld := h.unheld hg (c := p.toNat % x.queue.size) (by rw [hfree]; rfl)
    have hsucc : (p + 1).toNat = p.toNat + 1 := toNat_succ_of_lt (by omega)
    have hself : Function.update x.queue.pc t (.pushWrite item p) t = .pushWrite item p :=
      Function.update_self ..
    refine h.enter (p := p) not_false hr hnone (by rw [hpc]; rfl) (hg.pushExchange hpc he hops) rfl rfl
      (fun u hu => Function.update_of_ne hu ..) (congrArg IngressPc.inside hself) ?_ ?_ hunheld
      (h.read_last hi hcell hunheld)
    · show Counts _ _ (x.queue.pushes ++ [(t, item)]).length
      rw [List.length_append, List.length_singleton, ← htime]
      rw [← htime] at hvalue
      have hput := (htime ▸ h.enqueue : Counts x.memory .enqueue time).put
        (m := ⟨p + 1, Function.update m.view (.inl .enqueue) (time + 1)⟩) (by rw [hsucc, hvalue])
      exact hput.congr rfl
    · exact h.dequeue.congr (Memory.exchange_of_ne Atomic.noConfusion)
  | popExchange t p time m hpc hr hv hnone =>
    obtain ⟨htime, hvalue⟩ := h.dequeue.value_eq hr.1 hnone
    rw [hv] at hvalue
    have he : x.queue.dequeue = p := UInt64.toNat.inj (by rw [hg.dequeue, hvalue])
    have ht := hg.threads t
    have hi := h.informed t
    rw [hpc] at ht hi
    have hfull := hg.full_of_exchange hvalue ht.2
    have hcell := (hg.cell_at hfull).2.1
    have hunheld := h.unheld hg (c := p.toNat % x.queue.size) (by rw [hfull]; rfl)
    have hsucc : (p + 1).toNat = p.toNat + 1 := toNat_succ_of_lt (by omega)
    have hself : Function.update x.queue.pc t (.popMove p) t = .popMove p := Function.update_self ..
    refine h.enter (p := p) not_false hr hnone (by rw [hpc]; rfl) (hg.popExchange hpc he hops) rfl rfl
      (fun u hu => Function.update_of_ne hu ..) (congrArg IngressPc.inside hself) ?_ ?_ hunheld
      (h.read_last hi hcell hunheld)
    · exact h.enqueue.congr (Memory.exchange_of_ne Atomic.noConfusion)
    · show Counts _ _ (x.queue.pops + 1)
      rw [← htime] at hvalue ⊢
      have hput := (htime ▸ h.dequeue : Counts x.memory .dequeue time).put
        (m := ⟨p + 1, Function.update m.view (.inl .dequeue) (time + 1)⟩) (by rw [hsucc, hvalue])
      exact hput.congr rfl
  | pushWrite t item p hpc => exact h.plain (by rw [hpc]; rfl) rfl ⟨g, hg.pushWrite hpc⟩
  | popMove t p hpc => exact h.plain (by rw [hpc]; rfl) rfl ⟨g, hg.popMove hpc⟩
  | popReset t p r hpc => exact h.plain (by rw [hpc]; rfl) rfl ⟨g, hg.popReset hpc⟩
  | pushStore t item p time hpc hlt hnone =>
    have ht := hg.threads t
    rw [hpc] at ht
    obtain ⟨hmod, h1, h2, h3, -⟩ := hg.cell_at ht.1
    dsimp only at h1 h3
    have hsucc : (p + 1).toNat = p.toNat + 1 := toNat_succ_of_lt (by omega)
    rw [sequenceOf_eq hg] at hlt hnone ⊢
    exact h.leave (by rw [hpc]; rfl) (hg.pushStore hpc hops) rfl
      (fun c hc => hg.cells_setCell_ne p _ hc) (congrArg Cell.sequence (hg.cells_setCell p _))
      (by omega) (fun u hu => Function.update_of_ne hu ..) (Function.update_self ..) rfl rfl hlt hnone
  | popStore t p r time hpc hlt hnone =>
    have ht := hg.threads t
    rw [hpc] at ht
    obtain ⟨hmod, h1, h2, -⟩ := hg.cell_at ht
    dsimp only at h1 h2
    have hsize := hg.size_le
    have htwo := hg.two_le
    have hnext : (p + x.queue.capacity).toNat = p.toNat + x.queue.size :=
      toNat_add_of_lt (by show p.toNat + x.queue.size < 2^64; omega)
    rw [sequenceOf_eq hg] at hlt hnone ⊢
    exact h.leave (by rw [hpc]; rfl) (hg.popStore hpc hops) rfl
      (fun c hc => hg.cells_setCell_ne p _ hc) (congrArg Cell.sequence (hg.cells_setCell p _))
      (by omega) (fun u hu => Function.update_of_ne hu ..) (Function.update_self ..) rfl rfl hlt hnone

theorem run_inv (h : x.Inv moved) (hrun : Relation.ReflTransGen (Step moved) x y)
    (hops : y.queue.operations < 2^62) : y.Inv moved := by
  induction hrun with
  | refl => exact h
  | tail _ hstep ih =>
    obtain ⟨hpushes, hpops⟩ := operations_mono hstep
    unfold Queue.operations at hops ih
    exact step_inv (ih (by omega)) hstep (by omega)

end

end Ordered

/-- the position of the cell whose value the thread accesses next -/
def IngressPc.plain {α : Type} : IngressPc α → Option UInt64
  | .pushWrite _ p => some p
  | .popMove p => some p
  | .popReset p _ => some p
  | _ => none

theorem IngressPc.inside_of_plain {α : Type} {pc : IngressPc α} {p : UInt64} (h : pc.plain = some p) :
    pc.inside = some p := by
  cases pc <;> first | exact h | cases h

/-- **The memory orders suffice.**  With relaxed counters, and release and acquire on the sequence numbers
only: whenever a thread is about to access the value of a cell, all earlier accesses to that value happen
before; and the queue is as safe as with sequential consistency: tickets are distinct, the pop of a ticket
returns the value of its push, the tickets of a producer increase, and no two threads are inside a cell. -/
theorem memory_orders_suffice {Tid α : Type} [DecidableEq Tid] (moved : α → α) {capacity : UInt64}
    {k : ℕ} (h1 : 1 ≤ k) (h2 : k ≤ 62) (hcapacity : capacity.toNat = 2^k) {x : Ordered Tid α}
    (hrun : Relation.ReflTransGen (Ordered.Step moved) (.init capacity) x)
    (hops : x.queue.operations < 2^62) :
    (∀ t p, (x.queue.pc t).plain = some p → x.memory.RaceFree t (x.queue.index p)) ∧
    (x.queue.pushed.map Prod.fst).Nodup ∧ (x.queue.popped.map Prod.fst).Nodup ∧
    (∀ i t a, (i, t, a) ∈ x.queue.pushed → x.queue.pushes[i]? = some (t, a)) ∧
    (∀ i t r, (i, t, r) ∈ x.queue.popped →
      ∃ t' a, x.queue.pushes[i]? = some (t', a) ∧ r = some a) ∧
    (x.queue.pushed.Pairwise fun u v => u.2.1 = v.2.1 → u.1 < v.1) ∧
    ∀ t t' p p', (x.queue.pc t).inside = some p → (x.queue.pc t').inside = some p' →
      x.queue.index p = x.queue.index p' → t = t' := by
  have h := Ordered.run_inv (Ordered.init_inv h1 h2 hcapacity) hrun hops
  obtain ⟨g, hg⟩ := h.queue
  refine ⟨fun t p hp => ?_, hg.pushed_nodup, hg.popped_nodup, fun i t a hm => (hg.pushed i t a hm).1,
    fun i t r hm => (hg.popped i t r hm).2.1, hg.pushed_order, fun t t' p p' hp hp' he => ?_⟩
  · rw [hg.index_eq]
    exact (h.owns t _ ⟨p, IngressPc.inside_of_plain hp, rfl⟩).1
  · rw [hg.index_eq, hg.index_eq] at he
    exact h.holds_unique ⟨p', hp', rfl⟩ ⟨p, hp, he⟩

/-- one push has taken the ticket `0`; the other thread has read the old value of `enqueue_` afterwards -/
theorem memory_orders_suffice_stale : ∃ x : Ordered Bool ℕ,
    Relation.ReflTransGen (Ordered.Step id) (.init 4) x ∧ x.queue.enqueue = 1 ∧
      x.queue.pc false = .pushExchange 8 0 ∧ x.queue.pc true = .pushWrite 7 0 ∧
      x.memory.RaceFree true 0 := by
  have hrun : ∃ x : Ordered Bool ℕ, Relation.ReflTransGen (Ordered.Step id) (.init 4) x ∧
      x.queue.enqueue = 1 ∧ x.queue.pc false = .pushExchange 8 0 ∧
      x.queue.pc true = .pushWrite 7 0 ∧ x.queue.index 0 = 0 ∧ x.queue.operations = 1 :=
    ⟨_, ((((((Relation.ReflTransGen.single (.tryPush _ true 7 rfl)).tail
      (.pushLoad _ true 7 0 _ rfl ⟨rfl, Nat.le_refl 0⟩)).tail
      (.pushSequence _ true 7 0 0 _ rfl ⟨rfl, Nat.le_refl 0⟩)).tail
      (.pushExchange _ true 7 0 0 _ rfl ⟨rfl, Nat.le_refl 0⟩ rfl rfl)).tail
      (.tryPush _ false 8 rfl)).tail (.pushLoad _ false 8 0 _ rfl ⟨rfl, Nat.le_refl 0⟩)).tail
      (.pushSequence _ false 8 0 0 _ rfl ⟨rfl, Nat.le_refl 0⟩), rfl, rfl, rfl, rfl, rfl⟩
  obtain ⟨x, hrun, henqueue, hfalse, htrue, hindex, hops⟩ := hrun
  have h := (memory_orders_suffice id (k := 2) (by decide) (by decide) (by decide) hrun
    (by rw [hops]; decide)).1 true 0 (by rw [htrue]; rfl)
  rw [hindex] at h
  exact ⟨x, hrun, henqueue, hfalse, htrue, h⟩

end Matching
