import Mathlib.Data.Sum.Basic
import Mathlib.Logic.Function.Basic
import Mathlib.Order.Lattice.Nat

/-!
# Release and acquire, with views

Shared memory in which an atomic location has several messages, one for each time at which it was
written, and a thread that loads may read any of them that is not older than what it has seen.  A view
gives, for each atomic location, the time of the message that was seen, and, for each plain location, the
number of accesses that happened before.  A release store puts the view of the thread into its message,
an acquire load adds the view of the message to that of the thread, and a relaxed access does neither.
A compare-exchange writes at the time right after the message that it read.

An access to a plain location is free of a race if all earlier accesses are in the view of the thread.

`S` is a set of atomic locations that are loaded by acquire loads and written by release stores only.

* `Memory.Wf`                the views of the threads, and of the messages of `S`, are sound;
* `Wf.relaxed`, `Wf.acquire`, `Wf.exchange`, `Wf.release`, `Wf.access`  the accesses keep that;
* `Wf.covers`                who has seen a message has what it covers.
-/

set_option linter.unusedSectionVars false

namespace Views

abbrev View (A N : Type) := A ⊕ N → ℕ

structure Message (A N β : Type) where
  value : β
  view : View A N

structure Memory (Tid A N β : Type) where
  messages : A → ℕ → Option (Message A N β)
  /-- how often a plain location was accessed -/
  accesses : N → ℕ
  view : Tid → View A N

namespace Memory

section
variable {Tid A N β : Type}

def init (value : A → β) : Memory Tid A N β :=
  ⟨fun a time => if time = 0 then some ⟨value a, fun _ => 0⟩ else none, fun _ => 0, fun _ _ => 0⟩

variable (x : Memory Tid A N β)

/-- a load of the thread may read this message -/
def Reads (t : Tid) (a : A) (time : ℕ) (m : Message A N β) : Prop :=
  x.messages a time = some m ∧ x.view t (.inl a) ≤ time

/-- the message is the last one of the location -/
def Last (a : A) (time : ℕ) (m : Message A N β) : Prop :=
  x.messages a time = some m ∧ ∀ later, time < later → x.messages a later = none

def RaceFree (t : Tid) (n : N) : Prop := x.view t (.inr n) = x.accesses n

variable [DecidableEq Tid] [DecidableEq A] [DecidableEq N]

def look (t : Tid) (view : View A N) : Memory Tid A N β :=
  { x with view := Function.update x.view t view }

def put (a : A) (time : ℕ) (m : Message A N β) : Memory Tid A N β :=
  { x with messages := Function.update x.messages a (Function.update (x.messages a) time (some m)) }

def relaxed (t : Tid) (a : A) (time : ℕ) : Memory Tid A N β :=
  x.look t (Function.update (x.view t) (.inl a) time)

def acquire (t : Tid) (m : Message A N β) : Memory Tid A N β := x.look t (x.view t ⊔ m.view)

/-- a relaxed compare-exchange that succeeds; its message goes on with the view of the one it read -/
def exchange (t : Tid) (a : A) (time : ℕ) (m : Message A N β) (value : β) : Memory Tid A N β :=
  (x.put a (time + 1) ⟨value, Function.update m.view (.inl a) (time + 1)⟩).look t
    (Function.update (x.view t) (.inl a) (time + 1))

def release (t : Tid) (a : A) (time : ℕ) (value : β) : Memory Tid A N β :=
  (x.put a time ⟨value, Function.update (x.view t) (.inl a) time⟩).look t
    (Function.update (x.view t) (.inl a) time)

/-- a plain access -/
def access (t : Tid) (n : N) : Memory Tid A N β :=
  { x.look t (Function.update (x.view t) (.inr n) (x.accesses n + 1)) with
    accesses := Function.update x.accesses n (x.accesses n + 1) }

end

/-! ## what an access changes -/

section
variable {Tid A N β : Type} [DecidableEq Tid] [DecidableEq A] [DecidableEq N] {x : Memory Tid A N β}
  {t u : Tid} {a b : A} {n : N} {time : ℕ} {m : Message A N β} {v : View A N} {value : β}

theorem look_self : (x.look t v).view t = v := Function.update_self ..

theorem look_of_ne (h : u ≠ t) : (x.look t v).view u = x.view u := Function.update_of_ne h ..

theorem put_self : (x.put a time m).messages a time = some m := by
  show Function.update x.messages a _ a time = _
  rw [Function.update_self, Function.update_self]

theorem put_of_ne_time {time' : ℕ} (h : time' ≠ time) :
    (x.put a time m).messages a time' = x.messages a time' := by
  show Function.update x.messages a _ a time' = _
  rw [Function.update_self, Function.update_of_ne h]

theorem put_of_ne (h : b ≠ a) : (x.put a time m).messages b = x.messages b :=
  Function.update_of_ne h ..

theorem exchange_of_ne (h : b ≠ a) : (x.exchange t a time m value).messages b = x.messages b :=
  put_of_ne h

theorem release_of_ne (h : b ≠ a) : (x.release t a time value).messages b = x.messages b :=
  put_of_ne h

/-- a message that is there stays -/
theorem put_keeps (hnone : x.messages a time = none) {time' : ℕ} {m' : Message A N β}
    (hm : x.messages b time' = some m') : (x.put a time m).messages b time' = some m' := by
  by_cases hb : b = a
  · subst hb
    by_cases ht : time' = time
    · rw [ht, hnone] at hm
      cases hm
    · rw [put_of_ne_time ht, hm]
  · rw [put_of_ne hb, hm]

theorem put_cases {time' : ℕ} {m' : Message A N β}
    (hm : (x.put a time m).messages b time' = some m') :
    b = a ∧ time' = time ∧ m' = m ∨ x.messages b time' = some m' := by
  by_cases hb : b = a
  · subst hb
    by_cases ht : time' = time
    · subst ht
      rw [put_self] at hm
      exact .inl ⟨rfl, rfl, (Option.some.inj hm).symm⟩
    · rw [put_of_ne_time ht] at hm
      exact .inr hm
  · rw [put_of_ne hb] at hm
    exact .inr hm

/-- a message after the last one is the last one -/
theorem Last.put {m₀ : Message A N β} {time₀ : ℕ} (h : x.Last a time₀ m₀) (hlt : time₀ < time) :
    (x.put a time m).Last a time m := by
  refine ⟨put_self, fun later hlater => ?_⟩
  rw [put_of_ne_time (Nat.ne_of_gt hlater)]
  exact h.2 later (Nat.lt_trans hlt hlater)

theorem Last.time_le {m₀ : Message A N β} {time₀ : ℕ} (h : x.Last a time₀ m₀)
    (hm : x.messages a time = some m) : time ≤ time₀ := by
  by_contra hlt
  rw [h.2 time (Nat.lt_of_not_le hlt)] at hm
  cases hm

end

/-! ## soundness -/

section
variable {Tid A N β : Type} (x : Memory Tid A N β) (S : A → Prop)

/-- a view that covers the views of the messages that it has seen, and only accesses that were made -/
structure Sound (v : View A N) : Prop where
  seen : ∀ a, S a → ∃ m, x.messages a (v (.inl a)) = some m ∧ m.view ≤ v
  made : ∀ n, v (.inr n) ≤ x.accesses n

structure Wf : Prop where
  stamp : ∀ a time m, x.messages a time = some m → m.view (.inl a) = time
  thread : ∀ t, x.Sound S (x.view t)
  message : ∀ a time m, S a → x.messages a time = some m → x.Sound S m.view

end

section
variable {Tid A N β : Type} {x y : Memory Tid A N β} {S : A → Prop} {v w : View A N}

theorem Sound.sup (hv : x.Sound S v) (hw : x.Sound S w) : x.Sound S (v ⊔ w) := by
  refine ⟨fun a ha => ?_, fun n => ?_⟩
  · obtain ⟨m, hm, hle⟩ := hv.seen a ha
    obtain ⟨m', hm', hle'⟩ := hw.seen a ha
    rcases Nat.le_total (v (.inl a)) (w (.inl a)) with h | h
    · refine ⟨m', ?_, le_trans hle' le_sup_right⟩
      rw [Pi.sup_apply, sup_of_le_right h, hm']
    · refine ⟨m, ?_, le_trans hle le_sup_left⟩
      rw [Pi.sup_apply, sup_of_le_left h, hm]
  · rw [Pi.sup_apply]
    exact sup_le (hv.made n) (hw.made n)

theorem Sound.extend (hv : x.Sound S v)
    (hmessages : ∀ a time m, x.messages a time = some m → y.messages a time = some m)
    (haccesses : ∀ n, x.accesses n ≤ y.accesses n) : y.Sound S v := by
  refine ⟨fun a ha => ?_, fun n => Nat.le_trans (hv.made n) (haccesses n)⟩
  obtain ⟨m, hm, hle⟩ := hv.seen a ha
  exact ⟨m, hmessages _ _ _ hm, hle⟩

/-- who has seen the message has the accesses that it covers -/
theorem Wf.covers (h : x.Wf S) {t : Tid} {a : A} (ha : S a) {m : Message A N β} {n : N}
    (hm : x.messages a (x.view t (.inl a)) = some m) (hcovers : m.view (.inr n) = x.accesses n) :
    x.RaceFree t n := by
  obtain ⟨m', hm', hle⟩ := (h.thread t).seen a ha
  rw [hm] at hm'
  cases hm'
  refine Nat.le_antisymm ((h.thread t).made n) ?_
  rw [← hcovers]
  exact hle (.inr n)

theorem init_sound (value : A → β) : (init value : Memory Tid A N β).Sound S fun _ => 0 :=
  ⟨fun a _ => ⟨⟨value a, fun _ => 0⟩, rfl, le_refl _⟩, fun _ => le_refl _⟩

theorem init_messages {value : A → β} {a : A} {time : ℕ} {m : Message A N β}
    (hm : (init value : Memory Tid A N β).messages a time = some m) :
    time = 0 ∧ m = ⟨value a, fun _ => 0⟩ := by
  by_cases h : time = 0
  · subst h
    exact ⟨rfl, (Option.some.inj hm).symm⟩
  · have : (init value : Memory Tid A N β).messages a time = none := if_neg h
    rw [this] at hm
    cases hm

theorem init_wf (value : A → β) : (init value : Memory Tid A N β).Wf S := by
  refine ⟨fun a time m hm => ?_, fun _ => init_sound value, fun a time m _ hm => ?_⟩
  · obtain ⟨rfl, rfl⟩ := init_messages hm
    rfl
  · obtain ⟨rfl, rfl⟩ := init_messages hm
    exact init_sound value

end

section
variable {Tid A N β : Type} [DecidableEq Tid] [DecidableEq A] [DecidableEq N] {x : Memory Tid A N β}
  {S : A → Prop} {v : View A N} {t : Tid} {a : A} {n : N} {time : ℕ} {m : Message A N β} {value : β}

/-- a location outside `S` does not count -/
theorem Sound.update_inl (hv : x.Sound S v) (ha : ¬ S a) (hle : v (.inl a) ≤ time) :
    x.Sound S (Function.update v (.inl a) time) := by
  have hup : v ≤ Function.update v (.inl a) time := le_update_iff.mpr ⟨hle, fun _ _ => le_refl _⟩
  refine ⟨fun b hb => ?_, fun n => ?_⟩
  · obtain ⟨m, hm, hm'⟩ := hv.seen b hb
    refine ⟨m, ?_, le_trans hm' hup⟩
    have hne : (Sum.inl b : A ⊕ N) ≠ .inl a := fun h => ha (by rw [← Sum.inl.inj h]; exact hb)
    rw [Function.update_of_ne hne, hm]
  · rw [Function.update_of_ne Sum.inr_ne_inl]
    exact hv.made n

/-- the view of a thread changes, and nothing else -/
theorem Wf.look (h : x.Wf S) (hv : x.Sound S v) : (x.look t v).Wf S := by
  have hkeep {w : View A N} (hw : x.Sound S w) : (x.look t v).Sound S w := ⟨hw.seen, hw.made⟩
  refine ⟨h.stamp, fun u => ?_, fun a time m ha hm => hkeep (h.message a time m ha hm)⟩
  by_cases hu : u = t
  · subst hu
    rw [look_self]
    exact hkeep hv
  · rw [look_of_ne hu]
    exact hkeep (h.thread u)

theorem Wf.acquire_view (h : x.Wf S) (hr : x.Reads t a time m) :
    (x.acquire t m).view t (.inl a) = time := by
  rw [Memory.acquire, look_self, Pi.sup_apply, h.stamp a time m hr.1, sup_of_le_right hr.2]

theorem Sound.put (hv : x.Sound S v) (hnone : x.messages a time = none) : (x.put a time m).Sound S v :=
  hv.extend (fun _ _ _ => put_keeps hnone) fun _ => le_refl _

/-- a new message -/
theorem Wf.put (h : x.Wf S) (hnone : x.messages a time = none) (hstamp : m.view (.inl a) = time)
    (hm : S a → (x.put a time m).Sound S m.view) : (x.put a time m).Wf S := by
  refine ⟨fun b time' m' hm' => ?_, fun u => (h.thread u).put hnone, fun b time' m' hb hm' => ?_⟩
  · rcases put_cases hm' with ⟨rfl, rfl, rfl⟩ | hm'
    · exact hstamp
    · exact h.stamp b time' m' hm'
  · rcases put_cases hm' with ⟨rfl, rfl, rfl⟩ | hm'
    · exact hm hb
    · exact (h.message b time' m' hb hm').put hnone

theorem Wf.exchange (h : x.Wf S) (ha : ¬ S a) (hr : x.Reads t a time m)
    (hnone : x.messages a (time + 1) = none) : (x.exchange t a time m value).Wf S := by
  have hput := h.put (m := ⟨value, Function.update m.view (.inl a) (time + 1)⟩) hnone
    (Function.update_self ..) fun h => absurd h ha
  exact hput.look ((hput.thread t).update_inl ha (Nat.le_succ_of_le hr.2))

theorem Wf.release (h : x.Wf S) (hlt : x.view t (.inl a) < time) (hnone : x.messages a time = none) :
    (x.release t a time value).Wf S := by
  have hup : x.view t ≤ Function.update (x.view t) (.inl a) time :=
    le_update_iff.mpr ⟨Nat.le_of_lt hlt, fun _ _ => le_refl _⟩
  -- the message is in its own view
  have hsound : (x.put a time ⟨value, Function.update (x.view t) (.inl a) time⟩).Sound S
      (Function.update (x.view t) (.inl a) time) := by
    refine ⟨fun b hb => ?_, fun n => ?_⟩
    · by_cases hab : b = a
      · subst hab
        rw [Function.update_self]
        exact ⟨_, put_self, le_refl _⟩
      · obtain ⟨m, hm, hm'⟩ := (h.thread t).seen b hb
        refine ⟨m, ?_, le_trans hm' hup⟩
        rw [Function.update_of_ne fun h => hab (Sum.inl.inj h), put_of_ne hab, hm]
    · rw [Function.update_of_ne Sum.inr_ne_inl]
      exact (h.thread t).made n
  exact (h.put hnone (Function.update_self ..) fun _ => hsound).look hsound

theorem Wf.access (h : x.Wf S) : (x.access t n).Wf S := by
  have hkeep {w : View A N} (hw : x.Sound S w) : (x.access t n).Sound S w := by
    refine hw.extend (fun _ _ _ hm => hm) fun k => ?_
    show _ ≤ Function.update x.accesses n (x.accesses n + 1) k
    exact (le_update_iff (x := x.accesses)).mpr ⟨Nat.le_succ _, fun _ _ => le_refl _⟩ k
  refine ⟨h.stamp, fun u => ?_, fun a time m ha hm => hkeep (h.message a time m ha hm)⟩
  by_cases hu : u = t
  · subst hu
    show (x.access u n).Sound S (Function.update x.view u _ u)
    rw [Function.update_self]
    have hold := hkeep (h.thread u)
    refine ⟨fun a ha => ?_, fun k => ?_⟩
    · obtain ⟨m, hm, hle⟩ := hold.seen a ha
      refine ⟨m, ?_, le_trans hle (le_update_iff.mpr ⟨?_, fun _ _ => le_refl _⟩)⟩
      · rw [Function.update_of_ne Sum.inl_ne_inr, hm]
      · exact Nat.le_succ_of_le ((h.thread u).made n)
    · by_cases hk : k = n
      · subst hk
        rw [Function.update_self]
        exact (Function.update_self (f := x.accesses) k (x.accesses k + 1)).ge
      · rw [Function.update_of_ne fun h => hk (Sum.inr.inj h)]
        exact hold.made k
  · have hview : (x.access t n).view u = x.view u := look_of_ne hu
    rw [hview]
    exact hkeep (h.thread u)

end

end Memory

end Views
