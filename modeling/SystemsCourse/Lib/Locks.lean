import Mathlib.Logic.Function.Basic
import Mathlib.Order.Lattice.Nat

/-!
# Locks

A thread is at a place of its code, and the place says which locks the thread holds.

* `Held`            a mutex is held by the thread whose place holds it, and by no other;
* `RwLock`          a lock with one writer or any number of readers;
* `Guarded`         the same for such a lock;
* `exists_free`     locks that are taken in one order: somebody can go on.
-/

set_option linter.unusedSectionVars false

namespace Locks
variable {Tid P : Type} [DecidableEq Tid]

/-! ## a mutex -/

/-- the mutex is held by the thread whose place holds it -/
def Held (holds : P → Bool) (pc : Tid → P) (mutex : Option Tid) : Prop :=
  ∀ t, holds (pc t) = true ↔ mutex = some t

section
variable {holds : P → Bool} {pc : Tid → P} {mutex : Option Tid} {t : Tid} {p q : P}

theorem Held.init (h : ∀ t, holds (pc t) = false) : Held holds pc none := by
  intro t
  simp [h t]

/-- a thread moves and keeps what it holds -/
theorem Held.keep (h : Held holds pc mutex) (hq : pc t = q) (hp : holds p = holds q) :
    Held holds (Function.update pc t p) mutex := by
  intro u
  by_cases hu : u = t
  · rw [hu, Function.update_self, hp, ← hq]
    exact h t
  · rw [Function.update_of_ne hu]
    exact h u

theorem Held.take (h : Held holds pc none) (hp : holds p = true) :
    Held holds (Function.update pc t p) (some t) := by
  intro u
  by_cases hu : u = t
  · rw [hu, Function.update_self, hp]
    exact ⟨fun _ => rfl, fun _ => rfl⟩
  · rw [Function.update_of_ne hu]
    refine ⟨fun hh => absurd ((h u).mp hh) (by simp), fun he => absurd (Option.some.inj he).symm hu⟩

theorem Held.give (h : Held holds pc mutex) (hq : pc t = q) (ht : holds q = true)
    (hp : holds p = false) : Held holds (Function.update pc t p) none := by
  rw [← hq] at ht
  have hmutex := (h t).mp ht
  intro u
  by_cases hu : u = t
  · rw [hu, Function.update_self, hp]
    simp
  · rw [Function.update_of_ne hu]
    refine ⟨fun hh => ?_, fun he => absurd he (by simp)⟩
    have := (h u).mp hh
    rw [hmutex] at this
    exact absurd (Option.some.inj this).symm hu

/-- **mutual exclusion** -/
theorem Held.unique (h : Held holds pc mutex) {u : Tid} (ht : holds (pc t) = true)
    (hu : holds (pc u) = true) : t = u := by
  have := (h t).mp ht
  rw [(h u).mp hu] at this
  exact (Option.some.inj this).symm

/-- somebody holds a mutex that is not free -/
theorem Held.holder (h : Held holds pc mutex) (hm : mutex ≠ none) : ∃ u, holds (pc u) = true := by
  obtain ⟨u, hu⟩ := Option.ne_none_iff_exists'.mp hm
  exact ⟨u, (h u).mpr hu⟩

end

/-! ## readers and writers -/

structure RwLock (Tid : Type) where
  writer : Option Tid
  readers : Tid → Bool

namespace RwLock

def new : RwLock Tid := ⟨none, fun _ => false⟩

def lock (l : RwLock Tid) (t : Tid) : RwLock Tid := { l with writer := some t }
def unlock (l : RwLock Tid) : RwLock Tid := { l with writer := none }
def lockShared (l : RwLock Tid) (t : Tid) : RwLock Tid :=
  { l with readers := Function.update l.readers t true }
def unlockShared (l : RwLock Tid) (t : Tid) : RwLock Tid :=
  { l with readers := Function.update l.readers t false }

end RwLock

/-- the lock is held by the threads whose places hold it, and by no reader beside a writer -/
structure Guarded (writes reads : P → Bool) (pc : Tid → P) (l : RwLock Tid) : Prop where
  writer : Held writes pc l.writer
  readers : ∀ t, l.readers t = reads (pc t)
  apart : ∀ t, l.writer ≠ none → l.readers t = false

section
variable {writes reads : P → Bool} {pc : Tid → P} {l : RwLock Tid} {t : Tid} {p q : P}

theorem Guarded.new (h : ∀ t, writes (pc t) = false ∧ reads (pc t) = false) :
    Guarded writes reads pc RwLock.new :=
  ⟨Held.init fun t => (h t).1, fun t => (h t).2.symm, fun _ _ => rfl⟩

theorem Guarded.readers_keep (h : Guarded writes reads pc l) (hq : pc t = q) (hr : reads p = reads q)
    (u : Tid) : l.readers u = reads (Function.update pc t p u) := by
  by_cases hu : u = t
  · rw [hu, Function.update_self, hr, ← hq]
    exact h.readers t
  · rw [Function.update_of_ne hu]
    exact h.readers u

theorem Guarded.keep (h : Guarded writes reads pc l) (hq : pc t = q) (hw : writes p = writes q)
    (hr : reads p = reads q) : Guarded writes reads (Function.update pc t p) l :=
  ⟨h.writer.keep hq hw, h.readers_keep hq hr, h.apart⟩

theorem Guarded.readers_update (h : Guarded writes reads pc l) {b : Bool} (hr : reads p = b) (u : Tid) :
    Function.update l.readers t b u = reads (Function.update pc t p u) := by
  by_cases hu : u = t
  · rw [hu, Function.update_self, Function.update_self, hr]
  · rw [Function.update_of_ne hu, Function.update_of_ne hu]
    exact h.readers u

theorem Guarded.lockShared (h : Guarded writes reads pc l) (hfree : l.writer = none) (hq : pc t = q)
    (hw : writes p = writes q) (hr : reads p = true) :
    Guarded writes reads (Function.update pc t p) (l.lockShared t) :=
  ⟨h.writer.keep hq hw, h.readers_update hr, fun _ hne => absurd hfree hne⟩

theorem Guarded.unlockShared (h : Guarded writes reads pc l) (hq : pc t = q) (hw : writes p = writes q)
    (hr : reads p = false) : Guarded writes reads (Function.update pc t p) (l.unlockShared t) := by
  refine ⟨h.writer.keep hq hw, h.readers_update hr, fun u hne => ?_⟩
  show Function.update l.readers t false u = false
  by_cases hu : u = t
  · rw [hu, Function.update_self]
  · rw [Function.update_of_ne hu]
    exact h.apart u hne

theorem Guarded.lock (h : Guarded writes reads pc l) (hfree : l.writer = none)
    (hnone : ∀ u, l.readers u = false) (hq : pc t = q) (hw : writes p = true) (hr : reads p = reads q) :
    Guarded writes reads (Function.update pc t p) (l.lock t) := by
  have hwriter := h.writer
  rw [hfree] at hwriter
  exact ⟨hwriter.take hw, h.readers_keep hq hr, fun u _ => hnone u⟩

theorem Guarded.unlock (h : Guarded writes reads pc l) (hq : pc t = q) (ht : writes q = true)
    (hw : writes p = false) (hr : reads p = reads q) :
    Guarded writes reads (Function.update pc t p) l.unlock :=
  ⟨h.writer.give hq ht hw, h.readers_keep hq hr, fun _ hne => absurd rfl hne⟩

/-- **no reader beside a writer** -/
theorem Guarded.exclusive (h : Guarded writes reads pc l) {u : Tid} (ht : writes (pc t) = true) :
    reads (pc u) = false := by
  rw [← h.readers u]
  exact h.apart u (by rw [(h.writer t).mp ht]; simp)

end

/-! ## deadlock -/

/-- **locks in one order**: if everybody who cannot go on waits for somebody of a higher level, and the levels
are bounded, then somebody can go on -/
theorem exists_free {T : Type} {Live Free : T → Prop} (level : T → ℕ) (n : ℕ) (hn : ∀ t, level t ≤ n)
    (h : ∀ t, Live t → Free t ∨ ∃ u, Live u ∧ level t < level u) {t : T} (ht : Live t) :
    ∃ u, Live u ∧ Free u := by
  induction hd : n - level t using Nat.strong_induction_on generalizing t with
  | _ d ih =>
    rcases h t ht with hfree | ⟨u, hu, hlt⟩
    · exact ⟨t, ht, hfree⟩
    · have := hn u
      exact ih (n - level u) (by omega) hu rfl

end Locks
