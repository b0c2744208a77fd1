import Mathlib.Logic.Function.Basic
import Mathlib.Data.Nat.Notation

/-!
# Clients with a copy of a shared item

Each client has a state of its own, of which a part, its `view`, is a copy of what `load` makes of the
shared item.  A client that writes the item changes its own state at once; the others are told, if the
item has changed, and read it when they handle that.  A write can be lost.

* `Agrees`  a client that has handled everything, and whose last write was not lost, has the copy of the
            item;
* `Agrees.keep`, `Agrees.write`, `Agrees.lose`, `Agrees.read`  every step keeps that.
-/

namespace Replicas

structure Shared (I V C : Type) where
  item : V
  client : I → C
  /-- how often the client was told of a change and has not handled it -/
  pending : I → ℕ
  /-- the last write of the client was lost -/
  unsaved : I → Bool

namespace Shared

section
variable {I V C S : Type} [DecidableEq I]

section
variable (x : Shared I V C) (i : I) (c : C)

/-- the client goes on without a write -/
def keep : Shared I V C := { x with client := Function.update x.client i c }

def write [DecidableEq V] (v : V) : Shared I V C :=
  ⟨v, Function.update x.client i c,
    fun j => if j ≠ i ∧ v ≠ x.item then x.pending j + 1 else x.pending j,
    Function.update x.unsaved i false⟩

def lose : Shared I V C :=
  { x with client := Function.update x.client i c, unsaved := Function.update x.unsaved i true }

/-- the client has read the item, and has `n` changes left to handle -/
def read (n : ℕ) : Shared I V C :=
  ⟨x.item, Function.update x.client i c, Function.update x.pending i n,
    Function.update x.unsaved i false⟩

end

/-- the client has handled everything, and its last write was not lost -/
def Current (x : Shared I V C) (i : I) : Prop := x.pending i = 0 ∧ x.unsaved i = false

def Agrees (load : V → S) (view : C → S) (x : Shared I V C) : Prop :=
  ∀ i, x.Current i → view (x.client i) = load x.item

variable {load : V → S} {view : C → S} {x : Shared I V C} {i : I} {c : C}

/-- what holds for the client that makes the step, and for the others if the item stays -/
theorem Agrees.step (h : x.Agrees load view) {y : Shared I V C}
    (hself : y.Current i → view (y.client i) = load y.item)
    (hother : ∀ j, j ≠ i → y.Current j → y.client j = x.client j ∧ x.Current j ∧ y.item = x.item) :
    y.Agrees load view := by
  intro j hj
  by_cases hji : j = i
  · subst hji
    exact hself hj
  · obtain ⟨hclient, hcurrent, hitem⟩ := hother j hji hj
    rw [hclient, hitem]
    exact h j hcurrent

theorem Agrees.keep (h : x.Agrees load view) (hc : view c = view (x.client i)) :
    (x.keep i c).Agrees load view := by
  refine h.step (i := i) (fun hcurrent => ?_) fun j hj hcurrent =>
    ⟨Function.update_of_ne hj .., hcurrent, rfl⟩
  show view (Function.update x.client i c i) = load x.item
  rw [Function.update_self, hc]
  exact h i hcurrent

theorem Agrees.write [DecidableEq V] (h : x.Agrees load view) {v : V} (hv : load v = view c) :
    (x.write i c v).Agrees load view := by
  refine h.step (i := i) (fun _ => ?_) fun j hj ⟨hpending, hunsaved⟩ => ?_
  · show view (Function.update x.client i c i) = load v
    rw [Function.update_self, hv]
  · -- a client that has handled everything was not told of a change
    have hpending' : (if j ≠ i ∧ v ≠ x.item then x.pending j + 1 else x.pending j) = 0 := hpending
    rw [show (x.write i c v).unsaved j = x.unsaved j from Function.update_of_ne hj ..] at hunsaved
    by_cases hitem : v = x.item
    · rw [if_neg fun hne => hne.2 hitem] at hpending'
      exact ⟨Function.update_of_ne hj .., ⟨hpending', hunsaved⟩, hitem⟩
    · rw [if_pos ⟨hj, hitem⟩] at hpending'
      exact absurd hpending' (Nat.succ_ne_zero _)

theorem Agrees.lose (h : x.Agrees load view) : (x.lose i c).Agrees load view := by
  refine h.step (i := i) (fun hcurrent => ?_) fun j hj ⟨hpending, hunsaved⟩ => ?_
  · have hunsaved : Function.update x.unsaved i true i = false := hcurrent.2
    rw [Function.update_self] at hunsaved
    cases hunsaved
  · rw [show (x.lose i c).unsaved j = x.unsaved j from Function.update_of_ne hj ..] at hunsaved
    exact ⟨Function.update_of_ne hj .., ⟨hpending, hunsaved⟩, rfl⟩

theorem Agrees.read (h : x.Agrees load view) {n : ℕ} (hc : view c = load x.item) :
    (x.read i c n).Agrees load view := by
  refine h.step (i := i) (fun _ => ?_) fun j hj ⟨hpending, hunsaved⟩ => ?_
  · show view (Function.update x.client i c i) = load x.item
    rw [Function.update_self, hc]
  · rw [show (x.read i c n).unsaved j = x.unsaved j from Function.update_of_ne hj ..] at hunsaved
    rw [show (x.read i c n).pending j = x.pending j from Function.update_of_ne hj ..] at hpending
    exact ⟨Function.update_of_ne hj .., ⟨hpending, hunsaved⟩, rfl⟩

end

end Shared

end Replicas
