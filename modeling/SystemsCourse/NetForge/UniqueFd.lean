import Mathlib.Algebra.Ring.Int.Defs
import Mathlib.Logic.Function.Basic
import SystemsCourse.Lib.Actions

/-!
# Ownership of descriptors

Model of `UniqueFd` in `capstone/reference/include/netforge/unique_fd.hpp`: any number of objects, and
the calls that a program makes on them.  The log has what happens to the descriptors that the program
hands to the objects, in the order of the calls.

* `Change`                what one call does to one descriptor;
* `Settled`               each time it was handed in, a descriptor was closed or released;
* `descriptor_ownership`  one owner for a descriptor, and one end for each time it was handed in.
-/

set_option linter.unusedSectionVars false

namespace NetForge
open Actions

inductive FdEvent (Obj : Type) where
  | handedIn (fd : ℤ)
  | closed (object : Obj) (fd : ℤ)
  | released (object : Obj) (fd : ℤ)
deriving DecidableEq

def FdEvent.fd {Obj : Type} : FdEvent Obj → ℤ
  | .handedIn fd => fd
  | .closed _ fd => fd
  | .released _ fd => fd

/-- `held` is the field `fd_` of an object, and nothing for an object that is not alive; `opened` are
the descriptors of the process. -/
structure Descriptors (Obj : Type) where
  held : Obj → Option ℤ := fun _ => none
  opened : ℤ → Bool
  log : List (FdEvent Obj) := []

section
variable {Obj : Type} [DecidableEq Obj]

namespace Descriptors

def get (x : Descriptors Obj) (o : Obj) : ℤ := (x.held o).getD (-1)

def store (x : Descriptors Obj) (o : Obj) (fd : ℤ) : Descriptors Obj :=
  { x with held := Function.update x.held o (some fd) }

def record (x : Descriptors Obj) (e : FdEvent Obj) : Descriptors Obj := { x with log := x.log ++ [e] }

def close (x : Descriptors Obj) (o : Obj) (fd : ℤ) : Descriptors Obj :=
  { x.record (.closed o fd) with opened := Function.update x.opened fd false }

/-- the caller passes a descriptor to an object; a negative number is no descriptor -/
def handIn (x : Descriptors Obj) (fd : ℤ) : Descriptors Obj :=
  if 0 ≤ fd then x.record (.handedIn fd) else x

/-- the caller has a descriptor from `release` -/
def handOut (x : Descriptors Obj) (o : Obj) (fd : ℤ) : Descriptors Obj :=
  if 0 ≤ fd then x.record (.released o fd) else x

def release (x : Descriptors Obj) (o : Obj) : ℤ × Descriptors Obj := (x.get o, x.store o (-1))

def reset (x : Descriptors Obj) (o : Obj) (replacement : ℤ) : Descriptors Obj :=
  let old := x.get o
  let x := x.store o replacement
  if 0 ≤ old then x.close o old else x

def moveConstruct (x : Descriptors Obj) (o other : Obj) : Descriptors Obj :=
  let (fd, x) := x.release other
  x.store o fd

def moveAssign (x : Descriptors Obj) (o other : Obj) : Descriptors Obj :=
  if o = other then x
  else
    let (fd, x) := x.release other
    x.reset o fd

def destroy (x : Descriptors Obj) (o : Obj) : Descriptors Obj :=
  let x := x.reset o (-1)
  { x with held := Function.update x.held o none }

end Descriptors

inductive FdAct (Obj : Type) where
  | construct (o : Obj) (fd : ℤ)
  | moveConstruct (o other : Obj)
  | moveAssign (o other : Obj)
  | release (o : Obj)
  | reset (o : Obj) (replacement : ℤ)
  | destroy (o : Obj)
  /-- `open` or `close` somewhere else in the process -/
  | environment (fd : ℤ) (isOpen : Bool)

/-- the object whose member function is called -/
def FdAct.object : FdAct Obj → Option Obj
  | .construct o _ => some o
  | .moveConstruct o _ => some o
  | .moveAssign o _ => some o
  | .release o => some o
  | .reset o _ => some o
  | .destroy o => some o
  | .environment _ _ => none

def FdAct.out (x : Descriptors Obj) : FdAct Obj → Descriptors Obj
  | .construct o fd => (x.handIn fd).store o fd
  | .moveConstruct o other => x.moveConstruct o other
  | .moveAssign o other => x.moveAssign o other
  | .release o =>
    let (fd, x) := x.release o
    x.handOut o fd
  | .reset o replacement => (x.handIn replacement).reset o replacement
  | .destroy o => x.destroy o
  | .environment fd isOpen => { x with opened := Function.update x.opened fd isOpen }

/-- what a program may hand in: a negative number, or an open descriptor that no object has -/
def Descriptors.Free (x : Descriptors Obj) (fd : ℤ) : Prop :=
  0 ≤ fd → x.opened fd = true ∧ ∀ o, x.held o ≠ some fd

/-- an object is constructed once, and used only while it is alive -/
def FdAct.Ok (x : Descriptors Obj) : FdAct Obj → Prop
  | .construct o fd => x.held o = none ∧ x.Free fd
  | .moveConstruct o other => x.held o = none ∧ x.held other ≠ none
  | .moveAssign o other => x.held o ≠ none ∧ x.held other ≠ none
  | .release o => x.held o ≠ none
  | .reset o replacement => x.held o ≠ none ∧ x.Free replacement
  | .destroy o => x.held o ≠ none
  | .environment _ _ => True

/-- what happened to one descriptor -/
def Descriptors.events (x : Descriptors Obj) (fd : ℤ) : List (FdEvent Obj) :=
  x.log.filter fun e => e.fd = fd

/-- What a call does to one descriptor: an owner stays or passes it on, or gets it, or ends it. -/
inductive Change (fd : ℤ) (x y : Descriptors Obj) : Prop where
  | same : (∀ p, y.held p = some fd ↔ x.held p = some fd) → y.events fd = x.events fd → Change fd x y
  | moved (o o' : Obj) : x.held o = some fd → (∀ p, y.held p = some fd ↔ p = o') →
      y.events fd = x.events fd → Change fd x y
  | handedIn (o : Obj) : (∀ p, x.held p ≠ some fd) → (∀ p, y.held p = some fd ↔ p = o) →
      y.events fd = x.events fd ++ [.handedIn fd] → Change fd x y
  | ended (o : Obj) (e : FdEvent Obj) : x.held o = some fd → (∀ p, y.held p ≠ some fd) →
      e = .closed o fd ∨ e = .released o fd → y.events fd = x.events fd ++ [e] → Change fd x y

/-- each `handedIn` is followed by its one end -/
inductive Settled (fd : ℤ) : List (FdEvent Obj) → Prop where
  | nil : Settled fd []
  | closed {l : List (FdEvent Obj)} (o : Obj) :
      Settled fd l → Settled fd (l ++ [.handedIn fd, .closed o fd])
  | released {l : List (FdEvent Obj)} (o : Obj) :
      Settled fd l → Settled fd (l ++ [.handedIn fd, .released o fd])

/-- a descriptor has at most one owner, and an owner exactly while its last `handedIn` is open -/
structure Descriptors.Owned (x : Descriptors Obj) (fd : ℤ) : Prop where
  one : ∀ o o', x.held o = some fd → x.held o' = some fd → o = o'
  settled : (∀ o, x.held o ≠ some fd) → Settled fd (x.events fd)
  pending : ∀ o, x.held o = some fd → ∃ l, Settled fd l ∧ x.events fd = l ++ [.handedIn fd]

theorem Descriptors.Owned.change {fd : ℤ} {x y : Descriptors Obj} (h : x.Owned fd)
    (hc : Change fd x y) : y.Owned fd := by
  cases hc with
  | same hheld hev =>
    refine ⟨fun o o' ho ho' => h.one o o' ((hheld o).mp ho) ((hheld o').mp ho'), fun hno => ?_,
      fun o ho => ?_⟩
    · rw [hev]
      exact h.settled fun o ho => hno o ((hheld o).mpr ho)
    · rw [hev]
      exact h.pending o ((hheld o).mp ho)
  | moved o o' ho hheld hev =>
    refine ⟨fun p p' hp hp' => ((hheld p).mp hp).trans ((hheld p').mp hp').symm, fun hno => ?_,
      fun p _ => ?_⟩
    · exact absurd ((hheld o').mpr rfl) (hno o')
    · rw [hev]
      exact h.pending o ho
  | handedIn o hno hheld hev =>
    refine ⟨fun p p' hp hp' => ((hheld p).mp hp).trans ((hheld p').mp hp').symm, fun hno' => ?_,
      fun p _ => ⟨x.events fd, h.settled hno, hev⟩⟩
    exact absurd ((hheld o).mpr rfl) (hno' o)
  | ended o e ho hno he hev =>
    refine ⟨fun p _ hp => absurd hp (hno p), fun _ => ?_, fun p hp => absurd hp (hno p)⟩
    obtain ⟨l, hl, hxl⟩ := h.pending o ho
    rw [hev, hxl, List.append_assoc]
    rcases he with rfl | rfl
    · exact hl.closed o
    · exact hl.released o

namespace Descriptors

section
variable (x : Descriptors Obj) (o p : Obj) (fd fd' : ℤ)

theorem held_store : (x.store o fd).held p = if p = o then some fd else x.held p :=
  Function.update_apply x.held o (some fd) p

@[simp] theorem held_close : (x.close o fd).held = x.held := rfl

@[simp] theorem held_handIn : (x.handIn fd).held = x.held := by
  unfold handIn
  split <;> rfl

@[simp] theorem held_handOut : (x.handOut o fd).held = x.held := by
  unfold handOut
  split <;> rfl

theorem held_reset : (x.reset o fd).held p = if p = o then some fd else x.held p := by
  unfold reset
  dsimp only
  split
  · rw [held_close, held_store]
  · rw [held_store]

theorem held_destroy : (x.destroy o).held p = if p = o then none else x.held p := by
  show Function.update (x.reset o (-1)).held o none p = _
  rw [Function.update_apply, held_reset]
  split <;> rfl

theorem get_of_held {x : Descriptors Obj} {o : Obj} {fd : ℤ} (h : x.held o = some fd) : x.get o = fd := by
  rw [get, h, Option.getD_some]

@[simp] theorem events_store : (x.store o fd).events fd' = x.events fd' := rfl

theorem events_record (e : FdEvent Obj) :
    (x.record e).events fd' = x.events fd' ++ if e.fd = fd' then [e] else [] := by
  show (x.log ++ [e]).filter _ = _
  rw [List.filter_append, List.filter_cons, List.filter_nil]
  simp only [decide_eq_true_eq, events]

theorem events_close : (x.close o fd).events fd' =
    x.events fd' ++ if fd = fd' then [.closed o fd] else [] :=
  events_record x fd' (.closed o fd)

theorem events_handIn (hpos : 0 ≤ fd') : (x.handIn fd).events fd' =
    x.events fd' ++ if fd = fd' then [.handedIn fd] else [] := by
  unfold handIn
  split
  · exact events_record x fd' (.handedIn fd)
  · rw [if_neg (by omega), List.append_nil]

theorem events_handOut (hpos : 0 ≤ fd') : (x.handOut o fd).events fd' =
    x.events fd' ++ if fd = fd' then [.released o fd] else [] := by
  unfold handOut
  split
  · exact events_record x fd' (.released o fd)
  · rw [if_neg (by omega), List.append_nil]

theorem events_reset (hpos : 0 ≤ fd') : (x.reset o fd).events fd' =
    x.events fd' ++ if x.get o = fd' then [.closed o fd'] else [] := by
  unfold reset
  dsimp only
  split
  · rw [events_close, events_store]
    split
    · rename_i h
      rw [h]
    · rfl
  · rw [if_neg (by omega), List.append_nil, events_store]

theorem events_destroy (hpos : 0 ≤ fd') : (x.destroy o).events fd' =
    x.events fd' ++ if x.get o = fd' then [.closed o fd'] else [] :=
  events_reset x o (-1) fd' hpos

end

end Descriptors

section
variable {x : Descriptors Obj} {fd : ℤ}

/-- an object that no longer has its descriptor has ended it, if it is this one -/
theorem Change.of_end {y : Descriptors Obj} (h : x.Owned fd) {o : Obj} {old : ℤ} {e : FdEvent Obj}
    (hold : x.held o = some old) (hy : y.held o ≠ some fd)
    (hheld : ∀ p, p ≠ o → (y.held p = some fd ↔ x.held p = some fd))
    (he : e = .closed o fd ∨ e = .released o fd)
    (hev : y.events fd = x.events fd ++ if old = fd then [e] else []) : Change fd x y := by
  by_cases hfd : old = fd
  · subst hfd
    rw [if_pos rfl] at hev
    refine .ended o e hold (fun p hp => ?_) he hev
    by_cases hpo : p = o
    · exact hy (hpo ▸ hp)
    · exact hpo (h.one p o ((hheld p hpo).mp hp) hold)
  · rw [if_neg hfd, List.append_nil] at hev
    refine .same (fun p => ?_) hev
    by_cases hpo : p = o
    · subst hpo
      refine iff_of_false hy fun hp => hfd ?_
      exact Option.some.inj (hold.symm.trans hp)
    · exact hheld p hpo

theorem change_construct (hpos : 0 ≤ fd) {o : Obj} {new : ℤ} (hdead : x.held o = none)
    (hfree : x.Free new) : Change fd x ((x.handIn new).store o new) := by
  have hheld : ∀ p, ((x.handIn new).store o new).held p = if p = o then some new else x.held p := by
    intro p
    rw [Descriptors.held_store, Descriptors.held_handIn]
  have hev : ((x.handIn new).store o new).events fd =
      x.events fd ++ if new = fd then [.handedIn new] else [] :=
    x.events_handIn new fd hpos
  by_cases hnew : new = fd
  · subst hnew
    rw [if_pos rfl] at hev
    have hno := (hfree hpos).2
    refine .handedIn o hno (fun p => ?_) hev
    grind
  · rw [if_neg hnew, List.append_nil] at hev
    refine .same (fun p => ?_) hev
    grind

theorem change_moveConstruct (h : x.Owned fd) (hpos : 0 ≤ fd) {o other : Obj}
    (hdead : x.held o = none) (halive : x.held other ≠ none) :
    Change fd x (x.moveConstruct o other) := by
  obtain ⟨given, hgiven⟩ := Option.ne_none_iff_exists'.mp halive
  have hheld : ∀ p, (x.moveConstruct o other).held p =
      if p = o then some given else if p = other then some (-1) else x.held p := by
    intro p
    show ((x.store other (-1)).store o (x.get other)).held p = _
    rw [Descriptors.held_store, Descriptors.held_store, Descriptors.get_of_held hgiven]
  by_cases hfd : given = fd
  · subst hfd
    refine .moved other o hgiven (fun p => ?_) rfl
    have := h.one p other
    grind
  · refine .same (fun p => ?_) rfl
    grind

theorem change_moveAssign (h : x.Owned fd) (hpos : 0 ≤ fd) {o other : Obj}
    (halive : x.held o ≠ none) (halive' : x.held other ≠ none) :
    Change fd x (x.moveAssign o other) := by
  unfold Descriptors.moveAssign
  split
  · exact .same (fun _ => Iff.rfl) rfl
  rename_i hne
  obtain ⟨old, hold⟩ := Option.ne_none_iff_exists'.mp halive
  obtain ⟨given, hgiven⟩ := Option.ne_none_iff_exists'.mp halive'
  show Change fd x ((x.store other (-1)).reset o (x.get other))
  have hheld : ∀ p, ((x.store other (-1)).reset o (x.get other)).held p =
      if p = o then some given else if p = other then some (-1) else x.held p := by
    intro p
    rw [Descriptors.held_reset, Descriptors.held_store, Descriptors.get_of_held hgiven]
  have hget : (x.store other (-1)).get o = old := by
    apply Descriptors.get_of_held
    rw [Descriptors.held_store, if_neg hne, hold]
  have hev : ((x.store other (-1)).reset o (x.get other)).events fd =
      x.events fd ++ if old = fd then [.closed o fd] else [] := by
    rw [Descriptors.events_reset _ _ _ _ hpos, hget, Descriptors.events_store]
  by_cases hfd : given = fd
  · subst hfd
    have hother : old ≠ given := by
      rintro rfl
      exact hne (h.one o other hold hgiven)
    rw [if_neg hother, List.append_nil] at hev
    refine .moved other o hgiven (fun p => ?_) hev
    have := h.one p other
    grind
  · refine .of_end h hold ?_ (fun p hp => ?_) (.inl rfl) hev
    · grind
    · grind

theorem change_release (h : x.Owned fd) (hpos : 0 ≤ fd) {o : Obj} (halive : x.held o ≠ none) :
    Change fd x ((x.store o (-1)).handOut o (x.get o)) := by
  obtain ⟨old, hold⟩ := Option.ne_none_iff_exists'.mp halive
  rw [Descriptors.get_of_held hold]
  have hheld : ∀ p, ((x.store o (-1)).handOut o old).held p = if p = o then some (-1) else x.held p := by
    intro p
    rw [Descriptors.held_handOut, Descriptors.held_store]
  have hev := (x.store o (-1)).events_handOut o old fd hpos
  refine .of_end (e := .released o fd) h hold ?_ (fun p hp => ?_) (.inr rfl) ?_
  · grind
  · rw [hheld, if_neg hp]
  · grind [Descriptors.events_store]

theorem change_reset (h : x.Owned fd) (hpos : 0 ≤ fd) {o : Obj} {new : ℤ} (halive : x.held o ≠ none)
    (hfree : x.Free new) : Change fd x ((x.handIn new).reset o new) := by
  obtain ⟨old, hold⟩ := Option.ne_none_iff_exists'.mp halive
  have hheld : ∀ p, ((x.handIn new).reset o new).held p = if p = o then some new else x.held p := by
    intro p
    rw [Descriptors.held_reset, Descriptors.held_handIn]
  have hget : (x.handIn new).get o = old := by
    apply Descriptors.get_of_held
    rw [Descriptors.held_handIn, hold]
  have hev := (x.handIn new).events_reset o new fd hpos
  rw [hget, x.events_handIn new fd hpos] at hev
  by_cases hnew : new = fd
  · subst hnew
    have hno := (hfree hpos).2
    have hother : old ≠ new := by
      rintro rfl
      exact hno o hold
    rw [if_pos rfl, if_neg hother, List.append_nil] at hev
    refine .handedIn o hno (fun p => ?_) hev
    grind
  · rw [if_neg hnew, List.append_nil] at hev
    refine .of_end h hold ?_ (fun p hp => ?_) (.inl rfl) hev
    · grind
    · rw [hheld, if_neg hp]

theorem change_destroy (h : x.Owned fd) (hpos : 0 ≤ fd) {o : Obj} (halive : x.held o ≠ none) :
    Change fd x (x.destroy o) := by
  obtain ⟨old, hold⟩ := Option.ne_none_iff_exists'.mp halive
  have hev := x.events_destroy o fd hpos
  rw [Descriptors.get_of_held hold] at hev
  refine .of_end h hold ?_ (fun p hp => ?_) (.inl rfl) hev
  · rw [Descriptors.held_destroy, if_pos rfl]
    exact nofun
  · rw [Descriptors.held_destroy, if_neg hp]

theorem FdAct.change (h : x.Owned fd) (hpos : 0 ≤ fd) (a : FdAct Obj) (ha : a.Ok x) :
    Change fd x (a.out x) := by
  cases a with
  | construct o new => exact change_construct hpos ha.1 ha.2
  | moveConstruct o other => exact change_moveConstruct h hpos ha.1 ha.2
  | moveAssign o other => exact change_moveAssign h hpos ha.1 ha.2
  | release o => exact change_release h hpos ha
  | reset o new => exact change_reset h hpos ha.1 ha.2
  | destroy o => exact change_destroy h hpos ha
  | environment _ _ => exact .same (fun _ => Iff.rfl) rfl

/-- Every descriptor is accounted for in every state that a program reaches. -/
theorem owned_reach {opened : ℤ → Bool} (hr : Reach FdAct.Ok FdAct.out { opened := opened } x) :
    ∀ fd, 0 ≤ fd → x.Owned fd := by
  refine reach_invariant (fun x => ∀ fd, 0 ≤ fd → x.Owned fd) hr (fun fd _ => ?_) ?_
  · exact ⟨fun _ _ h => absurd h nofun, fun _ => .nil, fun _ h => absurd h nofun⟩
  · intro x a h ha fd hpos
    exact (h fd hpos).change (a.change (h fd hpos) hpos ha)

end

/-- the new entries of the log, where only the object of the call closes, and only what it has -/
def Descriptors.Closes (x y : Descriptors Obj) (object : Option Obj) : Prop :=
  ∃ new, y.log = x.log ++ new ∧
    ∀ o fd, FdEvent.closed o fd ∈ new → object = some o ∧ x.held o = some fd ∧ 0 ≤ fd

namespace Descriptors

theorem held_of_get {x : Descriptors Obj} {o : Obj} (h : 0 ≤ x.get o) : x.held o = some (x.get o) := by
  cases hheld : x.held o with
  | none =>
    rw [get, hheld] at h
    exact absurd h (by decide)
  | some fd => rw [get_of_held hheld]

theorem log_reset (x : Descriptors Obj) (o : Obj) (replacement : ℤ) :
    (x.reset o replacement).log = x.log ++ if 0 ≤ x.get o then [.closed o (x.get o)] else [] := by
  unfold reset
  dsimp only
  split
  · rfl
  · rw [List.append_nil]
    rfl

theorem log_handIn (x : Descriptors Obj) (fd : ℤ) :
    (x.handIn fd).log = x.log ++ if 0 ≤ fd then [.handedIn fd] else [] := by
  unfold handIn
  split
  · rfl
  · rw [List.append_nil]

theorem Closes.of_log {x y : Descriptors Obj} {o : Obj} (before : List (FdEvent Obj))
    (hbefore : ∀ p fd, FdEvent.closed p fd ∉ before)
    (hlog : y.log = x.log ++ (before ++ if 0 ≤ x.get o then [.closed o (x.get o)] else [])) :
    x.Closes y (some o) := by
  refine ⟨_, hlog, fun p fd hmem => ?_⟩
  rcases List.mem_append.mp hmem with hmem | hmem
  · exact absurd hmem (hbefore p fd)
  split at hmem
  · rename_i hpos
    obtain ⟨rfl, rfl⟩ := FdEvent.closed.inj (List.mem_singleton.mp hmem)
    exact ⟨rfl, held_of_get hpos, hpos⟩
  · exact absurd hmem List.not_mem_nil

theorem Closes.of_no_close {x y : Descriptors Obj} {object : Option Obj} (new : List (FdEvent Obj))
    (hlog : y.log = x.log ++ new) (hnew : ∀ p fd, FdEvent.closed p fd ∉ new) : x.Closes y object :=
  ⟨new, hlog, fun p fd hmem => absurd hmem (hnew p fd)⟩

end Descriptors

theorem not_closed_mem_if {c : Prop} [Decidable c] {e : FdEvent Obj} (he : ∀ p fd, e ≠ .closed p fd)
    (p : Obj) (fd : ℤ) : FdEvent.closed p fd ∉ if c then [e] else [] := by
  split
  · exact fun hmem => he p fd (List.mem_singleton.mp hmem).symm
  · exact List.not_mem_nil

theorem FdAct.closes (x : Descriptors Obj) (a : FdAct Obj) : x.Closes (a.out x) a.object := by
  cases a with
  | construct o fd => exact .of_no_close _ (x.log_handIn fd) (not_closed_mem_if nofun)
  | moveConstruct o other => exact .of_no_close [] (List.append_nil _).symm fun _ _ => List.not_mem_nil
  | moveAssign o other =>
    show x.Closes (x.moveAssign o other) (some o)
    unfold Descriptors.moveAssign
    split
    · exact .of_no_close [] (List.append_nil _).symm fun _ _ => List.not_mem_nil
    · rename_i hne
      have hget : (x.store other (-1)).get o = x.get o := by
        rw [Descriptors.get, Descriptors.held_store, if_neg hne, Descriptors.get]
      refine .of_log [] (fun _ _ => List.not_mem_nil) ?_
      rw [List.nil_append, ← hget]
      exact (x.store other (-1)).log_reset o (x.get other)
  | release o =>
    show x.Closes ((x.store o (-1)).handOut o (x.get o)) (some o)
    unfold Descriptors.handOut
    split
    · refine .of_no_close [.released o (x.get o)] rfl fun p fd hmem => ?_
      exact nomatch List.mem_singleton.mp hmem
    · exact .of_no_close [] (List.append_nil _).symm fun _ _ => List.not_mem_nil
  | reset o fd =>
    have hget : (x.handIn fd).get o = x.get o := by
      rw [Descriptors.get, Descriptors.held_handIn, Descriptors.get]
    refine .of_log _ (not_closed_mem_if (c := 0 ≤ fd) (e := .handedIn fd) nofun) ?_
    show ((x.handIn fd).reset o fd).log = _
    rw [Descriptors.log_reset, hget, x.log_handIn, List.append_assoc]
  | destroy o =>
    refine .of_log [] (fun _ _ => List.not_mem_nil) ?_
    exact x.log_reset o (-1)
  | environment _ _ => exact .of_no_close [] (List.append_nil _).symm fun _ _ => List.not_mem_nil

/-- In every state that a program reaches, a descriptor has at most one owner.  A call closes only what
its object has.  Whatever was handed in has one end, a `close` or a `release`, before it is handed in
again; only the last is still open, and only while an object has the descriptor. -/
theorem descriptor_ownership {opened : ℤ → Bool} {x : Descriptors Obj}
    (hr : Reach FdAct.Ok FdAct.out { opened := opened } x) :
    (∀ fd, 0 ≤ fd → ∀ o o', x.held o = some fd → x.held o' = some fd → o = o') ∧
    (∀ a : FdAct Obj, a.Ok x → ∃ new, (a.out x).log = x.log ++ new ∧
      ∀ o fd, FdEvent.closed o fd ∈ new → a.object = some o ∧ x.held o = some fd ∧ 0 ≤ fd) ∧
    (∀ fd, 0 ≤ fd → Settled fd (x.events fd) ∨
      ∃ o l, x.held o = some fd ∧ Settled fd l ∧ x.events fd = l ++ [.handedIn fd]) ∧
    ((∀ o, x.held o = none) → ∀ fd, 0 ≤ fd → Settled fd (x.events fd)) := by
  have howned := owned_reach hr
  refine ⟨fun fd hpos => (howned fd hpos).one, fun a _ => a.closes x, fun fd hpos => ?_,
    fun hdead fd hpos => ?_⟩
  · by_cases hno : ∀ o, x.held o ≠ some fd
    · exact .inl ((howned fd hpos).settled hno)
    · obtain ⟨o, ho⟩ := not_forall_not.mp hno
      obtain ⟨l, hl, hev⟩ := (howned fd hpos).pending o ho
      exact .inr ⟨o, l, ho, hl, hev⟩
  · refine (howned fd hpos).settled fun o ho => ?_
    rw [hdead o] at ho
    exact nomatch ho

end

/-- two objects: 3 is moved from one to the other and closed by `reset`, 4 is released -/
def handover : List (FdAct Bool) :=
  [.construct false 3, .moveConstruct true false, .moveAssign true true, .reset true 4, .release true,
    .destroy false, .destroy true]

theorem descriptor_ownership_handover :
    ∃ x : Descriptors Bool, Reach FdAct.Ok FdAct.out { opened := fun _ => true } x ∧
      x.log = [.handedIn 3, .handedIn 4, .closed true 3, .released true 4] ∧
      Settled 3 (x.events 3) ∧ Settled 4 (x.events 4) := by
  have hr : Reach FdAct.Ok FdAct.out { opened := fun _ => true }
      (handover.foldl FdAct.out { opened := fun _ => true }) := by
    refine .head (a := .construct false 3) ⟨rfl, fun _ => ⟨rfl, fun _ => nofun⟩⟩ ?_
    refine .head (a := .moveConstruct true false) ⟨rfl, nofun⟩ ?_
    refine .head (a := .moveAssign true true) ⟨nofun, nofun⟩ ?_
    refine .head (a := .reset true 4) ⟨nofun, fun _ => ⟨rfl, by decide⟩⟩ ?_
    refine .head (a := .release true) nofun ?_
    refine .head (a := .destroy false) nofun ?_
    exact .head (a := .destroy true) nofun (.refl _)
  have hdead : ∀ o, (handover.foldl FdAct.out { opened := fun _ => true }).held o = none := by decide
  obtain ⟨-, -, -, hsettled⟩ := descriptor_ownership hr
  exact ⟨_, hr, by decide, hsettled hdead 3 (by decide), hsettled hdead 4 (by decide)⟩

end NetForge
