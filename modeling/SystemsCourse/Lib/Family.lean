import Mathlib.Data.List.Basic
import Mathlib.Logic.Function.Basic

/-!
# Families of machines

A machine takes inputs one after another and answers each of them; a call may get stuck (`none`).
A family has one machine for each key, and each of its inputs names a key.

* `run_rel`          two machines that answer alike in related states have related runs;
* `run_total`        a machine whose invariant rules out getting stuck does not get stuck;
* `runFamily_select` the part of a run of the family that concerns a key is a run of the machine
                     of that key on its inputs.
-/

namespace Family

section
variable {S I O S' I' O' : Type}

/-- the answers and the last state -/
def run (step : S → I → Option (O × S)) : S → List I → Option (List O × S)
  | s, [] => some ([], s)
  | s, i :: is => (step s i).bind fun r => (run step r.2 is).map fun q => (r.1 :: q.1, q.2)

variable (step : S → I → Option (O × S))

theorem run_cons (s : S) (i : I) (is : List I) :
    run step s (i :: is)
      = (step s i).bind fun r => (run step r.2 is).map fun q => (r.1 :: q.1, q.2) := rfl

variable {step} {step' : S' → I' → Option (O' × S')}

theorem run_cons_eq_some {s s' : S} {i : I} {is : List I} {os : List O}
    (h : run step s (i :: is) = some (os, s')) :
    ∃ o s₁ os', step s i = some (o, s₁) ∧ run step s₁ is = some (os', s') ∧ os = o :: os' := by
  rw [run_cons] at h
  obtain ⟨⟨o, s₁⟩, hs, h⟩ := Option.bind_eq_some_iff.mp h
  obtain ⟨⟨os', s₂⟩, hr, e⟩ := Option.map_eq_some_iff.mp h
  cases e
  exact ⟨o, s₁, os', hs, hr, rfl⟩

/-- one step of the simulation, then the run -/
theorem run_rel {R : S → S' → Prop} {inp : I → I'} {out : O → O'}
    (hstep : ∀ s s' i, R s s' →
      Option.Rel (fun x y => y.1 = out x.1 ∧ R x.2 y.2) (step s i) (step' s' (inp i)))
    {s : S} {s' : S'} (h : R s s') (is : List I) :
    Option.Rel (fun x y => y.1 = x.1.map out ∧ R x.2 y.2) (run step s is)
      (run step' s' (is.map inp)) := by
  induction is generalizing s s' with
  | nil => exact .some ⟨rfl, h⟩
  | cons i is ih =>
    rw [List.map_cons, run_cons, run_cons]
    have hi := hstep s s' i h
    generalize step s i = x, step' s' (inp i) = y at hi ⊢
    cases hi with
    | none => exact .none
    | @some x y hr =>
      rw [Option.bind_some, Option.bind_some]
      have hrest := ih hr.2
      generalize run step x.2 is = xs, run step' y.2 (is.map inp) = ys at hrest ⊢
      cases hrest with
      | none => exact .none
      | some hq =>
        refine .some ⟨?_, hq.2⟩
        dsimp only
        rw [hr.1, hq.1, List.map_cons]

theorem run_total {Inv : S → Prop}
    (hstep : ∀ s i, Inv s → ∃ o s', step s i = some (o, s') ∧ Inv s') {s : S} (h : Inv s)
    (is : List I) : ∃ os s', run step s is = some (os, s') ∧ Inv s' := by
  induction is generalizing s with
  | nil => exact ⟨[], s, rfl, h⟩
  | cons i is ih =>
    obtain ⟨o, s₁, e, h₁⟩ := hstep s i h
    obtain ⟨os, s', e', h'⟩ := ih h₁
    refine ⟨o :: os, s', ?_, h'⟩
    rw [run_cons, e, Option.bind_some, e']
    rfl

end

/-! ## a machine for each key -/

section
variable {K S I O α β : Type} [DecidableEq K]

/-- the items of the key `k` -/
def select (k : K) (l : List (K × α)) : List α :=
  l.filterMap fun x => if x.1 = k then some x.2 else none

theorem select_cons_self (k : K) (a : α) (l : List (K × α)) :
    select k ((k, a) :: l) = a :: select k l := by
  simp [select]

theorem select_cons_ne {k j : K} (h : j ≠ k) (a : α) (l : List (K × α)) :
    select k ((j, a) :: l) = select k l := by
  simp [select, h]

variable (step : S → I → Option (O × S))

/-- a call changes the machine of its key only -/
def stepFamily (f : K → S) (x : K × I) : Option ((K × O) × (K → S)) :=
  (step (f x.1) x.2).map fun r => ((x.1, r.1), Function.update f x.1 r.2)

variable {step}

theorem stepFamily_some {f : K → S} {k : K} {i : I} {o : O} {s' : S} (h : step (f k) i = some (o, s')) :
    stepFamily step f (k, i) = some ((k, o), Function.update f k s') := by
  rw [stepFamily, h]
  rfl

/-- **the machines of a family do not see each other** -/
theorem runFamily_select {f f' : K → S} {l : List (K × I)} {log : List (K × O)}
    (h : run (stepFamily step) f l = some (log, f')) (k : K) :
    run step (f k) (select k l) = some (select k log, f' k) := by
  induction l generalizing f log with
  | nil =>
    cases h
    rfl
  | cons x l ih =>
    obtain ⟨j, i⟩ := x
    obtain ⟨out, f₁, log', hs, hrun, rfl⟩ := run_cons_eq_some h
    obtain ⟨⟨o, s'⟩, hstep, e⟩ := Option.map_eq_some_iff.mp hs
    cases e
    have hk := ih hrun
    dsimp only at hk hstep
    by_cases hj : j = k
    · subst hj
      rw [Function.update_self] at hk
      rw [select_cons_self, select_cons_self, run_cons, hstep, Option.bind_some, hk]
      rfl
    · rw [Function.update_of_ne (Ne.symm hj)] at hk
      rw [select_cons_ne hj, select_cons_ne hj]
      exact hk

theorem stepFamily_total {Inv : K → S → Prop}
    (hstep : ∀ k s i, Inv k s → ∃ o s', step s i = some (o, s') ∧ Inv k s') (f : K → S)
    (x : K × I) (h : ∀ k, Inv k (f k)) :
    ∃ o f', stepFamily step f x = some (o, f') ∧ ∀ k, Inv k (f' k) := by
  obtain ⟨j, i⟩ := x
  obtain ⟨o, s', e, hs⟩ := hstep j (f j) i (h j)
  refine ⟨(j, o), Function.update f j s', by rw [stepFamily, e]; rfl, ?_⟩
  intro k
  by_cases hk : k = j
  · subst hk
    rw [Function.update_self]
    exact hs
  · rw [Function.update_of_ne hk]
    exact h k

end

end Family
