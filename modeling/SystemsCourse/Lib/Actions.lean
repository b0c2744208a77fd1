import Mathlib.Algebra.Ring.Nat
import Mathlib.Logic.Relation

/-!
# Systems given by actions

A system is given by its actions: `Ok x a` says that the action `a` can happen in the state `x`, and
`out x a` is the state after it.  Several threads are interleaved because their actions are.

* `reach_invariant`  what each action keeps holds in every state that is reached;
* `reach_map`        a map of states under which each action is a run of another system;
* `reach_of_variant` a run to a goal, by an action that makes a number smaller;
* `perform_reach`    a list of actions that can be performed is a run;
* `run_history`      what each action keeps, if it speaks of the actions before;
* `Run.exists_change` the action of a run that changes a value;
* `run_amortized`    costs that are paid from a potential;
* `run_bounded`      a number that some actions make smaller, and the others not much larger, bounds
                     how many of the former a run has.
-/

namespace Actions

section
variable {S A : Type} (Ok : S → A → Prop) (out : S → A → S)

def Step (x y : S) : Prop := ∃ a, Ok x a ∧ y = out x a

/-- `y` is reached from `x` -/
def Reach : S → S → Prop := Relation.ReflTransGen (Step Ok out)

/-- perform the actions one after another, as far as they can happen -/
def perform [∀ x a, Decidable (Ok x a)] : S → List A → Option S
  | x, [] => some x
  | x, a :: as => if Ok x a then perform (out x a) as else none

variable {Ok out}

theorem Reach.refl (x : S) : Reach Ok out x x := Relation.ReflTransGen.refl

theorem Reach.head {x y : S} {a : A} (h : Ok x a) (hr : Reach Ok out (out x a) y) :
    Reach Ok out x y := Relation.ReflTransGen.head ⟨a, h, rfl⟩ hr

theorem Reach.trans {x y z : S} (h : Reach Ok out x y) (h' : Reach Ok out y z) :
    Reach Ok out x z := Relation.ReflTransGen.trans h h'

theorem Reach.single {x : S} {a : A} (h : Ok x a) : Reach Ok out x (out x a) :=
  Relation.ReflTransGen.single ⟨a, h, rfl⟩

theorem reach_invariant (Inv : S → Prop) {x y : S} (hr : Reach Ok out x y) (h : Inv x)
    (hstep : ∀ x a, Inv x → Ok x a → Inv (out x a)) : Inv y := by
  induction hr with
  | refl => exact h
  | tail _ hs ih =>
    obtain ⟨a, ha, rfl⟩ := hs
    exact hstep _ a ih ha

theorem reach_map {S' A' : Type} {Ok' : S' → A' → Prop} {out' : S' → A' → S'} (f : S → S')
    {x y : S} (hr : Reach Ok out x y)
    (hstep : ∀ x a, Ok x a → Reach Ok' out' (f x) (f (out x a))) : Reach Ok' out' (f x) (f y) := by
  induction hr with
  | refl => exact Reach.refl _
  | tail _ hs ih =>
    obtain ⟨a, ha, rfl⟩ := hs
    exact ih.trans (hstep _ a ha)

theorem reach_of_variant (Inv Goal : S → Prop) (m : S → ℕ)
    (hstep : ∀ x, Inv x → Goal x ∨ ∃ a, Ok x a ∧ Inv (out x a) ∧ m (out x a) < m x) {x : S}
    (h : Inv x) : ∃ y, Reach Ok out x y ∧ Goal y := by
  induction hn : m x using Nat.strongRecOn generalizing x with
  | ind n ih =>
    subst hn
    rcases hstep x h with hg | ⟨a, ha, hi, hlt⟩
    · exact ⟨x, Reach.refl x, hg⟩
    · obtain ⟨y, hr, hg⟩ := ih _ hlt hi rfl
      exact ⟨y, Reach.head ha hr, hg⟩

theorem perform_reach [∀ x a, Decidable (Ok x a)] {x y : S} {as : List A}
    (h : perform Ok out x as = some y) : Reach Ok out x y := by
  induction as generalizing x with
  | nil =>
    cases h
    exact Reach.refl _
  | cons a as ih =>
    rw [perform] at h
    split at h
    · rename_i ha
      exact Reach.head ha (ih h)
    · cases h

/-- the actions of the list lead from `x` to `y` -/
def Run (Ok : S → A → Prop) (out : S → A → S) : S → List A → S → Prop
  | x, [], y => y = x
  | x, a :: as, y => Ok x a ∧ Run Ok out (out x a) as y

theorem Run.reach {x y : S} {as : List A} (h : Run Ok out x as y) : Reach Ok out x y := by
  induction as generalizing x with
  | nil =>
    cases h
    exact Reach.refl _
  | cons a as ih => exact Reach.head h.1 (ih h.2)

theorem Run.mono {Ok' : S → A → Prop} {x y : S} {as : List A} (h : Run Ok out x as y)
    (hok : ∀ x a, Ok x a → Ok' x a) : Run Ok' out x as y := by
  induction as generalizing x with
  | nil => exact h
  | cons a as ih => exact ⟨hok x a h.1, ih h.2⟩

theorem Run.append {x y z : S} {as bs : List A} (h : Run Ok out x as y) (h' : Run Ok out y bs z) :
    Run Ok out x (as ++ bs) z := by
  induction as generalizing x with
  | nil =>
    cases h
    exact h'
  | cons a as ih => exact ⟨h.1, ih h.2⟩

/-- what each action keeps, with the actions before it -/
theorem run_history (P : List A → S → Prop) {x y : S} {as : List A} (hrun : Run Ok out x as y)
    (h : P [] x) (hstep : ∀ as x a, P as x → Ok x a → P (as ++ [a]) (out x a)) : P as y := by
  have hfrom : ∀ before x, P before x → Run Ok out x as y → P (before ++ as) y := by
    clear h hrun x
    induction as with
    | nil =>
      intro before x h hrun
      cases hrun
      rwa [List.append_nil]
    | cons a as ih =>
      intro before x h hrun
      rw [List.append_cons]
      exact ih _ _ (hstep before x a h hrun.1) hrun.2
  exact hfrom [] x h hrun

/-- what each action of a run needs and its end has, its start has -/
theorem Run.start {P : S → Prop} {x y : S} {as : List A} (h : Run (fun x a => Ok x a ∧ P x) out x as y)
    (hy : P y) : P x := by
  cases as with
  | nil =>
    cases h
    exact hy
  | cons a as => exact h.1.2

/-- a value that is not the same at the end was changed by one of the actions -/
theorem Run.exists_change {B : Type} (f : S → B) {x y : S} {as : List A} (h : Run Ok out x as y)
    (hne : f y ≠ f x) : ∃ before a after z, as = before ++ a :: after ∧ Run Ok out x before z ∧
      Ok z a ∧ Run Ok out (out z a) after y ∧ f (out z a) ≠ f z := by
  induction as generalizing x with
  | nil =>
    cases h
    exact absurd rfl hne
  | cons a as ih =>
    by_cases ha : f (out x a) = f x
    · rw [← ha] at hne
      obtain ⟨before, b, after, z, rfl, hbefore, hb, hafter, hz⟩ := ih h.2 hne
      exact ⟨a :: before, b, after, z, rfl, ⟨h.1, hbefore⟩, hb, hafter, hz⟩
    · exact ⟨[], a, as, x, rfl, rfl, h.1, h.2, ha⟩

/-- what grows along a run is bounded by its last value -/
theorem Run.below {x y : S} {as : List A} (b : S → ℕ) (hmono : ∀ x a, Ok x a → b x ≤ b (out x a))
    (h : Run Ok out x as y) :
    Run (fun x a => Ok x a ∧ b (out x a) ≤ b y) out x as y ∧ b x ≤ b y := by
  induction as generalizing x with
  | nil =>
    cases h
    exact ⟨rfl, Nat.le_refl _⟩
  | cons a as ih =>
    obtain ⟨ha, hrun⟩ := h
    obtain ⟨hrest, hle⟩ := ih hrun
    exact ⟨⟨⟨ha, hle⟩, hrest⟩, Nat.le_trans (hmono x a ha) hle⟩

/-- the costs of the actions are paid from a potential and from what the actions bring -/
theorem run_amortized (Inv : S → Prop) (m : S → ℕ) (cost pay : A → ℕ)
    (hinv : ∀ x a, Inv x → Ok x a → Inv (out x a))
    (hpay : ∀ x a, Inv x → Ok x a → cost a + m (out x a) ≤ m x + pay a) {x y : S} {as : List A}
    (h : Inv x) (hrun : Run Ok out x as y) :
    (as.map cost).sum + m y ≤ m x + (as.map pay).sum := by
  induction as generalizing x with
  | nil =>
    cases hrun
    exact Nat.le_of_eq (Nat.add_comm 0 _)
  | cons a as ih =>
    obtain ⟨ha, hrun⟩ := hrun
    have hrest := ih (hinv x a h ha) hrun
    have hstep := hpay x a h ha
    simp only [List.map_cons, List.sum_cons]
    omega

theorem sum_map_ite (p : A → Bool) (k : ℕ) (as : List A) :
    (as.map fun a => if p a then k else 0).sum = k * as.countP p := by
  induction as with
  | nil => rfl
  | cons a as ih =>
    rw [List.map_cons, List.sum_cons, ih, List.countP_cons]
    split
    · rw [Nat.mul_add, Nat.mul_one, Nat.add_comm]
    · rw [Nat.zero_add, Nat.add_zero]

theorem run_bounded (Inv : S → Prop) (m : S → ℕ) (slack : ℕ) (outside : A → Bool)
    (hinv : ∀ x a, Inv x → Ok x a → Inv (out x a))
    (hown : ∀ x a, Inv x → Ok x a → outside a = false → m (out x a) < m x)
    (hout : ∀ x a, Inv x → Ok x a → outside a = true → m (out x a) ≤ m x + slack) {x y : S}
    {as : List A} (h : Inv x) (hrun : Run Ok out x as y) :
    as.countP (fun a => !outside a) + m y ≤ m x + slack * as.countP outside := by
  have hsum := run_amortized Inv m (fun a => if !outside a then 1 else 0)
    (fun a => if outside a then slack else 0) hinv (fun x a hx ha => ?_) h hrun
  · rwa [sum_map_ite, sum_map_ite, Nat.one_mul] at hsum
  · cases ho : outside a with
    | false =>
      have := hown x a hx ha ho
      simp only [Bool.not_false, if_true, Bool.false_eq_true, if_false]
      omega
    | true =>
      have := hout x a hx ha ho
      simp only [Bool.not_true, if_true, Bool.false_eq_true, if_false]
      omega

end

end Actions
