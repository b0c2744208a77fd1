import Mathlib.Data.List.Sublists
import Mathlib.Logic.Function.Basic
import Mathlib.Logic.Relation

/-!
# Linearizability

A history is a list of invocations and responses of numbered operations.  `Linearization` is the
usual condition: the operations, each once, in an order that a sequential object allows, which has
each completed operation with its response and keeps the order of operations that do not overlap.

`Linearization.sublist`: the operations of a client that waits for each response keep their order.

`Atomic.Step` is an object that takes each operation at one instant between its invocation and its
response.  `reachable_linearization`: its histories are linearizable.  A system is shown to be
linearizable by a simulation into `Atomic`.
-/

namespace Linearizable

inductive Event (Op Res : Type) where
  | inv (i : ℕ) (op : Op)
  | res (i : ℕ) (r : Res)

variable {σ Op Res : Type} (spec : σ → Op → Res → σ → Prop)

/-- a sequential run of the object -/
inductive Legal : σ → List (ℕ × Op × Res) → σ → Prop
  | nil (s : σ) : Legal s [] s
  | snoc {s s' s'' : σ} {l : List (ℕ × Op × Res)} {i : ℕ} {op : Op} {r : Res}
      (h : Legal s l s') (hs : spec s' op r s'') : Legal s (l ++ [(i, op, r)]) s''

/-- `order` is a linearization of the history `h` from the state `s` -/
structure Linearization (s : σ) (h : List (Event Op Res)) (order : List (ℕ × Op × Res)) : Prop where
  nodup : (order.map Prod.fst).Nodup
  legal : ∃ s', Legal spec s order s'
  invoked : ∀ i op r, (i, op, r) ∈ order → Event.inv i op ∈ h
  complete : ∀ i r, Event.res i r ∈ h → ∃ op, (i, op, r) ∈ order
  realTime : ∀ i r j op, [Event.res i r, Event.inv j op].Sublist h → j ∈ order.map Prod.fst →
    [i, j].Sublist (order.map Prod.fst)

/-- the operation is under way at the end of the history -/
def Open (h : List (Event Op Res)) (i : ℕ) (op : Op) : Prop :=
  Event.inv i op ∈ h ∧ ∀ r, Event.res i r ∉ h

/-- the last event of a history takes part in a pair only as its second -/
theorem pair_sublist_concat {α : Type} {a b c : α} {l : List α} (h : [a, b].Sublist (l ++ [c])) :
    [a, b].Sublist l ∨ b = c ∧ a ∈ l := by
  induction l with
  | nil =>
    have := h.length_le
    simp at this
  | cons x l ih =>
    cases h with
    | cons _ h =>
      rcases ih h with h | ⟨he, hm⟩
      · exact Or.inl (h.cons x)
      · exact Or.inr ⟨he, List.mem_cons_of_mem _ hm⟩
    | cons_cons _ h =>
      rcases List.mem_append.mp (List.singleton_sublist.mp h) with hb | hb
      · exact Or.inl ((List.singleton_sublist.mpr hb).cons_cons a)
      · exact Or.inr ⟨List.mem_singleton.mp hb, List.mem_cons_self ..⟩

/-- a list whose elements stand in the order of another, two by two, is a sublist of it -/
theorem sublist_of_pairs {α : Type} {order l : List α} (hn : order.Nodup) (hmem : ∀ a ∈ l, a ∈ order)
    (hp : l.Pairwise fun a b => [a, b].Sublist order) : l.Sublist order := by
  induction order generalizing l with
  | nil =>
    rw [List.eq_nil_iff_forall_not_mem.mpr fun a ha => List.not_mem_nil (hmem a ha)]
  | cons x order ih =>
    obtain ⟨hx, hno⟩ := List.nodup_cons.mp hn
    cases l with
    | nil => exact List.nil_sublist _
    | cons a l =>
      obtain ⟨ha, hp⟩ := List.pairwise_cons.mp hp
      -- what stands behind an element of the list stands behind `x`
      have hbehind {c b : α} (h : [c, b].Sublist (x :: order)) : b ∈ order := by
        cases h with
        | cons _ h => exact h.subset (by simp)
        | cons_cons _ h => exact h.subset (by simp)
      have hl : ∀ b ∈ l, b ∈ order := fun b hb => hbehind (ha b hb)
      have hpair {c b : α} (hc : c ∈ order) (h : [c, b].Sublist (x :: order)) :
          [c, b].Sublist order := by
        cases h with
        | cons _ h => exact h
        | cons_cons _ h => exact absurd hc hx
      have hrest : l.Pairwise fun c b => [c, b].Sublist order :=
        hp.imp_of_mem fun hc _ h => hpair (hl _ hc) h
      rcases List.mem_cons.mp (hmem a (List.mem_cons_self ..)) with rfl | hao
      · exact (ih hno hl hrest).cons_cons a
      · refine (ih hno ?_ (List.pairwise_cons.mpr ⟨fun b hb => hpair hao (ha b hb), hrest⟩)).cons x
        intro b hb
        rcases List.mem_cons.mp hb with rfl | hb
        · exact hao
        · exact hl b hb

namespace Linearization
variable {spec} {s : σ} {h : List (Event Op Res)} {order : List (ℕ × Op × Res)}
  (lin : Linearization spec s h order)
include lin

/-- an operation is invoked -/
theorem concat_inv {i : ℕ} {op : Op} (hi : i ∉ order.map Prod.fst) :
    Linearization spec s (h ++ [.inv i op]) order := by
  refine ⟨lin.nodup, lin.legal, ?_, ?_, ?_⟩
  · intro j o r hm
    exact List.mem_append_left _ (lin.invoked j o r hm)
  · intro j r hm
    rcases List.mem_append.mp hm with hm | hm
    · exact lin.complete j r hm
    · cases List.mem_singleton.mp hm
  · intro j r k o hsub hk
    rcases pair_sublist_concat hsub with hsub | ⟨he, _⟩
    · exact lin.realTime j r k o hsub hk
    · cases he
      exact absurd hk hi

/-- an operation that was invoked becomes the last one of the order -/
theorem take {s' s'' : σ} (hl : Legal spec s order s') {i : ℕ} {op : Op} {r : Res}
    (hs : spec s' op r s'') (hi : i ∉ order.map Prod.fst) (hinv : Event.inv i op ∈ h) :
    Linearization spec s h (order ++ [(i, op, r)]) := by
  refine ⟨?_, ⟨s'', .snoc hl hs⟩, ?_, ?_, ?_⟩
  · rw [List.map_append, List.nodup_append']
    refine ⟨lin.nodup, List.nodup_singleton _, ?_⟩
    intro j h1 h2
    rw [List.mem_singleton.mp h2] at h1
    exact hi h1
  · intro j o r' hm
    rcases List.mem_append.mp hm with hm | hm
    · exact lin.invoked j o r' hm
    · cases List.mem_singleton.mp hm
      exact hinv
  · intro j r' hm
    obtain ⟨o, ho⟩ := lin.complete j r' hm
    exact ⟨o, List.mem_append_left _ ho⟩
  · intro j r' k o hsub hk
    rw [List.map_append] at hk ⊢
    rcases List.mem_append.mp hk with hk | hk
    · exact (lin.realTime j r' k o hsub hk).trans (List.sublist_append_left _ _)
    · -- `k` is the operation that is taken now, and `j` was taken before its response
      rw [List.mem_singleton.mp hk]
      obtain ⟨o', ho'⟩ := lin.complete j r' (hsub.subset (List.mem_cons_self ..))
      have hj : j ∈ order.map Prod.fst := List.mem_map.mpr ⟨_, ho', rfl⟩
      exact (List.singleton_sublist.mpr hj).append (List.Sublist.refl [i])

/-- an operation of the order returns -/
theorem concat_res {i : ℕ} {op : Op} {r : Res} (hi : (i, op, r) ∈ order) :
    Linearization spec s (h ++ [.res i r]) order := by
  refine ⟨lin.nodup, lin.legal, ?_, ?_, ?_⟩
  · intro j o r' hm
    exact List.mem_append_left _ (lin.invoked j o r' hm)
  · intro j r' hm
    rcases List.mem_append.mp hm with hm | hm
    · exact lin.complete j r' hm
    · cases List.mem_singleton.mp hm
      exact ⟨op, hi⟩
  · intro j r' k o hsub hk
    rcases pair_sublist_concat hsub with hsub | ⟨he, _⟩
    · exact lin.realTime j r' k o hsub hk
    · cases he

/-- operations of which each is invoked after the response of the one before keep their order -/
theorem sublist {l : List (ℕ × Op × Res)}
    (hone : ∀ i op op', Event.inv i op ∈ h → Event.inv i op' ∈ h → op = op')
    (hl : ∀ e ∈ l, Event.inv e.1 e.2.1 ∈ h ∧ Event.res e.1 e.2.2 ∈ h)
    (hp : l.Pairwise fun a b => [Event.res a.1 a.2.2, Event.inv b.1 b.2.1].Sublist h) :
    l.Sublist order := by
  have hmem : ∀ e ∈ l, e ∈ order := by
    rintro ⟨i, op, r⟩ he
    obtain ⟨h1, h2⟩ := hl _ he
    obtain ⟨op', ho⟩ := lin.complete i r h2
    rw [hone i op op' h1 (lin.invoked i op' r ho)]
    exact ho
  refine sublist_of_pairs (List.Nodup.of_map _ lin.nodup) hmem (hp.imp_of_mem ?_)
  intro a b ha hb hab
  have hsub := lin.realTime a.1 a.2.2 b.1 b.2.1 hab (List.mem_map.mpr ⟨b, hmem b hb, rfl⟩)
  obtain ⟨l', hl', e⟩ := List.sublist_map_iff.mp hsub
  have hsame {e e' : ℕ × Op × Res} (h1 : e ∈ order) (h2 : e' ∈ order) (h3 : e.1 = e'.1) : e = e' :=
    List.inj_on_of_nodup_map lin.nodup h1 h2 h3
  obtain ⟨a', b', rfl⟩ := List.length_eq_two.mp (by simpa using (congrArg List.length e).symm)
  obtain ⟨e1, e2⟩ := List.cons.inj e
  obtain ⟨e2, _⟩ := List.cons.inj e2
  rw [hsame (hmem a ha) (hl'.subset (by simp)) e1, hsame (hmem b hb) (hl'.subset (by simp)) e2]
  exact hl'

end Linearization

/-! ## an atomic object -/

inductive Status (Op Res : Type) where
  | fresh
  | invoked (op : Op)
  | taken (op : Op) (r : Res)
  | returned

structure Atomic (σ Op Res : Type) where
  state : σ
  history : List (Event Op Res)
  order : List (ℕ × Op × Res)
  status : ℕ → Status Op Res

namespace Atomic

def init (s : σ) : Atomic σ Op Res := ⟨s, [], [], fun _ => .fresh⟩

inductive Step : Atomic σ Op Res → Atomic σ Op Res → Prop
  | inv (a : Atomic σ Op Res) (i : ℕ) (op : Op) (h : a.status i = .fresh) :
      Step a { a with
        history := a.history ++ [.inv i op], status := Function.update a.status i (.invoked op) }
  | take (a : Atomic σ Op Res) (i : ℕ) (op : Op) (r : Res) (s' : σ) (h : a.status i = .invoked op)
      (hs : spec a.state op r s') :
      Step a { a with
        state := s', order := a.order ++ [(i, op, r)],
        status := Function.update a.status i (.taken op r) }
  | res (a : Atomic σ Op Res) (i : ℕ) (op : Op) (r : Res) (h : a.status i = .taken op r) :
      Step a { a with
        history := a.history ++ [.res i r], status := Function.update a.status i .returned }

/-- what the status of an operation says about the history and the order -/
def StatusOk (a : Atomic σ Op Res) (i : ℕ) : Prop :=
  match a.status i with
  | .fresh => i ∉ a.order.map Prod.fst
  | .invoked op => i ∉ a.order.map Prod.fst ∧ Event.inv i op ∈ a.history
  | .taken op r => (i, op, r) ∈ a.order
  | .returned => True

structure Inv (s : σ) (a : Atomic σ Op Res) : Prop where
  legal : Legal spec s a.order a.state
  linear : Linearization spec s a.history a.order
  status : ∀ i, StatusOk a i

theorem init_inv (s : σ) : Inv spec s (init s : Atomic σ Op Res) :=
  ⟨.nil s, ⟨List.nodup_nil, ⟨s, .nil s⟩, nofun, nofun, nofun⟩, fun _ => nofun⟩

/-- an operation that the step does not take -/
theorem StatusOk.frame {a a' : Atomic σ Op Res} {i : ℕ} (h : StatusOk a i)
    (hs : a'.status i = a.status i) (hh : ∀ e ∈ a.history, e ∈ a'.history)
    (ho : ∀ t ∈ a.order, t ∈ a'.order)
    (hnew : i ∉ a.order.map Prod.fst → i ∉ a'.order.map Prod.fst) : StatusOk a' i := by
  unfold StatusOk at h ⊢
  rw [hs]
  split at h
  · exact hnew h
  · exact ⟨hnew h.1, hh _ h.2⟩
  · exact ho _ h
  · trivial

theorem step_inv {s : σ} {a a' : Atomic σ Op Res} (ha : Inv spec s a) (h : Step spec a a') :
    Inv spec s a' := by
  obtain ⟨hl, lin, hst⟩ := ha
  cases h with
  | inv i op hi =>
    have hnew := hst i
    rw [StatusOk, hi] at hnew
    refine ⟨hl, lin.concat_inv hnew, ?_⟩
    intro j
    by_cases hj : j = i
    · subst hj
      unfold StatusOk
      dsimp only
      rw [Function.update_self]
      exact ⟨hnew, List.mem_append_right _ (List.mem_singleton_self _)⟩
    · exact (hst j).frame (Function.update_of_ne hj ..) (fun e he => List.mem_append_left _ he)
        (fun t ht => ht) id
  | take i op r s' hi hs =>
    have hold := hst i
    rw [StatusOk, hi] at hold
    refine ⟨.snoc hl hs, lin.take hl hs hold.1 hold.2, ?_⟩
    intro j
    by_cases hj : j = i
    · subst hj
      unfold StatusOk
      dsimp only
      rw [Function.update_self]
      exact List.mem_append_right _ (List.mem_singleton_self _)
    · refine (hst j).frame (Function.update_of_ne hj ..) (fun e he => he)
        (fun t ht => List.mem_append_left _ ht) ?_
      intro h1 h2
      rw [List.map_append] at h2
      rcases List.mem_append.mp h2 with h2 | h2
      · exact h1 h2
      · exact hj (List.mem_singleton.mp h2)
  | res i op r hi =>
    have hold := hst i
    rw [StatusOk, hi] at hold
    refine ⟨hl, lin.concat_res hold, ?_⟩
    intro j
    by_cases hj : j = i
    · subst hj
      unfold StatusOk
      dsimp only
      rw [Function.update_self]
      trivial
    · exact (hst j).frame (Function.update_of_ne hj ..) (fun e he => List.mem_append_left _ he)
        (fun t ht => ht) id

theorem steps_inv {s : σ} {a a' : Atomic σ Op Res} (ha : Inv spec s a)
    (h : Relation.ReflTransGen (Step spec) a a') : Inv spec s a' := by
  induction h with
  | refl => exact ha
  | tail _ hstep ih => exact step_inv spec ih hstep

/-- the order grows at its end -/
theorem steps_order {a a' : Atomic σ Op Res} (h : Relation.ReflTransGen (Step spec) a a') :
    a.order <+: a'.order := by
  induction h with
  | refl => exact List.prefix_rfl
  | tail _ hstep ih =>
    refine ih.trans ?_
    cases hstep with
    | inv => exact List.prefix_rfl
    | take => exact List.prefix_append _ _
    | res => exact List.prefix_rfl

/-- an operation with a response has returned -/
theorem returned_of_res {s : σ} {a : Atomic σ Op Res}
    (h : Relation.ReflTransGen (Step spec) (init s) a) {i : ℕ} {r : Res} (hr : Event.res i r ∈ a.history) :
    a.status i = .returned := by
  induction h with
  | refl => exact absurd hr List.not_mem_nil
  | tail _ hstep ih =>
    -- another operation takes the step, or this one gives its response
    have hkeep {a : Atomic σ Op Res} {j : ℕ} {st : Status Op Res} (hi : a.status i = .returned)
        (hj : a.status j ≠ .returned) : Function.update a.status j st i = .returned := by
      have hne : i ≠ j := fun e => hj (by rw [← e, hi])
      rw [Function.update_of_ne hne, hi]
    cases hstep with
    | inv j op hj =>
      rcases List.mem_append.mp hr with hr | hr
      · exact hkeep (ih hr) (by simp [hj])
      · cases List.mem_singleton.mp hr
    | take j op r' s' hj hs => exact hkeep (ih hr) (by simp [hj])
    | res j op r' hj =>
      rcases List.mem_append.mp hr with hr | hr
      · exact hkeep (ih hr) (by simp [hj])
      · cases List.mem_singleton.mp hr
        exact Function.update_self ..

/-- **an atomic object is linearizable** -/
theorem reachable_linearization {s : σ} {a : Atomic σ Op Res}
    (h : Relation.ReflTransGen (Step spec) (init s) a) :
    Linearization spec s a.history a.order := by
  have hinv : Inv spec s a := by
    induction h with
    | refl => exact init_inv spec s
    | tail _ hstep ih => exact step_inv spec ih hstep
  exact hinv.linear

/-- an operation that was taken and did not return is under way -/
theorem open_of_taken {s : σ} {a : Atomic σ Op Res}
    (h : Relation.ReflTransGen (Step spec) (init s) a) {i : ℕ} {op : Op} {r : Res}
    (hst : a.status i = .taken op r) : Open a.history i op := by
  have hinv := steps_inv spec (init_inv spec s) h
  have hmem := hinv.status i
  rw [StatusOk, hst] at hmem
  refine ⟨hinv.linear.invoked i op r hmem, fun r' hr => ?_⟩
  have hreturned := returned_of_res spec h hr
  rw [hst] at hreturned
  cases hreturned

/-- **the rule for a system**: each of its steps is matched by steps of the atomic object -/
theorem linearization_of_simulation {S : Type} {step : S → S → Prop}
    {R : S → Atomic σ Op Res → Prop} {x₀ x : S} {s : σ} (hinit : R x₀ (init s))
    (hsim : ∀ x x' a, R x a → step x x' →
      ∃ a', Relation.ReflTransGen (Step spec) a a' ∧ R x' a')
    (h : Relation.ReflTransGen step x₀ x) :
    ∃ a, R x a ∧ Linearization spec s a.history a.order := by
  have hreach : ∃ a, R x a ∧ Relation.ReflTransGen (Step spec) (init s) a := by
    induction h with
    | refl => exact ⟨init s, hinit, .refl⟩
    | tail _ hstep ih =>
      obtain ⟨a, hR, ha⟩ := ih
      obtain ⟨a', ha', hR'⟩ := hsim _ _ a hR hstep
      exact ⟨a', hR', ha.trans ha'⟩
  obtain ⟨a, hR, ha⟩ := hreach
  exact ⟨a, hR, reachable_linearization spec ha⟩

end Atomic

end Linearizable
