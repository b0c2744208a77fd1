import Mathlib.Data.List.Basic

/-!
# Programs that read a span

A program over a span of `β` is a tree: it is done, or it reads at an index and goes on with what it has
read.  A read outside of the span is undefined behaviour, and the program has no result.

* `run span`         the result;
* `indices span`     the indices that the program reads, up to one that is outside;
* `InBounds span`    all of them are inside; the rules follow the program (`pure`, `get`, `bind`, `foldlM`);
* `InBounds.exists_run`  such a program has a result.
-/

namespace Span

inductive Reading (β α : Type) where
  | done (a : α)
  | read (index : ℕ) (next : β → Reading β α)

namespace Reading
variable {β α γ δ : Type}

def bind : Reading β α → (α → Reading β γ) → Reading β γ
  | .done a, f => f a
  | .read i next, f => .read i fun b => (next b).bind f

instance : Monad (Reading β) where
  pure := .done
  bind := bind

/-- the byte at an index -/
def get (i : ℕ) : Reading β β := .read i .done

def run (span : List β) : Reading β α → Option α
  | .done a => some a
  | .read i next => span[i]?.bind fun b => (next b).run span

def indices (span : List β) : Reading β α → List ℕ
  | .done _ => []
  | .read i next => i :: span[i]?.elim [] fun b => (next b).indices span

def InBounds (span : List β) (t : Reading β α) : Prop := ∀ i ∈ t.indices span, i < span.length

variable {span : List β}

/-! ## results -/

theorem run_get (span : List β) (i : ℕ) : (get i).run span = span[i]? := by
  show span[i]?.bind some = _
  exact Option.bind_fun_some _

theorem run_bind (t : Reading β α) (f : α → Reading β γ) :
    (t >>= f).run span = (t.run span).bind fun a => (f a).run span := by
  induction t with
  | done a => rfl
  | read i next ih =>
    show (span[i]?.bind fun b => (next b >>= f).run span)
      = (span[i]?.bind fun b => (next b).run span).bind fun a => (f a).run span
    cases span[i]? with
    | none => rfl
    | some b => exact ih b

/-! ## indices -/

theorem indices_bind (t : Reading β α) (f : α → Reading β γ) :
    (t >>= f).indices span
      = t.indices span ++ ((t.run span).elim [] fun a => (f a).indices span) := by
  induction t with
  | done a => rfl
  | read i next ih =>
    show (i :: span[i]?.elim [] fun b => (next b >>= f).indices span)
      = i :: (span[i]?.elim [] fun b => (next b).indices span)
        ++ ((span[i]?.bind fun b => (next b).run span).elim [] fun a => (f a).indices span)
    cases span[i]? with
    | none => rfl
    | some b => exact congrArg (i :: ·) (ih b)

theorem InBounds.pure (a : α) : (Pure.pure a : Reading β α).InBounds span :=
  fun _ hi => absurd hi List.not_mem_nil

theorem InBounds.get {i : ℕ} (h : i < span.length) : (Reading.get i).InBounds span := by
  intro j hj
  have e : (Reading.get i).indices span = [i] := by
    show (i :: span[i]?.elim [] fun _ => []) = _
    rw [List.getElem?_eq_getElem h]
    rfl
  rw [e, List.mem_singleton] at hj
  rw [hj]
  exact h

theorem InBounds.bind {t : Reading β α} {f : α → Reading β γ} (ht : t.InBounds span)
    (hf : ∀ a, t.run span = some a → (f a).InBounds span) : (t >>= f).InBounds span := by
  intro i hi
  rw [indices_bind, List.mem_append] at hi
  rcases hi with hi | hi
  · exact ht i hi
  · cases e : t.run span with
    | none =>
      rw [e] at hi
      cases hi
    | some a =>
      rw [e] at hi
      exact hf a e i hi

/-- a loop over a list -/
theorem InBounds.foldlM {f : γ → δ → Reading β γ} {l : List δ}
    (h : ∀ c, ∀ d ∈ l, (f c d).InBounds span) (c : γ) : (l.foldlM f c).InBounds span := by
  induction l generalizing c with
  | nil => exact InBounds.pure c
  | cons d l ih =>
    rw [List.foldlM_cons]
    refine InBounds.bind (h c d List.mem_cons_self) fun c' _ => ?_
    exact ih (fun c d hd => h c d (List.mem_cons_of_mem _ hd)) c'

/-- a program that stays inside of the span has a result -/
theorem InBounds.exists_run {t : Reading β α} (h : t.InBounds span) : ∃ a, t.run span = some a := by
  induction t with
  | done a => exact ⟨a, rfl⟩
  | read i next ih =>
    have hi : i < span.length := h i (show i ∈ i :: _ from List.mem_cons_self)
    have hnext : (next span[i]).InBounds span := by
      intro j hj
      refine h j (show j ∈ i :: span[i]?.elim [] _ from List.mem_cons_of_mem _ ?_)
      rw [List.getElem?_eq_getElem hi]
      exact hj
    obtain ⟨a, ha⟩ := ih _ hnext
    refine ⟨a, ?_⟩
    show (span[i]?.bind fun b => (next b).run span) = some a
    rw [List.getElem?_eq_getElem hi]
    exact ha

end Reading
end Span
