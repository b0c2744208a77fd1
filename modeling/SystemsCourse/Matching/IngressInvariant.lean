import Mathlib.Data.List.Nodup
import SystemsCourse.Matching.Capacity

/-!
# The invariant of the lock-free ingress queue

Each cell belongs to one ticket at a time, and is in one of four phases: free for the push of the
ticket, being written by the thread that took the ticket, full, or being read by the thread that
took the ticket for its pop.  `Inv` says for each phase what the cell holds and how its ticket
lies to the two counters, and for each thread what it has learned from its loads.

The one fact about numbers is `ticket_unique`: two tickets of one cell that are less than the
capacity apart are the same.  A thread that wins a compare-exchange knows that the sequence number
of its cell was at least its position; only the right phase is compatible with that
(`Inv.free_of_exchange`, `Inv.full_of_exchange`).

`Inv.outside` and `Inv.change` are the frame rules: what a step of one thread, outside all cells or
at one cell, leaves alone.
-/

set_option linter.unusedSectionVars false
set_option linter.unusedVariables false

namespace Matching

inductive Phase (Tid : Type) where
  | free
  | writing (t : Tid)
  | full
  | reading (t : Tid)

def Phase.owner {Tid : Type} : Phase Tid → Option Tid
  | .free => none
  | .writing t => some t
  | .full => none
  | .reading t => some t

/-- the position of a thread that is inside a cell -/
def IngressPc.inside {α : Type} : IngressPc α → Option UInt64
  | .pushWrite _ p => some p
  | .pushStore _ p => some p
  | .popMove p => some p
  | .popReset p _ => some p
  | .popStore p _ => some p
  | _ => none

theorem ticket_unique {n a b : ℕ} (h : a % n = b % n) (h1 : a < b + n) (h2 : b < a + n) :
    a = b := by
  have ha := Nat.div_add_mod a n
  have hb := Nat.div_add_mod b n
  rcases Nat.lt_trichotomy (a / n) (b / n) with hlt | heq | hlt
  · have := Nat.mul_le_mul_left n hlt
    rw [Nat.mul_succ] at this
    omega
  · rw [heq] at ha
    omega
  · have := Nat.mul_le_mul_left n hlt
    rw [Nat.mul_succ] at this
    omega

namespace Queue
variable {Tid α : Type} [DecidableEq Tid] (moved : α → α)

def size (x : Queue Tid α) : ℕ := x.capacity.toNat

/-- what a cell holds in its phase -/
def CellOk (x : Queue Tid α) (c : ℕ) (g : ℕ × Phase Tid) : Prop :=
  g.1 % x.size = c ∧
  match g.2 with
  | .free => (x.cells c).sequence.toNat = g.1 ∧ (x.cells c).value = none ∧
      x.pushes.length ≤ g.1 ∧ g.1 < x.pops + x.size
  | .writing t => (x.cells c).sequence.toNat = g.1 ∧ x.pops ≤ g.1 ∧ g.1 < x.pushes.length ∧
      ∃ a p, p.toNat = g.1 ∧ x.pushes[g.1]? = some (t, a) ∧
        (x.pc t = .pushWrite a p ∧ (x.cells c).value = none ∨
          x.pc t = .pushStore a p ∧ (x.cells c).value = some a)
  | .full => (x.cells c).sequence.toNat = g.1 + 1 ∧ x.pops ≤ g.1 ∧ g.1 < x.pushes.length ∧
      ∃ t a, x.pushes[g.1]? = some (t, a) ∧ (x.cells c).value = some a
  | .reading t => (x.cells c).sequence.toNat = g.1 + 1 ∧ g.1 < x.pops ∧
      x.pushes.length ≤ g.1 + x.size ∧
      ∃ t' a p, p.toNat = g.1 ∧ x.pushes[g.1]? = some (t', a) ∧
        (x.pc t = .popMove p ∧ (x.cells c).value = some a ∨
          x.pc t = .popReset p (some a) ∧ (x.cells c).value = some (moved a) ∨
          x.pc t = .popStore p (some a) ∧ (x.cells c).value = none)

/-- what a thread knows -/
def ThreadOk (x : Queue Tid α) (g : ℕ → ℕ × Phase Tid) (t : Tid) : IngressPc α → Prop
  | .idle => True
  | .pushLoad _ => True
  | .popLoad => True
  | .pushSequence _ p => p.toNat ≤ x.pushes.length
  | .pushExchange _ p => p.toNat ≤ x.pushes.length ∧
      p.toNat ≤ (x.cells (p.toNat % x.size)).sequence.toNat
  | .popSequence p => p.toNat ≤ x.pops
  | .popExchange p => p.toNat ≤ x.pops ∧
      p.toNat + 1 ≤ (x.cells (p.toNat % x.size)).sequence.toNat
  | .pushWrite _ p => g (p.toNat % x.size) = (p.toNat, .writing t) ∧
      ∀ i a, (i, t, a) ∈ x.pushed → i < p.toNat
  | .pushStore _ p => g (p.toNat % x.size) = (p.toNat, .writing t) ∧
      ∀ i a, (i, t, a) ∈ x.pushed → i < p.toNat
  | .popMove p => g (p.toNat % x.size) = (p.toNat, .reading t)
  | .popReset p _ => g (p.toNat % x.size) = (p.toNat, .reading t)
  | .popStore p _ => g (p.toNat % x.size) = (p.toNat, .reading t)

structure Inv (x : Queue Tid α) (g : ℕ → ℕ × Phase Tid) : Prop where
  size : ∃ k, 1 ≤ k ∧ k ≤ 62 ∧ x.size = 2^k
  enqueue : x.enqueue.toNat = x.pushes.length
  dequeue : x.dequeue.toNat = x.pops
  pops_le : x.pops ≤ x.pushes.length
  pushes_le : x.pushes.length ≤ x.pops + x.size
  cells : ∀ c, c < x.size → x.CellOk moved c (g c)
  threads : ∀ t, x.ThreadOk g t (x.pc t)
  pushed : ∀ i t a, (i, t, a) ∈ x.pushed → x.pushes[i]? = some (t, a) ∧
    ∀ t', g (i % x.size) ≠ (i, .writing t')
  popped : ∀ i t r, (i, t, r) ∈ x.popped → i < x.pops ∧
    (∃ t' a, x.pushes[i]? = some (t', a) ∧ r = some a) ∧ ∀ t', g (i % x.size) ≠ (i, .reading t')
  pushed_nodup : (x.pushed.map Prod.fst).Nodup
  popped_nodup : (x.popped.map Prod.fst).Nodup
  pushed_order : x.pushed.Pairwise fun u v => u.2.1 = v.2.1 → u.1 < v.1

/-- the number of operations so far: a call takes at most one ticket -/
def operations (x : Queue Tid α) : ℕ := x.pushes.length + x.pops

/-! ## what follows from the invariant -/

section
variable {moved} {x : Queue Tid α} {g : ℕ → ℕ × Phase Tid} (h : x.Inv moved g)
include h

theorem Inv.two_le : 2 ≤ x.size := by
  obtain ⟨k, h1, _, e⟩ := h.size
  rw [e]
  exact Nat.pow_le_pow_right (n := 2) (by omega) h1

theorem Inv.size_le : x.size ≤ 2^62 := by
  obtain ⟨k, _, h2, e⟩ := h.size
  rw [e]
  exact Nat.pow_le_pow_right (by omega) h2

theorem Inv.index_eq (p : UInt64) : x.index p = p.toNat % x.size := by
  obtain ⟨k, h1, h2, e⟩ := h.size
  unfold index mask
  rw [mask_two_pow e, e]

theorem Inv.mod_lt (n : ℕ) : n % x.size < x.size := Nat.mod_lt _ (by have := h.two_le; omega)

/-- an owner is inside its cell -/
theorem Inv.owner_inside {c : ℕ} (hc : c < x.size) {t : Tid} (ho : (g c).2.owner = some t) :
    ∃ p, (x.pc t).inside = some p ∧ p.toNat % x.size = c := by
  obtain ⟨hmod, hcell⟩ := h.cells c hc
  cases hph : (g c).2 with
  | free =>
    rw [hph] at ho
    cases ho
  | full =>
    rw [hph] at ho
    cases ho
  | writing t' =>
    rw [hph] at ho hcell
    cases ho
    obtain ⟨_, _, _, a, p, hp, _, hpc⟩ := hcell
    refine ⟨p, ?_, by rw [hp, hmod]⟩
    rcases hpc with ⟨e, _⟩ | ⟨e, _⟩ <;> rw [e] <;> rfl
  | reading t' =>
    rw [hph] at ho hcell
    cases ho
    obtain ⟨_, _, _, _, a, p, hp, _, hpc⟩ := hcell
    refine ⟨p, ?_, by rw [hp, hmod]⟩
    rcases hpc with ⟨e, _⟩ | ⟨e, _⟩ | ⟨e, _⟩ <;> rw [e] <;> rfl

/-- a thread inside a cell is its owner -/
theorem Inv.inside_owner {t : Tid} {p : UInt64} (hp : (x.pc t).inside = some p) :
    (g (p.toNat % x.size)).1 = p.toNat ∧ (g (p.toNat % x.size)).2.owner = some t := by
  have ht := h.threads t
  cases hpc : x.pc t <;> rw [hpc] at hp ht <;> cases hp
  · exact ⟨by rw [ht.1], by rw [ht.1]; rfl⟩
  · exact ⟨by rw [ht.1], by rw [ht.1]; rfl⟩
  · exact ⟨by rw [ht], by rw [ht]; rfl⟩
  · exact ⟨by rw [ht], by rw [ht]; rfl⟩
  · exact ⟨by rw [ht], by rw [ht]; rfl⟩

/-- sequence numbers stay far from overflow -/
theorem Inv.sequence_lt (hops : x.pushes.length < 2^62) {c : ℕ} (hc : c < x.size) :
    (x.cells c).sequence.toNat < 2^63 := by
  obtain ⟨_, hcell⟩ := h.cells c hc
  have hs := h.size_le
  have hle := h.pops_le
  cases hph : (g c).2 with
  | free =>
    rw [hph] at hcell
    obtain ⟨h1, _, _, h2⟩ := hcell
    omega
  | writing t =>
    rw [hph] at hcell
    obtain ⟨h1, _, h2, _⟩ := hcell
    omega
  | full =>
    rw [hph] at hcell
    obtain ⟨h1, _, h2, _⟩ := hcell
    omega
  | reading t =>
    rw [hph] at hcell
    obtain ⟨h1, h2, _, _⟩ := hcell
    omega

/-- **a push that wins the exchange finds its cell free** -/
theorem Inv.free_of_exchange {p : UInt64} (hp : p.toNat = x.pushes.length)
    (hs : p.toNat ≤ (x.cells (p.toNat % x.size)).sequence.toNat) :
    g (p.toNat % x.size) = (p.toNat, .free) := by
  have hc := h.mod_lt p.toNat
  obtain ⟨hmod, hcell⟩ := h.cells _ hc
  have h2 := h.two_le
  have hle := h.pops_le
  have hge := h.pushes_le
  -- the ticket before `p` is one of another cell
  have hprev : ∀ i, i % x.size = p.toNat % x.size → i + 1 ≠ p.toNat := by
    intro i hi hip
    have := ticket_unique hi (by omega) (by omega)
    omega
  cases hph : (g (p.toNat % x.size)).2 with
  | free =>
    rw [hph] at hcell
    obtain ⟨_, _, h3, h4⟩ := hcell
    exact Prod.ext (ticket_unique hmod (by omega) (by omega)) hph
  | writing t =>
    rw [hph] at hcell
    obtain ⟨h3, _, h4, _⟩ := hcell
    omega
  | full =>
    rw [hph] at hcell
    obtain ⟨h3, _, h4, _⟩ := hcell
    exact absurd (by omega) (hprev _ hmod)
  | reading t =>
    rw [hph] at hcell
    obtain ⟨h3, h4, _, _⟩ := hcell
    exact absurd (by omega) (hprev _ hmod)

/-- **a pop that wins the exchange finds its cell full** -/
theorem Inv.full_of_exchange {p : UInt64} (hp : p.toNat = x.pops)
    (hs : p.toNat + 1 ≤ (x.cells (p.toNat % x.size)).sequence.toNat) :
    g (p.toNat % x.size) = (p.toNat, .full) := by
  have hc := h.mod_lt p.toNat
  obtain ⟨hmod, hcell⟩ := h.cells _ hc
  have hle := h.pops_le
  have hge := h.pushes_le
  cases hph : (g (p.toNat % x.size)).2 with
  | free =>
    rw [hph] at hcell
    obtain ⟨h3, _, h4, h5⟩ := hcell
    have := ticket_unique hmod (by omega) (by omega)
    omega
  | writing t =>
    rw [hph] at hcell
    obtain ⟨h3, h4, h5, _⟩ := hcell
    have := ticket_unique hmod (by omega) (by omega)
    omega
  | full =>
    rw [hph] at hcell
    obtain ⟨h3, h4, h5, _⟩ := hcell
    exact Prod.ext (ticket_unique hmod (by omega) (by omega)) hph
  | reading t =>
    rw [hph] at hcell
    obtain ⟨h3, h4, _, _⟩ := hcell
    omega

end

/-! ## what a step leaves alone -/

section
variable {moved} {x y : Queue Tid α} {g g' : ℕ → ℕ × Phase Tid}

/-- a cell that the step does not touch, and whose owner does not move -/
theorem CellOk.frame {c : ℕ} {e : ℕ × Phase Tid} (h : x.CellOk moved c e)
    (hsize : y.size = x.size) (hcell : y.cells c = x.cells c)
    (hpc : ∀ t, e.2.owner = some t → y.pc t = x.pc t) {l : List (Tid × α)}
    (hl : y.pushes = x.pushes ++ l)
    (hE : l = [] ∨ l.length = 1 ∧ x.pushes.length % x.size ≠ c)
    (hD : y.pops = x.pops ∨ y.pops = x.pops + 1 ∧ x.pops % x.size ≠ c) :
    y.CellOk moved c e := by
  obtain ⟨i, ph⟩ := e
  obtain ⟨hmod, hc⟩ := h
  dsimp only at hmod hpc
  have hlen : y.pushes.length = x.pushes.length + l.length := by rw [hl, List.length_append]
  -- the new tickets, if any, are of other cells
  have hE' : l.length = 0 ∨ l.length = 1 ∧ ∀ j, j % x.size = c → j ≠ x.pushes.length := by
    rcases hE with rfl | ⟨h1, h2⟩
    · exact Or.inl rfl
    · exact Or.inr ⟨h1, fun j hj e => h2 (by rw [← e, hj])⟩
  have hD' : y.pops = x.pops ∨ y.pops = x.pops + 1 ∧ i ≠ x.pops := by
    rcases hD with h1 | ⟨h1, h2⟩
    · exact Or.inl h1
    · exact Or.inr ⟨h1, fun e => h2 (by rw [← e, hmod])⟩
  have hget : ∀ {v}, x.pushes[i]? = some v → y.pushes[i]? = some v := by
    intro v hv
    rw [hl, List.getElem?_append_left (List.getElem?_eq_some_iff.mp hv).1]
    exact hv
  refine ⟨by rw [hsize]; exact hmod, ?_⟩
  rw [hcell, hsize]
  cases ph with
  | free =>
    obtain ⟨h1, h2, h3, h4⟩ := hc
    dsimp only at h1 h2 h3 h4 ⊢
    refine ⟨h1, h2, ?_, by omega⟩
    rcases hE' with h5 | ⟨h5, h6⟩
    · omega
    · have := h6 i hmod
      omega
  | writing t =>
    obtain ⟨h1, h2, h3, a, p, h4, h5, h6⟩ := hc
    dsimp only at h1 h2 h3 h4 h5 ⊢
    refine ⟨h1, by omega, by omega, a, p, h4, hget h5, ?_⟩
    rw [hpc t rfl]
    exact h6
  | full =>
    obtain ⟨h1, h2, h3, t, a, h4, h5⟩ := hc
    dsimp only at h1 h2 h3 h4 h5 ⊢
    exact ⟨h1, by omega, by omega, t, a, hget h4, h5⟩
  | reading t =>
    obtain ⟨h1, h2, h3, t', a, p, h4, h5, h6⟩ := hc
    dsimp only at h1 h2 h3 h4 h5 ⊢
    refine ⟨h1, by omega, ?_, t', a, p, h4, hget h5, ?_⟩
    · rcases hE' with h7 | ⟨h7, h8⟩
      · omega
      · have := h8 (i + x.size) (by rw [Nat.add_mod_right, hmod])
        omega
    · rw [hpc t rfl]
      exact h6

/-- a thread that does not move -/
theorem ThreadOk.frame {t : Tid} {p : IngressPc α} (h : x.ThreadOk g t p)
    (hsize : y.size = x.size) (hE : x.pushes.length ≤ y.pushes.length) (hD : x.pops ≤ y.pops)
    (hseq : ∀ c, (x.cells c).sequence.toNat ≤ (y.cells c).sequence.toNat)
    (hg : ∀ q, p.inside = some q → g' (q.toNat % x.size) = g (q.toNat % x.size))
    (hpushed : ∀ i a, (i, t, a) ∈ y.pushed → (i, t, a) ∈ x.pushed) : y.ThreadOk g' t p := by
  have hg' : ∀ q, p.inside = some q → g' (q.toNat % y.size) = g (q.toNat % x.size) := by
    intro q hq
    rw [hsize, hg q hq]
  cases p with
  | idle => trivial
  | pushLoad a => trivial
  | popLoad => trivial
  | pushSequence a q => exact Nat.le_trans h hE
  | pushExchange a q =>
    refine ⟨Nat.le_trans h.1 hE, ?_⟩
    rw [hsize]
    exact Nat.le_trans h.2 (hseq _)
  | popSequence q => exact Nat.le_trans h hD
  | popExchange q =>
    refine ⟨Nat.le_trans h.1 hD, ?_⟩
    rw [hsize]
    exact Nat.le_trans h.2 (hseq _)
  | pushWrite a q =>
    exact ⟨(hg' q rfl).trans h.1, fun i a' hm => h.2 i a' (hpushed i a' hm)⟩
  | pushStore a q =>
    exact ⟨(hg' q rfl).trans h.1, fun i a' hm => h.2 i a' (hpushed i a' hm)⟩
  | popMove q => exact (hg' q rfl).trans h
  | popReset q r => exact (hg' q rfl).trans h
  | popStore q r => exact (hg' q rfl).trans h

end

section
variable {moved} {x y : Queue Tid α} {g : ℕ → ℕ × Phase Tid} (h : x.Inv moved g)
include h

/-- a thread outside all cells makes a step that changes only its own state -/
theorem Inv.outside {t : Tid} {p : IngressPc α} (hx : (x.pc t).inside = none)
    (hp : x.ThreadOk g t p) : (x.goto t p).Inv moved g := by
  have hother : ∀ t', t' ≠ t → (x.goto t p).pc t' = x.pc t' :=
    fun t' ht => Function.update_of_ne ht ..
  refine ⟨h.size, h.enqueue, h.dequeue, h.pops_le, h.pushes_le, ?_, ?_, h.pushed, h.popped,
    h.pushed_nodup, h.popped_nodup, h.pushed_order⟩
  · intro c hc
    refine (h.cells c hc).frame rfl rfl ?_ (List.append_nil _).symm (Or.inl rfl) (Or.inl rfl)
    intro t' ho
    obtain ⟨q, hq, _⟩ := h.owner_inside hc ho
    refine hother t' ?_
    rintro rfl
    rw [hx] at hq
    cases hq
  · intro t'
    by_cases ht : t' = t
    · subst ht
      show x.ThreadOk g t' (Function.update x.pc t' p t')
      rw [Function.update_self]
      exact hp
    · rw [hother t' ht]
      exact h.threads t'

/-- **frame of a step at one cell**: the thread `t` is at the cell `c` and moves it to the phase `e`;
all other cells and threads stay as they are -/
theorem Inv.change {t : Tid} {c : ℕ} {e : ℕ × Phase Tid} {l : List (Tid × α)}
    (hsize : y.size = x.size) (hcells : ∀ c', c' ≠ c → y.cells c' = x.cells c')
    (hpc : ∀ t', t' ≠ t → y.pc t' = x.pc t') (hl : y.pushes = x.pushes ++ l)
    (hE : l = [] ∨ l.length = 1 ∧ x.pushes.length % x.size = c)
    (hD : y.pops = x.pops ∨ y.pops = x.pops + 1 ∧ x.pops % x.size = c)
    (hseq : (x.cells c).sequence.toNat ≤ (y.cells c).sequence.toNat)
    (hat : ∀ q, (x.pc t).inside = some q → q.toNat % x.size = c)
    (hown : ∀ t', (g c).2.owner = some t' → t' = t)
    (hpushed : ∀ i t' a, t' ≠ t → (i, t', a) ∈ y.pushed → (i, t', a) ∈ x.pushed)
    (hcell : y.CellOk moved c e) (hthread : y.ThreadOk (Function.update g c e) t (y.pc t)) :
    (∀ c', c' < y.size → y.CellOk moved c' (Function.update g c e c')) ∧
      ∀ t', y.ThreadOk (Function.update g c e) t' (y.pc t') := by
  constructor
  · intro c' hc'
    by_cases hcc : c' = c
    · subst hcc
      rw [Function.update_self]
      exact hcell
    · rw [hsize] at hc'
      rw [Function.update_of_ne hcc]
      refine (h.cells c' hc').frame hsize (hcells c' hcc) ?_ hl
        (hE.imp_right fun h1 => ⟨h1.1, fun h2 => hcc (h2 ▸ h1.2)⟩)
        (hD.imp_right fun h1 => ⟨h1.1, fun h2 => hcc (h2 ▸ h1.2)⟩)
      intro t' ho
      refine hpc t' ?_
      rintro rfl
      obtain ⟨q, hq, hqc⟩ := h.owner_inside hc' ho
      exact hcc (hqc.symm.trans (hat q hq))
  · intro t'
    by_cases ht : t' = t
    · subst ht
      exact hthread
    · rw [hpc t' ht]
      refine (h.threads t').frame hsize (by rw [hl, List.length_append]; omega) (by omega) ?_ ?_
        (fun i a hm => hpushed i t' a ht hm)
      · intro c'
        by_cases hcc : c' = c
        · subst hcc
          exact hseq
        · rw [hcells c' hcc]
      · intro q hq
        refine Function.update_of_ne ?_ _ _
        intro hqc
        have ho := (h.inside_owner hq).2
        rw [hqc] at ho
        exact ht (hown t' ho)

/-- the pushes that returned stay as they are -/
theorem Inv.pushed_keep {c : ℕ} {e : ℕ × Phase Tid} {l : List (Tid × α)} (hsize : y.size = x.size)
    (hl : y.pushes = x.pushes ++ l)
    (he : ∀ i t', e = (i, .writing t') → x.pushes.length ≤ i) :
    ∀ i t a, (i, t, a) ∈ x.pushed → y.pushes[i]? = some (t, a) ∧
      ∀ t', Function.update g c e (i % y.size) ≠ (i, .writing t') := by
  intro i t a hm
  obtain ⟨h1, h2⟩ := h.pushed i t a hm
  have hlt := (List.getElem?_eq_some_iff.mp h1).1
  refine ⟨by rw [hl, List.getElem?_append_left hlt]; exact h1, ?_⟩
  intro t' hc
  rw [hsize] at hc
  by_cases hcc : i % x.size = c
  · rw [hcc, Function.update_self] at hc
    have := he i t' hc
    omega
  · rw [Function.update_of_ne hcc] at hc
    exact h2 t' hc

/-- the pops that returned stay as they are -/
theorem Inv.popped_keep {c : ℕ} {e : ℕ × Phase Tid} {l : List (Tid × α)} (hsize : y.size = x.size)
    (hl : y.pushes = x.pushes ++ l) (hD : x.pops ≤ y.pops)
    (he : ∀ i t', e = (i, .reading t') → x.pops ≤ i) :
    ∀ i t r, (i, t, r) ∈ x.popped → i < y.pops ∧
      (∃ t' a, y.pushes[i]? = some (t', a) ∧ r = some a) ∧
      ∀ t', Function.update g c e (i % y.size) ≠ (i, .reading t') := by
  intro i t r hm
  obtain ⟨h1, ⟨t₁, a, h2, h3⟩, h4⟩ := h.popped i t r hm
  have hlt := (List.getElem?_eq_some_iff.mp h2).1
  refine ⟨by omega, ⟨t₁, a, by rw [hl, List.getElem?_append_left hlt]; exact h2, h3⟩, ?_⟩
  intro t' hc
  rw [hsize] at hc
  by_cases hcc : i % x.size = c
  · rw [hcc, Function.update_self] at hc
    have := he i t' hc
    omega
  · rw [Function.update_of_ne hcc] at hc
    exact h4 t' hc

end

end Queue

end Matching
