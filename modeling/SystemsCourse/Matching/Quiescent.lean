import SystemsCourse.Matching.IngressSafety
import SystemsCourse.Matching.Spsc

/-!
# The ingress queue between calls

In a state in which no call is in progress the ring is a bounded FIFO queue: its `contents` are the
values of the tickets between the two counters.

* `Recorded`         each ticket is taken by a thread that is still inside its cell, or is recorded
                     with the calls that returned;
* `Inv.quiet_push`   whether the cell of the next push is free or full, from the sequence number;
* `Inv.quiet_pop`    the same for the next pop;
* `Queue.Alone`      a call of one thread while the others rest.  Its weak compare-exchange may fail
                     any number of times, which only makes it look at the cell again;
* `quiescent_fifo`   the result.
-/

set_option linter.unusedSectionVars false
set_option linter.unusedVariables false

namespace Matching
open Words

/-- the position and the item of a push that took its ticket and has not returned -/
def IngressPc.writes {α : Type} : IngressPc α → Option (UInt64 × α)
  | .pushWrite a p => some (p, a)
  | .pushStore a p => some (p, a)
  | _ => none

/-- the position of a pop that took its ticket and has not returned -/
def IngressPc.reads {α : Type} : IngressPc α → Option UInt64
  | .popMove p => some p
  | .popReset p _ => some p
  | .popStore p _ => some p
  | _ => none

/-- in a call -/
def IngressPc.busy {α : Type} : IngressPc α → Bool
  | .idle => false
  | _ => true

/-- at the compare-exchange -/
def IngressPc.retries {α : Type} : IngressPc α → Bool
  | .pushExchange _ _ => true
  | .popExchange _ => true
  | _ => false

namespace Queue
variable {Tid α : Type} [DecidableEq Tid]

/-- no call is in progress -/
def Quiet (x : Queue Tid α) : Prop := ∀ t, x.pc t = .idle

/-- the values that were pushed and not yet popped, in the order of the tickets -/
def contents (x : Queue Tid α) : List α := (x.pushes.drop x.pops).map Prod.snd

theorem contents_length (x : Queue Tid α) :
    x.contents.length = x.pushes.length - x.pops := by
  rw [contents, List.length_map, List.length_drop]

/-! ## the records of the calls -/

structure Recorded (x : Queue Tid α) : Prop where
  pushed : ∀ i t a, x.pushes[i]? = some (t, a) → (i, t, a) ∈ x.pushed ∨
    ∃ p, p.toNat = i ∧ (x.pc t).writes = some (p, a)
  popped : ∀ i, i < x.pops → i ∈ x.popped.map Prod.fst ∨
    ∃ t p, p.toNat = i ∧ (x.pc t).reads = some p

theorem init_recorded (capacity : UInt64) : (init capacity : Queue Tid α).Recorded :=
  ⟨nofun, fun i h => absurd h (Nat.not_lt_zero i)⟩

theorem writes_pushBranch (a : α) (p s : UInt64) :
    (pushBranch a p s).writes = none ∧ (pushBranch a p s).reads = none := by
  unfold pushBranch
  split_ifs <;> exact ⟨rfl, rfl⟩

theorem writes_popBranch (p s : UInt64) :
    (popBranch p s : IngressPc α).writes = none ∧ (popBranch p s : IngressPc α).reads = none := by
  unfold popBranch
  split_ifs <;> exact ⟨rfl, rfl⟩

section
variable {x y : Queue Tid α} {t : Tid} {q : IngressPc α} (h : x.Recorded)
  (hpc : y.pc = Function.update x.pc t q)
include h hpc

/-- the pushes, after a step of `t` that took no push ticket -/
theorem Recorded.pushed_move (hpushes : y.pushes = x.pushes) (hsub : x.pushed ⊆ y.pushed)
    (hq : ∀ p a, (x.pc t).writes = some (p, a) →
      q.writes = some (p, a) ∨ (p.toNat, t, a) ∈ y.pushed) :
    ∀ i u a, y.pushes[i]? = some (u, a) → (i, u, a) ∈ y.pushed ∨
      ∃ p, p.toNat = i ∧ (y.pc u).writes = some (p, a) := by
  intro i u a hi
  rw [hpushes] at hi
  rcases h.pushed i u a hi with hm | ⟨p, hp, hw⟩
  · exact Or.inl (hsub hm)
  · by_cases hu : u = t
    · subst hu
      rw [hpc, Function.update_self]
      rcases hq p a hw with hq | hm
      · exact Or.inr ⟨p, hp, hq⟩
      · exact Or.inl (hp ▸ hm)
    · rw [hpc, Function.update_of_ne hu]
      exact Or.inr ⟨p, hp, hw⟩

/-- the pops, after a step of `t` that took no pop ticket -/
theorem Recorded.popped_move (hpops : y.pops = x.pops) (hsub : x.popped ⊆ y.popped)
    (hq : ∀ p, (x.pc t).reads = some p → q.reads = some p ∨ p.toNat ∈ y.popped.map Prod.fst) :
    ∀ i, i < y.pops → i ∈ y.popped.map Prod.fst ∨
      ∃ u p, p.toNat = i ∧ (y.pc u).reads = some p := by
  intro i hi
  rw [hpops] at hi
  rcases h.popped i hi with hm | ⟨u, p, hp, hw⟩
  · exact Or.inl (List.map_subset Prod.fst hsub hm)
  · by_cases hu : u = t
    · subst hu
      rcases hq p hw with hq | hm
      · refine Or.inr ⟨u, p, hp, ?_⟩
        rw [hpc, Function.update_self]
        exact hq
      · exact Or.inl (hp ▸ hm)
    · refine Or.inr ⟨u, p, hp, ?_⟩
      rw [hpc, Function.update_of_ne hu]
      exact hw

/-- a step that takes no ticket and ends no call -/
theorem Recorded.move (hpushes : y.pushes = x.pushes) (hpushed : y.pushed = x.pushed)
    (hpops : y.pops = x.pops) (hpopped : y.popped = x.popped)
    (hw : q.writes = (x.pc t).writes) (hr : q.reads = (x.pc t).reads) : y.Recorded :=
  ⟨h.pushed_move hpc hpushes (by rw [hpushed]; exact List.Subset.refl _)
      fun p a e => Or.inl (hw.trans e),
    h.popped_move hpc hpops (by rw [hpopped]; exact List.Subset.refl _)
      fun p e => Or.inl (hr.trans e)⟩

end

/-- a push takes its ticket, and has it from now on -/
theorem Recorded.pushed_take {x : Queue Tid α} {t : Tid} {a : α} {p : UInt64} (h : x.Recorded)
    (hnone : (x.pc t).writes = none) (hp : p.toNat = x.pushes.length) (i : ℕ) (u : Tid) (b : α)
    (hi : (x.pushes ++ [(t, a)])[i]? = some (u, b)) :
    (i, u, b) ∈ x.pushed ∨
      ∃ p', p'.toNat = i ∧ (Function.update x.pc t (.pushWrite a p) u).writes = some (p', b) := by
  by_cases hlt : i < x.pushes.length
  · rw [List.getElem?_append_left hlt] at hi
    refine (h.pushed i u b hi).imp_right ?_
    rintro ⟨p', hp', hw⟩
    have hu : u ≠ t := by
      rintro rfl
      rw [hnone] at hw
      cases hw
    rw [Function.update_of_ne hu]
    exact ⟨p', hp', hw⟩
  · rw [List.getElem?_append_right (Nat.le_of_not_lt hlt)] at hi
    obtain ⟨hz, hget⟩ := List.getElem?_eq_some_iff.mp hi
    have hz' : i - x.pushes.length = 0 := Nat.lt_one_iff.mp hz
    have hpair : (t, a) = (u, b) := by
      rw [← hget]
      simp only [hz', List.getElem_cons_zero]
    cases hpair
    refine Or.inr ⟨p, by omega, ?_⟩
    rw [Function.update_self]
    rfl

/-- a pop takes its ticket -/
theorem Recorded.popped_take {x : Queue Tid α} {t : Tid} {p : UInt64} (h : x.Recorded)
    (hnone : (x.pc t).reads = none) (hp : p.toNat = x.pops) (i : ℕ) (hi : i < x.pops + 1) :
    i ∈ x.popped.map Prod.fst ∨
      ∃ u p', p'.toNat = i ∧ (Function.update x.pc t (.popMove p) u).reads = some p' := by
  by_cases hlt : i < x.pops
  · refine (h.popped i hlt).imp_right ?_
    rintro ⟨u, p', hp', hw⟩
    have hu : u ≠ t := by
      rintro rfl
      rw [hnone] at hw
      cases hw
    refine ⟨u, p', hp', ?_⟩
    rw [Function.update_of_ne hu]
    exact hw
  · refine Or.inr ⟨t, p, by omega, ?_⟩
    rw [Function.update_self]
    rfl

theorem step_recorded {moved : α → α} {x y : Queue Tid α} {g : ℕ → ℕ × Phase Tid}
    (hinv : x.Inv moved g) (h : x.Recorded) (hstep : Step moved x y) : y.Recorded := by
  cases hstep with
  | tryPush t a hpc => exact h.move rfl rfl rfl rfl rfl (by rw [hpc]; rfl) (by rw [hpc]; rfl)
  | pushLoad t a hpc => exact h.move rfl rfl rfl rfl rfl (by rw [hpc]; rfl) (by rw [hpc]; rfl)
  | pushSequence t a p hpc =>
    obtain ⟨hw, hr⟩ := writes_pushBranch a p (x.cell p).sequence
    exact h.move rfl rfl rfl rfl rfl (by rw [hpc, hw]; rfl) (by rw [hpc, hr]; rfl)
  | pushExchange t a p hpc he =>
    have hp : p.toNat = x.pushes.length := by rw [← he, hinv.enqueue]
    exact ⟨h.pushed_take (by rw [hpc]; rfl) hp, h.popped_move (t := t) rfl rfl (List.Subset.refl _)
      (by rw [hpc]; nofun)⟩
  | pushFail t a p hpc => exact h.move rfl rfl rfl rfl rfl (by rw [hpc]; rfl) (by rw [hpc]; rfl)
  | pushWrite t a p hpc => exact h.move rfl rfl rfl rfl rfl (by rw [hpc]; rfl) (by rw [hpc]; rfl)
  | pushStore t a p hpc =>
    refine ⟨h.pushed_move (t := t) rfl rfl (List.subset_append_left _ _) ?_,
      h.popped_move (t := t) rfl rfl (List.Subset.refl _) (by rw [hpc]; nofun)⟩
    intro p' b hw
    rw [hpc] at hw
    cases hw
    exact Or.inr (List.mem_append_right _ (List.mem_singleton_self _))
  | tryPop t hpc => exact h.move rfl rfl rfl rfl rfl (by rw [hpc]; rfl) (by rw [hpc]; rfl)
  | popLoad t hpc => exact h.move rfl rfl rfl rfl rfl (by rw [hpc]; rfl) (by rw [hpc]; rfl)
  | popSequence t p hpc =>
    obtain ⟨hw, hr⟩ := writes_popBranch (α := α) p (x.cell p).sequence
    exact h.move rfl rfl rfl rfl rfl (by rw [hpc, hw]; rfl) (by rw [hpc, hr]; rfl)
  | popExchange t p hpc he =>
    have hp : p.toNat = x.pops := by rw [← he, hinv.dequeue]
    exact ⟨h.pushed_move (t := t) rfl rfl (List.Subset.refl _) (by rw [hpc]; nofun),
      h.popped_take (by rw [hpc]; rfl) hp⟩
  | popFail t p hpc => exact h.move rfl rfl rfl rfl rfl (by rw [hpc]; rfl) (by rw [hpc]; rfl)
  | popMove t p hpc => exact h.move rfl rfl rfl rfl rfl (by rw [hpc]; rfl) (by rw [hpc]; rfl)
  | popReset t p r hpc => exact h.move rfl rfl rfl rfl rfl (by rw [hpc]; rfl) (by rw [hpc]; rfl)
  | popStore t p r hpc =>
    refine ⟨h.pushed_move (t := t) rfl rfl (List.Subset.refl _) (by rw [hpc]; nofun),
      h.popped_move (t := t) rfl rfl (List.subset_append_left _ _) ?_⟩
    intro p' hw
    rw [hpc] at hw
    cases hw
    refine Or.inr (List.mem_map.mpr ⟨(p.toNat, t, r), ?_, rfl⟩)
    exact List.mem_append_right _ (List.mem_singleton_self _)

theorem run_recorded {moved : α → α} {x y : Queue Tid α} {g : ℕ → ℕ × Phase Tid}
    (hinv : x.Inv moved g) (h : x.Recorded) (hrun : Relation.ReflTransGen (Step moved) x y)
    (hops : y.operations < 2^62) : y.Recorded := by
  induction hrun with
  | refl => exact h
  | @tail z _ hrun hstep ih =>
    obtain ⟨h1, h2⟩ := operations_mono hstep
    have hless : z.operations < 2^62 := by
      unfold operations at hops ⊢
      omega
    obtain ⟨g', hinv'⟩ := run_inv hinv hrun hless
    exact step_recorded hinv' (ih hless) hstep

/-- between calls, every ticket is recorded -/
theorem Quiet.recorded {moved : α → α} {x : Queue Tid α} {g : ℕ → ℕ × Phase Tid} (hq : x.Quiet)
    (hinv : x.Inv moved g) (h : x.Recorded) :
    (∀ i t a, (i, t, a) ∈ x.pushed ↔ x.pushes[i]? = some (t, a)) ∧
      ∀ i, i ∈ x.popped.map Prod.fst ↔ i < x.pops := by
  constructor
  · intro i t a
    refine ⟨fun hm => (hinv.pushed i t a hm).1, fun hi => ?_⟩
    rcases h.pushed i t a hi with hm | ⟨p, _, hw⟩
    · exact hm
    · rw [hq t] at hw
      cases hw
  · intro i
    constructor
    · intro hm
      obtain ⟨⟨j, t, r⟩, hj, rfl⟩ := List.mem_map.mp hm
      exact (hinv.popped j t r hj).1
    · intro hi
      rcases h.popped i hi with hm | ⟨t, p, _, hw⟩
      · exact hm
      · rw [hq t] at hw
        cases hw

/-! ## the cells of the next calls -/

section
variable {moved : α → α} {x : Queue Tid α} {g : ℕ → ℕ × Phase Tid} (h : x.Inv moved g)
  (hq : x.Quiet)
include h hq

/-- between calls, a cell is free or full -/
theorem Inv.quiet_phase {c : ℕ} (hc : c < x.size) : (g c).2 = .free ∨ (g c).2 = .full := by
  have hnone : (g c).2.owner = none := by
    cases ho : (g c).2.owner with
    | none => rfl
    | some t =>
      obtain ⟨p, hp, _⟩ := h.owner_inside hc ho
      rw [hq t] at hp
      cases hp
  cases hph : (g c).2 with
  | free => exact Or.inl rfl
  | full => exact Or.inr rfl
  | writing t =>
    rw [hph] at hnone
    cases hnone
  | reading t =>
    rw [hph] at hnone
    cases hnone

/-- the cell of the next push -/
theorem Inv.quiet_push :
    (x.contents.length < x.size ∧ (x.cell x.enqueue).sequence.toNat = x.enqueue.toNat) ∨
      (¬ x.contents.length < x.size ∧
        (x.cell x.enqueue).sequence.toNat < x.enqueue.toNat) := by
  rw [h.cell_eq, contents_length, h.enqueue]
  have hc := h.mod_lt x.pushes.length
  obtain ⟨hmod, hcell⟩ := h.cells _ hc
  have h2 := h.two_le
  have hle := h.pops_le
  have hge := h.pushes_le
  rcases h.quiet_phase hq hc with hph | hph
  · rw [hph] at hcell
    obtain ⟨h3, _, h4, h5⟩ := hcell
    have hi := ticket_unique hmod (by omega) (by omega)
    exact Or.inl ⟨by omega, by omega⟩
  · rw [hph] at hcell
    obtain ⟨h3, h4, h5, _⟩ := hcell
    -- the ticket in the cell is one lap behind
    have hlap : ((g (x.pushes.length % x.size)).1 + x.size) % x.size = x.pushes.length % x.size := by
      rw [Nat.add_mod_right, hmod]
    have hi := ticket_unique hlap (by omega) (by omega)
    exact Or.inr ⟨by omega, by omega⟩

/-- the cell of the next pop -/
theorem Inv.quiet_pop :
    (x.contents = [] ∧ (x.cell x.dequeue).sequence.toNat = x.dequeue.toNat) ∨
      ∃ a rest, x.contents = a :: rest ∧
        (x.cell x.dequeue).sequence.toNat = x.dequeue.toNat + 1 ∧
        (x.cell x.dequeue).value = some a := by
  rw [h.cell_eq, h.dequeue]
  have hc := h.mod_lt x.pops
  obtain ⟨hmod, hcell⟩ := h.cells _ hc
  have hle := h.pops_le
  have hge := h.pushes_le
  rcases h.quiet_phase hq hc with hph | hph
  · rw [hph] at hcell
    obtain ⟨h3, _, h4, h5⟩ := hcell
    have hi := ticket_unique hmod (by omega) (by omega)
    refine Or.inl ⟨List.eq_nil_of_length_eq_zero ?_, by omega⟩
    rw [contents_length]
    omega
  · rw [hph] at hcell
    obtain ⟨h3, h4, h5, t, a, h6, h7⟩ := hcell
    have hi := ticket_unique hmod (by omega) (by omega)
    rw [hi] at h3 h6
    have hdrop : x.pushes.drop x.pops = (t, a) :: x.pushes.drop (x.pops + 1) := by
      obtain ⟨hlt, hget⟩ := List.getElem?_eq_some_iff.mp h6
      rw [List.drop_eq_getElem_cons hlt, hget]
    refine Or.inr ⟨a, (x.pushes.drop (x.pops + 1)).map Prod.snd, ?_, h3, h7⟩
    rw [contents, hdrop, List.map_cons]

end

/-! ## a call on its own -/

section
variable (moved : α → α) (t : Tid)

/-- steps of the thread `t` in its call, while no other thread moves -/
def Alone : Queue Tid α → Queue Tid α → Prop :=
  Relation.ReflTransGen fun x y => Step moved x y ∧ x.pc t ≠ .idle ∧ ∀ u, u ≠ t → y.pc u = x.pc u

/-- the thread `t` makes a call, which starts with `p`, and returns in `y`; no other thread moves -/
def Returns (p : IngressPc α) (x y : Queue Tid α) : Prop :=
  Alone moved t (x.goto t p) y ∧ y.pc t = .idle

/-- the state after `i` accesses of which none fails -/
def chain (s : Queue Tid α) (i : ℕ) : Queue Tid α := (fun z => z.access moved t)^[i] s

end

variable {moved : α → α} {t : Tid} {x y : Queue Tid α}

theorem goto_goto (x : Queue Tid α) (p q : IngressPc α) : (x.goto t p).goto t q = x.goto t q := by
  unfold goto
  rw [Function.update_idem]

theorem goto_idle (hx : x.pc t = .idle) : x.goto t .idle = x := by
  unfold goto
  rw [← hx, Function.update_eq_self]

theorem pushBranch_ne (a : α) (p q s : UInt64) : pushBranch a p s ≠ .pushSequence a q := by
  unfold pushBranch
  split_ifs <;> nofun

theorem popBranch_ne (p q s : UInt64) : (popBranch p s : IngressPc α) ≠ .popSequence q := by
  unfold popBranch
  split_ifs <;> nofun

theorem moved_pc {u : Tid} {p q : IngressPc α} (hy : y.pc u = q) (h : x.pc u = p) (hne : q ≠ p) :
    y.pc u ≠ x.pc u := by
  rw [hy, h]
  exact hne

/-- the thread that makes a step: it starts a call, makes its access, or fails to exchange -/
theorem step_mover (hstep : Step moved x y) :
    ∃ u, y.pc u ≠ x.pc u ∧ (x.pc u = .idle ∨ y = x.access moved u ∨ y = x.fails u) := by
  cases hstep with
  | tryPush u a h => exact ⟨u, moved_pc (goto_pc _ _) h nofun, Or.inl h⟩
  | pushLoad u a h =>
    exact ⟨u, moved_pc (goto_pc _ _) h nofun,
      Or.inr (Or.inl (access_eq h).symm)⟩
  | pushSequence u a p h =>
    exact ⟨u, moved_pc (goto_pc x _) h (pushBranch_ne a p p _),
      Or.inr (Or.inl (access_eq h).symm)⟩
  | pushExchange u a p h he =>
    refine ⟨u, moved_pc (goto_pc _ _) h nofun, Or.inr (Or.inl ?_)⟩
    rw [access_eq h]
    exact (if_pos he).symm
  | pushFail u a p h =>
    refine ⟨u, moved_pc (goto_pc _ _) h nofun, Or.inr (Or.inr ?_)⟩
    unfold fails
    rw [h]
  | pushWrite u a p h =>
    exact ⟨u, moved_pc (goto_pc _ _) h nofun,
      Or.inr (Or.inl (access_eq h).symm)⟩
  | pushStore u a p h =>
    exact ⟨u, moved_pc (goto_pc _ _) h nofun,
      Or.inr (Or.inl (access_eq h).symm)⟩
  | tryPop u h => exact ⟨u, moved_pc (goto_pc _ _) h nofun, Or.inl h⟩
  | popLoad u h =>
    exact ⟨u, moved_pc (goto_pc _ _) h nofun,
      Or.inr (Or.inl (access_eq h).symm)⟩
  | popSequence u p h =>
    exact ⟨u, moved_pc (goto_pc x _) h (popBranch_ne p p _),
      Or.inr (Or.inl (access_eq h).symm)⟩
  | popExchange u p h he =>
    refine ⟨u, moved_pc (goto_pc _ _) h nofun, Or.inr (Or.inl ?_)⟩
    rw [access_eq h]
    exact (if_pos he).symm
  | popFail u p h =>
    refine ⟨u, moved_pc (goto_pc _ _) h nofun, Or.inr (Or.inr ?_)⟩
    unfold fails
    rw [h]
  | popMove u p h =>
    exact ⟨u, moved_pc (goto_pc _ _) h nofun,
      Or.inr (Or.inl (access_eq h).symm)⟩
  | popReset u p r h =>
    exact ⟨u, moved_pc (goto_pc _ _) h nofun,
      Or.inr (Or.inl (access_eq h).symm)⟩
  | popStore u p r h =>
    exact ⟨u, moved_pc (goto_pc _ _) h nofun,
      Or.inr (Or.inl (access_eq h).symm)⟩

/-- a thread that is in a call and not at its compare-exchange -/
theorem steady {p : IngressPc α} (h : x.pc t = p) (h1 : p.busy = true) (h2 : p.retries = false) :
    x.pc t ≠ .idle ∧ x.fails t = x := by
  unfold fails
  rw [h]
  cases p with
  | idle => cases h1
  | pushExchange a q => cases h2
  | popExchange q => cases h2
  | _ => exact ⟨nofun, rfl⟩

theorem chain_succ (s : Queue Tid α) (i : ℕ) :
    chain moved t s (i + 1) = (chain moved t s i).access moved t :=
  Function.iterate_succ_apply' ..

theorem chain_pc_of_ne (s : Queue Tid α) {u : Tid} (hu : u ≠ t) (i : ℕ) :
    (chain moved t s i).pc u = s.pc u := by
  induction i with
  | zero => rfl
  | succ i ih => rw [chain_succ, access_pc_of_ne hu, ih]

/-- **a call that is not disturbed** goes along the chain up to the first idle state, if its
compare-exchange, when it fails, goes back to the load of the sequence number -/
theorem alone_chain {s : Queue Tid α} {n : ℕ}
    (hrun : ∀ i, i < n → (chain moved t s i).pc t ≠ .idle ∧
      ((chain moved t s i).fails t = chain moved t s i ∨
        1 ≤ i ∧ (chain moved t s i).fails t = chain moved t s 1))
    (hidle : (chain moved t s n).pc t = .idle) :
    Alone moved t s (chain moved t s n) ∧
      ∀ z, Alone moved t s z → z.pc t = .idle → z = chain moved t s n := by
  constructor
  · have hall : ∀ i, i ≤ n → Alone moved t s (chain moved t s i) := by
      intro i
      induction i with
      | zero => exact fun _ => .refl
      | succ i ih =>
        intro hi
        have hne := (hrun i hi).1
        refine (ih (by omega)).tail ⟨?_, hne, fun u hu => ?_⟩
        · rw [chain_succ]
          exact access_step hne
        · rw [chain_succ, access_pc_of_ne hu]
    exact hall n (Nat.le_refl n)
  · intro z hz hzidle
    have hon : ∃ i, i ≤ n ∧ z = chain moved t s i := by
      clear hzidle
      induction hz with
      | refl => exact ⟨0, Nat.zero_le _, rfl⟩
      | tail _ hstep ih =>
        obtain ⟨i, hi, rfl⟩ := ih
        obtain ⟨hstep, hne, hothers⟩ := hstep
        have hlt : i < n := Nat.lt_of_le_of_ne hi fun e => hne (e ▸ hidle)
        obtain ⟨u, hu, hmove⟩ := step_mover hstep
        have hut : u = t := by
          by_contra hut
          exact hu (hothers u hut)
        subst hut
        rcases hmove.resolve_left hne with rfl | rfl
        · exact ⟨i + 1, hlt, (chain_succ s i).symm⟩
        · rcases (hrun i hlt).2 with e | ⟨hi, e⟩
          · exact ⟨i, by omega, e⟩
          · exact ⟨1, by omega, e⟩
    obtain ⟨i, hi, rfl⟩ := hon
    rcases Nat.lt_or_eq_of_le hi with hlt | rfl
    · exact absurd hzidle (hrun i hlt).1
    · rfl

/-- the thread `t` starts a call; the chain of its accesses -/
theorem chain_zero_pc (p : IngressPc α) : (chain moved t (x.goto t p) 0).pc t = p := goto_pc x p

/-- the only result of a call, when the chain is known -/
theorem returns_chain {p : IngressPc α} {n : ℕ}
    (hrun : ∀ i, i < n → (chain moved t (x.goto t p) i).pc t ≠ .idle ∧
      ((chain moved t (x.goto t p) i).fails t = chain moved t (x.goto t p) i ∨
        1 ≤ i ∧ (chain moved t (x.goto t p) i).fails t = chain moved t (x.goto t p) 1))
    (hidle : (chain moved t (x.goto t p) n).pc t = .idle) (z : Queue Tid α) :
    x.Returns moved t p z ↔ z = chain moved t (x.goto t p) n := by
  obtain ⟨h1, h2⟩ := alone_chain hrun hidle
  exact ⟨fun hz => h2 z hz.1 hz.2, fun e => e ▸ ⟨h1, hidle⟩⟩

/-- the other threads stay at rest -/
theorem chain_quiet (hq : x.Quiet) {p : IngressPc α} {n : ℕ}
    (hidle : (chain moved t (x.goto t p) n).pc t = .idle) :
    (chain moved t (x.goto t p) n).Quiet := by
  intro u
  by_cases hu : u = t
  · rw [hu, hidle]
  · rw [chain_pc_of_ne _ hu]
    exact (Function.update_of_ne hu ..).trans (hq u)

/-! ### the push -/

section
variable (moved) (x) (t) (a : α)

theorem chain_push_one :
    chain moved t (x.goto t (.pushLoad a)) 1 = x.goto t (.pushSequence a x.enqueue) := by
  show (x.goto t (.pushLoad a)).access moved t = _
  rw [access_eq (goto_pc x (.pushLoad a))]
  exact goto_goto x _ _

theorem chain_push_two :
    chain moved t (x.goto t (.pushLoad a)) 2
      = x.goto t (pushBranch a x.enqueue (x.cell x.enqueue).sequence) := by
  rw [chain_succ, chain_push_one, access_eq (goto_pc x (.pushSequence a x.enqueue))]
  exact goto_goto x _ _

/-- the failed compare-exchange of a push looks at the cell again -/
theorem fails_push (p : UInt64) :
    (x.goto t (.pushExchange a p)).fails t = x.goto t (.pushSequence a x.enqueue) := by
  unfold fails
  rw [goto_pc]
  exact goto_goto x _ _

end

/-- the cell is free: the push takes its ticket and returns `true` -/
theorem push_room (moved : α → α) (hq : x.Quiet) (hs : (x.cell x.enqueue).sequence = x.enqueue) (t : Tid)
    (a : α) :
    ∃ y, (∀ z, x.Returns moved t (.pushLoad a) z ↔ z = y) ∧ y.Quiet ∧
      y.pushes = x.pushes ++ [(t, a)] ∧ y.pushed = x.pushed ++ [(x.enqueue.toNat, t, a)] ∧
      y.pops = x.pops ∧ y.popped = x.popped := by
  have e1 := chain_push_one moved t x a
  have e2 := chain_push_two moved t x a
  rw [hs, pushBranch_ready] at e2
  have e3 : chain moved t (x.goto t (.pushLoad a)) 3 = { x.goto t (.pushWrite a x.enqueue) with
      enqueue := x.enqueue + 1, pushes := x.pushes ++ [(t, a)] } := by
    rw [chain_succ, e2, access_eq (goto_pc x (.pushExchange a x.enqueue))]
    unfold accessAt
    dsimp only
    rw [goto_goto]
    exact if_pos rfl
  have p1 : (chain moved t (x.goto t (.pushLoad a)) 1).pc t = .pushSequence a x.enqueue := by
    rw [e1, goto_pc]
  have p3 : (chain moved t (x.goto t (.pushLoad a)) 3).pc t = .pushWrite a x.enqueue := by
    rw [e3]
    exact goto_pc x _
  have p4 : (chain moved t (x.goto t (.pushLoad a)) 4).pc t = .pushStore a x.enqueue := by
    rw [chain_succ, access_eq p3]
    exact goto_pc _ _
  have p5 : (chain moved t (x.goto t (.pushLoad a)) 5).pc t = .idle := by
    rw [chain_succ, access_eq p4]
    exact goto_pc _ _
  refine ⟨_, returns_chain ?_ p5, chain_quiet hq p5, ?_⟩
  · intro i hi
    match i, hi with
    | 0, _ => exact (steady (chain_zero_pc _) rfl rfl).imp_right Or.inl
    | 1, _ => exact (steady p1 rfl rfl).imp_right Or.inl
    | 2, _ =>
      rw [e1, e2, goto_pc, fails_push]
      exact ⟨nofun, Or.inr ⟨by omega, rfl⟩⟩
    | 3, _ => exact (steady p3 rfl rfl).imp_right Or.inl
    | 4, _ => exact (steady p4 rfl rfl).imp_right Or.inl
  · rw [chain_succ, access_eq p4, chain_succ, access_eq p3, e3]
    exact ⟨rfl, rfl, rfl, rfl⟩

/-- the cell is a lap behind: the push returns `false` and changes nothing -/
theorem push_full (hq : x.Quiet) (t : Tid) (a : α)
    (hs : pushBranch a x.enqueue (x.cell x.enqueue).sequence = .idle) (z : Queue Tid α) :
    x.Returns moved t (.pushLoad a) z ↔ z = x := by
  have e1 := chain_push_one moved t x a
  have e2 := chain_push_two moved t x a
  rw [hs, goto_idle (hq t)] at e2
  have p1 : (chain moved t (x.goto t (.pushLoad a)) 1).pc t = .pushSequence a x.enqueue := by
    rw [e1, goto_pc]
  have h := returns_chain (n := 2) (z := z) (p := .pushLoad a) (x := x) (t := t)
    (fun i hi => match i, hi with
      | 0, _ => (steady (chain_zero_pc _) rfl rfl).imp_right Or.inl
      | 1, _ => (steady p1 rfl rfl).imp_right Or.inl) (by rw [e2, hq t])
  rw [e2] at h
  exact h

/-! ### the pop -/

section
variable (moved) (x) (t)

theorem chain_pop_one :
    chain moved t (x.goto t .popLoad) 1 = x.goto t (.popSequence x.dequeue) := by
  show (x.goto t .popLoad).access moved t = _
  rw [access_eq (goto_pc x .popLoad)]
  exact goto_goto x _ _

theorem chain_pop_two :
    chain moved t (x.goto t .popLoad) 2
      = x.goto t (popBranch x.dequeue (x.cell x.dequeue).sequence) := by
  rw [chain_succ, chain_pop_one, access_eq (goto_pc x (.popSequence x.dequeue))]
  exact goto_goto x _ _

/-- the failed compare-exchange of a pop looks at the cell again -/
theorem fails_pop (p : UInt64) :
    (x.goto t (.popExchange p)).fails t = x.goto t (.popSequence x.dequeue) := by
  unfold fails
  rw [goto_pc]
  exact goto_goto x _ _

end

/-- the cell is full: the pop takes its ticket and returns the value -/
theorem pop_full (moved : α → α) (hq : x.Quiet) (t : Tid)
    (hs : popBranch x.dequeue (x.cell x.dequeue).sequence
      = (.popExchange x.dequeue : IngressPc α)) :
    ∃ y, (∀ z, x.Returns moved t .popLoad z ↔ z = y) ∧ y.Quiet ∧ y.pushes = x.pushes ∧
      y.pushed = x.pushed ∧ y.pops = x.pops + 1 ∧
      y.popped = x.popped ++ [(x.dequeue.toNat, t, (x.cell x.dequeue).value)] := by
  have e1 := chain_pop_one moved t x
  have e2 := chain_pop_two moved t x
  rw [hs] at e2
  have e3 : chain moved t (x.goto t .popLoad) 3 = { x.goto t (.popMove x.dequeue) with
      dequeue := x.dequeue + 1, pops := x.pops + 1 } := by
    rw [chain_succ, e2, access_eq (goto_pc x (.popExchange x.dequeue))]
    unfold accessAt
    dsimp only
    rw [goto_goto]
    exact if_pos rfl
  have p1 : (chain moved t (x.goto t .popLoad) 1).pc t = .popSequence x.dequeue := by
    rw [e1, goto_pc]
  have p3 : (chain moved t (x.goto t .popLoad) 3).pc t = .popMove x.dequeue := by
    rw [e3]
    exact goto_pc x _
  have p4 : (chain moved t (x.goto t .popLoad) 4).pc t
      = .popReset x.dequeue (x.cell x.dequeue).value := by
    rw [chain_succ, access_eq p3, e3]
    exact goto_pc _ _
  have p5 : (chain moved t (x.goto t .popLoad) 5).pc t
      = .popStore x.dequeue (x.cell x.dequeue).value := by
    rw [chain_succ, access_eq p4]
    exact goto_pc _ _
  have p6 : (chain moved t (x.goto t .popLoad) 6).pc t = .idle := by
    rw [chain_succ, access_eq p5]
    exact goto_pc _ _
  refine ⟨_, returns_chain ?_ p6, chain_quiet hq p6, ?_⟩
  · intro i hi
    match i, hi with
    | 0, _ => exact (steady (chain_zero_pc _) rfl rfl).imp_right Or.inl
    | 1, _ => exact (steady p1 rfl rfl).imp_right Or.inl
    | 2, _ =>
      rw [e1, e2, goto_pc, fails_pop]
      exact ⟨nofun, Or.inr ⟨by omega, rfl⟩⟩
    | 3, _ => exact (steady p3 rfl rfl).imp_right Or.inl
    | 4, _ => exact (steady p4 rfl rfl).imp_right Or.inl
    | 5, _ => exact (steady p5 rfl rfl).imp_right Or.inl
  · rw [chain_succ, access_eq p5, chain_succ, access_eq p4, chain_succ, access_eq p3, e3]
    exact ⟨rfl, rfl, rfl, rfl⟩

/-- the cell has not been filled: the pop returns `nullopt` and changes nothing -/
theorem pop_empty (hq : x.Quiet) (t : Tid)
    (hs : popBranch x.dequeue (x.cell x.dequeue).sequence = (.idle : IngressPc α))
    (z : Queue Tid α) : x.Returns moved t .popLoad z ↔ z = x := by
  have e1 := chain_pop_one moved t x
  have e2 := chain_pop_two moved t x
  rw [hs, goto_idle (hq t)] at e2
  have p1 : (chain moved t (x.goto t .popLoad) 1).pc t = .popSequence x.dequeue := by
    rw [e1, goto_pc]
  have h := returns_chain (n := 2) (z := z) (p := .popLoad) (x := x) (t := t)
    (fun i hi => match i, hi with
      | 0, _ => (steady (chain_zero_pc _) rfl rfl).imp_right Or.inl
      | 1, _ => (steady p1 rfl rfl).imp_right Or.inl) (by rw [e2, hq t])
  rw [e2] at h
  exact h

theorem returns_steps {p : IngressPc α} (hp : Step moved x (x.goto t p))
    (h : x.Returns moved t p y) : Relation.ReflTransGen (Step moved) x y := by
  refine .head hp ?_
  exact Relation.ReflTransGen.mono (fun _ _ hstep => hstep.1) _ _ h.1

/-! ## the branches -/

section
variable {g : ℕ → ℕ × Phase Tid} (h : x.Inv moved g) (hops : x.operations < 2^62)
include h hops

theorem Inv.positions_lt : x.enqueue.toNat < 2^62 ∧ x.dequeue.toNat < 2^62 := by
  unfold operations at hops
  rw [h.enqueue, h.dequeue]
  omega

/-- a sequence number behind the position of the push -/
theorem Inv.pushBranch_idle (a : α)
    (hs : (x.cell x.enqueue).sequence.toNat < x.enqueue.toNat) :
    pushBranch a x.enqueue (x.cell x.enqueue).sequence = .idle := by
  obtain ⟨h1, _⟩ := h.positions_lt hops
  have hd := toInt_difference (a := (x.cell x.enqueue).sequence) (b := x.enqueue) (by omega)
    (by omega)
  have hlt : difference (x.cell x.enqueue).sequence x.enqueue < 0 := by
    rw [Int64.lt_iff_toInt_lt, hd, show (0 : Int64).toInt = 0 from rfl]
    omega
  unfold pushBranch
  rw [if_neg fun e => absurd (e ▸ hlt) (by decide), if_pos hlt]

/-- the sequence number of a full cell, and of one that is not yet filled -/
theorem Inv.popBranch_eq :
    ((x.cell x.dequeue).sequence.toNat = x.dequeue.toNat + 1 →
      popBranch x.dequeue (x.cell x.dequeue).sequence
        = (.popExchange x.dequeue : IngressPc α)) ∧
    ((x.cell x.dequeue).sequence.toNat = x.dequeue.toNat →
      popBranch x.dequeue (x.cell x.dequeue).sequence = (.idle : IngressPc α)) := by
  obtain ⟨_, h2⟩ := h.positions_lt hops
  have hsucc : (x.dequeue + 1).toNat = x.dequeue.toNat + 1 := toNat_succ_of_lt (by omega)
  constructor
  · intro hs
    unfold popBranch
    rw [if_pos ((difference_eq_zero (by omega) (by omega)).mpr (hs.trans hsucc.symm))]
  · intro hs
    have hd := toInt_difference (a := (x.cell x.dequeue).sequence) (b := x.dequeue + 1) (by omega)
      (by omega)
    have hlt : difference (x.cell x.dequeue).sequence (x.dequeue + 1) < 0 := by
      rw [Int64.lt_iff_toInt_lt, hd, show (0 : Int64).toInt = 0 from rfl]
      omega
    unfold popBranch
    rw [if_neg fun e => absurd (e ▸ hlt) (by decide), if_pos hlt]

end

end Queue

/-- **Between calls the ring is a bounded FIFO queue.**  For each requested capacity up to `2^62` and
each state of a run of fewer than `2^62` operations in which no call is in progress: the tickets of
the calls that returned are the ones before the counters, the contents fit into the capacity, a
`try_push` alone returns `true` iff there is room, and appends its value; a `try_pop` alone returns
`nullopt` iff the contents are empty, and otherwise takes the first; a call that fails changes
nothing. -/
theorem quiescent_fifo {Tid α : Type} [DecidableEq Tid] (moved : α → α) (requested : UInt64)
    (hr : requested.toNat ≤ 2^62) :
    ∃ capacity, (∀ fuel, 62 ≤ fuel → roundPowerOfTwo fuel requested = some capacity) ∧
      ∀ x : Queue Tid α, Relation.ReflTransGen (Queue.Step moved) (Queue.init capacity) x →
        x.operations < 2^62 → x.Quiet →
        (∀ i t a, (i, t, a) ∈ x.pushed ↔ x.pushes[i]? = some (t, a)) ∧
        (∀ i, i ∈ x.popped.map Prod.fst ↔ i < x.pops) ∧
        x.contents.length ≤ capacity.toNat ∧
        (∀ t a, ∃ y, (∀ z, x.Returns moved t (.pushLoad a) z ↔ z = y) ∧
          Relation.ReflTransGen (Queue.Step moved) x y ∧
          if x.contents.length < capacity.toNat then
            y.pushed = x.pushed ++ [(x.pushes.length, t, a)] ∧ y.popped = x.popped ∧
              y.contents = x.contents ++ [a] ∧ y.Quiet
          else y = x) ∧
        (∀ t, ∃ y, (∀ z, x.Returns moved t .popLoad z ↔ z = y) ∧
          Relation.ReflTransGen (Queue.Step moved) x y ∧
          match x.contents with
          | [] => y = x
          | a :: q => y.popped = x.popped ++ [(x.pops, t, some a)] ∧ y.pushed = x.pushed ∧
              y.contents = q ∧ y.Quiet) := by
  obtain ⟨k, capacity, e, h1, h2, hc, _⟩ := roundPowerOfTwo_spec requested hr
  refine ⟨capacity, e, ?_⟩
  intro x hrun hops hq
  have hinit : (Queue.init capacity : Queue Tid α).Inv moved _ := Queue.init_inv h1 h2 hc
  obtain ⟨g, h⟩ := Queue.run_inv hinit hrun hops
  have hrec := Queue.run_recorded hinit (Queue.init_recorded capacity) hrun hops
  have hsize : x.size = capacity.toNat := congrArg UInt64.toNat (Queue.run_size hrun)
  obtain ⟨hpushed, hpopped⟩ := hq.recorded h hrec
  rw [← hsize]
  refine ⟨hpushed, hpopped, ?_, ?_, ?_⟩
  · have := h.pushes_le
    rw [Queue.contents_length]
    omega
  · intro t a
    rcases h.quiet_push hq with ⟨hroom, hs⟩ | ⟨hroom, hs⟩
    · obtain ⟨y, hret, hy, hy1, hy2, hy3, hy4⟩ :=
        Queue.push_room moved hq (UInt64.toNat_inj.mp hs) t a
      refine ⟨y, hret, Queue.returns_steps (.tryPush x t a (hq t)) ((hret y).mpr rfl), ?_⟩
      rw [if_pos hroom]
      refine ⟨by rw [hy2, h.enqueue], hy4, ?_, hy⟩
      rw [Queue.contents, hy1, hy3, List.drop_append_of_le_length h.pops_le, List.map_append]
      rfl
    · refine ⟨x, Queue.push_full hq t a (h.pushBranch_idle hops a hs), .refl, ?_⟩
      rw [if_neg hroom]
  · intro t
    rcases h.quiet_pop hq with ⟨hempty, hs⟩ | ⟨a, q, hfull, hs, hv⟩
    · refine ⟨x, Queue.pop_empty hq t ((h.popBranch_eq hops).2 hs), .refl, ?_⟩
      rw [hempty]
    · obtain ⟨y, hret, hy, hy1, hy2, hy3, hy4⟩ :=
        Queue.pop_full moved hq t ((h.popBranch_eq hops).1 hs)
      refine ⟨y, hret, Queue.returns_steps (.tryPop x t (hq t)) ((hret y).mpr rfl), ?_⟩
      rw [hfull]
      refine ⟨by rw [hy4, h.dequeue, hv], hy2, ?_, hy⟩
      have htail : y.contents = x.contents.tail := by
        rw [Queue.contents, Queue.contents, hy1, hy3, ← List.map_tail, List.tail_drop]
      rw [htail, hfull, List.tail_cons]

/-- after pushes and a pop by two threads the queue is full, and its ring has been used more than once: a
push is refused, and a pop takes the oldest item -/
theorem quiescent_fifo_wrapped :
    ∃ x y : Queue Bool ℕ, Relation.ReflTransGen (Queue.Step id) (Queue.init 2) x ∧ x.Quiet ∧
      x.popped = [(0, false, some 7)] ∧ x.contents = [8, 9] ∧
      (∀ z, x.Returns id false (.pushLoad 10) z ↔ z = x) ∧
      (∀ z, x.Returns id true .popLoad z ↔ z = y) ∧
      y.popped = [(0, false, some 7), (1, true, some 8)] ∧ y.contents = [9] ∧ y.Quiet := by
  obtain ⟨x, hrun, hquiet, hpushes, hpushed, hpopped, hpops, _⟩ := wrapped_run
  obtain ⟨capacity, e, h⟩ := @quiescent_fifo Bool ℕ _ id 2 (by decide)
  have hc : capacity = 2 := Option.some.inj ((e 62 (Nat.le_refl _)).symm.trans rfl)
  subst hc
  have hops : x.operations < 2^62 := by
    rw [Queue.operations, hpushes, hpops]
    decide
  have hcontents : x.contents = [8, 9] := by
    rw [Queue.contents, hpushes, hpops]
    rfl
  obtain ⟨_, _, _, hpush, hpop⟩ := h x hrun hops hquiet
  obtain ⟨y₁, hrefused, _, hy₁⟩ := hpush false 10
  rw [hcontents, if_neg (by decide)] at hy₁
  subst hy₁
  obtain ⟨y, hreturns, _, hy⟩ := hpop true
  rw [hcontents] at hy
  refine ⟨y₁, y, hrun, hquiet, hpopped, hcontents, hrefused, hreturns, ?_, hy.2.2⟩
  rw [hy.1, hpopped, hpops]
  rfl

end Matching
