import SystemsCourse.Matching.IngressInvariant

/-!
# Safety of the lock-free ingress queue

One lemma for each step at a cell.  The compare-exchange of a push takes the cell from free to
writing, its store from writing to full; the compare-exchange of a pop takes it from full to
reading, its store from reading to free for the ticket one lap later.  The writes of the value in
between leave the phase as it is (`Inv.writeValue`).

`ingress_safety` is the result for every run of fewer than `2^62` operations.
-/

set_option linter.unusedSectionVars false
set_option linter.unusedVariables false

namespace Matching
open Words

namespace Queue
variable {Tid α : Type} [DecidableEq Tid] (moved : α → α)

section
variable {moved} {x y : Queue Tid α} {g : ℕ → ℕ × Phase Tid} (h : x.Inv moved g)
include h

/-! ## the steps at a cell -/

theorem Inv.cell_eq (p : UInt64) : x.cell p = x.cells (p.toNat % x.size) := by
  rw [cell, h.index_eq]

theorem Inv.cells_setCell (p : UInt64) (d : Cell α) :
    (x.setCell p d).cells (p.toNat % x.size) = d := by
  show Function.update x.cells (x.index p) d _ = _
  rw [h.index_eq, Function.update_self]

theorem Inv.cells_setCell_ne (p : UInt64) (d : Cell α) {c : ℕ} (hc : c ≠ p.toNat % x.size) :
    (x.setCell p d).cells c = x.cells c := by
  show Function.update x.cells (x.index p) d _ = _
  rw [h.index_eq, Function.update_of_ne hc]

theorem Inv.cell_at {p : UInt64} {ph : Phase Tid}
    (hg : g (p.toNat % x.size) = (p.toNat, ph)) :
    x.CellOk moved (p.toNat % x.size) (p.toNat, ph) := by
  rw [← hg]
  exact h.cells _ (h.mod_lt _)

theorem Inv.pushExchange {t : Tid} {a : α} {p : UInt64} (hpc : x.pc t = .pushExchange a p)
    (he : x.enqueue = p) (hops : x.pushes.length < 2^62) :
    ∃ g', Inv moved { x.goto t (.pushWrite a p) with
      enqueue := p + 1, pushes := x.pushes ++ [(t, a)] } g' := by
  have hp : p.toNat = x.pushes.length := by rw [← he, h.enqueue]
  have ht := h.threads t
  rw [hpc] at ht
  have hg := h.free_of_exchange hp ht.2
  obtain ⟨hmod, h1, h2, h3, h4⟩ := h.cell_at hg
  dsimp only at h1 h2 h3 h4
  have hle := h.pops_le
  have hget : (x.pushes ++ [(t, a)])[p.toNat]? = some (t, a) := by
    rw [hp, List.getElem?_append_right (le_refl _), Nat.sub_self]
    rfl
  have hself : Function.update x.pc t (.pushWrite a p) t = .pushWrite a p :=
    Function.update_self ..
  have hchange := h.change (t := t) (c := p.toNat % x.size) (e := (p.toNat, .writing t))
    (y := { x.goto t (.pushWrite a p) with
      enqueue := p + 1, pushes := x.pushes ++ [(t, a)] })
    rfl (fun _ _ => rfl) (fun t' ht' => Function.update_of_ne ht' ..) rfl
    (Or.inr ⟨rfl, by rw [← hp]⟩) (Or.inl rfl) (le_refl _) (by rw [hpc]; nofun)
    (by rw [hg]; nofun) (fun _ _ _ _ hm => hm)
    ⟨hmod, h1, show x.pops ≤ p.toNat by omega, by
      show p.toNat < (x.pushes ++ [(t, a)]).length
      rw [List.length_append, List.length_singleton]; omega,
      a, p, rfl, hget, Or.inl ⟨hself, h2⟩⟩
    (by
      show ThreadOk _ _ t (Function.update x.pc t (.pushWrite a p) t)
      rw [hself]
      refine ⟨Function.update_self .., ?_⟩
      intro i a' hm
      have := (List.getElem?_eq_some_iff.mp (h.pushed i t a' hm).1).1
      omega)
  have hlen : (x.pushes ++ [(t, a)]).length = x.pushes.length + 1 := by simp
  refine ⟨_, h.size, ?_, h.dequeue, ?_, ?_, hchange.1, hchange.2, h.pushed_keep rfl rfl ?_,
    h.popped_keep rfl rfl (le_refl _) nofun, h.pushed_nodup, h.popped_nodup, h.pushed_order⟩
  · show (p + 1).toNat = (x.pushes ++ [(t, a)]).length
    rw [toNat_succ_of_lt (by omega), hlen, hp]
  · show x.pops ≤ (x.pushes ++ [(t, a)]).length
    omega
  · show (x.pushes ++ [(t, a)]).length ≤ x.pops + x.size
    omega
  · intro i t' e
    cases e
    exact hp.ge

/-- a thread inside the cell of `p` changes the cell and goes on -/
theorem Inv.at_cell {t : Tid} {p : UInt64} {q : IngressPc α} {d : Cell α} {e : ℕ × Phase Tid}
    (hin : (x.pc t).inside = some p) (hsize : y.size = x.size)
    (hcells : y.cells = (x.setCell p d).cells) (hpc : y.pc = (x.goto t q).pc)
    (hpushes : y.pushes = x.pushes) (hpops : y.pops = x.pops)
    (hseq : (x.cell p).sequence.toNat ≤ d.sequence.toNat)
    (hpushed : ∀ i t' a, t' ≠ t → (i, t', a) ∈ y.pushed → (i, t', a) ∈ x.pushed)
    (hcell : y.CellOk moved (p.toNat % x.size) e)
    (hthread : y.ThreadOk (Function.update g (p.toNat % x.size) e) t q) :
    (∀ c', c' < y.size → y.CellOk moved c' (Function.update g (p.toNat % x.size) e c')) ∧
      ∀ t', y.ThreadOk (Function.update g (p.toNat % x.size) e) t' (y.pc t') := by
  obtain ⟨_, hown⟩ := h.inside_owner hin
  refine h.change (t := t) hsize ?_ ?_ (hpushes.trans (List.append_nil _).symm) (Or.inl rfl)
    (Or.inl hpops) ?_ ?_ ?_ hpushed hcell ?_
  · intro c' hc'
    rw [hcells, h.cells_setCell_ne p d hc']
  · intro t' ht'
    rw [hpc]
    exact Function.update_of_ne ht' ..
  · rw [hcells, h.cells_setCell, ← h.cell_eq]
    exact hseq
  · intro q' hq'
    rw [hin] at hq'
    cases hq'
    rfl
  · intro t' ho
    rw [hown] at ho
    exact (Option.some.inj ho).symm
  · rw [hpc]
    show y.ThreadOk _ t (Function.update x.pc t q t)
    rw [Function.update_self]
    exact hthread

/-- a thread inside its cell writes the value of the cell, which stays in its phase -/
theorem Inv.writeValue {t : Tid} {p : UInt64} {q : IngressPc α} {v : Option α} {ph : Phase Tid}
    (hin : (x.pc t).inside = some p) (hg : g (p.toNat % x.size) = (p.toNat, ph))
    (hcell : ((x.setCell p { x.cell p with value := v }).goto t q).CellOk moved (p.toNat % x.size)
      (p.toNat, ph))
    (hthread : ((x.setCell p { x.cell p with value := v }).goto t q).ThreadOk g t q) :
    ((x.setCell p { x.cell p with value := v }).goto t q).Inv moved g := by
  have hup : Function.update g (p.toNat % x.size) (p.toNat, ph) = g := by
    rw [← hg, Function.update_eq_self]
  have hc := h.at_cell (y := (x.setCell p { x.cell p with value := v }).goto t q) hin rfl rfl rfl
    rfl rfl (le_refl _) (fun _ _ _ _ hm => hm) hcell (by rw [hup]; exact hthread)
  rw [hup] at hc
  exact ⟨h.size, h.enqueue, h.dequeue, h.pops_le, h.pushes_le, hc.1, hc.2, h.pushed, h.popped,
    h.pushed_nodup, h.popped_nodup, h.pushed_order⟩

theorem Inv.writeValue_cell (p : UInt64) (v : Option α) :
    ((x.setCell p { x.cell p with value := v }).cells (p.toNat % x.size)).sequence
        = (x.cells (p.toNat % x.size)).sequence ∧
      ((x.setCell p { x.cell p with value := v }).cells (p.toNat % x.size)).value = v := by
  rw [h.cells_setCell, h.cell_eq]
  exact ⟨rfl, rfl⟩

theorem Inv.pushWrite {t : Tid} {a : α} {p : UInt64} (hpc : x.pc t = .pushWrite a p) :
    ((x.setCell p { x.cell p with value := some a }).goto t (.pushStore a p)).Inv moved g := by
  have ht := h.threads t
  rw [hpc] at ht
  obtain ⟨hmod, h1, h2, h3, a', p', h4, h5, h6⟩ := h.cell_at ht.1
  obtain ⟨hseq, hval⟩ := h.writeValue_cell p (some a)
  rw [hpc] at h6
  rcases h6 with ⟨h6, h7⟩ | ⟨h6, _⟩
  · cases h6
    exact h.writeValue (by rw [hpc]; rfl) ht.1
      ⟨hmod, (congrArg UInt64.toNat hseq).trans h1, h2, h3, a, p, rfl, h5,
        Or.inr ⟨Function.update_self .., hval⟩⟩ ht
  · cases h6

theorem Inv.pushStore {t : Tid} {a : α} {p : UInt64} (hpc : x.pc t = .pushStore a p)
    (hops : x.pushes.length < 2^62) :
    ∃ g', Inv moved { (x.setCell p { x.cell p with sequence := p + 1 }).goto t .idle with
      pushed := x.pushed ++ [(p.toNat, t, a)] } g' := by
  have ht := h.threads t
  rw [hpc] at ht
  obtain ⟨hmod, h1, h2, h3, a', p', h4, h5, h6⟩ := h.cell_at ht.1
  dsimp only at h1 h2 h3 h4 h5
  rw [hpc] at h6
  rcases h6 with ⟨h6, _⟩ | ⟨h6, h7⟩
  · cases h6
  · cases h6
    have hsucc : (p + 1).toNat = p.toNat + 1 := toNat_succ_of_lt (by omega)
    have hd := h.cells_setCell p { x.cell p with sequence := p + 1 }
    have hc := h.at_cell
      (y := { (x.setCell p { x.cell p with sequence := p + 1 }).goto t .idle with
        pushed := x.pushed ++ [(p.toNat, t, a)] })
      (e := (p.toNat, .full)) (by rw [hpc]; rfl) rfl rfl rfl rfl rfl
      (by rw [h.cell_eq, h1, hsucc]; omega)
      (by
        intro i t' a' hne hm
        rcases List.mem_append.mp hm with hm | hm
        · exact hm
        · cases List.mem_singleton.mp hm
          exact absurd rfl hne)
      ⟨hmod, (congrArg (fun d => d.sequence.toNat) hd).trans hsucc, h2, h3, t, a, h5,
        (congrArg Cell.value hd).trans (by rw [h.cell_eq]; exact h7)⟩ trivial
    refine ⟨_, h.size, h.enqueue, h.dequeue, h.pops_le, h.pushes_le, hc.1, hc.2, ?_,
      h.popped_keep rfl (List.append_nil _).symm (le_refl _) nofun, ?_, h.popped_nodup, ?_⟩
    · intro i t' a' hm
      rcases List.mem_append.mp hm with hm | hm
      · exact h.pushed_keep (y := x) (c := p.toNat % x.size) (e := (p.toNat, .full)) rfl
          (List.append_nil _).symm nofun i t' a' hm
      · cases List.mem_singleton.mp hm
        refine ⟨h5, ?_⟩
        intro t'' e
        have e' : (p.toNat, Phase.full) = (p.toNat, Phase.writing t'') :=
          (Function.update_self (p.toNat % x.size) (p.toNat, Phase.full) g).symm.trans e
        cases e'
    · show ((x.pushed ++ [(p.toNat, t, a)]).map Prod.fst).Nodup
      rw [List.map_append]
      refine List.nodup_append'.mpr ⟨h.pushed_nodup, List.nodup_singleton _, ?_⟩
      intro i hi hi'
      obtain ⟨⟨j, t', a'⟩, hm, rfl⟩ := List.mem_map.mp hi
      cases List.mem_singleton.mp hi'
      exact (h.pushed _ t' a' hm).2 t ht.1
    · refine List.pairwise_append.mpr ⟨h.pushed_order, List.pairwise_singleton _ _, ?_⟩
      intro u hu v hv heq
      cases List.mem_singleton.mp hv
      obtain ⟨i, t', a'⟩ := u
      cases heq
      exact ht.2 i a' hu

theorem Inv.popExchange {t : Tid} {p : UInt64} (hpc : x.pc t = .popExchange p)
    (he : x.dequeue = p) (hops : x.pushes.length < 2^62) :
    ∃ g', Inv moved { x.goto t (.popMove p) with dequeue := p + 1, pops := x.pops + 1 } g' := by
  have hp : p.toNat = x.pops := by rw [← he, h.dequeue]
  have ht := h.threads t
  rw [hpc] at ht
  have hg := h.full_of_exchange hp ht.2
  obtain ⟨hmod, h1, h2, h3, t', a, h4, h5⟩ := h.cell_at hg
  dsimp only at h1 h2 h3 h4 h5
  have hge := h.pushes_le
  have hself : Function.update x.pc t (.popMove p) t = .popMove p := Function.update_self ..
  have hchange := h.change (t := t) (c := p.toNat % x.size) (e := (p.toNat, .reading t)) (l := [])
    (y := { x.goto t (.popMove p) with dequeue := p + 1, pops := x.pops + 1 })
    rfl (fun _ _ => rfl) (fun t' ht' => Function.update_of_ne ht' ..) (List.append_nil _).symm
    (Or.inl rfl) (Or.inr ⟨rfl, by rw [← hp]⟩) (le_refl _) (by rw [hpc]; nofun)
    (by rw [hg]; nofun) (fun _ _ _ _ hm => hm)
    ⟨hmod, h1, show p.toNat < x.pops + 1 by omega,
      show x.pushes.length ≤ p.toNat + x.size by omega, t', a, p, rfl, h4, Or.inl ⟨hself, h5⟩⟩
    (by
      show ThreadOk _ _ t (Function.update x.pc t (.popMove p) t)
      rw [hself]
      exact Function.update_self ..)
  refine ⟨_, h.size, h.enqueue, ?_, ?_, ?_, hchange.1, hchange.2,
    h.pushed_keep rfl (List.append_nil _).symm nofun,
    h.popped_keep rfl (List.append_nil _).symm (Nat.le_succ _) ?_, h.pushed_nodup,
    h.popped_nodup, h.pushed_order⟩
  · show (p + 1).toNat = x.pops + 1
    rw [toNat_succ_of_lt (by omega), hp]
  · show x.pops + 1 ≤ x.pushes.length
    omega
  · show x.pushes.length ≤ x.pops + 1 + x.size
    omega
  · intro i t' e
    cases e
    exact hp.ge

theorem Inv.popMove {t : Tid} {p : UInt64} (hpc : x.pc t = .popMove p) :
    ((x.setCell p { x.cell p with value := (x.cell p).value.map moved }).goto t
      (.popReset p (x.cell p).value)).Inv moved g := by
  have ht := h.threads t
  rw [hpc] at ht
  obtain ⟨hmod, h1, h2, h3, t', a, p', h4, h5, h6⟩ := h.cell_at ht
  rw [hpc] at h6
  rcases h6 with ⟨h6, h7⟩ | ⟨h6, _⟩ | ⟨h6, _⟩
  · cases h6
    have hv : (x.cell p).value = some a := by rw [h.cell_eq]; exact h7
    rw [hv]
    obtain ⟨hseq, hval⟩ := h.writeValue_cell p ((some a).map moved)
    exact h.writeValue (by rw [hpc]; rfl) ht
      ⟨hmod, (congrArg UInt64.toNat hseq).trans h1, h2, h3, t', a, p, rfl, h5,
        Or.inr (Or.inl ⟨Function.update_self .., hval⟩)⟩ ht
  · cases h6
  · cases h6

theorem Inv.popReset {t : Tid} {p : UInt64} {r : Option α} (hpc : x.pc t = .popReset p r) :
    ((x.setCell p { x.cell p with value := none }).goto t (.popStore p r)).Inv moved g := by
  have ht := h.threads t
  rw [hpc] at ht
  obtain ⟨hmod, h1, h2, h3, t', a, p', h4, h5, h6⟩ := h.cell_at ht
  obtain ⟨hseq, hval⟩ := h.writeValue_cell p none
  rw [hpc] at h6
  rcases h6 with ⟨h6, _⟩ | ⟨h6, h7⟩ | ⟨h6, _⟩
  · cases h6
  · cases h6
    exact h.writeValue (by rw [hpc]; rfl) ht
      ⟨hmod, (congrArg UInt64.toNat hseq).trans h1, h2, h3, t', a, p, rfl, h5,
        Or.inr (Or.inr ⟨Function.update_self .., hval⟩)⟩ ht
  · cases h6

theorem Inv.popStore {t : Tid} {p : UInt64} {r : Option α} (hpc : x.pc t = .popStore p r)
    (hops : x.pushes.length < 2^62) :
    ∃ g', Inv moved { (x.setCell p { x.cell p with sequence := p + x.capacity }).goto t .idle with
      popped := x.popped ++ [(p.toNat, t, r)] } g' := by
  have ht := h.threads t
  rw [hpc] at ht
  obtain ⟨hmod, h1, h2, h3, t', a, p', h4, h5, h6⟩ := h.cell_at ht
  dsimp only at h1 h2 h3 h4 h5
  have hsz := h.size_le
  have h2le := h.two_le
  have hle := h.pops_le
  rw [hpc] at h6
  rcases h6 with ⟨h6, _⟩ | ⟨h6, _⟩ | ⟨h6, h7⟩
  · cases h6
  · cases h6
  · cases h6
    have hnext : (p + x.capacity).toNat = p.toNat + x.size :=
      toNat_add_of_lt (by show p.toNat + x.size < 2^64; omega)
    have hd := h.cells_setCell p { x.cell p with sequence := p + x.capacity }
    have hc := h.at_cell
      (y := { (x.setCell p { x.cell p with sequence := p + x.capacity }).goto t .idle with
        popped := x.popped ++ [(p.toNat, t, some a)] })
      (e := (p.toNat + x.size, .free)) (by rw [hpc]; rfl) rfl rfl rfl rfl rfl
      (by rw [h.cell_eq, h1, hnext]; omega) (fun _ _ _ _ hm => hm)
      ⟨Nat.add_mod_right .., (congrArg (fun d => d.sequence.toNat) hd).trans hnext,
        (congrArg Cell.value hd).trans (by rw [h.cell_eq]; exact h7), h3,
        show p.toNat + x.size < x.pops + x.size by omega⟩ trivial
    refine ⟨_, h.size, h.enqueue, h.dequeue, h.pops_le, h.pushes_le, hc.1, hc.2,
      h.pushed_keep rfl (List.append_nil _).symm nofun, ?_, h.pushed_nodup, ?_, h.pushed_order⟩
    · intro i t'' r hm
      rcases List.mem_append.mp hm with hm | hm
      · exact h.popped_keep (y := x) (c := p.toNat % x.size) (e := (p.toNat + x.size, .free)) rfl
          (List.append_nil _).symm (le_refl _) nofun i t'' r hm
      · cases List.mem_singleton.mp hm
        refine ⟨h2, ⟨t', a, h5, rfl⟩, ?_⟩
        intro t₁ e
        have e' : (p.toNat + x.size, Phase.free) = (p.toNat, Phase.reading t₁) :=
          (Function.update_self (p.toNat % x.size) (p.toNat + x.size, Phase.free) g).symm.trans e
        cases congrArg Prod.snd e'
    · show ((x.popped ++ [(p.toNat, t, some a)]).map Prod.fst).Nodup
      rw [List.map_append]
      refine List.nodup_append'.mpr ⟨h.popped_nodup, List.nodup_singleton _, ?_⟩
      intro i hi hi'
      obtain ⟨⟨j, t'', r⟩, hm, rfl⟩ := List.mem_map.mp hi
      cases List.mem_singleton.mp hi'
      exact (h.popped _ t'' r hm).2.2 t ht

end

/-! ## every run -/

section
variable {moved} {x y : Queue Tid α}

theorem operations_mono (hstep : Step moved x y) :
    x.pushes.length ≤ y.pushes.length ∧ x.pops ≤ y.pops := by
  cases hstep <;> refine ⟨?_, ?_⟩ <;>
    first
      | exact le_refl _
      | exact Nat.le_succ _
      | (show _ ≤ (x.pushes ++ [_]).length; rw [List.length_append]; exact Nat.le_add_right _ _)

theorem step_inv {g : ℕ → ℕ × Phase Tid} (h : x.Inv moved g) (hstep : Step moved x y)
    (hops : x.pushes.length < 2^62) : ∃ g', y.Inv moved g' := by
  have hpops := h.pops_le
  cases hstep with
  | tryPush t a hpc => exact ⟨g, h.outside (by rw [hpc]; rfl) trivial⟩
  | pushLoad t a hpc => exact ⟨g, h.outside (by rw [hpc]; rfl) h.enqueue.le⟩
  | pushSequence t a p hpc =>
    have ht := h.threads t
    rw [hpc] at ht
    refine ⟨g, h.outside (by rw [hpc]; rfl) ?_⟩
    have hpp : p.toNat ≤ x.pushes.length := ht
    unfold pushBranch
    split_ifs with h1 h2
    · rw [h.cell_eq, difference_eq_zero (h.sequence_lt hops (h.mod_lt _)) (by omega)] at h1
      exact ⟨hpp, h1.ge⟩
    · trivial
    · trivial
  | pushExchange t a p hpc he => exact h.pushExchange hpc he hops
  | pushFail t a p hpc => exact ⟨g, h.outside (by rw [hpc]; rfl) h.enqueue.le⟩
  | pushWrite t a p hpc => exact ⟨g, h.pushWrite hpc⟩
  | pushStore t a p hpc => exact h.pushStore hpc hops
  | tryPop t hpc => exact ⟨g, h.outside (by rw [hpc]; rfl) trivial⟩
  | popLoad t hpc => exact ⟨g, h.outside (by rw [hpc]; rfl) h.dequeue.le⟩
  | popSequence t p hpc =>
    have ht := h.threads t
    rw [hpc] at ht
    refine ⟨g, h.outside (by rw [hpc]; rfl) ?_⟩
    have hpp : p.toNat ≤ x.pops := ht
    have hsucc : (p + 1).toNat = p.toNat + 1 := toNat_succ_of_lt (by omega)
    unfold popBranch
    split_ifs with h1 h2
    · rw [h.cell_eq, difference_eq_zero (h.sequence_lt hops (h.mod_lt _)) (by omega)] at h1
      exact ⟨hpp, by omega⟩
    · trivial
    · trivial
  | popExchange t p hpc he => exact h.popExchange hpc he hops
  | popFail t p hpc => exact ⟨g, h.outside (by rw [hpc]; rfl) h.dequeue.le⟩
  | popMove t p hpc => exact ⟨g, h.popMove hpc⟩
  | popReset t p r hpc => exact ⟨g, h.popReset hpc⟩
  | popStore t p r hpc => exact h.popStore hpc hops

theorem init_inv {capacity : UInt64} {k : ℕ} (h1 : 1 ≤ k) (h2 : k ≤ 62)
    (hc : capacity.toNat = 2^k) :
    (init capacity : Queue Tid α).Inv moved fun c => (c, .free) := by
  have hle : (2 : ℕ)^k ≤ 2^62 := Nat.pow_le_pow_right (by omega) h2
  refine ⟨⟨k, h1, h2, hc⟩, rfl, rfl, le_refl _, Nat.zero_le _, ?_, fun _ => trivial, nofun, nofun,
    List.nodup_nil, List.nodup_nil, List.Pairwise.nil⟩
  intro c hlt
  have hlt' : c < 2^k := by
    rw [← hc]
    exact hlt
  refine ⟨Nat.mod_eq_of_lt hlt, UInt64.toNat_ofNat_of_lt' (show c < 2^64 by omega), rfl,
    Nat.zero_le _, ?_⟩
  show c < 0 + capacity.toNat
  omega

/-- a run of fewer than `2^62` operations keeps the invariant -/
theorem run_inv {g : ℕ → ℕ × Phase Tid} (h : x.Inv moved g)
    (hrun : Relation.ReflTransGen (Step moved) x y) (hops : y.operations < 2^62) :
    ∃ g', y.Inv moved g' := by
  induction hrun with
  | refl => exact ⟨g, h⟩
  | tail _ hstep ih =>
    obtain ⟨h1, h2⟩ := operations_mono hstep
    unfold operations at hops ih
    obtain ⟨g', h'⟩ := ih (by omega)
    exact step_inv h' hstep (by omega)

theorem run_size (hrun : Relation.ReflTransGen (Step moved) x y) : y.capacity = x.capacity := by
  induction hrun with
  | refl => rfl
  | tail _ hstep ih =>
    rw [← ih]
    cases hstep <;> rfl

/-- a ticket that was pushed and not yet popped is in its cell -/
theorem Inv.in_cell {g : ℕ → ℕ × Phase Tid} (h : x.Inv moved g) {i : ℕ} {t : Tid} {a : α}
    (hm : (i, t, a) ∈ x.pushed) (hi : x.pops ≤ i) :
    (x.cells (i % x.size)).value = some a := by
  obtain ⟨hget, hw⟩ := h.pushed i t a hm
  have hlt := (List.getElem?_eq_some_iff.mp hget).1
  have hge := h.pushes_le
  obtain ⟨hmod, hcell⟩ := h.cells _ (h.mod_lt i)
  cases hph : (g (i % x.size)).2 with
  | free =>
    rw [hph] at hcell
    obtain ⟨_, _, h3, h4⟩ := hcell
    have := ticket_unique hmod (by omega) (by omega)
    omega
  | writing t' =>
    rw [hph] at hcell
    obtain ⟨_, h3, h4, _⟩ := hcell
    have := ticket_unique hmod (by omega) (by omega)
    exact absurd (Prod.ext this hph) (hw t')
  | full =>
    rw [hph] at hcell
    obtain ⟨_, h3, h4, t', a', h5, h6⟩ := hcell
    have := ticket_unique hmod (by omega) (by omega)
    rw [this, hget] at h5
    cases h5
    exact h6
  | reading t' =>
    rw [hph] at hcell
    obtain ⟨_, h3, h4, _⟩ := hcell
    have := ticket_unique hmod (by omega) (by omega)
    omega

end

end Queue

/-- **Safety of the ingress queue.**  For each requested capacity up to `2^62` the constructor ends,
and in each state of each run of fewer than `2^62` operations: tickets are distinct, the pop of a
ticket returns the value of its push, the tickets of a producer increase, values are written into
empty cells and moved out of full ones, no two threads are inside a cell, and the counters are at
most the capacity apart. -/
theorem ingress_safety {Tid α : Type} [DecidableEq Tid] (moved : α → α) (requested : UInt64)
    (hr : requested.toNat ≤ 2^62) :
    ∃ capacity, (∀ fuel, 62 ≤ fuel → roundPowerOfTwo fuel requested = some capacity) ∧
      requested ≤ capacity ∧
      ∀ x : Queue Tid α, Relation.ReflTransGen (Queue.Step moved) (Queue.init capacity) x →
        x.operations < 2^62 →
        (x.pushed.map Prod.fst).Nodup ∧ (x.popped.map Prod.fst).Nodup ∧
        (∀ i t a, (i, t, a) ∈ x.pushed → x.pushes[i]? = some (t, a)) ∧
        (∀ i t r, (i, t, r) ∈ x.popped → ∃ t' a, x.pushes[i]? = some (t', a) ∧ r = some a) ∧
        (x.pushed.Pairwise fun u v => u.2.1 = v.2.1 → u.1 < v.1) ∧
        (∀ i t a, (i, t, a) ∈ x.pushed → x.dequeue.toNat ≤ i →
          (x.cells (i % capacity.toNat)).value = some a) ∧
        (∀ t a p, x.pc t = .pushWrite a p → (x.cell p).value = none) ∧
        (∀ t p, x.pc t = .popMove p → (x.cell p).value.isSome = true) ∧
        (∀ t t' p p', (x.pc t).inside = some p → (x.pc t').inside = some p' →
          x.index p = x.index p' → t = t') ∧
        x.dequeue.toNat ≤ x.enqueue.toNat ∧
        x.enqueue.toNat ≤ x.dequeue.toNat + capacity.toNat := by
  obtain ⟨k, capacity, e, h1, h2, hc, hle⟩ := roundPowerOfTwo_spec requested hr
  refine ⟨capacity, e, hle, ?_⟩
  intro x hrun hops
  obtain ⟨g, h⟩ := Queue.run_inv (Queue.init_inv h1 h2 hc) hrun hops
  have hsize : x.size = capacity.toNat := congrArg UInt64.toNat (Queue.run_size hrun)
  rw [h.enqueue, h.dequeue, ← hsize]
  refine ⟨h.pushed_nodup, h.popped_nodup, fun i t a hm => (h.pushed i t a hm).1,
    fun i t r hm => (h.popped i t r hm).2.1, h.pushed_order, fun i t a hm hi => h.in_cell hm hi, ?_,
    ?_, ?_, h.pops_le, h.pushes_le⟩
  · intro t a p hpc
    have ht := h.threads t
    rw [hpc] at ht
    obtain ⟨_, _, _, _, a', p', _, _, h6⟩ := h.cell_at ht.1
    rw [hpc] at h6
    rw [h.cell_eq]
    rcases h6 with ⟨_, h7⟩ | ⟨h6, _⟩
    · exact h7
    · cases h6
  · intro t p hpc
    have ht := h.threads t
    rw [hpc] at ht
    obtain ⟨_, _, _, _, t', a', p', _, _, h6⟩ := h.cell_at ht
    rw [hpc] at h6
    rw [h.cell_eq]
    rcases h6 with ⟨_, h7⟩ | ⟨h6, _⟩ | ⟨h6, _⟩
    · rw [h7]
      rfl
    · cases h6
    · cases h6
  · intro t t' p p' hp hp' hidx
    rw [h.index_eq, h.index_eq] at hidx
    have ho := (h.inside_owner hp).2
    rw [hidx, (h.inside_owner hp').2] at ho
    exact (Option.some.inj ho).symm

/-- a queue of capacity two: both threads read the position `0`, and one takes the ticket; the other one
fails, takes the next ticket and finishes first; then it pops the item of the first ticket, while a push of
the first thread waits for the same cell -/
theorem wrapped_run : ∃ x : Queue Bool ℕ,
    Relation.ReflTransGen (Queue.Step id) (Queue.init 2) x ∧ (∀ t, x.pc t = .idle) ∧
      x.pushes = [(true, 7), (false, 8), (true, 9)] ∧
      x.pushed = [(1, false, 8), (0, true, 7), (2, true, 9)] ∧ x.popped = [(0, false, some 7)] ∧
      x.pops = 1 ∧ x.dequeue = 1 := by
  have h := Relation.ReflTransGen.single (@Queue.Step.tryPush Bool ℕ _ id (Queue.init 2) true 7 rfl)
  have h := h.tail (.tryPush _ false 8 rfl)
  have h := h.tail (.pushLoad _ true 7 rfl)
  have h := h.tail (.pushLoad _ false 8 rfl)
  have h := h.tail (.pushSequence _ true 7 0 rfl)
  have h := h.tail (.pushSequence _ false 8 0 rfl)
  have h := h.tail (.pushExchange _ true 7 0 rfl rfl)
  have h := h.tail (.pushFail _ false 8 0 rfl)
  have h := h.tail (.pushSequence _ false 8 1 rfl)
  have h := h.tail (.pushExchange _ false 8 1 rfl rfl)
  have h := h.tail (.pushWrite _ false 8 1 rfl)
  have h := h.tail (.pushStore _ false 8 1 rfl)
  have h := h.tail (.pushWrite _ true 7 0 rfl)
  have h := h.tail (.pushStore _ true 7 0 rfl)
  have h := h.tail (.tryPop _ false rfl)
  have h := h.tail (.popLoad _ false rfl)
  have h := h.tail (.popSequence _ false 0 rfl)
  have h := h.tail (.popExchange _ false 0 (by decide +kernel) rfl)
  -- the next push of the other thread reads the position while the pop is inside the cell
  have h := h.tail (.tryPush _ true 9 rfl)
  have h := h.tail (.pushLoad _ true 9 rfl)
  have h := h.tail (.popMove _ false 0 rfl)
  have h := h.tail (.popReset _ false 0 (some 7) (by decide +kernel))
  have h := h.tail (.popStore _ false 0 (some 7) rfl)
  have h := h.tail (.pushSequence _ true 9 2 rfl)
  have h := h.tail (.pushExchange _ true 9 2 (by decide +kernel) rfl)
  have h := h.tail (.pushWrite _ true 9 2 rfl)
  have h := h.tail (.pushStore _ true 9 2 rfl)
  refine ⟨_, h, ?_, rfl, rfl, rfl, rfl, rfl⟩
  intro t
  cases t <;> rfl

/-- tickets `0` and `2` used the same cell, one after the other -/
theorem ingress_safety_wrapped : ∃ x : Queue Bool ℕ,
    Relation.ReflTransGen (Queue.Step id) (Queue.init 2) x ∧
      x.pushed = [(1, false, 8), (0, true, 7), (2, true, 9)] ∧ x.popped = [(0, false, some 7)] ∧
      (∃ t a, x.pushes[0]? = some (t, a) ∧ some 7 = some a) ∧ x.pushes[2]? = some (true, 9) ∧
      (x.cells (2 % 2)).value = some 9 ∧ (x.cells (1 % 2)).value = some 8 ∧
      x.enqueue.toNat ≤ x.dequeue.toNat + 2 := by
  obtain ⟨x, hrun, _, hpushes, hpushed, hpopped, hpops, hdeq⟩ := wrapped_run
  obtain ⟨capacity, e, _, h⟩ := @ingress_safety Bool ℕ _ id 2 (by decide)
  have hc : capacity = 2 := Option.some.inj ((e 62 (le_refl _)).symm.trans rfl)
  subst hc
  have hops : x.operations < 2^62 := by
    rw [Queue.operations, hpushes, hpops]
    decide
  obtain ⟨_, _, hpush, hpop, _, hcell, _, _, _, _, hle⟩ := h x hrun hops
  have hfirst : (0, false, some 7) ∈ x.popped := by
    rw [hpopped]
    decide
  have hsecond : (1, false, 8) ∈ x.pushed := by
    rw [hpushed]
    decide
  have hthird : (2, true, 9) ∈ x.pushed := by
    rw [hpushed]
    decide
  exact ⟨x, hrun, hpushed, hpopped, hpop 0 false (some 7) hfirst, hpush 2 true 9 hthird,
    hcell 2 true 9 hthird (by rw [hdeq]; decide), hcell 1 false 8 hsecond (by rw [hdeq]; decide), hle⟩

end Matching
