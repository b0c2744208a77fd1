import SystemsCourse.Lib.Actions
import SystemsCourse.Lib.Threads
import SystemsCourse.Matching.IngressSafety
import SystemsCourse.Matching.Spsc

/-!
# Progress of the lock-free ingress queue

A thread goes round the loop of `try_push` or `try_pop` again only if the position that it read is no
longer the current one: for the current position the sequence number of the cell is not ahead
(`Inv.push_current`, `Inv.pop_current`).  So each round that is wasted is charged to a thread that has
taken a ticket in the meantime, or to a weak compare-exchange that failed without a reason.

* `again_cause`        the thread that took a ticket;
* `lock_free`          the accesses of all threads are bounded by the number of calls;
* `refusals_justified` what is the case when a call returns without a ticket.
-/

set_option linter.unusedSectionVars false
set_option linter.unusedVariables false

namespace Matching
open Actions Threads

inductive IngressAct (Tid α : Type) where
  | tryPush (t : Tid) (item : α)
  | tryPop (t : Tid)
  | access (t : Tid)
  /-- the weak compare-exchange fails although the position is the expected one -/
  | spurious (t : Tid)

namespace IngressAct

section
variable {Tid α : Type} [DecidableEq Tid]

def Ok (x : Queue Tid α) : IngressAct Tid α → Prop
  | .tryPush t _ => x.pc t = .idle
  | .tryPop t => x.pc t = .idle
  | .access t => x.pc t ≠ .idle
  | .spurious t => (∃ item, x.pc t = .pushExchange item x.enqueue) ∨ x.pc t = .popExchange x.dequeue

def out (moved : α → α) (x : Queue Tid α) : IngressAct Tid α → Queue Tid α
  | .tryPush t item => x.goto t (.pushLoad item)
  | .tryPop t => x.goto t .popLoad
  | .access t => x.access moved t
  | .spurious t => x.fails t

def calls : IngressAct Tid α → Bool
  | .tryPush _ _ => true
  | .tryPop _ => true
  | _ => false

/-- a compare-exchange that fails has accessed the memory as well -/
def accesses : IngressAct Tid α → Bool
  | .access _ => true
  | .spurious _ => true
  | _ => false

def fails : IngressAct Tid α → Bool
  | .spurious _ => true
  | _ => false

variable {moved : α → α} {x : Queue Tid α}

theorem step {a : IngressAct Tid α} (ha : a.Ok x) : Queue.Step moved x (a.out moved x) := by
  cases a with
  | tryPush t item => exact .tryPush x t item ha
  | tryPop t => exact .tryPop x t ha
  | access t => exact Queue.access_step ha
  | spurious t =>
    show Queue.Step moved x (x.fails t)
    rcases ha with ⟨item, h⟩ | h
    · rw [Queue.fails, h]
      exact .pushFail x t item _ h
    · rw [Queue.fails, h]
      exact .popFail x t _ h

/-- every step is one of these -/
theorem of_step {y : Queue Tid α} (h : Queue.Step moved x y) :
    ∃ a : IngressAct Tid α, a.Ok x ∧ y = a.out moved x := by
  have haccess {t : Tid} {p : IngressPc α} (hpc : x.pc t = p) (hp : p ≠ .idle) :
      (IngressAct.access t : IngressAct Tid α).Ok x ∧ x.accessAt moved t p = x.access moved t :=
    ⟨by rw [← hpc] at hp; exact hp, (Queue.access_eq hpc).symm⟩
  cases h with
  | tryPush t item hpc => exact ⟨.tryPush t item, hpc, rfl⟩
  | tryPop t hpc => exact ⟨.tryPop t, hpc, rfl⟩
  | pushLoad t item hpc => exact ⟨.access t, haccess hpc (by simp)⟩
  | pushSequence t item p hpc => exact ⟨.access t, haccess hpc (by simp)⟩
  | pushExchange t item p hpc he =>
    obtain ⟨hok, hout⟩ := haccess hpc (by simp)
    refine ⟨.access t, hok, Eq.trans ?_ hout⟩
    rw [Queue.accessAt, if_pos he]
  | pushFail t item p hpc =>
    by_cases he : x.enqueue = p
    · subst he
      exact ⟨.spurious t, .inl ⟨item, hpc⟩, by rw [out, Queue.fails, hpc]⟩
    · obtain ⟨hok, hout⟩ := haccess hpc (by simp)
      refine ⟨.access t, hok, Eq.trans ?_ hout⟩
      rw [Queue.accessAt, if_neg he]
  | pushWrite t item p hpc => exact ⟨.access t, haccess hpc (by simp)⟩
  | pushStore t item p hpc => exact ⟨.access t, haccess hpc (by simp)⟩
  | popLoad t hpc => exact ⟨.access t, haccess hpc (by simp)⟩
  | popSequence t p hpc => exact ⟨.access t, haccess hpc (by simp)⟩
  | popExchange t p hpc he =>
    obtain ⟨hok, hout⟩ := haccess hpc (by simp)
    refine ⟨.access t, hok, Eq.trans ?_ hout⟩
    rw [Queue.accessAt, if_pos he]
  | popFail t p hpc =>
    by_cases he : x.dequeue = p
    · subst he
      exact ⟨.spurious t, .inr hpc, by rw [out, Queue.fails, hpc]⟩
    · obtain ⟨hok, hout⟩ := haccess hpc (by simp)
      refine ⟨.access t, hok, Eq.trans ?_ hout⟩
      rw [Queue.accessAt, if_neg he]
  | popMove t p hpc => exact ⟨.access t, haccess hpc (by simp)⟩
  | popReset t p r hpc => exact ⟨.access t, haccess hpc (by simp)⟩
  | popStore t p r hpc => exact ⟨.access t, haccess hpc (by simp)⟩

end

end IngressAct

/-! ## the sequence number of a cell -/

namespace Queue

section
variable {Tid α : Type} [DecidableEq Tid] {moved : α → α} {x : Queue Tid α}
  {g : ℕ → ℕ × Phase Tid} (h : x.Inv moved g) (hops : x.pushes.length < 2^62) {p : UInt64}
include h hops

/-- no cell is ahead of the next push -/
theorem Inv.push_current (hp : p = x.enqueue) (item : α) :
    pushBranch item p (x.cell p).sequence = .pushExchange item p ∨
      pushBranch item p (x.cell p).sequence = .idle := by
  have hpn : p.toNat = x.pushes.length := by rw [hp, h.enqueue]
  have hc := h.mod_lt p.toNat
  have hle : (x.cells (p.toNat % x.size)).sequence.toNat ≤ p.toNat := by
    have h1 := h.pops_le
    obtain ⟨hmod, hcell⟩ := h.cells _ hc
    cases hph : (g (p.toNat % x.size)).2 with
    | free =>
      rw [hph] at hcell
      obtain ⟨h3, _, h4, h5⟩ := hcell
      have := ticket_unique hmod (by omega) (by omega)
      omega
    | writing t =>
      rw [hph] at hcell
      obtain ⟨h3, _, h4, _⟩ := hcell
      omega
    | full =>
      rw [hph] at hcell
      obtain ⟨h3, _, h4, _⟩ := hcell
      omega
    | reading t =>
      rw [hph] at hcell
      obtain ⟨h3, h4, _⟩ := hcell
      omega
  have hlt := h.sequence_lt hops hc
  have hdiff := toInt_difference hlt (show p.toNat < 2^63 by omega)
  rw [h.cell_eq]
  unfold pushBranch
  split
  · exact .inl rfl
  · rename_i hne
    rw [difference_eq_zero hlt (by omega)] at hne
    have hneg : difference (x.cells (p.toNat % x.size)).sequence p < 0 := by
      rw [Int64.lt_iff_toInt_lt, hdiff]
      show _ < (0 : ℤ)
      omega
    exact .inr (if_pos hneg)

/-- no cell is ahead of the next pop -/
theorem Inv.pop_current (hp : p = x.dequeue) :
    (popBranch p (x.cell p).sequence : IngressPc α) = .popExchange p ∨
      (popBranch p (x.cell p).sequence : IngressPc α) = .idle := by
  have hpn : p.toNat = x.pops := by rw [hp, h.dequeue]
  have h1 := h.pops_le
  have hsucc : (p + 1).toNat = p.toNat + 1 := Words.toNat_succ_of_lt (by omega)
  have hc := h.mod_lt p.toNat
  have hle : (x.cells (p.toNat % x.size)).sequence.toNat ≤ p.toNat + 1 := by
    have h2 := h.pushes_le
    obtain ⟨hmod, hcell⟩ := h.cells _ hc
    cases hph : (g (p.toNat % x.size)).2 with
    | free =>
      rw [hph] at hcell
      obtain ⟨h3, _, h4, h5⟩ := hcell
      have := ticket_unique hmod (by omega) (by omega)
      omega
    | writing t =>
      rw [hph] at hcell
      obtain ⟨h3, h4, h5, _⟩ := hcell
      have := ticket_unique hmod (by omega) (by omega)
      omega
    | full =>
      rw [hph] at hcell
      obtain ⟨h3, h4, h5, _⟩ := hcell
      have := ticket_unique hmod (by omega) (by omega)
      omega
    | reading t =>
      rw [hph] at hcell
      obtain ⟨h3, h4, _⟩ := hcell
      omega
  have hlt := h.sequence_lt hops hc
  have hdiff := toInt_difference hlt (show (p + 1).toNat < 2^63 by omega)
  rw [h.cell_eq]
  unfold popBranch
  split
  · exact .inl rfl
  · rename_i hne
    rw [difference_eq_zero hlt (by omega)] at hne
    have hneg : difference (x.cells (p.toNat % x.size)).sequence (p + 1) < 0 := by
      rw [Int64.lt_iff_toInt_lt, hdiff]
      show _ < (0 : ℤ)
      omega
    exact .inr (if_pos hneg)

end

end Queue

/-! ## the work that is left -/

/-- a position that was read and is no longer the current one costs two accesses -/
def stale (position current : UInt64) : ℕ := if position = current then 0 else 2

theorem stale_self (p : UInt64) : stale p p = 0 := if_pos rfl

theorem stale_of_ne {p current : UInt64} (h : current ≠ p) : stale p current = 2 := if_neg h.symm

theorem stale_le (p current : UInt64) : stale p current ≤ 2 := by
  unfold stale
  split <;> omega

/-- what a thread may still do if there are `n` threads: who takes a ticket pays for all of them -/
def IngressPc.rank {α : Type} (n : ℕ) (enqueue dequeue : UInt64) : IngressPc α → ℕ
  | .idle => 0
  | .pushLoad _ => 2 * n + 6
  | .pushSequence _ p => 2 * n + 5 + stale p enqueue
  | .pushExchange _ p => 2 * n + 4 + stale p enqueue
  | .pushWrite _ _ => 2
  | .pushStore _ _ => 1
  | .popLoad => 2 * n + 6
  | .popSequence p => 2 * n + 5 + stale p dequeue
  | .popExchange p => 2 * n + 4 + stale p dequeue
  | .popMove _ => 3
  | .popReset _ _ => 2
  | .popStore _ _ => 1

theorem IngressPc.rank_le {α : Type} (n : ℕ) (enqueue dequeue enqueue' dequeue' : UInt64)
    (pc : IngressPc α) : pc.rank n enqueue' dequeue' ≤ pc.rank n enqueue dequeue + 2 := by
  have hstale : ∀ k p current current', k + stale p current' ≤ k + stale p current + 2 := by
    intro k p current current'
    have := stale_le p current'
    omega
  cases pc with
  | pushSequence item p => exact hstale _ _ _ _
  | pushExchange item p => exact hstale _ _ _ _
  | popSequence p => exact hstale _ _ _ _
  | popExchange p => exact hstale _ _ _ _
  | _ => exact Nat.le_add_right _ _

namespace Queue

section
variable {Tid α : Type} [DecidableEq Tid] [Fintype Tid]

def rank (x : Queue Tid α) : ℕ :=
  total fun t => (x.pc t).rank (Fintype.card Tid) x.enqueue x.dequeue

variable {moved : α → α} {x y : Queue Tid α} {t : Tid} {pc : IngressPc α}

/-- a thread moves, and the positions stay -/
theorem rank_goto (hpc : y.pc = Function.update x.pc t pc) (he : y.enqueue = x.enqueue)
    (hd : y.dequeue = x.dequeue) :
    y.rank + (x.pc t).rank (Fintype.card Tid) x.enqueue x.dequeue
      = x.rank + pc.rank (Fintype.card Tid) x.enqueue x.dequeue := by
  unfold rank
  rw [hpc, he, hd]
  exact total_update (fun p : IngressPc α => p.rank (Fintype.card Tid) x.enqueue x.dequeue) x.pc t pc

/-- a thread takes a ticket -/
theorem rank_ticket (hpc : y.pc = Function.update x.pc t pc) :
    y.rank + (x.pc t).rank (Fintype.card Tid) x.enqueue x.dequeue
      ≤ x.rank + pc.rank (Fintype.card Tid) x.enqueue x.dequeue + Fintype.card Tid * 2 := by
  have hmove := total_update (fun p : IngressPc α => p.rank (Fintype.card Tid) x.enqueue x.dequeue) x.pc t pc
  have hrest := total_le_add (f := fun u => (Function.update x.pc t pc u).rank (Fintype.card Tid)
    x.enqueue x.dequeue) (g := fun u => (y.pc u).rank (Fintype.card Tid) y.enqueue y.dequeue) (k := 2)
    fun u => by
      rw [hpc]
      exact IngressPc.rank_le _ _ _ _ _ _
  unfold rank
  omega

/-- **an access is paid** by the work that is left -/
theorem rank_access {g : ℕ → ℕ × Phase Tid} (h : x.Inv moved g) (hops : x.pushes.length < 2^62)
    (ht : x.pc t ≠ .idle) : (x.access moved t).rank < x.rank := by
  have hmove (pc : IngressPc α) {p : IngressPc α} {y : Queue Tid α} (hpc : x.pc t = p)
      (hlt : pc.rank (Fintype.card Tid) x.enqueue x.dequeue
        < p.rank (Fintype.card Tid) x.enqueue x.dequeue)
      (hy : y.pc = Function.update x.pc t pc) (he : y.enqueue = x.enqueue)
      (hd : y.dequeue = x.dequeue) : y.rank < x.rank := by
    have := rank_goto hy he hd
    rw [hpc] at this
    omega
  have hticket (pc : IngressPc α) {p : IngressPc α} {y : Queue Tid α} (hpc : x.pc t = p)
      (hlt : pc.rank (Fintype.card Tid) x.enqueue x.dequeue + Fintype.card Tid * 2
        < p.rank (Fintype.card Tid) x.enqueue x.dequeue)
      (hy : y.pc = Function.update x.pc t pc) : y.rank < x.rank := by
    have := rank_ticket hy
    rw [hpc] at this
    omega
  cases e : x.pc t with
  | idle => exact absurd e ht
  | pushLoad item =>
    rw [access_eq e]
    refine hmove _ e ?_ rfl rfl rfl
    simp only [IngressPc.rank, stale_self]
    omega
  | pushSequence item p =>
    rw [access_eq e]
    refine hmove _ e ?_ rfl rfl rfl
    by_cases hp : x.enqueue = p
    · rcases h.push_current hops hp.symm item with hb | hb
      · rw [hb]
        simp only [IngressPc.rank]
        omega
      · rw [hb]
        exact Nat.lt_of_lt_of_le (Nat.succ_pos _) (Nat.le_add_right _ _)
    · -- the position is not the current one, and the thread reads it again or finds out later
      unfold pushBranch
      split_ifs <;> simp only [IngressPc.rank, stale_of_ne hp] <;> omega
  | pushExchange item p =>
    rw [access_eq e, accessAt]
    split
    · refine hticket (.pushWrite item p) e ?_ rfl
      simp only [IngressPc.rank]
      omega
    · rename_i hne
      refine hmove _ e ?_ rfl rfl rfl
      simp only [IngressPc.rank, stale_self, stale_of_ne hne]
      omega
  | pushWrite item p =>
    rw [access_eq e]
    exact hmove (.pushStore item p) e (by decide : 1 < 2) rfl rfl rfl
  | pushStore item p =>
    rw [access_eq e]
    exact hmove .idle e (by decide : 0 < 1) rfl rfl rfl
  | popLoad =>
    rw [access_eq e]
    refine hmove _ e ?_ rfl rfl rfl
    simp only [IngressPc.rank, stale_self]
    omega
  | popSequence p =>
    rw [access_eq e]
    refine hmove _ e ?_ rfl rfl rfl
    by_cases hp : x.dequeue = p
    · rcases h.pop_current hops hp.symm with hb | hb
      · rw [hb]
        simp only [IngressPc.rank]
        omega
      · rw [hb]
        exact Nat.lt_of_lt_of_le (Nat.succ_pos _) (Nat.le_add_right _ _)
    · unfold popBranch
      split_ifs <;> simp only [IngressPc.rank, stale_of_ne hp] <;> omega
  | popExchange p =>
    rw [access_eq e, accessAt]
    split
    · refine hticket (.popMove p) e ?_ rfl
      simp only [IngressPc.rank]
      omega
    · rename_i hne
      refine hmove _ e ?_ rfl rfl rfl
      simp only [IngressPc.rank, stale_self, stale_of_ne hne]
      omega
  | popMove p =>
    rw [access_eq e]
    exact hmove (.popReset p (x.cell p).value) e (by decide : 2 < 3) rfl rfl rfl
  | popReset p r =>
    rw [access_eq e]
    exact hmove (.popStore p r) e (by decide : 1 < 2) rfl rfl rfl
  | popStore p r =>
    rw [access_eq e]
    exact hmove .idle e (by decide : 0 < 1) rfl rfl rfl

theorem rank_init (capacity : UInt64) : (init capacity : Queue Tid α).rank = 0 := by
  unfold rank total
  exact Finset.sum_const_zero

end

end Queue

/-! ## whole runs -/

section
variable {Tid α : Type} [DecidableEq Tid] [Fintype Tid]

namespace IngressAct

def cost (a : IngressAct Tid α) : ℕ := if a.accesses then 1 else 0

/-- a call brings the work of one round without competitors; a failure without a reason brings its own
access, and that of the sequence number which is loaded again -/
def pay (a : IngressAct Tid α) : ℕ :=
  (if a.calls then 2 * Fintype.card Tid + 6 else 0) + if a.fails then 2 else 0

theorem paid {moved : α → α} {x : Queue Tid α} {g : ℕ → ℕ × Phase Tid} (h : x.Inv moved g)
    (hops : x.pushes.length < 2^62) {a : IngressAct Tid α} (ha : a.Ok x) :
    a.cost + (a.out moved x).rank ≤ x.rank + a.pay := by
  cases a with
  | tryPush t item =>
    have hr := Queue.rank_goto (x := x) (y := x.goto t (.pushLoad item)) rfl rfl rfl
    rw [show x.pc t = .idle from ha] at hr
    show 0 + (x.goto t (.pushLoad item)).rank ≤ x.rank + (2 * Fintype.card Tid + 6 + 0)
    simp only [IngressPc.rank] at hr
    omega
  | tryPop t =>
    have hr := Queue.rank_goto (x := x) (y := x.goto t .popLoad) rfl rfl rfl
    rw [show x.pc t = .idle from ha] at hr
    show 0 + (x.goto t .popLoad).rank ≤ x.rank + (2 * Fintype.card Tid + 6 + 0)
    simp only [IngressPc.rank] at hr
    omega
  | access t =>
    have hr := Queue.rank_access h hops (show x.pc t ≠ .idle from ha)
    show 1 + (x.access moved t).rank ≤ x.rank + (0 + 0)
    omega
  | spurious t =>
    show 1 + (x.fails t).rank ≤ x.rank + (0 + 2)
    rcases ha with ⟨item, hpc⟩ | hpc
    · have hr := Queue.rank_goto (x := x) (y := x.goto t (.pushSequence item x.enqueue)) rfl rfl rfl
      rw [hpc] at hr
      rw [Queue.fails, hpc]
      simp only [IngressPc.rank] at hr ⊢
      omega
    · have hr := Queue.rank_goto (x := x) (y := x.goto t (.popSequence x.dequeue)) rfl rfl rfl
      rw [hpc] at hr
      rw [Queue.fails, hpc]
      simp only [IngressPc.rank] at hr ⊢
      omega

end IngressAct

/-! ## why a thread goes round its loop again -/

inductive IngressSide where
  | push
  | pop

/-- the round of its loop that a thread is in, and the position that it read for it -/
def IngressPc.round {α : Type} : IngressPc α → Option (IngressSide × UInt64)
  | .pushSequence _ p => some (.push, p)
  | .pushExchange _ p => some (.push, p)
  | .popSequence p => some (.pop, p)
  | .popExchange p => some (.pop, p)
  | _ => none

/-- another round is to be made -/
def IngressPc.again {α : Type} : IngressPc α → Bool
  | .pushLoad _ => true
  | .pushSequence _ _ => true
  | .popLoad => true
  | .popSequence _ => true
  | _ => false

namespace Queue

def position (x : Queue Tid α) : IngressSide → UInt64
  | .push => x.enqueue
  | .pop => x.dequeue

/-- the tickets that were taken -/
def tickets (x : Queue Tid α) : IngressSide → ℕ
  | .push => x.pushes.length
  | .pop => x.pops

variable {moved : α → α} {x : Queue Tid α} {side : IngressSide}

/-- the position of a round that is not the last one is no longer the current one -/
theorem Inv.again_stale {g : ℕ → ℕ × Phase Tid} (h : x.Inv moved g) (hops : x.pushes.length < 2^62)
    {t : Tid} {p : UInt64} (hround : (x.pc t).round = some (side, p))
    (hagain : ((x.access moved t).pc t).again = true) : x.position side ≠ p := by
  rintro rfl
  cases e : x.pc t with
  | pushSequence item p =>
    rw [e] at hround
    cases hround
    rw [access_eq e, accessAt, goto_pc] at hagain
    rcases h.push_current hops (show x.position .push = x.enqueue from rfl) item with hb | hb
    · rw [hb] at hagain
      cases hagain
    · rw [hb] at hagain
      cases hagain
  | pushExchange item p =>
    rw [e] at hround
    cases hround
    rw [access_eq e, accessAt, if_pos (show x.enqueue = x.position .push from rfl)] at hagain
    rw [show _ = IngressPc.pushWrite item _ from goto_pc x _] at hagain
    cases hagain
  | popSequence p =>
    rw [e] at hround
    cases hround
    rw [access_eq e, accessAt, goto_pc] at hagain
    rcases h.pop_current hops (show x.position .pop = x.dequeue from rfl) with hb | hb
    · rw [hb] at hagain
      cases hagain
    · rw [hb] at hagain
      cases hagain
  | popExchange p =>
    rw [e] at hround
    cases hround
    rw [access_eq e, accessAt, if_pos (show x.dequeue = x.position .pop from rfl)] at hagain
    rw [show _ = IngressPc.popMove _ from goto_pc x _] at hagain
    cases hagain
  | idle => rw [e] at hround; cases hround
  | pushLoad item => rw [e] at hround; cases hround
  | pushWrite item p => rw [e] at hround; cases hround
  | pushStore item p => rw [e] at hround; cases hround
  | popLoad => rw [e] at hround; cases hround
  | popMove p => rw [e] at hround; cases hround
  | popReset p r => rw [e] at hround; cases hround
  | popStore p r => rw [e] at hround; cases hround

/-- a position is moved by a thread that takes a ticket, and leaves its loop -/
theorem position_moved {a : IngressAct Tid α} (ha : a.Ok x)
    (hne : (a.out moved x).position side ≠ x.position side) :
    ∃ u, a = .access u ∧ (x.access moved u).tickets side = x.tickets side + 1 ∧
      ((x.access moved u).pc u).round = none := by
  have hsame {y : Queue Tid α} (hout : a.out moved x = y) (he : y.enqueue = x.enqueue)
      (hd : y.dequeue = x.dequeue) : False := by
    refine hne ?_
    rw [hout]
    cases side with
    | push => exact he
    | pop => exact hd
  cases a with
  | tryPush t item => exact (hsame rfl rfl rfl).elim
  | tryPop t => exact (hsame rfl rfl rfl).elim
  | spurious t =>
    rcases ha with ⟨item, hpc⟩ | hpc
    · exact (hsame (show x.fails t = x.goto t (.pushSequence item x.enqueue) by rw [fails, hpc])
        rfl rfl).elim
    · exact (hsame (show x.fails t = x.goto t (.popSequence x.dequeue) by rw [fails, hpc]) rfl rfl).elim
  | access u =>
    refine ⟨u, rfl, ?_⟩
    cases e : x.pc u with
    | pushExchange item p =>
      by_cases hp : x.enqueue = p
      · have hout : x.access moved u = { x.goto u (.pushWrite item p) with
            enqueue := p + 1, pushes := x.pushes ++ [(u, item)] } := by
          rw [access_eq e, accessAt, if_pos hp]
        cases side with
        | push =>
          rw [hout]
          exact ⟨List.length_append, congrArg IngressPc.round (goto_pc x _)⟩
        | pop => exact absurd (congrArg Queue.dequeue hout) hne
      · refine (hsame (y := x.goto u (.pushSequence item x.enqueue)) ?_ rfl rfl).elim
        exact (access_eq e).trans (if_neg hp)
    | popExchange p =>
      by_cases hp : x.dequeue = p
      · have hout : x.access moved u
            = { x.goto u (.popMove p) with dequeue := p + 1, pops := x.pops + 1 } := by
          rw [access_eq e, accessAt, if_pos hp]
        cases side with
        | push => exact absurd (congrArg Queue.enqueue hout) hne
        | pop =>
          rw [hout]
          exact ⟨rfl, congrArg IngressPc.round (goto_pc x _)⟩
      · refine (hsame (y := x.goto u (.popSequence x.dequeue)) ?_ rfl rfl).elim
        exact (access_eq e).trans (if_neg hp)
    | idle => exact absurd e ha
    | pushLoad item => exact (hsame (access_eq e) rfl rfl).elim
    | pushSequence item p => exact (hsame (access_eq e) rfl rfl).elim
    | pushWrite item p => exact (hsame (access_eq e) rfl rfl).elim
    | pushStore item p => exact (hsame (access_eq e) rfl rfl).elim
    | popLoad => exact (hsame (access_eq e) rfl rfl).elim
    | popSequence p => exact (hsame (access_eq e) rfl rfl).elim
    | popMove p => exact (hsame (access_eq e) rfl rfl).elim
    | popReset p r => exact (hsame (access_eq e) rfl rfl).elim
    | popStore p r => exact (hsame (access_eq e) rfl rfl).elim

end Queue

/-- **the cause of another round**: since the thread `t` read its position at `x₀`, another one has taken a
ticket -/
theorem again_cause {moved : α → α} {x₀ x : Queue Tid α} {g : ℕ → ℕ × Phase Tid} (h : x.Inv moved g)
    (hops : x.pushes.length < 2^62) {t : Tid} {side : IngressSide} {bs : List (IngressAct Tid α)}
    (hrun : Run (fun z a => a.Ok z ∧ (z.pc t).round = some (side, x₀.position side)) (IngressAct.out moved)
      x₀ bs x)
    (hround : (x.pc t).round = some (side, x₀.position side))
    (hagain : ((x.access moved t).pc t).again = true) :
    ∃ before u after z, bs = before ++ .access u :: after ∧ u ≠ t ∧
      Run IngressAct.Ok (IngressAct.out moved) x₀ before z ∧
      (z.access moved u).tickets side = z.tickets side + 1 := by
  have hne : x.position side ≠ x₀.position side := h.again_stale hops hround hagain
  obtain ⟨before, a, after, z, rfl, hbefore, ha, hafter, hmoved⟩ :=
    hrun.exists_change (Queue.position · side) hne
  obtain ⟨u, rfl, htickets, hleft⟩ := Queue.position_moved ha.1 hmoved
  refine ⟨before, u, after, z, rfl, ?_, hbefore.mono fun _ _ h => h.1, htickets⟩
  -- the thread `t` is still in its round
  rintro rfl
  have hin := hafter.start hround
  rw [show IngressAct.out moved z (.access u) = z.access moved u from rfl, hleft] at hin
  cases hin

/-- **Lock-freedom.**  However `n` threads are scheduled, all of them together make at most `2 n + 6`
accesses for each call of `try_push` or `try_pop`, and two more for each weak compare-exchange that fails
without a reason.  So threads that are scheduled again and again return from their calls, wherever another
thread has stopped.  A thread makes another round of its loop, without such a failure, only if another
thread has taken a ticket of the same side since it read its position. -/
theorem lock_free (moved : α → α) {capacity : UInt64} {k : ℕ} (h1 : 1 ≤ k) (h2 : k ≤ 62)
    (hcapacity : capacity.toNat = 2^k) :
    (∀ (as : List (IngressAct Tid α)) (y : Queue Tid α),
      Run IngressAct.Ok (IngressAct.out moved) (.init capacity) as y → y.operations < 2^62 →
      as.countP IngressAct.accesses
        ≤ (2 * Fintype.card Tid + 6) * as.countP IngressAct.calls + 2 * as.countP IngressAct.fails) ∧
    (∀ (as bs : List (IngressAct Tid α)) (x₀ x : Queue Tid α) (t : Tid) (side : IngressSide),
      Run IngressAct.Ok (IngressAct.out moved) (.init capacity) as x₀ →
      Run (fun z a => a.Ok z ∧ (z.pc t).round = some (side, x₀.position side)) (IngressAct.out moved)
        x₀ bs x → x.operations < 2^62 →
      (x.pc t).round = some (side, x₀.position side) → ((x.access moved t).pc t).again = true →
      ∃ before u after z, bs = before ++ .access u :: after ∧ u ≠ t ∧
        Run IngressAct.Ok (IngressAct.out moved) x₀ before z ∧
        (z.access moved u).tickets side = z.tickets side + 1) := by
  constructor
  · intro as y hrun hops
    obtain ⟨hbelow, -⟩ := hrun.below Queue.operations fun x a ha => by
      have hstep : Queue.Step moved x (a.out moved x) := IngressAct.step ha
      obtain ⟨hpush, hpop⟩ := Queue.operations_mono hstep
      exact Nat.add_le_add hpush hpop
    have hlt {x : Queue Tid α} {a : IngressAct Tid α} (ha : a.Ok x)
        (hle : (a.out moved x).operations ≤ y.operations) : x.pushes.length < 2^62 := by
      have hstep : Queue.Step moved x (a.out moved x) := IngressAct.step ha
      obtain ⟨hpush, -⟩ := Queue.operations_mono hstep
      unfold Queue.operations at hle hops
      omega
    have hsum := run_amortized (fun x : Queue Tid α => ∃ g, x.Inv moved g) Queue.rank IngressAct.cost
      IngressAct.pay (fun x a ⟨g, hg⟩ ha => Queue.step_inv hg (IngressAct.step ha.1) (hlt ha.1 ha.2))
      (fun x a ⟨g, hg⟩ ha => IngressAct.paid hg (hlt ha.1 ha.2) ha.1) ⟨_, Queue.init_inv h1 h2 hcapacity⟩
      hbelow
    have hcost : (as.map IngressAct.cost).sum = 1 * as.countP IngressAct.accesses := sum_map_ite _ _ _
    have hpay : (as.map IngressAct.pay).sum = (2 * Fintype.card Tid + 6) * as.countP IngressAct.calls
        + 2 * as.countP IngressAct.fails := by
      rw [← sum_map_ite, ← sum_map_ite, ← List.sum_map_add]
      rfl
    rw [hcost, hpay, Queue.rank_init] at hsum
    omega
  · intro as bs x₀ x t side hrun hround hops hx hagain
    have hreach := (hrun.append (hround.mono fun _ _ h => h.1)).reach
    have hsteps : Relation.ReflTransGen (Queue.Step moved) (.init capacity) x := by
      refine Relation.ReflTransGen.mono (fun z z' hz => ?_) _ _ hreach
      obtain ⟨a, ha, rfl⟩ := hz
      exact IngressAct.step ha
    obtain ⟨g, hg⟩ := Queue.run_inv (Queue.init_inv h1 h2 hcapacity) hsteps hops
    exact again_cause hg (Nat.lt_of_le_of_lt (Nat.le_add_right _ _) hops) hround hx hagain

end

/-- two pushes read the same position; one of them has to read it again, and fails once more without a
reason -/
def contended : List (IngressAct Bool ℕ) :=
  [.tryPush true 7, .tryPush false 8, .access true, .access false, .access true, .access false,
    .access true, .access false, .access false, .spurious false]

theorem lock_free_contended :
    ∃ x₀ x y : Queue Bool ℕ, Run IngressAct.Ok (IngressAct.out id) (.init 4) contended y ∧
      y.pushes = [(true, 7)] ∧ y.pc false = .pushSequence 8 1 ∧
      contended.countP IngressAct.accesses
        ≤ (2 * 2 + 6) * contended.countP IngressAct.calls + 2 * contended.countP IngressAct.fails ∧
      Run IngressAct.Ok (IngressAct.out id) (.init 4) (contended.take 4) x₀ ∧
      Run IngressAct.Ok (IngressAct.out id) x₀ [.access true, .access false, .access true] x ∧
      ((x.access id false).pc false).again = true ∧
      ∃ before u after z, [.access true, .access false, .access true] = before ++ .access u :: after ∧
        u ≠ false ∧ Run IngressAct.Ok (IngressAct.out id) x₀ before z ∧
        (z.access id u).tickets .push = z.tickets .push + 1 := by
  have hrun : Run IngressAct.Ok (IngressAct.out id) (.init 4) contended
      (contended.foldl (IngressAct.out id) (.init 4)) :=
    ⟨rfl, rfl, nofun, nofun, nofun, nofun, nofun, nofun, nofun, .inl ⟨8, rfl⟩, rfl⟩
  have hread : Run IngressAct.Ok (IngressAct.out id) (.init 4) (contended.take 4)
      ((contended.take 4).foldl (IngressAct.out id) (.init 4)) := ⟨rfl, rfl, nofun, nofun, rfl⟩
  have hround : Run (fun (z : Queue Bool ℕ) a => a.Ok z ∧ (z.pc false).round = some (.push, 0))
      (IngressAct.out id) ((contended.take 4).foldl (IngressAct.out id) (.init 4))
      [.access true, .access false, .access true]
      ((contended.take 7).foldl (IngressAct.out id) (.init 4)) :=
    ⟨⟨nofun, rfl⟩, ⟨nofun, rfl⟩, ⟨nofun, rfl⟩, rfl⟩
  obtain ⟨hbound, hcause⟩ := @lock_free Bool ℕ _ _ id 4 2 (by decide) (by decide) (by decide)
  refine ⟨_, _, _, hrun, rfl, rfl, hbound _ _ hrun (by decide), hread, hround.mono fun _ _ h => h.1, rfl, ?_⟩
  exact hcause _ _ _ _ false .push hread hround (by decide) rfl rfl

/-! ## calls that return without a ticket -/

/-- the position of a pop that has taken its ticket -/
def IngressPc.popping {α : Type} : IngressPc α → Option UInt64
  | .popMove p => some p
  | .popReset p _ => some p
  | .popStore p _ => some p
  | _ => none

/-- the position of a push that has taken its ticket -/
def IngressPc.pushing {α : Type} : IngressPc α → Option UInt64
  | .pushWrite _ p => some p
  | .pushStore _ p => some p
  | _ => none

namespace Queue

section
variable {Tid α : Type} [DecidableEq Tid] {moved : α → α} {x : Queue Tid α}
  {g : ℕ → ℕ × Phase Tid} (h : x.Inv moved g) (hops : x.pushes.length < 2^62) {p : UInt64}
include h hops

theorem Inv.push_refused {item : α} (hp : p.toNat ≤ x.pushes.length)
    (hidle : pushBranch item p (x.cell p).sequence = .idle) :
    x.pushes.length = x.pops + x.size ∨
      ∃ t q, (x.pc t).popping = some q ∧ q.toNat + x.size = p.toNat := by
  have hc := h.mod_lt p.toNat
  have hlt := h.sequence_lt hops hc
  have hdiff := toInt_difference hlt (show p.toNat < 2^63 by omega)
  -- the sequence number is behind the position
  have hbehind : (x.cells (p.toNat % x.size)).sequence.toNat < p.toNat := by
    rw [h.cell_eq] at hidle
    unfold pushBranch at hidle
    split_ifs at hidle with h0 hneg
    rw [Int64.lt_iff_toInt_lt, hdiff] at hneg
    have : (0 : Int64).toInt = 0 := rfl
    omega
  have hle := h.pops_le
  have hge := h.pushes_le
  have h2 := h.two_le
  obtain ⟨hmod, hcell⟩ := h.cells _ hc
  have hlap : (g (p.toNat % x.size)).1 < p.toNat →
      p.toNat ≤ (g (p.toNat % x.size)).1 + x.size →
      (g (p.toNat % x.size)).1 + x.size = p.toNat := fun hl hu => by
    refine ticket_unique (n := x.size) ?_ (by omega) (by omega)
    rw [Nat.add_mod_right, hmod]
  have hfar : (g (p.toNat % x.size)).1 < p.toNat →
      (g (p.toNat % x.size)).1 + x.size ≤ p.toNat := fun hl => by
    by_contra hcon
    have := ticket_unique hmod (by omega) (by omega)
    omega
  cases hph : (g (p.toNat % x.size)).2 with
  | free =>
    rw [hph] at hcell
    obtain ⟨h3, _, h4, h5⟩ := hcell
    omega
  | writing t =>
    rw [hph] at hcell
    obtain ⟨h3, h4, h5, _⟩ := hcell
    have := hfar (by omega)
    exact .inl (by omega)
  | full =>
    rw [hph] at hcell
    obtain ⟨h3, h4, h5, _⟩ := hcell
    have := hfar (by omega)
    exact .inl (by omega)
  | reading t =>
    rw [hph] at hcell
    obtain ⟨h3, h4, h5, t', a, q, hq, -, hpc⟩ := hcell
    refine .inr ⟨t, q, ?_, ?_⟩
    · rcases hpc with ⟨e, -⟩ | ⟨e, -⟩ | ⟨e, -⟩ <;> rw [e] <;> rfl
    · rw [hq]
      exact hlap (by omega) (by omega)

theorem Inv.pop_refused (hp : p.toNat ≤ x.pops)
    (hidle : (popBranch p (x.cell p).sequence : IngressPc α) = .idle) :
    x.pushes.length = x.pops ∨ p.toNat = x.pops ∧ ∃ t, (x.pc t).pushing = some p := by
  have hle := h.pops_le
  have hge := h.pushes_le
  have hsucc : (p + 1).toNat = p.toNat + 1 := Words.toNat_succ_of_lt (by omega)
  have hc := h.mod_lt p.toNat
  have hlt := h.sequence_lt hops hc
  have hdiff := toInt_difference hlt (show (p + 1).toNat < 2^63 by omega)
  have hbehind : (x.cells (p.toNat % x.size)).sequence.toNat ≤ p.toNat := by
    rw [h.cell_eq] at hidle
    unfold popBranch at hidle
    split_ifs at hidle with h0 hneg
    rw [Int64.lt_iff_toInt_lt, hdiff] at hneg
    have : (0 : Int64).toInt = 0 := rfl
    omega
  obtain ⟨hmod, hcell⟩ := h.cells _ hc
  cases hph : (g (p.toNat % x.size)).2 with
  | free =>
    rw [hph] at hcell
    obtain ⟨h3, _, h4, h5⟩ := hcell
    exact .inl (by omega)
  | writing t =>
    rw [hph] at hcell
    obtain ⟨h3, h4, h5, a, q, hq, -, hpc⟩ := hcell
    have hqp : q = p := UInt64.toNat.inj (by omega)
    subst hqp
    refine .inr ⟨by omega, t, ?_⟩
    rcases hpc with ⟨e, -⟩ | ⟨e, -⟩ <;> rw [e] <;> rfl
  | full =>
    rw [hph] at hcell
    obtain ⟨h3, h4, h5, _⟩ := hcell
    omega
  | reading t =>
    rw [hph] at hcell
    obtain ⟨h3, h4, h5, _⟩ := hcell
    have hfar : (g (p.toNat % x.size)).1 + x.size ≤ p.toNat := by
      by_contra hcon
      have := ticket_unique hmod (by omega) (by omega)
      omega
    exact .inl (by omega)

end

end Queue

/-- **Refusals are justified.**  In any interleaving: when `try_push` returns `false`, every cell holds an
item that no pop has claimed, or the pop that claimed the last item of its cell has not released the cell.
When `try_pop` returns nothing, every item was claimed by a pop, or the push of the oldest unclaimed item
has not finished. -/
theorem refusals_justified {Tid α : Type} [DecidableEq Tid] (moved : α → α) {capacity : UInt64} {k : ℕ}
    (h1 : 1 ≤ k) (h2 : k ≤ 62) (hcapacity : capacity.toNat = 2^k) {x : Queue Tid α}
    (hrun : Relation.ReflTransGen (Queue.Step moved) (.init capacity) x) (hops : x.operations < 2^62)
    (t : Tid) :
    (∀ item p, x.pc t = .pushSequence item p → (x.access moved t).pc t = .idle →
      x.pushes.length = x.pops + capacity.toNat ∨
        ∃ u q, (x.pc u).popping = some q ∧ q.toNat + capacity.toNat = p.toNat) ∧
    (∀ p, x.pc t = .popSequence p → (x.access moved t).pc t = .idle →
      x.pushes.length = x.pops ∨ p.toNat = x.pops ∧ ∃ u, (x.pc u).pushing = some p) := by
  obtain ⟨g, hg⟩ := Queue.run_inv (Queue.init_inv h1 h2 hcapacity) hrun hops
  have hsize : x.size = capacity.toNat := by rw [Queue.size, Queue.run_size hrun]; rfl
  have hlt : x.pushes.length < 2^62 := Nat.lt_of_le_of_lt (Nat.le_add_right _ _) hops
  have ht := hg.threads t
  refine ⟨fun item p hpc hidle => ?_, fun p hpc hidle => ?_⟩
  · rw [hpc] at ht
    rw [Queue.access_eq hpc, Queue.accessAt, Queue.goto_pc] at hidle
    rw [← hsize]
    exact hg.push_refused hlt ht hidle
  · rw [hpc] at ht
    rw [Queue.access_eq hpc, Queue.accessAt, Queue.goto_pc] at hidle
    exact hg.pop_refused hlt ht hidle

/-- a push has taken its ticket and not finished -/
theorem refusals_justified_stalled : ∃ x : Queue Bool ℕ,
    Relation.ReflTransGen (Queue.Step id) (.init 4) x ∧ (x.access id false).pc false = .idle ∧
      x.pushes.length = 1 ∧ x.pops = 0 ∧ ∃ u, (x.pc u).pushing = some 0 := by
  have hrun : ∃ x : Queue Bool ℕ, Relation.ReflTransGen (Queue.Step id) (.init 4) x ∧
      x.pc false = .popSequence 0 ∧ (x.access id false).pc false = .idle ∧ x.pushes.length = 1 ∧
      x.pops = 0 :=
    ⟨_, ((((((Relation.ReflTransGen.single (.tryPush _ true 7 rfl)).tail
      (.pushLoad _ true 7 rfl)).tail (.pushSequence _ true 7 0 rfl)).tail
      (.pushExchange _ true 7 0 rfl rfl)).tail (.tryPop _ false rfl)).tail (.popLoad _ false rfl)),
      rfl, rfl, rfl, rfl⟩
  obtain ⟨x, hrun, hpc, hidle, hpushes, hpops⟩ := hrun
  have hops : x.operations < 2^62 := by
    rw [Queue.operations, hpushes, hpops]
    decide
  have h := (refusals_justified id (k := 2) (by decide) (by decide) (by decide) hrun hops false).2 0 hpc
    hidle
  rw [hpushes, hpops] at h
  exact ⟨x, hrun, hidle, hpushes, hpops, (h.resolve_left (by decide)).2⟩

end Matching
