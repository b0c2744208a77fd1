import SystemsCourse.Lib.Actions
import SystemsCourse.Lib.Counting
import SystemsCourse.Lib.Threads

/-!
# The life of a task

What a thread pool is for, without its flags, locks and waits.  A call of `submit` is counted, and then
its task is accepted or the count is taken back; an accepted task is taken from the queue by a worker,
started, and counted as completed.  Tasks have the numbers of their calls.

The balances of `Inv` hold for the tasks of every set `P`: with a single task they say that it is at one
place, with all tasks they give the counters.
-/

set_option linter.unusedSectionVars false
set_option linter.unusedVariables false

namespace NetForge
open Actions Threads Counting

/-- how a `submit` ends -/
inductive SubmitResult where
  | accepted
  | refused
  | threw
deriving DecidableEq

/-- a thread's call of `submit`: not yet counted, counted, or with its task accepted -/
inductive Submitting where
  | away
  | called (task : ℕ)
  | counted (task : ℕ)
  | accepted (task : ℕ)
deriving DecidableEq

/-- the task that a worker has -/
inductive Holding where
  | free
  | taken (task : ℕ)
  | started (task : ℕ)
deriving DecidableEq

/-- what a thread does; `reading` is the number of submissions it has read, while it has not yet read
that of the completions -/
structure Role where
  submitting : Submitting := .away
  holding : Holding := .free
  reading : Option UInt64 := none
deriving DecidableEq

structure TaskLedger (Tid : Type) where
  role : Tid → Role
  submitted : UInt64 := 0
  completed : UInt64 := 0
  queue : List ℕ := []
  calls : ℕ := 0
  accepted : List ℕ := []
  returns : List (ℕ × SubmitResult) := []
  runs : List (Tid × ℕ) := []
  completions : ℕ := 0
  reports : List (UInt64 × UInt64) := []

inductive LedgerAct (Tid : Type) where
  | call (t : Tid)
  | empty
  | refuse (t : Tid) (task : ℕ)
  | count (t : Tid) (task : ℕ)
  | accept (t : Tid) (task : ℕ)
  | retreat (t : Tid) (task : ℕ) (result : SubmitResult)
  | answer (t : Tid) (task : ℕ)
  | take (t : Tid) (task : ℕ)
  | start (t : Tid) (task : ℕ)
  | complete (t : Tid) (task : ℕ)
  | readSubmitted (t : Tid)
  | readCompleted (t : Tid) (submitted : UInt64)

namespace LedgerAct
variable {Tid : Type}

def Ok (l : TaskLedger Tid) : LedgerAct Tid → Prop
  | .call t => (l.role t).submitting = .away
  | .empty => True
  | .refuse t k => (l.role t).submitting = .called k
  | .count t k => (l.role t).submitting = .called k
  | .accept t k => (l.role t).submitting = .counted k
  | .retreat t k result => (l.role t).submitting = .counted k ∧ result ≠ .accepted
  | .answer t k => (l.role t).submitting = .accepted k
  | .take t k => (l.role t).holding = .free ∧ l.queue.head? = some k
  | .start t k => (l.role t).holding = .taken k
  | .complete t k => (l.role t).holding = .started k
  | .readSubmitted t => True
  | .readCompleted t s => (l.role t).reading = some s

end LedgerAct

namespace TaskLedger
variable {Tid : Type} [DecidableEq Tid]

def setSubmitting (l : TaskLedger Tid) (t : Tid) (s : Submitting) : TaskLedger Tid :=
  { l with role := Function.update l.role t { l.role t with submitting := s } }

def setHolding (l : TaskLedger Tid) (t : Tid) (h : Holding) : TaskLedger Tid :=
  { l with role := Function.update l.role t { l.role t with holding := h } }

def setReading (l : TaskLedger Tid) (t : Tid) (r : Option UInt64) : TaskLedger Tid :=
  { l with role := Function.update l.role t { l.role t with reading := r } }

end TaskLedger

def LedgerAct.out {Tid : Type} [DecidableEq Tid] (l : TaskLedger Tid) : LedgerAct Tid → TaskLedger Tid
  | .call t => { l.setSubmitting t (.called l.calls) with calls := l.calls + 1 }
  | .empty => { l with calls := l.calls + 1, returns := l.returns ++ [(l.calls, .refused)] }
  | .refuse t k => { l.setSubmitting t .away with returns := l.returns ++ [(k, .refused)] }
  | .count t k => { l.setSubmitting t (.counted k) with submitted := l.submitted + 1 }
  | .accept t k =>
    { l.setSubmitting t (.accepted k) with accepted := l.accepted ++ [k], queue := l.queue ++ [k] }
  | .retreat t k result =>
    { l.setSubmitting t .away with
      submitted := l.submitted - 1, returns := l.returns ++ [(k, result)] }
  | .answer t k => { l.setSubmitting t .away with returns := l.returns ++ [(k, .accepted)] }
  | .take t k => { l.setHolding t (.taken k) with queue := l.queue.tail }
  | .start t k => { l.setHolding t (.started k) with runs := l.runs ++ [(t, k)] }
  | .complete t k =>
    { l.setHolding t .free with completed := l.completed + 1, completions := l.completions + 1 }
  | .readSubmitted t => l.setReading t (some l.submitted)
  | .readCompleted t s =>
    { l.setReading t none with reports := l.reports ++ [(s, l.completed)] }

/-! ## balances -/

namespace Role

/-- a call for a task of `P` that has no outcome yet -/
def pendingIn (P : ℕ → Bool) (r : Role) : Bool :=
  match r.submitting with
  | .called k => P k
  | .counted k => P k
  | _ => false

/-- between the increment and the outcome -/
def counted (r : Role) : Bool :=
  match r.submitting with
  | .counted _ => true
  | _ => false

/-- a call whose task of `P` is accepted and which has not returned yet -/
def acceptedIn (P : ℕ → Bool) (r : Role) : Bool :=
  match r.submitting with
  | .accepted k => P k
  | _ => false

/-- a task of `P` that is taken and not yet started -/
def takenIn (P : ℕ → Bool) (r : Role) : Bool :=
  match r.holding with
  | .taken k => P k
  | _ => false

def started (r : Role) : Bool :=
  match r.holding with
  | .started _ => true
  | _ => false

end Role

namespace TaskLedger
variable {Tid : Type} [DecidableEq Tid] [Fintype Tid]

/-- the threads that meet `p` -/
def roles (l : TaskLedger Tid) (p : Role → Bool) : ℕ := Threads.count fun t => p (l.role t)

/-- the calls for tasks of `P` that returned true -/
def acceptances (l : TaskLedger Tid) (P : ℕ → Bool) : ℕ :=
  l.returns.countP fun e => decide (e.2 = .accepted) && P e.1

/-- the calls for tasks of `P` that returned false or threw -/
def refusals (l : TaskLedger Tid) (P : ℕ → Bool) : ℕ :=
  l.returns.countP fun e => !decide (e.2 = .accepted) && P e.1

/-- each call is pending, accepted or refused; each accepted task is queued, taken or run -/
structure Inv (l : TaskLedger Tid) : Prop where
  calls : ∀ P, (List.range l.calls).countP P
    = l.roles (Role.pendingIn P) + l.accepted.countP P + l.refusals P
  answers : ∀ P, l.accepted.countP P = l.roles (Role.acceptedIn P) + l.acceptances P
  tasks : ∀ P, l.accepted.countP P
    = l.queue.countP P + l.roles (Role.takenIn P) + (l.runs.map Prod.snd).countP P
  started : l.runs.length = l.roles Role.started + l.completions
  submitted : l.submitted = UInt64.ofNat (l.accepted.length + l.roles Role.counted)
  completed : l.completed = UInt64.ofNat l.completions

section
variable {l : TaskLedger Tid}

theorem roles_update (p : Role → Bool) {l' : TaskLedger Tid} (t : Tid) (r : Role)
    (h : l'.role = Function.update l.role t r) :
    l'.roles p + (p (l.role t)).toNat = l.roles p + (p r).toNat := by
  unfold roles
  rw [h]
  exact count_update p l.role t r

variable (h : l.Inv)
include h

/-- One thread takes the role `r`: each balance changes on both sides by what the thread and the step
add to it. -/
theorem Inv.move {l' : TaskLedger Tid} (t : Tid) (r : Role) (hrole : l'.role = Function.update l.role t r)
    (hc : ∀ P, (List.range l'.calls).countP P + (l.accepted.countP P + l.refusals P) +
        ((l.role t).pendingIn P).toNat
      = (List.range l.calls).countP P + (l'.accepted.countP P + l'.refusals P) + (r.pendingIn P).toNat)
    (ha : ∀ P, l'.accepted.countP P + l.acceptances P + ((l.role t).acceptedIn P).toNat
      = l.accepted.countP P + l'.acceptances P + (r.acceptedIn P).toNat)
    (ht : ∀ P, l'.accepted.countP P + (l.queue.countP P + (l.runs.map Prod.snd).countP P) +
        ((l.role t).takenIn P).toNat
      = l.accepted.countP P + (l'.queue.countP P + (l'.runs.map Prod.snd).countP P) +
        (r.takenIn P).toNat)
    (hst : l'.runs.length + l.completions + (l.role t).started.toNat
      = l.runs.length + l'.completions + r.started.toNat)
    (hs : l'.submitted + UInt64.ofNat (l.accepted.length + (l.role t).counted.toNat)
      = l.submitted + UInt64.ofNat (l'.accepted.length + r.counted.toNat))
    (hd : l'.completed + UInt64.ofNat l.completions = l.completed + UInt64.ofNat l'.completions) :
    l'.Inv := by
  refine ⟨?_, ?_, ?_, ?_, ?_, ?_⟩
  · intro P
    have e := roles_update (Role.pendingIn P) t r hrole
    have := h.calls P
    have := hc P
    omega
  · intro P
    have e := roles_update (Role.acceptedIn P) t r hrole
    have := h.answers P
    have := ha P
    omega
  · intro P
    have e := roles_update (Role.takenIn P) t r hrole
    have := h.tasks P
    have := ht P
    omega
  · have e := roles_update Role.started t r hrole
    have := h.started
    omega
  · have e := roles_update Role.counted t r hrole
    rw [h.submitted, ← UInt64.ofNat_add] at hs
    refine (UInt64.add_left_inj (UInt64.ofNat (l.accepted.length + (l.role t).counted.toNat))).mp ?_
    rw [hs, ← UInt64.ofNat_add]
    congr 1
    omega
  · rw [h.completed] at hd
    refine (UInt64.add_left_inj (UInt64.ofNat l.completions)).mp ?_
    rw [hd, UInt64.add_comm]

theorem Inv.empty : (LedgerAct.out l .empty).Inv := by
  refine { h with calls := ?_, answers := ?_ }
  · intro P
    have hc := h.calls P
    simp only [roles, refusals] at hc
    simp [LedgerAct.out, roles, refusals, List.range_succ]
    omega
  · intro P
    have ha := h.answers P
    simp only [roles, acceptances] at ha
    simpa [LedgerAct.out, roles, acceptances] using ha

theorem Inv.act (a : LedgerAct Tid) (ha : a.Ok l) : (a.out l).Inv := by
  cases a with
  | call t =>
    have hs : (l.role t).submitting = .away := ha
    refine h.move t { l.role t with submitting := .called l.calls } rfl ?_ ?_ (fun _ => rfl) rfl ?_ rfl
    · intro P
      simp [LedgerAct.out, setSubmitting, refusals, Role.pendingIn, hs, List.range_succ, toNat_eq_ite]
      omega
    · simp [LedgerAct.out, setSubmitting, acceptances, Role.acceptedIn, hs]
    · simp [LedgerAct.out, setSubmitting, Role.counted, hs]
  | empty => exact h.empty
  | refuse t k =>
    have hs : (l.role t).submitting = .called k := ha
    refine h.move t { l.role t with submitting := .away } rfl ?_ ?_ (fun _ => rfl) rfl ?_ rfl
    · intro P
      simp [LedgerAct.out, setSubmitting, refusals, Role.pendingIn, hs, toNat_eq_ite]
      omega
    · simp [LedgerAct.out, setSubmitting, acceptances, Role.acceptedIn, hs]
    · simp [LedgerAct.out, setSubmitting, Role.counted, hs]
  | count t k =>
    have hs : (l.role t).submitting = .called k := ha
    refine h.move t { l.role t with submitting := .counted k } rfl ?_ ?_ (fun _ => rfl) rfl ?_ rfl
    · simp [LedgerAct.out, setSubmitting, refusals, Role.pendingIn, hs]
    · simp [LedgerAct.out, setSubmitting, acceptances, Role.acceptedIn, hs]
    · show l.submitted + 1 + UInt64.ofNat (l.accepted.length + (l.role t).counted.toNat)
        = l.submitted + UInt64.ofNat (l.accepted.length + 1)
      rw [Role.counted, hs, UInt64.ofNat_add l.accepted.length 1, UInt64.add_assoc, UInt64.add_comm 1]
      rfl
  | accept t k =>
    have hs : (l.role t).submitting = .counted k := ha
    refine h.move t { l.role t with submitting := .accepted k } rfl ?_ ?_ ?_ rfl ?_ rfl
    · intro P
      simp [LedgerAct.out, setSubmitting, refusals, Role.pendingIn, hs, toNat_eq_ite]
      omega
    · intro P
      simp [LedgerAct.out, setSubmitting, acceptances, Role.acceptedIn, hs, toNat_eq_ite]
      omega
    · intro P
      simp [LedgerAct.out, setSubmitting, Role.takenIn]
      omega
    · simp [LedgerAct.out, setSubmitting, Role.counted, hs]
  | retreat t k result =>
    obtain ⟨hs, hr⟩ := ha
    refine h.move t { l.role t with submitting := .away } rfl ?_ ?_ (fun _ => rfl) rfl ?_ rfl
    · intro P
      simp [LedgerAct.out, setSubmitting, refusals, Role.pendingIn, hs, hr, toNat_eq_ite]
      omega
    · simp [LedgerAct.out, setSubmitting, acceptances, Role.acceptedIn, hs, hr]
    · show l.submitted - 1 + UInt64.ofNat (l.accepted.length + (l.role t).counted.toNat)
        = l.submitted + UInt64.ofNat l.accepted.length
      rw [Role.counted, hs, UInt64.ofNat_add, UInt64.add_comm (UInt64.ofNat l.accepted.length),
        ← UInt64.add_assoc]
      exact congrArg (· + _) (UInt64.sub_add_cancel l.submitted 1)
  | answer t k =>
    have hs : (l.role t).submitting = .accepted k := ha
    refine h.move t { l.role t with submitting := .away } rfl ?_ ?_ (fun _ => rfl) rfl ?_ rfl
    · simp [LedgerAct.out, setSubmitting, refusals, Role.pendingIn, hs]
    · intro P
      simp [LedgerAct.out, setSubmitting, acceptances, Role.acceptedIn, hs, toNat_eq_ite]
      omega
    · simp [LedgerAct.out, setSubmitting, Role.counted, hs]
  | take t k =>
    obtain ⟨hh, hq⟩ := ha
    obtain ⟨rest, hq⟩ := List.head?_eq_some_iff.mp hq
    refine h.move t { l.role t with holding := .taken k } rfl (fun _ => rfl) (fun _ => rfl) ?_ ?_ rfl rfl
    · intro P
      simp [LedgerAct.out, setHolding, Role.takenIn, hh, hq, List.countP_cons, toNat_eq_ite]
      omega
    · simp [LedgerAct.out, setHolding, Role.started, hh]
  | start t k =>
    have hh : (l.role t).holding = .taken k := ha
    refine h.move t { l.role t with holding := .started k } rfl (fun _ => rfl) (fun _ => rfl) ?_ ?_ rfl rfl
    · intro P
      simp [LedgerAct.out, setHolding, Role.takenIn, hh, toNat_eq_ite]
      omega
    · simp [LedgerAct.out, setHolding, Role.started, hh]
      omega
  | complete t k =>
    have hh : (l.role t).holding = .started k := ha
    refine h.move t { l.role t with holding := .free } rfl (fun _ => rfl) (fun _ => rfl) ?_ ?_ rfl ?_
    · simp [LedgerAct.out, setHolding, Role.takenIn, hh]
    · simp [LedgerAct.out, setHolding, Role.started, hh]
      omega
    · simp [LedgerAct.out, setHolding]
      rw [UInt64.add_assoc, UInt64.add_comm 1]
  | readSubmitted t =>
    exact h.move t { l.role t with reading := some l.submitted } rfl (fun _ => rfl) (fun _ => rfl)
      (fun _ => rfl) rfl rfl rfl
  | readCompleted t s =>
    exact h.move t { l.role t with reading := none } rfl (fun _ => rfl) (fun _ => rfl)
      (fun _ => rfl) rfl rfl rfl

omit h in
theorem new_inv : ({ role := fun _ => {} } : TaskLedger Tid).Inv := by
  have hz (p : Role → Bool) (hp : p {} = false) :
      roles ({ role := fun _ => {} } : TaskLedger Tid) p = 0 := count_eq_zero fun _ => hp
  refine ⟨?_, ?_, ?_, ?_, ?_, rfl⟩
  · intro P
    rw [hz _ rfl]
    rfl
  · intro P
    rw [hz _ rfl]
    rfl
  · intro P
    rw [hz _ rfl]
    rfl
  · rw [hz _ rfl]
    rfl
  · rw [hz _ rfl]
    rfl

omit h in
theorem reach_inv (hr : Reach LedgerAct.Ok LedgerAct.out { role := fun _ => {} } l) : l.Inv :=
  reach_invariant Inv hr new_inv fun _ a h ha => h.act a ha

/-! ## what follows for all tasks together, and for one task -/

/-- the number of calls that have counted and not taken back -/
def published (l : TaskLedger Tid) : ℕ := l.accepted.length + l.roles Role.counted

/-- the workers that have a task -/
def busy (l : TaskLedger Tid) : ℕ := l.roles (Role.takenIn fun _ => true) + l.roles Role.started

theorem Inv.published_eq : l.published
    = l.completions + (l.roles Role.counted + l.queue.length + l.busy) := by
  have ht := h.tasks fun _ => true
  have hs := h.started
  rw [List.countP_true, List.length_map] at ht
  unfold published busy
  omega

theorem Inv.published_le : l.published ≤ l.calls := by
  have hc := h.calls fun _ => true
  rw [List.countP_true, List.length_range] at hc
  have hle : l.roles Role.counted ≤ l.roles (Role.pendingIn fun _ => true) := by
    refine count_le ?_
    intro t ht
    unfold Role.counted at ht
    unfold Role.pendingIn
    split at ht
    · rename_i k hk
      rw [hk]
    · cases ht
  unfold published
  omega

/-- a call has at most one outcome -/
theorem Inv.accepted_le (k : ℕ) : l.accepted.count k + l.refusals (· == k) ≤ 1 := by
  have hc := h.calls (· == k)
  have h1 : (List.range l.calls).count k ≤ 1 := List.nodup_iff_count_le_one.mp List.nodup_range k
  unfold List.count at h1 ⊢
  omega

theorem Inv.accepted_nodup : l.accepted.Nodup :=
  List.nodup_iff_count_le_one.mpr fun k => Nat.le_of_add_right_le (h.accepted_le k)

/-- an accepted task has the number of a call that was made, -/
theorem Inv.accepted_lt {k : ℕ} (hk : k ∈ l.accepted) : k < l.calls := by
  have hc := h.calls (· == k)
  have hpos : 0 < l.accepted.countP (· == k) := List.count_pos_iff.mpr hk
  have hmem : 0 < (List.range l.calls).count k := by
    unfold List.count
    omega
  exact List.mem_range.mp (List.count_pos_iff.mp hmem)

/-- which is not between its increment and its outcome, -/
theorem Inv.counted_not_accepted {t : Tid} {k : ℕ} (ht : (l.role t).submitting = .counted k) :
    k ∉ l.accepted := by
  intro hk
  have hc := h.calls (· == k)
  have h1 : (List.range l.calls).count k ≤ 1 := List.nodup_iff_count_le_one.mp List.nodup_range k
  have hpos : 0 < l.accepted.countP (· == k) := List.count_pos_iff.mpr hk
  have hrole : 0 < l.roles (Role.pendingIn (· == k)) := by
    refine count_pos (t := t) ?_
    simp [Role.pendingIn, ht]
  unfold List.count at h1
  omega

/-- and did not return false or throw -/
theorem Inv.refused_not_accepted {k : ℕ} {result : SubmitResult} (hk : (k, result) ∈ l.returns)
    (hr : result ≠ .accepted) : k ∉ l.accepted := by
  intro hmem
  have hle := h.accepted_le k
  have hpos : 0 < l.refusals (· == k) := List.countP_pos_iff.mpr ⟨_, hk, by simp [hr]⟩
  have : 0 < l.accepted.count k := List.count_pos_iff.mpr hmem
  omega

theorem Inv.mem_accepted {k : ℕ} (hk : (k, .accepted) ∈ l.returns) : k ∈ l.accepted := by
  have ha := h.answers (· == k)
  have hpos : 0 < l.acceptances (· == k) := List.countP_pos_iff.mpr ⟨_, hk, by simp⟩
  refine List.count_pos_iff.mp ?_
  unfold List.count
  omega

theorem Inv.queue_count_le (k : ℕ) : l.queue.count k ≤ l.accepted.count k := by
  have ht := h.tasks (· == k)
  unfold List.count
  omega

theorem Inv.queue_nodup : l.queue.Nodup :=
  List.nodup_iff_count_le_one.mpr fun k =>
    (h.queue_count_le k).trans (List.nodup_iff_count_le_one.mp h.accepted_nodup k)

theorem Inv.queue_subset {k : ℕ} (hk : k ∈ l.queue) : k ∈ l.accepted :=
  List.count_pos_iff.mp (Nat.lt_of_lt_of_le (List.count_pos_iff.mpr hk) (h.queue_count_le k))

/-- a task whose call returned true is queued, or taken by one worker, or has been run once -/
theorem Inv.accepted_once {k : ℕ} (hk : (k, .accepted) ∈ l.returns) :
    l.queue.count k + l.roles (Role.takenIn (· == k)) + (l.runs.map Prod.snd).count k = 1 := by
  have ha := h.answers (· == k)
  have ht := h.tasks (· == k)
  have hle := h.accepted_le k
  have hpos : 0 < l.acceptances (· == k) :=
    List.countP_pos_iff.mpr ⟨_, hk, by simp⟩
  unfold List.count at hle ⊢
  omega

/-- a task whose call returned false or threw is nowhere -/
theorem Inv.refused_never {k : ℕ} {result : SubmitResult} (hk : (k, result) ∈ l.returns)
    (hr : result ≠ .accepted) :
    l.queue.count k + l.roles (Role.takenIn (· == k)) + (l.runs.map Prod.snd).count k = 0 := by
  have ht := h.tasks (· == k)
  have hle := h.accepted_le k
  have hpos : 0 < l.refusals (· == k) :=
    List.countP_pos_iff.mpr ⟨_, hk, by simp [hr]⟩
  unfold List.count at hle ⊢
  omega

end

/-! ## the two reads -/

end TaskLedger

/-- no call is counted while a thread is between its two reads -/
def LedgerAct.QuietOk {Tid : Type} (l : TaskLedger Tid) (a : LedgerAct Tid) : Prop :=
  a.Ok l ∧ ∀ t k, a = .count t k → ∀ u, (l.role u).reading = none

namespace TaskLedger
variable {Tid : Type} [DecidableEq Tid] [Fintype Tid] {l : TaskLedger Tid}

/-- what was read covers the calls that are counted now, and so do the reports -/
structure Reports (l : TaskLedger Tid) : Prop where
  reading : ∀ t s, (l.role t).reading = some s → l.published ≤ s.toNat
  reports : ∀ r ∈ l.reports, r.2 ≤ r.1

theorem published_update (l l' : TaskLedger Tid) (t : Tid) (r : Role)
    (hrole : l'.role = Function.update l.role t r) :
    l'.published + (l.accepted.length + (l.role t).counted.toNat)
      = l.published + (l'.accepted.length + r.counted.toNat) := by
  have e := roles_update Role.counted t r hrole
  unfold published
  omega

theorem reading_update {l' : TaskLedger Tid} {t u : Tid} {r : Role} {s : UInt64}
    (hrole : l'.role = Function.update l.role t r) (hs : (l'.role u).reading = some s) :
    u = t ∧ r.reading = some s ∨ u ≠ t ∧ (l.role u).reading = some s := by
  rw [hrole] at hs
  by_cases hut : u = t
  · subst hut
    rw [Function.update_self] at hs
    exact Or.inl ⟨rfl, hs⟩
  · rw [Function.update_of_ne hut] at hs
    exact Or.inr ⟨hut, hs⟩

theorem Inv.published_toNat (h : l.Inv) (hcalls : l.calls < 2 ^ 64) :
    l.submitted.toNat = l.published := by
  rw [h.submitted]
  exact UInt64.toNat_ofNat_of_lt' (Nat.lt_of_le_of_lt h.published_le hcalls)

theorem Inv.completed_toNat (h : l.Inv) (hcalls : l.calls < 2 ^ 64) :
    l.completed.toNat = l.completions := by
  have hle : l.completions ≤ l.published := by
    rw [h.published_eq]
    exact Nat.le_add_right _ _
  rw [h.completed]
  exact UInt64.toNat_ofNat_of_lt' (Nat.lt_of_le_of_lt (hle.trans h.published_le) hcalls)

/-- with an empty queue and no task with a worker, when no call is in progress -/
theorem Inv.finished (h : l.Inv) (hq : l.queue = []) (hb : l.busy = 0)
    (haway : ∀ t, (l.role t).submitting = .away) :
    l.published = l.acceptances (fun _ => true) ∧ l.completions = l.acceptances fun _ => true := by
  have hc : l.roles Role.counted = 0 := count_eq_zero fun t => by simp [Role.counted, haway t]
  have hr : l.roles (Role.acceptedIn fun _ => true) = 0 :=
    count_eq_zero fun t => by simp [Role.acceptedIn, haway t]
  have hpub := h.published_eq
  have ha := h.answers fun _ => true
  rw [List.countP_true, hr] at ha
  rw [hq, hb, hc, List.length_nil] at hpub
  unfold published at hpub ⊢
  omega

theorem Reports.move (h : l.Reports) {l' : TaskLedger Tid} (t : Tid) (r : Role)
    (hrole : l'.role = Function.update l.role t r) (hread : r.reading = (l.role t).reading)
    (hle : l'.accepted.length + r.counted.toNat ≤ l.accepted.length + (l.role t).counted.toNat)
    (hrep : l'.reports = l.reports) : l'.Reports := by
  have e := published_update l l' t r hrole
  refine ⟨?_, by rw [hrep]; exact h.reports⟩
  intro u s hs
  have hu : (l.role u).reading = some s := by
    rcases reading_update hrole hs with ⟨rfl, hr⟩ | ⟨_, hr⟩
    · rwa [← hread]
    · exact hr
  have := h.reading u s hu
  omega

/-- **a step keeps the reports in order** -/
theorem Reports.act (h : l.Reports) (hinv : l.Inv) (hcalls : l.calls < 2 ^ 64) (a : LedgerAct Tid)
    (ha : a.QuietOk l) : (a.out l).Reports := by
  obtain ⟨ha, hquiet⟩ := ha
  cases a with
  | call t =>
    have hs : (l.role t).submitting = .away := ha
    exact h.move t _ rfl rfl (by simp [LedgerAct.out, setSubmitting, Role.counted, hs]) rfl
  | empty => exact ⟨h.reading, h.reports⟩
  | refuse t k =>
    have hs : (l.role t).submitting = .called k := ha
    exact h.move t _ rfl rfl (by simp [LedgerAct.out, setSubmitting, Role.counted, hs]) rfl
  | count t k =>
    -- nobody is reading
    have hnone := hquiet t k rfl
    refine ⟨?_, h.reports⟩
    intro u s hs
    rcases reading_update rfl hs with ⟨_, hr⟩ | ⟨_, hr⟩
    · cases (hnone t).symm.trans hr
    · cases (hnone u).symm.trans hr
  | accept t k =>
    have hs : (l.role t).submitting = .counted k := ha
    exact h.move t _ rfl rfl (by simp [LedgerAct.out, setSubmitting, Role.counted, hs]) rfl
  | retreat t k result =>
    obtain ⟨hs, hr⟩ := ha
    exact h.move t _ rfl rfl (by simp [LedgerAct.out, setSubmitting, Role.counted, hs]) rfl
  | answer t k =>
    have hs : (l.role t).submitting = .accepted k := ha
    exact h.move t _ rfl rfl (by simp [LedgerAct.out, setSubmitting, Role.counted, hs]) rfl
  | take t k => exact h.move t _ rfl rfl (Nat.le_refl _) rfl
  | start t k => exact h.move t _ rfl rfl (Nat.le_refl _) rfl
  | complete t k => exact h.move t _ rfl rfl (Nat.le_refl _) rfl
  | readSubmitted t =>
    have e := published_update l (LedgerAct.out l (.readSubmitted t)) t _ rfl
    have hp : (LedgerAct.out l (.readSubmitted t)).published = l.published := Nat.add_right_cancel e
    refine ⟨?_, h.reports⟩
    intro u s hs
    rw [hp]
    rcases reading_update rfl hs with ⟨_, hr⟩ | ⟨_, hr⟩
    · cases hr
      exact Nat.le_of_eq (hinv.published_toNat hcalls).symm
    · exact h.reading u s hr
  | readCompleted t s =>
    have hr : (l.role t).reading = some s := ha
    have e := published_update l (LedgerAct.out l (.readCompleted t s)) t _ rfl
    have hp : (LedgerAct.out l (.readCompleted t s)).published = l.published := Nat.add_right_cancel e
    refine ⟨?_, ?_⟩
    · intro u s' hs
      rw [hp]
      rcases reading_update rfl hs with ⟨_, hr'⟩ | ⟨_, hr'⟩
      · cases hr'
      · exact h.reading u s' hr'
    · intro r hmem
      rcases List.mem_append.mp hmem with hmem | hmem
      · exact h.reports r hmem
      · cases List.mem_singleton.mp hmem
        -- the completions are among the calls counted now, and these were read
        have hle := h.reading t s hr
        rw [hinv.published_eq] at hle
        rw [UInt64.le_iff_toNat_le, hinv.completed_toNat hcalls]
        exact Nat.le_of_add_right_le hle

theorem calls_mono (a : LedgerAct Tid) : l.calls ≤ (a.out l).calls := by
  cases a with
  | call t => exact Nat.le_succ _
  | empty => exact Nat.le_succ _
  | _ => exact Nat.le_refl _

theorem reach_reports (hr : Reach LedgerAct.QuietOk LedgerAct.out { role := fun _ => {} } l)
    (hcalls : l.calls < 2 ^ 64) : l.Reports := by
  refine (reach_invariant (fun l => l.Inv ∧ (l.calls < 2 ^ 64 → l.Reports)) hr
    ⟨new_inv, fun _ => ⟨nofun, nofun⟩⟩ ?_).2 hcalls
  rintro l a ⟨hinv, h⟩ ha
  refine ⟨hinv.act a ha.1, fun hlt => ?_⟩
  have hlt := Nat.lt_of_le_of_lt (calls_mono a) hlt
  exact (h hlt).act hinv hlt a ha

end TaskLedger

end NetForge
