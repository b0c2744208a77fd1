import SystemsCourse.Matching.IngressInvariant

/-!
# The ingress queue with one producer and one consumer

With two threads the queue is right for any number of operations: the words of the counters and of the
sequence numbers wrap around, but only their differences within one lap matter.

`Spsc k items w r` is the state between them: the producer has pushed the first `w` of the items, the
consumer has popped the first `r`, and the ring of `2 ^ k` cells holds the rest.  A step of the producer
or of the consumer keeps it (`Spsc.producer_access`, `Spsc.consumer_access`), and so does the beginning
of a call (`Spsc.tryPush`, `Spsc.tryPop`).
-/

set_option linter.unusedSectionVars false
set_option linter.unusedVariables false

namespace Matching

/-! ## the next access of a thread -/

namespace Queue
variable {Tid α : Type} [DecidableEq Tid]

/-- the access that a thread makes from its place in the code, where a compare-exchange fails only for
a position that is not the expected one -/
def accessAt (moved : α → α) (x : Queue Tid α) (t : Tid) : IngressPc α → Queue Tid α
  | .idle => x
  | .pushLoad item => x.goto t (.pushSequence item x.enqueue)
  | .pushSequence item p => x.goto t (pushBranch item p (x.cell p).sequence)
  | .pushExchange item p =>
    if x.enqueue = p then
      { x.goto t (.pushWrite item p) with enqueue := p + 1, pushes := x.pushes ++ [(t, item)] }
    else x.goto t (.pushSequence item x.enqueue)
  | .pushWrite item p =>
    (x.setCell p { x.cell p with value := some item }).goto t (.pushStore item p)
  | .pushStore item p =>
    { (x.setCell p { x.cell p with sequence := p + 1 }).goto t .idle with
      pushed := x.pushed ++ [(p.toNat, t, item)] }
  | .popLoad => x.goto t (.popSequence x.dequeue)
  | .popSequence p => x.goto t (popBranch p (x.cell p).sequence)
  | .popExchange p =>
    if x.dequeue = p then { x.goto t (.popMove p) with dequeue := p + 1, pops := x.pops + 1 }
    else x.goto t (.popSequence x.dequeue)
  | .popMove p =>
    (x.setCell p { x.cell p with value := (x.cell p).value.map moved }).goto t
      (.popReset p (x.cell p).value)
  | .popReset p result =>
    (x.setCell p { x.cell p with value := none }).goto t (.popStore p result)
  | .popStore p result =>
    { (x.setCell p { x.cell p with sequence := p + x.capacity }).goto t .idle with
      popped := x.popped ++ [(p.toNat, t, result)] }

def access (moved : α → α) (x : Queue Tid α) (t : Tid) : Queue Tid α :=
  x.accessAt moved t (x.pc t)

/-- the weak compare-exchange of a thread fails -/
def fails (x : Queue Tid α) (t : Tid) : Queue Tid α :=
  match x.pc t with
  | .pushExchange item _ => x.goto t (.pushSequence item x.enqueue)
  | .popExchange _ => x.goto t (.popSequence x.dequeue)
  | _ => x

end Queue

def IngressPc.isIdle {α : Type} : IngressPc α → Bool
  | .idle => true
  | _ => false

theorem IngressPc.eq_idle {α : Type} {pc : IngressPc α} (h : pc.isIdle = true) : pc = .idle := by
  cases pc with
  | idle => rfl
  | _ => cases h

theorem IngressPc.ne_idle {α : Type} {pc : IngressPc α} (h : pc.isIdle = false) : pc ≠ .idle := by
  rintro rfl
  cases h

namespace Queue
variable {Tid α : Type} [DecidableEq Tid] {moved : α → α} {x : Queue Tid α} {t : Tid}

theorem goto_pc (x : Queue Tid α) (p : IngressPc α) : (x.goto t p).pc t = p :=
  Function.update_self ..

theorem goto_pc_of_ne {t' : Tid} (hne : t' ≠ t) (x : Queue Tid α) (p : IngressPc α) :
    (x.goto t p).pc t' = x.pc t' := Function.update_of_ne hne ..

theorem access_eq {p : IngressPc α} (h : x.pc t = p) : x.access moved t = x.accessAt moved t p := by
  rw [access, h]

theorem access_step (h : x.pc t ≠ .idle) : Step moved x (x.access moved t) := by
  unfold access
  cases e : x.pc t with
  | idle => exact absurd e h
  | pushLoad a => exact .pushLoad x t a e
  | pushSequence a p => exact .pushSequence x t a p e
  | pushExchange a p =>
    unfold accessAt
    dsimp only
    split
    · rename_i he
      exact .pushExchange x t a p e he
    · exact .pushFail x t a p e
  | pushWrite a p => exact .pushWrite x t a p e
  | pushStore a p => exact .pushStore x t a p e
  | popLoad => exact .popLoad x t e
  | popSequence p => exact .popSequence x t p e
  | popExchange p =>
    unfold accessAt
    dsimp only
    split
    · rename_i he
      exact .popExchange x t p e he
    · exact .popFail x t p e
  | popMove p => exact .popMove x t p e
  | popReset p result => exact .popReset x t p result e
  | popStore p result => exact .popStore x t p result e

theorem fails_step (moved : α → α) (x : Queue Tid α) (t : Tid) :
    x.fails t = x ∨ Step moved x (x.fails t) := by
  unfold fails
  split
  · rename_i e
    exact Or.inr (.pushFail x t _ _ e)
  · rename_i e
    exact Or.inr (.popFail x t _ e)
  · exact Or.inl rfl

/-- the other threads stay where they are -/
theorem access_pc_of_ne {t' : Tid} (hne : t' ≠ t) : (x.access moved t).pc t' = x.pc t' := by
  have hupd (pc : IngressPc α) : Function.update x.pc t pc t' = x.pc t' := Function.update_of_ne hne ..
  unfold access
  cases x.pc t with
  | idle => rfl
  | pushExchange a p =>
    unfold accessAt
    dsimp only
    split <;> exact hupd _
  | popExchange p =>
    unfold accessAt
    dsimp only
    split <;> exact hupd _
  | _ => exact hupd _

theorem fails_pc_of_ne {t' : Tid} (hne : t' ≠ t) : (x.fails t).pc t' = x.pc t' := by
  unfold fails
  split
  · exact Function.update_of_ne hne ..
  · exact Function.update_of_ne hne ..
  · rfl

/-- no call begins or ends with it -/
theorem fails_isIdle (x : Queue Tid α) (t u : Tid) : ((x.fails t).pc u).isIdle = (x.pc u).isIdle := by
  by_cases hu : u = t
  · subst hu
    unfold fails
    split
    · rename_i e
      rw [goto_pc, e]
      rfl
    · rename_i e
      rw [goto_pc, e]
      rfl
    · rfl
  · rw [fails_pc_of_ne hu]

end Queue

/-! ## words around the ring -/

theorem difference_self (a : UInt64) : Queue.difference a a = 0 := by
  unfold Queue.difference
  exact Int64.sub_self _

/-- a sequence number that is behind by at most half the range of the words -/
theorem difference_behind {m c : ℕ} (h1 : 1 ≤ c) (h2 : c ≤ 2^63) :
    Queue.difference (UInt64.ofNat m) (UInt64.ofNat (m + c)) < 0 := by
  have e : UInt64.ofNat m - UInt64.ofNat (m + c) = UInt64.ofNat (2^64 - c) := by
    have hz : UInt64.ofNat (2^64) = 0 := rfl
    rw [UInt64.ofNat_sub (by omega), UInt64.ofNat_add, hz]
    grind
  have hn : (UInt64.ofNat (2^64 - c)).toNat = 2^64 - c := by
    rw [UInt64.toNat_ofNat', Nat.mod_eq_of_lt (by omega)]
  unfold Queue.difference
  rw [← UInt64.toInt64_sub, e, Int64.lt_iff_toInt_lt]
  refine BitVec.toInt_neg_iff.mpr ?_
  show 2^64 ≤ 2 * (UInt64.ofNat (2^64 - c)).toNat
  rw [hn]
  omega

/-- the branches for a cell that is ready, and for one that is a lap behind -/
theorem pushBranch_ready {α : Type} (a : α) (p : UInt64) :
    Queue.pushBranch a p p = .pushExchange a p := if_pos (difference_self p)

theorem pushBranch_behind {α : Type} (a : α) {m c : ℕ} (h1 : 1 ≤ c) (h2 : c ≤ 2^63) :
    Queue.pushBranch a (UInt64.ofNat (m + c)) (UInt64.ofNat m) = .idle := by
  have hneg := difference_behind (m := m) h1 h2
  unfold Queue.pushBranch
  rw [if_neg (fun e => absurd (e ▸ hneg) (by decide)), if_pos hneg]

theorem popBranch_ready {α : Type} (n : ℕ) :
    (Queue.popBranch (UInt64.ofNat n) (UInt64.ofNat (n + 1)) : IngressPc α)
      = .popExchange (UInt64.ofNat n) := by
  unfold Queue.popBranch
  rw [UInt64.ofNat_add]
  exact if_pos (difference_self _)

theorem popBranch_behind {α : Type} (n : ℕ) :
    (Queue.popBranch (UInt64.ofNat n) (UInt64.ofNat n) : IngressPc α) = .idle := by
  have hneg := difference_behind (m := n) (Nat.le_refl 1) (by omega)
  rw [UInt64.ofNat_add] at hneg
  unfold Queue.popBranch
  rw [if_neg (fun e => absurd (e ▸ hneg) (by decide))]
  exact if_pos hneg

/-- the capacity is a power of two, of at most half the range of the words -/
structure Queue.Ring {Tid α : Type} (k : ℕ) (x : Queue Tid α) : Prop where
  pos : 1 ≤ k
  le : k ≤ 63
  capacity : x.capacity = UInt64.ofNat (2^k)

namespace Queue.Ring
variable {Tid α : Type} {k : ℕ} {x : Queue Tid α} (h : x.Ring k)
include h

theorem two_le : 2 ≤ 2^k := Nat.pow_le_pow_right (n := 2) (by omega) h.pos

theorem size_le : 2^k ≤ 2^63 := Nat.pow_le_pow_right (by omega) h.le

theorem index_ofNat (n : ℕ) : x.index (UInt64.ofNat n) = n % 2^k := by
  unfold index mask
  rw [h.capacity, mask_two_pow (toNat_two_pow h.le), UInt64.toNat_ofNat',
    Nat.mod_mod_of_dvd _ (pow_dvd_pow 2 (h.le.trans (by omega)))]

end Queue.Ring

/-- the other tickets of a lap have other cells -/
theorem update_ticket {β : Type} {f : ℕ → β} {N m n : ℕ} (b : β) (hne : n ≠ m) (h1 : n < m + N)
    (h2 : m < n + N) : Function.update f (m % N) b (n % N) = f (n % N) :=
  Function.update_of_ne (fun e => hne (ticket_unique e h1 h2)) ..

inductive Actor where
  | producer
  | consumer
deriving DecidableEq

/-- one of the two moves -/
theorem Actor.update_pc {β : Type} {f g : Actor → β} {t u : Actor} {b : β}
    (h : g = Function.update f t b) (hne : u ≠ t) : g t = b ∧ g u = f u := by
  rw [h]
  exact ⟨Function.update_self .., Function.update_of_ne hne ..⟩

/-- the number of threads in a cell, for one thread -/
def IngressPc.occupied {α : Type} (pc : IngressPc α) : ℕ := pc.inside.isSome.toNat

section
variable {α : Type}

/-- what the producer knows and has done for the item `w`, while `r` items are popped -/
def ProducerOk (k : ℕ) (items : List α) (w r : ℕ) (cells : ℕ → Cell α) : IngressPc α → Prop
  | .idle => True
  | .pushLoad a => items[w]? = some a
  | .pushSequence a p => items[w]? = some a ∧ p = UInt64.ofNat w
  | .pushExchange a p => items[w]? = some a ∧ p = UInt64.ofNat w ∧ w < r + 2^k
  | .pushWrite a p => items[w]? = some a ∧ p = UInt64.ofNat w ∧
      cells (w % 2^k) = ⟨UInt64.ofNat w, none⟩
  | .pushStore a p => items[w]? = some a ∧ p = UInt64.ofNat w ∧
      cells (w % 2^k) = ⟨UInt64.ofNat w, some a⟩
  | _ => False

/-- what the consumer knows and has done for the item `r`, while `w` items are pushed -/
def ConsumerOk (k : ℕ) (items : List α) (w r : ℕ) (cells : ℕ → Cell α) : IngressPc α → Prop
  | .idle => True
  | .popLoad => True
  | .popSequence p => p = UInt64.ofNat r
  | .popExchange p => p = UInt64.ofNat r ∧ r < w
  | .popMove p => p = UInt64.ofNat r ∧ cells (r % 2^k) = ⟨UInt64.ofNat (r + 1), items[r]?⟩
  | .popReset p result => p = UInt64.ofNat r ∧ result = items[r]? ∧
      (cells (r % 2^k)).sequence = UInt64.ofNat (r + 1)
  | .popStore p result => p = UInt64.ofNat r ∧ result = items[r]? ∧
      cells (r % 2^k) = ⟨UInt64.ofNat (r + 1), none⟩
  | _ => False

theorem ProducerOk.mono {k : ℕ} {items : List α} {w r r' : ℕ} {cells cells' : ℕ → Cell α}
    {pc : IngressPc α} (h : ProducerOk k items w r cells pc) (hr : r ≤ r')
    (hc : pc.occupied = 1 → cells' (w % 2^k) = cells (w % 2^k)) :
    ProducerOk k items w r' cells' pc := by
  cases pc with
  | pushExchange a p => exact ⟨h.1, h.2.1, Nat.lt_of_lt_of_le h.2.2 (Nat.add_le_add_right hr _)⟩
  | pushWrite a p => exact ⟨h.1, h.2.1, (hc rfl).trans h.2.2⟩
  | pushStore a p => exact ⟨h.1, h.2.1, (hc rfl).trans h.2.2⟩
  | _ => exact h

theorem ConsumerOk.mono {k : ℕ} {items : List α} {w w' r : ℕ} {cells cells' : ℕ → Cell α}
    {pc : IngressPc α} (h : ConsumerOk k items w r cells pc) (hw : w ≤ w')
    (hc : pc.occupied = 1 → cells' (r % 2^k) = cells (r % 2^k)) :
    ConsumerOk k items w' r cells' pc := by
  cases pc with
  | popExchange p => exact ⟨h.1, Nat.lt_of_lt_of_le h.2 hw⟩
  | popMove p => exact ⟨h.1, (hc rfl).trans h.2⟩
  | popReset p result => exact ⟨h.1, h.2.1, (congrArg Cell.sequence (hc rfl)).trans h.2.2⟩
  | popStore p result => exact ⟨h.1, h.2.1, (hc rfl).trans h.2.2⟩
  | _ => exact h

/-- `w` items are pushed, `r` are popped, and the cells hold the items between -/
structure Spsc (k : ℕ) (items : List α) (w r : ℕ) (x : Queue Actor α) : Prop where
  ring : x.Ring k
  items_le : w ≤ items.length
  enqueue : x.enqueue = UInt64.ofNat (w + (x.pc .producer).occupied)
  dequeue : x.dequeue = UInt64.ofNat (r + (x.pc .consumer).occupied)
  popped_le : r + (x.pc .consumer).occupied ≤ w
  pushed_le : w + (x.pc .producer).occupied ≤ r + 2^k
  full : ∀ n, r + (x.pc .consumer).occupied ≤ n → n < w →
    x.cells (n % 2^k) = ⟨UInt64.ofNat (n + 1), items[n]?⟩
  free : ∀ n, w + (x.pc .producer).occupied ≤ n → n < r + 2^k →
    x.cells (n % 2^k) = ⟨UInt64.ofNat n, none⟩
  producer : ProducerOk k items w r x.cells (x.pc .producer)
  consumer : ConsumerOk k items w r x.cells (x.pc .consumer)

namespace Spsc

/-- the queue as it is constructed -/
theorem init {fuel : ℕ} {requested capacity : UInt64}
    (hcap : roundPowerOfTwo fuel requested = some capacity) (items : List α) :
    ∃ k, Spsc k items 0 0 (Queue.init capacity) := by
  obtain ⟨k, h1, h2, rfl, _⟩ := roundLoop_two_pow (Or.inl ⟨1, by omega, by omega, rfl⟩) hcap
  refine ⟨k, ⟨h1, h2, rfl⟩, Nat.zero_le _, rfl, rfl, Nat.le_refl _, Nat.zero_le _, ?_, ?_, trivial, trivial⟩
  · intro n _ hn
    exact absurd hn (Nat.not_lt_zero n)
  · intro n _ hn
    rw [Nat.zero_add] at hn
    rw [Nat.mod_eq_of_lt hn]
    rfl

variable {k : ℕ} {items : List α} {w r : ℕ} {x y : Queue Actor α} (h : Spsc k items w r x)
include h

/-- the producer moves outside of the cells, or takes a ticket -/
theorem producer_goto {pc : IngressPc α} (hcap : y.capacity = x.capacity) (hcells : y.cells = x.cells)
    (hdeq : y.dequeue = x.dequeue) (hpc : y.pc = Function.update x.pc .producer pc)
    (hocc : (x.pc .producer).occupied ≤ pc.occupied)
    (henq : y.enqueue = UInt64.ofNat (w + pc.occupied)) (hle : w + pc.occupied ≤ r + 2^k)
    (hok : ProducerOk k items w r x.cells pc) : Spsc k items w r y := by
  obtain ⟨hp, hc⟩ := Actor.update_pc hpc (show Actor.consumer ≠ .producer from nofun)
  refine ⟨⟨h.ring.pos, h.ring.le, hcap.trans h.ring.capacity⟩, h.items_le, ?_, ?_, ?_, ?_, ?_, ?_, ?_, ?_⟩
  · rw [hp, henq]
  · rw [hc, hdeq, h.dequeue]
  · rw [hc]
    exact h.popped_le
  · rw [hp]
    exact hle
  · rw [hc, hcells]
    exact h.full
  · rw [hp, hcells]
    exact fun n hn => h.free n ((Nat.add_le_add_left hocc w).trans hn)
  · rw [hp, hcells]
    exact hok
  · rw [hc, hcells]
    exact h.consumer

/-- the consumer moves outside of the cells, or takes a ticket -/
theorem consumer_goto {pc : IngressPc α} (hcap : y.capacity = x.capacity) (hcells : y.cells = x.cells)
    (henq : y.enqueue = x.enqueue) (hpc : y.pc = Function.update x.pc .consumer pc)
    (hocc : (x.pc .consumer).occupied ≤ pc.occupied)
    (hdeq : y.dequeue = UInt64.ofNat (r + pc.occupied)) (hle : r + pc.occupied ≤ w)
    (hok : ConsumerOk k items w r x.cells pc) : Spsc k items w r y := by
  obtain ⟨hc, hp⟩ := Actor.update_pc hpc (show Actor.producer ≠ .consumer from nofun)
  refine ⟨⟨h.ring.pos, h.ring.le, hcap.trans h.ring.capacity⟩, h.items_le, ?_, ?_, ?_, ?_, ?_, ?_, ?_, ?_⟩
  · rw [hp, henq, h.enqueue]
  · rw [hc, hdeq]
  · rw [hc]
    exact hle
  · rw [hp]
    exact h.pushed_le
  · rw [hc, hcells]
    exact fun n hn => h.full n ((Nat.add_le_add_left hocc r).trans hn)
  · rw [hp, hcells]
    exact h.free
  · rw [hp, hcells]
    exact h.producer
  · rw [hc, hcells]
    exact hok

/-- the producer writes into its cell; with the sequence number it hands it over -/
theorem producer_cell {w' : ℕ} {pc : IngressPc α} {c : Cell α} (hin : (x.pc .producer).occupied = 1)
    (hcap : y.capacity = x.capacity) (hcells : y.cells = Function.update x.cells (w % 2^k) c)
    (henq : y.enqueue = x.enqueue) (hdeq : y.dequeue = x.dequeue)
    (hpc : y.pc = Function.update x.pc .producer pc) (hw : w' + pc.occupied = w + 1)
    (hfull : w' = w + 1 → c = ⟨UInt64.ofNat (w + 1), items[w]?⟩) (hitems : w' ≤ items.length)
    (hok : ProducerOk k items w' r y.cells pc) : Spsc k items w' r y := by
  obtain ⟨hp, hc⟩ := Actor.update_pc hpc (show Actor.consumer ≠ .producer from nofun)
  have hle := h.pushed_le
  have hpop := h.popped_le
  rw [hin] at hle
  have hother (n : ℕ) (hne : n ≠ w) (h1 : r ≤ n) (h2 : n < r + 2^k) :
      y.cells (n % 2^k) = x.cells (n % 2^k) := by
    rw [hcells]
    exact update_ticket c hne (by omega) (by omega)
  have hwle : w ≤ w' ∧ w' ≤ w + 1 := by
    have : pc.occupied ≤ 1 := Bool.toNat_le _
    omega
  refine ⟨⟨h.ring.pos, h.ring.le, hcap.trans h.ring.capacity⟩, hitems, ?_, ?_, ?_, ?_, ?_, ?_, ?_, ?_⟩
  · rw [hp, hw, henq, h.enqueue, hin]
  · rw [hc, hdeq, h.dequeue]
  · rw [hc]
    exact hpop.trans hwle.1
  · rw [hp, hw]
    exact hle
  · rw [hc]
    intro n h1 h2
    by_cases hn : n = w
    · subst hn
      rw [hcells, Function.update_self]
      exact hfull (by omega)
    · rw [hother n hn (by omega) (by omega)]
      exact h.full n h1 (by omega)
  · rw [hp, hw]
    intro n h1 h2
    rw [hother n (by omega) (by omega) h2]
    exact h.free n (by rw [hin]; exact h1) h2
  · rw [hp]
    exact hok
  · rw [hc]
    refine h.consumer.mono hwle.1 fun ho => ?_
    exact hother r (by omega) (Nat.le_refl _) (by have := h.ring.two_le; omega)

/-- the consumer empties its cell; with the sequence number it gives it back -/
theorem consumer_cell {r' : ℕ} {pc : IngressPc α} {c : Cell α} (hin : (x.pc .consumer).occupied = 1)
    (hcap : y.capacity = x.capacity) (hcells : y.cells = Function.update x.cells (r % 2^k) c)
    (henq : y.enqueue = x.enqueue) (hdeq : y.dequeue = x.dequeue)
    (hpc : y.pc = Function.update x.pc .consumer pc) (hr : r' + pc.occupied = r + 1)
    (hfree : r' = r + 1 → c = ⟨UInt64.ofNat (r + 2^k), none⟩)
    (hok : ConsumerOk k items w r' y.cells pc) : Spsc k items w r' y := by
  obtain ⟨hc, hp⟩ := Actor.update_pc hpc (show Actor.producer ≠ .consumer from nofun)
  have hle := h.pushed_le
  have hpop := h.popped_le
  rw [hin] at hpop
  have hother (n : ℕ) (hne : n ≠ r) (h1 : r ≤ n) (h2 : n < r + 2^k) :
      y.cells (n % 2^k) = x.cells (n % 2^k) := by
    rw [hcells]
    exact update_ticket c hne (by omega) (by omega)
  have hrle : r ≤ r' ∧ r' ≤ r + 1 := by
    have : pc.occupied ≤ 1 := Bool.toNat_le _
    omega
  refine ⟨⟨h.ring.pos, h.ring.le, hcap.trans h.ring.capacity⟩, h.items_le, ?_, ?_, ?_, ?_, ?_, ?_, ?_, ?_⟩
  · rw [hp, henq, h.enqueue]
  · rw [hc, hr, hdeq, h.dequeue, hin]
  · rw [hc, hr]
    exact hpop
  · rw [hp]
    exact hle.trans (Nat.add_le_add_right hrle.1 _)
  · rw [hc, hr]
    intro n h1 h2
    rw [hother n (by omega) (by omega) (by omega)]
    exact h.full n (by rw [hin]; exact h1) h2
  · rw [hp]
    intro n h1 h2
    by_cases hn : n = r + 2^k
    · subst hn
      rw [Nat.add_mod_right, hcells, Function.update_self]
      exact hfree (by omega)
    · rw [hother n (by omega) (by omega) (by omega)]
      exact h.free n h1 (by omega)
  · rw [hp]
    refine h.producer.mono hrle.1 fun ho => ?_
    exact hother w (by omega) (by omega) (by omega)
  · rw [hc]
    exact hok

/-- while the producer is in no call, the items that are not pushed yet do not matter -/
theorem items_congr {items' : List α} (hidle : x.pc .producer = .idle) (hle : w ≤ items'.length)
    (heq : ∀ n, n < w → items'[n]? = items[n]?) : Spsc k items' w r x := by
  have hpop := h.popped_le
  have hfull := h.full
  have hok := h.consumer
  refine ⟨h.ring, hle, h.enqueue, h.dequeue, hpop, h.pushed_le, ?_, h.free, ?_, ?_⟩
  · intro n h1 h2
    rw [heq n h2]
    exact hfull n h1 h2
  · rw [hidle]
    trivial
  · cases hpc : x.pc .consumer with
    | popMove p =>
      rw [hpc] at hok hpop
      exact ⟨hok.1, by rw [heq r hpop]; exact hok.2⟩
    | popReset p result =>
      rw [hpc] at hok hpop
      exact ⟨hok.1, by rw [heq r hpop]; exact hok.2.1, hok.2.2⟩
    | popStore p result =>
      rw [hpc] at hok hpop
      exact ⟨hok.1, by rw [heq r hpop]; exact hok.2.1, hok.2.2⟩
    | _ =>
      rw [hpc] at hok
      exact hok

theorem cell_ofNat (n : ℕ) : x.cell (UInt64.ofNat n) = x.cells (n % 2^k) := by
  unfold Queue.cell
  rw [h.ring.index_ofNat]

theorem setCell_ofNat (n : ℕ) (c : Cell α) :
    (x.setCell (UInt64.ofNat n) c).cells = Function.update x.cells (n % 2^k) c := by
  unfold Queue.setCell
  dsimp only
  rw [h.ring.index_ofNat]

/-- the cell of the next item to pop, once that item is pushed and until it is popped -/
theorem sequence_next (hlt : r < w) : (x.cells (r % 2^k)).sequence = UInt64.ofNat (r + 1) := by
  have hfull := h.full r
  have hok := h.consumer
  cases hpc : x.pc .consumer with
  | popMove p =>
    rw [hpc] at hok
    rw [hok.2]
  | popReset p result =>
    rw [hpc] at hok
    exact hok.2.2
  | popStore p result =>
    rw [hpc] at hok
    rw [hok.2.2]
  | pushWrite a p =>
    rw [hpc] at hok
    exact hok.elim
  | pushStore a p =>
    rw [hpc] at hok
    exact hok.elim
  | _ =>
    rw [hpc] at hfull
    rw [hfull (Nat.le_refl _) hlt]

/-- the producer finds the cell free, or the ring full -/
theorem pushBranch_eq (hocc : (x.pc .producer).occupied = 0) (a : α) :
    Queue.pushBranch a (UInt64.ofNat w) (x.cell (UInt64.ofNat w)).sequence
      = if w < r + 2^k then .pushExchange a (UInt64.ofNat w) else .idle := by
  have hle := h.pushed_le
  have h2 := h.ring.two_le
  have h63 := h.ring.size_le
  rw [hocc] at hle
  rw [h.cell_ofNat]
  split_ifs with hlt
  · rw [h.free w (by rw [hocc]; exact Nat.le_refl _) hlt]
    exact pushBranch_ready a _
  · obtain rfl : w = r + 1 + (2^k - 1) := by omega
    rw [show r + 1 + (2^k - 1) = r + 2^k by omega, Nat.add_mod_right, h.sequence_next (by omega),
      show r + 2^k = r + 1 + (2^k - 1) by omega]
    exact pushBranch_behind a (by omega) (by omega)

/-- the consumer finds the cell full, or the ring empty -/
theorem popBranch_eq (hocc : (x.pc .consumer).occupied = 0) :
    (Queue.popBranch (UInt64.ofNat r) (x.cell (UInt64.ofNat r)).sequence : IngressPc α)
      = if r < w then .popExchange (UInt64.ofNat r) else .idle := by
  have hle := h.popped_le
  have h2 := h.ring.two_le
  rw [hocc] at hle
  rw [h.cell_ofNat]
  split_ifs with hlt
  · rw [h.sequence_next hlt]
    exact popBranch_ready r
  · obtain rfl : w = r := by omega
    have hseq : (x.cells (w % 2^k)).sequence = UInt64.ofNat w := by
      have hfree := h.free w
      have hok := h.producer
      cases hpc : x.pc .producer with
      | pushWrite a p =>
        rw [hpc] at hok
        rw [hok.2.2]
      | pushStore a p =>
        rw [hpc] at hok
        rw [hok.2.2]
      | popMove p =>
        rw [hpc] at hok
        exact hok.elim
      | popReset p result =>
        rw [hpc] at hok
        exact hok.elim
      | popStore p result =>
        rw [hpc] at hok
        exact hok.elim
      | _ =>
        rw [hpc] at hfree
        rw [hfree (Nat.le_refl _) (by omega)]
    rw [hseq]
    exact popBranch_behind w

end Spsc

/-- the items that the next access of the thread hands over -/
def IngressPc.stores : IngressPc α → ℕ
  | .pushStore _ _ => 1
  | .popStore _ _ => 1
  | _ => 0

theorem Queue.access_stores {Tid : Type} [DecidableEq Tid] {moved : α → α} {x : Queue Tid α} {t : Tid}
    (h : (x.pc t).stores = 1) : (x.access moved t).pc t = .idle := by
  unfold access
  cases hpc : x.pc t with
  | pushStore a p => exact Function.update_self ..
  | popStore p result => exact Function.update_self ..
  | _ =>
    rw [hpc] at h
    cases h

theorem IngressPc.stores_cases (pc : IngressPc α) : pc.stores = 0 ∨ pc.stores = 1 := by
  cases pc with
  | pushStore a p => exact Or.inr rfl
  | popStore p result => exact Or.inr rfl
  | _ => exact Or.inl rfl

/-- the accesses that are left to the end of the operation, and `n` for a thread that is in none -/
def IngressPc.left (n : ℕ) : IngressPc α → ℕ
  | .idle => n
  | .pushLoad _ => 5
  | .pushSequence _ _ => 4
  | .pushExchange _ _ => 3
  | .pushWrite _ _ => 2
  | .pushStore _ _ => 1
  | .popLoad => 6
  | .popSequence _ => 5
  | .popExchange _ => 4
  | .popMove _ => 3
  | .popReset _ _ => 2
  | .popStore _ _ => 1

theorem IngressPc.one_le_left {pc : IngressPc α} (h : pc.stores = 1) (n : ℕ) : 1 ≤ pc.left n := by
  cases pc with
  | idle => cases h
  | _ => exact Nat.succ_le_succ (Nat.zero_le _)

theorem IngressPc.left_le (n m : ℕ) (pc : IngressPc α) : pc.left n ≤ pc.left m + n := by
  cases pc with
  | idle => exact Nat.le_add_left n m
  | _ => exact Nat.le_add_right _ n

namespace Spsc
variable {k : ℕ} {items : List α} {w r : ℕ} {x : Queue Actor α} (h : Spsc k items w r x)
include h

theorem popped_le_pushed : r ≤ w := (Nat.le_add_right ..).trans h.popped_le

/-- **a call of `try_push`** for the next item -/
theorem tryPush {a : α} (hidle : (x.pc .producer).isIdle = true) (ha : items[w]? = some a) :
    Spsc k items w r (x.goto .producer (.pushLoad a)) := by
  have henq := h.enqueue
  have hle := h.pushed_le
  have hpc : x.pc .producer = .idle := IngressPc.eq_idle hidle
  rw [hpc] at henq hle
  exact h.producer_goto rfl rfl rfl rfl (by rw [hpc]; exact Nat.le_refl _) henq hle ha

/-- **a call of `try_pop`** -/
theorem tryPop (hidle : (x.pc .consumer).isIdle = true) :
    Spsc k items w r (x.goto .consumer .popLoad) := by
  have hdeq := h.dequeue
  have hle := h.popped_le
  have hpc : x.pc .consumer = .idle := IngressPc.eq_idle hidle
  rw [hpc] at hdeq hle
  exact h.consumer_goto rfl rfl rfl rfl (by rw [hpc]; exact Nat.le_refl _) hdeq hle trivial

/-- **an access of the producer** -/
theorem producer_access (moved : α → α) :
    Spsc k items (w + (x.pc .producer).stores) r (x.access moved .producer) := by
  have hok := h.producer
  have henq := h.enqueue
  have hle := h.pushed_le
  unfold Queue.access
  cases hpc : x.pc .producer with
  | idle => exact h
  | pushLoad a =>
    rw [hpc] at hok henq hle
    exact h.producer_goto rfl rfl rfl rfl (by rw [hpc]; exact Nat.le_refl _) henq hle ⟨hok, henq⟩
  | pushSequence a p =>
    rw [hpc] at hok henq hle
    obtain ⟨ha, rfl⟩ := hok
    show Spsc k items w r (x.goto .producer (Queue.pushBranch a _ _))
    rw [h.pushBranch_eq (by rw [hpc]; rfl)]
    split_ifs with hlt
    · exact h.producer_goto rfl rfl rfl rfl (by rw [hpc]; exact Nat.le_refl _) henq hle ⟨ha, rfl, hlt⟩
    · exact h.producer_goto rfl rfl rfl rfl (by rw [hpc]; exact Nat.le_refl _) henq hle trivial
  | pushExchange a p =>
    rw [hpc] at hok henq hle
    obtain ⟨ha, rfl, hlt⟩ := hok
    rw [Queue.accessAt, if_pos (show x.enqueue = UInt64.ofNat w from henq)]
    refine h.producer_goto rfl rfl rfl rfl (by rw [hpc]; exact Nat.zero_le _) (UInt64.ofNat_add w 1).symm
      hlt ⟨ha, rfl, ?_⟩
    exact h.free w (by rw [hpc]; exact Nat.le_refl _) hlt
  | pushWrite a p =>
    rw [hpc] at hok
    obtain ⟨ha, rfl, hcell⟩ := hok
    show Spsc k items w r (x.accessAt moved .producer _)
    refine h.producer_cell (by rw [hpc]; rfl) rfl (h.setCell_ofNat w _) rfl rfl rfl rfl
      (fun e => absurd e (by omega)) h.items_le ⟨ha, rfl, ?_⟩
    show (x.setCell (UInt64.ofNat w) _).cells (w % 2^k) = _
    rw [h.setCell_ofNat, Function.update_self, h.cell_ofNat, hcell]
  | pushStore a p =>
    rw [hpc] at hok
    obtain ⟨ha, rfl, hcell⟩ := hok
    refine h.producer_cell (by rw [hpc]; rfl) rfl (h.setCell_ofNat w _) rfl rfl rfl rfl
      (fun _ => ?_) (List.getElem?_eq_some_iff.mp ha).1 trivial
    rw [h.cell_ofNat, hcell, ha, UInt64.ofNat_add]
    rfl
  | _ =>
    rw [hpc] at hok
    exact hok.elim

/-- With the store of the sequence number the consumer gets the next item: it is pushed, so it is one of
the items. -/
theorem consumer_cases :
    (x.pc .consumer).stores = 0 ∧ (∀ p result, x.pc .consumer ≠ .popStore p result) ∨
      ∃ p a, x.pc .consumer = .popStore p (some a) ∧ items[r]? = some a := by
  have hok := h.consumer
  have hlt := h.popped_le
  cases hpc : x.pc .consumer with
  | popStore p result =>
    rw [hpc] at hok hlt
    have ha := List.getElem?_eq_getElem (Nat.lt_of_lt_of_le hlt h.items_le)
    exact Or.inr ⟨p, _, by rw [hok.2.1, ha], ha⟩
  | pushStore a p =>
    rw [hpc] at hok
    exact hok.elim
  | _ => exact Or.inl ⟨rfl, nofun⟩

/-- **an access of the consumer** -/
theorem consumer_access (moved : α → α) :
    Spsc k items w (r + (x.pc .consumer).stores) (x.access moved .consumer) := by
  have hok := h.consumer
  have hdeq := h.dequeue
  have hle := h.popped_le
  unfold Queue.access
  cases hpc : x.pc .consumer with
  | idle => exact h
  | popLoad =>
    rw [hpc] at hok hdeq hle
    exact h.consumer_goto rfl rfl rfl rfl (by rw [hpc]; exact Nat.le_refl _) hdeq hle hdeq
  | popSequence p =>
    rw [hpc] at hok hdeq hle
    cases hok
    show Spsc k items w r (x.goto .consumer (Queue.popBranch _ _))
    rw [h.popBranch_eq (by rw [hpc]; rfl)]
    split_ifs with hlt
    · exact h.consumer_goto rfl rfl rfl rfl (by rw [hpc]; exact Nat.le_refl _) hdeq hle ⟨rfl, hlt⟩
    · exact h.consumer_goto rfl rfl rfl rfl (by rw [hpc]; exact Nat.le_refl _) hdeq hle trivial
  | popExchange p =>
    rw [hpc] at hok hdeq hle
    obtain ⟨rfl, hlt⟩ := hok
    rw [Queue.accessAt, if_pos (show x.dequeue = UInt64.ofNat r from hdeq)]
    refine h.consumer_goto rfl rfl rfl rfl (by rw [hpc]; exact Nat.zero_le _) (UInt64.ofNat_add r 1).symm
      hlt ⟨rfl, ?_⟩
    exact h.full r (by rw [hpc]; exact Nat.le_refl _) hlt
  | popMove p =>
    rw [hpc] at hok
    obtain ⟨rfl, hcell⟩ := hok
    show Spsc k items w r (x.accessAt moved .consumer _)
    refine h.consumer_cell (by rw [hpc]; rfl) rfl (h.setCell_ofNat r _) rfl rfl rfl rfl
      (fun e => absurd e (by omega)) ⟨rfl, ?_, ?_⟩
    · rw [h.cell_ofNat, hcell]
    · show ((x.setCell (UInt64.ofNat r) _).cells (r % 2^k)).sequence = _
      rw [h.setCell_ofNat, Function.update_self, h.cell_ofNat, hcell]
  | popReset p result =>
    rw [hpc] at hok
    obtain ⟨rfl, hres, hseq⟩ := hok
    show Spsc k items w r (x.accessAt moved .consumer _)
    refine h.consumer_cell (by rw [hpc]; rfl) rfl (h.setCell_ofNat r _) rfl rfl rfl rfl
      (fun e => absurd e (by omega)) ⟨rfl, hres, ?_⟩
    show (x.setCell (UInt64.ofNat r) _).cells (r % 2^k) = _
    rw [h.setCell_ofNat, Function.update_self, h.cell_ofNat, ← hseq]
  | popStore p result =>
    rw [hpc] at hok
    obtain ⟨rfl, hres, hcell⟩ := hok
    refine h.consumer_cell (by rw [hpc]; rfl) rfl (h.setCell_ofNat r _) rfl rfl rfl rfl (fun _ => ?_) trivial
    rw [h.cell_ofNat, hcell, h.ring.capacity, ← UInt64.ofNat_add]
  | _ =>
    rw [hpc] at hok
    exact hok.elim

/-- in a ring with room the producer comes closer to its store -/
theorem producer_left (moved : α → α) (hroom : w < r + 2^k) (hs : (x.pc .producer).stores = 0)
    (hne : x.pc .producer ≠ .idle) (n : ℕ) :
    ((x.access moved .producer).pc .producer).left n < (x.pc .producer).left n := by
  have hok := h.producer
  have henq := h.enqueue
  have hself (pc : IngressPc α) : Function.update x.pc .producer pc .producer = pc :=
    Function.update_self ..
  unfold Queue.access
  cases hpc : x.pc .producer with
  | idle => exact absurd hpc hne
  | pushSequence a p =>
    rw [hpc] at hok
    obtain ⟨_, rfl⟩ := hok
    rw [Queue.accessAt, h.pushBranch_eq (by rw [hpc]; rfl), if_pos hroom]
    exact (congrArg (IngressPc.left n) (hself _)).trans_lt (Nat.lt_succ_self _)
  | pushExchange a p =>
    rw [hpc] at hok henq
    obtain ⟨_, rfl, _⟩ := hok
    rw [Queue.accessAt, if_pos (show x.enqueue = UInt64.ofNat w from henq)]
    exact (congrArg (IngressPc.left n) (hself _)).trans_lt (Nat.lt_succ_self _)
  | pushStore a p =>
    rw [hpc] at hs
    cases hs
  | pushLoad a => exact (congrArg (IngressPc.left n) (hself _)).trans_lt (Nat.lt_succ_self _)
  | pushWrite a p => exact (congrArg (IngressPc.left n) (hself _)).trans_lt (Nat.lt_succ_self _)
  | _ =>
    rw [hpc] at hok
    exact hok.elim

/-- in a full ring the producer leaves the call after the load of the sequence number -/
theorem push_full {a : α} (hpc : x.pc .producer = .pushLoad a) (hfull : w = r + 2^k) (moved : α → α) :
    (x.access moved .producer).pc .producer = .pushSequence a (UInt64.ofNat w) ∧
      ((x.access moved .producer).access moved .producer).pc .producer = .idle := by
  have henq := h.enqueue
  rw [hpc] at henq
  have hload : (x.access moved .producer).pc .producer = .pushSequence a (UInt64.ofNat w) := by
    rw [Queue.access_eq hpc, Queue.accessAt, Queue.goto_pc, henq]
    rfl
  have hstep := h.producer_access moved
  rw [hpc] at hstep
  refine ⟨hload, ?_⟩
  have hocc : ((x.access moved .producer).pc .producer).occupied = 0 := by
    rw [hload]
    rfl
  rw [Queue.access_eq hload, Queue.accessAt, Queue.goto_pc]
  refine (hstep.pushBranch_eq hocc a).trans (if_neg ?_)
  rw [hfull]
  exact Nat.lt_irrefl _

/-- the consumer comes closer to its store, or finds the ring empty -/
theorem consumer_left (moved : α → α) (hs : (x.pc .consumer).stores = 0)
    (hne : x.pc .consumer ≠ .idle) (n : ℕ) :
    ((x.access moved .consumer).pc .consumer).left (if r < w then n else 0)
      < (x.pc .consumer).left (if r < w then n else 0) := by
  have hok := h.consumer
  have hdeq := h.dequeue
  have hself (pc : IngressPc α) : Function.update x.pc .consumer pc .consumer = pc :=
    Function.update_self ..
  unfold Queue.access
  cases hpc : x.pc .consumer with
  | idle => exact absurd hpc hne
  | popSequence p =>
    rw [hpc] at hok
    cases hok
    rw [Queue.accessAt, h.popBranch_eq (by rw [hpc]; rfl)]
    refine (congrArg (IngressPc.left _) (hself _)).trans_lt ?_
    by_cases hlt : r < w
    · rw [if_pos hlt, if_pos hlt]
      exact Nat.lt_succ_self _
    · rw [if_neg hlt, if_neg hlt]
      exact Nat.succ_pos _
  | popExchange p =>
    rw [hpc] at hok hdeq
    obtain ⟨rfl, _⟩ := hok
    rw [Queue.accessAt, if_pos (show x.dequeue = UInt64.ofNat r from hdeq)]
    exact (congrArg (IngressPc.left _) (hself _)).trans_lt (Nat.lt_succ_self _)
  | popStore p result =>
    rw [hpc] at hs
    cases hs
  | popLoad => exact (congrArg (IngressPc.left _) (hself _)).trans_lt (Nat.lt_succ_self _)
  | popMove p => exact (congrArg (IngressPc.left _) (hself _)).trans_lt (Nat.lt_succ_self _)
  | popReset p result => exact (congrArg (IngressPc.left _) (hself _)).trans_lt (Nat.lt_succ_self _)
  | _ =>
    rw [hpc] at hok
    exact hok.elim

/-- **a weak compare-exchange fails** -/
theorem fails (t : Actor) : Spsc k items w r (x.fails t) := by
  unfold Queue.fails
  cases t with
  | producer =>
    have hok := h.producer
    have henq := h.enqueue
    have hle := h.pushed_le
    split
    · rename_i a p hpc
      rw [hpc] at hok henq hle
      exact h.producer_goto rfl rfl rfl rfl (by rw [hpc]; exact Nat.le_refl _) henq hle ⟨hok.1, henq⟩
    · rename_i p hpc
      rw [hpc] at hok
      exact hok.elim
    · exact h
  | consumer =>
    have hok := h.consumer
    have hdeq := h.dequeue
    have hle := h.popped_le
    split
    · rename_i a p hpc
      rw [hpc] at hok
      exact hok.elim
    · rename_i p hpc
      rw [hpc] at hok hdeq hle
      exact h.consumer_goto rfl rfl rfl rfl (by rw [hpc]; exact Nat.le_refl _) hdeq hle hdeq
    · exact h

end Spsc

end

end Matching
