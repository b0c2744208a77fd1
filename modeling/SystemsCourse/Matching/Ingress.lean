import Mathlib.Data.List.Basic
import Mathlib.Logic.Function.Basic
import Mathlib.Logic.Relation
import Mathlib.Tactic.NormNum
import SystemsCourse.Lib.Words

/-!
# The lock-free ingress queue

Model of `capstone/matching/solution-reference/include/matching/ingress_queue.hpp`, with
`std::size_t` as `UInt64` and `std::ptrdiff_t` as `Int64`.

A thread runs `try_push` or `try_pop`.  `Queue.Step` is one access to the shared memory by one
thread: a load, a compare-exchange, a write or a move of a value, a store of a sequence number.
The compare-exchange is a weak one: it may fail although the position is the expected one.

`pushes`, `pushed`, `pops` and `popped` record what happened and are not read by the code.
-/

set_option linter.unusedVariables false

namespace Matching
open Words

/-- the loop of `round_power_of_two`, for at most `fuel` rounds -/
def roundLoop (requested : UInt64) : ℕ → UInt64 → Option UInt64
  | 0, _ => none
  | fuel + 1, value =>
    if value < requested then roundLoop requested fuel (value <<< 1) else some value

def roundPowerOfTwo (fuel : ℕ) (requested : UInt64) : Option UInt64 := roundLoop requested fuel 2

structure Cell (α : Type) where
  sequence : UInt64
  value : Option α

/-- where a thread is; `position` is the local variable of that name -/
inductive IngressPc (α : Type) where
  | idle
  /-- `position = enqueue_.load()` -/
  | pushLoad (item : α)
  /-- `sequence = cell.sequence.load()` and the branch on the difference -/
  | pushSequence (item : α) (position : UInt64)
  | pushExchange (item : α) (position : UInt64)
  /-- `cell.value.emplace(std::move(item))` -/
  | pushWrite (item : α) (position : UInt64)
  /-- `cell.sequence.store(position + 1)` and `return true` -/
  | pushStore (item : α) (position : UInt64)
  | popLoad
  | popSequence (position : UInt64)
  | popExchange (position : UInt64)
  /-- `std::optional<T> result(std::move(cell.value))` -/
  | popMove (position : UInt64)
  /-- `cell.value.reset()` -/
  | popReset (position : UInt64) (result : Option α)
  /-- `cell.sequence.store(position + capacity_)` and `return result` -/
  | popStore (position : UInt64) (result : Option α)
deriving DecidableEq

structure Queue (Tid α : Type) where
  capacity : UInt64
  cells : ℕ → Cell α
  enqueue : UInt64
  dequeue : UInt64
  pc : Tid → IngressPc α
  /-- the pushes that took a ticket: the ticket is the place in the list -/
  pushes : List (Tid × α)
  /-- the pushes that returned `true`, with their ticket -/
  pushed : List (ℕ × Tid × α)
  /-- the number of pops that took a ticket -/
  pops : ℕ
  /-- the pops that returned a result, with their ticket -/
  popped : List (ℕ × Tid × Option α)

namespace Queue
variable {Tid α : Type} [DecidableEq Tid]

/-- the constructor, for the rounded capacity -/
def init (capacity : UInt64) : Queue Tid α :=
  ⟨capacity, fun index => ⟨UInt64.ofNat index, none⟩, 0, 0, fun _ => .idle, [], [], 0, []⟩

def mask (x : Queue Tid α) : UInt64 := x.capacity - 1

def index (x : Queue Tid α) (position : UInt64) : ℕ := (position &&& x.mask).toNat

def cell (x : Queue Tid α) (position : UInt64) : Cell α := x.cells (x.index position)

def setCell (x : Queue Tid α) (position : UInt64) (c : Cell α) : Queue Tid α :=
  { x with cells := Function.update x.cells (x.index position) c }

def goto (x : Queue Tid α) (t : Tid) (p : IngressPc α) : Queue Tid α :=
  { x with pc := Function.update x.pc t p }

/-- `static_cast<std::ptrdiff_t>(a) - static_cast<std::ptrdiff_t>(b)` -/
def difference (a b : UInt64) : Int64 := a.toInt64 - b.toInt64

/-- what `try_push` does after it loaded the sequence number -/
def pushBranch (item : α) (position sequence : UInt64) : IngressPc α :=
  if difference sequence position = 0 then .pushExchange item position
  else if difference sequence position < 0 then .idle
  else .pushLoad item

def popBranch (position sequence : UInt64) : IngressPc α :=
  if difference sequence (position + 1) = 0 then .popExchange position
  else if difference sequence (position + 1) < 0 then .idle
  else .popLoad

/-- one access of the thread `t`; `moved a` is what is left in the place `a` was moved out of -/
inductive Step (moved : α → α) : Queue Tid α → Queue Tid α → Prop
  | tryPush (x : Queue Tid α) (t : Tid) (item : α) (h : x.pc t = .idle) :
      Step moved x (x.goto t (.pushLoad item))
  | pushLoad (x : Queue Tid α) (t : Tid) (item : α) (h : x.pc t = .pushLoad item) :
      Step moved x (x.goto t (.pushSequence item x.enqueue))
  | pushSequence (x : Queue Tid α) (t : Tid) (item : α) (position : UInt64)
      (h : x.pc t = .pushSequence item position) :
      Step moved x (x.goto t (pushBranch item position (x.cell position).sequence))
  | pushExchange (x : Queue Tid α) (t : Tid) (item : α) (position : UInt64)
      (h : x.pc t = .pushExchange item position) (he : x.enqueue = position) :
      Step moved x { x.goto t (.pushWrite item position) with
        enqueue := position + 1, pushes := x.pushes ++ [(t, item)] }
  | pushFail (x : Queue Tid α) (t : Tid) (item : α) (position : UInt64)
      (h : x.pc t = .pushExchange item position) :
      Step moved x (x.goto t (.pushSequence item x.enqueue))
  | pushWrite (x : Queue Tid α) (t : Tid) (item : α) (position : UInt64)
      (h : x.pc t = .pushWrite item position) :
      Step moved x ((x.setCell position { x.cell position with value := some item }).goto t
        (.pushStore item position))
  | pushStore (x : Queue Tid α) (t : Tid) (item : α) (position : UInt64)
      (h : x.pc t = .pushStore item position) :
      Step moved x
        { (x.setCell position { x.cell position with sequence := position + 1 }).goto t .idle with
          pushed := x.pushed ++ [(position.toNat, t, item)] }
  | tryPop (x : Queue Tid α) (t : Tid) (h : x.pc t = .idle) : Step moved x (x.goto t .popLoad)
  | popLoad (x : Queue Tid α) (t : Tid) (h : x.pc t = .popLoad) :
      Step moved x (x.goto t (.popSequence x.dequeue))
  | popSequence (x : Queue Tid α) (t : Tid) (position : UInt64)
      (h : x.pc t = .popSequence position) :
      Step moved x (x.goto t (popBranch position (x.cell position).sequence))
  | popExchange (x : Queue Tid α) (t : Tid) (position : UInt64)
      (h : x.pc t = .popExchange position) (he : x.dequeue = position) :
      Step moved x { x.goto t (.popMove position) with
        dequeue := position + 1, pops := x.pops + 1 }
  | popFail (x : Queue Tid α) (t : Tid) (position : UInt64) (h : x.pc t = .popExchange position) :
      Step moved x (x.goto t (.popSequence x.dequeue))
  | popMove (x : Queue Tid α) (t : Tid) (position : UInt64) (h : x.pc t = .popMove position) :
      Step moved x ((x.setCell position
          { x.cell position with value := (x.cell position).value.map moved }).goto t
        (.popReset position (x.cell position).value))
  | popReset (x : Queue Tid α) (t : Tid) (position : UInt64) (result : Option α)
      (h : x.pc t = .popReset position result) :
      Step moved x ((x.setCell position { x.cell position with value := none }).goto t
        (.popStore position result))
  | popStore (x : Queue Tid α) (t : Tid) (position : UInt64) (result : Option α)
      (h : x.pc t = .popStore position result) :
      Step moved x
        { (x.setCell position
            { x.cell position with sequence := position + x.capacity }).goto t .idle with
          popped := x.popped ++ [(position.toNat, t, result)] }

end Queue

/-! ## words -/

theorem toInt_difference {a b : UInt64} (ha : a.toNat < 2^63) (hb : b.toNat < 2^63) :
    (Queue.difference a b).toInt = (a.toNat : ℤ) - b.toNat := by
  unfold Queue.difference
  rw [Int64.toInt_sub, toInt_toInt64 ha, toInt_toInt64 hb]
  exact Int.bmod_eq_of_le (by omega) (by omega)

/-- the difference is zero for equal words -/
theorem difference_eq_zero {a b : UInt64} (ha : a.toNat < 2^63) (hb : b.toNat < 2^63) :
    Queue.difference a b = 0 ↔ a.toNat = b.toNat := by
  rw [← Int64.toInt_inj, toInt_difference ha hb, show (0 : Int64).toInt = 0 from rfl]
  omega

end Matching
