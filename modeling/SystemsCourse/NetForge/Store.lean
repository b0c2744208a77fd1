import SystemsCourse.Lib.KeyLog
import SystemsCourse.NetForge.Command

/-!
# The key-value store and its mutations

Model of `capstone/reference/src/store.cpp`.  Each operation of `KvStore` runs under the store's
own lock, so one call is one step.  `Mutation` is the part of `Command` that changes the store;
`Mutation.apply` is what the server and the recovery do with it.
-/

namespace NetForge
open Wire KeyLog

/-- `std::unordered_map<std::string, std::string> values_` -/
structure KvStore where
  values : Map Bytes Bytes
deriving DecidableEq

namespace KvStore

def empty : KvStore := ⟨∅⟩

def set (s : KvStore) (key value : Bytes) : KvStore := ⟨s.values.insert key value⟩

def get (s : KvStore) (key : Bytes) : Option Bytes := s.values.lookup key

/-- the result is `values_.erase(key) != 0` -/
def erase (s : KvStore) (key : Bytes) : Bool × KvStore :=
  ((s.values.lookup key).isSome, ⟨s.values.erase key⟩)

/-- `std::size_t` -/
def size (s : KvStore) : UInt64 := UInt64.ofNat s.values.keys.card

/-! the store as a function from keys to values -/

theorem get_set (s : KvStore) (k v : Bytes) : (s.set k v).get = Function.update s.get k (some v) := by
  funext k'
  by_cases h : k' = k
  · subst h
    rw [Function.update_self]
    exact Finmap.lookup_insert s.values
  · rw [Function.update_of_ne h]
    exact Finmap.lookup_insert_of_ne s.values h

theorem get_erase (s : KvStore) (k : Bytes) : (s.erase k).2.get = Function.update s.get k none := by
  funext k'
  by_cases h : k' = k
  · subst h
    rw [Function.update_self]
    exact Finmap.lookup_erase k' s.values
  · rw [Function.update_of_ne h]
    exact Finmap.lookup_erase_ne h

end KvStore

inductive Mutation where
  | set (key value : Bytes)
  | del (key : Bytes)
deriving DecidableEq, Repr

/-- the mutation of a command, if it is one -/
def Command.mutation : Command → Option Mutation
  | .set k v => some (.set k v)
  | .del k => some (.del k)
  | _ => none

namespace Mutation

def update : Mutation → Update Bytes Bytes
  | .set k v => ⟨k, some v⟩
  | .del k => ⟨k, none⟩

def apply (m : Mutation) (s : KvStore) : KvStore :=
  match m with
  | .set k v => s.set k v
  | .del k => (s.erase k).2

theorem apply_values (m : Mutation) (s : KvStore) : (m.apply s).values = m.update.apply s.values := by
  cases m <;> rfl

end Mutation

/-- the mutations of a log, applied in order -/
def replayAll (ms : List Mutation) (s : KvStore) : KvStore := ms.foldl (fun s m => m.apply s) s

theorem replayAll_nil (s : KvStore) : replayAll [] s = s := rfl
theorem replayAll_cons (m : Mutation) (ms : List Mutation) (s : KvStore) :
    replayAll (m :: ms) s = replayAll ms (m.apply s) := rfl
theorem replayAll_append (a b : List Mutation) (s : KvStore) :
    replayAll (a ++ b) s = replayAll b (replayAll a s) := by
  simp [replayAll, List.foldl_append]
theorem replayAll_concat (a : List Mutation) (m : Mutation) (s : KvStore) :
    replayAll (a ++ [m]) s = m.apply (replayAll a s) := by
  rw [replayAll_append, replayAll_cons, replayAll_nil]

theorem replayAll_values (ms : List Mutation) (s : KvStore) :
    (replayAll ms s).values = replay (ms.map Mutation.update) s.values := by
  induction ms generalizing s with
  | nil => rfl
  | cons m ms ih =>
    rw [replayAll_cons, ih, m.apply_values]
    rfl

theorem replayAll_idem (ms : List Mutation) (s : KvStore) :
    replayAll ms (replayAll ms s) = replayAll ms s := by
  have h : (replayAll ms (replayAll ms s)).values = (replayAll ms s).values := by
    rw [replayAll_values, replayAll_values, replay_idem]
  exact congrArg KvStore.mk h

end NetForge
