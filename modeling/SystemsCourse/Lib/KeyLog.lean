import Mathlib.Data.Finmap

/-!
# Logs of key updates

An update sets a key (`some v`) or removes it (`none`).  Replaying a log over a finite map leaves
at every key the last update of that key, or the old value where the log has none
(`lookup_replay`).  Hence a log replayed over its own result changes nothing (`replay_idem`).
-/

namespace KeyLog

section
variable {K V : Type} [DecidableEq K]

/-- one update of a key-value map -/
structure Update (K V : Type) where
  key : K
  value : Option V
deriving DecidableEq, Repr

/-- a finite map, as `std::unordered_map` is one: no order, one value per key -/
abbrev Map (K V : Type) := Finmap (fun _ : K => V)

def Update.apply (u : Update K V) (m : Map K V) : Map K V :=
  match u.value with
  | some v => m.insert u.key v
  | none => m.erase u.key

def replay (log : List (Update K V)) (m : Map K V) : Map K V :=
  log.foldl (fun m u => u.apply m) m

theorem replay_cons (u : Update K V) (log : List (Update K V)) (m : Map K V) :
    replay (u :: log) m = replay log (u.apply m) := rfl

theorem lookup_apply (u : Update K V) (m : Map K V) (k : K) :
    (u.apply m).lookup k = if k = u.key then u.value else m.lookup k := by
  unfold Update.apply
  by_cases h : k = u.key
  · rw [if_pos h, h]
    cases hv : u.value with
    | none => exact Finmap.lookup_erase u.key m
    | some v => exact Finmap.lookup_insert m
  · rw [if_neg h]
    cases hv : u.value with
    | none => exact Finmap.lookup_erase_ne h
    | some v => exact Finmap.lookup_insert_of_ne m h

/-- the last update of `k` in the log -/
def lastUpdate (k : K) : List (Update K V) → Option (Option V)
  | [] => none
  | u :: log =>
    match lastUpdate k log with
    | some v => some v
    | none => if k = u.key then some u.value else none

theorem lastUpdate_cons (k : K) (u : Update K V) (log : List (Update K V)) :
    lastUpdate k (u :: log)
      = (lastUpdate k log).or (if k = u.key then some u.value else none) := by
  show (match lastUpdate k log with
    | some v => some v
    | none => if k = u.key then some u.value else none) = _
  cases lastUpdate k log <;> rfl

theorem lookup_replay (log : List (Update K V)) (m : Map K V) (k : K) :
    (replay log m).lookup k = (lastUpdate k log).getD (m.lookup k) := by
  induction log generalizing m with
  | nil => rfl
  | cons u log ih =>
    rw [replay_cons, ih, lookup_apply, lastUpdate_cons]
    cases lastUpdate k log with
    | some v => rfl
    | none =>
      by_cases h : k = u.key
      · simp [h]
      · simp [h]

/-- **a log replayed over its own result changes nothing** -/
theorem replay_idem (log : List (Update K V)) (m : Map K V) :
    replay log (replay log m) = replay log m := by
  apply Finmap.ext_lookup
  intro k
  rw [lookup_replay, lookup_replay]
  cases lastUpdate k log with
  | some v => rfl
  | none => rfl

end

end KeyLog
