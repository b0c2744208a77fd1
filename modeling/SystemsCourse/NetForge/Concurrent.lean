import SystemsCourse.Lib.Linearizable
import SystemsCourse.NetForge.Durability

/-!
# Concurrent clients

The threads of the pool run `Server::execute` at the same time.  `System.Step` is one atomic step of
one thread: it begins a request, reads the store for a `GET`, takes `mutation_mutex_`, appends to
the log, changes the store, releases the mutex, or responds.  The number of threads is arbitrary.

* `Safe`                     what the steps keep: who holds the mutex, what is logged and applied;
* `MapSpec`                  the sequential map that the clients see;
* `Sim`, `step_sim`          each step is one of the atomic map, taken when the store is read or
                             changed, or when an append is refused;
* `execute_alone`            a thread that is not disturbed does what `Server.execute` does;
* `concurrent_execution`     the order of the log, the state of the store, linearizability.
-/

set_option linter.unusedSectionVars false
set_option linter.unusedVariables false

namespace NetForge
open Wire Stream Linearizable

/-! ## the threads -/

/-- where a thread is in `execute`, with the number of the request -/
inductive Pc where
  | idle
  /-- parsed, nothing done yet -/
  | start (i : ℕ) (c : Command)
  /-- holds the mutex -/
  | locked (i : ℕ) (c : Command) (m : Mutation)
  /-- the append has returned `true` -/
  | logged (i : ℕ) (c : Command) (m : Mutation)
  /-- has its response and still holds the mutex -/
  | unlocking (i : ℕ) (c : Command) (r : Bytes)
  | done (i : ℕ) (c : Command) (r : Bytes)

namespace Pc

def request : Pc → Option ℕ
  | .idle => none
  | .start i _ => some i
  | .locked i _ _ => some i
  | .logged i _ _ => some i
  | .unlocking i _ _ => some i
  | .done i _ _ => some i

def holds : Pc → Bool
  | .locked _ _ _ => true
  | .logged _ _ _ => true
  | .unlocking _ _ _ => true
  | _ => false

/-- logged and not yet applied -/
def pending : Pc → List Mutation
  | .logged _ _ m => [m]
  | _ => []

end Pc

/-- the response to a `GET` -/
def getResponse (store : KvStore) (key : Bytes) : Bytes :=
  match store.get key with
  | some value => ascii "VALUE " ++ value
  | none => ascii "NOT_FOUND"

/-- `GET`, `SET` and `DEL`; the other requests do not read or change a key -/
def Command.keyed : Command → Bool
  | .get _ => true
  | .set _ _ => true
  | .del _ => true
  | _ => false

structure System (Tid : Type) where
  store : KvStore
  wal : Wal
  mutex : Option Tid
  pc : Tid → Pc
  /-- requests so far -/
  next : ℕ
  /-- what the clients see -/
  history : List (Linearizable.Event Command Bytes)
  /-- mutations whose append returned `true`, in order -/
  logged : List Mutation
  /-- mutations that changed the store, in order -/
  applied : List Mutation

namespace System
variable {Tid : Type} [DecidableEq Tid]

def init (sv : Server) : System Tid := ⟨sv.store, sv.wal, none, fun _ => .idle, 0, [], [], []⟩

/-- the thread `t` moves to `p` -/
def goto (x : System Tid) (t : Tid) (p : Pc) : System Tid :=
  { x with pc := Function.update x.pc t p }

/-- one step of the thread `t`; a crash in an append ends the run -/
inductive Step : System Tid → System Tid → Prop
  | request (x : System Tid) (t : Tid) (p : Bytes) (c : Command) (h : x.pc t = .idle)
      (hp : p.length ≤ kDefaultMaxPayload) (hc : parseCommand p = .ok c) (hk : c.keyed = true) :
      Step x { x.goto t (.start x.next c) with
        next := x.next + 1, history := x.history ++ [.inv x.next c] }
  | read (x : System Tid) (t : Tid) (i : ℕ) (k : Bytes) (h : x.pc t = .start i (.get k)) :
      Step x (x.goto t (.done i (.get k) (getResponse x.store k)))
  | lock (x : System Tid) (t : Tid) (i : ℕ) (c : Command) (m : Mutation)
      (h : x.pc t = .start i c) (hm : c.mutation = some m) (hfree : x.mutex = none) :
      Step x { x.goto t (.locked i c m) with mutex := some t }
  | append (x : System Tid) (t : Tid) (i : ℕ) (c : Command) (m : Mutation) (wal : Wal)
      (h : x.pc t = .locked i c m) (he : x.wal.appendRecord m.record = (.returned true, wal)) :
      Step x { x.goto t (.logged i c m) with wal := wal, logged := x.logged ++ [m] }
  | refuse (x : System Tid) (t : Tid) (i : ℕ) (c : Command) (m : Mutation) (wal : Wal)
      (h : x.pc t = .locked i c m) (he : x.wal.appendRecord m.record = (.returned false, wal)) :
      Step x { x.goto t (.unlocking i c (ascii "ERR WAL failure")) with wal := wal }
  | apply (x : System Tid) (t : Tid) (i : ℕ) (c : Command) (m : Mutation)
      (h : x.pc t = .logged i c m) :
      Step x { x.goto t (.unlocking i c (Server.answer m x.store)) with
        store := m.apply x.store, applied := x.applied ++ [m] }
  | unlock (x : System Tid) (t : Tid) (i : ℕ) (c : Command) (r : Bytes)
      (h : x.pc t = .unlocking i c r) :
      Step x { x.goto t (.done i c r) with mutex := none }
  | respond (x : System Tid) (t : Tid) (i : ℕ) (c : Command) (r : Bytes)
      (h : x.pc t = .done i c r) :
      Step x { x.goto t .idle with history := x.history ++ [.res i r] }

/-! ## the mutex and the store -/

/-- what the holder of the mutex has logged and not yet applied -/
def pending (x : System Tid) : List Mutation :=
  match x.mutex with
  | none => []
  | some t => (x.pc t).pending

/-- what every step keeps; `base` are the mutations of the log at the start -/
structure Safe (base : List Mutation) (x : System Tid) : Prop where
  mutex : ∀ t, (x.pc t).holds = true ↔ x.mutex = some t
  logged : x.logged = x.applied ++ x.pending
  store : x.store = replayAll (base ++ x.applied) KvStore.empty
  start : ∀ t i c m, x.pc t = .start i c → c.mutation = some m → m.Loggable
  locked : ∀ t i c m, x.pc t = .locked i c m → m.Loggable

theorem pc_goto (x : System Tid) (t : Tid) (p : Pc) : (x.goto t p).pc t = p :=
  Function.update_self ..

theorem pc_goto_ne (x : System Tid) {t t' : Tid} (h : t' ≠ t) (p : Pc) :
    (x.goto t p).pc t' = x.pc t' :=
  Function.update_of_ne h ..

section
variable {base : List Mutation} {x : System Tid} {t : Tid} (h : x.Safe base)
include h

theorem Safe.held (hp : (x.pc t).holds = true) : x.mutex = some t := (h.mutex t).mp hp

theorem Safe.not_held (hp : (x.pc t).holds = false) : x.mutex ≠ some t := fun hm => by
  rw [(h.mutex t).mpr hm] at hp
  cases hp

/-- the holder of the mutex after a step of `t` -/
theorem Safe.mutex_goto {p : Pc} {mutex : Option Tid}
    (hself : p.holds = true ↔ mutex = some t)
    (hother : ∀ t', t' ≠ t → (x.mutex = some t' ↔ mutex = some t')) :
    ∀ t', ((x.goto t p).pc t').holds = true ↔ mutex = some t' := by
  intro t'
  by_cases ht : t' = t
  · subst ht
    rw [pc_goto]
    exact hself
  · rw [pc_goto_ne x ht, h.mutex t']
    exact hother t' ht

/-- a thread outside the critical section does not change what is pending -/
theorem Safe.pending_goto (hp : (x.pc t).holds = false) (p : Pc) :
    (x.goto t p).pending = x.pending := by
  have hne := h.not_held hp
  unfold pending
  rw [show (x.goto t p).mutex = x.mutex from rfl]
  cases hm : x.mutex with
  | none => rfl
  | some t' =>
    have ht : t' ≠ t := fun e => hne (by rw [hm, e])
    dsimp only
    rw [pc_goto_ne x ht]

/-- `start` and `locked` carry mutations that the log accepts -/
theorem Safe.start_goto {p : Pc}
    (hp : ∀ i c m, p = .start i c → c.mutation = some m → m.Loggable) :
    ∀ t' i c m, (x.goto t p).pc t' = .start i c → c.mutation = some m → m.Loggable := by
  intro t' i c m e hm
  by_cases ht : t' = t
  · subst ht
    rw [pc_goto] at e
    exact hp i c m e hm
  · rw [pc_goto_ne x ht] at e
    exact h.start t' i c m e hm

theorem Safe.locked_goto {p : Pc} (hp : ∀ i c m, p = .locked i c m → m.Loggable) :
    ∀ t' i c m, (x.goto t p).pc t' = .locked i c m → m.Loggable := by
  intro t' i c m e
  by_cases ht : t' = t
  · subst ht
    rw [pc_goto] at e
    exact hp i c m e
  · rw [pc_goto_ne x ht] at e
    exact h.locked t' i c m e

end

theorem pending_of_mutex {x : System Tid} {t : Tid} (hm : x.mutex = some t) :
    x.pending = (x.pc t).pending := by
  unfold pending
  rw [hm]

/-- the holder of the mutex moves to `p` -/
theorem logged_held {x y : System Tid} {t : Tid} (p : Pc) (hm : y.mutex = some t)
    (hp : y.pc = (x.goto t p).pc) (hl : y.logged = y.applied ++ p.pending) :
    y.logged = y.applied ++ y.pending := by
  rw [pending_of_mutex hm, hp, pc_goto]
  exact hl

theorem init_safe (sv : Server) {base : List Mutation}
    (hs : sv.store = replayAll base KvStore.empty) : (init sv : System Tid).Safe base :=
  ⟨fun t => ⟨nofun, nofun⟩, rfl,
    hs.trans (congrArg (replayAll · KvStore.empty) (List.append_nil _).symm), nofun, nofun⟩

theorem step_safe {base : List Mutation} {x x' : System Tid} (h : x.Safe base)
    (hstep : Step x x') : x'.Safe base := by
  cases hstep with
  | request t p c hpc hp hc hk =>
    have hout : (x.pc t).holds = false := by rw [hpc]; rfl
    refine ⟨h.mutex_goto ⟨nofun, fun e => absurd e (h.not_held hout)⟩ (fun _ _ => Iff.rfl), ?_,
      h.store, h.start_goto ?_, h.locked_goto nofun⟩
    · exact h.logged.trans (congrArg (x.applied ++ ·) (h.pending_goto hout _).symm)
    · intro i c' m e hm
      cases e
      exact loggable_of_request ((recordMutation_ok hc).trans hm) hp
  | read t i k hpc =>
    have hout : (x.pc t).holds = false := by rw [hpc]; rfl
    refine ⟨h.mutex_goto ⟨nofun, fun e => absurd e (h.not_held hout)⟩ (fun _ _ => Iff.rfl), ?_,
      h.store, h.start_goto nofun, h.locked_goto nofun⟩
    exact h.logged.trans (congrArg (x.applied ++ ·) (h.pending_goto hout _).symm)
  | lock t i c m hpc hm hfree =>
    refine ⟨h.mutex_goto ⟨fun _ => rfl, fun _ => rfl⟩ ?_, ?_, h.store, h.start_goto nofun,
      h.locked_goto ?_⟩
    · intro t' ht
      rw [hfree]
      exact ⟨nofun, fun e => absurd (Option.some.inj e).symm ht⟩
    · have hold : x.pending = [] := by
        unfold pending
        rw [hfree]
      show x.logged = x.applied ++ ((x.goto t (.locked i c m)).pc t).pending
      rw [h.logged, hold, pc_goto]
      rfl
    · intro i' c' m' e
      cases e
      exact h.start t i c m hpc hm
  | append t i c m wal hpc he =>
    have hin : x.mutex = some t := h.held (by rw [hpc]; rfl)
    refine ⟨h.mutex_goto ⟨fun _ => hin, fun _ => rfl⟩ (fun _ _ => Iff.rfl), ?_, h.store,
      h.start_goto nofun, h.locked_goto nofun⟩
    refine logged_held (x := x) (t := t) (.logged i c m) ?_ rfl ?_
    · exact hin
    show x.logged ++ [m] = x.applied ++ [m]
    rw [h.logged, pending_of_mutex hin, hpc]
    exact congrArg (· ++ [m]) (List.append_nil _)
  | refuse t i c m wal hpc he =>
    have hin : x.mutex = some t := h.held (by rw [hpc]; rfl)
    refine ⟨h.mutex_goto ⟨fun _ => hin, fun _ => rfl⟩ (fun _ _ => Iff.rfl), ?_, h.store,
      h.start_goto nofun, h.locked_goto nofun⟩
    refine logged_held (x := x) (t := t) (.unlocking i c (ascii "ERR WAL failure")) ?_ rfl ?_
    · exact hin
    exact h.logged.trans (by rw [pending_of_mutex hin, hpc]; rfl)
  | apply t i c m hpc =>
    have hin : x.mutex = some t := h.held (by rw [hpc]; rfl)
    refine ⟨h.mutex_goto ⟨fun _ => hin, fun _ => rfl⟩ (fun _ _ => Iff.rfl), ?_, ?_,
      h.start_goto nofun, h.locked_goto nofun⟩
    · refine logged_held (x := x) (t := t) (.unlocking i c (Server.answer m x.store)) ?_ rfl ?_
      · exact hin
      exact h.logged.trans (by rw [pending_of_mutex hin, hpc]; exact (List.append_nil _).symm)
    · show m.apply x.store = replayAll (base ++ (x.applied ++ [m])) KvStore.empty
      rw [← List.append_assoc, replayAll_concat, h.store]
  | unlock t i c r hpc =>
    have hin : x.mutex = some t := h.held (by rw [hpc]; rfl)
    refine ⟨h.mutex_goto ⟨nofun, nofun⟩ ?_, ?_, h.store, h.start_goto nofun, h.locked_goto nofun⟩
    · intro t' ht
      rw [hin]
      exact ⟨fun e => absurd (Option.some.inj e).symm ht, nofun⟩
    · exact h.logged.trans (by rw [pending_of_mutex hin, hpc]; rfl)
  | respond t i c r hpc =>
    have hout : (x.pc t).holds = false := by rw [hpc]; rfl
    refine ⟨h.mutex_goto ⟨nofun, fun e => absurd e (h.not_held hout)⟩ (fun _ _ => Iff.rfl), ?_,
      h.store, h.start_goto nofun, h.locked_goto nofun⟩
    exact h.logged.trans (congrArg (x.applied ++ ·) (h.pending_goto hout _).symm)

/-! ## the log file -/

/-- the file holds the mutations of the start (`s₀` synced, `u₀` not) and the logged ones; a failed
append may have left bytes behind them, and then the log is closed -/
def FileOk (s₀ u₀ : List Mutation) (x : System Tid) : Prop :=
  x.wal.path ≠ [] ∧ ∃ s u junk, x.wal.file.synced = logOf s ∧
    x.wal.file.unsynced = logOf u ++ junk ∧ s ++ u = s₀ ++ u₀ ++ x.logged ∧
    (x.wal.fd ≠ none → junk = []) ∧ (u₀ = [] ∨ x.logged ≠ [] → u = [])

theorem init_file (sv : Server) {s₀ u₀ : List Mutation} (hp : sv.wal.path ≠ [])
    (hl : Layout sv.wal.file s₀ u₀ []) : (init sv : System Tid).FileOk s₀ u₀ :=
  ⟨hp, s₀, u₀, [], hl.synced_eq, hl.unsynced_eq, (List.append_nil _).symm, fun _ => rfl,
    fun h => h.resolve_right fun hc => hc rfl⟩

theorem step_file {base s₀ u₀ : List Mutation} {x x' : System Tid} (hsafe : x.Safe base)
    (h : x.FileOk s₀ u₀) (hstep : Step x x') : x'.FileOk s₀ u₀ := by
  cases hstep with
  | append t i c m wal hpc he =>
    obtain ⟨hp, s, u, junk, h1, h2, h3, h4, h5⟩ := h
    rcases x.wal.appendRecord_cases m.record hp (hsafe.locked t i c m hpc).lt with
      ⟨_, e⟩ | ⟨io, io', hio, _, e⟩ | ⟨n, _, e⟩ | ⟨io, file', _, _, _, e⟩
    · rw [e] at he
      cases he
    · rw [e] at he
      cases he
      have hj : junk = [] := h4 (by rw [hio]; exact Option.some_ne_none _)
      refine ⟨hp, s ++ u ++ [m], [], [], ?_, rfl, ?_, fun _ => rfl, fun _ => rfl⟩
      · show (x.wal.file.append (frame headerSize m.record)).content = _
        rw [WalFile.content_append, WalFile.content, h1, h2, hj, List.append_nil, logOf_concat,
          logOf_append]
      · rw [List.append_nil, h3, List.append_assoc]
    · rw [e] at he
      cases he
    · rw [e] at he
      cases he
  | refuse t i c m wal hpc he =>
    obtain ⟨hp, s, u, junk, h1, h2, h3, h4, h5⟩ := h
    rcases x.wal.appendRecord_cases m.record hp (hsafe.locked t i c m hpc).lt with
      ⟨hn, e⟩ | ⟨io, io', _, _, e⟩ | ⟨n, _, e⟩ | ⟨io, file', _, _, _, e⟩
    · rw [e] at he
      cases he
      exact ⟨hp, s, u, junk, h1, h2, h3, h4, h5⟩
    · rw [e] at he
      cases he
    · rw [e] at he
      cases he
      refine ⟨hp, s, u, junk ++ (frame headerSize m.record).take n, h1, ?_, h3,
        fun hc => absurd rfl hc, h5⟩
      show x.wal.file.unsynced ++ _ = _
      rw [h2, List.append_assoc]
    · rw [e] at he
      cases he
  | request t p c hpc hp hc hk => exact h
  | read t i k hpc => exact h
  | lock t i c m hpc hm hfree => exact h
  | apply t i c m hpc => exact h
  | unlock t i c r hpc => exact h
  | respond t i c r hpc => exact h

end System

/-! ## the sequential map -/

/-- what a client sees of one request to a map from keys to values; a mutation that could not be logged
is refused and changes nothing -/
inductive MapSpec : (Bytes → Option Bytes) → Command → Bytes → (Bytes → Option Bytes) → Prop
  | set (f : Bytes → Option Bytes) (k v : Bytes) :
      MapSpec f (.set k v) (ascii "OK") (Function.update f k (some v))
  | deleted (f : Bytes → Option Bytes) (k : Bytes) (h : (f k).isSome = true) :
      MapSpec f (.del k) (ascii "DELETED") (Function.update f k none)
  | absent (f : Bytes → Option Bytes) (k : Bytes) (h : f k = none) :
      MapSpec f (.del k) (ascii "NOT_FOUND") f
  | value (f : Bytes → Option Bytes) (k v : Bytes) (h : f k = some v) :
      MapSpec f (.get k) (ascii "VALUE " ++ v) f
  | missing (f : Bytes → Option Bytes) (k : Bytes) (h : f k = none) :
      MapSpec f (.get k) (ascii "NOT_FOUND") f
  | refused (f : Bytes → Option Bytes) (c : Command) (m : Mutation) (h : c.mutation = some m) :
      MapSpec f c (ascii "ERR WAL failure") f

theorem mapSpec_get (s : KvStore) (k : Bytes) : MapSpec s.get (.get k) (getResponse s k) s.get := by
  unfold getResponse
  cases h : s.get k with
  | some v => exact .value s.get k v h
  | none => exact .missing s.get k h

theorem mapSpec_answer (s : KvStore) {c : Command} {m : Mutation} (h : c.mutation = some m) :
    MapSpec s.get c (Server.answer m s) (m.apply s).get := by
  cases c with
  | set k v =>
    cases h
    rw [show (Mutation.set k v).apply s = s.set k v from rfl, s.get_set]
    exact .set s.get k v
  | del k =>
    cases h
    rw [show (Mutation.del k).apply s = (s.erase k).2 from rfl, s.get_erase]
    unfold Server.answer
    dsimp only
    cases hk : (s.erase k).1 with
    | true => exact .deleted s.get k hk
    | false =>
      have hnone : s.get k = none := Option.isNone_iff_eq_none.mp (Option.isSome_eq_false_iff.mp hk)
      rw [← hnone, Function.update_eq_self]
      exact .absent s.get k hnone
  | ping => cases h
  | stats => cases h
  | get k => cases h

/-- the mutation of an operation that took effect -/
def effect (e : ℕ × Command × Bytes) : Option Mutation :=
  if e.2.2 = ascii "ERR WAL failure" then none else e.2.1.mutation

def effects (order : List (ℕ × Command × Bytes)) : List Mutation := order.filterMap effect

theorem effects_append (a b : List (ℕ × Command × Bytes)) : effects (a ++ b) = effects a ++ effects b :=
  List.filterMap_append

theorem effects_get (i : ℕ) (k r : Bytes) : effects [(i, .get k, r)] = [] := by
  have h : effect (i, .get k, r) = none := ite_self _
  exact List.filterMap_cons_none h

theorem effects_answer (i : ℕ) {c : Command} {m : Mutation} (h : c.mutation = some m) (s : KvStore) :
    effects [(i, c, Server.answer m s)] = [m] := by
  have he : effect (i, c, Server.answer m s) = some m := by
    rw [effect, if_neg (Server.answer_ne m s)]
    exact h
  exact List.filterMap_cons_some he

/-! ## simulation -/

/-- where a thread is, as a status of its request -/
def Pc.Agrees (status : ℕ → Status Command Bytes) : Pc → Prop
  | .idle => True
  | .start i c => status i = .invoked c
  | .locked i c m => status i = .invoked c ∧ c.mutation = some m
  | .logged i c m => status i = .invoked c ∧ c.mutation = some m
  | .unlocking i c r => status i = .taken c r
  | .done i c r => status i = .taken c r

theorem Pc.Agrees.congr {status status' : ℕ → Status Command Bytes} {p : Pc}
    (h : p.Agrees status) (he : ∀ i, p.request = some i → status' i = status i) :
    p.Agrees status' := by
  cases p with
  | idle => trivial
  | start i c => exact (he i rfl).trans h
  | locked i c m => exact ⟨(he i rfl).trans h.1, h.2⟩
  | logged i c m => exact ⟨(he i rfl).trans h.1, h.2⟩
  | unlocking i c r => exact (he i rfl).trans h
  | done i c r => exact (he i rfl).trans h

namespace System
variable {Tid : Type} [DecidableEq Tid]

/-- the requests of the threads, as requests of the atomic object -/
structure Requests (x : System Tid) (status : ℕ → Status Command Bytes) : Prop where
  fresh : ∀ i, x.next ≤ i → status i = .fresh
  bound : ∀ t i, (x.pc t).request = some i → i < x.next
  distinct : ∀ t t' i, (x.pc t).request = some i → (x.pc t').request = some i → t = t'
  agrees : ∀ t, (x.pc t).Agrees status

structure Sim (x : System Tid) (a : Atomic (Bytes → Option Bytes) Command Bytes) : Prop where
  history : a.history = x.history
  state : a.state = x.store.get
  requests : x.Requests a.status

/-- a thread goes on with its request, and only the status of that request changes -/
theorem Requests.move {x y : System Tid} {status status' : ℕ → Status Command Bytes}
    (h : x.Requests status) {t : Tid} {p : Pc} (hpc : y.pc = (x.goto t p).pc)
    (hnext : y.next = x.next) (hreq : ∀ i, p.request = some i → (x.pc t).request = some i)
    (hstatus : ∀ i, (x.pc t).request ≠ some i → status' i = status i)
    (hp : p.Agrees status') : y.Requests status' := by
  have hback : ∀ t' i, (y.pc t').request = some i → (x.pc t').request = some i := by
    intro t' i e
    rw [hpc] at e
    by_cases ht : t' = t
    · subst ht
      rw [pc_goto] at e
      exact hreq i e
    · rwa [pc_goto_ne x ht] at e
  refine ⟨?_, ?_, ?_, ?_⟩
  · intro i hi
    rw [hnext] at hi
    rw [hstatus i, h.fresh i hi]
    intro e
    have := h.bound t i e
    omega
  · intro t' i e
    rw [hnext]
    exact h.bound t' i (hback t' i e)
  · intro t₁ t₂ i e1 e2
    exact h.distinct t₁ t₂ i (hback t₁ i e1) (hback t₂ i e2)
  · intro t'
    rw [hpc]
    by_cases ht : t' = t
    · subst ht
      rw [pc_goto]
      exact hp
    · rw [pc_goto_ne x ht]
      refine (h.agrees t').congr ?_
      intro i e
      exact hstatus i fun e' => ht (h.distinct t' t i e e')

/-- a thread goes on with its request, and nothing is taken -/
theorem Requests.go_on {x y : System Tid} {status : ℕ → Status Command Bytes}
    (h : x.Requests status) {t : Tid} {p : Pc} (hpc : y.pc = (x.goto t p).pc) (hnext : y.next = x.next)
    (hreq : p.request = (x.pc t).request) (hp : p.Agrees status) : y.Requests status :=
  h.move hpc hnext (fun _ hj => hreq ▸ hj) (fun _ _ => rfl) hp

/-- the status of one request changes -/
theorem Requests.move_update {x y : System Tid} {status : ℕ → Status Command Bytes}
    (h : x.Requests status) {t : Tid} {p : Pc} {i : ℕ} {st : Status Command Bytes}
    (hi : (x.pc t).request = some i) (hpc : y.pc = (x.goto t p).pc) (hnext : y.next = x.next)
    (hreq : p.request = some i ∨ p = .idle) (hp : p.Agrees (Function.update status i st)) :
    y.Requests (Function.update status i st) := by
  refine h.move hpc hnext ?_ ?_ hp
  · intro j e
    rcases hreq with hreq | rfl
    · rw [hi, ← hreq, e]
    · cases e
  · intro j e
    exact Function.update_of_ne (fun hj => e (by rw [hi, hj])) _ _

/-- a new request -/
theorem Requests.start {x y : System Tid} {status : ℕ → Status Command Bytes}
    (h : x.Requests status) {t : Tid} {c : Command} (hidle : x.pc t = .idle)
    (hpc : y.pc = (x.goto t (.start x.next c)).pc) (hnext : y.next = x.next + 1) :
    y.Requests (Function.update status x.next (.invoked c)) := by
  have hcase : ∀ t' i, (y.pc t').request = some i →
      t' = t ∧ i = x.next ∨ t' ≠ t ∧ (x.pc t').request = some i := by
    intro t' i e
    rw [hpc] at e
    by_cases ht : t' = t
    · subst ht
      rw [pc_goto] at e
      exact Or.inl ⟨rfl, (Option.some.inj e).symm⟩
    · rw [pc_goto_ne x ht] at e
      exact Or.inr ⟨ht, e⟩
  refine ⟨?_, ?_, ?_, ?_⟩
  · intro i hi
    rw [hnext] at hi
    rw [Function.update_of_ne (by omega)]
    exact h.fresh i (by omega)
  · intro t' i e
    rw [hnext]
    rcases hcase t' i e with ⟨_, rfl⟩ | ⟨_, e⟩
    · omega
    · have := h.bound t' i e
      omega
  · intro t₁ t₂ i e1 e2
    rcases hcase t₁ i e1 with ⟨rfl, hi⟩ | ⟨_, e1⟩
    · rcases hcase t₂ i e2 with ⟨rfl, _⟩ | ⟨_, e2⟩
      · rfl
      · have := h.bound t₂ i e2
        omega
    · rcases hcase t₂ i e2 with ⟨rfl, hi⟩ | ⟨_, e2⟩
      · have := h.bound t₁ i e1
        omega
      · exact h.distinct t₁ t₂ i e1 e2
  · intro t'
    rw [hpc]
    by_cases ht : t' = t
    · subst ht
      rw [pc_goto]
      exact Function.update_self ..
    · rw [pc_goto_ne x ht]
      refine (h.agrees t').congr ?_
      intro i e
      have := h.bound t' i e
      exact Function.update_of_ne (by omega) _ _

theorem init_sim (sv : Server) : Sim (init sv : System Tid) (Atomic.init sv.store.get) :=
  ⟨rfl, rfl, fun _ _ => rfl, nofun, nofun, fun _ => trivial⟩

/-- **each step is matched by the atomic map**, and applies the mutations of what it takes -/
theorem step_matched {x x' : System Tid} {a : Atomic (Bytes → Option Bytes) Command Bytes} (h : Sim x a)
    (hstep : Step x x') :
    ∃ a' taken, Relation.ReflTransGen (Atomic.Step MapSpec) a a' ∧ Sim x' a' ∧
      a'.order = a.order ++ taken ∧ x'.applied = x.applied ++ effects taken := by
  obtain ⟨hh, hs, hr⟩ := h
  cases hstep with
  | request t p c hpc hp hc hk =>
    refine ⟨_, [], .single (.inv a x.next c (hr.fresh _ (le_refl _))), ⟨?_, hs, ?_⟩,
      (List.append_nil _).symm, (List.append_nil _).symm⟩
    · exact congrArg (· ++ [_]) hh
    · exact hr.start hpc rfl rfl
  | read t i k hpc =>
    have hst := hr.agrees t
    rw [hpc] at hst
    refine ⟨_, [(i, .get k, getResponse x.store k)], .single (.take a i (.get k)
      (getResponse x.store k) a.state hst (by rw [hs]; exact mapSpec_get _ _)), ⟨hh, hs, ?_⟩, rfl, ?_⟩
    · exact hr.move_update (by rw [hpc]; rfl) rfl rfl (Or.inl rfl) (Function.update_self ..)
    · rw [effects_get, List.append_nil]
      rfl
  | lock t i c m hpc hm hfree =>
    have hst := hr.agrees t
    rw [hpc] at hst
    exact ⟨a, [], .refl, ⟨hh, hs, hr.go_on (t := t) rfl rfl (by rw [hpc]; rfl) ⟨hst, hm⟩⟩,
      (List.append_nil _).symm, (List.append_nil _).symm⟩
  | append t i c m wal hpc he =>
    have hst := hr.agrees t
    rw [hpc] at hst
    exact ⟨a, [], .refl, ⟨hh, hs, hr.go_on (t := t) rfl rfl (by rw [hpc]; rfl) hst⟩,
      (List.append_nil _).symm, (List.append_nil _).symm⟩
  | refuse t i c m wal hpc he =>
    have hst := hr.agrees t
    rw [hpc] at hst
    refine ⟨_, [(i, c, ascii "ERR WAL failure")], .single (.take a i c (ascii "ERR WAL failure") a.state
      hst.1 (.refused _ c m hst.2)), ⟨hh, hs, ?_⟩, rfl, (List.append_nil _).symm⟩
    exact hr.move_update (t := t) (by rw [hpc]; rfl) rfl rfl (Or.inl rfl) (Function.update_self ..)
  | apply t i c m hpc =>
    have hst := hr.agrees t
    rw [hpc] at hst
    refine ⟨_, [(i, c, Server.answer m x.store)], .single (.take a i c (Server.answer m x.store)
      (m.apply x.store).get hst.1 (by rw [hs]; exact mapSpec_answer _ hst.2)), ⟨hh, rfl, ?_⟩, rfl, ?_⟩
    · exact hr.move_update (t := t) (by rw [hpc]; rfl) rfl rfl (Or.inl rfl) (Function.update_self ..)
    · rw [effects_answer i hst.2]
  | unlock t i c r hpc =>
    have hst := hr.agrees t
    rw [hpc] at hst
    exact ⟨a, [], .refl, ⟨hh, hs, hr.go_on (t := t) rfl rfl (by rw [hpc]; rfl) hst⟩,
      (List.append_nil _).symm, (List.append_nil _).symm⟩
  | respond t i c r hpc =>
    have hst := hr.agrees t
    rw [hpc] at hst
    refine ⟨_, [], .single (.res a i c r hst), ⟨congrArg (· ++ [_]) hh, hs, ?_⟩,
      (List.append_nil _).symm, (List.append_nil _).symm⟩
    exact hr.move_update (t := t) (by rw [hpc]; rfl) rfl rfl (Or.inr rfl) trivial

theorem step_sim (x x' : System Tid) (a : Atomic (Bytes → Option Bytes) Command Bytes) (h : Sim x a)
    (hstep : Step x x') :
    ∃ a', Relation.ReflTransGen (Atomic.Step MapSpec) a a' ∧ Sim x' a' := by
  obtain ⟨a', _, hsteps, hsim, _⟩ := step_matched h hstep
  exact ⟨a', hsteps, hsim⟩

/-- what is logged and not applied belongs to a thread that holds the mutex -/
theorem mem_pending {x : System Tid} {m : Mutation} (hm : m ∈ x.pending) :
    ∃ t i c, x.mutex = some t ∧ x.pc t = .logged i c m := by
  unfold pending at hm
  split at hm
  · cases hm
  · rename_i t ht
    unfold Pc.pending at hm
    split at hm
    · rename_i i c m' hpc
      cases List.mem_singleton.mp hm
      exact ⟨t, i, c, ht, hpc⟩
    · cases hm

theorem pending_cases (x : System Tid) : x.pending = [] ∨ ∃ m, x.pending = [m] := by
  unfold pending
  split
  · exact .inl rfl
  · unfold Pc.pending
    split
    · exact .inr ⟨_, rfl⟩
    · exact .inl rfl

/-! ## a thread on its own -/

/-- **a thread that is not disturbed does what `Server.execute` does** -/
theorem execute_alone (x : System Tid) (t : Tid) (sv : Server) (hstore : sv.store = x.store)
    (hwal : sv.wal = x.wal) (hidle : x.pc t = .idle) (hfree : x.mutex = none) {p r : Bytes}
    {c : Command} {sv' : Server} (hp : p.length ≤ kDefaultMaxPayload)
    (hc : parseCommand p = .ok c) (hk : c.keyed = true)
    (he : sv.execute p = (.returned r, sv')) :
    ∃ y, Relation.ReflTransGen Step x y ∧ y.store = sv'.store ∧ y.wal = sv'.wal ∧
      y.pc t = .idle ∧ y.mutex = none ∧
      y.history = x.history ++ [.inv x.next c] ++ [.res x.next r] := by
  have h1 := Step.request x t p c hidle hp hc hk
  cases hm : c.mutation with
  | none =>
    -- a `GET`
    cases c with
    | get k =>
      have hr : sv.execute p = (.returned (getResponse x.store k), sv) := by
        unfold Server.execute getResponse
        rw [hc, ← hstore]
        dsimp only
        cases sv.store.get k <;> rfl
      rw [hr] at he
      cases he
      refine ⟨_, ((Relation.ReflTransGen.single h1).tail (.read _ t x.next k ?_)).tail
        (.respond _ t x.next (.get k) (getResponse x.store k) ?_), hstore.symm, hwal.symm, ?_,
        hfree, rfl⟩
      · exact Function.update_self ..
      · exact Function.update_self ..
      · exact Function.update_self ..
    | set k v => cases hm
    | del k => cases hm
    | ping => cases hk
    | stats => cases hk
  | some m =>
    rw [sv.execute_mutation ((recordMutation_ok hc).trans hm), hwal] at he
    rcases hap : x.wal.appendRecord m.record with ⟨o, wal⟩
    rw [hap] at he
    match o with
    | .returned true =>
      cases he
      refine ⟨_, (((((Relation.ReflTransGen.single h1).tail (.lock _ t x.next c m ?_ hm hfree)).tail
        (.append _ t x.next c m wal ?_ hap)).tail (.apply _ t x.next c m ?_)).tail
        (.unlock _ t x.next c (Server.answer m x.store) ?_)).tail
        (.respond _ t x.next c (Server.answer m x.store) ?_), congrArg m.apply hstore.symm, rfl, ?_,
        rfl, by rw [hstore]; rfl⟩
      · exact Function.update_self ..
      · exact Function.update_self ..
      · exact Function.update_self ..
      · exact Function.update_self ..
      · exact Function.update_self ..
      · exact Function.update_self ..
    | .returned false =>
      cases he
      refine ⟨_, ((((Relation.ReflTransGen.single h1).tail (.lock _ t x.next c m ?_ hm hfree)).tail
        (.refuse _ t x.next c m wal ?_ hap)).tail
        (.unlock _ t x.next c (ascii "ERR WAL failure") ?_)).tail
        (.respond _ t x.next c (ascii "ERR WAL failure") ?_), hstore.symm, rfl, ?_, rfl, rfl⟩
      · exact Function.update_self ..
      · exact Function.update_self ..
      · exact Function.update_self ..
      · exact Function.update_self ..
      · exact Function.update_self ..
    | .threw what => cases he
    | .crashed => cases he

end System

/-! ## every interleaving -/

/-- **Concurrent execution.**  For any number of threads and any interleaving of their steps:
the responses are linearizable.  If the server has a log, whose mutations `s₀` (synced) and `u₀`
(not) give the store at the start: mutations are applied in the order of the log, the store is the
replay of the log but for at most one record, whose writer holds the mutex, and the log that the
store shows is synced, as soon as it was so at the start or one append has succeeded. -/
theorem concurrent_execution {Tid : Type} [DecidableEq Tid] (sv : Server) (x : System Tid)
    (h : Relation.ReflTransGen System.Step (System.init sv) x) :
    (∃ order, Linearization MapSpec sv.store.get x.history order) ∧
    (∀ s₀ u₀, sv.wal.path ≠ [] → Layout sv.wal.file s₀ u₀ [] →
      sv.store = replayAll (s₀ ++ u₀) KvStore.empty →
      x.logged = x.applied ++ x.pending ∧ x.pending.length ≤ 1 ∧
      (∀ m ∈ x.pending, ∃ t i c, x.mutex = some t ∧ x.pc t = .logged i c m) ∧
      x.store = replayAll (s₀ ++ u₀ ++ x.applied) KvStore.empty ∧
      (∃ junk, x.wal.file.content = logOf (s₀ ++ u₀ ++ x.logged) ++ junk ∧
        (x.wal.fd ≠ none → junk = [])) ∧
      (u₀ = [] ∨ x.logged ≠ [] → x.wal.file.synced = logOf (s₀ ++ u₀ ++ x.logged))) := by
  constructor
  · obtain ⟨a, hsim, hlin⟩ := Atomic.linearization_of_simulation MapSpec (System.init_sim sv)
      System.step_sim h
    rw [hsim.history] at hlin
    exact ⟨a.order, hlin⟩
  · intro s₀ u₀ hp hl hstore
    have hinv : x.Safe (s₀ ++ u₀) ∧ x.FileOk s₀ u₀ := by
      induction h with
      | refl => exact ⟨System.init_safe sv hstore, System.init_file sv hp hl⟩
      | tail _ hstep ih => exact ⟨System.step_safe ih.1 hstep, System.step_file ih.1 ih.2 hstep⟩
    obtain ⟨hsafe, _, s, u, junk, h1, h2, h3, h4, h5⟩ := hinv
    refine ⟨hsafe.logged, ?_, fun m => System.mem_pending, hsafe.store, ⟨junk, ?_, h4⟩, ?_⟩
    · rcases x.pending_cases with hnone | ⟨m, hone⟩
      · rw [hnone]
        exact Nat.zero_le _
      · rw [hone]
        exact le_refl _
    · rw [WalFile.content, h1, h2, ← h3, logOf_append, List.append_assoc]
    · intro hu
      rw [h1, ← h3, h5 hu, List.append_nil]

/-- a server with an empty log -/
def logServer : Server :=
  ⟨{ walPath := [119] }, KvStore.empty, ⟨[119], some ⟨[], []⟩, ⟨[], []⟩⟩, ⟨4, 64, 0, 0⟩, [], true⟩

/-- one thread sets `k`; the other gets it before and after the store has it, deletes it, and is stopped
between the log and the store -/
theorem concurrent_execution_interleaved :
    ∃ x : System Bool, Relation.ReflTransGen System.Step (System.init logServer) x ∧
      x.history = [.inv 0 (.set [107] [118]), .inv 1 (.get [107]), .res 1 (ascii "NOT_FOUND"),
        .inv 2 (.get [107]), .res 0 (ascii "OK"), .res 2 (ascii "VALUE v"), .inv 3 (.del [107])] ∧
      (∃ order, Linearization MapSpec KvStore.empty.get x.history order) ∧
      x.pending = [.del [107]] ∧ x.logged = x.applied ++ x.pending ∧
      x.store = replayAll [.set [107] [118]] KvStore.empty ∧
      x.wal.file.synced = logOf [.set [107] [118], .del [107]] := by
  have h := Relation.ReflTransGen.single (System.Step.request (System.init logServer) true
    (ascii "SET k v") (.set [107] [118]) rfl (by decide) (by decide) rfl)
  have h := h.tail (.lock _ true 0 _ (.set [107] [118]) rfl rfl rfl)
  have h := h.tail (.append _ true 0 _ _ _ rfl rfl)
  have h := h.tail (.request _ false (ascii "GET k") (.get [107]) rfl (by decide) (by decide) rfl)
  have h := h.tail (.read _ false 1 _ rfl)
  have h := h.tail (.respond _ false 1 _ _ rfl)
  have h := h.tail (.apply _ true 0 _ _ rfl)
  have h := h.tail (.request _ false (ascii "GET k") (.get [107]) rfl (by decide) (by decide) rfl)
  have h := h.tail (.read _ false 2 _ rfl)
  have h := h.tail (.unlock _ true 0 _ _ rfl)
  have h := h.tail (.respond _ true 0 _ _ rfl)
  have h := h.tail (.respond _ false 2 _ _ rfl)
  have h := h.tail (.request _ false (ascii "DEL k") (.del [107]) rfl (by decide) (by decide) rfl)
  have h := h.tail (.lock _ false 3 _ (.del [107]) rfl rfl rfl)
  have h := h.tail (.append _ false 3 _ _ _ rfl rfl)
  obtain ⟨hlinear, hlog⟩ := concurrent_execution logServer _ h
  obtain ⟨hlogged, -, -, hstore, -, hsynced⟩ := hlog [] [] (by decide) ⟨rfl, rfl, nofun, Or.inl rfl⟩ rfl
  exact ⟨_, h, rfl, hlinear, rfl, hlogged, hstore, hsynced (Or.inl rfl)⟩

/-- as `logServer`; its first `fsync` fails -/
def unsyncedServer : Server :=
  { logServer with wal := ⟨[119], some ⟨[], [.failed .eio]⟩, ⟨[], []⟩⟩ }

/-- on the log with the record of a `SET` that is not synced -/
def replayingServer : Server :=
  { logServer with
    store := replayAll [.set [107] [118]] KvStore.empty
    wal := ⟨[119], some ⟨[], []⟩, ⟨[], logOf [.set [107] [118]]⟩⟩ }

/-- **A value that is not in the synced log.**  The `fsync` of a `SET` fails, and the client is told so.
The next server on this file replays the record: its store is not the replay of what was appended
successfully, and a `GET` shows the value while nothing is synced. -/
theorem unsynced_value_shown :
    ∃ x₁ x₂ : System Bool,
      Server.new { walPath := [119] } (some ⟨[], [.failed .eio]⟩) ⟨[], []⟩ ⟨none, [], .eof, [], []⟩ none
        = (.returned (), unsyncedServer) ∧
      Relation.ReflTransGen System.Step (System.init unsyncedServer) x₁ ∧
      x₁.history = [.inv 0 (.set [107] [118]), .res 0 (ascii "ERR WAL failure")] ∧ x₁.logged = [] ∧
      Server.new { walPath := [119] } (some ⟨[], []⟩) x₁.wal.file ⟨none, [], .eof, [], []⟩ none
        = (.returned (), replayingServer) ∧
      Relation.ReflTransGen System.Step (System.init replayingServer) x₂ ∧
      x₂.history = [.inv 0 (.get [107]), .res 0 (ascii "VALUE v")] ∧ x₂.logged = [] ∧
      x₂.store ≠ replayAll (x₁.logged ++ x₂.logged) KvStore.empty ∧ x₂.wal.file.synced = [] := by
  have h := Relation.ReflTransGen.single (System.Step.request (System.init unsyncedServer) true
    (ascii "SET k v") (.set [107] [118]) rfl (by decide) (by decide) rfl)
  have h := h.tail (.lock _ true 0 _ (.set [107] [118]) rfl rfl rfl)
  have h := h.tail (.refuse _ true 0 _ _ _ rfl rfl)
  have h := h.tail (.unlock _ true 0 _ _ rfl)
  have h := h.tail (.respond _ true 0 _ _ rfl)
  have h' := Relation.ReflTransGen.single (System.Step.request (System.init replayingServer) false
    (ascii "GET k") (.get [107]) rfl (by decide) (by decide) rfl)
  have h' := h'.tail (.read _ false 0 _ rfl)
  have h' := h'.tail (.respond _ false 0 _ _ rfl)
  have hfirst : unsyncedServer.wal.recover KvStore.empty ⟨none, [], .eof, [], []⟩
      = (some true, KvStore.empty, ⟨[], []⟩) := by decide +kernel
  have hsecond : replayingServer.wal.recover KvStore.empty ⟨none, [], .eof, [], []⟩
      = (some true, replayingServer.store, replayingServer.wal.file) := by decide +kernel
  refine ⟨_, _, Server.new_of_recover (by decide) (by decide) hfirst, h, rfl, rfl,
    Server.new_of_recover (by decide) (by decide) hsecond, h', rfl, rfl, ?_, rfl⟩
  decide

end NetForge
