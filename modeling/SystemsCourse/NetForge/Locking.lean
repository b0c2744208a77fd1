import SystemsCourse.Lib.Actions
import SystemsCourse.Lib.Locks
import SystemsCourse.Lib.Threads
import SystemsCourse.NetForge.Concurrent

/-!
# The locks of a request

`NetForge.Concurrent` takes a call of the store, and the append with its own lock, as one step.  Here they are
the code of `store.cpp` and `wal.cpp`: `mutation_mutex_` of the server, `append_mutex_` of the log, and the
`std::shared_mutex` of the store are taken and released by steps of their own.  A change of `values_` takes two
steps, and in between the map may hold anything; a lookup reads the map twice.

* `LockSystem.Inv`    who holds which lock, and what a thread inside knows;
* `LockSystem.Sim`    the system of `NetForge.Concurrent`;
* `locks_suffice`     no thread reads or writes the map while another one writes it, and the responses are
                      linearizable;
* `requests_finish`   the locks do not block each other, and every request takes a bounded number of steps.
-/

set_option linter.unusedSectionVars false
set_option linter.unusedVariables false

namespace NetForge
open Wire Stream Linearizable Actions Locks

/-! ## the steps of a request -/

inductive LockPc where
  | idle
  /-- parsed, nothing done yet -/
  | start (i : ℕ) (c : Command)
  /-- in `KvStore::get`, before `values_.find` -/
  | getting (i : ℕ) (key : Bytes)
  /-- before the copy of `found->second` -/
  | found (i : ℕ) (key : Bytes)
  | gotten (i : ℕ) (key r : Bytes)
  /-- a `STATS` request -/
  | stats
  /-- in `KvStore::size` -/
  | sizing
  | sized (keys : UInt64)
  /-- holds `mutation_mutex_` -/
  | locked (i : ℕ) (c : Command) (m : Mutation)
  /-- and `append_mutex_` -/
  | appending (i : ℕ) (c : Command) (m : Mutation)
  | appended (i : ℕ) (c : Command) (m : Mutation) (ok : Bool)
  /-- the append has returned `true` -/
  | logged (i : ℕ) (c : Command) (m : Mutation)
  /-- in `KvStore::set` or `KvStore::erase` -/
  | writing (i : ℕ) (c : Command) (m : Mutation)
  /-- in the middle of the change of `old` -/
  | torn (i : ℕ) (c : Command) (m : Mutation) (old : KvStore)
  | written (i : ℕ) (c : Command) (r : Bytes)
  /-- has its response and holds `mutation_mutex_` -/
  | unlocking (i : ℕ) (c : Command) (r : Bytes)
  | done (i : ℕ) (c : Command) (r : Bytes)

namespace LockPc

/-- `mutation_mutex_` -/
def mutates : LockPc → Bool
  | .locked .. | .appending .. | .appended .. | .logged .. | .writing .. | .torn .. | .written ..
  | .unlocking .. => true
  | _ => false

/-- `append_mutex_` -/
def appends : LockPc → Bool
  | .appending .. | .appended .. => true
  | _ => false

/-- the lock of the store -/
def writes : LockPc → Bool
  | .writing .. | .torn .. | .written .. => true
  | _ => false

/-- the lock of the store, shared -/
def reads : LockPc → Bool
  | .getting .. | .found .. | .gotten .. | .sizing | .sized _ => true
  | _ => false

/-- the next step reads `values_` -/
def readsMap : LockPc → Bool
  | .getting .. | .found .. | .sizing => true
  | _ => false

/-- the next step changes `values_` -/
def writesMap : LockPc → Bool
  | .writing .. | .torn .. => true
  | _ => false

def isTorn : LockPc → Bool
  | .torn .. => true
  | _ => false

/-- the next step takes the lock of the store -/
def shares : LockPc → Bool
  | .start _ (.get _) | .stats => true
  | _ => false

def waitsToWrite : LockPc → Bool
  | .logged .. => true
  | _ => false

/-- where the thread is in `NetForge.Concurrent` -/
def coarse : LockPc → Pc
  | .idle | .stats | .sizing | .sized _ => .idle
  | .start i c => .start i c
  | .getting i key | .found i key => .start i (.get key)
  | .gotten i key r => .done i (.get key) r
  | .locked i c m | .appending i c m => .locked i c m
  | .appended i c m ok => if ok then .logged i c m else .unlocking i c (ascii "ERR WAL failure")
  | .logged i c m | .writing i c m | .torn i c m _ => .logged i c m
  | .written i c r | .unlocking i c r => .unlocking i c r
  | .done i c r => .done i c r

/-- what a thread knows; `values` is the content of the map -/
def Knows (values : KvStore) : LockPc → Prop
  | .start _ c => c.keyed = true ∧ ∀ m, c.mutation = some m → m.Loggable
  | .found _ key => values.get key ≠ none
  | .locked _ _ m | .appending _ _ m => m.Loggable
  | _ => True

/-- what a step of the thread makes smaller -/
def rank : LockPc → ℕ
  | .idle => 0
  | .start .. => 10
  | .getting .. => 4
  | .found .. => 3
  | .gotten .. => 2
  | .stats => 3
  | .sizing => 2
  | .sized _ => 1
  | .locked .. => 9
  | .appending .. => 8
  | .appended .. => 7
  | .logged .. => 6
  | .writing .. => 5
  | .torn .. => 4
  | .written .. => 3
  | .unlocking .. => 2
  | .done .. => 1

end LockPc

theorem LockPc.writes_of_writesMap {p : LockPc} (h : p.writesMap = true) : p.writes = true := by
  cases p <;> first | rfl | cases h

theorem LockPc.reads_of_readsMap {p : LockPc} (h : p.readsMap = true) : p.reads = true := by
  cases p <;> first | rfl | cases h

structure LockSystem (Tid : Type) where
  values : KvStore
  /-- the lock of the store -/
  lock : RwLock Tid
  wal : Wal
  /-- `append_mutex_` -/
  append : Option Tid
  /-- `mutation_mutex_` -/
  mutation : Option Tid
  pc : Tid → LockPc
  next : ℕ
  history : List (Linearizable.Event Command Bytes)
  logged : List Mutation
  applied : List Mutation

inductive LockAct (Tid : Type) where
  | request (t : Tid) (p : Bytes) (c : Command)
  | stats (t : Tid)
  /-- the next step of a thread; if it starts to change the map, the map holds `garbage` until it is done -/
  | step (t : Tid) (garbage : KvStore)

namespace LockSystem
variable {Tid : Type} [DecidableEq Tid]

def init (sv : Server) : LockSystem Tid :=
  ⟨sv.store, .new, sv.wal, none, none, fun _ => .idle, 0, [], [], []⟩

def goto (x : LockSystem Tid) (t : Tid) (p : LockPc) : LockSystem Tid :=
  { x with pc := Function.update x.pc t p }

/-- the next step of a thread -/
def advance (x : LockSystem Tid) (t : Tid) (garbage : KvStore) : LockPc → LockSystem Tid
  | .idle => x
  | .start i c =>
    match c, c.mutation with
    | _, some m => { x.goto t (.locked i c m) with mutation := some t }
    | .get key, none => { x.goto t (.getting i key) with lock := x.lock.lockShared t }
    | _, none => x
  | .getting i key =>
    x.goto t (match x.values.get key with
      | none => .gotten i key (ascii "NOT_FOUND")
      | some _ => .found i key)
  | .found i key => x.goto t (.gotten i key (getResponse x.values key))
  | .gotten i key r => { x.goto t (.done i (.get key) r) with lock := x.lock.unlockShared t }
  | .stats => { x.goto t .sizing with lock := x.lock.lockShared t }
  | .sizing => x.goto t (.sized x.values.size)
  | .sized _ => { x.goto t .idle with lock := x.lock.unlockShared t }
  | .locked i c m => { x.goto t (.appending i c m) with append := some t }
  | .appending i c m =>
    match x.wal.appendRecord m.record with
    | (.returned true, wal) => { x.goto t (.appended i c m true) with
        wal := wal, logged := x.logged ++ [m] }
    | (.returned false, wal) => { x.goto t (.appended i c m false) with wal := wal }
    | _ => x
  | .appended i c m ok => { x.goto t (if ok then .logged i c m
      else .unlocking i c (ascii "ERR WAL failure")) with append := none }
  | .logged i c m => { x.goto t (.writing i c m) with lock := x.lock.lock t }
  | .writing i c m => { x.goto t (.torn i c m x.values) with values := garbage }
  | .torn i c m old => { x.goto t (.written i c (Server.answer m old)) with
      values := m.apply old, applied := x.applied ++ [m] }
  | .written i c r => { x.goto t (.unlocking i c r) with lock := x.lock.unlock }
  | .unlocking i c r => { x.goto t (.done i c r) with mutation := none }
  | .done i c r => { x.goto t .idle with history := x.history ++ [.res i r] }

/-- the next step of a thread does not wait -/
def Ready (x : LockSystem Tid) : LockPc → Prop
  | .idle => False
  | .start _ (.get _) => x.lock.writer = none
  | .start _ c => c.mutation ≠ none ∧ x.mutation = none
  | .stats => x.lock.writer = none
  | .locked .. => x.append = none
  | .appending _ _ m => ∃ ok wal, x.wal.appendRecord m.record = (.returned ok, wal)
  | .logged .. => x.lock.writer = none ∧ ∀ u, x.lock.readers u = false
  | _ => True

def Ok (x : LockSystem Tid) : LockAct Tid → Prop
  | .request t p c => x.pc t = .idle ∧ p.length ≤ kDefaultMaxPayload ∧ parseCommand p = .ok c ∧
      c.keyed = true
  | .stats t => x.pc t = .idle
  | .step t _ => x.Ready (x.pc t)

def out (x : LockSystem Tid) : LockAct Tid → LockSystem Tid
  | .request t _ c => { x.goto t (.start x.next c) with
      next := x.next + 1, history := x.history ++ [.inv x.next c] }
  | .stats t => x.goto t .stats
  | .step t garbage => x.advance t garbage (x.pc t)

/-! ## the locks -/

structure Inv (x : LockSystem Tid) : Prop where
  mutation : Held LockPc.mutates x.pc x.mutation
  append : Held LockPc.appends x.pc x.append
  lock : Guarded LockPc.writes LockPc.reads x.pc x.lock
  knows : ∀ t, (x.pc t).Knows x.values

theorem init_inv (sv : Server) : (init sv : LockSystem Tid).Inv :=
  ⟨Held.init fun _ => rfl, Held.init fun _ => rfl, Guarded.new fun _ => ⟨rfl, rfl⟩, fun _ => trivial⟩

section
variable {x : LockSystem Tid} (h : x.Inv) {t : Tid} {p : LockPc}
include h

/-- a thread moves, and the map stays as it is -/
theorem Inv.knows_goto (hp : p.Knows x.values) (u : Tid) :
    (Function.update x.pc t p u).Knows x.values := by
  by_cases hu : u = t
  · rw [hu, Function.update_self]
    exact hp
  · rw [Function.update_of_ne hu]
    exact h.knows u

/-- a writer moves, and nobody knows anything of the map -/
theorem Inv.knows_write (hw : (x.pc t).writes = true) {values : KvStore} (hp : p.Knows values) (u : Tid) :
    (Function.update x.pc t p u).Knows values := by
  by_cases hu : u = t
  · rw [hu, Function.update_self]
    exact hp
  · rw [Function.update_of_ne hu]
    have hknows := h.knows u
    have hreads : (x.pc u).reads = false := h.lock.exclusive hw
    cases hpc : x.pc u with
    | found i key =>
      rw [hpc] at hreads
      cases hreads
    | start i c =>
      rw [hpc] at hknows
      exact hknows
    | locked i c m =>
      rw [hpc] at hknows
      exact hknows
    | appending i c m =>
      rw [hpc] at hknows
      exact hknows
    | _ => trivial

/-- a thread moves and keeps its locks -/
theorem Inv.goto {q : LockPc} (hq : x.pc t = q) (hm : p.mutates = q.mutates)
    (ha : p.appends = q.appends) (hw : p.writes = q.writes) (hr : p.reads = q.reads)
    (hp : p.Knows x.values) : (x.goto t p).Inv :=
  ⟨h.mutation.keep hq hm, h.append.keep hq ha, h.lock.keep hq hw hr, h.knows_goto hp⟩

/-- every step of a thread -/
theorem Inv.advance (garbage : KvStore) (hready : x.Ready (x.pc t)) :
    (x.advance t garbage (x.pc t)).Inv := by
  have hknows := h.knows t
  cases hpc : x.pc t with
  | idle => exact h
  | start i c =>
    rw [hpc] at hready hknows
    obtain ⟨hkeyed, hlog⟩ := hknows
    cases c with
    | get key =>
      exact ⟨h.mutation.keep hpc rfl, h.append.keep hpc rfl,
        h.lock.lockShared hready hpc rfl rfl, h.knows_goto trivial⟩
    | set key value =>
      have hmutation := h.mutation
      rw [hready.2] at hmutation
      exact ⟨hmutation.take rfl, h.append.keep hpc rfl,
        h.lock.keep hpc rfl rfl, h.knows_goto (hlog _ rfl)⟩
    | del key =>
      have hmutation := h.mutation
      rw [hready.2] at hmutation
      exact ⟨hmutation.take rfl, h.append.keep hpc rfl,
        h.lock.keep hpc rfl rfl, h.knows_goto (hlog _ rfl)⟩
    | ping => exact absurd rfl hready.1
    | stats => exact absurd rfl hready.1
  | getting i key =>
    show (x.goto t _).Inv
    cases hget : x.values.get key with
    | none => exact h.goto hpc rfl rfl rfl rfl trivial
    | some value =>
      refine h.goto hpc rfl rfl rfl rfl ?_
      show x.values.get key ≠ none
      rw [hget]
      exact Option.some_ne_none _
  | found i key =>
    exact h.goto hpc rfl rfl rfl rfl trivial
  | gotten i key r =>
    exact ⟨h.mutation.keep hpc rfl, h.append.keep hpc rfl,
      h.lock.unlockShared hpc rfl rfl, h.knows_goto trivial⟩
  | stats =>
    rw [hpc] at hready
    exact ⟨h.mutation.keep hpc rfl, h.append.keep hpc rfl,
      h.lock.lockShared hready hpc rfl rfl, h.knows_goto trivial⟩
  | sizing =>
    exact h.goto hpc rfl rfl rfl rfl trivial
  | sized keys =>
    exact ⟨h.mutation.keep hpc rfl, h.append.keep hpc rfl,
      h.lock.unlockShared hpc rfl rfl, h.knows_goto trivial⟩
  | locked i c m =>
    rw [hpc] at hready hknows
    have happend := h.append
    rw [show x.append = none from hready] at happend
    exact ⟨h.mutation.keep hpc rfl, happend.take rfl,
      h.lock.keep hpc rfl rfl, h.knows_goto hknows⟩
  | appending i c m =>
    rw [hpc] at hready
    obtain ⟨ok, wal, he⟩ := hready
    have hgoto : (x.goto t (.appended i c m ok)).Inv :=
      h.goto hpc rfl rfl rfl rfl trivial
    rw [LockSystem.advance, he]
    cases ok with
    | true => exact ⟨hgoto.mutation, hgoto.append, hgoto.lock, hgoto.knows⟩
    | false => exact ⟨hgoto.mutation, hgoto.append, hgoto.lock, hgoto.knows⟩
  | appended i c m ok =>
    cases ok with
    | true =>
      exact ⟨h.mutation.keep hpc rfl, h.append.give hpc rfl rfl,
        h.lock.keep hpc rfl rfl, h.knows_goto trivial⟩
    | false =>
      exact ⟨h.mutation.keep hpc rfl, h.append.give hpc rfl rfl,
        h.lock.keep hpc rfl rfl, h.knows_goto trivial⟩
  | logged i c m =>
    rw [hpc] at hready
    exact ⟨h.mutation.keep hpc rfl, h.append.keep hpc rfl,
      h.lock.lock hready.1 hready.2 hpc rfl rfl, h.knows_goto trivial⟩
  | writing i c m =>
    exact ⟨h.mutation.keep hpc rfl, h.append.keep hpc rfl,
      h.lock.keep hpc rfl rfl, h.knows_write (by rw [hpc]; rfl) trivial⟩
  | torn i c m old =>
    exact ⟨h.mutation.keep hpc rfl, h.append.keep hpc rfl,
      h.lock.keep hpc rfl rfl, h.knows_write (by rw [hpc]; rfl) trivial⟩
  | written i c r =>
    exact ⟨h.mutation.keep hpc rfl, h.append.keep hpc rfl,
      h.lock.unlock hpc rfl rfl rfl, h.knows_goto trivial⟩
  | unlocking i c r =>
    exact ⟨h.mutation.give hpc rfl rfl, h.append.keep hpc rfl,
      h.lock.keep hpc rfl rfl, h.knows_goto trivial⟩
  | done i c r =>
    exact ⟨h.mutation.keep hpc rfl, h.append.keep hpc rfl,
      h.lock.keep hpc rfl rfl, h.knows_goto trivial⟩

theorem Inv.out {act : LockAct Tid} (hok : x.Ok act) : (x.out act).Inv := by
  cases act with
  | request t p c =>
    obtain ⟨hpc, hp, hc, hk⟩ := hok
    refine ⟨h.mutation.keep hpc rfl, h.append.keep hpc rfl,
      h.lock.keep hpc rfl rfl, h.knows_goto ⟨hk, fun m hm => ?_⟩⟩
    exact loggable_of_request ((recordMutation_ok hc).trans hm) hp
  | stats t =>
    have hpc : x.pc t = .idle := hok
    exact h.goto hpc rfl rfl rfl rfl trivial
  | step t garbage => exact h.advance garbage hok

end

/-! ## the system with atomic steps -/

/-- `s` is the store: the content of the map, or what it was before the change that is under way -/
structure Content (x : LockSystem Tid) (s : KvStore) : Prop where
  torn : ∀ t i c m old, x.pc t = .torn i c m old → s = old
  whole : (∀ t, (x.pc t).isTorn = false) → s = x.values

structure Sim (x : LockSystem Tid) (y : System Tid) : Prop where
  store : x.Content y.store
  wal : y.wal = x.wal
  mutex : y.mutex = x.mutation
  pc : y.pc = LockPc.coarse ∘ x.pc
  next : y.next = x.next
  history : y.history = x.history
  logged : y.logged = x.logged
  applied : y.applied = x.applied

theorem init_sim (sv : Server) : Sim (init sv : LockSystem Tid) (System.init sv) :=
  ⟨⟨fun _ _ _ _ _ he => LockPc.noConfusion he, fun _ => rfl⟩, rfl, rfl, rfl, rfl, rfl, rfl, rfl⟩

section
variable {x x' : LockSystem Tid} {y : System Tid} {s : KvStore} {t : Tid} {p q : LockPc}

theorem Content.keep (h : x.Content s) (hq : x.pc t = q) (hqt : q.isTorn = false) (hpt : p.isTorn = false)
    (hpc : x'.pc = Function.update x.pc t p) (hvalues : x'.values = x.values) : x'.Content s := by
  refine ⟨fun u i c m old he => ?_, fun hwhole => ?_⟩
  · rw [hpc] at he
    by_cases hu : u = t
    · rw [hu, Function.update_self] at he
      rw [he] at hpt
      cases hpt
    · rw [Function.update_of_ne hu] at he
      exact h.torn u i c m old he
  · rw [hvalues]
    refine h.whole fun u => ?_
    by_cases hu : u = t
    · rw [hu, hq]
      exact hqt
    · have := hwhole u
      rw [hpc, Function.update_of_ne hu] at this
      exact this

/-- nobody else is in the middle of a change -/
theorem Inv.torn_unique (h : x.Inv) (hw : (x.pc t).writes = true) {u : Tid} (hu : u ≠ t) :
    (x.pc u).isTorn = false := by
  cases hpc : x.pc u with
  | torn i c m old =>
    have hwrites : (x.pc u).writes = true := by
      rw [hpc]
      rfl
    exact absurd (h.lock.writer.unique hwrites hw) hu
  | _ => rfl

/-- a reader finds the map whole -/
theorem Inv.whole_of_reads (h : x.Inv) (hr : (x.pc t).reads = true) (hc : x.Content s) : s = x.values := by
  refine hc.whole fun u => ?_
  cases hpc : x.pc u with
  | torn i c m old =>
    have hwrites : (x.pc u).writes = true := by
      rw [hpc]
      rfl
    rw [h.lock.exclusive hwrites] at hr
    cases hr
  | _ => rfl

/-- a writer that is alone in the store leaves the map whole -/
theorem Inv.content_whole (h : x.Inv) (hw : (x.pc t).writes = true) (hpt : p.isTorn = false)
    (hpc : x'.pc = Function.update x.pc t p) (hvalues : x'.values = s) : x'.Content s := by
  refine ⟨fun u i c m old he => ?_, fun _ => hvalues.symm⟩
  rw [hpc] at he
  by_cases hu : u = t
  · rw [hu, Function.update_self] at he
    rw [he] at hpt
    cases hpt
  · rw [Function.update_of_ne hu] at he
    have htorn := h.torn_unique hw hu
    rw [he] at htorn
    cases htorn

/-- a writer starts to change the map -/
theorem Inv.content_torn (h : x.Inv) (hw : (x.pc t).writes = true) (hq : (x.pc t).isTorn = false)
    (hc : x.Content s) {i : ℕ} {c : Command} {m : Mutation}
    (hpc : x'.pc = Function.update x.pc t (.torn i c m x.values)) : x'.Content s := by
  have hs : s = x.values := by
    refine hc.whole fun u => ?_
    by_cases hu : u = t
    · rw [hu]
      exact hq
    · exact h.torn_unique hw hu
  refine ⟨fun u i' c' m' old he => ?_, fun hwhole => ?_⟩
  · rw [hpc] at he
    by_cases hu : u = t
    · rw [hu, Function.update_self] at he
      cases he
      exact hs
    · rw [Function.update_of_ne hu] at he
      have htorn := h.torn_unique hw hu
      rw [he] at htorn
      cases htorn
  · have := hwhole t
    rw [hpc, Function.update_self] at this
    cases this

theorem Sim.at (h : Sim x y) (hq : x.pc t = q) : y.pc t = q.coarse := by
  rw [h.pc, Function.comp_apply, hq]

theorem Sim.pc_goto (h : Sim x y) (p : LockPc) :
    Function.update y.pc t p.coarse = LockPc.coarse ∘ Function.update x.pc t p := by
  rw [Function.comp_update, h.pc]

/-- the thread moves, and nothing happens in the other system -/
theorem Sim.pc_stay (h : Sim x y) (hq : x.pc t = q) (hp : p.coarse = q.coarse) :
    y.pc = LockPc.coarse ∘ Function.update x.pc t p := by
  rw [← h.pc_goto, hp, ← h.at hq, Function.update_eq_self]

theorem Sim.stay (h : Sim x y) (hq : x.pc t = q) (hp : p.coarse = q.coarse) (hqt : q.isTorn = false)
    (hpt : p.isTorn = false) (hpc : x'.pc = Function.update x.pc t p) (hvalues : x'.values = x.values)
    (hwal : x'.wal = x.wal) (hmutation : x'.mutation = x.mutation) (hnext : x'.next = x.next)
    (hhistory : x'.history = x.history) (hlogged : x'.logged = x.logged)
    (happlied : x'.applied = x.applied) : Sim x' y :=
  ⟨h.store.keep hq hqt hpt hpc hvalues, h.wal.trans hwal.symm, h.mutex.trans hmutation.symm,
    hpc ▸ h.pc_stay hq hp, h.next.trans hnext.symm, h.history.trans hhistory.symm,
    h.logged.trans hlogged.symm, h.applied.trans happlied.symm⟩

/-- every step of a thread is a step of the other system, or none -/
theorem Sim.advance (h : Sim x y) (hinv : x.Inv) (garbage : KvStore) (hready : x.Ready (x.pc t)) :
    ∃ y', Relation.ReflTransGen System.Step y y' ∧ Sim (x.advance t garbage (x.pc t)) y' := by
  have hstay {x' : LockSystem Tid} (h' : Sim x' y) : ∃ y', Relation.ReflTransGen System.Step y y' ∧ Sim x' y' :=
    ⟨y, .refl, h'⟩
  cases hpc : x.pc t with
  | idle => exact hstay h
  | start i c =>
    rw [hpc] at hready
    have hy : y.pc t = .start i c := h.at hpc
    cases c with
    | get key => exact hstay (h.stay hpc (p := .getting i key) rfl rfl rfl rfl rfl rfl rfl rfl rfl rfl rfl)
    | set key value =>
      refine ⟨_, .single (.lock y t i (.set key value) (.set key value) hy rfl (h.mutex.trans hready.2)), ?_⟩
      exact ⟨h.store.keep hpc rfl (p := .locked i (.set key value) (.set key value)) rfl rfl rfl, h.wal, rfl,
        h.pc_goto (.locked i (.set key value) (.set key value)), h.next, h.history, h.logged, h.applied⟩
    | del key =>
      refine ⟨_, .single (.lock y t i (.del key) (.del key) hy rfl (h.mutex.trans hready.2)), ?_⟩
      exact ⟨h.store.keep hpc rfl (p := .locked i (.del key) (.del key)) rfl rfl rfl, h.wal, rfl,
        h.pc_goto (.locked i (.del key) (.del key)), h.next, h.history, h.logged, h.applied⟩
    | ping => exact absurd rfl hready.1
    | stats => exact absurd rfl hready.1
  | getting i key =>
    have hy : y.pc t = .start i (.get key) := h.at hpc
    have hs : y.store = x.values := hinv.whole_of_reads (by rw [hpc]; rfl) h.store
    rw [LockSystem.advance]
    cases hget : x.values.get key with
    | none =>
      have hr : getResponse y.store key = ascii "NOT_FOUND" := by rw [hs, getResponse, hget]
      have hread := System.Step.read y t i key hy
      rw [hr] at hread
      refine ⟨_, .single hread, ?_⟩
      exact ⟨h.store.keep hpc rfl (p := .gotten i key (ascii "NOT_FOUND")) rfl rfl rfl, h.wal, h.mutex,
        h.pc_goto (.gotten i key (ascii "NOT_FOUND")), h.next, h.history, h.logged, h.applied⟩
    | some value => exact hstay (h.stay hpc (p := .found i key) rfl rfl rfl rfl rfl rfl rfl rfl rfl rfl rfl)
  | found i key =>
    have hy : y.pc t = .start i (.get key) := h.at hpc
    have hs : y.store = x.values := hinv.whole_of_reads (by rw [hpc]; rfl) h.store
    have hread := System.Step.read y t i key hy
    rw [hs] at hread
    refine ⟨_, .single hread, ?_⟩
    exact ⟨h.store.keep hpc rfl (p := .gotten i key (getResponse x.values key)) rfl rfl rfl, h.wal, h.mutex,
      h.pc_goto (.gotten i key (getResponse x.values key)), h.next, h.history, h.logged, h.applied⟩
  | gotten i key r =>
    exact hstay (h.stay hpc (p := .done i (.get key) r) rfl rfl rfl rfl rfl rfl rfl rfl rfl rfl rfl)
  | stats => exact hstay (h.stay hpc (p := .sizing) rfl rfl rfl rfl rfl rfl rfl rfl rfl rfl rfl)
  | sizing => exact hstay (h.stay hpc (p := .sized x.values.size) rfl rfl rfl rfl rfl rfl rfl rfl rfl rfl rfl)
  | sized keys => exact hstay (h.stay hpc (p := .idle) rfl rfl rfl rfl rfl rfl rfl rfl rfl rfl rfl)
  | locked i c m => exact hstay (h.stay hpc (p := .appending i c m) rfl rfl rfl rfl rfl rfl rfl rfl rfl rfl rfl)
  | appending i c m =>
    rw [hpc] at hready
    obtain ⟨ok, wal, he⟩ := hready
    have hy : y.pc t = .locked i c m := h.at hpc
    rw [LockSystem.advance, he]
    rw [← h.wal] at he
    cases ok with
    | true =>
      refine ⟨_, .single (.append y t i c m wal hy he), ?_⟩
      exact ⟨h.store.keep hpc rfl (p := .appended i c m true) rfl rfl rfl, rfl, h.mutex,
        h.pc_goto (.appended i c m true), h.next, h.history, congrArg (· ++ [m]) h.logged, h.applied⟩
    | false =>
      refine ⟨_, .single (.refuse y t i c m wal hy he), ?_⟩
      exact ⟨h.store.keep hpc rfl (p := .appended i c m false) rfl rfl rfl, rfl, h.mutex,
        h.pc_goto (.appended i c m false), h.next, h.history, h.logged, h.applied⟩
  | appended i c m ok =>
    cases ok with
    | true => exact hstay (h.stay hpc (p := .logged i c m) rfl rfl rfl rfl rfl rfl rfl rfl rfl rfl rfl)
    | false =>
      exact hstay (h.stay hpc (p := .unlocking i c (ascii "ERR WAL failure")) rfl rfl rfl rfl rfl rfl rfl rfl
        rfl rfl rfl)
  | logged i c m => exact hstay (h.stay hpc (p := .writing i c m) rfl rfl rfl rfl rfl rfl rfl rfl rfl rfl rfl)
  | writing i c m =>
    have hw : (x.pc t).writes = true := by rw [hpc]; rfl
    exact hstay ⟨hinv.content_torn hw (by rw [hpc]; rfl) h.store rfl, h.wal, h.mutex, h.pc_stay hpc rfl, h.next,
      h.history, h.logged, h.applied⟩
  | torn i c m old =>
    have hw : (x.pc t).writes = true := by rw [hpc]; rfl
    have hy : y.pc t = .logged i c m := h.at hpc
    have hs : y.store = old := h.store.torn t i c m old hpc
    have happly := System.Step.apply y t i c m hy
    rw [hs] at happly
    refine ⟨_, .single happly, ?_⟩
    exact ⟨hinv.content_whole hw (p := .written i c (Server.answer m old)) rfl rfl rfl, h.wal, h.mutex,
      h.pc_goto (.written i c (Server.answer m old)), h.next, h.history, h.logged,
      congrArg (· ++ [m]) h.applied⟩
  | written i c r =>
    exact hstay (h.stay hpc (p := .unlocking i c r) rfl rfl rfl rfl rfl rfl rfl rfl rfl rfl rfl)
  | unlocking i c r =>
    have hy : y.pc t = .unlocking i c r := h.at hpc
    refine ⟨_, .single (.unlock y t i c r hy), ?_⟩
    exact ⟨h.store.keep hpc rfl (p := .done i c r) rfl rfl rfl, h.wal, rfl, h.pc_goto (.done i c r), h.next,
      h.history, h.logged, h.applied⟩
  | done i c r =>
    have hy : y.pc t = .done i c r := h.at hpc
    refine ⟨_, .single (.respond y t i c r hy), ?_⟩
    exact ⟨h.store.keep hpc rfl (p := .idle) rfl rfl rfl, h.wal, h.mutex, h.pc_goto .idle, h.next,
      congrArg (· ++ [_]) h.history, h.logged, h.applied⟩

theorem Sim.out (h : Sim x y) (hinv : x.Inv) {act : LockAct Tid} (hok : x.Ok act) :
    ∃ y', Relation.ReflTransGen System.Step y y' ∧ Sim (x.out act) y' := by
  cases act with
  | request t p c =>
    obtain ⟨hpc, hp, hc, hk⟩ := hok
    have hy : y.pc t = .idle := h.at hpc
    have hrequest := System.Step.request y t p c hy hp hc hk
    rw [h.next, h.history] at hrequest
    refine ⟨_, .single hrequest, ?_⟩
    exact ⟨h.store.keep hpc rfl (p := .start x.next c) rfl rfl rfl, h.wal, h.mutex,
      h.pc_goto (.start x.next c), rfl, rfl, h.logged, h.applied⟩
  | stats t =>
    have hpc : x.pc t = .idle := hok
    exact ⟨y, .refl, h.stay hpc (p := .stats) rfl rfl rfl rfl rfl rfl rfl rfl rfl rfl rfl⟩
  | step t garbage => exact h.advance hinv garbage hok

end

/-! ## every run -/

theorem reach_inv {sv : Server} {x : LockSystem Tid} (hrun : Reach Ok out (init sv) x) : x.Inv :=
  reach_invariant Inv hrun (init_inv sv) fun _ _ h hok => h.out hok

theorem reach_sim {sv : Server} {x : LockSystem Tid} (hrun : Reach Ok out (init sv) x) :
    ∃ y, Relation.ReflTransGen System.Step (System.init sv) y ∧ Sim x y := by
  induction hrun with
  | refl => exact ⟨_, .refl, init_sim sv⟩
  | tail hrun hstep ih =>
    obtain ⟨act, hok, rfl⟩ := hstep
    obtain ⟨y, hy, hsim⟩ := ih
    obtain ⟨y', hy', hsim'⟩ := hsim.out (reach_inv hrun) hok
    exact ⟨y', hy.trans hy', hsim'⟩

end LockSystem

/-- **The locks suffice.**  Whatever the order in which any number of requests take their locks and access
the map and the log: while one thread changes `values_`, no other one reads or changes it, and no two threads
are in an append; the run is one of `NetForge.Concurrent`, where a call of the store is one step, and so the
responses are linearizable. -/
theorem locks_suffice {Tid : Type} [DecidableEq Tid] (sv : Server) {x : LockSystem Tid}
    (hrun : Reach LockSystem.Ok LockSystem.out (.init sv) x) :
    (∀ t u, t ≠ u → (x.pc t).writesMap = true →
      (x.pc u).writesMap = false ∧ (x.pc u).readsMap = false) ∧
    (∀ t u, (x.pc t).appends = true → (x.pc u).appends = true → t = u) ∧
    (∃ y, Relation.ReflTransGen System.Step (System.init sv) y ∧ x.Sim y) ∧
    ∃ order, Linearization MapSpec sv.store.get x.history order := by
  have hinv := LockSystem.reach_inv hrun
  obtain ⟨y, hy, hsim⟩ := LockSystem.reach_sim hrun
  refine ⟨fun t u hne ht => ?_, fun t u ht hu => hinv.append.unique ht hu, ⟨y, hy, hsim⟩, ?_⟩
  · have hwrites := LockPc.writes_of_writesMap ht
    refine ⟨Bool.eq_false_iff.mpr fun hu => ?_, Bool.eq_false_iff.mpr fun hu => ?_⟩
    · exact hne (hinv.lock.writer.unique hwrites (LockPc.writes_of_writesMap hu))
    · have hreads := LockPc.reads_of_readsMap hu
      rw [hinv.lock.exclusive hwrites] at hreads
      cases hreads
  · obtain ⟨a, ha, hlinear⟩ := Atomic.linearization_of_simulation MapSpec (System.init_sim sv)
      System.step_sim hy
    rw [ha.history, hsim.history] at hlinear
    exact ⟨a.order, hlinear⟩

/-- a `DEL` is in the middle of its change, and the map holds anything; a `GET` has arrived -/
def midway : List (LockAct Bool) :=
  [.request true (ascii "DEL k") (.del [107]), .step true KvStore.empty, .step true KvStore.empty,
    .step true KvStore.empty, .step true KvStore.empty, .step true KvStore.empty,
    .step true (KvStore.empty.set [107] [120]), .request false (ascii "GET k") (.get [107])]

theorem midway_run : Run LockSystem.Ok LockSystem.out (.init logServer) midway
    (midway.foldl LockSystem.out (.init logServer)) :=
  ⟨⟨rfl, by decide, by decide, rfl⟩, ⟨Option.some_ne_none _, rfl⟩, rfl, ⟨true, _, rfl⟩, trivial,
    ⟨rfl, fun _ => rfl⟩, trivial, ⟨rfl, by decide, by decide, rfl⟩, rfl⟩

theorem locks_suffice_midway : ∃ x : LockSystem Bool,
    Reach LockSystem.Ok LockSystem.out (.init logServer) x ∧ (x.pc true).writesMap = true ∧
      x.values.get [107] = some [120] ∧ (x.pc false).readsMap = false ∧
      ∃ order, Linearization MapSpec KvStore.empty.get x.history order := by
  obtain ⟨hrace, -, -, hlinear⟩ := locks_suffice logServer midway_run.reach
  exact ⟨_, midway_run.reach, rfl, by decide, (hrace true false (by decide) rfl).2, hlinear⟩

/-! ## progress -/

def LockAct.arrives {Tid : Type} : LockAct Tid → Bool
  | .step _ _ => false
  | _ => true

/-- the append returns, or the machine stops in it -/
theorem Wal.appendRecord_returns (wal : Wal) {m : Mutation} (hm : m.Loggable) :
    (∃ ok wal', wal.appendRecord m.record = (.returned ok, wal')) ∨
      ∃ wal', wal.appendRecord m.record = (.crashed, wal') := by
  by_cases hp : wal.path = []
  · refine .inl ⟨true, wal, ?_⟩
    rw [Wal.appendRecord, if_pos hp]
  · rcases wal.appendRecord_cases m.record hp hm.lt with ⟨_, he⟩ | ⟨_, _, _, _, he⟩ | ⟨_, _, he⟩ |
      ⟨_, _, _, _, _, he⟩
    · exact .inl ⟨_, _, he⟩
    · exact .inl ⟨_, _, he⟩
    · exact .inl ⟨_, _, he⟩
    · exact .inr ⟨_, he⟩

namespace LockSystem
variable {Tid : Type} [DecidableEq Tid]

/-- a step brings its thread nearer to the end of the request -/
theorem advance_rank (x : LockSystem Tid) (t : Tid) (garbage : KvStore) {q : LockPc}
    (hready : x.Ready q) :
    ∃ p : LockPc, p.rank < q.rank ∧ (x.advance t garbage q).pc = Function.update x.pc t p := by
  cases q with
  | idle => exact absurd hready id
  | start i c =>
    cases c with
    | get key => exact ⟨.getting i key, by simp [LockPc.rank], rfl⟩
    | set key value => exact ⟨.locked i (.set key value) (.set key value), by simp [LockPc.rank], rfl⟩
    | del key => exact ⟨.locked i (.del key) (.del key), by simp [LockPc.rank], rfl⟩
    | ping => exact absurd rfl hready.1
    | stats => exact absurd rfl hready.1
  | getting i key =>
    rw [advance]
    cases x.values.get key with
    | none => exact ⟨.gotten i key (ascii "NOT_FOUND"), by simp [LockPc.rank], rfl⟩
    | some value => exact ⟨.found i key, by simp [LockPc.rank], rfl⟩
  | found i key => exact ⟨.gotten i key (getResponse x.values key), by simp [LockPc.rank], rfl⟩
  | gotten i key r => exact ⟨.done i (.get key) r, by simp [LockPc.rank], rfl⟩
  | stats => exact ⟨.sizing, by simp [LockPc.rank], rfl⟩
  | sizing => exact ⟨.sized x.values.size, by simp [LockPc.rank], rfl⟩
  | sized keys => exact ⟨.idle, by simp [LockPc.rank], rfl⟩
  | locked i c m => exact ⟨.appending i c m, by simp [LockPc.rank], rfl⟩
  | appending i c m =>
    obtain ⟨ok, wal, he⟩ := hready
    rw [advance, he]
    cases ok with
    | true => exact ⟨.appended i c m true, by simp [LockPc.rank], rfl⟩
    | false => exact ⟨.appended i c m false, by simp [LockPc.rank], rfl⟩
  | appended i c m ok =>
    cases ok with
    | true => exact ⟨.logged i c m, by simp [LockPc.rank], rfl⟩
    | false => exact ⟨.unlocking i c (ascii "ERR WAL failure"), by simp [LockPc.rank], rfl⟩
  | logged i c m => exact ⟨.writing i c m, by simp [LockPc.rank], rfl⟩
  | writing i c m => exact ⟨.torn i c m x.values, by simp [LockPc.rank], rfl⟩
  | torn i c m old => exact ⟨.written i c (Server.answer m old), by simp [LockPc.rank], rfl⟩
  | written i c r => exact ⟨.unlocking i c r, by simp [LockPc.rank], rfl⟩
  | unlocking i c r => exact ⟨.done i c r, by simp [LockPc.rank], rfl⟩
  | done i c r => exact ⟨.idle, by simp [LockPc.rank], rfl⟩

/-- the next step of the thread does not wait, also if those who want to write the store go first, or the
machine has stopped in its append -/
def Free (x : LockSystem Tid) (t : Tid) : Prop :=
  x.Ready (x.pc t) ∧ ((x.pc t).shares = true → ∀ u, (x.pc u).waitsToWrite = false) ∨
    ∃ i c m wal, x.pc t = .appending i c m ∧ x.wal.appendRecord m.record = (.crashed, wal)

end LockSystem

/-- the locks are taken in this order -/
def LockPc.level : LockPc → ℕ
  | .idle | .start .. | .stats => 0
  | .locked .. => 1
  | .logged .. => 2
  | _ => 3

section
variable {p : LockPc}

theorem LockPc.level_of_writes (h : p.writes = true) : p.level = 3 := by
  cases p <;> first | rfl | cases h

theorem LockPc.level_of_reads (h : p.reads = true) : p.level = 3 := by
  cases p <;> first | rfl | cases h

theorem LockPc.level_of_appends (h : p.appends = true) : p.level = 3 := by
  cases p <;> first | rfl | cases h

theorem LockPc.level_of_waitsToWrite (h : p.waitsToWrite = true) : p.level = 2 := by
  cases p <;> first | rfl | cases h

theorem LockPc.level_of_mutates (h : p.mutates = true) : 0 < p.level := by
  cases p <;> first | exact Nat.succ_pos _ | cases h

theorem LockPc.level_le (p : LockPc) : p.level ≤ 3 := by
  cases p <;> simp [LockPc.level]

end

namespace LockSystem
variable {Tid : Type} [DecidableEq Tid] {x : LockSystem Tid}

/-- a reader waits for a writer -/
theorem Inv.waits_shared (h : x.Inv) {t : Tid} (hlevel : (x.pc t).level = 0)
    (hready : x.lock.writer = none → x.Ready (x.pc t)) :
    x.Free t ∨ ∃ u, (x.pc t).level < (x.pc u).level := by
  by_cases hwait : ∃ u, (x.pc u).waitsToWrite = true
  · obtain ⟨u, hu⟩ := hwait
    exact .inr ⟨u, by rw [hlevel, LockPc.level_of_waitsToWrite hu]; decide⟩
  · by_cases hfree : x.lock.writer = none
    · exact .inl (.inl ⟨hready hfree, fun _ u => Bool.eq_false_iff.mpr fun hu => hwait ⟨u, hu⟩⟩)
    · obtain ⟨u, hu⟩ := h.lock.writer.holder hfree
      exact .inr ⟨u, by rw [hlevel, LockPc.level_of_writes hu]; decide⟩

/-- a request to change the store waits for another one -/
theorem Inv.waits_mutation (h : x.Inv) {t : Tid} (hlevel : (x.pc t).level = 0)
    (hshares : (x.pc t).shares = false) (hready : x.mutation = none → x.Ready (x.pc t)) :
    x.Free t ∨ ∃ u, (x.pc t).level < (x.pc u).level := by
  by_cases hfree : x.mutation = none
  · refine .inl (.inl ⟨hready hfree, fun hs => ?_⟩)
    rw [hshares] at hs
    cases hs
  · obtain ⟨u, hu⟩ := h.mutation.holder hfree
    exact .inr ⟨u, by rw [hlevel]; exact LockPc.level_of_mutates hu⟩

/-- whoever waits for a lock waits for a thread that has taken more of them -/
theorem Inv.waits (h : x.Inv) (t : Tid) (hbusy : x.pc t ≠ .idle) :
    x.Free t ∨ ∃ u, (x.pc t).level < (x.pc u).level := by
  have hgo (hready : x.Ready (x.pc t)) (hshares : (x.pc t).shares = false) :
      x.Free t ∨ ∃ u, (x.pc t).level < (x.pc u).level := by
    refine .inl (.inl ⟨hready, fun hs => ?_⟩)
    rw [hshares] at hs
    cases hs
  cases hpc : x.pc t with
  | idle => exact absurd hpc hbusy
  | start i c =>
    have hknows := h.knows t
    rw [hpc] at hknows
    cases c with
    | get key =>
      rw [← hpc]
      exact h.waits_shared (by rw [hpc]; rfl) fun hfree => by rw [hpc]; exact hfree
    | set key value =>
      rw [← hpc]
      exact h.waits_mutation (by rw [hpc]; rfl) (by rw [hpc]; rfl) fun hfree => by
        rw [hpc]
        exact ⟨Option.some_ne_none _, hfree⟩
    | del key =>
      rw [← hpc]
      exact h.waits_mutation (by rw [hpc]; rfl) (by rw [hpc]; rfl) fun hfree => by
        rw [hpc]
        exact ⟨Option.some_ne_none _, hfree⟩
    | ping => cases hknows.1
    | stats => cases hknows.1
  | stats =>
    rw [← hpc]
    exact h.waits_shared (by rw [hpc]; rfl) fun hfree => by rw [hpc]; exact hfree
  | locked i c m =>
    by_cases hfree : x.append = none
    · exact hpc ▸ hgo (by rw [hpc]; exact hfree) (by rw [hpc]; rfl)
    · obtain ⟨u, hu⟩ := h.append.holder hfree
      exact .inr ⟨u, by rw [LockPc.level_of_appends hu]; exact Nat.lt_of_sub_eq_succ rfl⟩
  | appending i c m =>
    have hknows := h.knows t
    rw [hpc] at hknows
    rcases x.wal.appendRecord_returns hknows with hreturns | ⟨wal, he⟩
    · exact hpc ▸ hgo (by rw [hpc]; exact hreturns) (by rw [hpc]; rfl)
    · exact .inl (.inr ⟨i, c, m, wal, hpc, he⟩)
  | logged i c m =>
    by_cases hfree : x.lock.writer = none
    · by_cases hnone : ∀ u, x.lock.readers u = false
      · exact hpc ▸ hgo (by rw [hpc]; exact ⟨hfree, hnone⟩) (by rw [hpc]; rfl)
      · obtain ⟨u, hu⟩ := not_forall.mp hnone
        rw [h.lock.readers u, Bool.not_eq_false] at hu
        exact .inr ⟨u, by rw [LockPc.level_of_reads hu]; exact Nat.lt_of_sub_eq_succ rfl⟩
    · obtain ⟨u, hu⟩ := h.lock.writer.holder hfree
      exact .inr ⟨u, by rw [LockPc.level_of_writes hu]; exact Nat.lt_of_sub_eq_succ rfl⟩
  | _ => exact hpc ▸ hgo (by rw [hpc]; trivial) (by rw [hpc]; rfl)

end LockSystem

/-- **Requests finish.**  In each state of each run in which a request is under way, some thread can take its
next step, also if a thread that wants to write the store keeps new readers out, unless the machine has stopped
in an append; and all threads together take at most ten steps for each request. -/
theorem requests_finish {Tid : Type} [DecidableEq Tid] [Fintype Tid] (sv : Server) {x : LockSystem Tid}
    {as : List (LockAct Tid)} (hrun : Run LockSystem.Ok LockSystem.out (.init sv) as x) :
    ((∃ t, x.pc t ≠ .idle) → ∃ t, x.pc t ≠ .idle ∧ x.Free t) ∧
    as.countP (fun a => !a.arrives) ≤ 10 * as.countP LockAct.arrives := by
  have hinv := LockSystem.reach_inv hrun.reach
  refine ⟨fun ⟨t, ht⟩ => ?_, ?_⟩
  · refine exists_free (fun u => (x.pc u).level) 3 (fun u => (x.pc u).level_le) (fun u hu => ?_) ht
    refine (hinv.waits u hu).imp_right fun ⟨v, hv⟩ => ⟨v, fun he => ?_, hv⟩
    rw [he] at hv
    exact absurd hv (Nat.not_lt_zero _)
  · have hbound := run_bounded LockSystem.Inv (fun y => Threads.total fun u => (y.pc u).rank) 10
      LockAct.arrives (fun _ _ h hok => h.out hok) (fun y a _ hok ha => ?_) (fun y a _ hok ha => ?_)
      (LockSystem.init_inv sv) hrun
    · have hzero : Threads.total (fun u : Tid => ((LockSystem.init sv : LockSystem Tid).pc u).rank) = 0 :=
        Finset.sum_const_zero
      omega
    · cases a with
      | step t garbage =>
        obtain ⟨p, hp, hpc⟩ := y.advance_rank t garbage hok
        have hchange := Threads.total_update LockPc.rank y.pc t p
        rw [← hpc] at hchange
        show Threads.total (fun u => ((y.advance t garbage (y.pc t)).pc u).rank) < _
        omega
      | _ => cases ha
    · cases a with
      | request t p c =>
        have hchange := Threads.total_update LockPc.rank y.pc t (.start y.next c)
        have hrank : (LockPc.start y.next c).rank = 10 := rfl
        show Threads.total (fun u => (Function.update y.pc t (.start y.next c) u).rank) ≤ _
        omega
      | stats t =>
        have hchange := Threads.total_update LockPc.rank y.pc t .stats
        have hrank : LockPc.stats.rank = 3 := rfl
        show Threads.total (fun u => (Function.update y.pc t .stats u).rank) ≤ _
        omega
      | step t garbage => cases ha

/-- the `GET` waits for the `DEL` -/
theorem requests_finish_midway : ∃ x : LockSystem Bool,
    Run LockSystem.Ok LockSystem.out (.init logServer) midway x ∧ ¬ x.Ready (x.pc false) ∧
      (∃ t, x.pc t ≠ .idle ∧ x.Free t) ∧
      midway.countP (fun a => !a.arrives) ≤ 10 * midway.countP LockAct.arrives := by
  obtain ⟨hfree, hbound⟩ := requests_finish logServer midway_run
  exact ⟨_, midway_run, Option.some_ne_none _, hfree ⟨true, LockPc.noConfusion⟩, hbound⟩

end NetForge
