import SystemsCourse.NetForge.Concurrent

/-!
# Concurrent clients and crashes

`NetForge.Concurrent` has many clients and one server that does not stop; `NetForge.Durability` has crashes,
and requests that are executed one after another.  Here the machine stops at any step of any interleaving,
also inside an append, and a new server starts on what is left of the log.

An `Epoch` is what the clients of one server saw.

* `Survives`            what a recovery may find: of each epoch all that took effect, in the order of a
                        linearization, and after it at most one mutation that was not acknowledged;
* `Running`             what holds while a server runs;
* `durable_linearizable`  each recovery succeeds, and finds such a history.
-/

set_option linter.unusedSectionVars false
set_option linter.unusedVariables false

namespace NetForge
open Wire Stream Linearizable

/-! ## the machine -/

/-- what the clients of one server saw -/
structure Epoch where
  /-- the store after the recovery -/
  start : KvStore
  history : List (Linearizable.Event Command Bytes)

inductive Host (Tid : Type) where
  | down (file : WalFile)
  | up (x : System Tid) (start : KvStore)

structure Site (Tid : Type) where
  host : Host Tid
  /-- of the servers that have stopped -/
  epochs : List Epoch

namespace Site
variable {Tid : Type} [DecidableEq Tid]

def initial : Site Tid := ⟨.down ⟨[], []⟩, []⟩

inductive Step : Site Tid → Site Tid → Prop
  | start (file : WalFile) (epochs : List Epoch) (options : ServerOptions) (opened : Option AppendIo)
      (io : RecoverIo) (listenError : Option Bytes) (hp : options.walPath ≠ [])
      (hopen : io.openError ≠ some true)
      (hready : (Server.new options opened file io listenError).2.ready = true) :
      Step ⟨.down file, epochs⟩
        ⟨.up (.init (Server.new options opened file io listenError).2)
          (Server.new options opened file io listenError).2.store, epochs⟩
  -- a recovery that fails, or in which the machine stops
  | failedStart (file : WalFile) (epochs : List Epoch) (options : ServerOptions)
      (opened : Option AppendIo) (io : RecoverIo) (listenError : Option Bytes)
      (hp : options.walPath ≠ []) (hopen : io.openError ≠ some true)
      (hready : (Server.new options opened file io listenError).2.ready = false) :
      Step ⟨.down file, epochs⟩
        ⟨.down (Server.new options opened file io listenError).2.wal.file, epochs⟩
  | act (x x' : System Tid) (start : KvStore) (epochs : List Epoch) (h : System.Step x x') :
      Step ⟨.up x start, epochs⟩ ⟨.up x' start, epochs⟩
  -- the machine stops in a call of the append
  | crashInAppend (x : System Tid) (start : KvStore) (epochs : List Epoch) (t : Tid) (i : ℕ)
      (c : Command) (m : Mutation) (wal : Wal) (h : x.pc t = .locked i c m)
      (he : x.wal.appendRecord m.record = (.crashed, wal)) :
      Step ⟨.up x start, epochs⟩ ⟨.down wal.file, epochs ++ [⟨start, x.history⟩]⟩
  | crash (x : System Tid) (start : KvStore) (epochs : List Epoch) (keep : ℕ) :
      Step ⟨.up x start, epochs⟩ ⟨.down (x.wal.file.crash keep), epochs ++ [⟨start, x.history⟩]⟩
  -- the part of the file that was not synced may be lost later
  | lose (file : WalFile) (epochs : List Epoch) (keep : ℕ) :
      Step ⟨.down file, epochs⟩ ⟨.down (file.crash keep), epochs⟩

end Site

/-! ## what a recovery may find -/

/-- a client asked for the mutation, and had no response or a refusal -/
def Epoch.Unacked (e : Epoch) (m : Mutation) : Prop :=
  ∃ i c, c.mutation = some m ∧ Linearizable.Event.inv i c ∈ e.history ∧
    ∀ r, Linearizable.Event.res i r ∈ e.history → r = ascii "ERR WAL failure"

/-- the mutations that are left after the epochs -/
inductive Survives : List Epoch → List Mutation → Prop
  | nil : Survives [] []
  | epoch {epochs : List Epoch} {ms : List Mutation} (h : Survives epochs ms) (e : Epoch)
      (order : List (ℕ × Command × Bytes)) (linear : Linearization MapSpec e.start.get e.history order)
      (extra : List Mutation) (hlen : extra.length ≤ 1) (hextra : ∀ m ∈ extra, e.Unacked m) :
      Survives (epochs ++ [e]) (ms ++ effects order ++ extra)

/-- each epoch starts with what is left of those before it -/
def Continues (epochs : List Epoch) : Prop :=
  ∀ before e after, epochs = before ++ e :: after →
    ∃ ms, Survives before ms ∧ e.start = replayAll ms KvStore.empty

/-- **an acknowledged mutation survives** -/
theorem Survives.acked {epochs : List Epoch} {ms : List Mutation} (h : Survives epochs ms) {e : Epoch}
    (he : e ∈ epochs) {i : ℕ} {c : Command} {m : Mutation} {r : Bytes} (hm : c.mutation = some m)
    (hone : ∀ c', Linearizable.Event.inv i c' ∈ e.history → c' = c)
    (hres : Linearizable.Event.res i r ∈ e.history) (hr : r ≠ ascii "ERR WAL failure") : m ∈ ms := by
  induction h with
  | nil => cases he
  | epoch _ e' order linear extra hlen hextra ih =>
    rcases List.mem_append.mp he with he | he
    · exact List.mem_append_left _ (List.mem_append_left _ (ih he))
    · cases List.mem_singleton.mp he
      obtain ⟨c', hmem⟩ := linear.complete i r hres
      cases hone c' (linear.invoked i c' r hmem)
      refine List.mem_append_left _ (List.mem_append_right _ (List.mem_filterMap.mpr ⟨_, hmem, ?_⟩))
      rw [effect, if_neg hr]
      exact hm

/-! ## epochs and lifetimes -/

/-- the record of a server, as in `NetForge.Durability`, is one of the epoch -/
def Epoch.Fits (e : Epoch) (l : Lifetime) : Prop :=
  ∃ order, Linearization MapSpec e.start.get e.history order ∧ l.acked = effects order ∧
    ∀ m, l.pending = some m → e.Unacked m

theorem Explains.concat_cases {ls : List Lifetime} {l : Lifetime} {ms : List Mutation}
    (h : Explains (ls ++ [l]) ms) : ∃ ms', Explains ls ms' ∧
      (ms = ms' ++ l.acked ∨ ∃ m, l.pending = some m ∧ ms = ms' ++ l.acked ++ [m]) := by
  generalize hls : ls ++ [l] = ls' at h
  cases h with
  | nil => simp at hls
  | lost l' h' =>
    obtain ⟨rfl, hl⟩ := List.append_inj' hls rfl
    cases hl
    exact ⟨_, h', .inl rfl⟩
  | kept l' m h' hm =>
    obtain ⟨rfl, hl⟩ := List.append_inj' hls rfl
    cases hl
    exact ⟨_, h', .inr ⟨m, hm, rfl⟩⟩

theorem Explains.survives {ps : List (Epoch × Lifetime)} (hfits : ∀ p ∈ ps, p.1.Fits p.2)
    {ms : List Mutation} (h : Explains (ps.map Prod.snd) ms) : Survives (ps.map Prod.fst) ms := by
  induction ps using List.reverseRecOn generalizing ms with
  | nil =>
    generalize hls : ([] : List (Epoch × Lifetime)).map Prod.snd = ls at h
    cases h with
    | nil => exact .nil
    | lost => simp at hls
    | kept => simp at hls
  | append_singleton ps p ih =>
    rw [List.map_append] at h ⊢
    obtain ⟨ms', h', hms⟩ := h.concat_cases
    have hrest := ih (fun q hq => hfits q (List.mem_append_left _ hq)) h'
    obtain ⟨order, linear, hacked, hpending⟩ :=
      hfits p (List.mem_append_right _ (List.mem_singleton_self _))
    rcases hms with rfl | ⟨m, hm, rfl⟩
    · have hnone := hrest.epoch p.1 order linear [] (Nat.zero_le _) fun _ hm => absurd hm List.not_mem_nil
      rw [List.append_nil] at hnone
      rw [hacked]
      exact hnone
    · rw [hacked]
      refine hrest.epoch p.1 order linear [m] (Nat.le_refl _) fun m' hm' => ?_
      rw [List.mem_singleton.mp hm']
      exact hpending m hm

/-! ## a running server -/

namespace System
variable {Tid : Type} [DecidableEq Tid] {x x' : System Tid} {a : Atomic (Bytes → Option Bytes) Command Bytes}

/-- the mutations of the order are those that were applied -/
theorem step_effects (h : Sim x a) (heffects : effects a.order = x.applied) (hstep : Step x x') :
    ∃ a', Relation.ReflTransGen (Atomic.Step MapSpec) a a' ∧ Sim x' a' ∧
      effects a'.order = x'.applied := by
  obtain ⟨a', taken, hsteps, hsim, horder, happlied⟩ := step_matched h hstep
  refine ⟨a', hsteps, hsim, ?_⟩
  rw [horder, effects_append, heffects, happlied]

end System

section
variable {Tid : Type} [DecidableEq Tid]

/-- what holds while a server runs: its log is that of the epochs before, of `logged`, and of a mutation
`pend` whose append failed, if there is one -/
structure Running (past : List Lifetime) (start : KvStore) (x : System Tid) (base : List Mutation)
    (a : Atomic (Bytes → Option Bytes) Command Bytes) (pend : Option Mutation) : Prop where
  explains : Explains past base
  recovered : start = replayAll base KvStore.empty
  safe : x.Safe base
  atomic : Atomic.Inv MapSpec start.get a
  sim : x.Sim a
  taken : effects a.order = x.applied
  path : x.wal.path ≠ []
  file : ∃ s u t, Layout x.wal.file s u t ∧ Fitting (past ++ [⟨x.logged, pend⟩]) s u ∧
    (x.wal.fd ≠ none → t = [] ∧ pend = none)
  opened : x.pending ≠ [] → x.wal.fd ≠ none
  refused : ∀ m, pend = some m → ∃ i c, c.mutation = some m ∧ (i, c, ascii "ERR WAL failure") ∈ a.order

variable {past : List Lifetime} {start : KvStore} {x x' : System Tid} {base : List Mutation}
  {a : Atomic (Bytes → Option Bytes) Command Bytes} {pend : Option Mutation}

/-- a request that was invoked and not taken has no response -/
theorem Running.unacked_invoked (h : Running past start x base a pend) {i : ℕ} {c : Command}
    {m : Mutation} (hm : c.mutation = some m) (hst : a.status i = .invoked c) :
    Epoch.Unacked ⟨start, x.history⟩ m := by
  have hstatus := h.atomic.status i
  rw [Atomic.StatusOk, hst] at hstatus
  have hhistory := h.sim.history
  refine ⟨i, c, hm, ?_, fun r hr => ?_⟩
  · show _ ∈ x.history
    rw [← hhistory]
    exact hstatus.2
  · rw [show (Epoch.mk start x.history).history = x.history from rfl, ← hhistory] at hr
    obtain ⟨c', hmem⟩ := h.atomic.linear.complete i r hr
    exact absurd (List.mem_map.mpr ⟨_, hmem, rfl⟩) hstatus.1

/-- a request that was refused has no other response -/
theorem Running.unacked_refused (h : Running past start x base a pend) {i : ℕ} {c : Command}
    {m : Mutation} (hm : c.mutation = some m) (horder : (i, c, ascii "ERR WAL failure") ∈ a.order) :
    Epoch.Unacked ⟨start, x.history⟩ m := by
  have hhistory := h.sim.history
  refine ⟨i, c, hm, ?_, fun r hr => ?_⟩
  · show _ ∈ x.history
    rw [← hhistory]
    exact h.atomic.linear.invoked _ _ _ horder
  · rw [show (Epoch.mk start x.history).history = x.history from rfl, ← hhistory] at hr
    obtain ⟨c', hmem⟩ := h.atomic.linear.complete i r hr
    have heq := List.inj_on_of_nodup_map h.atomic.linear.nodup hmem horder rfl
    exact congrArg (fun e => e.2.2) heq

/-- the order of the requests so far -/
theorem Running.linear (h : Running past start x base a pend) :
    Linearization MapSpec start.get x.history a.order := by
  rw [← h.sim.history]
  exact h.atomic.linear

/-- **the server stops** between two steps -/
theorem Running.stopped (h : Running past start x base a pend) :
    ∃ l, Epoch.Fits ⟨start, x.history⟩ l ∧ Holds x.wal.file (past ++ [l]) := by
  obtain ⟨s, u, t, hl, hf, hfd⟩ := h.file
  have hlogged := h.safe.logged
  rcases x.pending_cases with hnone | ⟨m, hsome⟩
  · rw [hnone, List.append_nil] at hlogged
    refine ⟨⟨x.logged, pend⟩, ⟨a.order, h.linear, ?_, fun m hm => ?_⟩, s, u, t, hl, hf⟩
    · rw [h.taken]
      exact hlogged
    · obtain ⟨i, c, hc, horder⟩ := h.refused m hm
      exact h.unacked_refused hc horder
  · -- a mutation was logged and not applied: it is the last one of the file
    obtain ⟨-, hpend⟩ := hfd (h.opened (by rw [hsome]; exact List.cons_ne_nil _ _))
    rw [hsome] at hlogged
    refine ⟨⟨x.applied, some m⟩, ⟨a.order, h.linear, h.taken.symm, fun m' hm' => ?_⟩, s, u, t, hl,
      fun n => ?_⟩
    · cases hm'
      obtain ⟨t, i, c, -, hpc⟩ := System.mem_pending (x := x) (m := m)
        (by rw [hsome]; exact List.mem_singleton_self _)
      have hst := h.sim.requests.agrees t
      rw [hpc] at hst
      exact h.unacked_invoked hst.2 hst.1
    · obtain ⟨ms, hms, e⟩ := (hf n).inv hpend
      rw [e, hlogged, ← List.append_assoc]
      exact .kept ⟨x.applied, some m⟩ m hms rfl

/-- the server stops in an append -/
theorem Running.stopped_append (h : Running past start x base a pend) {t : Tid} {i : ℕ} {c : Command}
    {m : Mutation} {wal : Wal} (hpc : x.pc t = .locked i c m)
    (he : x.wal.appendRecord m.record = (.crashed, wal)) :
    ∃ l, Epoch.Fits ⟨start, x.history⟩ l ∧ Holds wal.file (past ++ [l]) := by
  obtain ⟨s, u, tail, hl, hf, hfd⟩ := h.file
  have hlog := h.safe.locked t i c m hpc
  have hst := h.sim.requests.agrees t
  rw [hpc] at hst
  -- the holder of the mutex has nothing logged
  have hlogged := h.safe.logged
  have hin : x.mutex = some t := h.safe.held (by rw [hpc]; rfl)
  rw [System.pending_of_mutex hin, hpc] at hlogged
  have happlied : x.logged = x.applied := hlogged.trans (List.append_nil _)
  have hfits : Epoch.Fits ⟨start, x.history⟩ ⟨x.logged, some m⟩ := by
    refine ⟨a.order, h.linear, ?_, fun m' hm' => ?_⟩
    · rw [h.taken]
      exact happlied
    · cases hm'
      exact h.unacked_invoked hst.2 hst.1
  rcases x.wal.appendRecord_cases m.record h.path hlog.lt with
    ⟨_, e⟩ | ⟨io, io', _, _, e⟩ | ⟨n, _, e⟩ | ⟨io, file', hio, _, hfile, e⟩
  · rw [e] at he
    cases he
  · rw [e] at he
    cases he
  · rw [e] at he
    cases he
  · obtain ⟨ht, hpend⟩ := hfd (by rw [hio]; exact Option.some_ne_none _)
    subst hpend
    rw [e] at he
    cases he
    refine ⟨⟨x.logged, some m⟩, hfits, ?_⟩
    rcases hfile with rfl | ⟨n, rfl⟩
    · exact ⟨_, [], [], (hl.appendFrame ht hlog).sync rfl, fitting_nil (hf.kept_all rfl m)⟩
    · rcases hl.appendPart ht hlog n with ⟨t', hl'⟩ | hl'
      · exact ⟨s, u, t', hl', hf.failed m⟩
      · exact ⟨s, u ++ [m], [], hl', hf.kept rfl m⟩

/-- a step that does not touch the log -/
theorem Running.quiet (h : Running past start x base a pend) (hstep : System.Step x x')
    (hwal : x'.wal = x.wal) (hlogged : x'.logged = x.logged)
    (hopened : x'.pending ≠ [] → x.pending ≠ []) : ∃ a' pend', Running past start x' base a' pend' := by
  obtain ⟨a', hsteps, hsim, htaken⟩ := System.step_effects h.sim h.taken hstep
  refine ⟨a', pend, h.explains, h.recovered, System.step_safe h.safe hstep,
    Atomic.steps_inv MapSpec h.atomic hsteps, hsim, htaken, ?_, ?_, ?_, fun m hm => ?_⟩
  · rw [hwal]
    exact h.path
  · rw [hwal, hlogged]
    exact h.file
  · rw [hwal]
    exact fun hp => h.opened (hopened hp)
  · obtain ⟨i, c, hc, horder⟩ := h.refused m hm
    exact ⟨i, c, hc, (Atomic.steps_order MapSpec hsteps).subset horder⟩

theorem Running.step (h : Running past start x base a pend) (hstep : System.Step x x') :
    ∃ a' pend', Running past start x' base a' pend' := by
  have hsafe := System.step_safe h.safe hstep
  -- nothing is pending if the holder of the mutex has nothing logged
  have hnone {y : System Tid} {t : Tid} {p : Pc} (hin : y.mutex = some t) (hpc : y.pc t = p)
      (hp : p.pending = []) : y.pending = [] := by
    rw [System.pending_of_mutex hin, hpc, hp]
  cases hstep with
  | request t p c hpc hp hc hk =>
    refine h.quiet (.request x t p c hpc hp hc hk) rfl rfl fun hne => ?_
    rwa [← h.safe.pending_goto (by rw [hpc]; rfl) (.start x.next c)]
  | read t i k hpc =>
    refine h.quiet (.read x t i k hpc) rfl rfl fun hne => ?_
    rwa [← h.safe.pending_goto (by rw [hpc]; rfl) (.done i (.get k) (getResponse x.store k))]
  | respond t i c r hpc =>
    refine h.quiet (.respond x t i c r hpc) rfl rfl fun hne => ?_
    rwa [← h.safe.pending_goto (by rw [hpc]; rfl) .idle]
  | lock t i c m hpc hm hfree =>
    refine h.quiet (.lock x t i c m hpc hm hfree) rfl rfl fun hne => absurd ?_ hne
    exact hnone rfl (Function.update_self ..) rfl
  | apply t i c m hpc =>
    have hin : x.mutex = some t := h.safe.held (by rw [hpc]; rfl)
    refine h.quiet (.apply x t i c m hpc) rfl rfl fun hne => absurd ?_ hne
    exact hnone hin (Function.update_self ..) rfl
  | unlock t i c r hpc => exact h.quiet (.unlock x t i c r hpc) rfl rfl fun hne => absurd rfl hne
  | append t i c m wal hpc he =>
    obtain ⟨a', hsteps, hsim, htaken⟩ :=
      System.step_effects h.sim h.taken (.append x t i c m wal hpc he)
    obtain ⟨s, u, tail, hl, hf, hfd⟩ := h.file
    have hlog := h.safe.locked t i c m hpc
    rcases x.wal.appendRecord_cases m.record h.path hlog.lt with
      ⟨_, e⟩ | ⟨io, io', hio, _, e⟩ | ⟨n, _, e⟩ | ⟨io, file', _, _, _, e⟩
    · rw [e] at he
      cases he
    · obtain ⟨ht, hpend⟩ := hfd (by rw [hio]; exact Option.some_ne_none _)
      subst hpend
      rw [e] at he
      cases he
      exact ⟨a', none, h.explains, h.recovered, hsafe, Atomic.steps_inv MapSpec h.atomic hsteps, hsim,
        htaken, h.path, ⟨_, [], [], (hl.appendFrame ht hlog).sync rfl, hf.acked rfl m,
          fun _ => ⟨rfl, rfl⟩⟩, fun _ => Option.some_ne_none _, fun _ hm => by cases hm⟩
    · rw [e] at he
      cases he
    · rw [e] at he
      cases he
  | refuse t i c m wal hpc he =>
    obtain ⟨a', hsteps, hsim, htaken⟩ :=
      System.step_effects h.sim h.taken (.refuse x t i c m wal hpc he)
    have hatomic := Atomic.steps_inv MapSpec h.atomic hsteps
    obtain ⟨s, u, tail, hl, hf, hfd⟩ := h.file
    have hlog := h.safe.locked t i c m hpc
    have hin : x.mutex = some t := h.safe.held (by rw [hpc]; rfl)
    have hold := h.sim.requests.agrees t
    rw [hpc] at hold
    -- the refusal is the response of the request
    have horder : (i, c, ascii "ERR WAL failure") ∈ a'.order := by
      have hpc' : ({ x.goto t (.unlocking i c (ascii "ERR WAL failure")) with wal := wal } :
          System Tid).pc t = .unlocking i c (ascii "ERR WAL failure") := Function.update_self ..
      have hst := hsim.requests.agrees t
      rw [hpc'] at hst
      have hstatus := hatomic.status i
      rw [Atomic.StatusOk, hst] at hstatus
      exact hstatus
    have hrefused : ∀ m', (pend <|> some m) = some m' →
        ∃ i c, c.mutation = some m' ∧ (i, c, ascii "ERR WAL failure") ∈ a'.order := by
      intro m' hm'
      cases pend with
      | none =>
        cases hm'
        exact ⟨i, c, hold.2, horder⟩
      | some m₀ =>
        cases hm'
        obtain ⟨i', c', hc', horder'⟩ := h.refused _ rfl
        exact ⟨i', c', hc', (Atomic.steps_order MapSpec hsteps).subset horder'⟩
    have hclosed : ({ x.goto t (.unlocking i c (ascii "ERR WAL failure")) with wal := wal } :
        System Tid).pending = [] := hnone hin (Function.update_self ..) rfl
    rcases x.wal.appendRecord_cases m.record h.path hlog.lt with
      ⟨hn, e⟩ | ⟨io, io', _, _, e⟩ | ⟨n, hio, e⟩ | ⟨io, file', _, _, _, e⟩
    · rw [e] at he
      cases he
      exact ⟨a', pend <|> some m, h.explains, h.recovered, hsafe, hatomic, hsim, htaken, h.path,
        ⟨s, u, tail, hl, hf.failed m, fun hfd' => absurd hn hfd'⟩, fun hne => absurd hclosed hne,
        hrefused⟩
    · rw [e] at he
      cases he
    · obtain ⟨ht, hpend⟩ := hfd hio
      rw [e] at he
      cases he
      refine ⟨a', pend <|> some m, h.explains, h.recovered, hsafe, hatomic, hsim, htaken, h.path, ?_,
        fun hne => absurd hclosed hne, hrefused⟩
      rcases hl.appendPart ht hlog n with ⟨t', hl'⟩ | hl'
      · exact ⟨s, u, t', hl', hf.failed m, fun hfd' => absurd rfl hfd'⟩
      · exact ⟨s, u ++ [m], [], hl', hf.kept hpend m, fun hfd' => absurd rfl hfd'⟩
    · rw [e] at he
      cases he

/-- a server that is ready has recovered its log -/
theorem Server.new_ready {options : ServerOptions} {opened : Option AppendIo} {file file' : WalFile}
    {io : RecoverIo} {listenError : Option Bytes} {result : Option Bool} {store : KvStore}
    (hp : options.walPath ≠ [])
    (he : Wal.recover ⟨options.walPath, opened, file⟩ KvStore.empty io = (result, store, file'))
    (hready : (Server.new options opened file io listenError).2.ready = true) :
    result = some true ∧ (Server.new options opened file io listenError).2.store = store ∧
      (Server.new options opened file io listenError).2.wal = ⟨options.walPath, opened, file'⟩ := by
  have hw : Wal.new options.walPath opened file = ⟨options.walPath, opened, file⟩ := if_neg hp
  unfold Server.new at hready ⊢
  rw [hw] at hready ⊢
  dsimp only at hready ⊢
  split at hready
  · cases hready
  · split at hready
    · cases hready
    · rename_i hmax hopened
      rw [he] at hready
      rw [if_neg hmax, if_neg hopened, he]
      match result with
      | none => cases hready
      | some false => cases hready
      | some true =>
        cases listenError with
        | none => exact ⟨rfl, rfl, rfl⟩
        | some what => exact ⟨rfl, rfl, rfl⟩

variable (Tid) in
/-- a server starts on what is left of the log -/
theorem Running.start_new {file : WalFile} (h : Holds file past) {options : ServerOptions}
    {opened : Option AppendIo} {io : RecoverIo} {listenError : Option Bytes}
    (hp : options.walPath ≠ []) (hopen : io.openError ≠ some true)
    (hready : (Server.new options opened file io listenError).2.ready = true) :
    ∃ base, Running past (Server.new options opened file io listenError).2.store
      (System.init (Server.new options opened file io listenError).2 : System Tid) base
      (Atomic.init (Server.new options opened file io listenError).2.store.get) none := by
  obtain ⟨s, u, t, hl, hf⟩ := h
  obtain ⟨result, store, file', he, hdone, -⟩ :=
    hl.recover_any ⟨options.walPath, opened, file⟩ rfl hp io hopen KvStore.empty
  obtain ⟨hresult, hstore, hwal⟩ := Server.new_ready hp he hready
  obtain ⟨hreplay, hl'⟩ := hdone hresult
  have hnew : ∃ s' u', Layout file' s' u' [] ∧ Fitting past s' u' := by
    rcases hl' with hl' | hl'
    · exact ⟨s, u, hl', hf⟩
    · exact ⟨s ++ u, [], hl', fitting_nil hf.all⟩
  obtain ⟨s', u', hl', hf'⟩ := hnew
  refine ⟨s ++ u, hf.all, hstore.trans hreplay, System.init_safe _ (hstore.trans hreplay),
    Atomic.init_inv MapSpec _, System.init_sim _, rfl, ?_, ⟨s', u', [], ?_, fun n => ?_, fun _ => ⟨rfl, rfl⟩⟩,
    fun hne => absurd rfl hne, fun m hm => by cases hm⟩
  · show (Server.new options opened file io listenError).2.wal.path ≠ []
    rw [hwal]
    exact hp
  · show Layout (Server.new options opened file io listenError).2.wal.file s' u' []
    rw [hwal]
    exact hl'
  · have hlost := Explains.lost ⟨[], none⟩ (hf' n)
    rwa [List.append_nil] at hlost

end

/-! ## every run -/

theorem Continues.concat {epochs : List Epoch} (h : Continues epochs) {e : Epoch} {ms : List Mutation}
    (hms : Survives epochs ms) (he : e.start = replayAll ms KvStore.empty) :
    Continues (epochs ++ [e]) := by
  intro before e' after heq
  cases after using List.reverseRecOn with
  | nil =>
    obtain ⟨rfl, hlast⟩ := List.append_inj' heq rfl
    cases hlast
    exact ⟨ms, hms, he⟩
  | append_singleton after last =>
    rw [← List.cons_append, ← List.append_assoc] at heq
    exact h before e' after (List.append_inj' heq rfl).1

namespace Site
variable {Tid : Type} [DecidableEq Tid]

def Inv (site : Site Tid) : Prop :=
  ∃ ps : List (Epoch × Lifetime), site.epochs = ps.map Prod.fst ∧ (∀ p ∈ ps, p.1.Fits p.2) ∧
    Continues site.epochs ∧
    match site.host with
    | .down file => Holds file (ps.map Prod.snd)
    | .up x start => ∃ base a pend, Running (ps.map Prod.snd) start x base a pend

theorem initial_inv : (initial : Site Tid).Inv := by
  refine ⟨[], rfl, fun _ hp => absurd hp List.not_mem_nil, fun before e after he => ?_, [], [], [],
    ⟨rfl, rfl, fun _ hm => absurd hm List.not_mem_nil, Or.inl rfl⟩, fitting_nil .nil⟩
  cases before <;> cases he

/-- the server has stopped -/
theorem Inv.stopped {x : System Tid} {start : KvStore} {epochs : List Epoch} {file : WalFile}
    (h : (Site.mk (.up x start) epochs).Inv)
    (hstopped : ∀ past base a pend, Running past start x base a pend →
      ∃ l, Epoch.Fits ⟨start, x.history⟩ l ∧ Holds file (past ++ [l])) :
    (Site.mk (.down file : Host Tid) (epochs ++ [⟨start, x.history⟩])).Inv := by
  obtain ⟨ps, hps, hfits, hcontinues, base, a, pend, hrunning⟩ := h
  obtain ⟨l, hl, hholds⟩ := hstopped _ base a pend hrunning
  have hms := hrunning.explains.survives hfits
  rw [← hps] at hms
  refine ⟨ps ++ [(⟨start, x.history⟩, l)], ?_, fun p hp => ?_,
    hcontinues.concat hms hrunning.recovered, ?_⟩
  · rw [List.map_append, ← hps]
    rfl
  · rcases List.mem_append.mp hp with hp | hp
    · exact hfits p hp
    · rw [List.mem_singleton.mp hp]
      exact hl
  · show Holds file ((ps ++ [(Epoch.mk start x.history, l)]).map Prod.snd)
    rw [List.map_append]
    exact hholds

theorem Inv.step {site site' : Site Tid} (h : site.Inv) (hstep : Step site site') : site'.Inv := by
  cases hstep with
  | start file epochs options opened io listenError hp hopen hready =>
    obtain ⟨ps, hps, hfits, hcontinues, hholds⟩ := h
    obtain ⟨base, hrunning⟩ := Running.start_new Tid hholds hp hopen hready
    exact ⟨ps, hps, hfits, hcontinues, base, _, none, hrunning⟩
  | failedStart file epochs options opened io listenError hp hopen hready =>
    obtain ⟨ps, hps, hfits, hcontinues, hholds⟩ := h
    have hnew := Server.new_holds hholds options opened io listenError hp hopen
    unfold World.step at hnew
    dsimp only at hnew
    rw [if_neg (by rw [hready]; exact Bool.false_ne_true)] at hnew
    exact ⟨ps, hps, hfits, hcontinues, hnew⟩
  | act x x' start epochs hact =>
    obtain ⟨ps, hps, hfits, hcontinues, base, a, pend, hrunning⟩ := h
    obtain ⟨a', pend', hrunning'⟩ := hrunning.step hact
    exact ⟨ps, hps, hfits, hcontinues, base, a', pend', hrunning'⟩
  | crashInAppend x start epochs t i c m wal hpc he =>
    exact h.stopped fun past base a pend hrunning => hrunning.stopped_append hpc he
  | crash x start epochs keep =>
    refine h.stopped fun past base a pend hrunning => ?_
    obtain ⟨l, hl, hholds⟩ := hrunning.stopped
    exact ⟨l, hl, hholds.crash keep⟩
  | lose file epochs keep =>
    obtain ⟨ps, hps, hfits, hcontinues, hholds⟩ := h
    exact ⟨ps, hps, hfits, hcontinues, Holds.crash hholds keep⟩

end Site

/-- **Durable linearizability.**  Any number of clients, any interleaving, crashes at any point (also inside
an append or a recovery, with any part of what was not synced lost), and restarts: whenever the machine is
down, the next recovery whose calls do not fail succeeds, and its store is that of the mutations which took
effect before each stop, in the order of a linearization of what the clients of that server saw, and for each
server at most one mutation more, which was not acknowledged.  Each server started with such a store. -/
theorem durable_linearizable {Tid : Type} [DecidableEq Tid] {file : WalFile} {epochs : List Epoch}
    (hrun : Relation.ReflTransGen Site.Step (Site.initial : Site Tid) ⟨.down file, epochs⟩)
    (options : ServerOptions) (opened : Option AppendIo) (io : RecoverIo)
    (hp : options.walPath ≠ []) (hio : io.NoErrors) :
    (∃ ms file', Survives epochs ms ∧
      (Wal.new options.walPath opened file).recover KvStore.empty io
        = (some true, replayAll ms KvStore.empty, file')) ∧
    Continues epochs := by
  have hinv : (Site.mk (.down file : Host Tid) epochs).Inv := by
    generalize Site.mk (.down file : Host Tid) epochs = site at hrun
    induction hrun with
    | refl => exact Site.initial_inv
    | tail _ hstep ih => exact ih.step hstep
  obtain ⟨ps, hps, hfits, hcontinues, s, u, t, hl, hf⟩ := hinv
  have hw : Wal.new options.walPath opened file = ⟨options.walPath, opened, file⟩ := if_neg hp
  obtain ⟨file', he, -⟩ := hl.recover ⟨options.walPath, opened, file⟩ rfl hp io hio KvStore.empty
  have hms := hf.all.survives hfits
  rw [← hps] at hms
  exact ⟨⟨s ++ u, file', hms, by rw [hw, he]⟩, hcontinues⟩

/-- the steps of the threads are steps of the site -/
theorem Site.acts {Tid : Type} [DecidableEq Tid] {x y : System Tid} (start : KvStore)
    (epochs : List Epoch) (h : Relation.ReflTransGen System.Step x y) :
    Relation.ReflTransGen Site.Step ⟨.up x start, epochs⟩ ⟨.up y start, epochs⟩ := by
  induction h with
  | refl => exact .refl
  | tail _ hstep ih => exact ih.tail (.act _ _ start epochs hstep)

/-- a server with an empty log, on a machine that stops in the second sync -/
def tornServer : Server :=
  { logServer with wal := ⟨[119], some ⟨[.count 3, .eintr], [.eintr, .ok, .crash false]⟩, ⟨[], []⟩⟩ }

theorem tornServer_start : Site.Step (Site.initial : Site Bool)
    ⟨.up (.init tornServer) KvStore.empty, []⟩ := by
  have hio : (RecoverIo.mk none [] .eof [] []).NoErrors := ⟨rfl, rfl, by decide, by decide⟩
  have hempty : tornServer.wal.recover KvStore.empty ⟨none, [], .eof, [], []⟩
      = (some true, KvStore.empty, ⟨[], []⟩) := by
    rw [recover_eq _ _ _ (by decide) hio]
    exact recovered_nil _ _ _
  have hnew : Server.new { walPath := [119] } tornServer.wal.fd ⟨[], []⟩ ⟨none, [], .eof, [], []⟩ none
      = (.returned (), tornServer) :=
    Server.new_of_recover (by decide) (by decide) hempty
  have hstart : Site.Step (Site.initial : Site Bool) _ :=
    .start ⟨[], []⟩ [] { walPath := [119] } tornServer.wal.fd ⟨none, [], .eof, [], []⟩ none (by decide)
      (by decide) (by rw [hnew]; rfl)
  rw [hnew] at hstart
  exact hstart

/-- a client has the answer to `SET k v`, another one a `GET` that shows it, and the machine stops in the
sync of the other's `SET k w` -/
theorem durable_linearizable_torn :
    ∃ e, Relation.ReflTransGen Site.Step (Site.initial : Site Bool)
        ⟨.down ⟨logOf [.set [107] [118]], logOf [.set [107] [119]]⟩, [e]⟩ ∧
      e.history = [.inv 0 (.set [107] [118]), .res 0 (ascii "OK"), .inv 1 (.get [107]),
        .res 1 (ascii "VALUE v"), .inv 2 (.set [107] [119])] ∧
      ∃ ms file', Survives [e] ms ∧
        (Wal.new [119] none ⟨logOf [.set [107] [118]], logOf [.set [107] [119]]⟩).recover KvStore.empty
            ⟨none, [.count 1, .eintr], .eof, [.eintr], []⟩
          = (some true, replayAll ms KvStore.empty, file') ∧
        (replayAll ms KvStore.empty).get [107] = some [119] := by
  have h := Relation.ReflTransGen.single (System.Step.request (System.init tornServer) true
    (ascii "SET k v") (.set [107] [118]) rfl (by decide) (by decide) rfl)
  have h := h.tail (.lock _ true 0 _ (.set [107] [118]) rfl rfl rfl)
  have h := h.tail (.append _ true 0 _ _ _ rfl rfl)
  have h := h.tail (.apply _ true 0 _ _ rfl)
  have h := h.tail (.unlock _ true 0 _ _ rfl)
  have h := h.tail (.respond _ true 0 _ _ rfl)
  have h := h.tail (.request _ false (ascii "GET k") (.get [107]) rfl (by decide) (by decide) rfl)
  have h := h.tail (.read _ false 1 _ rfl)
  have h := h.tail (.respond _ false 1 _ _ rfl)
  have h := h.tail (.request _ false (ascii "SET k w") (.set [107] [119]) rfl (by decide) (by decide) rfl)
  have h := h.tail (.lock _ false 2 _ (.set [107] [119]) rfl rfl rfl)
  have hdown := ((Relation.ReflTransGen.single tornServer_start).trans
    (Site.acts KvStore.empty [] h)).tail
    (.crashInAppend _ KvStore.empty [] false 2 (.set [107] [119]) (.set [107] [119]) _ rfl rfl)
  obtain ⟨⟨ms, file', hsurvives, hrecovered⟩, -⟩ := durable_linearizable hdown { walPath := [119] } none
    ⟨none, [.count 1, .eintr], .eof, [.eintr], []⟩ (by decide) ⟨rfl, rfl, by decide, by decide⟩
  have hget : ((Wal.new [119] none ⟨logOf [.set [107] [118]], logOf [.set [107] [119]]⟩).recover
      KvStore.empty ⟨none, [.count 1, .eintr], .eof, [.eintr], []⟩).2.1.get [107] = some [119] := by
    decide +kernel
  have hrecovered' : (Wal.new [119] none ⟨logOf [.set [107] [118]], logOf [.set [107] [119]]⟩).recover
      KvStore.empty ⟨none, [.count 1, .eintr], .eof, [.eintr], []⟩
        = (some true, replayAll ms KvStore.empty, file') := hrecovered
  rw [hrecovered'] at hget
  exact ⟨_, hdown, rfl, ms, file', hsurvives, hrecovered', hget⟩

end NetForge
