import SystemsCourse.NetForge.Concurrent
import SystemsCourse.NetForge.Session

/-!
# A failed append stops the log

`Wal.append_record` closes its descriptor when a `write` or an `fsync` fails.  From then on each
`SET` and `DEL` is refused and neither the file nor the store changes.

* `Wal.Grown base acked`   the file is what it was at the start (`base`), the records of `acked`,
                           and then at most a part of one record that was not acknowledged;
* `append_grown`           an append keeps this, and adds to `acked` if it returns `true`;
* `execute_closed`         what `execute` does once the descriptor is closed;
* `System.Stopped`         the same for threads whose requests interleave;
* `fail_stop`              the two put together.
-/

set_option linter.unusedSectionVars false
set_option linter.unusedVariables false

namespace NetForge
open Wire Stream Linearizable

/-! ## the file -/

/-- the file holds `base` and the acknowledged records, which are synced; what a failed append left
behind them is the start of one record, and then the descriptor is closed -/
structure Wal.Grown (base : Bytes) (acked : List Mutation) (wal : Wal) : Prop where
  path : wal.path ≠ []
  content : ∃ junk record, wal.file.content = base ++ logOf acked ++ junk ∧
    junk <+: frame headerSize record ∧ (wal.fd ≠ none → junk = [])
  synced : acked ≠ [] → base ++ logOf acked <+: wal.file.synced

theorem Wal.appendRecord_closed (wal : Wal) (hp : wal.path ≠ []) (hfd : wal.fd = none)
    (record : Bytes) : wal.appendRecord record = (.returned false, wal) := by
  unfold Wal.appendRecord
  rw [if_neg hp, hfd]

/-- a record that has no frame is rejected before anything is written -/
theorem Wal.appendRecord_long (wal : Wal) (hp : wal.path ≠ []) {record : Bytes}
    (hr : ¬ record.length < 2^32) :
    ∃ o, wal.appendRecord record = (o, wal) ∧ o ≠ .returned true ∧
      (o = .returned false → wal.fd = none) := by
  unfold Wal.appendRecord
  rw [if_neg hp]
  cases hfd : wal.fd with
  | none => exact ⟨_, rfl, by simp, fun _ => rfl⟩
  | some io =>
    have he : encodeFrame record = .error (ascii "frame payload exceeds the 32-bit wire length") := by
      unfold encodeFrame
      rw [if_pos (by omega)]
    rw [he]
    exact ⟨_, rfl, by simp, by simp⟩

/-- an append that returns `false` leaves the descriptor closed -/
theorem Wal.appendRecord_false {wal wal' : Wal} (hp : wal.path ≠ []) {record : Bytes}
    (h : wal.appendRecord record = (.returned false, wal')) :
    wal'.fd = none ∧ wal'.path = wal.path := by
  by_cases hr : record.length < 2^32
  · rcases wal.appendRecord_cases record hp hr with
      ⟨hn, e⟩ | ⟨io, io', _, _, e⟩ | ⟨n, _, e⟩ | ⟨io, file', _, _, _, e⟩
    · rw [e] at h
      cases h
      exact ⟨hn, rfl⟩
    · rw [e] at h
      cases h
    · rw [e] at h
      cases h
      exact ⟨rfl, rfl⟩
    · rw [e] at h
      cases h
  · obtain ⟨o, e, _, hn⟩ := wal.appendRecord_long hp hr
    rw [e] at h
    cases h
    exact ⟨hn rfl, rfl⟩

section
variable {base : Bytes} {acked : List Mutation} {wal : Wal} (h : wal.Grown base acked)
include h

/-- an open descriptor has nothing behind the acknowledged records -/
theorem Wal.Grown.whole (hfd : wal.fd ≠ none) : wal.file.content = base ++ logOf acked := by
  obtain ⟨junk, record, hc, _, hj⟩ := h.content
  rw [hc, hj hfd, List.append_nil]

/-- a part of one record is written and the descriptor is closed -/
theorem Wal.Grown.part (hfd : wal.fd ≠ none) {m : Mutation} {file : WalFile}
    (hf : file = (wal.file.append (frame headerSize m.record)).sync ∨
      ∃ n, file = wal.file.append ((frame headerSize m.record).take n)) :
    ({ wal with fd := none, file := file } : Wal).Grown base acked := by
  have hw := h.whole hfd
  rcases hf with rfl | ⟨n, rfl⟩
  · refine ⟨h.path, ⟨frame headerSize m.record, m.record, ?_, List.prefix_refl _, by simp⟩, ?_⟩
    · rw [WalFile.content_sync, WalFile.content_append, hw]
    · intro _
      show _ <+: (wal.file.append (frame headerSize m.record)).content
      rw [WalFile.content_append, hw]
      exact List.prefix_append _ _
  · refine ⟨h.path, ⟨(frame headerSize m.record).take n, m.record, ?_, List.take_prefix _ _,
      by simp⟩, h.synced⟩
    rw [WalFile.content_append, hw]

/-- **what an append adds to the file** -/
theorem append_grown {m : Mutation} {o : Outcome Bool} {wal' : Wal}
    (he : wal.appendRecord m.record = (o, wal')) :
    wal'.Grown base (if o = .returned true then acked ++ [m] else acked) := by
  by_cases hr : m.record.length < 2^32
  · rcases wal.appendRecord_cases m.record h.path hr with
      ⟨hn, e⟩ | ⟨io, io', hio, _, e⟩ | ⟨n, hfd, e⟩ | ⟨io, file', hio, _, hf, e⟩
    · rw [e] at he
      cases he
      exact h
    · rw [e] at he
      cases he
      have hw := h.whole (by rw [hio]; exact Option.some_ne_none _)
      have hc : (wal.file.append (frame headerSize m.record)).sync.synced
          = base ++ logOf (acked ++ [m]) := by
        show (wal.file.append (frame headerSize m.record)).content = _
        rw [WalFile.content_append, hw, logOf_concat, List.append_assoc]
      rw [if_pos rfl]
      refine ⟨h.path, ⟨[], m.record, ?_, List.nil_prefix, fun _ => rfl⟩, fun _ => ?_⟩
      · rw [List.append_nil, ← hc]
        exact List.append_nil _
      · rw [← hc]
    · rw [e] at he
      cases he
      exact h.part hfd (Or.inr ⟨n, rfl⟩)
    · rw [e] at he
      cases he
      exact h.part (by rw [hio]; exact Option.some_ne_none _) hf
  · obtain ⟨o', e, hne, _⟩ := wal.appendRecord_long h.path hr
    rw [e] at he
    cases he
    rw [if_neg hne]
    exact h

end

theorem grown_nil (wal : Wal) (hp : wal.path ≠ []) : wal.Grown wal.file.content [] :=
  ⟨hp, ⟨[], [], by simp [logOf, frames], List.nil_prefix, fun _ => rfl⟩, fun hc => absurd rfl hc⟩

/-! ## one server, one request after the other -/

/-- what a client of `execute` learns of the log: the mutation of a request that was not refused -/
def acks (p : Bytes) (o : Outcome Bytes) : List Mutation :=
  match recordMutation p, o with
  | some m, .returned response => if response = ascii "ERR WAL failure" then [] else [m]
  | _, _ => []

def acknowledged (ps : List Bytes) (os : List (Outcome Bytes)) : List Mutation :=
  (List.zipWith acks ps os).flatten

/-- the answer of a server whose log is closed and whose store is `store` -/
def Refuses (store : KvStore) (c : Command) (response : Bytes) : Prop :=
  (c.mutation ≠ none → response = ascii "ERR WAL failure") ∧
    ∀ k, c = .get k → response = getResponse store k

namespace Server

theorem execute_grown (sv : Server) {base : Bytes} {acked : List Mutation}
    (h : sv.wal.Grown base acked) (p : Bytes) :
    (sv.execute p).2.wal.Grown base (acked ++ acks p (sv.execute p).1) := by
  cases hm : recordMutation p with
  | none =>
    obtain ⟨response, e⟩ := sv.execute_other hm
    have ha : acks p (sv.execute p).1 = [] := by
      unfold acks
      rw [hm]
    rw [ha, e, List.append_nil]
    exact h
  | some m =>
    rw [sv.execute_mutation hm]
    have hg := fun o wal' (e : sv.wal.appendRecord m.record = (o, wal')) => append_grown h e
    unfold acks
    rw [hm]
    generalize sv.wal.appendRecord m.record = r at hg ⊢
    obtain ⟨o, wal'⟩ := r
    have hg := hg o wal' rfl
    match o with
    | .returned true =>
      dsimp only
      rw [if_neg (Server.answer_ne m sv.store)]
      exact hg
    | .returned false =>
      dsimp only
      rw [if_pos rfl, List.append_nil]
      exact hg
    | .threw what =>
      dsimp only
      rw [List.append_nil]
      exact hg
    | .crashed =>
      dsimp only
      rw [List.append_nil]
      exact hg

/-- the file after any run of requests -/
theorem run_grown (ps : List Bytes) (sv : Server) {base : Bytes} {acked : List Mutation}
    (h : sv.wal.Grown base acked) :
    (executeAll execute sv ps).2.wal.Grown base
      (acked ++ acknowledged ps (executeAll execute sv ps).1) := by
  induction ps generalizing sv acked with
  | nil =>
    rw [executeAll_nil]
    exact (List.append_nil acked).symm ▸ h
  | cons p ps ih =>
    have hstep := ih (sv.execute p).2 (sv.execute_grown h p)
    rw [executeAll_cons]
    rw [List.append_assoc] at hstep
    exact hstep

/-- **the answers of a server whose log is closed**: it does not change any more -/
theorem execute_closed (sv : Server) (hp : sv.wal.path ≠ []) (hfd : sv.wal.fd = none) (p : Bytes) :
    (sv.execute p).2 = sv ∧
      ∀ c, parseCommand p = .ok c →
        ∃ response, (sv.execute p).1 = .returned response ∧ Refuses sv.store c response := by
  cases hm : recordMutation p with
  | none =>
    obtain ⟨response, e⟩ := sv.execute_other hm
    rw [e]
    refine ⟨rfl, fun c hc => ⟨response, rfl, ?_, ?_⟩⟩
    · intro hne
      exact absurd ((recordMutation_ok hc).symm.trans hm) hne
    · intro k hk
      subst hk
      unfold execute at e
      rw [hc] at e
      dsimp only at e
      unfold getResponse
      cases hg : sv.store.get k with
      | some v =>
        rw [hg] at e
        cases e
        rfl
      | none =>
        rw [hg] at e
        cases e
        rfl
  | some m =>
    rw [sv.execute_mutation hm, sv.wal.appendRecord_closed hp hfd]
    refine ⟨rfl, fun c hc => ⟨_, rfl, fun _ => rfl, ?_⟩⟩
    intro k hk
    subst hk
    rw [recordMutation_ok hc] at hm
    cases hm

theorem run_closed (sv : Server) (hp : sv.wal.path ≠ []) (hfd : sv.wal.fd = none)
    (ps : List Bytes) :
    executeAll execute sv ps = (ps.map fun p => (sv.execute p).1, sv) := by
  induction ps with
  | nil => rfl
  | cons p ps ih => rw [executeAll_cons, (sv.execute_closed hp hfd p).1, ih, List.map_cons]

end Server

/-! ## interleaved requests -/

/-- each store is the replay of some log -/
theorem exists_replay (s : KvStore) : ∃ base, s = replayAll base KvStore.empty := by
  obtain ⟨values⟩ := s
  induction values using Finmap.induction_on with
  | _ l =>
    induction l using AList.insertRec with
    | H0 => exact ⟨[], rfl⟩
    | IH k v l hk ih =>
      obtain ⟨base, e⟩ := ih
      refine ⟨base ++ [.set k v], ?_⟩
      rw [replayAll_concat, ← e, ← Finmap.insert_toFinmap]
      rfl

namespace System
variable {Tid : Type} [DecidableEq Tid]

theorem step_grown {base : Bytes} {x x' : System Tid} (h : x.wal.Grown base x.logged)
    (hstep : Step x x') : x'.wal.Grown base x'.logged := by
  cases hstep with
  | append t i c m wal hpc he => exact append_grown h he
  | refuse t i c m wal hpc he => exact append_grown h he
  | request t p c hpc hp hc hk => exact h
  | read t i k hpc => exact h
  | lock t i c m hpc hm hfree => exact h
  | apply t i c m hpc => exact h
  | unlock t i c r hpc => exact h
  | respond t i c r hpc => exact h

/-- `z` comes after `y`, in which the log was closed and no thread had a record to apply: the log
and the store are those of `y`, the next append is refused, and a response is one that a thread
already had in `y` or that of a closed log -/
structure Stopped (y z : System Tid) : Prop where
  wal : z.wal = y.wal
  store : z.store = y.store
  logged : z.logged = y.logged
  refused : ∀ record, z.wal.appendRecord record = (.returned false, z.wal)
  applied : ∀ t i c m, z.pc t ≠ .logged i c m
  responses : ∀ t i c r, z.pc t = .unlocking i c r ∨ z.pc t = .done i c r →
    Refuses y.store c r ∨ y.pc t = .done i c r

section
variable {y z : System Tid} (h : y.Stopped z)
include h

/-- the thread `t` moves to `p`, and nothing else that `Stopped` looks at changes -/
theorem Stopped.goto {z' : System Tid} {t : Tid} {p : Pc} (hpc : z'.pc = (z.goto t p).pc)
    (hwal : z'.wal = z.wal) (hstore : z'.store = z.store) (hlogged : z'.logged = z.logged)
    (hp : ∀ i c m, p ≠ .logged i c m)
    (hr : ∀ i c r, p = .unlocking i c r ∨ p = .done i c r →
      Refuses y.store c r ∨ y.pc t = .done i c r) : y.Stopped z' := by
  refine ⟨hwal.trans h.wal, hstore.trans h.store, hlogged.trans h.logged, ?_, ?_, ?_⟩
  · rw [hwal]
    exact h.refused
  · intro t' i c m
    rw [hpc]
    by_cases ht : t' = t
    · subst ht
      rw [pc_goto]
      exact hp i c m
    · rw [pc_goto_ne z ht]
      exact h.applied t' i c m
  · intro t' i c r
    rw [hpc]
    by_cases ht : t' = t
    · subst ht
      rw [pc_goto]
      exact hr i c r
    · rw [pc_goto_ne z ht]
      exact h.responses t' i c r

theorem step_stopped {z' : System Tid} (hstep : Step z z')
    (hlocked : ∀ t i c m, z.pc t = .locked i c m → c.mutation = some m) : y.Stopped z' := by
  cases hstep with
  | request t p c hpc hp hc hk =>
    refine h.goto (t := t) rfl rfl rfl rfl nofun ?_
    intro i c' r e
    rcases e with e | e <;> cases e
  | read t i k hpc =>
    refine h.goto (t := t) rfl rfl rfl rfl nofun ?_
    intro i' c r e
    rcases e with e | e
    · cases e
    · cases e
      refine Or.inl ⟨fun hne => absurd rfl hne, ?_⟩
      intro k' hk
      cases hk
      rw [h.store]
  | lock t i c m hpc hm hfree =>
    refine h.goto (t := t) rfl rfl rfl rfl nofun ?_
    intro i' c' r e
    rcases e with e | e <;> cases e
  | append t i c m wal hpc he =>
    rw [h.refused] at he
    cases he
  | refuse t i c m wal hpc he =>
    rw [h.refused] at he
    cases he
    refine h.goto (t := t) rfl rfl rfl rfl nofun ?_
    intro i' c' r e
    rcases e with e | e
    · cases e
      refine Or.inl ⟨fun _ => rfl, ?_⟩
      intro k hk
      subst hk
      have hm := hlocked t i _ m hpc
      cases hm
    · cases e
  | apply t i c m hpc => exact absurd hpc (h.applied t i c m)
  | unlock t i c r hpc =>
    refine h.goto (t := t) rfl rfl rfl rfl nofun ?_
    intro i' c' r' e
    rcases e with e | e
    · cases e
    · cases e
      exact h.responses t i c r (Or.inl hpc)
  | respond t i c r hpc =>
    refine h.goto (t := t) rfl rfl rfl rfl nofun ?_
    intro i' c' r' e
    rcases e with e | e <;> cases e

end

section
variable {sv : Server} {x : System Tid} (hx : Relation.ReflTransGen Step (init sv) x)
include hx

/-- a thread takes the mutex for the mutation of its request -/
theorem locked_mutation {t : Tid} {i : ℕ} {c : Command} {m : Mutation}
    (hpc : x.pc t = .locked i c m) : c.mutation = some m := by
  obtain ⟨a, hsim, _⟩ := Atomic.linearization_of_simulation MapSpec (init_sim sv) step_sim hx
  have ha := hsim.requests.agrees t
  rw [hpc] at ha
  exact ha.2

theorem run_grown (hp : sv.wal.path ≠ []) : x.wal.Grown sv.wal.file.content x.logged := by
  induction hx with
  | refl => exact grown_nil sv.wal hp
  | tail _ hstep ih => exact step_grown ih hstep

/-- the thread whose append fails holds the mutex, so no other is between log and store -/
theorem refuse_stopped {t : Tid} {i : ℕ} {c : Command} {m : Mutation} {wal : Wal}
    (hp : x.wal.path ≠ []) (hpc : x.pc t = .locked i c m)
    (he : x.wal.appendRecord m.record = (.returned false, wal)) (y : System Tid)
    (hy : y = { x.goto t (.unlocking i c (ascii "ERR WAL failure")) with wal := wal }) :
    y.Stopped y := by
  obtain ⟨base, hbase⟩ := exists_replay sv.store
  have hsafe : x.Safe base := by
    clear hpc he hp hy
    induction hx with
    | refl => exact init_safe sv hbase
    | tail _ hstep ih => exact step_safe ih hstep
  have hin : x.mutex = some t := hsafe.held (by rw [hpc]; rfl)
  have halone : ∀ t', (x.pc t').holds = true → t' = t := by
    intro t' ht'
    rw [hsafe.mutex t', hin] at ht'
    exact (Option.some.inj ht').symm
  obtain ⟨hfd, hpath⟩ := Wal.appendRecord_false hp he
  subst hy
  refine ⟨rfl, rfl, rfl, ?_, ?_, ?_⟩
  · exact wal.appendRecord_closed (by rw [hpath]; exact hp) hfd
  · intro t' i' c' m' e
    by_cases ht : t' = t
    · subst ht
      rw [show _ = Pc.unlocking i c (ascii "ERR WAL failure") from pc_goto x t' _] at e
      cases e
    · have e' : x.pc t' = .logged i' c' m' := (pc_goto_ne x ht _).symm.trans e
      exact ht (halone t' (by rw [e']; rfl))
  · intro t' i' c' r e
    by_cases ht : t' = t
    · subst ht
      rw [show _ = Pc.unlocking i c (ascii "ERR WAL failure") from pc_goto x t' _] at e
      rcases e with e | e
      · cases e
        refine Or.inl ⟨fun _ => rfl, ?_⟩
        intro k hk
        subst hk
        have hm := locked_mutation hx hpc
        cases hm
      · cases e
    · rcases e with e | e
      · have e' : x.pc t' = .unlocking i' c' r := (pc_goto_ne x ht _).symm.trans e
        exact absurd (halone t' (by rw [e']; rfl)) ht
      · exact Or.inr e

end

/-- nothing changes after a failed append -/
theorem run_stopped {sv : Server} {y z : System Tid}
    (hy : Relation.ReflTransGen Step (init sv) y) (h : y.Stopped y)
    (hz : Relation.ReflTransGen Step y z) : y.Stopped z := by
  induction hz with
  | refl => exact h
  | tail hrun hstep ih =>
    exact step_stopped ih hstep fun t i c m hpc => locked_mutation (hy.trans hrun) hpc

end System

/-- **A failed append is fail-stop.**  For a server with a log, whatever the outcomes of `write`
and `fsync`: after any requests the file holds the acknowledged records, synced, and behind them
at most a part of one record; a `SET` or `DEL` whose append returns `false` is answered
`ERR WAL failure`, the store is as before, and from then on the server does not change: each `SET`
and `DEL` is refused, and `GET` answers from that store.  The same holds for any interleaving of
the threads. -/
theorem fail_stop (sv : Server) (hp : sv.wal.path ≠ []) :
    (∀ before sv₁ outcomes, executeAll Server.execute sv before = (outcomes, sv₁) →
      sv₁.wal.Grown sv.wal.file.content (acknowledged before outcomes) ∧
      ∀ p m wal, recordMutation p = some m →
        sv₁.wal.appendRecord m.record = (.returned false, wal) →
        ∃ sv₂ : Server, sv₁.execute p = (.returned (ascii "ERR WAL failure"), sv₂) ∧
          sv₂ = { sv₁ with wal := wal } ∧ sv₂.store = sv₁.store ∧
          (∀ after, executeAll Server.execute sv₂ after
            = (after.map fun q => (sv₂.execute q).1, sv₂)) ∧
          ∀ q c, parseCommand q = .ok c →
            ∃ response, (sv₂.execute q).1 = .returned response ∧ Refuses sv₁.store c response) ∧
    (∀ (Tid : Type) [DecidableEq Tid] (x : System Tid),
      Relation.ReflTransGen System.Step (System.init sv) x →
      x.wal.Grown sv.wal.file.content x.logged ∧
      ∀ t i c m wal, x.pc t = .locked i c m →
        x.wal.appendRecord m.record = (.returned false, wal) →
        ∃ y : System Tid, System.Step x y ∧ y.store = x.store ∧ y.wal = wal ∧
          y.pc t = .unlocking i c (ascii "ERR WAL failure") ∧
          ∀ z, Relation.ReflTransGen System.Step y z → y.Stopped z) := by
  constructor
  · intro before sv₁ outcomes hrun
    have hg := Server.run_grown before sv (grown_nil sv.wal hp)
    rw [hrun, List.nil_append] at hg
    refine ⟨hg, ?_⟩
    intro p m wal hm ha
    obtain ⟨hfd, hpath⟩ := Wal.appendRecord_false hg.path ha
    have hp' : wal.path ≠ [] := by
      rw [hpath]
      exact hg.path
    refine ⟨{ sv₁ with wal := wal }, ?_, rfl, rfl, Server.run_closed _ hp' hfd, ?_⟩
    · rw [sv₁.execute_mutation hm, ha]
    · intro q c hc
      exact (Server.execute_closed _ hp' hfd q).2 c hc
  · intro Tid _ x hx
    have hg := System.run_grown hx hp
    refine ⟨hg, ?_⟩
    intro t i c m wal hpc ha
    have hstep := System.Step.refuse x t i c m wal hpc ha
    refine ⟨_, hstep, rfl, rfl, System.pc_goto x t _, ?_⟩
    intro z hz
    exact System.run_stopped (hx.tail hstep)
      (System.refuse_stopped hx hg.path hpc ha _ rfl) hz

/-- a server with an empty log, whose `write` gives `ENOSPC` after three bytes -/
def fullDisk : Server :=
  { logServer with wal := ⟨[119], some ⟨[.count 3, .failed (.other 28)], []⟩, ⟨[], []⟩⟩ }

/-- a `SET` is cut after three bytes of its frame, and the `DEL` after it is refused -/
theorem fail_stop_cut :
    ∃ sv₂, fullDisk.execute (ascii "SET k v") = (.returned (ascii "ERR WAL failure"), sv₂) ∧
      sv₂.store = fullDisk.store ∧ sv₂.wal.file.content = [0, 0, 0] ∧
      ∃ response, (sv₂.execute (ascii "DEL k")).1 = .returned response ∧
        Refuses fullDisk.store (.del [107]) response := by
  obtain ⟨h, _⟩ := fail_stop fullDisk (by decide)
  obtain ⟨_, h⟩ := h [] fullDisk [] rfl
  obtain ⟨sv₂, h1, h2, h3, _, h4⟩ := h (ascii "SET k v") (.set [107] [118]) _ (by decide) rfl
  exact ⟨sv₂, h1, h3, by rw [h2]; rfl, h4 (ascii "DEL k") (.del [107]) (by decide)⟩

end NetForge
