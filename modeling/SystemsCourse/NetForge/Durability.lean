import SystemsCourse.NetForge.Server

/-!
# Acknowledged mutations survive crashes

A machine runs one server after another on the same log file.  Its steps are `Event`s: a start, a
request, and a crash, which keeps what was synced and some part of what was written since.  A
crash may also be the outcome of a call inside a request or a recovery.

`World.past` and the `Lifetime` of the running server record what the clients were told: which
mutations were acknowledged, and the first one whose append failed or did not come back.
`Explains` says which histories fit such a record.

* `Holds file ls`     the file is made of logged mutations and a torn tail, and however much of
                      its unsynced part is lost, the rest is a history that `ls` explains;
* `step_inv`          each event keeps the invariant `World.Inv`;
* `durability`        in each state of each run, recovery gives a history that `past` explains.
-/

set_option linter.unusedVariables false

namespace NetForge
open Wire Stream

/-! ## the machine -/

/-- what the clients of one server were told -/
structure Lifetime where
  /-- answered `OK`, `DELETED` or `NOT_FOUND`, in order -/
  acked : List Mutation
  /-- the first mutation whose append failed, or during which the machine stopped -/
  pending : Option Mutation
deriving DecidableEq

/-- a mutation and how its execution ended -/
def Lifetime.note (l : Lifetime) (m : Mutation) : Outcome Bytes → Lifetime
  | .returned response =>
    if response = ascii "ERR WAL failure" then { l with pending := l.pending <|> some m }
    else { l with acked := l.acked ++ [m] }
  | _ => { l with pending := l.pending <|> some m }

/-- what a crash leaves of the file -/
def WalFile.crash (f : WalFile) (keep : Nat) : WalFile := { f with unsynced := f.unsynced.take keep }

inductive Machine where
  | down (file : WalFile)
  | up (server : Server) (current : Lifetime)

structure World where
  machine : Machine
  past : List Lifetime

def World.initial : World := ⟨.down ⟨[], []⟩, []⟩

inductive Event where
  | start (options : ServerOptions) (opened : Option AppendIo) (io : RecoverIo)
      (listenError : Option Bytes)
  | request (payload : Bytes)
  | crash (keep : Nat)

/-- there is a log, and its file is not taken away between the constructor of `Wal`, which creates it, and
the recovery; a recovery may fail at any of its calls, or the machine stop in it -/
def Event.Assumed : Event → Prop
  | .start options _ io _ => options.walPath ≠ [] ∧ io.openError ≠ some true
  | _ => True

/-- `recvFrame` passes on no payload beyond the limit; a server that did not become ready is gone -/
def World.step (w : World) (e : Event) : World :=
  match w.machine, e with
  | .down file, .start options opened io listenError =>
    let sv := (Server.new options opened file io listenError).2
    if sv.ready then ⟨.up sv ⟨[], none⟩, w.past⟩ else ⟨.down sv.wal.file, w.past⟩
  | .down file, .crash keep => ⟨.down (file.crash keep), w.past⟩
  | .down _, .request _ => w
  | .up _ _, .start _ _ _ _ => w
  | .up sv current, .crash keep => ⟨.down (sv.wal.file.crash keep), w.past ++ [current]⟩
  | .up sv current, .request p =>
    if p.length ≤ sv.options.maxPayload then
      let (outcome, sv') := sv.execute p
      let current' := match recordMutation p with
        | some m => current.note m outcome
        | none => current
      match outcome with
      | .crashed => ⟨.down sv'.wal.file, w.past ++ [current']⟩
      | _ => ⟨.up sv' current', w.past⟩
    else w

def World.run (w : World) (events : List Event) : World := events.foldl World.step w

/-- histories that fit what the clients of earlier servers were told: all that was acknowledged,
in order, and after it at most the pending mutation of that server -/
inductive Explains : List Lifetime → List Mutation → Prop
  | nil : Explains [] []
  | lost {ls ms} (l : Lifetime) (h : Explains ls ms) : Explains (ls ++ [l]) (ms ++ l.acked)
  | kept {ls ms} (l : Lifetime) (m : Mutation) (h : Explains ls ms) (hm : l.pending = some m) :
      Explains (ls ++ [l]) (ms ++ l.acked ++ [m])

theorem Explains.inv {ls : List Lifetime} {l : Lifetime} {ms : List Mutation}
    (h : Explains (ls ++ [l]) ms) (hp : l.pending = none) :
    ∃ ms', Explains ls ms' ∧ ms = ms' ++ l.acked := by
  generalize hls : ls ++ [l] = ls' at h
  cases h with
  | nil => simp at hls
  | lost l' h' =>
    obtain ⟨rfl, hl⟩ := List.append_inj' hls rfl
    cases hl
    exact ⟨_, h', rfl⟩
  | kept l' m h' hm =>
    obtain ⟨rfl, hl⟩ := List.append_inj' hls rfl
    cases hl
    rw [hp] at hm
    cases hm

/-! ## the file -/

/-- a mutation whose record `recover` accepts -/
def Mutation.Loggable (m : Mutation) : Prop :=
  m.record.length ≤ kDefaultMaxPayload ∧ recordMutation m.record = some m

theorem loggable_of_request {p : Bytes} {m : Mutation} (h : recordMutation p = some m)
    (hp : p.length ≤ kDefaultMaxPayload) : m.Loggable :=
  ⟨(record_of_parse h).1.trans hp, (record_of_parse h).2⟩

theorem Mutation.Loggable.lt {m : Mutation} (h : m.Loggable) : m.record.length < 2^32 :=
  lt_of_le_of_lt h.1 (by decide)

/-- the log of a list of mutations -/
def logOf (ms : List Mutation) : Bytes := frames headerSize (ms.map Mutation.record)

theorem logOf_append (a b : List Mutation) : logOf (a ++ b) = logOf a ++ logOf b := by
  rw [logOf, List.map_append, frames_append]
  rfl
theorem logOf_concat (a : List Mutation) (m : Mutation) :
    logOf (a ++ [m]) = logOf a ++ frame headerSize m.record := by
  rw [logOf_append]
  exact congrArg (logOf a ++ ·) (frames_singleton _ _)

/-- nothing, or a part of the frame of a record within the limit -/
def Torn (t : Bytes) : Prop :=
  t = [] ∨ ∃ r : Bytes, r.length ≤ kDefaultMaxPayload ∧ t <+: frame headerSize r ∧
    t ≠ frame headerSize r

theorem Torn.take {t : Bytes} (h : Torn t) (k : Nat) : Torn (t.take k) := by
  rcases h with rfl | ⟨r, hr, hp, hne⟩
  · exact Or.inl List.take_nil
  · refine Or.inr ⟨r, hr, (List.take_prefix _ _).trans hp, ?_⟩
    intro h
    refine hne (hp.eq_of_length_le ?_)
    rw [← h]
    exact List.length_take_le' _ _

theorem Torn.firstFrame {t : Bytes} (h : Torn t) (max : Nat) : firstFrame headerSize max t = none := by
  rcases h with rfl | ⟨r, hr, hp, hne⟩
  · rfl
  · exact firstFrame_cut _ _ r t (lt_of_le_of_lt hr (by decide)) hp hne

theorem Torn.not_oversized {t : Bytes} (h : Torn t) : ¬ Oversized kDefaultMaxPayload t := by
  rintro ⟨hl, hm⟩
  rcases h with rfl | ⟨r, hr, ⟨s, hs⟩, _⟩
  · simp at hl
  · have e : t.take headerSize = toBE headerSize r.length := by
      have h1 := take_frame_append headerSize r []
      rw [List.append_nil, ← hs, List.take_append_of_le_length hl] at h1
      exact h1
    rw [e, ofBE_toBE _ _ (lt_of_le_of_lt hr (by decide))] at hm
    omega

section
variable {ms : List Mutation} (hms : ∀ m ∈ ms, m.Loggable) {t : Bytes} (ht : Torn t)
include hms ht

theorem completeFrames_log : completeFrames (logOf ms ++ t) = (ms.map Mutation.record, t) := by
  refine splitFrames_unique headerSize (2^32 - 1) _ t ?_ (ht.firstFrame _)
  intro p hp
  obtain ⟨m, hm, rfl⟩ := List.mem_map.mp hp
  have := (hms m hm).lt
  exact ⟨by omega, this⟩

theorem recoverable_log : Recoverable (logOf ms ++ t) := by
  unfold Recoverable
  rw [completeFrames_log hms ht]
  refine ⟨?_, ht.not_oversized⟩
  intro p hp
  obtain ⟨m, hm, rfl⟩ := List.mem_map.mp hp
  exact (loggable_iff _).mpr ⟨(hms m hm).1, m, (hms m hm).2⟩

omit ht in
theorem mutations_records : mutations (ms.map Mutation.record) = ms := by
  induction ms with
  | nil => rfl
  | cons m ms ih =>
    rw [List.map_cons, mutations_cons (hms m (List.mem_cons_self ..)).2,
      ih (fun m' h => hms m' (List.mem_cons_of_mem _ h))]

/-- a crash cuts the log between two records or inside one -/
theorem take_log (k : Nat) :
    ∃ n t', (logOf ms ++ t).take k = logOf (ms.take n) ++ t' ∧ Torn t' := by
  by_cases hk : k ≤ (logOf ms).length
  · obtain ⟨n, c, e, hc⟩ := take_frames headerSize (ms.map Mutation.record) k
    refine ⟨n, c, ?_, ?_⟩
    · rw [List.take_append_of_le_length hk, logOf, e, logOf, List.map_take]
    · rcases hc with hc | ⟨p, hp, hc⟩
      · exact Or.inl hc
      · obtain ⟨m, hm, rfl⟩ := List.mem_map.mp hp
        exact Or.inr ⟨m.record, (hms m hm).1, hc⟩
  · refine ⟨ms.length, t.take (k - (logOf ms).length), ?_, ht.take _⟩
    rw [List.take_append, List.take_of_length_le (by omega), List.take_length]

end

/-- the file is made of `synced` and `unsynced` mutations and `tail` -/
structure Layout (file : WalFile) (synced unsynced : List Mutation) (tail : Bytes) : Prop where
  synced_eq : file.synced = logOf synced
  unsynced_eq : file.unsynced = logOf unsynced ++ tail
  loggable : ∀ m ∈ synced ++ unsynced, m.Loggable
  torn : Torn tail

/-- however much of the unsynced part is lost, what is left is explained -/
def Fitting (ls : List Lifetime) (synced unsynced : List Mutation) : Prop :=
  ∀ n, Explains ls (synced ++ unsynced.take n)

def Holds (file : WalFile) (ls : List Lifetime) : Prop :=
  ∃ s u t, Layout file s u t ∧ Fitting ls s u

theorem Fitting.all {ls : List Lifetime} {s u : List Mutation} (h : Fitting ls s u) :
    Explains ls (s ++ u) := by
  have := h u.length
  rwa [List.take_length] at this

theorem fitting_nil {ls : List Lifetime} {s : List Mutation} (h : Explains ls s) :
    Fitting ls s [] := by
  intro n
  rwa [List.take_nil, List.append_nil]

namespace Layout
variable {file : WalFile} {s u : List Mutation} {t : Bytes} (h : Layout file s u t)
include h

theorem content : file.content = logOf (s ++ u) ++ t := by
  rw [WalFile.content, h.synced_eq, h.unsynced_eq, logOf_append, List.append_assoc]

/-- after a sync there is no unsynced part -/
theorem sync (ht : t = []) : Layout file.sync (s ++ u) [] [] := by
  refine ⟨?_, rfl, ?_, Or.inl rfl⟩
  · show file.content = _
    rw [h.content, ht, List.append_nil]
  · rw [List.append_nil]
    exact h.loggable

theorem appendFrame (ht : t = []) {m : Mutation} (hm : m.Loggable) :
    Layout (file.append (frame headerSize m.record)) s (u ++ [m]) [] := by
  refine ⟨h.synced_eq, ?_, ?_, Or.inl rfl⟩
  · show file.unsynced ++ _ = _
    rw [h.unsynced_eq, ht, List.append_nil, List.append_nil, logOf_concat]
  · intro m' hm'
    rw [← List.append_assoc, List.mem_append, List.mem_singleton] at hm'
    rcases hm' with hm' | rfl
    · exact h.loggable m' hm'
    · exact hm

/-- a part of a frame is a whole record or a torn tail -/
theorem appendPart (ht : t = []) {m : Mutation} (hm : m.Loggable) (n : Nat) :
    (∃ t', Layout (file.append ((frame headerSize m.record).take n)) s u t') ∨
      Layout (file.append ((frame headerSize m.record).take n)) s (u ++ [m]) [] := by
  by_cases he : (frame headerSize m.record).take n = frame headerSize m.record
  · rw [he]
    exact Or.inr (h.appendFrame ht hm)
  · refine Or.inl ⟨(frame headerSize m.record).take n, h.synced_eq, ?_, h.loggable,
      Or.inr ⟨m.record, hm.1, List.take_prefix _ _, he⟩⟩
    show file.unsynced ++ _ = _
    rw [h.unsynced_eq, ht, List.append_nil]

/-- without the tail it is what a crash may leave as well -/
theorem truncate_eq : file.truncate (logOf (s ++ u)).length = file.crash (logOf u).length := by
  have hlen : (logOf (s ++ u)).length = file.synced.length + (logOf u).length := by
    rw [h.synced_eq, logOf_append, List.length_append]
  unfold WalFile.truncate WalFile.crash
  rw [hlen, Nat.add_sub_cancel_left, List.take_of_length_le (Nat.le_add_right _ _)]

theorem cut : Layout (file.truncate (logOf (s ++ u)).length) s u [] := by
  rw [h.truncate_eq]
  refine ⟨h.synced_eq, ?_, h.loggable, Or.inl rfl⟩
  show file.unsynced.take _ = _
  rw [h.unsynced_eq, List.take_left' rfl, List.append_nil]

theorem completeFrames : completeFrames file.content = ((s ++ u).map Mutation.record, t) := by
  rw [h.content, completeFrames_log h.loggable h.torn]

theorem recoverable : Recoverable file.content := by
  rw [h.content]
  exact recoverable_log h.loggable h.torn

/-- what a recovery that succeeds does with such a file: it replays its mutations and removes the tail -/
theorem recovered (store : KvStore) :
    ∃ file', recovered file store 0 file.content = (some true, replayAll (s ++ u) store, file') ∧
      (Layout file' s u [] ∨ Layout file' (s ++ u) [] []) := by
  rw [NetForge.recovered, if_pos h.recoverable, h.completeFrames]
  dsimp only
  rw [mutations_records h.loggable, Nat.zero_add]
  refine ⟨_, rfl, ?_⟩
  by_cases ht : t = []
  · rw [if_pos ht]
    subst ht
    exact .inl h
  · rw [if_neg ht]
    exact .inr (h.cut.sync rfl)

/-- **recovery of such a file** -/
theorem recover (wal : Wal) (hw : wal.file = file) (hp : wal.path ≠ []) (io : RecoverIo)
    (hio : io.NoErrors) (store : KvStore) :
    ∃ file', wal.recover store io = (some true, replayAll (s ++ u) store, file') ∧
      (Layout file' s u [] ∨ Layout file' (s ++ u) [] []) := by
  rw [recover_eq wal store io hp hio, hw]
  exact h.recovered store

/-- **recovery of such a file, whatever the calls do**: it succeeds as above, or the file is still one of
these mutations -/
theorem recover_any (wal : Wal) (hw : wal.file = file) (hp : wal.path ≠ []) (io : RecoverIo)
    (hopen : io.openError ≠ some true) (store : KvStore) :
    ∃ result store' file', wal.recover store io = (result, store', file') ∧
      (result = some true → store' = replayAll (s ++ u) store ∧
        (Layout file' s u [] ∨ Layout file' (s ++ u) [] [])) ∧
      ((∃ t', Layout file' s u t') ∨ Layout file' (s ++ u) [] []) := by
  rcases hrec : wal.recover store io with ⟨result, store', file'⟩
  refine ⟨result, store', file', rfl, ?_⟩
  have hn : (logOf (s ++ u)).length
      = (frames headerSize (NetForge.completeFrames wal.file.content).1).length := by
    rw [hw, h.completeFrames]
    rfl
  have hcases := recover_cases wal store io hp hopen hn
  rw [hrec, hw] at hcases
  rcases hcases with e | ⟨hne, hfile⟩
  · obtain ⟨file', e', hl⟩ := h.recovered store
    rw [e'] at e
    cases e
    exact ⟨fun _ => ⟨rfl, hl⟩, hl.imp_left fun hl => ⟨[], hl⟩⟩
  · refine ⟨fun hc => absurd hc hne, ?_⟩
    rcases hfile with rfl | ⟨_, rfl | rfl⟩
    · exact .inl ⟨t, h⟩
    · exact .inl ⟨[], h.cut⟩
    · exact .inr (h.cut.sync rfl)

end Layout

theorem Holds.crash {file : WalFile} {ls : List Lifetime} (h : Holds file ls) (keep : Nat) :
    Holds (file.crash keep) ls := by
  obtain ⟨s, u, t, hl, hf⟩ := h
  obtain ⟨n, t', e, ht'⟩ :=
    take_log (fun m hm => hl.loggable m (List.mem_append_right s hm)) hl.torn keep
  refine ⟨s, u.take n, t', ⟨hl.synced_eq, ?_, ?_, ht'⟩, ?_⟩
  · show file.unsynced.take keep = _
    rw [hl.unsynced_eq, e]
  · intro m hm
    refine hl.loggable m ?_
    rcases List.mem_append.mp hm with hm | hm
    · exact List.mem_append_left _ hm
    · exact List.mem_append_right _ (List.mem_of_mem_take hm)
  · intro k
    rw [List.take_take]
    exact hf _

/-! ## one step -/

section
variable {past : List Lifetime} {c : Lifetime} {s u : List Mutation} {m : Mutation}

theorem Explains.failed {ms : List Mutation} (h : Explains (past ++ [c]) ms) (m : Mutation) :
    Explains (past ++ [{ c with pending := c.pending <|> some m }]) ms := by
  cases hp : c.pending with
  | none =>
    obtain ⟨ms', h', rfl⟩ := h.inv hp
    exact .lost { c with pending := none <|> some m } h'
  | some m' =>
    have hc : ({ c with pending := some m' <|> some m } : Lifetime) = c := by
      cases c
      cases hp
      rfl
    rw [hc]
    exact h

/-- the mutation was logged and acknowledged -/
theorem Fitting.acked (h : Fitting (past ++ [c]) s u) (hp : c.pending = none) (m : Mutation) :
    Fitting (past ++ [{ c with acked := c.acked ++ [m] }]) (s ++ (u ++ [m])) [] := by
  obtain ⟨ms, hx, e⟩ := h.all.inv hp
  refine fitting_nil ?_
  rw [← List.append_assoc, e, List.append_assoc]
  exact .lost { c with acked := c.acked ++ [m] } hx

/-- the mutation was not acknowledged, and is not in the file -/
theorem Fitting.failed (h : Fitting (past ++ [c]) s u) (m : Mutation) :
    Fitting (past ++ [{ c with pending := c.pending <|> some m }]) s u :=
  fun n => (h n).failed m

theorem Fitting.kept_all (h : Fitting (past ++ [c]) s u) (hp : c.pending = none) (m : Mutation) :
    Explains (past ++ [{ c with pending := c.pending <|> some m }]) (s ++ (u ++ [m])) := by
  obtain ⟨ms, hx, e⟩ := h.all.inv hp
  rw [← List.append_assoc, e, hp]
  exact .kept { c with pending := none <|> some m } m hx rfl

/-- the mutation was not acknowledged, and is in the file -/
theorem Fitting.kept (h : Fitting (past ++ [c]) s u) (hp : c.pending = none) (m : Mutation) :
    Fitting (past ++ [{ c with pending := c.pending <|> some m }]) s (u ++ [m]) := by
  intro n
  by_cases hn : n ≤ u.length
  · rw [List.take_append_of_le_length hn]
    exact (h n).failed m
  · rw [List.take_of_length_le (by rw [List.length_append, List.length_singleton]; omega)]
    exact h.kept_all hp m

end

/-- the invariant of the machine; a server that still appends has no torn tail behind it -/
def World.Inv (w : World) : Prop :=
  match w.machine with
  | .down file => Holds file w.past
  | .up sv c => sv.wal.path ≠ [] ∧ sv.options.maxPayload ≤ kDefaultMaxPayload ∧
    ∃ s u t, Layout sv.wal.file s u t ∧ Fitting (w.past ++ [c]) s u ∧
      (sv.wal.fd ≠ none → t = [] ∧ c.pending = none)

theorem Server.answer_ne (m : Mutation) (store : KvStore) :
    Server.answer m store ≠ ascii "ERR WAL failure" := by
  cases m with
  | set k v => exact (by decide : ascii "OK" ≠ ascii "ERR WAL failure")
  | del k =>
    unfold Server.answer
    dsimp only
    split
    · decide
    · decide

/-- a start on a file that holds explained histories: it recovers one of them, or leaves such a file -/
theorem Server.new_holds {file : WalFile} {past : List Lifetime} (h : Holds file past)
    (options : ServerOptions) (opened : Option AppendIo) (io : RecoverIo)
    (listenError : Option Bytes) (hp : options.walPath ≠ []) (hopen : io.openError ≠ some true) :
    World.Inv (World.step ⟨.down file, past⟩ (.start options opened io listenError)) := by
  obtain ⟨s, u, t, hl, hf⟩ := h
  have hw : (Wal.new options.walPath opened file) = ⟨options.walPath, opened, file⟩ := if_neg hp
  obtain ⟨result, store, file', e, hdone, hleft⟩ :=
    hl.recover_any ⟨options.walPath, opened, file⟩ rfl hp io hopen KvStore.empty
  have hholds : Holds file' past := by
    rcases hleft with ⟨t', hl'⟩ | hl'
    · exact ⟨s, u, t', hl', hf⟩
    · exact ⟨s ++ u, [], [], hl', fitting_nil hf.all⟩
  unfold World.step
  dsimp only
  unfold Server.new
  rw [hw]
  dsimp only
  split
  · exact ⟨s, u, t, hl, hf⟩
  · rename_i hmax
    split
    · exact ⟨s, u, t, hl, hf⟩
    · rw [e]
      match result with
      | none => exact hholds
      | some false => exact hholds
      | some true =>
        dsimp only
        cases listenError with
        | some what => exact hholds
        | none =>
          have hnew : ∃ s' u', Layout file' s' u' [] ∧ Fitting past s' u' := by
            rcases (hdone rfl).2 with hl' | hl'
            · exact ⟨s, u, hl', hf⟩
            · exact ⟨s ++ u, [], hl', fitting_nil hf.all⟩
          obtain ⟨s', u', hl', hf'⟩ := hnew
          refine ⟨hp, by dsimp only; omega, s', u', [], hl', ?_, fun _ => ⟨rfl, rfl⟩⟩
          intro n
          have := Explains.lost ⟨[], none⟩ (hf' n)
          rwa [List.append_nil] at this

/-- a mutation: logged and acknowledged, or not acknowledged and the last one of this server -/
theorem World.step_mutation {past : List Lifetime} {sv : Server} {c : Lifetime}
    (h : World.Inv ⟨.up sv c, past⟩) {p : Bytes} {m : Mutation} (hm : recordMutation p = some m)
    (hlen : p.length ≤ sv.options.maxPayload) :
    World.Inv (World.step ⟨.up sv c, past⟩ (.request p)) := by
  obtain ⟨hp, hmax, s, u, t, hl, hf, hfd⟩ := h
  have hlog : m.Loggable := loggable_of_request hm (hlen.trans hmax)
  unfold World.step
  dsimp only
  rw [if_pos hlen, sv.execute_mutation hm, hm]
  rcases sv.wal.appendRecord_cases m.record hp hlog.lt with
    ⟨hn, e⟩ | ⟨io, io', hio, _, e⟩ | ⟨n, hio, e⟩ | ⟨io, file', hio, _, hfile, e⟩
  · -- the log was closed by an earlier failure
    rw [e]
    exact ⟨hp, hmax, s, u, t, hl, hf.failed m, fun h => absurd hn h⟩
  · obtain ⟨ht, hpend⟩ := hfd (by rw [hio]; exact Option.some_ne_none _)
    rw [e]
    dsimp only
    rw [show c.note m (.returned (Server.answer m sv.store))
      = { c with acked := c.acked ++ [m] } from if_neg (Server.answer_ne m sv.store)]
    exact ⟨hp, hmax, _, [], [], (hl.appendFrame ht hlog).sync rfl, hf.acked hpend m,
      fun _ => ⟨rfl, hpend⟩⟩
  · obtain ⟨ht, hpend⟩ := hfd hio
    rw [e]
    rcases hl.appendPart ht hlog n with ⟨t', hl'⟩ | hl'
    · exact ⟨hp, hmax, s, u, t', hl', hf.failed m, fun h => absurd rfl h⟩
    · exact ⟨hp, hmax, s, u ++ [m], [], hl', hf.kept hpend m, fun h => absurd rfl h⟩
  · obtain ⟨ht, hpend⟩ := hfd (by rw [hio]; exact Option.some_ne_none _)
    rw [e]
    rcases hfile with rfl | ⟨n, rfl⟩
    · exact ⟨_, [], [], (hl.appendFrame ht hlog).sync rfl, fitting_nil (hf.kept_all hpend m)⟩
    · rcases hl.appendPart ht hlog n with ⟨t', hl'⟩ | hl'
      · exact ⟨s, u, t', hl', hf.failed m⟩
      · exact ⟨s, u ++ [m], [], hl', hf.kept hpend m⟩

theorem World.step_inv (w : World) (h : w.Inv) (e : Event) (he : e.Assumed) : (w.step e).Inv := by
  obtain ⟨machine, past⟩ := w
  cases machine with
  | down file =>
    cases e with
    | start options opened io listenError =>
      exact Server.new_holds h options opened io listenError he.1 he.2
    | request p => exact h
    | crash keep => exact Holds.crash h keep
  | up sv c =>
    cases e with
    | start options opened io listenError => exact h
    | crash keep =>
      obtain ⟨_, _, s, u, t, hl, hf, _⟩ := h
      exact Holds.crash ⟨s, u, t, hl, hf⟩ keep
    | request p =>
      by_cases hlen : p.length ≤ sv.options.maxPayload
      · cases hm : recordMutation p with
        | some m => exact World.step_mutation h hm hlen
        | none =>
          obtain ⟨response, e⟩ := sv.execute_other hm
          unfold World.step
          dsimp only
          rw [if_pos hlen, e, hm]
          exact h
      · unfold World.step
        dsimp only
        rw [if_neg hlen]
        exact h

theorem World.run_inv (w : World) (h : w.Inv) (events : List Event)
    (he : ∀ e ∈ events, e.Assumed) : (w.run events).Inv := by
  induction events generalizing w with
  | nil => exact h
  | cons e events ih =>
    exact ih (w.step e) (w.step_inv h e (he e (List.mem_cons_self ..)))
      (fun e' h' => he e' (List.mem_cons_of_mem _ h'))

theorem World.initial_inv : World.initial.Inv :=
  ⟨[], [], [], ⟨rfl, rfl, nofun, Or.inl rfl⟩, fitting_nil .nil⟩

/-! ## every restart -/

theorem Server.new_of_recover {options : ServerOptions} {ap : AppendIo} {file file' : WalFile}
    {io : RecoverIo} {store : KvStore} (hp : options.walPath ≠ [])
    (hmax : options.maxPayload ≤ kDefaultMaxPayload)
    (e : Wal.recover ⟨options.walPath, some ap, file⟩ KvStore.empty io
      = (some true, store, file')) :
    Server.new options (some ap) file io none
      = (.returned (), ⟨options, store, ⟨options.walPath, some ap, file'⟩,
          ⟨max 1 options.workers, max 1 options.queueCapacity, 0, 0⟩, [], true⟩) := by
  have hw : Wal.new options.walPath (some ap) file = ⟨options.walPath, some ap, file⟩ := if_neg hp
  unfold Server.new
  dsimp only
  rw [if_neg (by omega), hw, if_neg (by simp [Wal.enabled]), e]

/-- **Durability across crashes**, also in the middle of a recovery.  Whenever the machine is down, the
next recovery whose calls do not fail succeeds and gives the store of a history that fits what the clients
of all earlier servers were told: all that was acknowledged, in order, and per server at most its pending
mutation after that. -/
theorem durability (events : List Event) (he : ∀ e ∈ events, e.Assumed) (file : WalFile)
    (past : List Lifetime) (h : World.initial.run events = ⟨.down file, past⟩)
    (options : ServerOptions) (opened : Option AppendIo) (io : RecoverIo)
    (hp : options.walPath ≠ []) (hio : io.NoErrors) :
    ∃ ms file', Explains past ms ∧
      (Wal.new options.walPath opened file).recover KvStore.empty io
        = (some true, replayAll ms KvStore.empty, file') ∧
      (opened ≠ none → options.maxPayload ≤ kDefaultMaxPayload →
        ∃ sv, Server.new options opened file io none = (.returned (), sv) ∧ sv.ready = true ∧
          sv.store = replayAll ms KvStore.empty) := by
  have hinv := World.initial.run_inv World.initial_inv events he
  rw [h] at hinv
  obtain ⟨s, u, t, hl, hf⟩ := hinv
  have hw : Wal.new options.walPath opened file = ⟨options.walPath, opened, file⟩ := if_neg hp
  obtain ⟨file', e, _⟩ :=
    hl.recover ⟨options.walPath, opened, file⟩ rfl hp io hio KvStore.empty
  refine ⟨s ++ u, file', hf.all, by rw [hw, e], ?_⟩
  intro ho hmax
  obtain ⟨ap, rfl⟩ := Option.ne_none_iff_exists'.mp ho
  exact ⟨_, Server.new_of_recover hp hmax e, rfl, rfl⟩

/-- a server that starts on an empty log -/
theorem World.step_start_empty (past : List Lifetime) (options : ServerOptions) (ap : AppendIo)
    (io : RecoverIo) (hp : options.walPath ≠ []) (hmax : options.maxPayload ≤ kDefaultMaxPayload)
    (hio : io.NoErrors) :
    World.step ⟨.down ⟨[], []⟩, past⟩ (.start options (some ap) io none)
      = ⟨.up ⟨options, KvStore.empty, ⟨options.walPath, some ap, ⟨[], []⟩⟩,
          ⟨max 1 options.workers, max 1 options.queueCapacity, 0, 0⟩, [], true⟩ ⟨[], none⟩,
          past⟩ := by
  have e : Wal.recover ⟨options.walPath, some ap, ⟨[], []⟩⟩ KvStore.empty io
      = (some true, KvStore.empty, ⟨[], []⟩) := by
    rw [recover_eq _ _ io hp hio]
    exact recovered_nil _ _ _
  unfold World.step
  dsimp only
  rw [Server.new_of_recover hp hmax e]
  rfl

/-- the machine stops in the recovery -/
theorem World.step_start_stopped (past : List Lifetime) (options : ServerOptions) {ap : AppendIo}
    {file file' : WalFile} {io : RecoverIo} {store : KvStore} (hp : options.walPath ≠ [])
    (hmax : options.maxPayload ≤ kDefaultMaxPayload)
    (e : Wal.recover ⟨options.walPath, some ap, file⟩ KvStore.empty io = (none, store, file')) :
    World.step ⟨.down file, past⟩ (.start options (some ap) io none) = ⟨.down file', past⟩ := by
  have hw : Wal.new options.walPath (some ap) file = ⟨options.walPath, some ap, file⟩ := if_neg hp
  have hnew : (Server.new options (some ap) file io none).2
      = ⟨options, store, ⟨options.walPath, some ap, file'⟩,
          ⟨max 1 options.workers, max 1 options.queueCapacity, 0, 0⟩, [], false⟩ := by
    unfold Server.new
    dsimp only
    rw [if_neg (by omega), hw, if_neg (by simp [Wal.enabled]), e]
  unfold World.step
  dsimp only
  rw [hnew]
  rfl

/-- `SET k v` is logged, the machine stops in the sync of `DEL k`, a part of its record is lost, and the
machine stops in the next recovery before the rest of it is cut off -/
def tornEvents : List Event :=
  [.start { walPath := [119] } (some ⟨[.count 3, .eintr], [.eintr, .ok, .crash false]⟩)
      ⟨none, [], .eof, [], []⟩ none,
    .request (ascii "SET k v"), .request (ascii "DEL k"), .crash 6,
    .start { walPath := [119] } (some ⟨[], []⟩) ⟨none, [.count 1], .eof, [.crash false], []⟩ none]

theorem tornEvents_run : World.initial.run tornEvents =
    ⟨.down ⟨logOf [.set [107] [118]], (logOf [.del [107]]).take 6⟩,
      [⟨[.set [107] [118]], some (.del [107])⟩]⟩ := by
  have hs := World.step_start_empty [] { walPath := [119] }
    ⟨[.count 3, .eintr], [.eintr, .ok, .crash false]⟩ ⟨none, [], .eof, [], []⟩ (by decide) (by decide)
    ⟨rfl, rfl, by decide, by decide⟩
  have hserved := (congrArg (fun w => List.foldl World.step w
    [.request (ascii "SET k v"), .request (ascii "DEL k"), .crash 6]) hs).trans (b := World.mk _ _) rfl
  have hrecover : Wal.recover ⟨[119], some ⟨[], []⟩, ⟨logOf [.set [107] [118]], (logOf [.del [107]]).take 6⟩⟩
      KvStore.empty ⟨none, [.count 1], .eof, [.crash false], []⟩
        = (none, replayAll [.set [107] [118]] KvStore.empty,
          ⟨logOf [.set [107] [118]], (logOf [.del [107]]).take 6⟩) := by decide +kernel
  have hstopped := World.step_start_stopped [⟨[.set [107] [118]], some (.del [107])⟩]
    { walPath := [119] } (by decide) (by decide) hrecover
  exact (congrArg (World.step · _) hserved).trans hstopped

theorem durability_torn :
    World.initial.run tornEvents = ⟨.down ⟨logOf [.set [107] [118]], (logOf [.del [107]]).take 6⟩,
      [⟨[.set [107] [118]], some (.del [107])⟩]⟩ ∧
    ∃ ms file', Explains [⟨[.set [107] [118]], some (.del [107])⟩] ms ∧
      (Wal.new [119] none ⟨logOf [.set [107] [118]], (logOf [.del [107]]).take 6⟩).recover KvStore.empty
          ⟨none, [.count 1, .eintr], .eof, [.eintr], []⟩
        = (some true, replayAll ms KvStore.empty, file') ∧
      (replayAll ms KvStore.empty).get [107] = some [118] := by
  obtain ⟨ms, file', h1, h2, _⟩ := durability tornEvents
    (by
      intro e h
      rcases List.mem_cons.mp h with rfl | h
      · exact ⟨by decide, by decide⟩
      · simp only [List.mem_cons, List.not_mem_nil, or_false] at h
        rcases h with rfl | rfl | rfl | rfl
        · trivial
        · trivial
        · trivial
        · exact ⟨by decide, by decide⟩)
    _ _ tornEvents_run { walPath := [119] } none ⟨none, [.count 1, .eintr], .eof, [.eintr], []⟩
    (by decide) ⟨rfl, rfl, by decide, by decide⟩
  have hget : ((Wal.new [119] none ⟨logOf [.set [107] [118]], (logOf [.del [107]]).take 6⟩).recover
      KvStore.empty ⟨none, [.count 1, .eintr], .eof, [.eintr], []⟩).2.1.get [107] = some [118] := by
    decide +kernel
  rw [h2] at hget
  exact ⟨tornEvents_run, ms, file', h1, h2, hget⟩

end NetForge
