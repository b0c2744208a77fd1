import SystemsCourse.NetForge.Recovery

/-!
# The server: construction, execution of a request, one connection

Model of `capstone/reference/src/server.cpp`.  `Server.execute` runs one request to its end;
the interleaving of several clients is in `NetForge.Concurrent`.  `handleClient` is the loop of
one connection; it is written over an arbitrary `execute`, as the loop knows nothing else of the
server.

`execute_mutation` says what a `SET` or `DEL` does in terms of `Wal.appendRecord`, and
`appendRecord_cases` what an append does to the log.
-/

set_option linter.unusedVariables false

namespace NetForge
open Wire Stream

structure ServerOptions where
  workers : Nat := 4
  queueCapacity : Nat := 64
  maxPayload : Nat := 64 * 1024
  walPath : Bytes := []
deriving DecidableEq, Repr

/-- what `execute` and the constructor use of the thread pool -/
structure Pool where
  workers : Nat
  queueCapacity : Nat
  submitted : UInt64
  completed : UInt64
deriving DecidableEq, Repr

structure Server where
  options : ServerOptions
  store : KvStore
  wal : Wal
  pool : Pool
  /-- empty unless the constructor gave up -/
  error : Bytes
  /-- `static_cast<bool>(listener_)` -/
  ready : Bool
deriving DecidableEq

namespace Server

/-- the constructor.  `opened` is the descriptor of the log, `io` the outcomes of the calls of the
recovery, `listenError` the text of a failed `open_listener`. -/
def new (options : ServerOptions) (opened : Option AppendIo) (file : WalFile) (io : RecoverIo)
    (listenError : Option Bytes) : Outcome Unit × Server :=
  let server : Server :=
    ⟨options, KvStore.empty, Wal.new options.walPath opened file,
      ⟨max 1 options.workers, max 1 options.queueCapacity, 0, 0⟩, [], false⟩
  if options.maxPayload > kDefaultMaxPayload then
    (.returned (),
      { server with error := ascii "max_payload exceeds the supported protocol limit" })
  else if options.walPath ≠ [] ∧ server.wal.enabled = false then
    (.returned (), { server with error := ascii "could not open the configured write-ahead log" })
  else
    match server.wal.recover server.store io with
    | (none, store, file') =>
      (.crashed, { server with store := store, wal := { server.wal with file := file' } })
    | (some false, store, file') =>
      (.returned (), { server with
        store := store, wal := { server.wal with file := file' },
        error := ascii "could not recover the write-ahead log" })
    | (some true, store, file') =>
      let server' := { server with store := store, wal := { server.wal with file := file' } }
      match listenError with
      | some what => (.returned (), { server' with error := what })
      | none => (.returned (), { server' with ready := true })

/-- the text of the `Stats` handler -/
def statsText (keys submitted completed : UInt64) : Bytes :=
  ascii "keys=" ++ ascii (toString keys.toNat) ++ ascii " submitted="
    ++ ascii (toString submitted.toNat) ++ ascii " completed=" ++ ascii (toString completed.toNat)

def execute (sv : Server) (request : Bytes) : Outcome Bytes × Server :=
  match parseCommand request with
  | .error e => (.returned (ascii "ERR " ++ e.message), sv)
  | .ok .ping => (.returned (ascii "PONG"), sv)
  | .ok .stats =>
    (.returned (statsText sv.store.size sv.pool.submitted sv.pool.completed), sv)
  | .ok (.get key) =>
    match sv.store.get key with
    | some value => (.returned (ascii "VALUE " ++ value), sv)
    | none => (.returned (ascii "NOT_FOUND"), sv)
  | .ok (.del key) =>
    match sv.wal.appendDel key with
    | (.returned false, wal) => (.returned (ascii "ERR WAL failure"), { sv with wal := wal })
    | (.returned true, wal) =>
      let (erased, store) := sv.store.erase key
      (.returned (if erased then ascii "DELETED" else ascii "NOT_FOUND"),
        { sv with wal := wal, store := store })
    | (.threw what, wal) => (.threw what, { sv with wal := wal })
    | (.crashed, wal) => (.crashed, { sv with wal := wal })
  | .ok (.set key value) =>
    match sv.wal.appendSet key value with
    | (.returned false, wal) => (.returned (ascii "ERR WAL failure"), { sv with wal := wal })
    | (.returned true, wal) =>
      (.returned (ascii "OK"), { sv with wal := wal, store := sv.store.set key value })
    | (.threw what, wal) => (.threw what, { sv with wal := wal })
    | (.crashed, wal) => (.crashed, { sv with wal := wal })

/-- the answer to a mutation that was logged -/
def answer (m : Mutation) (store : KvStore) : Bytes :=
  match m with
  | .set _ _ => ascii "OK"
  | .del k => if (store.erase k).1 then ascii "DELETED" else ascii "NOT_FOUND"

/-- a `SET` or `DEL` is logged first; only a logged one reaches the store -/
theorem execute_mutation (sv : Server) {p : Bytes} {m : Mutation} (h : recordMutation p = some m) :
    sv.execute p =
      match sv.wal.appendRecord m.record with
      | (.returned true, wal) =>
        (.returned (answer m sv.store), { sv with wal := wal, store := m.apply sv.store })
      | (.returned false, wal) => (.returned (ascii "ERR WAL failure"), { sv with wal := wal })
      | (.threw what, wal) => (.threw what, { sv with wal := wal })
      | (.crashed, wal) => (.crashed, { sv with wal := wal }) := by
  obtain ⟨c, hc, hm⟩ := recordMutation_some h
  unfold execute
  rw [hc]
  cases c with
  | set k v =>
    cases hm
    dsimp only
    rw [show sv.wal.appendSet k v = sv.wal.appendRecord (Mutation.record (.set k v)) from rfl]
    rcases sv.wal.appendRecord (Mutation.record (.set k v)) with ⟨o, wal⟩
    match o with
    | .returned true => rfl
    | .returned false => rfl
    | .threw what => rfl
    | .crashed => rfl
  | del k =>
    cases hm
    dsimp only
    rw [show sv.wal.appendDel k = sv.wal.appendRecord (Mutation.record (.del k)) from rfl]
    rcases sv.wal.appendRecord (Mutation.record (.del k)) with ⟨o, wal⟩
    match o with
    | .returned true => rfl
    | .returned false => rfl
    | .threw what => rfl
    | .crashed => rfl
  | ping => cases hm
  | stats => cases hm
  | get k => cases hm

/-- any other request is answered without touching the store or the log -/
theorem execute_other (sv : Server) {p : Bytes} (h : recordMutation p = none) :
    ∃ response, sv.execute p = (.returned response, sv) := by
  unfold execute
  unfold recordMutation at h
  cases hp : parseCommand p with
  | error e => exact ⟨_, rfl⟩
  | ok c =>
    rw [hp] at h
    cases c with
    | ping => exact ⟨_, rfl⟩
    | stats => exact ⟨_, rfl⟩
    | get k =>
      cases hg : sv.store.get k with
      | some v => exact ⟨ascii "VALUE " ++ v, by simp only [hg]⟩
      | none => exact ⟨ascii "NOT_FOUND", by simp only [hg]⟩
    | set k v => cases h
    | del k => cases h

/-- the machine does not stop in a call on the log -/
def CrashFree (sv : Server) : Prop := ∀ io, sv.wal.fd = some io → io.CrashFree

/-- a request within the protocol limit is answered -/
theorem execute_returns (sv : Server) (hc : sv.CrashFree) {p : Bytes}
    (hp : p.length ≤ kDefaultMaxPayload) :
    ∃ response sv', sv.execute p = (.returned response, sv') ∧ sv'.CrashFree := by
  cases hm : recordMutation p with
  | none =>
    obtain ⟨response, e⟩ := sv.execute_other hm
    exact ⟨response, sv, e, hc⟩
  | some m =>
    rw [sv.execute_mutation hm]
    by_cases hpath : sv.wal.path = []
    · have e : sv.wal.appendRecord m.record = (.returned true, sv.wal) := by
        unfold Wal.appendRecord
        rw [if_pos hpath]
      rw [e]
      exact ⟨_, _, rfl, hc⟩
    · have hr : m.record.length < 2^32 :=
        lt_of_le_of_lt ((record_of_parse hm).1.trans hp) (by decide)
      rcases sv.wal.appendRecord_cases m.record hpath hr with
        ⟨_, e⟩ | ⟨io, io', hio, hl, e⟩ | ⟨n, _, e⟩ | ⟨io, file', hio, hcr, _⟩
      · rw [e]
        exact ⟨_, _, rfl, hc⟩
      · rw [e]
        refine ⟨_, _, rfl, ?_⟩
        intro io'' h
        cases h
        exact hl.crashFree (hc io hio)
      · rw [e]
        exact ⟨_, _, rfl, fun io'' h => by cases h⟩
      · exact absurd (hc io hio) hcr

end Server

/-! ## one connection -/

/-- the socket of a client, and the values that the next loads of `stop_requested_` give (`false`
beyond the end of the list) -/
structure Client where
  input : Source
  output : Sink
  stops : List Bool
deriving DecidableEq, Repr

section
variable {σ : Type} (execute : σ → Bytes → Outcome Bytes × σ) (maxPayload : Nat)

/-- a frame that was received leaves fewer bytes to read -/
theorem recvFrame_ok_lt {r : Source} {max : Nat} (h : (recvFrame r max).1.status = .ok) :
    (recvFrame r max).2.unread.length < r.unread.length := by
  cases hf : firstFrame headerSize max r.unread with
  | some pr =>
    obtain ⟨r', e, hu, _⟩ := recvFrame_some r max pr.1 pr.2 hf
    rw [e]
    dsimp only
    rw [hu]
    exact firstFrame_rest_lt hf
  | none =>
    by_cases ho : Oversized max r.unread
    · obtain ⟨r', e, _⟩ := recvFrame_oversized r max ho
      rw [e] at h
      cases h
    · obtain ⟨r', e, _⟩ := recvFrame_short r max hf ho
      rw [e] at h
      exact absurd h (endStatus_ne_ok _)

/-- `Server::handle_client`: how it ends, the payloads that `execute` was called on, the state
and the socket afterwards -/
def handleClient (s : σ) (client : Client) : Outcome Unit × List Bytes × σ × Client :=
  let stop := client.stops.head?.getD false
  let client := { client with stops := client.stops.tail }
  if stop then (.returned (), [], s, client)
  else
    let received := recvFrame client.input maxPayload
    if hf : received.1.status ≠ .ok then
      if received.1.status = .tooLarge then
        match sendFrame client.output (ascii "ERR frame too large") with
        | .error what => (.threw what, [], s, { client with input := received.2 })
        | .ok (_, output) =>
          (.returned (), [], s, { client with input := received.2, output := output })
      else (.returned (), [], s, { client with input := received.2 })
    else
      let payload := received.1.payload
      match execute s payload with
      | (.threw what, s') => (.threw what, [payload], s', { client with input := received.2 })
      | (.crashed, s') => (.crashed, [payload], s', { client with input := received.2 })
      | (.returned response, s') =>
        match sendFrame client.output response with
        | .error what => (.threw what, [payload], s', { client with input := received.2 })
        | .ok (result, output) =>
          let client' := { client with input := received.2, output := output }
          if result.status ≠ .ok then (.returned (), [payload], s', client')
          else
            let (outcome, executed, s'', client'') := handleClient s' client'
            (outcome, payload :: executed, s'', client'')
termination_by client.input.unread.length
decreasing_by exact recvFrame_ok_lt (Decidable.not_not.mp hf)

end

/-- the connection loop of a server -/
def Server.handleClient (sv : Server) (client : Client) :
    Outcome Unit × List Bytes × Server × Client :=
  NetForge.handleClient Server.execute sv.options.maxPayload sv client

end NetForge
