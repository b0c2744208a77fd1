import SystemsCourse.NetForge.Protocol
import SystemsCourse.NetForge.Store

/-!
# The write-ahead log

Model of `capstone/reference/src/wal.cpp`.

The log file is `synced ++ unsynced`: its content at the last `fsync` that succeeded, and what was
written since.  A descriptor carries the outcomes of its next calls, as in `Lib.Stream`; besides
the outcomes that come back, a call may be the one in which the machine stops (`crash`).  A loop
then has no result (`none`), and the file is what had reached it.

* `writeFileAll`, `syncFile`, `repairTornTail`   the loops of the anonymous namespace;
* `Wal.appendRecord`                             append, and stop accepting writes on a failure;
* `Wal.recover`                                  read the log back, cut a torn tail.

`appendRecord_cases` says what a call of `appendRecord` can do to the log; nothing else is used of
the loops of an append.
-/

set_option linter.unusedVariables false

namespace NetForge
open Wire Stream

/-- how a call of the server ends: it returns, it throws, or the machine stops in it -/
inductive Outcome (α : Type) where
  | returned (a : α)
  | threw (what : Bytes)
  | crashed
deriving DecidableEq, Repr

/-! ## the file -/

/-- outcome of a `write` on the log that is still to come; `crash n` stops the machine after at
most `n` of the bytes have reached the file -/
inductive FileEvent where
  | count (n : Nat)
  | eintr
  | failed (e : Errno)
  | crash (n : Nat)
deriving DecidableEq, Repr

/-- outcome of an `fsync` or `ftruncate` that is still to come; `crash done` stops the machine
after or before the call took effect -/
inductive CallEvent where
  | ok
  | eintr
  | failed (e : Errno)
  | crash (done : Bool)
deriving DecidableEq, Repr

structure WalFile where
  synced : Bytes
  unsynced : Bytes
deriving DecidableEq, Repr

namespace WalFile

def content (f : WalFile) : Bytes := f.synced ++ f.unsynced

def append (f : WalFile) (b : Bytes) : WalFile := { f with unsynced := f.unsynced ++ b }

def sync (f : WalFile) : WalFile := ⟨f.content, []⟩

def truncate (f : WalFile) (n : Nat) : WalFile :=
  ⟨f.synced.take n, f.unsynced.take (n - f.synced.length)⟩

@[simp] theorem content_append (f : WalFile) (b : Bytes) :
    (f.append b).content = f.content ++ b := by
  simp [content, append]

@[simp] theorem content_sync (f : WalFile) : f.sync.content = f.content := by
  simp [content, sync]

@[simp] theorem content_truncate (f : WalFile) (n : Nat) :
    (f.truncate n).content = f.content.take n := by
  simp [content, truncate, List.take_append]

end WalFile

/-- `write_file_all`: `rest` is what is still to be written -/
def writeFileAll (file : WalFile) (rest : Bytes) :
    List FileEvent → Option Bool × WalFile × List FileEvent
  | [] => (some true, file.append rest, [])
  | e :: events =>
    if rest = [] then (some true, file, e :: events)
    else
      match e with
      | .count n =>
        if 0 < min n rest.length then
          writeFileAll (file.append (rest.take (min n rest.length)))
            (rest.drop (min n rest.length)) events
        else (some false, file, events)
      | .eintr => writeFileAll file rest events
      | .failed _ => (some false, file, events)
      | .crash n => (none, file.append (rest.take n), events)

/-- a call that is repeated on `EINTR` and has the effect `act` when it succeeds -/
def retryCall (act : WalFile → WalFile) (file : WalFile) :
    List CallEvent → Option Bool × WalFile × List CallEvent
  | [] => (some true, act file, [])
  | .ok :: events => (some true, act file, events)
  | .eintr :: events => retryCall act file events
  | .failed _ :: events => (some false, file, events)
  | .crash done :: events => (none, if done then act file else file, events)

def syncFile (file : WalFile) (events : List CallEvent) :
    Option Bool × WalFile × List CallEvent :=
  retryCall WalFile.sync file events

/-- outcomes of the calls on the descriptor that `recover` opens -/
structure RecoverIo where
  /-- `open`: `none` is success, `some true` is `ENOENT`, `some false` any other error -/
  openError : Option Bool
  reads : List ReadEvent
  readEnd : Ending Errno
  truncates : List CallEvent
  syncs : List CallEvent
deriving DecidableEq, Repr

def repairTornTail (file : WalFile) (completeSize : Nat) (io : RecoverIo) :
    Option Bool × WalFile :=
  match retryCall (fun f => f.truncate completeSize) file io.truncates with
  | (some true, file', _) =>
    let (result, file'', _) := syncFile file' io.syncs
    (result, file'')
  | (result, file', _) => (result, file')

/-! ## `Wal` -/

/-- outcomes of the calls on the descriptor `fd_` -/
structure AppendIo where
  writes : List FileEvent
  syncs : List CallEvent
deriving DecidableEq, Repr

/-- `fd = none` is a closed descriptor (`fd_.get() < 0`) -/
structure Wal where
  path : Bytes
  fd : Option AppendIo
  file : WalFile
deriving DecidableEq, Repr

namespace Wal

/-- the constructor; `opened` is the descriptor that `create_directories` and `open` gave -/
def new (path : Bytes) (opened : Option AppendIo) (file : WalFile) : Wal :=
  if path = [] then ⟨path, none, file⟩ else ⟨path, opened, file⟩

def enabled (wal : Wal) : Bool := wal.fd.isSome

def appendRecord (wal : Wal) (record : Bytes) : Outcome Bool × Wal :=
  if wal.path = [] then (.returned true, wal)
  else
    match wal.fd with
    | none => (.returned false, wal)
    | some io =>
      match encodeFrame record with
      | .error what => (.threw what, wal)
      | .ok frame =>
        match writeFileAll wal.file frame io.writes with
        | (some true, file, writes) =>
          match syncFile file io.syncs with
          | (some true, file', syncs) =>
            (.returned true, { wal with fd := some ⟨writes, syncs⟩, file := file' })
          | (some false, file', _) => (.returned false, { wal with fd := none, file := file' })
          | (none, file', _) => (.crashed, { wal with fd := none, file := file' })
        | (some false, file, _) => (.returned false, { wal with fd := none, file := file })
        | (none, file, _) => (.crashed, { wal with fd := none, file := file })

/-- the text that `append_set` builds -/
def setRecord (key value : Bytes) : Bytes := ascii "SET " ++ key ++ ascii " " ++ value

/-- the text that `append_del` builds -/
def delRecord (key : Bytes) : Bytes := ascii "DEL " ++ key

def appendSet (wal : Wal) (key value : Bytes) : Outcome Bool × Wal :=
  wal.appendRecord (setRecord key value)

def appendDel (wal : Wal) (key : Bytes) : Outcome Bool × Wal := wal.appendRecord (delRecord key)

end Wal

/-! ## what an append does to the file -/

/-- no call on the descriptor is the one in which the machine stops -/
def AppendIo.CrashFree (io : AppendIo) : Prop :=
  (∀ n, FileEvent.crash n ∉ io.writes) ∧ (∀ d, CallEvent.crash d ∉ io.syncs)

theorem writeFileAll_cases (events : List FileEvent) (file : WalFile) (rest : Bytes) :
    ∃ result n events', writeFileAll file rest events = (result, file.append (rest.take n), events') ∧
      events' <:+ events ∧ (result = some true → n = rest.length) ∧
      (result = none → ∃ k, FileEvent.crash k ∈ events) := by
  have hnil : ∀ f : WalFile, f.append [] = f := fun f => by simp [WalFile.append]
  induction events generalizing file rest with
  | nil =>
    exact ⟨some true, rest.length, [], by rw [List.take_length]; rfl, List.suffix_refl _,
      fun _ => rfl, nofun⟩
  | cons e events ih =>
    by_cases hr : rest = []
    · refine ⟨some true, 0, e :: events, ?_, List.suffix_refl _, fun _ => by rw [hr]; rfl,
        nofun⟩
      rw [List.take_zero, hnil]
      unfold writeFileAll
      rw [if_pos hr]
    · cases e with
      | count n =>
        by_cases hk : 0 < min n rest.length
        · obtain ⟨result, m, events', e', hs, ht, hc⟩ :=
            ih (file.append (rest.take (min n rest.length))) (rest.drop (min n rest.length))
          refine ⟨result, min n rest.length + m, events', ?_, hs.trans (List.suffix_cons _ _),
            ?_, ?_⟩
          · unfold writeFileAll
            rw [if_neg hr]
            dsimp only
            rw [if_pos hk, e', List.take_add]
            simp [WalFile.append]
          · intro h
            have := ht h
            rw [List.length_drop] at this
            omega
          · intro h
            obtain ⟨k, hk⟩ := hc h
            exact ⟨k, List.mem_cons_of_mem _ hk⟩
        · refine ⟨some false, 0, events, ?_, List.suffix_cons _ _, nofun,
            nofun⟩
          rw [List.take_zero, hnil]
          unfold writeFileAll
          rw [if_neg hr]
          dsimp only
          rw [if_neg hk]
      | eintr =>
        obtain ⟨result, m, events', e', hs, ht, hc⟩ := ih file rest
        refine ⟨result, m, events', ?_, hs.trans (List.suffix_cons _ _), ht, ?_⟩
        · unfold writeFileAll
          rw [if_neg hr]
          exact e'
        · intro h
          obtain ⟨k, hk⟩ := hc h
          exact ⟨k, List.mem_cons_of_mem _ hk⟩
      | failed err =>
        refine ⟨some false, 0, events, ?_, List.suffix_cons _ _, nofun,
          nofun⟩
        rw [List.take_zero, hnil]
        unfold writeFileAll
        rw [if_neg hr]
      | crash n =>
        refine ⟨none, n, events, ?_, List.suffix_cons _ _, nofun,
          fun _ => ⟨n, List.mem_cons_self ..⟩⟩
        unfold writeFileAll
        rw [if_neg hr]

theorem retryCall_cases (act : WalFile → WalFile) (events : List CallEvent) (file : WalFile) :
    ∃ result file' events', retryCall act file events = (result, file', events') ∧
      events' <:+ events ∧ (result = some true → file' = act file) ∧
      (result = some false → file' = file) ∧
      (result = none → (file' = act file ∨ file' = file) ∧ ∃ d, CallEvent.crash d ∈ events) := by
  induction events with
  | nil =>
    exact ⟨some true, act file, [], rfl, List.suffix_refl _, fun _ => rfl, nofun,
      nofun⟩
  | cons e events ih =>
    cases e with
    | ok =>
      exact ⟨some true, act file, events, rfl, List.suffix_cons _ _, fun _ => rfl, nofun, nofun⟩
    | eintr =>
      obtain ⟨result, file', events', e', hs, h1, h2, h3⟩ := ih
      refine ⟨result, file', events', e', hs.trans (List.suffix_cons _ _), h1, h2, ?_⟩
      intro h
      obtain ⟨hf, d, hd⟩ := h3 h
      exact ⟨hf, d, List.mem_cons_of_mem _ hd⟩
    | failed err =>
      exact ⟨some false, file, events, rfl, List.suffix_cons _ _, nofun,
        fun _ => rfl, nofun⟩
    | crash d =>
      refine ⟨none, if d then act file else file, events, rfl, List.suffix_cons _ _,
        nofun, nofun, fun _ => ⟨?_, d, List.mem_cons_self ..⟩⟩
      cases d with
      | true => exact Or.inl rfl
      | false => exact Or.inr rfl

/-- what is left of the outcomes of a descriptor after some calls -/
def AppendIo.Later (io' io : AppendIo) : Prop :=
  io'.writes <:+ io.writes ∧ io'.syncs <:+ io.syncs

theorem AppendIo.Later.crashFree {io' io : AppendIo} (h : io'.Later io) (hc : io.CrashFree) :
    io'.CrashFree :=
  ⟨fun n hn => hc.1 n (h.1.subset hn), fun d hd => hc.2 d (h.2.subset hd)⟩

/-- **what `appendRecord` can do**: it is refused, it succeeds with the whole frame synced, it
fails with some part of the frame written, or the machine stops in it -/
theorem Wal.appendRecord_cases (wal : Wal) (record : Bytes) (hp : wal.path ≠ [])
    (hr : record.length < 2^32) :
    (wal.fd = none ∧ wal.appendRecord record = (.returned false, wal)) ∨
    (∃ io io', wal.fd = some io ∧ io'.Later io ∧
      wal.appendRecord record = (.returned true,
        { wal with fd := some io', file := (wal.file.append (frame headerSize record)).sync })) ∨
    (∃ n, wal.fd ≠ none ∧ wal.appendRecord record = (.returned false,
        { wal with fd := none, file := wal.file.append ((frame headerSize record).take n) })) ∨
    (∃ io file', wal.fd = some io ∧ ¬ io.CrashFree ∧
      (file' = (wal.file.append (frame headerSize record)).sync ∨
        ∃ n, file' = wal.file.append ((frame headerSize record).take n)) ∧
      wal.appendRecord record = (.crashed, { wal with fd := none, file := file' })) := by
  cases hfd : wal.fd with
  | none =>
    refine Or.inl ⟨rfl, ?_⟩
    unfold Wal.appendRecord
    rw [if_neg hp, hfd]
  | some io =>
    refine Or.inr ?_
    obtain ⟨result, n, writes, ew, hsw, htw, hcw⟩ :=
      writeFileAll_cases io.writes wal.file (frame headerSize record)
    have hstep : wal.appendRecord record =
        match writeFileAll wal.file (frame headerSize record) io.writes with
        | (some true, file, writes) =>
          match syncFile file io.syncs with
          | (some true, file', syncs) =>
            (.returned true, { wal with fd := some ⟨writes, syncs⟩, file := file' })
          | (some false, file', _) => (.returned false, { wal with fd := none, file := file' })
          | (none, file', _) => (.crashed, { wal with fd := none, file := file' })
        | (some false, file, _) => (.returned false, { wal with fd := none, file := file })
        | (none, file, _) => (.crashed, { wal with fd := none, file := file }) := by
      unfold Wal.appendRecord
      rw [if_neg hp, hfd, encodeFrame_ok record hr]
    rw [hstep, ew]
    match result with
    | none =>
      obtain ⟨k, hk⟩ := hcw rfl
      exact Or.inr (Or.inr ⟨io, _, rfl, fun hc => hc.1 k hk, Or.inr ⟨n, rfl⟩, rfl⟩)
    | some false => exact Or.inr (Or.inl ⟨n, by simp, rfl⟩)
    | some true =>
      have hn := htw rfl
      subst hn
      rw [List.take_length]
      dsimp only
      obtain ⟨result', file', syncs, es, hss, h1, h2, h3⟩ :=
        retryCall_cases WalFile.sync io.syncs (wal.file.append (frame headerSize record))
      rw [syncFile, es]
      match result' with
      | none =>
        obtain ⟨hf, d, hd⟩ := h3 rfl
        refine Or.inr (Or.inr ⟨io, file', rfl, fun hc => hc.2 d hd, ?_, rfl⟩)
        rcases hf with hf | hf
        · exact Or.inl hf
        · exact Or.inr ⟨(frame headerSize record).length, by rw [hf, List.take_length]⟩
      | some false =>
        refine Or.inr (Or.inl ⟨(frame headerSize record).length, by simp, ?_⟩)
        rw [h2 rfl, List.take_length]
      | some true =>
        refine Or.inl ⟨io, ⟨writes, syncs⟩, rfl, ⟨hsw, hss⟩, ?_⟩
        rw [h1 rfl]

/-! ## recovery -/

/-- a read that fills the buffer consumed exactly its size -/
theorem readExact_ok {r : Source} {size : Nat} (h : (readExact r size).1.status = .ok) :
    size ≤ r.unread.length ∧ (readExact r size).2.1 = r.unread.take size ∧
      Advanced r (readExact r size).2.2 size := by
  by_cases hs : size ≤ r.unread.length
  · obtain ⟨r', e, ha⟩ := readExact_full r size hs
    rw [e]
    exact ⟨hs, rfl, ha⟩
  · obtain ⟨r', e, _⟩ := readExact_short r size (by omega)
    rw [e] at h
    exact absurd h (endStatus_ne_ok _)

/-- a header and a body that were read leave fewer bytes to read -/
theorem readExact_record_lt {r : Source} {n : Nat} (h : (readExact r headerSize).1.status = .ok)
    (h' : (readExact (readExact r headerSize).2.2 n).1.status = .ok) :
    (readExact (readExact r headerSize).2.2 n).2.2.unread.length < r.unread.length := by
  obtain ⟨hl, _, ha⟩ := readExact_ok h
  obtain ⟨_, _, hb⟩ := readExact_ok h'
  have hpos : headerSize = 4 := rfl
  rw [hb.1, ha.1, List.length_drop, List.length_drop]
  omega

/-- the loop of `Wal::recover`; `file` is the file before the call, which changes only in
`repairTornTail` -/
def recoverLoop (file : WalFile) (io : RecoverIo) (input : Source) (store : KvStore)
    (completeSize : Nat) : Option Bool × KvStore × WalFile :=
  let header := readExact input headerSize
  if header.1.status = .eof then
    if header.1.bytes = 0 then (some true, store, file)
    else
      let (result, file') := repairTornTail file completeSize io
      (result, store, file')
  else if hh : header.1.status ≠ .ok then (some false, store, file)
  else
    let length := ofBE header.2.1
    if length > kDefaultMaxPayload then (some false, store, file)
    else
      let body := readExact header.2.2 length
      if body.1.status = .eof then
        let (result, file') := repairTornTail file completeSize io
        (result, store, file')
      else if hb : body.1.status ≠ .ok then (some false, store, file)
      else
        match parseCommand body.2.1 with
        | .ok (.set k v) => recoverLoop file io body.2.2 (store.set k v) body.2.2.position
        | .ok (.del k) => recoverLoop file io body.2.2 (store.erase k).2 body.2.2.position
        | _ => (some false, store, file)
termination_by input.unread.length
decreasing_by
  all_goals exact readExact_record_lt (Decidable.not_not.mp hh) (Decidable.not_not.mp hb)

/-- `Wal::recover` on the store and the log; `none` if the machine stops in it -/
def Wal.recover (wal : Wal) (store : KvStore) (io : RecoverIo) :
    Option Bool × KvStore × WalFile :=
  if wal.path = [] then (some true, store, wal.file)
  else
    match io.openError with
    | some enoent => (some enoent, store, wal.file)
    | none => recoverLoop wal.file io ⟨wal.file.content, io.readEnd, io.reads, 0⟩ store 0

end NetForge
