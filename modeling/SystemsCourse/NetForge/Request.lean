import SystemsCourse.NetForge.Addresses
import SystemsCourse.NetForge.Responses
import SystemsCourse.NetForge.Session

/-!
# The client

Model of `capstone/reference/src/client.cpp`.  The calls of `connect_with_timeout` are kept in a list, in
their order; the readings of `steady_clock` are in nanoseconds and belong to the schedule.  A round
beyond the end of the schedule finds that the time is over.

* `connect_deadline`     no `poll` waits beyond two seconds after `connect`, and blocking mode is restored;
* `request_descriptors`  every way through `request` closes every socket that it opened;
* `request_served`       `request` against the connection loop of a server.
-/

set_option linter.unusedVariables false

namespace NetForge
open Actions Wire Stream

def eintr : Errno := .other 4
def etimedout : Errno := .other 110
def econnrefused : Errno := .other 111
def einprogress : Errno := .other 115

/-! ## connecting -/

/-- what `poll` gives, and `getsockopt` for `SO_ERROR` if the socket is ready -/
inductive PollOutcome where
  | failed (e : Errno)
  | timedOut
  | ready (socketError : Except Errno (Option Errno))

/-- outcomes of the calls; `started` and the first components of `rounds` are readings of the clock -/
structure ConnectIo where
  getFlags : Except Errno ℕ
  setNonblocking : Option Errno
  connect : Option Errno
  started : ℤ
  rounds : List (ℤ × PollOutcome)
  restore : Option Errno

inductive ConnectCall where
  | setFlags (flags : ℕ)
  | connect
  | poll (now : ℤ) (timeout : ℤ)

def kConnectTimeout : ℤ := 2 * 1000000000

def oNonblock : ℕ := 2048

/-- the loop of `connect_with_timeout`; `none` is the `0` of `result_error` -/
def pollLoop (deadline : ℤ) : List (ℤ × PollOutcome) → Option Errno × List ConnectCall
  | [] => (some etimedout, [])
  | (now, outcome) :: rounds =>
    let remaining := (deadline - now).tdiv 1000000
    if remaining ≤ 0 then (some etimedout, [])
    else
      match outcome with
      | .failed e =>
        if e = eintr then
          let r := pollLoop deadline rounds
          (r.1, .poll now remaining :: r.2)
        else (some e, [.poll now remaining])
      | .timedOut => (some etimedout, [.poll now remaining])
      | .ready (.error e) => (some e, [.poll now remaining])
      | .ready (.ok socketError) => (socketError, [.poll now remaining])

/-- `restore_blocking_mode`: an earlier error is kept -/
def restoreBlockingMode (io : ConnectIo) (originalFlags : ℕ) (resultError : Option Errno) :
    Option Errno × List ConnectCall :=
  (resultError.or io.restore, [.setFlags originalFlags])

/-- `connect_with_timeout`; `none` is `true`, and an error is left in `errno` -/
def connectWithTimeout (io : ConnectIo) : Option Errno × List ConnectCall :=
  match io.getFlags with
  | .error e => (some e, [])
  | .ok originalFlags =>
    let nonblocking := ConnectCall.setFlags (originalFlags ||| oNonblock)
    match io.setNonblocking with
    | some e => (some e, [nonblocking])
    | none =>
      let (resultError, polls) :=
        match io.connect with
        | none => (none, [])
        | some e =>
          -- `EAGAIN` is another name of `EWOULDBLOCK`
          if e ≠ einprogress ∧ e ≠ .ewouldblock ∧ e ≠ .eagain then (some e, [])
          else pollLoop (io.started + kConnectTimeout) io.rounds
      let (result, restored) := restoreBlockingMode io originalFlags resultError
      (result, [nonblocking, .connect] ++ polls ++ restored)

/-- some whole milliseconds are left -/
theorem remaining_pos {deadline now : ℤ} :
    0 < (deadline - now).tdiv 1000000 ↔ now + 1000000 ≤ deadline := by
  rcases Int.le_total 0 (deadline - now) with h | h
  · rw [Int.tdiv_eq_ediv_of_nonneg h]
    omega
  · have hneg : -(deadline - now).tdiv 1000000 = -(deadline - now) / 1000000 := by
      rw [← Int.neg_tdiv, Int.tdiv_eq_ediv_of_nonneg (by omega)]
    omega

theorem remaining_le {deadline now : ℤ} (h : 0 < (deadline - now).tdiv 1000000) :
    now + (deadline - now).tdiv 1000000 * 1000000 ≤ deadline := by
  have := remaining_pos.mp h
  rw [Int.tdiv_eq_ediv_of_nonneg (by omega)]
  omega

/-- a `poll` that begins after `started` and does not wait beyond the deadline -/
def ConnectCall.Timely (started deadline : ℤ) : ConnectCall → Prop
  | .poll now timeout => started ≤ now ∧ 1 ≤ timeout ∧ now + timeout * 1000000 ≤ deadline
  | _ => False

theorem pollLoop_timely {started deadline : ℤ} {rounds : List (ℤ × PollOutcome)}
    (h : ∀ round ∈ rounds, started ≤ round.1) :
    ∀ call ∈ (pollLoop deadline rounds).2, call.Timely started deadline := by
  induction rounds with
  | nil => exact fun call hcall => absurd hcall List.not_mem_nil
  | cons round rounds ih =>
    obtain ⟨now, outcome⟩ := round
    obtain ⟨hnow, hrest⟩ := List.forall_mem_cons.mp h
    unfold pollLoop
    dsimp only
    split
    · exact fun call hcall => absurd hcall List.not_mem_nil
    rename_i hpos
    have hcall : (ConnectCall.poll now ((deadline - now).tdiv 1000000)).Timely started deadline :=
      ⟨hnow, by omega, remaining_le (by omega)⟩
    cases outcome with
    | failed e =>
      dsimp only
      split
      · exact List.forall_mem_cons.mpr ⟨hcall, ih hrest⟩
      · exact List.forall_mem_singleton.mpr hcall
    | timedOut => exact List.forall_mem_singleton.mpr hcall
    | ready socketError =>
      cases socketError with
      | error e => exact List.forall_mem_singleton.mpr hcall
      | ok e => exact List.forall_mem_singleton.mpr hcall

/-- The loop ends without an error if a `poll` before the deadline finds a socket without one, after
interrupted calls only. -/
theorem pollLoop_none {deadline : ℤ} {rounds : List (ℤ × PollOutcome)} :
    (pollLoop deadline rounds).1 = none ↔
      ∃ interrupted now rest, rounds = interrupted ++ (now, .ready (.ok none)) :: rest ∧
        (∀ round ∈ interrupted, round.2 = .failed eintr ∧ round.1 + 1000000 ≤ deadline) ∧
        now + 1000000 ≤ deadline := by
  induction rounds with
  | nil =>
    refine iff_of_false nofun ?_
    rintro ⟨interrupted, now, rest, h, -⟩
    exact absurd h.symm (List.append_ne_nil_of_right_ne_nil _ nofun)
  | cons round rounds ih =>
    obtain ⟨now, outcome⟩ := round
    unfold pollLoop
    dsimp only
    -- the first round is either interrupted or the one that is looked for
    have hcons : (∃ interrupted now' rest,
        (now, outcome) :: rounds = interrupted ++ (now', .ready (.ok none)) :: rest ∧
          (∀ round ∈ interrupted, round.2 = .failed eintr ∧ round.1 + 1000000 ≤ deadline) ∧
          now' + 1000000 ≤ deadline) ↔
        now + 1000000 ≤ deadline ∧
          (outcome = .ready (.ok none) ∨
            outcome = .failed eintr ∧ (pollLoop deadline rounds).1 = none) := by
      rw [ih]
      constructor
      · rintro ⟨interrupted, now', rest, hsplit, hint, hnow⟩
        cases interrupted with
        | nil =>
          cases hsplit
          exact ⟨hnow, .inl rfl⟩
        | cons round interrupted =>
          cases hsplit
          obtain ⟨hround, hint⟩ := List.forall_mem_cons.mp hint
          exact ⟨hround.2, .inr ⟨hround.1, interrupted, now', rest, rfl, hint, hnow⟩⟩
      · rintro ⟨hnow, rfl | ⟨rfl, interrupted, now', rest, rfl, hint, hnow'⟩⟩
        · exact ⟨[], now, rounds, rfl, fun round h => absurd h List.not_mem_nil, hnow⟩
        · exact ⟨(now, .failed eintr) :: interrupted, now', rest, rfl,
            List.forall_mem_cons.mpr ⟨⟨rfl, hnow⟩, hint⟩, hnow'⟩
    rw [hcons, ← remaining_pos]
    split
    · rename_i hle
      exact iff_of_false nofun fun h => absurd h.1 (by omega)
    rename_i hpos
    rw [and_iff_right (show 0 < (deadline - now).tdiv 1000000 by omega)]
    cases outcome with
    | failed e =>
      dsimp only
      by_cases he : e = eintr
      · subst he
        simp
      · simp [he]
    | timedOut => simp
    | ready socketError => cases socketError <;> simp

/-- `connect` succeeded at once, or in the time that is left for it -/
def ConnectIo.Connects (io : ConnectIo) : Prop :=
  io.connect = none ∨
    (io.connect = some einprogress ∨ io.connect = some .ewouldblock ∨ io.connect = some .eagain) ∧
      ∃ interrupted now rest, io.rounds = interrupted ++ (now, .ready (.ok none)) :: rest ∧
        (∀ round ∈ interrupted,
          round.2 = .failed eintr ∧ round.1 + 1000000 ≤ io.started + kConnectTimeout) ∧
        now + 1000000 ≤ io.started + kConnectTimeout

/-- once the socket is nonblocking -/
theorem connectWithTimeout_nonblocking {io : ConnectIo}
    (hclock : ∀ round ∈ io.rounds, io.started ≤ round.1) {flags : ℕ} (hflags : io.getFlags = .ok flags)
    (hset : io.setNonblocking = none) :
    ∃ resultError polls, connectWithTimeout io = (resultError.or io.restore,
        .setFlags (flags ||| oNonblock) :: (.connect :: polls) ++ [.setFlags flags]) ∧
      (∀ call ∈ polls, call.Timely io.started (io.started + kConnectTimeout)) ∧
      (resultError = none ↔ io.Connects) := by
  unfold connectWithTimeout ConnectIo.Connects
  rw [hflags, hset]
  dsimp only
  cases io.connect with
  | none =>
    exact ⟨none, [], rfl, fun call h => absurd h List.not_mem_nil, iff_of_true rfl (.inl rfl)⟩
  | some e =>
    dsimp only
    by_cases he : e ≠ einprogress ∧ e ≠ .ewouldblock ∧ e ≠ .eagain
    · rw [if_pos he]
      refine ⟨some e, [], rfl, fun call h => absurd h List.not_mem_nil, iff_of_false nofun ?_⟩
      rintro (h | ⟨h | h | h, -⟩)
      · exact nomatch h
      · exact he.1 (Option.some.inj h)
      · exact he.2.1 (Option.some.inj h)
      · exact he.2.2 (Option.some.inj h)
    · rw [if_neg he]
      refine ⟨_, _, rfl, pollLoop_timely hclock, ?_⟩
      have hwaits : some e = some einprogress ∨ some e = some .ewouldblock ∨ some e = some .eagain := by
        simp only [Option.some.injEq]
        by_contra hnot
        exact he (by simpa only [not_or] using hnot)
      rw [pollLoop_none, or_iff_right nofun, and_iff_right hwaits]

/-- **Connecting.**  On a clock that does not go back, no `poll` waits for more than two seconds, or
beyond two seconds after the first reading, however often it is interrupted.  Once the socket is
nonblocking, the last call sets its old flags again.  The result is a success exactly if the connection
came about in time and no call failed. -/
theorem connect_deadline (io : ConnectIo) (hclock : ∀ round ∈ io.rounds, io.started ≤ round.1) :
    (∀ now timeout, ConnectCall.poll now timeout ∈ (connectWithTimeout io).2 →
      1 ≤ timeout ∧ timeout ≤ 2000 ∧ now + timeout * 1000000 ≤ io.started + kConnectTimeout) ∧
    (∀ flags, io.getFlags = .ok flags → io.setNonblocking = none →
      ∃ calls, (connectWithTimeout io).2 =
        .setFlags (flags ||| oNonblock) :: calls ++ [.setFlags flags] ∧
        ∀ flags', ConnectCall.setFlags flags' ∉ calls) ∧
    ((connectWithTimeout io).1 = none ↔
      (∃ flags, io.getFlags = .ok flags) ∧ io.setNonblocking = none ∧ io.Connects ∧
        io.restore = none) := by
  cases hflags : io.getFlags with
  | error e =>
    have heq : connectWithTimeout io = (some e, []) := by rw [connectWithTimeout, hflags]
    rw [heq]
    refine ⟨fun now timeout h => absurd h List.not_mem_nil, (fun flags h => nomatch h),
      iff_of_false nofun ?_⟩
    rintro ⟨⟨flags, h⟩, -⟩
    exact nomatch h
  | ok flags =>
    cases hset : io.setNonblocking with
    | some e =>
      have heq : connectWithTimeout io = (some e, [.setFlags (flags ||| oNonblock)]) := by
        rw [connectWithTimeout, hflags]
        dsimp only
        rw [hset]
      rw [heq]
      refine ⟨(fun now timeout h => nomatch List.mem_singleton.mp h), (fun _ _ h => nomatch h),
        iff_of_false nofun ?_⟩
      rintro ⟨-, h, -⟩
      exact nomatch h
    | none =>
      obtain ⟨resultError, polls, heq, htimely, hresult⟩ :=
        connectWithTimeout_nonblocking hclock hflags hset
      rw [heq]
      refine ⟨fun now timeout h => ?_, fun flags' h _ => ?_, ?_⟩
      · have hmem : ConnectCall.poll now timeout ∈ polls := by simpa using h
        obtain ⟨h1, h2, h3⟩ := htimely _ hmem
        have : kConnectTimeout = 2000000000 := rfl
        exact ⟨h2, by omega, h3⟩
      · cases h
        refine ⟨_, rfl, fun flags' hmem => ?_⟩
        rcases List.mem_cons.mp hmem with h | h
        · exact nomatch h
        · exact htimely _ h
      · rw [Option.or_eq_none_iff, hresult]
        exact ⟨fun h => ⟨⟨flags, rfl⟩, rfl, h⟩, fun h => h.2.2⟩

/-- an interrupted `poll` and one that finds the connection -/
def slowConnect : ConnectIo :=
  ⟨.ok 2, none, some einprogress, 0,
    [(0, .failed eintr), (1999000000, .ready (.ok none))], none⟩

theorem connect_deadline_slow :
    (connectWithTimeout slowConnect).1 = none ∧ ∀ now timeout,
      ConnectCall.poll now timeout ∈ (connectWithTimeout slowConnect).2 → timeout ≤ 2000 := by
  obtain ⟨hpoll, -, hresult⟩ := connect_deadline slowConnect (by simp [slowConnect])
  refine ⟨hresult.mpr ⟨⟨2, rfl⟩, rfl, .inr ⟨.inl rfl, [(0, .failed eintr)], 1999000000, [], rfl, ?_, ?_⟩,
    rfl⟩, fun now timeout h => (hpoll now timeout h).2.1⟩
  · exact List.forall_mem_singleton.mpr ⟨rfl, by decide⟩
  · decide

/-! ## one request -/

/-- outcomes of the calls of `configure_socket` -/
structure ConfigureIo where
  getDescriptorFlags : Option Errno
  setDescriptorFlags : Option Errno
  receiveTimeout : Option Errno
  sendTimeout : Option Errno

/-- `configure_socket`; `none` is `true` -/
def configureSocket (io : ConfigureIo) : Option Errno :=
  io.getDescriptorFlags.or (io.setDescriptorFlags.or (io.receiveTimeout.or io.sendTimeout))

/-- outcomes of the calls on one address, and the two directions of the connection -/
structure AddressIo where
  socket : Except Errno ℕ
  configure : ConfigureIo
  connect : ConnectIo
  output : Sink
  input : Source

def AddressIo.trial (io : AddressIo) : Trial :=
  ⟨io.socket, (configureSocket io.configure).or (connectWithTimeout io.connect).1⟩

structure ClientResult where
  ok : Bool
  payload : Bytes
  error : Bytes
deriving DecidableEq

section
variable (errorMessage : Option Errno → Bytes)

/-- `request` from `send_frame` on -/
def exchange (io : AddressIo) (command : Bytes) : Outcome ClientResult :=
  match sendFrame io.output command with
  | .error what => .threw what
  | .ok (sent, _) =>
    if sent.status ≠ .ok then .returned ⟨false, [], errorMessage sent.errorNumber⟩
    else
      let (received, _) := recvFrame io.input kDefaultMaxPayload
      if received.status ≠ .ok then
        .returned ⟨false, [], match received.errorNumber with
          | none => ascii "connection closed"
          | some e => errorMessage (some e)⟩
      else .returned ⟨true, received.payload, []⟩

/-- `request`; a failed lookup has the text of `gai_strerror`.  The destructor of the socket runs on
each way out. -/
def request (lookup : Except Bytes (List AddressIo)) (command : Bytes) :
    Outcome ClientResult × List (FdAct Slot) :=
  match lookup with
  | .error text => (.returned ⟨false, [], text⟩, [])
  | .ok addresses =>
    let r := search AddressIo.trial addresses econnrefused
    let result :=
      match r.found with
      | none => .returned ⟨false, [], errorMessage (some r.lastError)⟩
      | some (io, _) => exchange errorMessage io command
    (result, .construct .kept (-1) :: r.acts ++ [.destroy .kept])

/-- **Descriptors of a request.**  However its calls end, `request` leaves the open descriptors of the
process as they were and closes each socket once; there is never more than one at a time. -/
theorem request_descriptors (lookup : Except Bytes (List AddressIo)) (command : Bytes)
    (opened : ℤ → Bool) (hfresh : ∀ addresses, lookup = .ok addresses → ∀ a ∈ addresses,
      ∀ fd : ℕ, a.socket = .ok fd → opened fd = false) :
    ∃ y, Run (FdAct.Frugal opened) FdAct.out { opened := opened }
        (request errorMessage lookup command).2 y ∧
      y.opened = opened ∧ (∀ o, y.held o = none) ∧ ∀ fd, 0 ≤ fd → Settled fd (y.events fd) := by
  -- a run that ends with no object alive has settled all that was handed in
  suffices h : ∃ y, Run (FdAct.Frugal opened) FdAct.out { opened := opened }
      (request errorMessage lookup command).2 y ∧ y.At none none opened by
    obtain ⟨y, hrun, hy⟩ := h
    have hdead : ∀ o, y.held o = none := fun o => by cases o <;> [exact hy.kept; exact hy.candidate]
    refine ⟨y, hrun, hy.opened, hdead, fun fd hpos => ?_⟩
    refine (owned_reach (hrun.mono fun _ _ h => h.1).reach fd hpos).settled fun o ho => ?_
    rw [hdead o] at ho
    exact nomatch ho
  cases lookup with
  | error text => exact ⟨_, rfl, rfl, rfl, rfl⟩
  | ok addresses =>
    obtain ⟨y, hrun, hy⟩ :=
      search_run_first AddressIo.trial econnrefused (hfresh addresses rfl)
    suffices h : ((FdAct.destroy .kept).out y).At none none opened ∧ y.held .kept ≠ none from
      ⟨_, hrun.append ⟨⟨h.2, .of_eq h.1.opened⟩, rfl⟩, h.1⟩
    cases hfound : (search AddressIo.trial addresses econnrefused).found with
    | none =>
      rw [hfound] at hy
      refine ⟨?_, by rw [hy.kept]; exact nofun⟩
      have hz := hy.destroy_kept
      rwa [if_neg (by decide)] at hz
    | some found =>
      rw [hfound] at hy
      obtain ⟨hy, hclosed⟩ := hy
      refine ⟨?_, by rw [hy.kept]; exact nofun⟩
      have hz := hy.destroy_kept
      rwa [if_pos (Int.natCast_nonneg _), update_restored hclosed] at hz

/-- an address that refuses the connection, and one that accepts it -/
def refusing : AddressIo :=
  ⟨.ok 3, ⟨none, none, none, none⟩, ⟨.ok 2, none, some econnrefused, 0, [], none⟩, ⟨[], []⟩,
    ⟨[], .eof, [], 0⟩⟩

def accepting (input : Bytes) : AddressIo :=
  ⟨.ok 3, ⟨none, none, none, none⟩, slowConnect, ⟨[], [.count 1, .eintr]⟩,
    ⟨input, .eof, [.eintr, .count 2], 0⟩⟩

theorem request_descriptors_second :
    ∃ y : Descriptors Slot, Run (FdAct.Frugal fun fd => decide (fd ≤ 2)) FdAct.out
        { opened := fun fd => decide (fd ≤ 2) }
        (request (fun _ => []) (.ok [refusing, accepting []]) (ascii "PING")).2 y ∧
      Settled 3 (y.events 3) := by
  obtain ⟨y, hrun, -, -, hsettled⟩ := request_descriptors (fun _ => [])
    (.ok [refusing, accepting []]) (ascii "PING") (fun fd => decide (fd ≤ 2)) (by
      intro addresses haddresses a ha fd hfd
      cases haddresses
      rcases List.mem_cons.mp ha with rfl | ha
      · cases hfd
        rfl
      · cases List.mem_singleton.mp ha
        cases hfd
        rfl)
  exact ⟨y, hrun, hsettled 3 (by decide)⟩

/-- a response that arrives as one frame is the result -/
theorem exchange_ok {io : AddressIo} {command response : Bytes} (hlen : command.length < 2^32)
    (htransient : ∀ e ∈ io.output.schedule, e.Transient)
    (hresponse : response.length ≤ kDefaultMaxPayload)
    (hinput : io.input.unread = frame headerSize response) :
    exchange errorMessage io command = .returned ⟨true, response, []⟩ := by
  obtain ⟨w, hsend, -⟩ := sendFrame_transient io.output command hlen htransient
  have hfirst : firstFrame headerSize kDefaultMaxPayload io.input.unread = some (response, []) := by
    rw [hinput, ← List.append_nil (frame _ _)]
    exact firstFrame_frame_append _ _ _ _ (lt_of_le_of_lt hresponse (by decide)) hresponse
  obtain ⟨r, hrecv, -⟩ := recvFrame_some io.input _ _ _ hfirst
  unfold exchange
  rw [hsend]
  simp only [hrecv, ne_eq, not_true_eq_false, if_false]

theorem request_found {before : List AddressIo} (after : List AddressIo) {io : AddressIo} {fd : ℕ}
    (hbefore : ∀ b ∈ before, b.trial.failure ≠ none) (htrial : io.trial = ⟨.ok fd, none⟩)
    (command : Bytes) :
    (request errorMessage (.ok (before ++ io :: after)) command).1 =
      exchange errorMessage io command := by
  unfold request
  dsimp only
  rw [search_found after econnrefused hbefore htrial]

/-- **One request.**  The server reads what the client wrote, and the client reads what the server
wrote, both in any pieces.  A command within the limit is executed once, and `request` returns the
response of `execute`; a longer one is not executed, and `request` returns the refusal. -/
theorem request_served (sv : Server) (hmax : sv.options.maxPayload ≤ kDefaultMaxPayload)
    (hcf : sv.CrashFree) (hstore : sv.store.Bounded) {before : List AddressIo}
    (after : List AddressIo) {io : AddressIo} {fd : ℕ}
    (hbefore : ∀ b ∈ before, b.trial.failure ≠ none) (htrial : io.trial = ⟨.ok fd, none⟩)
    {command : Bytes} (hlen : command.length < 2^32) (hnew : io.output.written = [])
    (htransient : ∀ e ∈ io.output.schedule, e.Transient) {c : Client} (hserved : c.Served)
    (hnew' : c.output.written = [])
    (hsent : ∀ sent w, sendFrame io.output command = .ok (sent, w) → c.input.unread = w.written)
    (hback : io.input.unread = (sv.handleClient c).2.2.2.output.written) :
    if command.length ≤ sv.options.maxPayload then
      ∃ response sv', sv.execute command = (.returned response, sv') ∧
        (sv.handleClient c).1 = .returned () ∧ (sv.handleClient c).2.1 = [command] ∧
        (sv.handleClient c).2.2.1 = sv' ∧
        (request errorMessage (.ok (before ++ io :: after)) command).1
          = .returned ⟨true, response, []⟩
    else
      (sv.handleClient c).1 = .returned () ∧ (sv.handleClient c).2.1 = [] ∧
        (sv.handleClient c).2.2.1 = sv ∧
        (request errorMessage (.ok (before ++ io :: after)) command).1
          = .returned ⟨true, ascii "ERR frame too large", []⟩ := by
  obtain ⟨w, hsend, hw, -⟩ := sendFrame_transient io.output command hlen htransient
  have hinput : c.input.unread = frame headerSize command := by
    rw [hsent _ _ hsend, hw, hnew, List.nil_append]
  rw [request_found errorMessage after hbefore htrial command]
  split
  · rename_i hle
    obtain ⟨response, sv', hexec, -⟩ := sv.execute_returns hcf (hle.trans hmax)
    have hshort : response.length ≤ kDefaultMaxPayload :=
      (sv.execute_bounded hstore (hle.trans hmax)).2.2 response (by rw [hexec])
    have hfirst : firstFrame headerSize sv.options.maxPayload c.input.unread = some (command, []) := by
      rw [hinput, ← List.append_nil (frame _ _)]
      exact firstFrame_frame_append _ _ _ _ hlen hle
    obtain ⟨c', hserved', hempty, hwritten, hhandle⟩ :=
      handleClient_frame Server.execute sv.options.maxPayload sv c hserved hfirst hexec
        (lt_of_le_of_lt hshort (by decide))
    -- nothing follows the command
    obtain ⟨c'', hend, -, hwritten'⟩ :=
      handleClient_end Server.execute sv.options.maxPayload sv' c' hserved'
        (by rw [hempty]; rfl) (by rw [hempty]; exact nofun)
    have hall : sv.handleClient c = (.returned (), [command], sv', c'') := by
      rw [Server.handleClient, hhandle, hend]
    rw [hall] at hback ⊢
    refine ⟨response, sv', hexec, rfl, rfl, rfl, ?_⟩
    refine exchange_ok errorMessage hlen htransient hshort ?_
    rw [hback, hwritten', hwritten, hnew', List.nil_append]
  · rename_i hgt
    have hover : Oversized sv.options.maxPayload c.input.unread := by
      rw [hinput, ← List.append_nil (frame _ _)]
      refine ⟨?_, ?_⟩
      · rw [List.append_nil, length_frame]
        exact Nat.le_add_right _ _
      · rw [take_frame_append, ofBE_toBE _ _ hlen]
        omega
    obtain ⟨c', hhandle, -, hwritten⟩ :=
      handleClient_oversized Server.execute sv.options.maxPayload sv c hserved hover
    have hall : sv.handleClient c = (.returned (), [], sv, c') := hhandle
    rw [hall] at hback ⊢
    refine ⟨rfl, rfl, rfl, exchange_ok errorMessage hlen htransient (by decide) ?_⟩
    rw [hback, hwritten, hnew', List.nil_append, frames_singleton]

end

def pingInput : Client :=
  ⟨⟨frame headerSize (ascii "PING"), .failed .eagain, [.count 0, .eintr], 0⟩, ⟨[], [.count 3]⟩, []⟩

theorem request_served_ping :
    ∃ response sv', pingServer.execute (ascii "PING") = (.returned response, sv') ∧
      (request (fun _ => []) (.ok [refusing,
          accepting (pingServer.handleClient pingInput).2.2.2.output.written]) (ascii "PING")).1
        = .returned ⟨true, response, []⟩ := by
  have htransient : ∀ e ∈ [WriteEvent.count 1, (.eintr : WriteEvent Errno)], e.Transient := by
    simp [WriteEvent.Transient]
  have h := request_served (fun _ => []) pingServer (by decide) (by intro io h; cases h) bounded_empty
    [] (show ∀ b ∈ [refusing], b.trial.failure ≠ none by decide)
    (show (accepting (pingServer.handleClient pingInput).2.2.2.output.written).trial = ⟨.ok 3, none⟩
      from rfl)
    (show (ascii "PING").length < 2^32 by decide) rfl htransient
    (c := pingInput) ⟨by decide, by simp [pingInput, WriteEvent.Transient]⟩ rfl
    (fun sent w hsend => by
      obtain ⟨w', hsend', hw, -⟩ := sendFrame_transient ⟨[], [.count 1, .eintr]⟩ (ascii "PING")
        (by decide) htransient
      cases hsend.symm.trans hsend'
      exact hw.symm) rfl
  rw [if_pos (by decide)] at h
  obtain ⟨response, sv', hexec, -, -, -, hrequest⟩ := h
  exact ⟨response, sv', hexec, hrequest⟩

end NetForge
