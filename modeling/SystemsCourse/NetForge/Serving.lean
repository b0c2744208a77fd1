import SystemsCourse.NetForge.Responses
import SystemsCourse.NetForge.Session

/-!
# All connections at once

Every connection is served by a thread of its own, in the loop of `Server::handle_client`: it receives
a frame, executes its payload and sends the response.  `Connection.Local` are the steps on the socket,
and `Serving.Step` are those of all threads, where the steps inside of `execute` are those of `System`.

* `Connection.Kept`   how far a connection is in the bytes that its client sent, and what was written;
* `Serving.Ordered`   the requests of a connection follow each other in the history;
* `one_store`         all clients see one map: there is one order of all requests that explains each
                      response and keeps the order of each connection.
-/

set_option linter.unusedSectionVars false
set_option linter.unusedVariables false

namespace NetForge
open Wire Stream Linearizable

/-- where `handle_client` is -/
inductive Stage where
  | loop
  | executing (payload : Bytes)
  | sending (response : Bytes)
  | ended
deriving DecidableEq

/-- a request with its response; `GET`, `SET` and `DEL` have a number in the history -/
structure Answered where
  payload : Bytes
  response : Bytes
  number : Option ℕ

def Answered.operation (a : Answered) : Option (ℕ × Command × Bytes) :=
  match a.number, parseCommand a.payload with
  | some i, .ok c => some (i, c, a.response)
  | _, _ => none

structure Connection where
  client : Client
  stage : Stage := .loop
  answered : List Answered := []

namespace Connection

def operations (c : Connection) : List (ℕ × Command × Bytes) :=
  c.answered.filterMap Answered.operation

/-- the payloads that were taken from the stream -/
def payloads (c : Connection) : List Bytes :=
  match c.stage with
  | .executing p => c.answered.map Answered.payload ++ [p]
  | _ => c.answered.map Answered.payload

/-- the responses that were sent -/
def delivered (c : Connection) : List Bytes :=
  match c.stage with
  | .sending _ => (c.answered.map Answered.response).dropLast
  | _ => c.answered.map Answered.response

/-- the steps of `handle_client` outside of `execute` -/
inductive Local (maxPayload : ℕ) : Connection → Connection → Prop
  | stop (c : Connection) (h : c.stage = .loop) (hs : c.client.stops.head?.getD false = true) :
      Local maxPayload c
        { c with client := { c.client with stops := c.client.stops.tail }, stage := .ended }
  | receive (c : Connection) (h : c.stage = .loop) (hs : c.client.stops.head?.getD false = false)
      (hr : (recvFrame c.client.input maxPayload).1.status = .ok) :
      Local maxPayload c
        { c with
          client := { c.client with
            stops := c.client.stops.tail, input := (recvFrame c.client.input maxPayload).2 }
          stage := .executing (recvFrame c.client.input maxPayload).1.payload }
  | hangUp (c : Connection) (h : c.stage = .loop) (hs : c.client.stops.head?.getD false = false)
      (hr : (recvFrame c.client.input maxPayload).1.status ≠ .ok)
      (hl : (recvFrame c.client.input maxPayload).1.status ≠ .tooLarge) :
      Local maxPayload c
        { c with
          client := { c.client with
            stops := c.client.stops.tail, input := (recvFrame c.client.input maxPayload).2 }
          stage := .ended }
  | tooLarge (c : Connection) (result : IoResult) (output : Sink) (h : c.stage = .loop)
      (hs : c.client.stops.head?.getD false = false)
      (hr : (recvFrame c.client.input maxPayload).1.status = .tooLarge)
      (hw : sendFrame c.client.output (ascii "ERR frame too large") = .ok (result, output)) :
      Local maxPayload c
        { c with
          client := ⟨(recvFrame c.client.input maxPayload).2, output, c.client.stops.tail⟩
          stage := .ended }
  | send (c : Connection) (r : Bytes) (result : IoResult) (output : Sink) (h : c.stage = .sending r)
      (hw : sendFrame c.client.output r = .ok (result, output)) :
      Local maxPayload c
        { c with
          client := { c.client with output := output }
          stage := if result.status = .ok then .loop else .ended }
  -- the worker drops the exception
  | sendThrew (c : Connection) (r what : Bytes) (h : c.stage = .sending r)
      (hw : sendFrame c.client.output r = .error what) :
      Local maxPayload c { c with stage := .ended }

end Connection

/-- the response to a request that does not concern a key; the counters of the pool can have any value -/
inductive Plain (store : KvStore) (p : Bytes) : Bytes → Prop
  | error (e : ParseError) (h : parseCommand p = .error e) : Plain store p (ascii "ERR " ++ e.message)
  | ping (h : parseCommand p = .ok .ping) : Plain store p (ascii "PONG")
  | stats (submitted completed : UInt64) (h : parseCommand p = .ok .stats) :
      Plain store p (Server.statsText store.size submitted completed)

theorem Plain.length {store : KvStore} {p r : Bytes} (h : Plain store p r) :
    r.length ≤ kDefaultMaxPayload := by
  cases h with
  | error e he =>
    have := Server.parseError_length he
    rw [List.length_append]
    have h4 : (ascii "ERR ").length = 4 := rfl
    unfold kDefaultMaxPayload
    omega
  | ping hp => decide
  | stats submitted completed hp => exact Server.statsText_length _ _ _

structure Serving (Tid : Type) where
  system : System Tid
  connection : Tid → Connection

namespace Serving
variable {Tid : Type} [DecidableEq Tid]

def init (sv : Server) (clients : Tid → Client) : Serving Tid :=
  ⟨.init sv, fun t => { client := clients t }⟩

def set (x : Serving Tid) (t : Tid) (c : Connection) : Serving Tid :=
  { x with connection := Function.update x.connection t c }

/-- one step of one thread -/
inductive Step (maxPayload : ℕ) : Serving Tid → Serving Tid → Prop
  | socket (x : Serving Tid) (t : Tid) (c : Connection)
      (h : (x.connection t).Local maxPayload c) : Step maxPayload x (x.set t c)
  | request (x : Serving Tid) (t : Tid) (p : Bytes) (c : Command)
      (hs : (x.connection t).stage = .executing p) (hi : x.system.pc t = .idle)
      (hc : parseCommand p = .ok c) (hk : c.keyed = true) :
      Step maxPayload x { x with
        system := { x.system.goto t (.start x.system.next c) with
          next := x.system.next + 1, history := x.system.history ++ [.inv x.system.next c] } }
  -- a step inside of `execute`
  | inside (x : Serving Tid) (y : System Tid) (h : System.Step x.system y)
      (hh : y.history = x.system.history) : Step maxPayload x { x with system := y }
  | respond (x : Serving Tid) (t : Tid) (p : Bytes) (i : ℕ) (c : Command) (r : Bytes)
      (hs : (x.connection t).stage = .executing p) (h : x.system.pc t = .done i c r) :
      Step maxPayload x { x.set t { x.connection t with
          stage := .sending r, answered := (x.connection t).answered ++ [⟨p, r, some i⟩] } with
        system := { x.system.goto t .idle with history := x.system.history ++ [.res i r] } }
  | plain (x : Serving Tid) (t : Tid) (p r : Bytes) (hs : (x.connection t).stage = .executing p)
      (hi : x.system.pc t = .idle) (hr : Plain x.system.store p r) :
      Step maxPayload x (x.set t { x.connection t with
        stage := .sending r, answered := (x.connection t).answered ++ [⟨p, r, none⟩] })

end Serving

/-! ## one connection -/

theorem recvFrame_ok {r : Source} {max : ℕ} (h : (recvFrame r max).1.status = .ok) :
    firstFrame headerSize max r.unread
      = some ((recvFrame r max).1.payload, (recvFrame r max).2.unread) := by
  cases hf : firstFrame headerSize max r.unread with
  | some pr =>
    obtain ⟨p, rest⟩ := pr
    obtain ⟨r', e, hu, _⟩ := recvFrame_some r max p rest hf
    rw [e]
    dsimp only
    rw [hu]
  | none =>
    by_cases ho : Oversized max r.unread
    · obtain ⟨r', e, _⟩ := recvFrame_oversized r max ho
      rw [e] at h
      cases h
    · obtain ⟨r', e, _⟩ := recvFrame_short r max hf ho
      rw [e] at h
      exact absurd h (endStatus_ne_ok _)

theorem recvFrame_tooLarge {r : Source} {max : ℕ} (h : (recvFrame r max).1.status = .tooLarge) :
    Oversized max r.unread := by
  cases hf : firstFrame headerSize max r.unread with
  | some pr =>
    obtain ⟨r', e, _⟩ := recvFrame_some r max pr.1 pr.2 hf
    rw [e] at h
    cases h
  | none =>
    by_contra ho
    obtain ⟨r', e, _⟩ := recvFrame_short r max hf ho
    rw [e] at h
    exact endStatus_ne_tooLarge _ h

/-- the writes to the client are at most short or interrupted -/
def Client.Transient (c : Client) : Prop := ∀ e ∈ c.output.schedule, e.Transient

namespace Connection
variable {maxPayload : ℕ} {c₀ : Client} {c c' : Connection}

/-- the last response is the one that is being sent -/
def Sending (c : Connection) : Prop :=
  ∀ r, c.stage = .sending r → ∃ as a, c.answered = as ++ [a] ∧ a.response = r

/-- The bytes of the client are the frames of the payloads that were taken, and a rest that was not
read before the loop ended; if no write fails, the bytes written are the frames of the responses that were
sent, and at the end the reply to an oversized header. -/
structure Kept (maxPayload : ℕ) (c₀ : Client) (c : Connection) : Prop where
  transient : c₀.Transient → c.client.Transient
  short : ∀ a ∈ c.answered, a.response.length ≤ kDefaultMaxPayload
  sending : c.Sending
  fits : Fits headerSize maxPayload c.payloads
  bytes : ∃ rest extra, c₀.input.unread = frames headerSize c.payloads ++ rest ∧
    (c.stage ≠ .ended → c.client.input.unread = rest ∧ extra = []) ∧
    (c₀.Transient →
      c.client.output.written = c₀.output.written ++ frames headerSize (c.delivered ++ extra)) ∧
    (extra = [] ∨ extra = [ascii "ERR frame too large"] ∧ Oversized maxPayload rest)

/-- the stream and the output of a connection that has not ended -/
theorem Kept.open_bytes (h : c.Kept maxPayload c₀) (hs : c.stage ≠ .ended) :
    c₀.input.unread = frames headerSize c.payloads ++ c.client.input.unread ∧
      (c₀.Transient → c.client.output.written = c₀.output.written ++ frames headerSize c.delivered) := by
  obtain ⟨rest, extra, h1, h2, h3, _⟩ := h.bytes
  obtain ⟨rfl, rfl⟩ := h2 hs
  rw [List.append_nil] at h3
  exact ⟨h1, h3⟩

/-- the same at the head of the loop -/
theorem Kept.at_loop (h : c.Kept maxPayload c₀) (hs : c.stage = .loop) :
    c₀.input.unread
        = frames headerSize (c.answered.map Answered.payload) ++ c.client.input.unread ∧
      (c₀.Transient → c.client.output.written
        = c₀.output.written ++ frames headerSize (c.answered.map Answered.response)) ∧
      Fits headerSize maxPayload (c.answered.map Answered.payload) := by
  obtain ⟨hu, hw⟩ := h.open_bytes (by rw [hs]; nofun)
  have hp : c.payloads = c.answered.map Answered.payload := by rw [payloads, hs]
  have hd : c.delivered = c.answered.map Answered.response := by rw [delivered, hs]
  have hf := h.fits
  rw [hp] at hu hf
  rw [hd] at hw
  exact ⟨hu, hw, hf⟩

theorem Kept.response_lt (h : c.Kept maxPayload c₀) {as : List Answered} {a : Answered}
    (ha : c.answered = as ++ [a]) : a.response.length < 2^32 :=
  Nat.lt_of_le_of_lt (h.short a (by rw [ha]; simp)) (by decide)

/-- what a frame that was sent leaves behind, if no write fails -/
theorem Kept.sent (h : c.Kept maxPayload c₀) {p : Bytes} (hp : p.length < 2^32) {result : IoResult}
    {output : Sink} (hw : sendFrame c.client.output p = .ok (result, output)) (ht : c₀.Transient) :
    output.written = c.client.output.written ++ frame headerSize p ∧
      ∀ e ∈ output.schedule, e.Transient := by
  obtain ⟨output', e, hout, ht'⟩ := sendFrame_transient c.client.output p hp (h.transient ht)
  cases hw.symm.trans e
  exact ⟨hout, ht'⟩

/-- a response is sent: the connection goes on or not, and nothing else is executed or sent -/
theorem Kept.send (h : c.Kept maxPayload c₀) {r : Bytes} {result : IoResult} {output : Sink}
    {stage : Stage} (hs : c.stage = .sending r) (hw' : sendFrame c.client.output r = .ok (result, output))
    (hstage : stage = .loop ∨ stage = .ended) :
    ({ c with client := { c.client with output := output }, stage := stage } : Connection).Kept
      maxPayload c₀ := by
  obtain ⟨hu, hw⟩ := h.open_bytes (by rw [hs]; nofun)
  obtain ⟨as, a, ha, rfl⟩ := h.sending r hs
  have hsent := h.sent (h.response_lt ha) hw'
  have hp : c.payloads = c.answered.map Answered.payload := by rw [payloads, hs]
  have hd : c.delivered = as.map Answered.response := by
    rw [delivered, hs, ha, List.map_append, List.map_singleton]
    exact List.dropLast_concat
  have hf := h.fits
  rw [hp] at hu hf
  rw [hd] at hw
  have hwritten (ht : c₀.Transient) : output.written
      = c₀.output.written ++ frames headerSize (c.answered.map Answered.response ++ []) := by
    rw [(hsent ht).1, hw ht, ha, List.append_nil, List.map_append, frames_append, List.map_singleton,
      frames_singleton, List.append_assoc]
  rcases hstage with rfl | rfl <;>
    exact ⟨fun ht => (hsent ht).2, h.short, nofun, hf, _, [], hu, fun _ => ⟨rfl, rfl⟩, hwritten, .inl rfl⟩

/-- **a step on the socket** -/
theorem Kept.socket (h : c.Kept maxPayload c₀) (hl : c.Local maxPayload c') : c'.Kept maxPayload c₀ := by
  cases hl with
  | stop hs hstop =>
    obtain ⟨hu, hw, hf⟩ := h.at_loop hs
    exact ⟨h.transient, h.short, nofun, hf, _, [], hu, fun e => absurd rfl e,
      fun ht => by rw [List.append_nil]; exact hw ht, Or.inl rfl⟩
  | receive hs hstop hr =>
    obtain ⟨hu, hw, hf⟩ := h.at_loop hs
    obtain ⟨e, hle, hlt⟩ := firstFrame_some (recvFrame_ok hr)
    rw [e] at hu
    refine ⟨h.transient, h.short, nofun, ?_, _, [], ?_, fun _ => ⟨rfl, rfl⟩,
      fun ht => by rw [List.append_nil]; exact hw ht, Or.inl rfl⟩
    · intro q hq
      rcases List.mem_append.mp hq with hq | hq
      · exact hf q hq
      · cases List.mem_singleton.mp hq
        exact ⟨hle, hlt⟩
    · show c₀.input.unread = frames headerSize (c.answered.map Answered.payload ++ [_]) ++ _
      rw [frames_append, frames_singleton, List.append_assoc]
      exact hu
  | hangUp hs hstop hr hl =>
    obtain ⟨hu, hw, hf⟩ := h.at_loop hs
    exact ⟨h.transient, h.short, nofun, hf, _, [], hu, fun e => absurd rfl e,
      fun ht => by rw [List.append_nil]; exact hw ht, Or.inl rfl⟩
  | tooLarge result output hs hstop hr hw' =>
    obtain ⟨hu, hw, hf⟩ := h.at_loop hs
    have hsent := h.sent (by decide) hw'
    refine ⟨fun ht => (hsent ht).2, h.short, nofun, hf, _, [ascii "ERR frame too large"], hu,
      fun e => absurd rfl e, fun ht => ?_, Or.inr ⟨rfl, recvFrame_tooLarge hr⟩⟩
    show output.written = _ ++ frames headerSize (c.answered.map Answered.response ++ [_])
    rw [(hsent ht).1, hw ht, frames_append, frames_singleton, List.append_assoc]
  | send r result output hs hw' =>
    refine h.send hs hw' ?_
    split_ifs
    · exact Or.inl rfl
    · exact Or.inr rfl
  | sendThrew r what hs hw' =>
    obtain ⟨as, a, ha, rfl⟩ := h.sending r hs
    cases hw'.symm.trans (sendFrame_short c.client.output (h.response_lt ha))

/-- the payload was executed -/
theorem Kept.answer (h : c.Kept maxPayload c₀) {p r : Bytes} (hs : c.stage = .executing p)
    (hr : r.length ≤ kDefaultMaxPayload) (n : Option ℕ) :
    Kept maxPayload c₀ { c with stage := .sending r, answered := c.answered ++ [⟨p, r, n⟩] } := by
  obtain ⟨hu, hw⟩ := h.open_bytes (by rw [hs]; nofun)
  have hp : c.payloads = c.answered.map Answered.payload ++ [p] := by rw [payloads, hs]
  have hd : c.delivered = c.answered.map Answered.response := by rw [delivered, hs]
  have hp' : Connection.payloads { c with stage := .sending r, answered := c.answered ++ [⟨p, r, n⟩] }
      = c.payloads := by
    rw [hp, payloads, List.map_append]
    rfl
  refine ⟨h.transient, ?_, ?_, ?_, _, [], ?_, fun _ => ⟨rfl, rfl⟩, fun ht => ?_, Or.inl rfl⟩
  · intro a ha
    rcases List.mem_append.mp ha with ha | ha
    · exact h.short a ha
    · cases List.mem_singleton.mp ha
      exact hr
  · intro r' e
    cases e
    exact ⟨_, _, rfl, rfl⟩
  · rw [hp']
    exact h.fits
  · rw [hp']
    exact hu
  · show c.client.output.written
      = _ ++ frames headerSize (((c.answered ++ [_]).map Answered.response).dropLast ++ [])
    rw [List.append_nil, List.map_append, List.map_singleton, List.dropLast_concat, ← hd]
    exact hw ht

end Connection

/-! ## the history -/

/-- the request that a thread is executing -/
def Pc.call : Pc → Option (ℕ × Command)
  | .idle => none
  | .start i c => some (i, c)
  | .locked i c _ => some (i, c)
  | .logged i c _ => some (i, c)
  | .unlocking i c _ => some (i, c)
  | .done i c _ => some (i, c)

namespace System
variable {Tid : Type} [DecidableEq Tid]

theorem call_goto {x : System Tid} {t : Tid} {p : Pc} (h : p.call = (x.pc t).call) (u : Tid) :
    ((x.goto t p).pc u).call = (x.pc u).call := by
  by_cases hu : u = t
  · subst hu
    rw [pc_goto, h]
  · rw [pc_goto_ne x hu]

/-- a step inside of `execute` does not begin or end a request -/
theorem step_call {x y : System Tid} (hstep : Step x y) (hh : y.history = x.history) :
    y.next = x.next ∧ ∀ u, (y.pc u).call = (x.pc u).call := by
  have hlonger {e : Linearizable.Event Command Bytes} (h : x.history ++ [e] = x.history) : False := by
    have := congrArg List.length h
    simp at this
  cases hstep with
  | request t p c hpc hp hc hk => exact (hlonger hh).elim
  | respond t i c r hpc => exact (hlonger hh).elim
  | read t i k hpc => exact ⟨rfl, call_goto (by rw [hpc]; rfl)⟩
  | lock t i c m hpc hm hfree => exact ⟨rfl, call_goto (by rw [hpc]; rfl)⟩
  | append t i c m wal hpc he => exact ⟨rfl, call_goto (by rw [hpc]; rfl)⟩
  | refuse t i c m wal hpc he => exact ⟨rfl, call_goto (by rw [hpc]; rfl)⟩
  | apply t i c m hpc => exact ⟨rfl, call_goto (by rw [hpc]; rfl)⟩
  | unlock t i c r hpc => exact ⟨rfl, call_goto (by rw [hpc]; rfl)⟩

end System

namespace Serving
variable {Tid : Type} [DecidableEq Tid]

/-- the operation `a` has returned before the request `i` -/
def Before (history : List (Linearizable.Event Command Bytes)) (a : ℕ × Command × Bytes) (i : ℕ) (c : Command) :
    Prop :=
  List.Sublist [.res a.1 a.2.2, .inv i c] history

/-- The requests of a connection in the history: those that were answered, each after the one before,
and the one that is being executed, after all of them. -/
structure Ordered (history : List (Linearizable.Event Command Bytes)) (pc : Pc) (c : Connection) : Prop where
  idle : (∀ p, c.stage ≠ .executing p) → pc.call = none
  current : ∀ i cmd, pc.call = some (i, cmd) → (∃ p, c.stage = .executing p ∧ parseCommand p = .ok cmd) ∧
    .inv i cmd ∈ history ∧ ∀ a ∈ c.operations, Before history a i cmd
  events : ∀ a ∈ c.operations, .inv a.1 a.2.1 ∈ history ∧ .res a.1 a.2.2 ∈ history
  order : c.operations.Pairwise fun a b => Before history a b.1 b.2.1
  plain : ∀ a ∈ c.answered, a.operation = none → ∃ store, Plain store a.payload a.response

namespace Ordered
variable {history : List (Linearizable.Event Command Bytes)} {pc pc' : Pc} {c c' : Connection}
  (h : Ordered history pc c)
include h

theorem grow (e : Linearizable.Event Command Bytes) : Ordered (history ++ [e]) pc c where
  idle := h.idle
  current i cmd hc := by
    obtain ⟨h1, h2, h3⟩ := h.current i cmd hc
    exact ⟨h1, List.mem_append_left _ h2, fun a ha => (h3 a ha).trans (List.sublist_append_left _ _)⟩
  events a ha :=
    ⟨List.mem_append_left _ (h.events a ha).1, List.mem_append_left _ (h.events a ha).2⟩
  order := h.order.imp fun hab => hab.trans (List.sublist_append_left _ _)
  plain := h.plain

theorem inside (hc : pc'.call = pc.call) : Ordered history pc' c where
  idle hs := hc.trans (h.idle hs)
  current i cmd e := h.current i cmd (hc.symm.trans e)
  events := h.events
  order := h.order
  plain := h.plain

/-- a step on the socket -/
theorem socket (hs : ∀ p, c.stage ≠ .executing p) (ha : c'.answered = c.answered) :
    Ordered history pc c' := by
  have hops : c'.operations = c.operations := congrArg (List.filterMap Answered.operation) ha
  have hcall := h.idle hs
  refine ⟨fun _ => hcall, fun i cmd e => ?_, ?_, ?_, ?_⟩
  · cases hcall.symm.trans e
  · rw [hops]
    exact h.events
  · rw [hops]
    exact h.order
  · rw [ha]
    exact h.plain

/-- a request begins -/
theorem request {p : Bytes} {i : ℕ} {cmd : Command} (hs : c.stage = .executing p)
    (hc : parseCommand p = .ok cmd) :
    Ordered (history ++ [.inv i cmd]) (.start i cmd) c := by
  have hg := h.grow (.inv i cmd)
  refine ⟨fun hn => absurd hs (hn p), ?_, hg.events, hg.order, hg.plain⟩
  intro j cmd' e
  cases e
  refine ⟨⟨p, hs, hc⟩, List.mem_append_right _ (List.mem_singleton_self _), fun a ha => ?_⟩
  exact (List.singleton_sublist.mpr (h.events a ha).2).append (List.Sublist.refl _)

/-- a request is answered -/
theorem respond {p r : Bytes} {i : ℕ} {cmd : Command} (hs : c.stage = .executing p)
    (hc : pc.call = some (i, cmd)) :
    Ordered (history ++ [.res i r]) .idle
      { c with stage := .sending r, answered := c.answered ++ [⟨p, r, some i⟩] } := by
  obtain ⟨⟨p', hs', hp⟩, hinv, hbefore⟩ := h.current i cmd hc
  cases hs.symm.trans hs'
  have hg := h.grow (.res i r)
  have hop : Answered.operation ⟨p, r, some i⟩ = some (i, cmd, r) := by
    simp only [Answered.operation, hp]
  have hops : Connection.operations
      { c with stage := .sending r, answered := c.answered ++ [⟨p, r, some i⟩] }
      = c.operations ++ [(i, cmd, r)] := by
    show (c.answered ++ [_]).filterMap _ = _
    rw [List.filterMap_append, List.filterMap_cons, hop]
    rfl
  refine ⟨fun _ => rfl, nofun, ?_, ?_, ?_⟩
  · rw [hops]
    intro a ha
    rcases List.mem_append.mp ha with ha | ha
    · exact hg.events a ha
    · cases List.mem_singleton.mp ha
      exact ⟨List.mem_append_left _ hinv, List.mem_append_right _ (List.mem_singleton_self _)⟩
  · rw [hops]
    refine List.pairwise_append.mpr ⟨hg.order, List.pairwise_singleton _ _, ?_⟩
    intro a ha b hb
    cases List.mem_singleton.mp hb
    exact (hbefore a ha).trans (List.sublist_append_left _ _)
  · intro a ha hn
    rcases List.mem_append.mp ha with ha | ha
    · exact h.plain a ha hn
    · cases List.mem_singleton.mp ha
      cases hop.symm.trans hn

/-- a request that does not concern a key is answered -/
theorem answer {p r : Bytes} {store : KvStore} (hi : pc = .idle) (hr : Plain store p r) :
    Ordered history pc
      { c with stage := .sending r, answered := c.answered ++ [⟨p, r, none⟩] } := by
  subst hi
  have hops : Connection.operations
      { c with stage := .sending r, answered := c.answered ++ [⟨p, r, none⟩] } = c.operations := by
    show (c.answered ++ [_]).filterMap _ = _
    rw [List.filterMap_append]
    exact List.append_nil _
  refine ⟨fun _ => rfl, nofun, ?_, ?_, ?_⟩
  · rw [hops]
    exact h.events
  · rw [hops]
    exact h.order
  · intro a ha hn
    rcases List.mem_append.mp ha with ha | ha
    · exact h.plain a ha hn
    · cases List.mem_singleton.mp ha
      exact ⟨store, hr⟩

end Ordered

/-- a number names one request -/
def Numbered (x : System Tid) : Prop :=
  ∀ i c, .inv i c ∈ x.history → i < x.next ∧ ∀ c', .inv i c' ∈ x.history → c' = c

theorem Numbered.request {x : System Tid} (h : Numbered x) (t : Tid) (c : Command) :
    Numbered { x.goto t (.start x.next c) with
      next := x.next + 1, history := x.history ++ [.inv x.next c] } := by
  have hnew {c' : Command} (hm : .inv x.next c' ∈ x.history) : False :=
    Nat.lt_irrefl _ (h _ _ hm).1
  intro i c₁ hm
  rcases List.mem_append.mp hm with hm | hm
  · refine ⟨Nat.lt_succ_of_lt (h i c₁ hm).1, fun c₂ hm₂ => ?_⟩
    rcases List.mem_append.mp hm₂ with hm₂ | hm₂
    · exact (h i c₁ hm).2 c₂ hm₂
    · cases List.mem_singleton.mp hm₂
      exact (hnew hm).elim
  · cases List.mem_singleton.mp hm
    refine ⟨Nat.lt_succ_self _, fun c₂ hm₂ => ?_⟩
    rcases List.mem_append.mp hm₂ with hm₂ | hm₂
    · exact (hnew hm₂).elim
    · cases List.mem_singleton.mp hm₂
      rfl

/-- what every step keeps -/
structure Inv (maxPayload : ℕ) (sv : Server) (clients : Tid → Client) (x : Serving Tid) : Prop where
  system : Relation.ReflTransGen System.Step (System.init sv) x.system
  numbered : Numbered x.system
  kept : ∀ t, (x.connection t).Kept maxPayload (clients t)
  ordered : ∀ t, Ordered x.system.history (x.system.pc t) (x.connection t)

section
variable {maxPayload : ℕ} {sv : Server} {clients : Tid → Client} {x y : Serving Tid}

theorem init_inv : (init sv clients).Inv maxPayload sv clients where
  system := .refl
  numbered := nofun
  kept t := ⟨id, nofun, nofun, nofun, (clients t).input.unread, [], rfl, fun _ => ⟨rfl, rfl⟩,
    fun _ => (List.append_nil _).symm, Or.inl rfl⟩
  ordered t := ⟨fun _ => rfl, nofun, nofun, List.Pairwise.nil, nofun⟩

/-- one connection changes -/
theorem kept_set {c : Connection} {t : Tid} (h : ∀ t, (x.connection t).Kept maxPayload (clients t))
    (hc : c.Kept maxPayload (clients t)) (u : Tid) :
    ((x.set t c).connection u).Kept maxPayload (clients u) := by
  by_cases hu : u = t
  · subst hu
    rw [show (x.set u c).connection u = c from Function.update_self ..]
    exact hc
  · rw [show (x.set t c).connection u = x.connection u from Function.update_of_ne hu ..]
    exact h u

/-- one thread and its connection move, and the others see the history grow -/
theorem ordered_set {history : List (Linearizable.Event Command Bytes)} (pc : Tid → Pc)
    {p : Pc} {c : Connection} {t : Tid}
    (h : ∀ u, u ≠ t → Ordered history (pc u) (x.connection u)) (hc : Ordered history p c) (u : Tid) :
    Ordered history (Function.update pc t p u) ((x.set t c).connection u) := by
  by_cases hu : u = t
  · subst hu
    rw [Function.update_self, show (x.set u c).connection u = c from Function.update_self ..]
    exact hc
  · rw [Function.update_of_ne hu,
      show (x.set t c).connection u = x.connection u from Function.update_of_ne hu ..]
    exact h u hu

theorem Inv.step (hmax : maxPayload ≤ kDefaultMaxPayload) (hb : sv.store.Bounded)
    (h : x.Inv maxPayload sv clients) (hstep : Step maxPayload x y) : y.Inv maxPayload sv clients := by
  have hinit : (System.init sv : System Tid).AllShort := ⟨hb, fun _ => trivial, nofun⟩
  have hshort := System.run_short hinit h.system
  cases hstep with
  | socket t c hl =>
    refine ⟨h.system, h.numbered, kept_set h.kept ((h.kept t).socket hl), ?_⟩
    have hs : (∀ p, (x.connection t).stage ≠ .executing p) ∧ c.answered = (x.connection t).answered := by
      cases hl <;> exact ⟨fun p e => by simp_all, rfl⟩
    intro u
    have := ordered_set (x := x) (t := t) x.system.pc (fun u _ => h.ordered u)
      ((h.ordered t).socket hs.1 hs.2) u
    rwa [Function.update_eq_self] at this
  | request t p c hs hi hc hk =>
    have hp : p.length ≤ kDefaultMaxPayload := by
      refine ((h.kept t).fits p ?_).1.trans hmax
      unfold Connection.payloads
      rw [hs]
      exact List.mem_append_right _ (List.mem_singleton_self _)
    refine ⟨h.system.tail (.request x.system t p c hi hp hc hk), h.numbered.request t c, h.kept, ?_⟩
    intro u
    show Ordered _ (Function.update x.system.pc t _ u) (x.connection u)
    by_cases hu : u = t
    · subst hu
      rw [Function.update_self]
      exact (h.ordered u).request hs hc
    · rw [Function.update_of_ne hu]
      exact (h.ordered u).grow _
  | inside s hstep hh =>
    obtain ⟨hnext, hcall⟩ := System.step_call hstep hh
    refine ⟨h.system.tail hstep, ?_, h.kept, fun u => ?_⟩
    · intro i c hm
      rw [hh] at hm
      rw [hnext, hh]
      exact h.numbered i c hm
    · show Ordered s.history (s.pc u) (x.connection u)
      rw [hh]
      exact (h.ordered u).inside (hcall u)
  | respond t p i c r hs hpc =>
    have hr : r.length ≤ kDefaultMaxPayload := by
      have := hshort.threads t
      rw [hpc] at this
      exact this
    refine ⟨h.system.tail (.respond x.system t i c r hpc), ?_,
      kept_set h.kept ((h.kept t).answer hs hr (some i)), ?_⟩
    · have hback {j : ℕ} {c' : Command} (hm : .inv j c' ∈ x.system.history ++ [.res i r]) :
          .inv j c' ∈ x.system.history := by
        rcases List.mem_append.mp hm with hm | hm
        · exact hm
        · cases List.mem_singleton.mp hm
      intro j c' hm
      exact ⟨(h.numbered j c' (hback hm)).1, fun c₂ hm₂ => (h.numbered j c' (hback hm)).2 c₂ (hback hm₂)⟩
    · exact ordered_set x.system.pc (fun u _ => (h.ordered u).grow _)
        ((h.ordered t).respond hs (by rw [hpc]; rfl))
  | plain t p r hs hi hr =>
    refine ⟨h.system, h.numbered, kept_set h.kept ((h.kept t).answer hs hr.length none), ?_⟩
    intro u
    have := ordered_set (x := x) (t := t) x.system.pc (fun u _ => h.ordered u)
      ((h.ordered t).answer hi hr) u
    rwa [Function.update_eq_self] at this

theorem reach_inv (hmax : maxPayload ≤ kDefaultMaxPayload) (hb : sv.store.Bounded)
    (hrun : Relation.ReflTransGen (Step maxPayload) (init sv clients) x) :
    x.Inv maxPayload sv clients := by
  induction hrun with
  | refl => exact init_inv
  | tail _ hstep ih => exact ih.step hmax hb hstep

end

end Serving

/-- **All clients see one map.**  For a server with accepted options, whatever log it recovered from, any
number of connections and any interleaving of their threads: there is one order of all requests that
concern a key in which a map, used by one client after the other, gives each response, and it keeps the
order of the requests of each connection, and that of requests of different connections that do not
overlap.  The payloads that a connection executes are the frames at the start of what its client sent;
if no write to its client fails, what the client can read are the frames of the responses, one for each
payload and in order, and at the end the reply to an oversized header. -/
theorem one_store {Tid : Type} [DecidableEq Tid] (options : ServerOptions) (opened : Option AppendIo)
    (file : WalFile) (io : RecoverIo) (listenError : Option Bytes)
    (hmax : options.maxPayload ≤ kDefaultMaxPayload) (clients : Tid → Client) (x : Serving Tid)
    (hrun : Relation.ReflTransGen (Serving.Step options.maxPayload)
      (.init (Server.new options opened file io listenError).2 clients) x) :
    (∃ order, Linearization MapSpec (Server.new options opened file io listenError).2.store.get
        x.system.history order ∧ ∀ t, (x.connection t).operations.Sublist order) ∧
    ∀ t, (∀ a ∈ (x.connection t).answered, a.operation = none →
        ∃ store, Plain store a.payload a.response) ∧
      ∃ rest extra,
        (clients t).input.unread = frames headerSize (x.connection t).payloads ++ rest ∧
        ((clients t).Transient → (x.connection t).client.output.written = (clients t).output.written
          ++ frames headerSize ((x.connection t).delivered ++ extra)) ∧
        (extra = [] ∨ extra = [ascii "ERR frame too large"] ∧ Oversized options.maxPayload rest) := by
  have hb := (Server.new_bounded options opened file io listenError).2
  have h := Serving.reach_inv hmax hb hrun
  refine ⟨?_, fun t => ⟨(h.ordered t).plain, ?_⟩⟩
  · obtain ⟨a, hsim, hlin⟩ := Atomic.linearization_of_simulation MapSpec (System.init_sim _)
      System.step_sim h.system
    rw [hsim.history] at hlin
    refine ⟨a.order, hlin, fun t => ?_⟩
    exact hlin.sublist (fun i c c' h1 h2 => (h.numbered i c' h2).2 c h1) (h.ordered t).events
      (h.ordered t).order
  · obtain ⟨rest, extra, h1, _, h2, h3⟩ := (h.kept t).bytes
    exact ⟨rest, extra, h1, h2, h3⟩

/-- a client that sends one request, with reads and writes in pieces -/
def asking (request : Bytes) : Client :=
  ⟨⟨frames headerSize [request], .eof, [.count 0, .eintr], 0⟩, ⟨[], [.eintr, .count 1]⟩, []⟩

theorem asking_transient (request : Bytes) : (asking request).Transient := by
  simp [Client.Transient, asking, WriteEvent.Transient]

theorem asking_receive (request : Bytes)
    (h : firstFrame headerSize kDefaultMaxPayload (frames headerSize [request]) = some (request, [])) :
    ∃ input, Connection.Local kDefaultMaxPayload { client := asking request }
      { client := ⟨input, (asking request).output, []⟩, stage := .executing request } := by
  obtain ⟨input, e, _⟩ := recvFrame_some (asking request).input kDefaultMaxPayload request [] h
  have hl : Connection.Local kDefaultMaxPayload { client := asking request } _ :=
    .receive { client := asking request } rfl rfl (by rw [e])
  rw [e] at hl
  exact ⟨input, hl⟩

/-- one client sets `k` while another one gets it -/
theorem one_store_shared :
    ∃ x : Serving Bool, Relation.ReflTransGen (Serving.Step ({} : ServerOptions).maxPayload)
        (.init (Server.new {} none ⟨[], []⟩ ⟨none, [], .eof, [], []⟩ none).2
          fun t => asking (bif t then ascii "SET k v" else ascii "GET k")) x ∧
      x.system.history = [.inv 0 (.set [107] [118]), .inv 1 (.get [107]), .res 1 (ascii "VALUE v"),
        .res 0 (ascii "OK")] ∧
      (x.connection true).answered = [⟨ascii "SET k v", ascii "OK", some 0⟩] ∧
      (x.connection false).answered = [⟨ascii "GET k", ascii "VALUE v", some 1⟩] ∧
      (∃ order, Linearization MapSpec KvStore.empty.get x.system.history order ∧
        ∀ t, (x.connection t).operations.Sublist order) ∧
      ∃ extra, (x.connection true).client.output.written = frames headerSize ([ascii "OK"] ++ extra) := by
  obtain ⟨input, hset⟩ := asking_receive (ascii "SET k v") (by decide)
  obtain ⟨input', hget⟩ := asking_receive (ascii "GET k") (by decide)
  obtain ⟨output, hsend, -⟩ := sendFrame_transient (asking (ascii "SET k v")).output (ascii "OK")
    (by decide) (asking_transient _)
  have h := Relation.ReflTransGen.single (@Serving.Step.socket Bool _ kDefaultMaxPayload
    (.init (Server.new {} none ⟨[], []⟩ ⟨none, [], .eof, [], []⟩ none).2
      fun t => asking (bif t then ascii "SET k v" else ascii "GET k")) true _ hset)
  have h := h.tail (.request _ true (ascii "SET k v") (.set [107] [118]) rfl rfl (by decide) rfl)
  have h := h.tail (.inside _ _ (.lock _ true 0 _ (.set [107] [118]) rfl rfl rfl) rfl)
  have h := h.tail (.socket _ false _ hget)
  have h := h.tail (.request _ false (ascii "GET k") (.get [107]) rfl rfl (by decide) rfl)
  have h := h.tail (.inside _ _ (.append _ true 0 _ _ _ rfl rfl) rfl)
  have h := h.tail (.inside _ _ (.apply _ true 0 _ _ rfl) rfl)
  have h := h.tail (.inside _ _ (.read _ false 1 _ rfl) rfl)
  have h := h.tail (.respond _ false (ascii "GET k") 1 _ _ rfl rfl)
  have h := h.tail (.inside _ _ (.unlock _ true 0 _ _ rfl) rfl)
  have h := h.tail (.respond _ true (ascii "SET k v") 0 _ _ rfl rfl)
  have h := h.tail (.socket _ true _ (.send _ _ _ output rfl hsend))
  obtain ⟨hlinear, hconnections⟩ := one_store {} none ⟨[], []⟩ ⟨none, [], .eof, [], []⟩ none (by decide) _ _ h
  obtain ⟨-, rest, extra, -, hwritten, -⟩ := hconnections true
  exact ⟨_, h, rfl, rfl, rfl, hlinear, extra, hwritten (asking_transient _)⟩

end NetForge
