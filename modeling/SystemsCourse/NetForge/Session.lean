import SystemsCourse.NetForge.Server

/-!
# One connection: which payloads are executed, and what is answered

The bytes that a client sends are cut by `splitFrames` into the leading run of complete frames
within the limit, and a rest.  `handleClient_spec`: the connection loop calls `execute` on exactly
these payloads, in order, answers each of them once, and answers the rest only if it starts with
an oversized header.  The three ways in which a round can go are `handleClient_frame`,
`handleClient_oversized` and `handleClient_end`.
-/

set_option linter.unusedVariables false

namespace NetForge
open Wire Stream

section
variable {σ : Type} (execute : σ → Bytes → Outcome Bytes × σ)

/-- `execute` on each payload in order: how the calls ended, and the last state -/
def executeAll (s : σ) : List Bytes → List (Outcome Bytes) × σ
  | [] => ([], s)
  | p :: ps =>
    ((execute s p).1 :: (executeAll (execute s p).2 ps).1, (executeAll (execute s p).2 ps).2)

theorem executeAll_nil (s : σ) : executeAll execute s [] = ([], s) := rfl
theorem executeAll_cons (s : σ) (p : Bytes) (ps : List Bytes) :
    executeAll execute s (p :: ps)
      = ((execute s p).1 :: (executeAll execute (execute s p).2 ps).1,
          (executeAll execute (execute s p).2 ps).2) := rfl

/-- stop is not requested, and the writes of responses succeed -/
def Client.Served (c : Client) : Prop :=
  (∀ b ∈ c.stops, b = false) ∧ ∀ e ∈ c.output.schedule, e.Transient

theorem Client.Served.stop {c : Client} (h : c.Served) : c.stops.head?.getD false = false := by
  cases hs : c.stops with
  | nil => rfl
  | cons b bs => exact h.1 b (by rw [hs]; exact List.mem_cons_self ..)

/-- the extra response to an oversized header -/
def tooLargeReply (maxPayload : Nat) (rest : Bytes) : List Bytes :=
  if Oversized maxPayload rest then [ascii "ERR frame too large"] else []

/-! ## one round -/

variable (maxPayload : Nat) (s : σ) (c : Client)

theorem handleClient_frame (h : c.Served) {p rest response : Bytes} {s' : σ}
    (hf : firstFrame headerSize maxPayload c.input.unread = some (p, rest))
    (he : execute s p = (.returned response, s')) (hr : response.length < 2^32) :
    ∃ c', c'.Served ∧ c'.input.unread = rest ∧
      c'.output.written = c.output.written ++ frame headerSize response ∧
      handleClient execute maxPayload s c =
        ((handleClient execute maxPayload s' c').1,
          p :: (handleClient execute maxPayload s' c').2.1,
          (handleClient execute maxPayload s' c').2.2) := by
  obtain ⟨input, e1, hu, _⟩ := recvFrame_some c.input maxPayload p rest hf
  obtain ⟨output, e2, hw, ht⟩ := sendFrame_transient c.output response hr h.2
  refine ⟨⟨input, output, c.stops.tail⟩, ⟨fun b hb => h.1 b (List.mem_of_mem_tail hb), ht⟩, hu, hw,
    ?_⟩
  rw [handleClient]
  simp only [h.stop, e1, he, e2, Bool.false_eq_true, if_false, ne_eq, not_true_eq_false, dite_false]

theorem handleClient_oversized (h : c.Served) (ho : Oversized maxPayload c.input.unread) :
    ∃ c', handleClient execute maxPayload s c = (.returned (), [], s, c') ∧
      c'.input.unread = c.input.unread.drop headerSize ∧
      c'.output.written
        = c.output.written ++ frames headerSize [ascii "ERR frame too large"] := by
  obtain ⟨input, e1, ha⟩ := recvFrame_oversized c.input maxPayload ho
  obtain ⟨output, e2, hw, _⟩ :=
    sendFrame_transient c.output (ascii "ERR frame too large") (by decide) h.2
  refine ⟨⟨input, output, c.stops.tail⟩, ?_, ha.1, by rw [hw, frames_singleton]⟩
  rw [handleClient]
  simp [h.stop, e1, e2]

theorem handleClient_end (h : c.Served)
    (hf : firstFrame headerSize maxPayload c.input.unread = none)
    (ho : ¬ Oversized maxPayload c.input.unread) :
    ∃ c', handleClient execute maxPayload s c = (.returned (), [], s, c') ∧
      c'.input.unread = [] ∧ c'.output.written = c.output.written := by
  obtain ⟨input, e1, hu⟩ := recvFrame_short c.input maxPayload hf ho
  refine ⟨⟨input, c.output, c.stops.tail⟩, ?_, hu, rfl⟩
  have h1 := endStatus_ne_ok c.input.ending
  have h2 := endStatus_ne_tooLarge c.input.ending
  rw [handleClient]
  simp [h.stop, e1, h1, h2]

/-! ## the whole connection -/

/-- **the connection loop**: one call of `execute` and one response per complete frame within the
limit, then at most the reply to an oversized header -/
theorem handleClient_spec (h : c.Served) (responses : List Bytes)
    (hx : (executeAll execute s (splitFrames headerSize maxPayload c.input.unread).1).1
      = responses.map .returned) (hr : ∀ r ∈ responses, r.length < 2^32) :
    ∃ c', handleClient execute maxPayload s c
        = (.returned (), (splitFrames headerSize maxPayload c.input.unread).1,
            (executeAll execute s (splitFrames headerSize maxPayload c.input.unread).1).2, c') ∧
      c'.output.written = c.output.written ++ frames headerSize (responses
        ++ tooLargeReply maxPayload (splitFrames headerSize maxPayload c.input.unread).2) ∧
      c'.input.unread =
        if Oversized maxPayload (splitFrames headerSize maxPayload c.input.unread).2 then
          (splitFrames headerSize maxPayload c.input.unread).2.drop headerSize else [] := by
  induction hn : c.input.unread.length using Nat.strong_induction_on
    generalizing s c responses with
  | _ n ih =>
    cases hf : firstFrame headerSize maxPayload c.input.unread with
    | none =>
      rw [splitFrames_none _ _ hf] at hx ⊢
      have hnil : responses = [] := by simpa [executeAll_nil] using hx.symm
      subst hnil
      rw [List.nil_append]
      by_cases ho : Oversized maxPayload c.input.unread
      · obtain ⟨c', e, hu, hw⟩ := handleClient_oversized execute maxPayload s c h ho
        refine ⟨c', e, ?_, by rw [if_pos ho, hu]⟩
        rw [hw, tooLargeReply, if_pos ho]
      · obtain ⟨c', e, hu, hw⟩ := handleClient_end execute maxPayload s c h hf ho
        refine ⟨c', e, ?_, by rw [if_neg ho, hu]⟩
        rw [hw, tooLargeReply, if_neg ho, frames_nil, List.append_nil]
    | some pr =>
      obtain ⟨p, rest⟩ := pr
      rw [splitFrames_some _ _ hf] at hx ⊢
      dsimp only at hx ⊢
      rw [executeAll_cons] at hx ⊢
      dsimp only at hx ⊢
      cases responses with
      | nil => simp at hx
      | cons response responses =>
        rw [List.map_cons] at hx
        obtain ⟨hx1, hx2⟩ := List.cons.inj hx
        obtain ⟨c₁, hs1, hu1, hw1, e1⟩ := handleClient_frame execute maxPayload s c h hf
          (show execute s p = (.returned response, (execute s p).2) from Prod.ext hx1 rfl)
          (hr response (List.mem_cons_self ..))
        have hlt : c₁.input.unread.length < n := by
          rw [hu1, ← hn]; exact firstFrame_rest_lt hf
        rw [← hu1] at hx2 ⊢
        obtain ⟨c', e2, hw2, hu2⟩ := ih _ hlt (execute s p).2 c₁ hs1 responses hx2
          (fun r hm => hr r (List.mem_cons_of_mem _ hm)) rfl
        refine ⟨c', by rw [e1, e2], ?_, hu2⟩
        rw [hw2, hw1, List.cons_append, frames_cons, List.append_assoc]

end

/-! ## the connection of a server -/

namespace Server

theorem executeAll_returns (sv : Server) (hc : sv.CrashFree) (ps : List Bytes)
    (hp : ∀ p ∈ ps, p.length ≤ kDefaultMaxPayload) :
    ∃ responses : List Bytes, (executeAll execute sv ps).1 = responses.map .returned := by
  induction ps generalizing sv with
  | nil => exact ⟨[], rfl⟩
  | cons p ps ih =>
    obtain ⟨response, sv', e, hc'⟩ := sv.execute_returns hc (hp p (List.mem_cons_self ..))
    obtain ⟨responses, h⟩ := ih sv' hc' (fun q hq => hp q (List.mem_cons_of_mem _ hq))
    refine ⟨response :: responses, ?_⟩
    rw [executeAll_cons, e, List.map_cons, h]

/-- only a `SET` or `DEL` that parses moves the server to another state -/
theorem executeAll_mutations (sv : Server) (ps : List Bytes) :
    (executeAll execute sv ps).2
      = (executeAll execute sv (ps.filter fun p => (recordMutation p).isSome)).2 := by
  induction ps generalizing sv with
  | nil => rfl
  | cons p ps ih =>
    cases hm : recordMutation p with
    | none =>
      obtain ⟨response, e⟩ := sv.execute_other hm
      rw [List.filter_cons_of_neg (by rw [hm]; exact Bool.false_ne_true), executeAll_cons, e]
      exact ih sv
    | some m =>
      rw [List.filter_cons_of_pos (by rw [hm]; rfl), executeAll_cons, executeAll_cons]
      exact ih _

end Server

/-- **one connection of the server**: the executed payloads are the longest run of complete frames
within the limit at the start of the stream, each is answered once and in order, and what follows
them is answered only if it is an oversized header, and is never executed -/
theorem session_semantics (sv : Server) (c : Client)
    (hmax : sv.options.maxPayload ≤ kDefaultMaxPayload) (hcf : sv.CrashFree) (hs : c.Served)
    (hr : ∀ r, Outcome.returned r ∈ (executeAll Server.execute sv
      (splitFrames headerSize sv.options.maxPayload c.input.unread).1).1 → r.length < 2^32) :
    ∃ payloads rest responses c',
      c.input.unread = frames headerSize payloads ++ rest ∧
      Fits headerSize sv.options.maxPayload payloads ∧
      (∀ qs, Fits headerSize sv.options.maxPayload qs →
        frames headerSize qs <+: c.input.unread → qs <+: payloads) ∧
      (executeAll Server.execute sv payloads).1 = responses.map .returned ∧
      sv.handleClient c
        = (.returned (), payloads, (executeAll Server.execute sv payloads).2, c') ∧
      c'.output.written = c.output.written ++ frames headerSize (responses
        ++ if Oversized sv.options.maxPayload rest then [ascii "ERR frame too large"] else []) ∧
      c'.input.unread
        = (if Oversized sv.options.maxPayload rest then rest.drop headerSize else []) ∧
      (executeAll Server.execute sv payloads).2 = (executeAll Server.execute sv
        (payloads.filter fun p => (recordMutation p).isSome)).2 := by
  obtain ⟨hsplit, hfits, _⟩ := splitFrames_spec headerSize sv.options.maxPayload c.input.unread
  obtain ⟨responses, hx⟩ := sv.executeAll_returns hcf _ fun p hp => (hfits p hp).1.trans hmax
  have hr' : ∀ r ∈ responses, r.length < 2^32 := by
    intro r hm
    refine hr r ?_
    rw [hx]
    exact List.mem_map_of_mem hm
  obtain ⟨c', e, hw, hu⟩ :=
    handleClient_spec Server.execute sv.options.maxPayload sv c hs responses hx hr'
  exact ⟨_, _, responses, c', hsplit, hfits,
    fun qs hq hp => splitFrames_longest headerSize _ _ qs hq hp, hx, e, hw, hu,
    sv.executeAll_mutations _⟩

/-- a server without a log, and a client that sends `PING`, an oversized header and more bytes -/
def pingServer : Server := ⟨{}, KvStore.empty, Wal.new [] none ⟨[], []⟩, ⟨4, 64, 0, 0⟩, [], true⟩

def pingClient : Client :=
  ⟨⟨frames headerSize [ascii "PING"] ++ ([255, 255, 255, 255] ++ ascii "DEL a"), .eof,
    [.count 0, .eintr, .count 2], 0⟩, ⟨[], [.eintr, .count 1]⟩, []⟩

theorem pingClient_split : splitFrames headerSize pingServer.options.maxPayload
    pingClient.input.unread = ([ascii "PING"], [255, 255, 255, 255] ++ ascii "DEL a") :=
  splitFrames_unique headerSize _ [ascii "PING"] _ (by unfold Fits; decide) (by decide)

theorem session_semantics_ping :
    ∃ (payloads : List Bytes) (rest : Bytes) (responses : List Bytes) (c' : Client),
      pingClient.input.unread = frames headerSize payloads ++ rest ∧
      (executeAll Server.execute pingServer payloads).1 = responses.map .returned ∧
      pingServer.handleClient pingClient
        = (.returned (), payloads, (executeAll Server.execute pingServer payloads).2, c') := by
  have hr : ∀ r, Outcome.returned r ∈ (executeAll Server.execute pingServer
      (splitFrames headerSize pingServer.options.maxPayload pingClient.input.unread).1).1 →
      r.length < 2^32 := by
    rw [pingClient_split]
    intro r h
    rw [show (executeAll Server.execute pingServer [ascii "PING"]).1
      = [Outcome.returned (ascii "PONG")] from rfl, List.mem_singleton] at h
    cases h
    decide
  obtain ⟨payloads, rest, responses, c', h1, _, _, h2, h3, _⟩ :=
    session_semantics pingServer pingClient (by decide) (by intro io h; cases h)
      ⟨by decide, by simp [pingClient, WriteEvent.Transient]⟩ hr
  exact ⟨payloads, rest, responses, c', h1, h2, h3⟩

end NetForge
