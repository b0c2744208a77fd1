import SystemsCourse.NetForge.Framing
import SystemsCourse.NetForge.Concurrent

/-!
# The length of responses

`Bounded`: each value of the store leaves room for `"VALUE "` within the protocol limit.  A `SET`
within the limit has a verb, a key and two separators besides its value, which is as much as the
prefix takes, so each request and each replayed record keeps `Bounded`.

`response_bound` is the result: no response is longer than what the client accepts.
-/

set_option linter.unusedVariables false

namespace NetForge
open Wire Stream

/-! ## the store -/

/-- the response to a `GET` of each key is within the limit -/
def KvStore.Bounded (s : KvStore) : Prop :=
  ∀ k v, s.get k = some v → v.length + 6 ≤ kDefaultMaxPayload

theorem bounded_empty : KvStore.empty.Bounded := by
  intro k v h
  have hn : KvStore.empty.get k = none := rfl
  rw [hn] at h
  cases h

/-- a request within the limit has room for six bytes besides the value -/
theorem value_length {p k v : Bytes} (h : parseCommand p = .ok (.set k v))
    (hp : p.length ≤ kDefaultMaxPayload) : v.length + 6 ≤ kDefaultMaxPayload := by
  obtain ⟨_, hk, _, _, ht⟩ := (parseCommand_set p k v).mp h
  have hlen := setText_length ht
  have hpos := List.length_pos_of_ne_nil (validKey_chars hk).1
  omega

section
variable {s : KvStore} (hs : s.Bounded)
include hs

theorem KvStore.Bounded.set (k : Bytes) {v : Bytes} (hv : v.length + 6 ≤ kDefaultMaxPayload) :
    (s.set k v).Bounded := by
  intro k' v' h
  have h' : (s.values.insert k v).lookup k' = some v' := h
  by_cases hk : k' = k
  · subst hk
    rw [Finmap.lookup_insert] at h'
    cases h'
    exact hv
  · rw [Finmap.lookup_insert_of_ne _ hk] at h'
    exact hs k' v' h'

theorem KvStore.Bounded.erase (k : Bytes) : (s.erase k).2.Bounded := by
  intro k' v' h
  have h' : (s.values.erase k).lookup k' = some v' := h
  by_cases hk : k' = k
  · subst hk
    rw [Finmap.lookup_erase] at h'
    cases h'
  · rw [Finmap.lookup_erase_ne hk] at h'
    exact hs k' v' h'

theorem KvStore.Bounded.apply {p : Bytes} {c : Command} {m : Mutation}
    (hc : parseCommand p = .ok c) (hm : c.mutation = some m)
    (hp : p.length ≤ kDefaultMaxPayload) : (m.apply s).Bounded := by
  cases c with
  | set k v =>
    cases hm
    exact hs.set k (value_length hc hp)
  | del k =>
    cases hm
    exact hs.erase k
  | ping => cases hm
  | stats => cases hm
  | get k => cases hm

end

/-- a body that was read is as long as its header said -/
theorem readExact_length {r : Source} {size : Nat} (h : (readExact r size).1.status = .ok) :
    (readExact r size).2.1.length = size := by
  obtain ⟨hl, e, _⟩ := readExact_ok h
  rw [e, List.length_take, Nat.min_eq_left hl]

/-- replay keeps the bound, whatever the file holds and however the calls end -/
theorem recoverLoop_bounded (file : WalFile) (io : RecoverIo) (input : Source) (store : KvStore)
    (completeSize : Nat) (hs : store.Bounded) :
    (recoverLoop file io input store completeSize).2.1.Bounded := by
  -- only the cases of a `SET` and of a `DEL` go on
  fun_induction recoverLoop file io input store completeSize with
  | case7 input store size header _ _ length hle body _ hb k v hp ih =>
    have hlen : body.2.1.length = length := readExact_length (Decidable.not_not.mp hb)
    exact ih (hs.set k (value_length hp (by omega)))
  | case8 input store size header _ _ length hle body _ hb k hp ih => exact ih (hs.erase k)
  | _ => exact hs

theorem recover_bounded (wal : Wal) (io : RecoverIo) :
    (wal.recover KvStore.empty io).2.1.Bounded := by
  unfold Wal.recover
  by_cases hp : wal.path = []
  · rw [if_pos hp]
    exact bounded_empty
  · rw [if_neg hp]
    cases io.openError with
    | some enoent => exact bounded_empty
    | none => exact recoverLoop_bounded _ _ _ _ _ bounded_empty

namespace Server

/-- whatever the constructor does, the options are kept and the store is bounded -/
theorem new_bounded (options : ServerOptions) (opened : Option AppendIo) (file : WalFile)
    (io : RecoverIo) (listenError : Option Bytes) :
    (new options opened file io listenError).2.options = options ∧
      (new options opened file io listenError).2.store.Bounded := by
  unfold new
  dsimp only
  by_cases h1 : options.maxPayload > kDefaultMaxPayload
  · rw [if_pos h1]
    exact ⟨rfl, bounded_empty⟩
  · rw [if_neg h1]
    by_cases h2 : options.walPath ≠ [] ∧ (Wal.new options.walPath opened file).enabled = false
    · rw [if_pos h2]
      exact ⟨rfl, bounded_empty⟩
    · rw [if_neg h2]
      have hb := recover_bounded (Wal.new options.walPath opened file) io
      generalize (Wal.new options.walPath opened file).recover KvStore.empty io = result at hb ⊢
      obtain ⟨r, store, file'⟩ := result
      match r, listenError with
      | none, _ => exact ⟨rfl, hb⟩
      | some false, _ => exact ⟨rfl, hb⟩
      | some true, none => exact ⟨rfl, hb⟩
      | some true, some what => exact ⟨rfl, hb⟩

theorem digits_length (n : UInt64) : (ascii (toString n.toNat)).length ≤ 20 := by
  have h : (toString n.toNat).length ≤ 20 :=
    (Nat.length_repr_le_iff (by decide)).mpr (lt_of_lt_of_le n.toNat_lt (by decide))
  unfold ascii
  rw [List.length_map, String.length_toList]
  exact h

theorem statsText_length (keys submitted completed : UInt64) :
    (statsText keys submitted completed).length ≤ kDefaultMaxPayload := by
  have h1 := digits_length keys
  have h2 := digits_length submitted
  have h3 := digits_length completed
  unfold statsText
  simp only [List.length_append]
  have e1 : (ascii "keys=").length = 5 := rfl
  have e2 : (ascii " submitted=").length = 11 := rfl
  have e3 : (ascii " completed=").length = 11 := rfl
  have e4 : kDefaultMaxPayload = 65536 := rfl
  omega

/-- the diagnostics of the parser are short -/
theorem parseError_length {p : Bytes} {e : ParseError} (h : parseCommand p = .error e) :
    e.message.length ≤ 64 := by
  unfold parseCommand at h
  dsimp only at h
  split_ifs at h <;> cases h <;> decide

theorem answer_length (m : Mutation) (store : KvStore) :
    (answer m store).length ≤ kDefaultMaxPayload := by
  cases m with
  | set k v =>
    show (ascii "OK").length ≤ kDefaultMaxPayload
    decide
  | del k =>
    unfold answer
    dsimp only
    split_ifs <;> decide

/-- a request that is no mutation -/
theorem execute_other_length (sv : Server) (hs : sv.store.Bounded) {p : Bytes}
    (h : recordMutation p = none) {r : Bytes} (hr : (sv.execute p).1 = .returned r) :
    r.length ≤ kDefaultMaxPayload := by
  unfold execute at hr
  unfold recordMutation at h
  cases hp : parseCommand p with
  | error e =>
    rw [hp] at hr
    cases hr
    have hl := parseError_length hp
    have h4 : (ascii "ERR ").length = 4 := rfl
    have h5 : kDefaultMaxPayload = 65536 := rfl
    rw [List.length_append]
    omega
  | ok c =>
    rw [hp] at hr h
    cases c with
    | ping =>
      cases hr
      decide
    | stats =>
      cases hr
      exact statsText_length ..
    | get k =>
      dsimp only at hr
      cases hg : sv.store.get k with
      | some v =>
        rw [hg] at hr
        cases hr
        have hv := hs k v hg
        have h6 : (ascii "VALUE ").length = 6 := rfl
        rw [List.length_append]
        omega
      | none =>
        rw [hg] at hr
        cases hr
        decide
    | set k v => cases h
    | del k => cases h

/-- **one request within the limit** keeps the store bounded and has a short response -/
theorem execute_bounded (sv : Server) (hs : sv.store.Bounded) {p : Bytes}
    (hp : p.length ≤ kDefaultMaxPayload) :
    (sv.execute p).2.store.Bounded ∧ (sv.execute p).2.options = sv.options ∧
      ∀ r, (sv.execute p).1 = .returned r → r.length ≤ kDefaultMaxPayload := by
  cases hm : recordMutation p with
  | none =>
    obtain ⟨response, e⟩ := sv.execute_other hm
    have hr := sv.execute_other_length hs hm (r := response) (by rw [e])
    rw [e]
    refine ⟨hs, rfl, ?_⟩
    intro r h
    cases h
    exact hr
  | some m =>
    obtain ⟨c, hc, hcm⟩ := recordMutation_some hm
    have ha := hs.apply hc hcm hp
    rw [sv.execute_mutation hm]
    rcases sv.wal.appendRecord m.record with ⟨o, wal⟩
    match o with
    | .returned true =>
      refine ⟨ha, rfl, ?_⟩
      intro r h
      cases h
      exact answer_length ..
    | .returned false =>
      refine ⟨hs, rfl, ?_⟩
      intro r h
      cases h
      decide
    | .threw what => exact ⟨hs, rfl, nofun⟩
    | .crashed => exact ⟨hs, rfl, nofun⟩

/-! ## runs -/

/-- what happens to a server: a client sends a request, or the counters of the pool change -/
inductive Change where
  | request (payload : Bytes)
  | counters (submitted completed : UInt64)

/-- `recv_frame` passes on no payload beyond the limit -/
def change (sv : Server) : Change → Server
  | .request payload =>
    if payload.length ≤ sv.options.maxPayload then (sv.execute payload).2 else sv
  | .counters submitted completed =>
    { sv with pool := { sv.pool with submitted := submitted, completed := completed } }

theorem change_bounded (sv : Server) (hs : sv.store.Bounded)
    (hmax : sv.options.maxPayload ≤ kDefaultMaxPayload) (c : Change) :
    (sv.change c).store.Bounded ∧ (sv.change c).options = sv.options := by
  cases c with
  | request payload =>
    unfold change
    dsimp only
    by_cases hp : payload.length ≤ sv.options.maxPayload
    · rw [if_pos hp]
      obtain ⟨h1, h2, _⟩ := sv.execute_bounded hs (hp.trans hmax)
      exact ⟨h1, h2⟩
    · rw [if_neg hp]
      exact ⟨hs, rfl⟩
  | counters submitted completed => exact ⟨hs, rfl⟩

theorem run_bounded (changes : List Change) (sv : Server) (hs : sv.store.Bounded)
    (hmax : sv.options.maxPayload ≤ kDefaultMaxPayload) :
    (changes.foldl change sv).store.Bounded ∧ (changes.foldl change sv).options = sv.options := by
  induction changes generalizing sv with
  | nil => exact ⟨hs, rfl⟩
  | cons c changes ih =>
    obtain ⟨h1, h2⟩ := sv.change_bounded hs hmax c
    obtain ⟨h3, h4⟩ := ih (sv.change c) h1 (by rw [h2]; exact hmax)
    exact ⟨h3, h4.trans h2⟩

end Server

/-! ## interleaved requests -/

namespace System
variable {Tid : Type} [DecidableEq Tid]

/-- what a thread will still do keeps the store bounded, and its response is short -/
def Short : Pc → Prop
  | .idle => True
  | .start _ c => ∃ p, p.length ≤ kDefaultMaxPayload ∧ parseCommand p = .ok c
  | .locked _ c m => c.mutation = some m ∧
      ∃ p, p.length ≤ kDefaultMaxPayload ∧ parseCommand p = .ok c
  | .logged _ c m => c.mutation = some m ∧
      ∃ p, p.length ≤ kDefaultMaxPayload ∧ parseCommand p = .ok c
  | .unlocking _ _ r => r.length ≤ kDefaultMaxPayload
  | .done _ _ r => r.length ≤ kDefaultMaxPayload

structure AllShort (x : System Tid) : Prop where
  store : x.store.Bounded
  threads : ∀ t, Short (x.pc t)
  history : ∀ i r, .res i r ∈ x.history → r.length ≤ kDefaultMaxPayload

theorem getResponse_length {s : KvStore} (hs : s.Bounded) (k : Bytes) :
    (getResponse s k).length ≤ kDefaultMaxPayload := by
  unfold getResponse
  cases hg : s.get k with
  | some v =>
    have hv := hs k v hg
    have h6 : (ascii "VALUE ").length = 6 := rfl
    dsimp only
    rw [List.length_append]
    omega
  | none => decide

theorem AllShort.goto {x : System Tid} (h : x.AllShort) (t : Tid) {p : Pc} (hp : Short p) (t' : Tid) :
    Short ((x.goto t p).pc t') := by
  by_cases ht : t' = t
  · subst ht
    rw [pc_goto]
    exact hp
  · rw [pc_goto_ne _ ht]
    exact h.threads t'

theorem step_short {x y : System Tid} (h : x.AllShort) (hstep : Step x y) : y.AllShort := by
  cases hstep with
  | request t p c hpc hp hc hk =>
    refine ⟨h.store, h.goto t ⟨p, hp, hc⟩, ?_⟩
    intro i r hm
    rcases List.mem_append.mp hm with hm | hm
    · exact h.history i r hm
    · cases List.mem_singleton.mp hm
  | read t i k hpc => exact ⟨h.store, h.goto t (getResponse_length h.store k), h.history⟩
  | lock t i c m hpc hm hfree =>
    have ht := h.threads t
    rw [hpc] at ht
    exact ⟨h.store, h.goto t ⟨hm, ht⟩, h.history⟩
  | append t i c m wal hpc he =>
    have ht := h.threads t
    rw [hpc] at ht
    exact ⟨h.store, h.goto t ht, h.history⟩
  | refuse t i c m wal hpc he =>
    exact ⟨h.store, h.goto t (show (ascii "ERR WAL failure").length ≤ _ by decide), h.history⟩
  | apply t i c m hpc =>
    have ht := h.threads t
    rw [hpc] at ht
    obtain ⟨hm, p, hp, hc⟩ := ht
    exact ⟨h.store.apply hc hm hp, h.goto t (Server.answer_length m x.store), h.history⟩
  | unlock t i c r hpc =>
    have ht := h.threads t
    rw [hpc] at ht
    exact ⟨h.store, h.goto t ht, h.history⟩
  | respond t i c r hpc =>
    have ht := h.threads t
    rw [hpc] at ht
    refine ⟨h.store, h.goto t trivial, ?_⟩
    intro j r' hm
    rcases List.mem_append.mp hm with hm | hm
    · exact h.history j r' hm
    · cases List.mem_singleton.mp hm
      exact ht

theorem run_short {x y : System Tid} (h : x.AllShort) (hrun : Relation.ReflTransGen Step x y) :
    y.AllShort := by
  induction hrun with
  | refl => exact h
  | tail _ hstep ih => exact step_short ih hstep

end System

/-! ## the client -/

/-- a response within the limit is never refused, however much of its frame has arrived -/
theorem recvFrame_accepts {r : Bytes} (hr : r.length ≤ kDefaultMaxPayload) (input : Source)
    (hi : input.unread <+: frame headerSize r) :
    (recvFrame input kDefaultMaxPayload).1.status ≠ .tooLarge := by
  have ho : ¬ Oversized kDefaultMaxPayload input.unread :=
    cut_not_oversized r _ _ (lt_of_le_of_lt hr (by decide)) hr hi
  cases hf : firstFrame headerSize kDefaultMaxPayload input.unread with
  | some pr =>
    obtain ⟨r', e, _⟩ := recvFrame_some input _ pr.1 pr.2 hf
    rw [e]
    nofun
  | none =>
    obtain ⟨r', e, _⟩ := recvFrame_short input _ hf ho
    rw [e]
    exact endStatus_ne_tooLarge _

/-- **Every response fits the protocol limit.**  For a server with accepted options, whatever log
it recovered from, after any run: the response to a request that `recv_frame` passes on is within
the limit, and so is each response of any interleaving of requests; the client, which reads with
the default limit, does not refuse it. -/
theorem response_bound (options : ServerOptions) (opened : Option AppendIo) (file : WalFile)
    (io : RecoverIo) (listenError : Option Bytes)
    (hmax : options.maxPayload ≤ kDefaultMaxPayload) (changes : List Server.Change) (sv : Server)
    (hsv : sv = changes.foldl Server.change (Server.new options opened file io listenError).2) :
    (∀ p r, p.length ≤ options.maxPayload → (sv.execute p).1 = .returned r →
      r.length ≤ kDefaultMaxPayload ∧ ∀ input : Source, input.unread <+: frame headerSize r →
        (recvFrame input kDefaultMaxPayload).1.status ≠ .tooLarge) ∧
    (∀ (Tid : Type) [DecidableEq Tid] (x : System Tid),
      Relation.ReflTransGen System.Step (System.init sv) x →
      ∀ i r, .res i r ∈ x.history →
        r.length ≤ kDefaultMaxPayload ∧ ∀ input : Source, input.unread <+: frame headerSize r →
          (recvFrame input kDefaultMaxPayload).1.status ≠ .tooLarge) := by
  obtain ⟨h1, h2⟩ := Server.new_bounded options opened file io listenError
  obtain ⟨hs, _⟩ := Server.run_bounded changes _ h2 (by rw [h1]; exact hmax)
  rw [← hsv] at hs
  constructor
  · intro p r hp hr
    have hl := (sv.execute_bounded hs (hp.trans hmax)).2.2 r hr
    exact ⟨hl, fun input hi => recvFrame_accepts hl input hi⟩
  · intro Tid _ x hrun i r hm
    have hinit : (System.init sv : System Tid).AllShort := ⟨hs, fun _ => trivial, nofun⟩
    have hl := (System.run_short hinit hrun).history i r hm
    exact ⟨hl, fun input hi => recvFrame_accepts hl input hi⟩

/-- a server without a log that stores a value and returns it -/
theorem response_bound_get :
    ((Server.change (Server.new {} none ⟨[], []⟩ ⟨none, [], .eof, [], []⟩ none).2
      (.request (ascii "SET k v"))).execute (ascii "GET k")).1 = .returned (ascii "VALUE v") ∧
    (ascii "VALUE v").length ≤ kDefaultMaxPayload := by
  have hr : ((Server.change (Server.new {} none ⟨[], []⟩ ⟨none, [], .eof, [], []⟩ none).2
      (.request (ascii "SET k v"))).execute (ascii "GET k")).1 = .returned (ascii "VALUE v") := by
    decide +kernel
  obtain ⟨h, _⟩ := response_bound {} none ⟨[], []⟩ ⟨none, [], .eof, [], []⟩ none (by decide)
    [.request (ascii "SET k v")] _ rfl
  exact ⟨hr, (h (ascii "GET k") _ (by decide) hr).1⟩

end NetForge
