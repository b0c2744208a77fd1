import SystemsCourse.NetForge.GracefulStop

/-!
# What becomes of the connections

The loop keeps account of its connections (`Accounted`): one that is neither closed nor rejected nor
accepted by the pool is the one that the loop is at.  When `run` has returned there is none, and the
workers have run all others (`connections_accounted`).
-/

set_option linter.unusedSectionVars false
set_option linter.unusedVariables false

namespace NetForge
open Wire Actions Threads

/-- the connection that the loop is at -/
def LoopPc.conn : LoopPc → Option ℕ
  | .configure c => some c
  | .share c => some c
  | .submitting c _ => some c
  | .reject c => some c
  | _ => none

/-- A connection that the loop has, or that was submitted and is not accepted yet, is the one that the
loop is at; no two connections have the same task; the refusals were sent to rejected connections, one
each. -/
structure Accounted (calls : ℕ) (returns : List (ℕ × SubmitResult)) (conns : List Conn)
    (sent : List (ℕ × Bytes)) (pc : LoopPc) : Prop where
  held : ∀ c, conns[c]? = some .held → pc.conn = some c
  submitted : ∀ c k : ℕ, conns[c]? = some (.submitted k) → (k, .accepted) ∈ returns ∨ pc.conn = some c
  fresh : ∀ c k : ℕ, conns[c]? = some (.submitted k) → k < calls
  unique : ∀ c c' k : ℕ, conns[c]? = some (.submitted k) → conns[c']? = some (.submitted k) → c = c'
  refusals : ∀ e ∈ sent, e.2 = ascii "ERR overloaded" ∧ conns[e.1]? = some .rejected
  once : (sent.map Prod.fst).Nodup

namespace Accounted
variable {calls calls' : ℕ} {returns returns' : List (ℕ × SubmitResult)} {conns : List Conn}
  {sent : List (ℕ × Bytes)} {pc : LoopPc} (h : Accounted calls returns conns sent pc)
include h

/-- the loop goes on with the same connection, or without one -/
theorem goto (pc' : LoopPc) (hc : pc'.conn = pc.conn) : Accounted calls returns conns sent pc' where
  held c hs := hc.trans (h.held c hs)
  submitted c k hs := (h.submitted c k hs).imp_right hc.trans
  fresh := h.fresh
  unique := h.unique
  refusals := h.refusals
  once := h.once

/-- calls of `submit` go on in the pool -/
theorem pool (hcalls : calls ≤ calls') (hret : ∀ e ∈ returns, e ∈ returns') :
    Accounted calls' returns' conns sent pc where
  held := h.held
  submitted c k hc := (h.submitted c k hc).imp_left (hret _)
  fresh c k hc := Nat.lt_of_lt_of_le (h.fresh c k hc) hcalls
  unique := h.unique
  refusals := h.refusals
  once := h.once

/-- the connection of the loop was accepted by the pool -/
theorem accepted {c k : ℕ} (hpc : pc.conn = some c) (hs : conns[c]? = some (.submitted k))
    (hk : (k, .accepted) ∈ returns) (pc' : LoopPc) : Accounted calls returns conns sent pc' where
  held i hi := by
    cases hpc.symm.trans (h.held i hi)
    cases hs.symm.trans hi
  submitted i j hi := by
    rcases h.submitted i j hi with e | e
    · exact Or.inl e
    · cases hpc.symm.trans e
      cases hs.symm.trans hi
      exact Or.inl hk
  fresh := h.fresh
  unique := h.unique
  refusals := h.refusals
  once := h.once

/-- a connection comes to the loop -/
theorem accept (hpc : pc.conn = none) :
    Accounted calls returns (conns ++ [.held]) sent (.configure conns.length) := by
  have hold {c : ℕ} {s : Conn} (hc : (conns ++ [.held])[c]? = some s) :
      conns[c]? = some s ∨ c = conns.length ∧ s = .held := by
    rcases Nat.lt_or_ge c conns.length with hlt | hge
    · rw [List.getElem?_append_left hlt] at hc
      exact Or.inl hc
    · have hlen := (List.getElem?_eq_some_iff.mp hc).1
      rw [List.length_append, List.length_singleton] at hlen
      obtain rfl := Nat.le_antisymm hge (Nat.lt_succ_iff.mp hlen)
      rw [List.getElem?_concat_length] at hc
      exact Or.inr ⟨rfl, (Option.some.inj hc).symm⟩
  have hsub {c k : ℕ} (hc : (conns ++ [.held])[c]? = some (.submitted k)) :
      conns[c]? = some (.submitted k) := (hold hc).resolve_right fun e => nomatch e.2
  refine ⟨?_, ?_, fun c k hc => h.fresh c k (hsub hc),
    fun c c' k hc hc' => h.unique c c' k (hsub hc) (hsub hc'), ?_, h.once⟩
  · intro c hc
    rcases hold hc with e | ⟨rfl, _⟩
    · cases hpc.symm.trans (h.held c e)
    · rfl
  · intro c k hc
    rcases h.submitted c k (hsub hc) with e | e
    · exact Or.inl e
    · cases hpc.symm.trans e
  · intro e he
    obtain ⟨h1, h2⟩ := h.refusals e he
    exact ⟨h1, (List.getElem?_append_left (List.getElem?_eq_some_iff.mp h2).1).trans h2⟩

section
variable {c : ℕ} {s : Conn} (hpc : pc.conn = some c) (hs : conns[c]? = some s) (hsr : s ≠ .rejected)
include hpc hs hsr

/-- the loop changes the state of its connection; a new task is the next one -/
theorem set (s' : Conn) (hheld : s' ≠ .held) (pc' : LoopPc) (hcalls : calls ≤ calls')
    (hnew : ∀ k, s' = .submitted k → k = calls ∧ calls < calls' ∧ pc'.conn = some c) :
    Accounted calls' returns (conns.set c s') sent pc' := by
  have hlt := (List.getElem?_eq_some_iff.mp hs).1
  have hold {i : ℕ} {q : Conn} (hc : (conns.set c s')[i]? = some q) :
      i = c ∧ s' = q ∨ i ≠ c ∧ conns[i]? = some q := by
    by_cases hi : i = c
    · subst hi
      rw [List.getElem?_set_self hlt] at hc
      exact Or.inl ⟨rfl, Option.some.inj hc⟩
    · rw [List.getElem?_set_ne (Ne.symm hi)] at hc
      exact Or.inr ⟨hi, hc⟩
  have hfresh {i k : ℕ} (hc : conns[i]? = some (.submitted k)) : s' ≠ .submitted k := fun e =>
    Nat.lt_irrefl k (by
      have := h.fresh i k hc
      rwa [← (hnew k e).1] at this)
  refine ⟨?_, ?_, ?_, ?_, ?_, h.once⟩
  · intro i hi
    rcases hold hi with ⟨_, e⟩ | ⟨hne, e⟩
    · exact absurd e hheld
    · cases hpc.symm.trans (h.held i e)
      exact absurd rfl hne
  · intro i k hi
    rcases hold hi with ⟨rfl, e⟩ | ⟨hne, e⟩
    · exact Or.inr (hnew k e).2.2
    · rcases h.submitted i k e with e | e
      · exact Or.inl e
      · cases hpc.symm.trans e
        exact absurd rfl hne
  · intro i k hi
    rcases hold hi with ⟨_, e⟩ | ⟨_, e⟩
    · obtain ⟨rfl, hlt, _⟩ := hnew k e
      exact hlt
    · exact Nat.lt_of_lt_of_le (h.fresh i k e) hcalls
  · intro i j k hi hj
    rcases hold hi with ⟨rfl, ei⟩ | ⟨_, ei⟩
    · rcases hold hj with ⟨rfl, _⟩ | ⟨_, ej⟩
      · rfl
      · exact absurd ei (hfresh ej)
    · rcases hold hj with ⟨rfl, ej⟩ | ⟨_, ej⟩
      · exact absurd ej (hfresh ei)
      · exact h.unique i j k ei ej
  · intro e he
    obtain ⟨h1, h2⟩ := h.refusals e he
    have hne : c ≠ e.1 := by
      rintro rfl
      exact hsr (Option.some.inj (hs.symm.trans h2))
    exact ⟨h1, by rwa [List.getElem?_set_ne hne]⟩

theorem close (pc' : LoopPc) : Accounted calls returns (conns.set c .closed) sent pc' :=
  h.set hpc hs hsr .closed nofun pc' (Nat.le_refl _) nofun

/-- the loop rejects its connection, and may have sent the refusal -/
theorem reject (ok : Bool) (pc' : LoopPc) : Accounted calls returns (conns.set c .rejected)
    (if ok then sent ++ [(c, ascii "ERR overloaded")] else sent) pc' := by
  have hd := h.set hpc hs hsr .rejected nofun pc' (Nat.le_refl _) nofun
  cases ok with
  | false => exact hd
  | true =>
    refine ⟨hd.held, hd.submitted, hd.fresh, hd.unique, ?_, ?_⟩
    · intro e he
      rcases List.mem_append.mp he with he | he
      · exact hd.refusals e he
      · cases List.mem_singleton.mp he
        exact ⟨rfl, List.getElem?_set_self (List.getElem?_eq_some_iff.mp hs).1⟩
    · rw [if_pos rfl, List.map_append]
      refine List.nodup_append.mpr ⟨h.once, List.nodup_singleton c, ?_⟩
      rintro a ha b hb rfl
      cases List.mem_singleton.mp hb
      obtain ⟨e, he, rfl⟩ := List.mem_map.mp ha
      exact hsr (Option.some.inj (hs.symm.trans (h.refusals e he).2))

end

end Accounted

namespace ThreadPool
variable {Tid : Type} [DecidableEq Tid] {x : ThreadPool Tid}

/-- the calls of `submit` are counted, and how they ended is not forgotten -/
theorem returns_act (a : PoolAct Tid) :
    x.calls ≤ (a.out x).calls ∧ ∀ e ∈ x.returns, e ∈ (a.out x).returns := by
  cases a with
  | submit t => exact ⟨Nat.le_succ _, fun _ he => he⟩
  | submitEmpty t => exact ⟨Nat.le_succ _, fun _ he => List.mem_append_left _ he⟩
  | loadFlag t k =>
    exact PoolAct.loadFlag_out (fun y => x.calls ≤ y.calls ∧ ∀ e ∈ x.returns, e ∈ y.returns)
      ⟨Nat.le_refl _, fun _ he => List.mem_append_left _ he⟩ ⟨Nat.le_refl _, fun _ he => he⟩
  | pushed t k => exact ⟨Nat.le_refl _, fun _ he => List.mem_append_left _ he⟩
  | rollback t k thrown => exact ⟨Nat.le_refl _, fun _ he => List.mem_append_left _ he⟩
  | exchange t =>
    exact PoolAct.exchange_out (fun y => x.calls ≤ y.calls ∧ ∀ e ∈ x.returns, e ∈ y.returns)
      ⟨Nat.le_refl _, fun _ he => he⟩ ⟨Nat.le_refl _, fun _ he => he⟩
  | _ => exact ⟨Nat.le_refl _, fun _ he => he⟩

end ThreadPool

namespace AcceptLoop
variable {Tid : Type} [DecidableEq Tid] [Fintype Tid] {acceptor : Tid} {x : AcceptLoop Tid}
  {tasks : BlockingQueue ℕ} {worker : Tid → Bool}

def Kept (x : AcceptLoop Tid) : Prop := Accounted x.pool.calls x.pool.returns x.conns x.sent x.pc

theorem Kept.act (h : x.Kept) (hinv : x.Inv acceptor tasks worker) (a : LoopAct Tid)
    (ha : a.Ok acceptor x) : (a.out acceptor x).Kept := by
  have hhand := hinv.custody.hand
  obtain ⟨pool, pc, stopRequested, error, conns, sent⟩ := x
  have h : Accounted pool.calls pool.returns conns sent pc := h
  dsimp only at hhand
  cases a with
  | stop =>
    obtain ⟨rfl, _⟩ := ha
    exact h.goto .shutdown rfl
  | goOn =>
    obtain ⟨rfl, _⟩ := ha
    exact h.goto .poll rfl
  | pollNothing =>
    cases ha
    exact h.goto .check rfl
  | pollFailed error =>
    cases ha
    exact h.goto .shutdown rfl
  | pollHangup =>
    cases ha
    exact h.goto .shutdown rfl
  | pollReady =>
    cases ha
    exact h.goto .accept rfl
  | acceptRetry =>
    cases ha
    exact h.goto .check rfl
  | acceptFailed error =>
    cases ha
    exact h.goto .check rfl
  | accept =>
    cases ha
    exact h.accept rfl
  | configureFailed c =>
    cases ha
    exact h.close rfl hhand.2 nofun .check
  | configured c =>
    cases ha
    exact h.goto (.share c) rfl
  | shareFailed c =>
    cases ha
    exact h.close rfl hhand.2 nofun .shutdown
  | submit c =>
    obtain ⟨rfl, hf⟩ := ha
    refine h.set rfl hhand.2 nofun (.submitted pool.calls) nofun (.submitting c pool.calls)
      (Nat.le_succ _) ?_
    intro k e
    cases e
    exact ⟨rfl, Nat.lt_succ_self _, rfl⟩
  | accepted c k =>
    obtain ⟨rfl, _, hk⟩ := ha
    exact h.accepted rfl hhand.1 hk .check
  | refused c k =>
    obtain ⟨rfl, _⟩ := ha
    exact h.goto (.reject c) rfl
  | threw c k =>
    obtain ⟨rfl, _⟩ := ha
    exact h.close rfl hhand.1 nofun .shutdown
  | reject c ok =>
    cases ha
    obtain ⟨_, k, hs, _⟩ := hhand
    exact h.reject rfl hs nofun ok .check
  | shutdown =>
    obtain ⟨rfl, _⟩ := ha
    exact h.goto .stopping rfl
  | finished =>
    obtain ⟨rfl, _⟩ := ha
    exact h.goto .returned rfl
  | requestStop => exact h
  | pool a => exact h.pool (ThreadPool.returns_act a).1 (ThreadPool.returns_act a).2

theorem reach_kept (hqueue : tasks.queue = []) {ready : Bool}
    (hr : Reach (LoopAct.Ok acceptor) (LoopAct.out acceptor) (run ready (.started tasks worker)) x) :
    x.Kept := by
  refine (reach_invariant (fun x => x.Inv acceptor tasks worker ∧ x.Kept) hr
    ⟨run_inv hqueue ready, nofun, nofun, nofun, nofun, nofun, List.nodup_nil⟩ ?_).2
  rintro x a ⟨hi, hk⟩ ha
  exact ⟨(hi.act hqueue a ha).1, hk.act hi a ha⟩

end AcceptLoop

section
variable {Tid : Type} [DecidableEq Tid] [Fintype Tid]

/-- **No connection is lost.**  When `run` has returned every connection that was accepted has been
closed by the loop, or rejected, or its task was run, once and by one worker; nothing else was run;
every worker has left its loop; and `ERR overloaded` was sent to rejected connections only, at most once
to each. -/
theorem connections_accounted (options : ServerOptions) (worker : Tid → Bool) (acceptor : Tid)
    (pool : ThreadPool Tid)
    (hnew : ThreadPool.new worker (max 1 options.queueCapacity) = .ok pool)
    (hacc : worker acceptor = false) (x : AcceptLoop Tid)
    (hrun : Reach (LoopAct.Ok acceptor) (LoopAct.out acceptor) (.run true pool) x)
    (hret : x.pc = .returned) :
    (∀ s ∈ x.conns, s = .closed ∨ s = .rejected ∨
      ∃ k, s = .submitted k ∧ (x.pool.runs.map Prod.snd).count k = 1) ∧
    (∀ t k, (t, k) ∈ x.pool.runs → ∃! c : ℕ, x.conns[c]? = some (.submitted k)) ∧
    (∀ t, worker t = true → (x.pool.thread t).job = .exited) ∧
    (∀ e ∈ x.sent, e.2 = ascii "ERR overloaded" ∧ x.conns[e.1]? = some .rejected) ∧
    (x.sent.map Prod.fst).Nodup := by
  obtain ⟨hcap, ⟨t₀, ht₀⟩, rfl⟩ := ThreadPool.new_ok hnew
  obtain ⟨hinv, hord⟩ := AcceptLoop.reach_orderly rfl hacc hrun
  have hkept : Accounted _ _ x.conns x.sent x.pc := AcceptLoop.reach_kept rfl hrun
  have hstaff := ThreadPool.reach_staff hinv.pool
  have hl := TaskLedger.reach_inv (ThreadPool.reach_ledger rfl hinv.pool)
  have hjoined : x.pool.joined = true := by
    have hown := hord.alone.2
    rw [hret] at hown
    exact hown.2
  have hall := hstaff.joined hjoined
  have hexit (t : Tid) (ht : worker t = true) : (x.pool.thread t).job = .exited :=
    (hall t).resolve_left fun e => by
      rw [hstaff.client t, ht] at e
      cases e
  -- nothing is queued and no worker holds a task
  have hempty : x.pool.tasks.shared.queue = [] := ThreadPool.drained rfl rfl hinv.pool (hexit t₀ ht₀)
  have htaken := ThreadPool.taken_eq_zero (x := x.pool) fun t e => by
    rcases hall t with e' | e'
    · cases e.symm.trans e'
    · cases e.symm.trans e'
  refine ⟨?_, ?_, hexit, hkept.refusals, hkept.once⟩
  · intro s hs
    obtain ⟨c, hc⟩ := List.mem_iff_getElem?.mp hs
    cases s with
    | closed => exact Or.inl rfl
    | rejected => exact Or.inr (Or.inl rfl)
    | held =>
      have e := hkept.held c hc
      rw [hret] at e
      cases e
    | submitted k =>
      have hk : (k, .accepted) ∈ x.pool.returns := by
        refine (hkept.submitted c k hc).resolve_right fun e => ?_
        rw [hret] at e
        cases e
      have hone : x.pool.tasks.shared.queue.count k + _ + (x.pool.runs.map Prod.snd).count k = 1 :=
        hl.accepted_once hk
      rw [hempty, htaken, List.count_nil, Nat.zero_add] at hone
      exact Or.inr (Or.inr ⟨k, rfl, hone⟩)
  · intro t k hk
    have hmem : k ∈ x.pool.ledger.accepted := by
      have ht := hl.tasks (· == k)
      have hpos : 0 < (x.pool.ledger.runs.map Prod.snd).countP (· == k) :=
        List.count_pos_iff.mpr (List.mem_map.mpr ⟨(t, k), hk, rfl⟩)
      refine List.count_pos_iff.mp ?_
      unfold List.count
      omega
    obtain ⟨c, hc⟩ := List.mem_iff_getElem?.mp (hinv.custody.owned k hmem)
    exact ⟨c, hc, fun c' hc' => hkept.unique c' c k hc' hc⟩

end

/-- Two connections are submitted and one between them is closed by the loop.  Stop is requested while the
worker serves the first one; it serves the other one and leaves its loop. -/
def threeConnections (w a : Fin 2) : List (LoopAct (Fin 2)) :=
  connection 0 0 ++ takes 0 ++ [.goOn, .pollReady, .accept, .configureFailed 1] ++ connection 2 1 ++
    [.requestStop, .stop, .shutdown, .pool (.exchange a), .pool (.queue (.acquire a .close false)),
      .pool (.queue (.pass a .close false)), .pool (.queue (.critical a .close false)),
      .pool (.queue (.unlock a .closed)), .pool (.queue (.notifyAll a .notEmpty)),
      .pool (.queue (.notifyAll a .notFull)), .pool (.closed a), .pool (.checkActive a),
      .pool (.lockJoin a), .pool (.endTask w 0 false), .pool (.complete w 0)] ++ takes 1 ++
    [.pool (.endTask w 1 false), .pool (.complete w 1), .pool (.pop w),
      .pool (.queue (.acquire w .pop false)), .pool (.queue (.pass w .pop false)),
      .pool (.queue (.critical w .pop false)), .pool (.queue (.unlock w .nullopt)), .pool (.exit w),
      .pool (.join a), .finished]

theorem connections_accounted_three :
    ∃ x, Reach (LoopAct.Ok 1) (LoopAct.out 1) smallServer x ∧ x.pc = .returned ∧
      x.conns = [.submitted 0, .closed, .submitted 1] ∧ x.pool.runs = [(0, 0), (0, 1)] ∧
      (∀ s ∈ x.conns, s = .closed ∨ s = .rejected ∨
        ∃ k, s = .submitted k ∧ (x.pool.runs.map Prod.snd).count k = 1) ∧
      ∀ t k, (t, k) ∈ x.pool.runs → ∃! c : ℕ, x.conns[c]? = some (.submitted k) := by
  have hrun : (perform (LoopAct.Ok 1) (LoopAct.out 1) smallServer (threeConnections 0 1)).map
      (fun x => (x.pc, x.conns, x.pool.runs))
      = some (.returned, [.submitted 0, .closed, .submitted 1], [(0, 0), (0, 1)]) := by
    decide +kernel
  obtain ⟨x, hx, e⟩ := Option.map_eq_some_iff.mp hrun
  obtain ⟨hret, hconns, hruns⟩ : x.pc = _ ∧ x.conns = _ ∧ x.pool.runs = _ := by
    simpa only [Prod.mk.injEq] using e
  obtain ⟨hall, honly, _⟩ := connections_accounted { queueCapacity := 1 } (fun t => decide (t = 0)) 1
    smallServer.pool rfl (by decide) x (perform_reach hx) hret
  exact ⟨x, perform_reach hx, hret, hconns, hruns, hall, honly⟩

end NetForge
