import SystemsCourse.NetForge.Wal

/-!
# Log records are in canonical form

The record that is logged for a mutation is built from the parsed key and value, not copied from
the request.  `record_of_parse`: it is no longer than any request that was parsed to the mutation,
and it is parsed to the same mutation, so `Wal.recover` reads back what the server logged.
-/

namespace NetForge
open Wire Strip

/-- the record of a mutation: `Wal::append_set`, `Wal::append_del` -/
def Mutation.record : Mutation → Bytes
  | .set k v => Wal.setRecord k v
  | .del k => Wal.delRecord k

/-- the mutation that `recover` reads from a payload -/
def recordMutation (p : Bytes) : Option Mutation :=
  match parseCommand p with
  | .ok c => c.mutation
  | .error _ => none

theorem recordMutation_ok {p : Bytes} {c : Command} (h : parseCommand p = .ok c) :
    recordMutation p = c.mutation := by
  unfold recordMutation
  rw [h]

theorem recordMutation_some {p : Bytes} {m : Mutation} (h : recordMutation p = some m) :
    ∃ c, parseCommand p = .ok c ∧ c.mutation = some m := by
  unfold recordMutation at h
  split at h
  · rename_i c hc
    exact ⟨c, hc, h⟩
  · cases h

theorem mem_setText {p k v : Bytes} (h : SetText p k v) : ∀ c, c ∈ v → c ∈ p := by
  obtain ⟨a, s, w, s', w', b, e, _⟩ := h
  intro c hc
  rw [e]
  simp [hc]

theorem setText_length {p k v : Bytes} (h : SetText p k v) :
    k.length + v.length + 5 ≤ p.length := by
  obtain ⟨a, s, w, s', w', b, e, _⟩ := h
  have hl := congrArg List.length e
  simp only [List.length_append, List.length_cons, show (ascii "SET").length = 3 from rfl] at hl
  omega

theorem keyText_length {verb p k : Bytes} (h : KeyText verb p k) :
    verb.length + 1 + k.length ≤ p.length := by
  obtain ⟨a, s, w, b, e, _⟩ := h
  have hl := congrArg List.length e
  simp only [List.length_append, List.length_cons] at hl
  omega

theorem setRecord_setText (k v : Bytes) : SetText (Wal.setRecord k v) k v := by
  refine ⟨[], 32, [], 32, [], [], ?_, blank_nil, blank_nil, blank_nil, blank_nil, by decide,
    by decide⟩
  simp [Wal.setRecord, ascii]

theorem delRecord_keyText (k : Bytes) : KeyText (ascii "DEL") (Wal.delRecord k) k := by
  refine ⟨[], 32, [], [], ?_, blank_nil, blank_nil, blank_nil, by decide⟩
  simp [Wal.delRecord, ascii]

theorem validKey_nul {k : Bytes} (h : validKey k = true) : 0 ∉ k := fun h0 =>
  ne_zero_of_isKeyChar 0 ((validKey_chars h).2.2 0 h0) rfl

theorem setRecord_of_parse {p k v : Bytes} (h : parseCommand p = .ok (.set k v)) :
    (Wal.setRecord k v).length ≤ p.length ∧ 0 ∉ Wal.setRecord k v ∧
      parseCommand (Wal.setRecord k v) = .ok (.set k v) := by
  obtain ⟨h0, hk, hv, hvs, ht⟩ := (parseCommand_set p k v).mp h
  have hnul : 0 ∉ Wal.setRecord k v := by
    have hk0 := validKey_nul hk
    have hv0 : 0 ∉ v := fun hc => h0 (mem_setText ht 0 hc)
    simp only [Wal.setRecord, List.mem_append, not_or]
    exact ⟨⟨⟨by decide, hk0⟩, by decide⟩, hv0⟩
  refine ⟨?_, hnul, ?_⟩
  · have hl := setText_length ht
    simp only [Wal.setRecord, List.length_append, show (ascii "SET ").length = 4 from rfl,
      show (ascii " ").length = 1 from rfl]
    omega
  · exact (parseCommand_set _ k v).mpr ⟨hnul, hk, hv, hvs, setRecord_setText k v⟩

theorem delRecord_of_parse {p k : Bytes} (h : parseCommand p = .ok (.del k)) :
    (Wal.delRecord k).length ≤ p.length ∧ 0 ∉ Wal.delRecord k ∧
      parseCommand (Wal.delRecord k) = .ok (.del k) := by
  obtain ⟨_, hk, ht⟩ := (parseCommand_del p k).mp h
  have hnul : 0 ∉ Wal.delRecord k := by
    have hk0 := validKey_nul hk
    simp only [Wal.delRecord, List.mem_append, not_or]
    exact ⟨by decide, hk0⟩
  refine ⟨?_, hnul, ?_⟩
  · have hl := keyText_length ht
    simp only [Wal.delRecord, List.length_append, show (ascii "DEL ").length = 4 from rfl]
    rw [show (ascii "DEL").length = 3 from rfl] at hl
    omega
  · exact (parseCommand_del _ k).mpr ⟨hnul, hk, delRecord_keyText k⟩

/-- the record of a parsed mutation is no longer than the request and is parsed back -/
theorem record_of_parse {p : Bytes} {m : Mutation} (h : recordMutation p = some m) :
    m.record.length ≤ p.length ∧ recordMutation m.record = some m := by
  obtain ⟨c, hc, hm⟩ := recordMutation_some h
  cases c with
  | set k v =>
    cases hm
    obtain ⟨h1, _, h3⟩ := setRecord_of_parse hc
    exact ⟨h1, recordMutation_ok h3⟩
  | del k =>
    cases hm
    obtain ⟨h1, _, h3⟩ := delRecord_of_parse hc
    exact ⟨h1, recordMutation_ok h3⟩
  | ping => cases hm
  | stats => cases hm
  | get k => cases hm

/-- **Canonical form of the log records.**  The record of a request within the protocol limit is
no longer than the request, has no NUL, is parsed back to the same key and value, and so passes
the length and parse checks of `recover`. -/
theorem record_canonical (p : Bytes) (hp : p.length ≤ kDefaultMaxPayload) :
    (∀ k v, parseCommand p = .ok (.set k v) →
      (Wal.setRecord k v).length ≤ p.length ∧ 0 ∉ Wal.setRecord k v ∧
        parseCommand (Wal.setRecord k v) = .ok (.set k v) ∧
        (Wal.setRecord k v).length ≤ kDefaultMaxPayload) ∧
      (∀ k, parseCommand p = .ok (.del k) →
        (Wal.delRecord k).length ≤ p.length ∧ 0 ∉ Wal.delRecord k ∧
          parseCommand (Wal.delRecord k) = .ok (.del k) ∧
          (Wal.delRecord k).length ≤ kDefaultMaxPayload) := by
  constructor
  · intro k v h
    obtain ⟨h1, h2, h3⟩ := setRecord_of_parse h
    exact ⟨h1, h2, h3, h1.trans hp⟩
  · intro k h
    obtain ⟨h1, h2, h3⟩ := delRecord_of_parse h
    exact ⟨h1, h2, h3, h1.trans hp⟩

/-- `"\v SET\tk  a \v b\f"`: the inner vertical tab stays in the value, the outer characters go -/
theorem record_canonical_vt :
    parseCommand (Wal.setRecord [107] [97, 32, 11, 32, 98])
      = .ok (.set [107] [97, 32, 11, 32, 98]) := by
  exact ((record_canonical
    [11, 32, 83, 69, 84, 9, 107, 32, 32, 97, 32, 11, 32, 98, 12] (by decide)).1
      [107] [97, 32, 11, 32, 98] (by decide)).2.2.1

end NetForge
