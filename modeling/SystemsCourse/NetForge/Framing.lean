import SystemsCourse.NetForge.Protocol

/-!
# Framing does not depend on how the stream is cut

`sendFrames` and `recvFrames` call `sendFrame` and `recvFrame` once per payload.  Whatever the
schedules of short transfers and `EINTR` on the two sides, the payloads come back as they were
sent (`recvFrames_frames`), and a stream that ends inside the last frame gives `eof` for it
(`recvFrames_cut`).
-/

namespace NetForge
open Wire Stream

/-- `sendFrame` for each payload in order; the results of the calls and the socket afterwards -/
def sendFrames (w : Sink) : List Bytes → Except Bytes (List IoResult × Sink)
  | [] => .ok ([], w)
  | p :: ps =>
    match sendFrame w p with
    | .error what => .error what
    | .ok (result, w') =>
      match sendFrames w' ps with
      | .error what => .error what
      | .ok (results, w'') => .ok (result :: results, w'')

/-- `n` calls of `recvFrame` -/
def recvFrames (r : Source) (maxPayload : Nat) : Nat → List FrameResult × Source
  | 0 => ([], r)
  | n+1 =>
    let (result, r') := recvFrame r maxPayload
    let (results, r'') := recvFrames r' maxPayload n
    (result :: results, r'')

/-- the result of `recvFrame` on a payload that arrived -/
def received (p : Bytes) : FrameResult := ⟨.ok, p, none⟩

theorem sendFrames_transient (ps : List Bytes) (w : Sink) (hp : ∀ p ∈ ps, p.length < 2^32)
    (h : ∀ e ∈ w.schedule, e.Transient) :
    ∃ results w', sendFrames w ps = .ok (results, w') ∧ results.length = ps.length ∧
      (∀ r ∈ results, r.status = .ok) ∧ w'.written = w.written ++ frames headerSize ps := by
  induction ps generalizing w with
  | nil => exact ⟨[], w, rfl, rfl, by simp, by simp [frames_nil]⟩
  | cons p ps ih =>
    obtain ⟨w₁, e1, hw1, hs1⟩ := sendFrame_transient w p (hp p (List.mem_cons_self ..)) h
    obtain ⟨results, w', e2, hl, hok, hw2⟩ :=
      ih w₁ (fun q hq => hp q (List.mem_cons_of_mem _ hq)) hs1
    refine ⟨⟨.ok, headerSize + p.length, none⟩ :: results, w', ?_, by simp [hl], ?_, ?_⟩
    · unfold sendFrames
      rw [e1]
      dsimp only
      rw [e2]
    · intro r hr
      rcases List.mem_cons.mp hr with e | e
      · rw [e]
      · exact hok r e
    · rw [hw2, hw1, frames_cons, List.append_assoc]

/-- frames that were sent are received, in order, and nothing beyond them is consumed -/
theorem recvFrames_frames (ps : List Bytes) (max : Nat) (h : Fits headerSize max ps) (r : Source)
    (rest : Bytes) (hr : r.unread = frames headerSize ps ++ rest) :
    ∃ r', recvFrames r max ps.length = (ps.map received, r') ∧ r'.unread = rest ∧
      r'.ending = r.ending := by
  induction ps generalizing r with
  | nil => exact ⟨r, rfl, hr, rfl⟩
  | cons p ps ih =>
    have hp := h p (List.mem_cons_self ..)
    have hf : firstFrame headerSize max r.unread = some (p, frames headerSize ps ++ rest) := by
      rw [hr, frames_cons, List.append_assoc]
      exact firstFrame_frame_append _ _ p _ hp.2 hp.1
    obtain ⟨r₁, e1, hu1, ha1⟩ := recvFrame_some r max p _ hf
    obtain ⟨r', e2, hu2, he2⟩ := ih (fun q hq => h q (List.mem_cons_of_mem _ hq)) r₁ hu1
    refine ⟨r', ?_, hu2, he2.trans ha1.2.1⟩
    rw [List.length_cons]
    unfold recvFrames
    rw [e1]
    dsimp only
    rw [e2]
    rfl

theorem recvFrames_add (m n max : Nat) (r : Source) :
    recvFrames r max (m + n)
      = ((recvFrames r max m).1 ++ (recvFrames (recvFrames r max m).2 max n).1,
          (recvFrames (recvFrames r max m).2 max n).2) := by
  induction m generalizing r with
  | zero => rw [Nat.zero_add]; rfl
  | succ m ih =>
    rw [Nat.add_right_comm]
    simp only [recvFrames, ih, List.cons_append]

/-- a header cut short is not oversized, and neither is the header of a frame within the limit -/
theorem cut_not_oversized (p cut : Bytes) (max : Nat) (hw : p.length < 256^headerSize)
    (hm : p.length ≤ max) (hc : cut <+: frame headerSize p) : ¬ Oversized max cut := by
  rintro ⟨hl, ho⟩
  obtain ⟨d, hd⟩ := hc
  have ht : cut.take headerSize = toBE headerSize p.length := by
    have h1 := take_frame_append headerSize p []
    rw [List.append_nil, ← hd, List.take_append_of_le_length hl] at h1
    exact h1
  rw [ht, ofBE_toBE _ _ hw] at ho
  omega

/-- the stream ends inside the last frame: `eof` for that frame, the earlier ones unchanged -/
theorem recvFrames_cut (ps : List Bytes) (p cut : Bytes) (max : Nat)
    (h : Fits headerSize max (ps ++ [p])) (hc : cut <+: frame headerSize p)
    (hne : cut ≠ frame headerSize p) (r : Source) (hr : r.unread = frames headerSize ps ++ cut)
    (he : r.ending = .eof) :
    ∃ r', recvFrames r max (ps.length + 1) = (ps.map received ++ [⟨.eof, [], none⟩], r') ∧
      r'.unread = [] := by
  have hp := h p (by simp)
  obtain ⟨r₁, e1, hu1, he1⟩ :=
    recvFrames_frames ps max (fun q hq => h q (List.mem_append_left _ hq)) r cut hr
  obtain ⟨r₂, e2, hu2⟩ := recvFrame_short r₁ max
    (by rw [hu1]; exact firstFrame_cut _ _ p cut hp.2 hc hne)
    (by rw [hu1]; exact cut_not_oversized p cut max hp.2 hp.1 hc)
  refine ⟨r₂, ?_, hu2⟩
  rw [recvFrames_add, e1]
  simp only [recvFrames, e2, he1, he, endStatus, endErrno]

/-- **Framing is independent of how the stream is cut.**  Sending the payloads under any schedule
of short writes and `EINTR`, and receiving as many frames under any schedule of short reads and
`EINTR`, gives back the payloads and leaves no byte unread; if the stream ends after a proper
prefix `cut` of the last frame, the last call returns `eof` with an empty payload. -/
theorem framing_roundtrip (payloads : List Bytes) (maxPayload : Nat)
    (hp : ∀ p ∈ payloads, p.length ≤ maxPayload ∧ p.length < 2^32)
    (ws : List (WriteEvent Errno)) (hws : ∀ e ∈ ws, e.Transient) :
    ∃ results w, sendFrames ⟨[], ws⟩ payloads = .ok (results, w) ∧
      results.length = payloads.length ∧ (∀ r ∈ results, r.status = .ok) ∧
      (∀ r : Source, r.unread = w.written →
        ∃ r', recvFrames r maxPayload payloads.length = (payloads.map received, r') ∧
          r'.unread = []) ∧
      (∀ ps p, payloads = ps ++ [p] → ∀ f, encodeFrame p = .ok f → ∀ cut, cut <+: f → cut ≠ f →
        ∃ sent, w.written = sent ++ f ∧
          ∀ r : Source, r.unread = sent ++ cut → r.ending = .eof →
            ∃ r', recvFrames r maxPayload payloads.length
                = (ps.map received ++ [⟨.eof, [], none⟩], r') ∧ r'.unread = []) := by
  have hfits : Fits headerSize maxPayload payloads := by
    intro p h
    exact ⟨(hp p h).1, lt_of_lt_of_eq (hp p h).2 (by decide)⟩
  obtain ⟨results, w, e, hl, hok, hw⟩ :=
    sendFrames_transient payloads ⟨[], ws⟩ (fun p h => (hp p h).2) hws
  rw [List.nil_append] at hw
  refine ⟨results, w, e, hl, hok, ?_, ?_⟩
  · intro r hr
    obtain ⟨r', e', hu, _⟩ := recvFrames_frames payloads maxPayload hfits r []
      (by rw [hr, hw, List.append_nil])
    exact ⟨r', e', hu⟩
  · intro ps p hps f hf cut hc hne
    have hp32 := (hp p (by rw [hps]; simp)).2
    rw [encodeFrame_ok p hp32] at hf
    cases hf
    refine ⟨frames headerSize ps, by rw [hw, hps, frames_append, frames_singleton], ?_⟩
    intro r hr he
    rw [hps, List.length_append, List.length_singleton]
    exact recvFrames_cut ps p cut maxPayload (by rw [← hps]; exact hfits) hc hne r hr he

/-- two payloads, the second one empty, under a short write and an interrupted one -/
theorem framing_roundtrip_two :
    ∃ results w, sendFrames ⟨[], [.count 1, .eintr]⟩ [[80, 73], []] = .ok (results, w) ∧
      results.length = 2 ∧ (∀ r ∈ results, r.status = .ok) ∧
      (∀ r : Source, r.unread = w.written →
        ∃ r', recvFrames r 2 2 = ([received [80, 73], received []], r') ∧ r'.unread = []) := by
  obtain ⟨results, w, h1, h2, h3, h4, _⟩ := framing_roundtrip [[80, 73], []] 2
    (by decide) [.count 1, .eintr] (by simp [WriteEvent.Transient])
  exact ⟨results, w, h1, h2, h3, h4⟩

end NetForge
