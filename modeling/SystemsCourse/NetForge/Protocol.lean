import SystemsCourse.Lib.Frames
import SystemsCourse.Lib.Stream
import Mathlib.Tactic.Cases

/-!
# NetForge wire protocol: exact reads and writes, frames

Model of the input/output half of `capstone/reference/src/protocol.cpp`.  The two loops
`readExact` and `writeAll` are written as the source has them, one system call per round; the
descriptors are those of `Lib.Stream`, so that every fragmentation of the stream is a schedule.

* `readExact_full`, `readExact_short`   all that a caller of `readExact` needs to know: the
  schedule does not matter, only how many bytes arrive;
* `writeAll_transient`                  short writes and `EINTR` do not matter either;
* `recvFrame_spec`                      `recvFrame` on a byte string, in terms of `firstFrame`.
-/

namespace NetForge
open Wire Stream

inductive IoStatus where
  | ok
  | eof
  | wouldBlock
  | error
  | tooLarge
  | malformed
deriving DecidableEq, Repr

/-- `errno` values other than `EINTR`, which every loop here answers by another call -/
inductive Errno where
  | eagain
  | ewouldblock
  | eio
  | emsgsize
  | other (code : Nat)
deriving DecidableEq, Repr

/-- `errorNumber = none` is the `0` of the source -/
structure IoResult where
  status : IoStatus
  bytes : Nat
  errorNumber : Option Errno
deriving DecidableEq, Repr

structure FrameResult where
  status : IoStatus
  payload : Bytes
  errorNumber : Option Errno
deriving DecidableEq, Repr

/-- reading end of a descriptor -/
abbrev Source := Reader UInt8 Errno

/-- writing end of a socket -/
abbrev Sink := Stream.Writer UInt8 Errno

/-- bytes of the length field: `sizeof(std::uint32_t)` -/
abbrev headerSize : Nat := 4

def kDefaultMaxPayload : Nat := 64 * 1024

/-! ## the loops -/

/-- status of a call that failed with `e` -/
def ioFailure (e : Errno) : IoStatus :=
  if e = .eagain ∨ e = .ewouldblock then .wouldBlock else .error

/-- the loop of `read_exact`: `got` is the part of `output` that is filled, `want` the rest -/
def readLoop (r : Source) (got : Bytes) (want : Nat) : IoResult × Bytes × Source :=
  if hw : want = 0 then (⟨.ok, got.length, none⟩, got, r)
  else
    match h : r.read want with
    | (.data b, r') =>
      have := (Reader.read_data (Nat.pos_of_ne_zero hw) h)
      readLoop r' (got ++ b) (want - b.length)
    | (.eof, r') => (⟨.eof, got.length, none⟩, got, r')
    | (.eintr, r') =>
      have := Reader.read_eintr h
      readLoop r' got want
    | (.failed e, r') => (⟨ioFailure e, got.length, some e⟩, got, r')
termination_by want + r.schedule.length
decreasing_by all_goals omega

/-- `read_exact`: the result, the bytes that were stored, the descriptor afterwards -/
def readExact (r : Source) (size : Nat) : IoResult × Bytes × Source := readLoop r [] size

/-- the loop of `write_all`: `rest` is what is still to be written, `offset` what was written -/
def writeLoop (w : Sink) (rest : Bytes) (offset : Nat) : IoResult × Sink :=
  if rest = [] then (⟨.ok, offset, none⟩, w)
  else
    match h : w.write rest with
    | (.wrote 0, w') => (⟨.error, offset, some .eio⟩, w')
    | (.wrote (n+1), w') =>
      have := Stream.Writer.write_wrote h
      writeLoop w' (rest.drop (n+1)) (offset + (n+1))
    | (.eintr, w') =>
      have := congrArg List.length (Stream.Writer.write_eintr h).2
      writeLoop w' rest offset
    | (.failed e, w') => (⟨ioFailure e, offset, some e⟩, w')
termination_by rest.length + w.schedule.length
decreasing_by
  · obtain ⟨_, hn, ⟨h1, h2, h3⟩ | ⟨k, h1, h2⟩⟩ := this
    · rw [h1, h2, List.length_drop]; omega
    · rw [h1, List.length_drop, List.length_cons]; omega
  · rw [List.length_cons] at this; omega

def writeAll (w : Sink) (input : Bytes) : IoResult × Sink := writeLoop w input 0

/-! ## frames -/

/-- `encode_frame`; the error is the text of the `std::length_error` -/
def encodeFrame (payload : Bytes) : Except Bytes Bytes :=
  if payload.length > 2^32 - 1 then
    .error (ascii "frame payload exceeds the 32-bit wire length")
  else .ok (toBE headerSize payload.length ++ payload)

def recvFrame (r : Source) (maxPayload : Nat) : FrameResult × Source :=
  let (headerResult, header, r₁) := readExact r headerSize
  if headerResult.status ≠ .ok then (⟨headerResult.status, [], headerResult.errorNumber⟩, r₁)
  else
    let length := ofBE header
    if length > maxPayload then (⟨.tooLarge, [], some .emsgsize⟩, r₁)
    else
      let (payloadResult, payload, r₂) := readExact r₁ length
      if payloadResult.status ≠ .ok then
        (⟨payloadResult.status, [], payloadResult.errorNumber⟩, r₂)
      else (⟨.ok, payload, none⟩, r₂)

def sendFrame (w : Sink) (payload : Bytes) : Except Bytes (IoResult × Sink) :=
  match encodeFrame payload with
  | .error what => .error what
  | .ok frame => .ok (writeAll w frame)

/-! ## what the reading loop returns -/

/-- status of a read at the end of the stream -/
def endStatus : Ending Errno → IoStatus
  | .eof => .eof
  | .failed e => ioFailure e

def endErrno : Ending Errno → Option Errno
  | .eof => none
  | .failed e => some e

theorem endStatus_ne_ok (e : Ending Errno) : endStatus e ≠ .ok := by
  cases e with
  | eof => simp [endStatus]
  | failed e =>
    show ioFailure e ≠ .ok
    unfold ioFailure
    split <;> simp

theorem endStatus_eof {e : Ending Errno} (h : endStatus e = .eof) : e = .eof := by
  cases e with
  | eof => rfl
  | failed e =>
    have hne : ioFailure e ≠ .eof := by
      unfold ioFailure
      split <;> simp
    exact absurd h hne

theorem endStatus_ne_tooLarge (e : Ending Errno) : endStatus e ≠ .tooLarge := by
  cases e with
  | eof => simp [endStatus]
  | failed e =>
    show ioFailure e ≠ .tooLarge
    unfold ioFailure
    split <;> simp

/-- the descriptor `r` after `n` more bytes of it were read, whatever the schedule -/
def Advanced (r r' : Source) (n : Nat) : Prop :=
  r'.unread = r.unread.drop n ∧ r'.ending = r.ending ∧ r'.position = r.position + n

theorem Advanced.refl (r : Source) : Advanced r r 0 := ⟨rfl, rfl, rfl⟩

theorem Advanced.trans {r r' r'' : Source} {m n : Nat} (h : Advanced r r' m)
    (h' : Advanced r' r'' n) : Advanced r r'' (m + n) := by
  obtain ⟨h1, h2, h3⟩ := h
  obtain ⟨h1', h2', h3'⟩ := h'
  refine ⟨?_, h2'.trans h2, ?_⟩
  · rw [h1', h1, List.drop_drop]
  · rw [h3', h3, Nat.add_assoc]

/-- **enough bytes arrive**: the loop fills the buffer with the next ones -/
theorem readLoop_full (r : Source) (got : Bytes) (want : Nat) (h : want ≤ r.unread.length) :
    ∃ r', readLoop r got want
        = (⟨.ok, got.length + want, none⟩, got ++ r.unread.take want, r') ∧
      Advanced r r' want := by
  fun_induction readLoop r got want with
  | case1 r got => exact ⟨r, by simp, Advanced.refl r⟩
  | case2 r got want hw b r' hread _ ih =>
    obtain ⟨h1, h2, h3, h4, _, h6⟩ := Reader.read_data (Nat.pos_of_ne_zero hw) hread
    have hlen : r.unread.length = b.length + r'.unread.length := by
      rw [h1, List.length_append]
    obtain ⟨r'', e, ha⟩ := ih (by omega)
    refine ⟨r'', ?_, ?_⟩
    · rw [e, h1, List.length_append, List.take_append, List.take_of_length_le h3,
        List.append_assoc]
      congr 2
      omega
    · have hstep : Advanced r r' b.length := ⟨by rw [h1, List.drop_left' rfl], h4, h6⟩
      have := hstep.trans ha
      rwa [Nat.add_sub_cancel' h3] at this
  | case3 r got want hw r' hread =>
    obtain ⟨h1, _⟩ := Reader.read_end hread (fun _ => by simp) (by simp)
    rw [h1] at h
    exact absurd h (by simpa using hw)
  | case4 r got want hw r' hread _ ih =>
    obtain ⟨h1, h2, _, h4⟩ := Reader.read_eintr hread
    obtain ⟨r'', e, ha⟩ := ih (by rw [h1]; exact h)
    refine ⟨r'', by rw [e, h1], ?_⟩
    have := (show Advanced r r' 0 from ⟨h1, h2, h4⟩).trans ha
    rwa [Nat.zero_add] at this
  | case5 r got want hw e r' hread =>
    obtain ⟨h1, _⟩ := Reader.read_end hread (fun _ => by simp) (by simp)
    rw [h1] at h
    exact absurd h (by simpa using hw)

/-- **too few bytes arrive**: the loop takes them all and reports how the stream ended -/
theorem readLoop_short (r : Source) (got : Bytes) (want : Nat) (h : r.unread.length < want) :
    ∃ r', readLoop r got want
        = (⟨endStatus r.ending, got.length + r.unread.length, endErrno r.ending⟩,
            got ++ r.unread, r') ∧
      Advanced r r' r.unread.length := by
  fun_induction readLoop r got want with
  | case1 r got => exact absurd h (Nat.not_lt_zero _)
  | case2 r got want hw b r' hread _ ih =>
    obtain ⟨h1, h2, h3, h4, _, h6⟩ := Reader.read_data (Nat.pos_of_ne_zero hw) hread
    have hlen : r.unread.length = b.length + r'.unread.length := by
      rw [h1, List.length_append]
    obtain ⟨r'', e, ha⟩ := ih (by omega)
    refine ⟨r'', ?_, ?_⟩
    · rw [e, h4, hlen, List.length_append, h1, List.append_assoc, Nat.add_assoc]
    · have hstep : Advanced r r' b.length := ⟨by rw [h1, List.drop_left' rfl], h4, h6⟩
      rw [hlen]
      exact hstep.trans ha
  | case3 r got want hw r' hread =>
    obtain ⟨h1, h2, h3, h4, ⟨_, h5⟩ | ⟨e, h5, _⟩⟩ :=
      Reader.read_end hread (fun _ => by simp) (by simp)
    · refine ⟨r', ?_, ?_⟩
      · rw [h1, h5]; simp [endStatus, endErrno]
      · rw [h1]; exact ⟨by rw [h1, h2]; rfl, h3, h4⟩
    · cases h5
  | case4 r got want hw r' hread _ ih =>
    obtain ⟨h1, h2, _, h4⟩ := Reader.read_eintr hread
    obtain ⟨r'', e, ha⟩ := ih (by rw [h1]; exact h)
    refine ⟨r'', by rw [e, h1, h2], ?_⟩
    have := (show Advanced r r' 0 from ⟨h1, h2, h4⟩).trans ha
    rwa [Nat.zero_add, h1] at this
  | case5 r got want hw e r' hread =>
    obtain ⟨h1, h2, h3, h4, ⟨h5, _⟩ | ⟨e', h5, h6⟩⟩ :=
      Reader.read_end hread (fun _ => by simp) (by simp)
    · cases h5
    · cases h5
      refine ⟨r', ?_, ?_⟩
      · rw [h1, h6]; simp [endStatus, endErrno]
      · rw [h1]; exact ⟨by rw [h1, h2]; rfl, h3, h4⟩

theorem readExact_full (r : Source) (size : Nat) (h : size ≤ r.unread.length) :
    ∃ r', readExact r size = (⟨.ok, size, none⟩, r.unread.take size, r') ∧
      Advanced r r' size := by
  obtain ⟨r', e, ha⟩ := readLoop_full r [] size h
  exact ⟨r', by simpa [readExact] using e, ha⟩

theorem readExact_short (r : Source) (size : Nat) (h : r.unread.length < size) :
    ∃ r', readExact r size
        = (⟨endStatus r.ending, r.unread.length, endErrno r.ending⟩, r.unread, r') ∧
      Advanced r r' r.unread.length := by
  obtain ⟨r', e, ha⟩ := readLoop_short r [] size h
  exact ⟨r', by simpa [readExact] using e, ha⟩

/-! ## what the writing loop returns -/

/-- **short writes and `EINTR` lose nothing**: the whole input is accepted -/
theorem writeLoop_transient (w : Sink) (rest : Bytes) (offset : Nat)
    (h : ∀ e ∈ w.schedule, e.Transient) :
    ∃ w', writeLoop w rest offset = (⟨.ok, offset + rest.length, none⟩, w') ∧
      w'.written = w.written ++ rest ∧ ∀ e ∈ w'.schedule, e.Transient := by
  fun_induction writeLoop w rest offset with
  | case1 w offset => exact ⟨w, by simp, by simp, h⟩
  | case2 w rest offset hr w' hwrite =>
    obtain ⟨_, _, ⟨_, _, h3⟩ | ⟨k, h1, h2⟩⟩ := Stream.Writer.write_wrote hwrite
    · exact absurd (List.eq_nil_of_length_eq_zero h3.symm) hr
    · have hk : 0 < k := h (.count k) (by rw [h1]; exact List.mem_cons_self ..)
      have hpos := List.length_pos_of_ne_nil hr
      omega
  | case3 w rest offset hr n w' hwrite _ ih =>
    obtain ⟨h1, h2, h3⟩ := Stream.Writer.write_wrote hwrite
    have hs : ∀ e ∈ w'.schedule, e.Transient := by
      rcases h3 with ⟨_, h4, _⟩ | ⟨k, h4, _⟩
      · rw [h4]; exact fun e he => absurd he (by simp)
      · intro e he
        exact h e (by rw [h4]; exact List.mem_cons_of_mem _ he)
    obtain ⟨w'', e, e1, e2⟩ := ih hs
    refine ⟨w'', ?_, ?_, e2⟩
    · rw [e, List.length_drop]
      congr 2
      omega
    · rw [e1, h1, List.append_assoc, List.take_append_drop]
  | case4 w rest offset hr w' hwrite _ ih =>
    obtain ⟨h1, h2⟩ := Stream.Writer.write_eintr hwrite
    obtain ⟨w'', e, e1, e2⟩ :=
      ih (fun e he => h e (by rw [h2]; exact List.mem_cons_of_mem _ he))
    exact ⟨w'', e, by rw [e1, h1], e2⟩
  | case5 w rest offset hr e w' hwrite =>
    obtain ⟨_, h2⟩ := Stream.Writer.write_failed hwrite
    exact False.elim (h (.failed e) (by rw [h2]; exact List.mem_cons_self ..))

theorem writeAll_transient (w : Sink) (input : Bytes) (h : ∀ e ∈ w.schedule, e.Transient) :
    ∃ w', writeAll w input = (⟨.ok, input.length, none⟩, w') ∧
      w'.written = w.written ++ input ∧ ∀ e ∈ w'.schedule, e.Transient := by
  obtain ⟨w', e, e1, e2⟩ := writeLoop_transient w input 0 h
  exact ⟨w', by rw [writeAll, e, Nat.zero_add], e1, e2⟩

/-! ## frames on a byte string -/

theorem encodeFrame_ok (p : Bytes) (h : p.length < 2^32) :
    encodeFrame p = .ok (frame headerSize p) := by
  unfold encodeFrame
  rw [if_neg (by omega)]
  rfl

theorem sendFrame_short (w : Sink) {p : Bytes} (hp : p.length < 2^32) :
    sendFrame w p = .ok (writeAll w (frame headerSize p)) := by
  unfold sendFrame
  rw [encodeFrame_ok p hp]

/-- `sendFrame` under short writes and `EINTR` -/
theorem sendFrame_transient (w : Sink) (p : Bytes) (hp : p.length < 2^32)
    (h : ∀ e ∈ w.schedule, e.Transient) :
    ∃ w', sendFrame w p = .ok (⟨.ok, headerSize + p.length, none⟩, w') ∧
      w'.written = w.written ++ frame headerSize p ∧ ∀ e ∈ w'.schedule, e.Transient := by
  obtain ⟨w', e, e1, e2⟩ := writeAll_transient w (frame headerSize p) h
  refine ⟨w', ?_, e1, e2⟩
  rw [sendFrame_short w hp, e, length_frame]

/-- the bytes start with a complete header that announces more than `max` bytes -/
def Oversized (max : Nat) (b : Bytes) : Prop :=
  headerSize ≤ b.length ∧ max < ofBE (b.take headerSize)

instance (max : Nat) (b : Bytes) : Decidable (Oversized max b) :=
  inferInstanceAs (Decidable (_ ∧ _))

/-- a complete frame within the limit is returned, and exactly its bytes are consumed -/
theorem recvFrame_some (r : Source) (max : Nat) (p rest : Bytes)
    (h : firstFrame headerSize max r.unread = some (p, rest)) :
    ∃ r', recvFrame r max = (⟨.ok, p, none⟩, r') ∧ r'.unread = rest ∧
      Advanced r r' (headerSize + p.length) := by
  obtain ⟨hb, hm, hw⟩ := firstFrame_some h
  have hl : r.unread.length = headerSize + p.length + rest.length := by
    rw [hb, List.length_append, length_frame]
  obtain ⟨r₁, e1, ha1⟩ := readExact_full r headerSize (by omega)
  have hn : ofBE (r.unread.take headerSize) = p.length := by
    rw [hb, take_frame_append, ofBE_toBE _ _ hw]
  have hu1 : r₁.unread = p ++ rest := by rw [ha1.1, hb, drop_frame_append]
  obtain ⟨r₂, e2, ha2⟩ := readExact_full r₁ p.length (by rw [hu1, List.length_append]; omega)
  refine ⟨r₂, ?_, ?_, ha1.trans ha2⟩
  · unfold recvFrame
    rw [e1]
    simp only [ne_eq, not_true_eq_false, if_false, hn, gt_iff_lt, if_neg (Nat.not_lt.mpr hm), e2,
      hu1, List.take_left' rfl]
  · rw [ha2.1, hu1, List.drop_left' rfl]

/-- an oversized header is reported, and nothing after it is read -/
theorem recvFrame_oversized (r : Source) (max : Nat) (h : Oversized max r.unread) :
    ∃ r', recvFrame r max = (⟨.tooLarge, [], some .emsgsize⟩, r') ∧
      Advanced r r' headerSize := by
  obtain ⟨r₁, e1, ha1⟩ := readExact_full r headerSize h.1
  refine ⟨r₁, ?_, ha1⟩
  unfold recvFrame
  rw [e1]
  simp only [ne_eq, not_true_eq_false, if_false, gt_iff_lt, if_pos h.2]

/-- anything else is an incomplete frame: its bytes are consumed and the end of the stream is
reported with an empty payload -/
theorem recvFrame_short (r : Source) (max : Nat) (h : firstFrame headerSize max r.unread = none)
    (ho : ¬ Oversized max r.unread) :
    ∃ r', recvFrame r max = (⟨endStatus r.ending, [], endErrno r.ending⟩, r') ∧
      r'.unread = [] := by
  have hne := endStatus_ne_ok r.ending
  by_cases hw : r.unread.length < headerSize
  · obtain ⟨r₁, e1, ha1⟩ := readExact_short r headerSize hw
    refine ⟨r₁, ?_, by rw [ha1.1, List.drop_length]⟩
    unfold recvFrame
    rw [e1]
    simp only [ne_eq, hne, not_false_eq_true, if_true]
  · have hm : ¬ max < ofBE (r.unread.take headerSize) := fun hm => ho ⟨by omega, hm⟩
    have hs : r.unread.length < headerSize + ofBE (r.unread.take headerSize) := by
      unfold firstFrame at h
      rw [if_neg hw, if_neg hm] at h
      by_contra hc
      rw [if_neg hc] at h
      cases h
    obtain ⟨r₁, e1, ha1⟩ := readExact_full r headerSize (by omega)
    have hl1 : r₁.unread.length = r.unread.length - headerSize := by
      rw [ha1.1, List.length_drop]
    obtain ⟨r₂, e2, ha2⟩ := readExact_short r₁ (ofBE (r.unread.take headerSize)) (by omega)
    refine ⟨r₂, ?_, by rw [ha2.1, List.drop_length]⟩
    unfold recvFrame
    rw [e1]
    simp only [ne_eq, not_true_eq_false, if_false, gt_iff_lt, if_neg hm, e2, ha1.2.1, hne,
      not_false_eq_true, if_true]

end NetForge
