import Mathlib.Algebra.Ring.Nat
import Mathlib.Data.List.Basic
import Mathlib.Data.List.Infix

/-!
# Length-prefixed frames on a byte string

A frame is a big-endian length of `w` bytes followed by that many bytes.

* `ofBE`, `toBE`         numbers as big-endian byte strings; `ofBE_toBE`, `toBE_ofBE`;
* `frame`, `frames`      one frame, the frames of a list of payloads;
* `firstFrame w max b`   the payload and the rest, if `b` starts with a complete frame of at
                         most `max` bytes;
* `splitFrames w max b`  the leading run of such frames and what is left.

`splitFrames_frames_append` reads back what was written, `splitFrames_longest` says that no
longer run of frames is a prefix of `b`, and `firstFrame_cut` that a frame that is cut anywhere
is not complete.
-/

namespace Wire

/-- a byte string (`std::string`, `std::vector<std::byte>`) -/
abbrev Bytes := List UInt8

/-- the bytes of an ASCII text -/
def ascii (s : String) : Bytes := s.toList.map (fun c => UInt8.ofNat c.toNat)

/-- `isspace` of the C locale: space, `\t \n \v \f \r` -/
def isSpace (c : UInt8) : Bool := c == 32 || (9 ≤ c && c ≤ 13)

/-- a property of bytes is checked on the 256 bytes -/
theorem forall_byte {P : UInt8 → Prop} (h : ∀ n : Fin 256, P (UInt8.ofFin n)) (c : UInt8) : P c :=
  h c.toFin

/-! ## big-endian numbers -/

/-- value of a big-endian byte string -/
def ofBE (b : Bytes) : Nat := b.foldl (fun acc x => acc * 256 + x.toNat) 0

/-- the `w` low bytes of `n`, most significant first -/
def toBE : Nat → Nat → Bytes
  | 0, _ => []
  | w+1, n => toBE w (n / 256) ++ [UInt8.ofNat n]

theorem ofBE_concat (b : Bytes) (x : UInt8) : ofBE (b ++ [x]) = ofBE b * 256 + x.toNat := by
  simp [ofBE, List.foldl_append]

theorem toBE_succ (w n : Nat) : toBE (w+1) n = toBE w (n / 256) ++ [UInt8.ofNat n] := rfl

@[simp] theorem length_toBE (w n : Nat) : (toBE w n).length = w := by
  induction w generalizing n with
  | zero => rfl
  | succ w ih => rw [toBE_succ, List.length_append, ih]; rfl

theorem ofBE_toBE (w n : Nat) (h : n < 256^w) : ofBE (toBE w n) = n := by
  induction w generalizing n with
  | zero =>
    have hn : n = 0 := by simpa using h
    rw [hn]; rfl
  | succ w ih =>
    have hd : n / 256 < 256^w := by
      apply (Nat.div_lt_iff_lt_mul (by decide)).mpr
      rwa [← Nat.pow_succ]
    rw [toBE_succ, ofBE_concat, ih _ hd, UInt8.toNat_ofNat']
    omega

theorem ofBE_lt (b : Bytes) : ofBE b < 256^b.length := by
  induction b using List.reverseRecOn with
  | nil => decide
  | append_singleton b x ih =>
    have hx : x.toNat < 256 := x.toNat_lt
    rw [ofBE_concat, List.length_append, List.length_singleton, Nat.pow_succ]
    omega

theorem toBE_ofBE (b : Bytes) : toBE b.length (ofBE b) = b := by
  induction b using List.reverseRecOn with
  | nil => rfl
  | append_singleton b x ih =>
    have hx : x.toNat < 256 := x.toNat_lt
    rw [List.length_append, List.length_singleton, toBE_succ, ofBE_concat]
    have hd : (ofBE b * 256 + x.toNat) / 256 = ofBE b := by omega
    have hm : UInt8.ofNat (ofBE b * 256 + x.toNat) = x := by
      apply UInt8.toNat_inj.mp
      rw [UInt8.toNat_ofNat']
      omega
    rw [hd, ih, hm]

/-! ## frames -/

/-- one frame: the length of the payload on `w` bytes, then the payload -/
def frame (w : Nat) (p : Bytes) : Bytes := toBE w p.length ++ p

def frames (w : Nat) (ps : List Bytes) : Bytes := ps.flatMap (frame w)

@[simp] theorem length_frame (w : Nat) (p : Bytes) : (frame w p).length = w + p.length := by
  simp [frame]

theorem frames_nil (w : Nat) : frames w [] = [] := rfl
theorem frames_cons (w : Nat) (p : Bytes) (ps : List Bytes) :
    frames w (p :: ps) = frame w p ++ frames w ps := rfl
theorem frames_append (w : Nat) (ps qs : List Bytes) :
    frames w (ps ++ qs) = frames w ps ++ frames w qs := by
  simp [frames, List.flatMap_append]
theorem frames_singleton (w : Nat) (p : Bytes) : frames w [p] = frame w p := by
  simp [frames]

/-- a cut through frames: some whole frames, and at most a part of the next one -/
theorem take_frames (w : Nat) (ps : List Bytes) (k : Nat) :
    ∃ n c, (frames w ps).take k = frames w (ps.take n) ++ c ∧
      (c = [] ∨ ∃ p ∈ ps, c <+: frame w p ∧ c ≠ frame w p) := by
  induction ps generalizing k with
  | nil => exact ⟨0, [], by simp [frames_nil], Or.inl rfl⟩
  | cons p ps ih =>
    by_cases hk : k < (frame w p).length
    · refine ⟨0, (frame w p).take k, ?_, Or.inr ⟨p, List.mem_cons_self .., List.take_prefix _ _, ?_⟩⟩
      · rw [frames_cons, List.take_append_of_le_length (by omega), List.take_zero, frames_nil,
          List.nil_append]
      · intro h
        have := congrArg List.length h
        rw [List.length_take] at this
        omega
    · obtain ⟨n, c, e, hc⟩ := ih (k - (frame w p).length)
      refine ⟨n + 1, c, ?_, ?_⟩
      · rw [frames_cons, List.take_append, List.take_of_length_le (by omega), e,
          List.take_succ_cons, frames_cons, List.append_assoc]
      · rcases hc with hc | ⟨q, hq, hc⟩
        · exact Or.inl hc
        · exact Or.inr ⟨q, List.mem_cons_of_mem _ hq, hc⟩

theorem take_frame_append (w : Nat) (p rest : Bytes) :
    (frame w p ++ rest).take w = toBE w p.length := by
  rw [frame, List.append_assoc, List.take_append_of_le_length (by simp),
    List.take_of_length_le (by simp)]

theorem drop_frame_append (w : Nat) (p rest : Bytes) : (frame w p ++ rest).drop w = p ++ rest := by
  rw [frame, List.append_assoc, List.drop_append_of_le_length (by simp),
    List.drop_of_length_le (by simp), List.nil_append]

/-- the first frame of `b` and the rest, when the frame is complete and has at most `max` bytes -/
def firstFrame (w max : Nat) (b : Bytes) : Option (Bytes × Bytes) :=
  if b.length < w then none
  else if max < ofBE (b.take w) then none
  else if b.length < w + ofBE (b.take w) then none
  else some ((b.drop w).take (ofBE (b.take w)), b.drop (w + ofBE (b.take w)))

theorem firstFrame_frame_append (w max : Nat) (p rest : Bytes) (hw : p.length < 256^w)
    (hm : p.length ≤ max) : firstFrame w max (frame w p ++ rest) = some (p, rest) := by
  have hn : ofBE ((frame w p ++ rest).take w) = p.length := by
    rw [take_frame_append, ofBE_toBE w _ hw]
  have hl : (frame w p ++ rest).length = w + p.length + rest.length := by simp
  unfold firstFrame
  rw [hn, if_neg (by omega), if_neg (by omega), if_neg (by omega), drop_frame_append,
    List.take_left', ← List.drop_drop, drop_frame_append, List.drop_left']
  · rfl
  · rfl

theorem firstFrame_some {w max : Nat} {b p rest : Bytes} (h : firstFrame w max b = some (p, rest)) :
    b = frame w p ++ rest ∧ p.length ≤ max ∧ p.length < 256^w := by
  unfold firstFrame at h
  split at h
  · cases h
  split at h
  · cases h
  split at h
  · cases h
  rename_i h1 h2 h3
  obtain ⟨hp, hrest⟩ := Prod.mk.inj (Option.some.inj h)
  have htw : (b.take w).length = w := by rw [List.length_take]; omega
  have hpl : p.length = ofBE (b.take w) := by
    rw [← hp, List.length_take, List.length_drop]; omega
  have hlt : ofBE (b.take w) < 256^w := by
    have := ofBE_lt (b.take w)
    rwa [htw] at this
  refine ⟨?_, by omega, by omega⟩
  have hhead : toBE w p.length = b.take w := by
    have := toBE_ofBE (b.take w)
    rwa [htw, ← hpl] at this
  rw [frame, hhead, ← hp, ← hrest, ← List.drop_drop, List.append_assoc, List.take_append_drop,
    List.take_append_drop]

theorem firstFrame_rest_lt {w max : Nat} [NeZero w] {b p rest : Bytes}
    (h : firstFrame w max b = some (p, rest)) : rest.length < b.length := by
  have hw : 0 < w := Nat.pos_of_ne_zero (NeZero.ne w)
  rw [(firstFrame_some h).1, List.length_append, length_frame]
  omega

/-- a higher limit accepts more frames -/
theorem firstFrame_none_mono {w max max' : Nat} {b : Bytes} (hm : max ≤ max')
    (h : firstFrame w max' b = none) : firstFrame w max b = none := by
  cases hb : firstFrame w max b with
  | none => rfl
  | some pr =>
    obtain ⟨p, rest⟩ := pr
    obtain ⟨e, hp, hw⟩ := firstFrame_some hb
    rw [e, firstFrame_frame_append w max' p rest hw (hp.trans hm)] at h
    cases h

/-- the header of a proper prefix of a frame promises more than the prefix holds -/
theorem firstFrame_cut (w max : Nat) (p c : Bytes) (hp : p.length < 256^w) (hc : c <+: frame w p)
    (hne : c ≠ frame w p) : firstFrame w max c = none := by
  obtain ⟨d, hd⟩ := hc
  have hdl : 0 < d.length := by
    cases d with
    | nil => exact absurd (by simpa using hd) hne
    | cons x d => simp
  have hlen : c.length + d.length = w + p.length := by
    rw [← List.length_append, hd, length_frame]
  unfold firstFrame
  by_cases hw : c.length < w
  · rw [if_pos hw]
  · have hcut : c.take w = toBE w p.length := by
      have h1 := take_frame_append w p []
      rw [List.append_nil, ← hd, List.take_append_of_le_length (by omega)] at h1
      exact h1
    have hn : ofBE (c.take w) = p.length := by rw [hcut, ofBE_toBE w _ hp]
    rw [if_neg hw, hn]
    split
    · rfl
    · rw [if_pos (by omega)]

/-! ## the leading run of frames -/

section
variable (w max : Nat) [NeZero w]

/-- the leading run of complete frames of at most `max` bytes, and what follows it -/
def splitFrames (b : Bytes) : List Bytes × Bytes :=
  match h : firstFrame w max b with
  | none => ([], b)
  | some (p, rest) =>
    have : rest.length < b.length := firstFrame_rest_lt h
    (p :: (splitFrames rest).1, (splitFrames rest).2)
termination_by b.length

theorem splitFrames_none {b : Bytes} (h : firstFrame w max b = none) :
    splitFrames w max b = ([], b) := by
  rw [splitFrames]
  split
  · rfl
  · rename_i h1; rw [h] at h1; cases h1

theorem splitFrames_some {b p rest : Bytes} (h : firstFrame w max b = some (p, rest)) :
    splitFrames w max b = (p :: (splitFrames w max rest).1, (splitFrames w max rest).2) := by
  rw [splitFrames]
  split
  · rename_i h1; rw [h] at h1; cases h1
  · rename_i h1
    rw [h] at h1
    cases h1
    rfl

/-- payloads that fit the header and the limit -/
def Fits (ps : List Bytes) : Prop := ∀ p ∈ ps, p.length ≤ max ∧ p.length < 256^w

theorem splitFrames_spec (b : Bytes) :
    b = frames w (splitFrames w max b).1 ++ (splitFrames w max b).2 ∧
      Fits w max (splitFrames w max b).1 ∧ firstFrame w max (splitFrames w max b).2 = none := by
  induction hn : b.length using Nat.strong_induction_on generalizing b with
  | _ n ih =>
    cases h : firstFrame w max b with
    | none =>
      rw [splitFrames_none w max h]
      exact ⟨rfl, fun p hp => absurd hp (by simp), h⟩
    | some pr =>
      obtain ⟨p, rest⟩ := pr
      obtain ⟨hb, hm, hw⟩ := firstFrame_some h
      obtain ⟨h1, h2, h3⟩ := ih rest.length (by rw [← hn]; exact firstFrame_rest_lt h) rest rfl
      rw [splitFrames_some w max h]
      refine ⟨?_, ?_, h3⟩
      · show b = frames w (p :: (splitFrames w max rest).1) ++ (splitFrames w max rest).2
        rw [frames_cons, List.append_assoc, ← h1]
        exact hb
      · intro q hq
        rcases List.mem_cons.mp hq with e | e
        · rw [e]; exact ⟨hm, hw⟩
        · exact h2 q e

theorem splitFrames_frames_append (ps : List Bytes) (rest : Bytes) (h : Fits w max ps) :
    splitFrames w max (frames w ps ++ rest)
      = (ps ++ (splitFrames w max rest).1, (splitFrames w max rest).2) := by
  induction ps with
  | nil => rfl
  | cons p ps ih =>
    have hp := h p (List.mem_cons_self ..)
    rw [frames_cons, List.append_assoc,
      splitFrames_some w max (firstFrame_frame_append w max p _ hp.2 hp.1),
      ih (fun q hq => h q (List.mem_cons_of_mem _ hq))]
    rfl

/-- a run of frames before something that is not a complete frame is found as it is -/
theorem splitFrames_unique (ps : List Bytes) (rest : Bytes) (h : Fits w max ps)
    (hr : firstFrame w max rest = none) : splitFrames w max (frames w ps ++ rest) = (ps, rest) := by
  rw [splitFrames_frames_append w max ps rest h, splitFrames_none w max hr, List.append_nil]

/-- **every run of frames at the start of `b` is an initial part of the one found** -/
theorem splitFrames_longest (b : Bytes) (qs : List Bytes) (h : Fits w max qs)
    (hq : frames w qs <+: b) : qs <+: (splitFrames w max b).1 := by
  obtain ⟨rest, rfl⟩ := hq
  rw [splitFrames_frames_append w max qs rest h]
  exact List.prefix_append _ _

end

end Wire
