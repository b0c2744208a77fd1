import Mathlib.Data.List.Basic

/-!
# Blocking reads and writes on a byte stream

A descriptor is modelled by the items that will pass through it and by a SCHEDULE: the outcomes
of its next system calls.  A call beyond the end of the schedule transfers all it can.  A loop of
calls that returns has looked at finitely many outcomes, so finite schedules are all schedules;
what they leave out is the loop that is interrupted for ever.

* `Reader`   items that have arrived and are not read yet, and what a read gives once they are
             used up: end of stream, or an error (a time-out is `EAGAIN`);
* `Writer`   items accepted so far; a call may be short, be interrupted or fail.

`read` never returns an empty transfer while items are waiting: that is the contract of `read(2)`.
A write may return `0`.
-/

namespace Stream

/-- what a read gives when the items that arrived are used up -/
inductive Ending (ε : Type) where
  | eof
  | failed (e : ε)
deriving DecidableEq, Repr

/-- outcome of a read call that is still to come: at most `n + 1` items, or `EINTR` -/
inductive ReadEvent where
  | count (n : Nat)
  | eintr
deriving DecidableEq, Repr

/-- what a read call returned -/
inductive ReadOutcome (α ε : Type) where
  | data (items : List α)
  | eof
  | eintr
  | failed (e : ε)
deriving DecidableEq, Repr

structure Reader (α ε : Type) where
  unread : List α
  ending : Ending ε
  schedule : List ReadEvent
  /-- items read so far (`lseek(fd, 0, SEEK_CUR)` on a file) -/
  position : Nat
deriving DecidableEq, Repr

/-- outcome of a write call that is still to come: at most `n` items are taken, `EINTR`, or an
error -/
inductive WriteEvent (ε : Type) where
  | count (n : Nat)
  | eintr
  | failed (e : ε)
deriving DecidableEq, Repr

/-- what a write call returned -/
inductive WriteOutcome (ε : Type) where
  | wrote (n : Nat)
  | eintr
  | failed (e : ε)
deriving DecidableEq, Repr

structure Writer (α ε : Type) where
  written : List α
  schedule : List (WriteEvent ε)
deriving DecidableEq, Repr

section
variable {α ε : Type}

/-! ## reading -/

/-- a call that may transfer `m` items -/
def Reader.deliver (r : Reader α ε) (m : Nat) : ReadOutcome α ε × Reader α ε :=
  match r.unread with
  | [] =>
    match r.ending with
    | .eof => (.eof, r)
    | .failed e => (.failed e, r)
  | x :: xs =>
    (.data ((x :: xs).take m),
      { r with unread := (x :: xs).drop m, position := r.position + ((x :: xs).take m).length })

/-- `read(fd, buffer, n)` -/
def Reader.read (r : Reader α ε) (n : Nat) : ReadOutcome α ε × Reader α ε :=
  match r.schedule with
  | [] => r.deliver n
  | .eintr :: s => (.eintr, { r with schedule := s })
  | .count k :: s => Reader.deliver { r with schedule := s } (min (k+1) n)

theorem Reader.deliver_data {r r' : Reader α ε} {m : Nat} {b : List α}
    (h : r.deliver m = (.data b, r')) :
    r.unread = b ++ r'.unread ∧ b.length = min m r.unread.length ∧ r.unread ≠ [] ∧
      r'.ending = r.ending ∧ r'.schedule = r.schedule ∧
      r'.position = r.position + b.length := by
  unfold Reader.deliver at h
  split at h
  · split at h <;> cases h
  · rename_i x xs hu
    obtain ⟨h1, h2⟩ := Prod.mk.inj h
    have hb := ReadOutcome.data.inj h1
    subst hb h2
    rw [hu]
    refine ⟨(List.take_append_drop m _).symm, List.length_take .., by simp, rfl, rfl, rfl⟩

/-- what a read that returns data does: it takes a nonempty initial part of the waiting items,
or it uses up an entry of the schedule -/
theorem Reader.read_data {r r' : Reader α ε} {n : Nat} {b : List α} (hn : 0 < n)
    (h : r.read n = (.data b, r')) :
    r.unread = b ++ r'.unread ∧ 0 < b.length ∧ b.length ≤ n ∧ r'.ending = r.ending ∧
      r'.schedule.length ≤ r.schedule.length ∧ r'.position = r.position + b.length := by
  unfold Reader.read at h
  split at h
  · obtain ⟨h1, h2, h3, h4, h5, h6⟩ := Reader.deliver_data h
    have hpos : 0 < r.unread.length := List.length_pos_of_ne_nil h3
    exact ⟨h1, by omega, by omega, h4, Nat.le_of_eq (by rw [h5]), h6⟩
  · cases h
  · rename_i k s hs
    obtain ⟨h1, h2, h3, h4, h5, h6⟩ := Reader.deliver_data h
    have hpos : 0 < r.unread.length := List.length_pos_of_ne_nil h3
    dsimp only at h1 h2 h5 h6
    refine ⟨h1, by omega, by omega, h4, ?_, h6⟩
    rw [h5, hs, List.length_cons]
    omega

theorem Reader.read_eintr {r r' : Reader α ε} {n : Nat} (h : r.read n = (.eintr, r')) :
    r'.unread = r.unread ∧ r'.ending = r.ending ∧ r'.schedule.length < r.schedule.length ∧
      r'.position = r.position := by
  unfold Reader.read at h
  split at h
  · unfold Reader.deliver at h
    split at h
    · split at h <;> cases h
    · cases h
  · rename_i s hs
    cases h
    refine ⟨rfl, rfl, ?_, rfl⟩
    show s.length < r.schedule.length
    rw [hs, List.length_cons]
    omega
  · unfold Reader.deliver at h
    split at h
    · split at h <;> cases h
    · cases h

/-- a read returns end of stream or an error only when nothing is waiting -/
theorem Reader.deliver_end {r r' : Reader α ε} {m : Nat} {o : ReadOutcome α ε}
    (h : r.deliver m = (o, r')) (hd : ∀ b, o ≠ .data b) :
    r.unread = [] ∧ r' = r ∧
      ((o = .eof ∧ r.ending = .eof) ∨ ∃ e, o = .failed e ∧ r.ending = .failed e) := by
  unfold Reader.deliver at h
  split at h
  · rename_i hu
    split at h
    · rename_i he
      cases h
      exact ⟨hu, rfl, Or.inl ⟨rfl, he⟩⟩
    · rename_i e he
      cases h
      exact ⟨hu, rfl, Or.inr ⟨e, rfl, he⟩⟩
  · cases h
    exact absurd rfl (hd _)

theorem Reader.read_end {r r' : Reader α ε} {n : Nat} {o : ReadOutcome α ε}
    (h : r.read n = (o, r')) (hd : ∀ b, o ≠ .data b) (hi : o ≠ .eintr) :
    r.unread = [] ∧ r'.unread = [] ∧ r'.ending = r.ending ∧ r'.position = r.position ∧
      ((o = .eof ∧ r.ending = .eof) ∨ ∃ e, o = .failed e ∧ r.ending = .failed e) := by
  unfold Reader.read at h
  split at h
  · obtain ⟨h1, h2, h3⟩ := Reader.deliver_end h hd
    subst h2
    exact ⟨h1, h1, rfl, rfl, h3⟩
  · cases h
    exact absurd rfl hi
  · obtain ⟨h1, h2, h3⟩ := Reader.deliver_end h hd
    subst h2
    exact ⟨h1, h1, rfl, rfl, h3⟩

/-! ## writing -/

/-- `write(fd, items, n)` with `n` the number of items -/
def Writer.write (w : Writer α ε) (items : List α) : WriteOutcome ε × Writer α ε :=
  match w.schedule with
  | [] => (.wrote items.length, { w with written := w.written ++ items })
  | .count k :: s =>
    (.wrote (min k items.length), { written := w.written ++ items.take k, schedule := s })
  | .eintr :: s => (.eintr, { w with schedule := s })
  | .failed e :: s => (.failed e, { w with schedule := s })

/-- outcomes that a write loop survives: a short but nonempty transfer, or `EINTR` -/
def WriteEvent.Transient : WriteEvent ε → Prop
  | .count n => 0 < n
  | .eintr => True
  | .failed _ => False

theorem Writer.write_wrote {w w' : Writer α ε} {items : List α} {n : Nat}
    (h : w.write items = (.wrote n, w')) :
    w'.written = w.written ++ items.take n ∧ n ≤ items.length ∧
      (w.schedule = [] ∧ w'.schedule = [] ∧ n = items.length ∨
        ∃ k, w.schedule = .count k :: w'.schedule ∧ n = min k items.length) := by
  unfold Writer.write at h
  split at h
  · rename_i hs
    cases h
    exact ⟨by rw [List.take_length], Nat.le_refl _, Or.inl ⟨hs, hs, rfl⟩⟩
  · rename_i k s hs
    cases h
    refine ⟨?_, by omega, Or.inr ⟨k, hs, rfl⟩⟩
    show w.written ++ items.take k = w.written ++ items.take (min k items.length)
    rcases Nat.le_total k items.length with hk | hk
    · rw [Nat.min_eq_left hk]
    · rw [Nat.min_eq_right hk, List.take_length, List.take_of_length_le hk]
  · cases h
  · cases h

theorem Writer.write_eintr {w w' : Writer α ε} {items : List α}
    (h : w.write items = (.eintr, w')) :
    w'.written = w.written ∧ w.schedule = .eintr :: w'.schedule := by
  unfold Writer.write at h
  split at h
  · cases h
  · cases h
  · rename_i s hs
    cases h
    exact ⟨rfl, hs⟩
  · cases h

theorem Writer.write_failed {w w' : Writer α ε} {items : List α} {e : ε}
    (h : w.write items = (.failed e, w')) :
    w'.written = w.written ∧ w.schedule = .failed e :: w'.schedule := by
  unfold Writer.write at h
  split at h
  · cases h
  · cases h
  · cases h
  · rename_i s hs
    cases h
    exact ⟨rfl, hs⟩

end

end Stream
