import SystemsCourse.NetForge.Record

/-!
# Recovery over arbitrary file contents

`completeFrames b` is the longest prefix of `b` made of complete frames, with what follows it.
A file is RECOVERABLE if each of these frames is within the limit and holds a mutation, and the
incomplete rest is not a header that announces too much.

`recoverLoop_spec`: if no read fails, the loop replays a recoverable file and repairs it after its
last complete frame; on any other file it stops at the first offending frame and leaves the file
alone.  `recover_cases` has what is left of the file when a call fails or the machine stops in it.  The
four ways in which a round of the loop can go are `recoverLoop_empty`, `recoverLoop_oversized`,
`recoverLoop_torn` and `recoverLoop_frame`.
-/

namespace NetForge
open Wire Stream

/-- the longest run of complete frames, whatever their length, and the incomplete rest -/
def completeFrames (b : Bytes) : List Bytes × Bytes := splitFrames headerSize (2^32 - 1) b

/-- a payload that passes the two checks of `recover`: its length, and that it is a mutation -/
def loggable (p : Bytes) : Bool := decide (p.length ≤ kDefaultMaxPayload) && (recordMutation p).isSome

def Recoverable (b : Bytes) : Prop :=
  (∀ p ∈ (completeFrames b).1, loggable p = true) ∧
    ¬ Oversized kDefaultMaxPayload (completeFrames b).2

instance (b : Bytes) : Decidable (Recoverable b) := inferInstanceAs (Decidable (_ ∧ _))

/-- the mutations of a list of payloads -/
def mutations (ps : List Bytes) : List Mutation := ps.filterMap recordMutation

/-- the descriptor of `recover` is opened, and its calls are at most interrupted -/
def RecoverIo.NoErrors (io : RecoverIo) : Prop :=
  io.openError = none ∧ io.readEnd = .eof ∧ (∀ e ∈ io.truncates, e = .ok ∨ e = .eintr) ∧
    (∀ e ∈ io.syncs, e = .ok ∨ e = .eintr)

theorem loggable_iff (p : Bytes) :
    loggable p = true ↔ p.length ≤ kDefaultMaxPayload ∧ ∃ m, recordMutation p = some m := by
  unfold loggable
  rw [Bool.and_eq_true, decide_eq_true_eq, Option.isSome_iff_exists]

theorem mutations_cons {p : Bytes} {m : Mutation} (h : recordMutation p = some m)
    (ps : List Bytes) : mutations (p :: ps) = m :: mutations ps :=
  List.filterMap_cons_some h

/-! ## the calls on the descriptor -/

theorem retryCall_noErrors (act : WalFile → WalFile) (file : WalFile) (events : List CallEvent)
    (h : ∀ e ∈ events, e = .ok ∨ e = .eintr) :
    ∃ events', retryCall act file events = (some true, act file, events') := by
  induction events with
  | nil => exact ⟨[], rfl⟩
  | cons e events ih =>
    rcases h e (List.mem_cons_self ..) with rfl | rfl
    · exact ⟨events, rfl⟩
    · exact ih (fun e' h' => h e' (List.mem_cons_of_mem _ h'))

theorem repairTornTail_noErrors (file : WalFile) (n : Nat) (io : RecoverIo) (h : io.NoErrors) :
    repairTornTail file n io = (some true, (file.truncate n).sync) := by
  obtain ⟨truncates, e1⟩ :=
    retryCall_noErrors (fun f => f.truncate n) file io.truncates h.2.2.1
  obtain ⟨syncs, e2⟩ := retryCall_noErrors WalFile.sync (file.truncate n) io.syncs h.2.2.2
  unfold repairTornTail
  rw [e1]
  dsimp only
  rw [syncFile, e2]

/-! ## one round of the loop -/

section
variable (file : WalFile) (io : RecoverIo) (input : Source) (store : KvStore) (size : Nat)

theorem recoverLoop_empty (h : input.unread = []) (he : input.ending = .eof) :
    recoverLoop file io input store size = (some true, store, file) := by
  obtain ⟨r', e, _⟩ := readExact_short input headerSize (by rw [h]; decide)
  rw [recoverLoop]
  dsimp only
  rw [e]
  simp [he, h, endStatus]

theorem recoverLoop_oversized (h : Oversized kDefaultMaxPayload input.unread) :
    recoverLoop file io input store size = (some false, store, file) := by
  obtain ⟨r', e, _⟩ := readExact_full input headerSize h.1
  rw [recoverLoop]
  dsimp only
  rw [e]
  simp [h.2]

theorem recoverLoop_torn (hn : input.unread ≠ []) (he : input.ending = .eof)
    (hf : firstFrame headerSize kDefaultMaxPayload input.unread = none)
    (ho : ¬ Oversized kDefaultMaxPayload input.unread) :
    recoverLoop file io input store size
      = ((repairTornTail file size io).1, store, (repairTornTail file size io).2) := by
  have hpos := List.length_pos_of_ne_nil hn
  by_cases hw : input.unread.length < headerSize
  · obtain ⟨r', e, _⟩ := readExact_short input headerSize hw
    rw [recoverLoop]
    dsimp only
    rw [e]
    simp [he, endStatus, hn]
  · have hm : ¬ kDefaultMaxPayload < ofBE (input.unread.take headerSize) :=
      fun hm => ho ⟨by omega, hm⟩
    have hs : input.unread.length < headerSize + ofBE (input.unread.take headerSize) := by
      unfold firstFrame at hf
      rw [if_neg hw, if_neg hm] at hf
      by_contra hc
      rw [if_neg hc] at hf
      cases hf
    obtain ⟨r₁, e1, ha1⟩ := readExact_full input headerSize (by omega)
    have hl1 : r₁.unread.length = input.unread.length - headerSize := by
      rw [ha1.1, List.length_drop]
    obtain ⟨r₂, e2, _⟩ := readExact_short r₁ (ofBE (input.unread.take headerSize)) (by omega)
    rw [recoverLoop]
    dsimp only
    rw [e1]
    dsimp only
    rw [e2]
    simp [hm, ha1.2.1, he, endStatus]

/-- a complete frame within the limit: its mutation is applied, or it is the offending one -/
theorem recoverLoop_frame (p rest : Bytes)
    (hf : firstFrame headerSize kDefaultMaxPayload input.unread = some (p, rest)) :
    ∃ r', r'.unread = rest ∧ Advanced input r' (headerSize + p.length) ∧
      recoverLoop file io input store size =
        match recordMutation p with
        | some m => recoverLoop file io r' (m.apply store) r'.position
        | none => (some false, store, file) := by
  obtain ⟨hb, hm, hw⟩ := firstFrame_some hf
  have hl : input.unread.length = headerSize + p.length + rest.length := by
    rw [hb, List.length_append, length_frame]
  obtain ⟨r₁, e1, ha1⟩ := readExact_full input headerSize (by omega)
  have hn : ofBE (input.unread.take headerSize) = p.length := by
    rw [hb, take_frame_append, ofBE_toBE _ _ hw]
  have hu1 : r₁.unread = p ++ rest := by rw [ha1.1, hb, drop_frame_append]
  obtain ⟨r₂, e2, ha2⟩ := readExact_full r₁ p.length (by rw [hu1, List.length_append]; omega)
  refine ⟨r₂, by rw [ha2.1, hu1, List.drop_left' rfl], ha1.trans ha2, ?_⟩
  rw [recoverLoop]
  dsimp only
  rw [e1]
  dsimp only
  rw [hn, e2, hu1, List.take_left' rfl]
  dsimp only
  rw [if_neg (by simp), dif_neg (by simp), if_neg (by omega), if_neg (by simp), dif_neg (by simp)]
  unfold recordMutation
  cases hp : parseCommand p with
  | error e => rfl
  | ok c => cases c <;> rfl

end

/-! ## the whole loop -/

theorem completeFrames_some {b p rest : Bytes}
    (h : firstFrame headerSize (2^32 - 1) b = some (p, rest)) :
    completeFrames b = (p :: (completeFrames rest).1, (completeFrames rest).2) :=
  splitFrames_some _ _ h

theorem completeFrames_none {b : Bytes} (h : firstFrame headerSize (2^32 - 1) b = none) :
    completeFrames b = ([], b) :=
  splitFrames_none _ _ h

theorem firstFrame_or_oversized {b p rest : Bytes}
    (h : firstFrame headerSize (2^32 - 1) b = some (p, rest)) :
    if p.length ≤ kDefaultMaxPayload then
      firstFrame headerSize kDefaultMaxPayload b = some (p, rest)
    else Oversized kDefaultMaxPayload b := by
  obtain ⟨hb, _, hw⟩ := firstFrame_some h
  split
  · rename_i hp
    rw [hb]
    exact firstFrame_frame_append _ _ p rest hw hp
  · rename_i hp
    refine ⟨?_, ?_⟩
    · rw [hb, List.length_append, length_frame]; omega
    · rw [hb, take_frame_append, ofBE_toBE _ _ hw]; omega

/-- what the loop answers and leaves behind, from the bytes that are still to be read; `repair n` cuts
the file to its first `n` bytes -/
def recoveredBy (repair : Nat → Option Bool × WalFile) (file : WalFile) (store : KvStore) (size : Nat)
    (b : Bytes) : Option Bool × KvStore × WalFile :=
  if Recoverable b then
    if (completeFrames b).2 = [] then (some true, replayAll (mutations (completeFrames b).1) store, file)
    else
      let (result, file') := repair (size + (frames headerSize (completeFrames b).1).length)
      (result, replayAll (mutations (completeFrames b).1) store, file')
  else (some false, replayAll (mutations ((completeFrames b).1.takeWhile loggable)) store, file)

/-- without I/O errors -/
def recovered (file : WalFile) (store : KvStore) (size : Nat) (b : Bytes) :
    Option Bool × KvStore × WalFile :=
  if Recoverable b then
    (some true, replayAll (mutations (completeFrames b).1) store,
      if (completeFrames b).2 = [] then file
      else (file.truncate (size + (frames headerSize (completeFrames b).1).length)).sync)
  else (some false, replayAll (mutations ((completeFrames b).1.takeWhile loggable)) store, file)

theorem recoveredBy_cut {repair : Nat → Option Bool × WalFile} {file : WalFile} {size : Nat} {b : Bytes}
    (h : repair (size + (frames headerSize (completeFrames b).1).length)
      = (some true, (file.truncate (size + (frames headerSize (completeFrames b).1).length)).sync))
    (store : KvStore) : recoveredBy repair file store size b = recovered file store size b := by
  unfold recoveredBy recovered
  rw [h]
  by_cases ht : (completeFrames b).2 = []
  · rw [if_pos ht, if_pos ht]
  · rw [if_neg ht, if_neg ht]

theorem recoverable_none {b : Bytes} (h : firstFrame headerSize (2^32 - 1) b = none) :
    Recoverable b ↔ ¬ Oversized kDefaultMaxPayload b := by
  unfold Recoverable
  rw [completeFrames_none h]
  simp

theorem recoverable_some {b p rest : Bytes}
    (h : firstFrame headerSize (2^32 - 1) b = some (p, rest)) :
    Recoverable b ↔ loggable p = true ∧ Recoverable rest := by
  unfold Recoverable
  rw [completeFrames_some h]
  simp [and_assoc]

theorem recovered_nil (file : WalFile) (store : KvStore) (size : Nat) :
    recovered file store size [] = (some true, store, file) := by
  have hf : firstFrame headerSize (2^32 - 1) [] = none := rfl
  have hr : Recoverable [] := (recoverable_none hf).mpr (by decide)
  rw [recovered, if_pos hr, completeFrames_none hf]
  rfl

section
variable (repair : Nat → Option Bool × WalFile) (file : WalFile) (store : KvStore) (size : Nat)

theorem recoveredBy_none {b : Bytes} (h : firstFrame headerSize (2^32 - 1) b = none) :
    recoveredBy repair file store size b =
      if Oversized kDefaultMaxPayload b then (some false, store, file)
      else if b = [] then (some true, store, file)
      else ((repair size).1, store, (repair size).2) := by
  unfold recoveredBy
  by_cases ho : Oversized kDefaultMaxPayload b
  · rw [if_neg (fun hr => (recoverable_none h).mp hr ho), if_pos ho, completeFrames_none h]
    rfl
  · rw [if_pos ((recoverable_none h).mpr ho), if_neg ho, completeFrames_none h]
    rfl

/-- the first frame is the offending one -/
theorem recoveredBy_stop {b p rest : Bytes}
    (h : firstFrame headerSize (2^32 - 1) b = some (p, rest)) (hl : loggable p = false) :
    recoveredBy repair file store size b = (some false, store, file) := by
  unfold recoveredBy
  rw [if_neg, completeFrames_some h, List.takeWhile_cons_of_neg (by simp [hl])]
  · rfl
  · intro hr
    have := ((recoverable_some h).mp hr).1
    rw [hl] at this
    cases this

theorem recoveredBy_next {b p rest : Bytes} {m : Mutation}
    (h : firstFrame headerSize (2^32 - 1) b = some (p, rest)) (hl : loggable p = true)
    (hm : recordMutation p = some m) :
    recoveredBy repair file store size b
      = recoveredBy repair file (m.apply store) (size + (headerSize + p.length)) rest := by
  unfold recoveredBy
  by_cases hr : Recoverable rest
  · rw [if_pos ((recoverable_some h).mpr ⟨hl, hr⟩), if_pos hr, completeFrames_some h]
    dsimp only
    rw [mutations_cons hm, replayAll_cons, frames_cons, List.length_append, length_frame,
      ← Nat.add_assoc]
  · rw [if_neg (fun hc => hr ((recoverable_some h).mp hc).2), if_neg hr, completeFrames_some h,
      List.takeWhile_cons_of_pos hl, mutations_cons hm, replayAll_cons]

end

/-- **the loop of `recover` on arbitrary bytes**, if no read fails -/
theorem recoverLoop_spec (file : WalFile) (io : RecoverIo) (input : Source) (store : KvStore) (size : Nat)
    (he : input.ending = .eof) (hs : input.position = size) :
    recoverLoop file io input store size
      = recoveredBy (repairTornTail file · io) file store size input.unread := by
  induction hn : input.unread.length using Nat.strong_induction_on
    generalizing input store size with
  | _ n ih =>
    cases hf : firstFrame headerSize (2^32 - 1) input.unread with
    | none =>
      rw [recoveredBy_none _ _ _ _ hf]
      by_cases ho : Oversized kDefaultMaxPayload input.unread
      · rw [if_pos ho, recoverLoop_oversized file io input store size ho]
      · rw [if_neg ho]
        by_cases hu : input.unread = []
        · rw [if_pos hu, recoverLoop_empty file io input store size hu he]
        · rw [if_neg hu, recoverLoop_torn file io input store size hu he
            (firstFrame_none_mono (by decide) hf) ho]
    | some pr =>
      obtain ⟨p, rest⟩ := pr
      have hcase := firstFrame_or_oversized hf
      by_cases hp : p.length ≤ kDefaultMaxPayload
      · rw [if_pos hp] at hcase
        obtain ⟨r', hu, ha, e⟩ := recoverLoop_frame file io input store size p rest hcase
        rw [e]
        cases hm : recordMutation p with
        | none => rw [recoveredBy_stop _ _ _ _ hf (by simp [loggable, hm])]
        | some m =>
          have hlt : rest.length < n := by rw [← hn]; exact firstFrame_rest_lt hf
          have hpos : r'.position = size + (headerSize + p.length) := by rw [ha.2.2, hs]
          rw [recoveredBy_next _ _ _ _ hf ((loggable_iff p).mpr ⟨hp, m, hm⟩) hm, ← hu]
          dsimp only
          rw [hpos]
          exact ih rest.length hlt r' (m.apply store) _ (ha.2.1.trans he) hpos (by rw [hu])
      · rw [if_neg hp] at hcase
        rw [recoveredBy_stop _ _ _ _ hf (by simp [loggable, hp]),
          recoverLoop_oversized file io input store size hcase]

theorem recover_eq (wal : Wal) (store : KvStore) (io : RecoverIo) (hp : wal.path ≠ [])
    (hio : io.NoErrors) : wal.recover store io = recovered wal.file store 0 wal.file.content := by
  unfold Wal.recover
  rw [if_neg hp, hio.1]
  dsimp only
  rw [recoverLoop_spec wal.file io _ store 0 hio.2.1 rfl]
  exact recoveredBy_cut (repairTornTail_noErrors _ _ _ hio) store

/-! ## recovery with I/O errors -/

theorem readExact_eof {r : Source} {size : Nat} (h : (readExact r size).1.status = .eof) :
    r.ending = .eof := by
  by_cases hs : size ≤ r.unread.length
  · obtain ⟨r', e, _⟩ := readExact_full r size hs
    rw [e] at h
    cases h
  · obtain ⟨r', e, _⟩ := readExact_short r size (by omega)
    rw [e] at h
    exact endStatus_eof h

/-- if a read fails at the end of the file, the loop gives up -/
theorem recoverLoop_failed (file : WalFile) (io : RecoverIo) (input : Source) (store : KvStore)
    (size : Nat) (he : input.ending ≠ .eof) :
    (recoverLoop file io input store size).1 = some false ∧
      (recoverLoop file io input store size).2.2 = file := by
  -- a header or body that was read leaves the ending as it was
  have hkept {r : Source} {n : Nat} (h : ¬ (readExact r n).1.status ≠ .ok) :
      (readExact r n).2.2.ending = r.ending := (readExact_ok (Decidable.not_not.mp h)).2.2.2.1
  fun_induction recoverLoop file io input store size with
  | case1 input store size header hh _ => exact absurd (readExact_eof hh) he
  | case2 input store size header hh _ _ _ _ => exact absurd (readExact_eof hh) he
  | case3 => exact ⟨rfl, rfl⟩
  | case4 => exact ⟨rfl, rfl⟩
  | case5 input store size header _ hok length _ body hb _ _ _ =>
    exact absurd ((hkept hok).symm.trans (readExact_eof hb)) he
  | case6 => exact ⟨rfl, rfl⟩
  | case7 input store size header _ hok length _ body _ hb k v _ ih =>
    exact ih (fun h => he (((hkept hb).trans (hkept hok)).symm.trans h))
  | case8 input store size header _ hok length _ body _ hb k _ ih =>
    exact ih (fun h => he (((hkept hb).trans (hkept hok)).symm.trans h))
  | case9 => exact ⟨rfl, rfl⟩

theorem repairTornTail_cases (file : WalFile) (n : Nat) (io : RecoverIo) :
    repairTornTail file n io = (some true, (file.truncate n).sync) ∨
      (repairTornTail file n io).1 ≠ some true ∧ ((repairTornTail file n io).2 = file ∨
        (repairTornTail file n io).2 = file.truncate n ∨
        (repairTornTail file n io).2 = (file.truncate n).sync) := by
  obtain ⟨result, file₁, _, e₁, _, hdone, hfailed, hstopped⟩ :=
    retryCall_cases (fun f => f.truncate n) io.truncates file
  obtain ⟨result', file₂, _, e₂, _, hdone', hfailed', hstopped'⟩ :=
    retryCall_cases WalFile.sync io.syncs file₁
  unfold repairTornTail syncFile
  rw [e₁]
  match result with
  | none =>
    refine .inr ⟨nofun, ?_⟩
    rcases (hstopped rfl).1 with h | h
    · exact .inr (.inl h)
    · exact .inl h
  | some false => exact .inr ⟨nofun, .inl (hfailed rfl)⟩
  | some true =>
    dsimp only
    rw [e₂]
    have hcut : file₁ = file.truncate n := hdone rfl
    subst hcut
    match result' with
    | none =>
      refine .inr ⟨nofun, .inr ?_⟩
      rcases (hstopped' rfl).1 with h | h
      · exact .inr h
      · exact .inl h
    | some false => exact .inr ⟨nofun, .inr (.inl (hfailed' rfl))⟩
    | some true =>
      left
      dsimp only
      rw [hdone' rfl]

/-- **recovery, whatever the calls do**: one that reports success did what one without errors does; any
other leaves the file as it was, or without its torn tail -/
theorem recover_cases (wal : Wal) (store : KvStore) (io : RecoverIo) (hp : wal.path ≠ [])
    (hopen : io.openError ≠ some true) {n : Nat}
    (hn : n = (frames headerSize (completeFrames wal.file.content).1).length) :
    wal.recover store io = recovered wal.file store 0 wal.file.content ∨
      (wal.recover store io).1 ≠ some true ∧ ((wal.recover store io).2.2 = wal.file ∨
        Recoverable wal.file.content ∧ ((wal.recover store io).2.2 = wal.file.truncate n ∨
          (wal.recover store io).2.2 = (wal.file.truncate n).sync)) := by
  unfold Wal.recover
  rw [if_neg hp]
  match ho : io.openError with
  | some true => exact absurd ho hopen
  | some false => exact .inr ⟨nofun, .inl rfl⟩
  | none =>
    dsimp only
    by_cases he : io.readEnd = .eof
    · rw [recoverLoop_spec wal.file io _ store 0 he rfl]
      dsimp only
      rcases repairTornTail_cases wal.file n io with h | ⟨hne, h⟩
      · left
        refine recoveredBy_cut ?_ store
        rw [Nat.zero_add, ← hn]
        exact h
      · unfold recoveredBy
        rw [Nat.zero_add, ← hn]
        by_cases hr : Recoverable wal.file.content
        · by_cases ht : (completeFrames wal.file.content).2 = []
          · left
            rw [recovered, if_pos hr, if_pos hr, if_pos ht, if_pos ht]
          · right
            rw [if_pos hr, if_neg ht]
            exact ⟨hne, h.imp_right fun h => ⟨hr, h⟩⟩
        · right
          rw [if_neg hr]
          exact ⟨nofun, .inl rfl⟩
    · obtain ⟨hresult, hfile⟩ := recoverLoop_failed wal.file io
        ⟨wal.file.content, io.readEnd, io.reads, 0⟩ store 0 he
      exact .inr ⟨by rw [hresult]; nofun, .inl hfile⟩

theorem completeFrames_spec (b : Bytes) :
    b = frames headerSize (completeFrames b).1 ++ (completeFrames b).2 ∧
      Fits headerSize (2^32 - 1) (completeFrames b).1 ∧
      firstFrame headerSize (2^32 - 1) (completeFrames b).2 = none :=
  splitFrames_spec _ _ b

/-- the file that a successful recovery leaves holds the complete frames and nothing else -/
theorem recovered_content (file : WalFile) (store : KvStore) (hr : Recoverable file.content) :
    (recovered file store 0 file.content).2.2.content
      = frames headerSize (completeFrames file.content).1 := by
  have hb := (completeFrames_spec file.content).1
  unfold recovered
  rw [if_pos hr]
  dsimp only
  split
  · rename_i h
    rwa [h, List.append_nil] at hb
  · rw [WalFile.content_sync, WalFile.content_truncate, Nat.zero_add]
    have hpre : frames headerSize (completeFrames file.content).1 <+: file.content := ⟨_, hb.symm⟩
    exact (List.prefix_iff_eq_take.mp hpre).symm

/-- recovering what a recovery left: the same frames, and no tail to cut -/
theorem recovered_again (file file' : WalFile) (store : KvStore) (hr : Recoverable file.content)
    (hf : file'.content = frames headerSize (completeFrames file.content).1) :
    recovered file' (replayAll (mutations (completeFrames file.content).1) store) 0 file'.content
      = (some true, replayAll (mutations (completeFrames file.content).1) store, file') := by
  have hfits := (completeFrames_spec file.content).2.1
  have hc : completeFrames file'.content = ((completeFrames file.content).1, []) := by
    have hsplit := splitFrames_unique headerSize (2^32 - 1) (completeFrames file.content).1 []
      hfits (by rfl)
    rw [List.append_nil, ← hf] at hsplit
    exact hsplit
  have hr' : Recoverable file'.content := by
    unfold Recoverable
    rw [hc]
    exact ⟨hr.1, show ¬ Oversized kDefaultMaxPayload [] by decide⟩
  unfold recovered
  rw [if_pos hr', hc, replayAll_idem]
  rfl

/-- **Recovery over arbitrary file contents.**  With `F` the longest run of complete frames at the
start of the file: a recoverable file is replayed and cut to `F`; on any other file `recover`
returns `false`, has applied the frames before the offending one, and leaves the file as it was.
After a successful recovery another one changes nothing. -/
theorem recover_arbitrary (wal : Wal) (store : KvStore) (io : RecoverIo) (hp : wal.path ≠ [])
    (hio : io.NoErrors) :
    (∀ qs, Fits headerSize (2^32 - 1) qs → frames headerSize qs <+: wal.file.content →
      qs <+: (completeFrames wal.file.content).1) ∧
    frames headerSize (completeFrames wal.file.content).1 <+: wal.file.content ∧
    (((∀ p ∈ (completeFrames wal.file.content).1,
          p.length ≤ kDefaultMaxPayload ∧ ∃ m, recordMutation p = some m) ∧
        ¬ Oversized kDefaultMaxPayload (completeFrames wal.file.content).2) →
      ∃ file, wal.recover store io
          = (some true, replayAll (mutations (completeFrames wal.file.content).1) store, file) ∧
        file.content = frames headerSize (completeFrames wal.file.content).1) ∧
    (¬ ((∀ p ∈ (completeFrames wal.file.content).1,
          p.length ≤ kDefaultMaxPayload ∧ ∃ m, recordMutation p = some m) ∧
        ¬ Oversized kDefaultMaxPayload (completeFrames wal.file.content).2) →
      wal.recover store io
        = (some false,
            replayAll (mutations ((completeFrames wal.file.content).1.takeWhile loggable)) store,
            wal.file)) ∧
    (∀ store' file', wal.recover store io = (some true, store', file') → ∀ io', io'.NoErrors →
      Wal.recover { wal with file := file' } store' io' = (some true, store', file')) := by
  have hiff : ((∀ p ∈ (completeFrames wal.file.content).1,
      p.length ≤ kDefaultMaxPayload ∧ ∃ m, recordMutation p = some m) ∧
        ¬ Oversized kDefaultMaxPayload (completeFrames wal.file.content).2)
      ↔ Recoverable wal.file.content := by
    unfold Recoverable
    simp only [loggable_iff]
  rw [hiff, recover_eq wal store io hp hio]
  refine ⟨fun qs hq hpre => splitFrames_longest _ _ _ qs hq hpre, ?_, ?_, ?_, ?_⟩
  · exact ⟨_, (completeFrames_spec wal.file.content).1.symm⟩
  · intro hr
    refine ⟨(recovered wal.file store 0 wal.file.content).2.2, ?_,
      recovered_content wal.file store hr⟩
    unfold recovered
    rw [if_pos hr]
  · intro hr
    unfold recovered
    rw [if_neg hr]
  · intro store' file' h io' hio'
    have hr : Recoverable wal.file.content := by
      by_contra hr
      unfold recovered at h
      rw [if_neg hr] at h
      cases h
    have hf := recovered_content wal.file store hr
    have hs : (recovered wal.file store 0 wal.file.content).2.1
        = replayAll (mutations (completeFrames wal.file.content).1) store := by
      unfold recovered
      rw [if_pos hr]
    rw [h] at hf hs
    dsimp only at hf hs
    rw [recover_eq { wal with file := file' } store' io' hp hio', hs]
    exact recovered_again wal.file file' store hr hf

/-- a log with the record `SET k v` and a torn header: the header is cut off -/
theorem recover_arbitrary_torn :
    ∃ file, Wal.recover ⟨[119], none, ⟨[0, 0, 0, 7, 83, 69, 84, 32, 107, 32, 118], [0, 1]⟩⟩ KvStore.empty
        ⟨none, [.count 2, .eintr], .eof, [.eintr], []⟩
          = (some true, replayAll [.set [107] [118]] KvStore.empty, file) ∧
      (replayAll [.set [107] [118]] KvStore.empty).get [107] = some [118] ∧
      file.content = [0, 0, 0, 7, 83, 69, 84, 32, 107, 32, 118] := by
  have hc : completeFrames (WalFile.content ⟨[0, 0, 0, 7, 83, 69, 84, 32, 107, 32, 118], [0, 1]⟩)
      = ([[83, 69, 84, 32, 107, 32, 118]], [0, 1]) :=
    splitFrames_unique headerSize (2^32 - 1) [[83, 69, 84, 32, 107, 32, 118]] [0, 1]
      (by simp [Fits, headerSize]) (by decide)
  have h := (recover_arbitrary ⟨[119], none, ⟨[0, 0, 0, 7, 83, 69, 84, 32, 107, 32, 118], [0, 1]⟩⟩
    KvStore.empty ⟨none, [.count 2, .eintr], .eof, [.eintr], []⟩ (by decide)
    ⟨rfl, rfl, by decide, by decide⟩).2.2.1
  dsimp only at h
  rw [hc] at h
  have hr : ∀ p ∈ [[83, 69, 84, 32, 107, 32, 118]], p.length ≤ kDefaultMaxPayload ∧
      ∃ m, recordMutation p = some m := by
    intro p hmem
    rw [List.mem_singleton.mp hmem]
    exact ⟨by decide, .set [107] [118], by decide⟩
  obtain ⟨file, hfile, hcontent⟩ := h ⟨hr, by decide⟩
  exact ⟨file, hfile, by decide, hcontent⟩

end NetForge
