import SystemsCourse.NetForge.Protocol
import SystemsCourse.NetForge.UniqueFd

/-!
# A socket for one of several addresses

`request` of `capstone/reference/src/client.cpp` and `Server::open_listener` of
`capstone/reference/src/server.cpp` go through the addresses that `getaddrinfo` gave: each round has a
`candidate` of its own, and the first candidate for which all calls succeed is moved to the socket that
is kept.  `search` is this loop, with the member functions of `UniqueFd` that it calls.

* `search_found`, `search_none`  the first address whose calls all succeed, or the error of the last one;
* `search_run`                   what the loop does to the descriptors of the process;
* `listener_kept`                `open_listener`: the socket of a server that is ready, and no other.
-/

set_option linter.unusedSectionVars false

namespace NetForge
open Actions Wire

/-- the objects of such a function -/
inductive Slot where
  | kept
  | candidate
deriving DecidableEq

/-- what the calls on one address give: the descriptor of `socket`, and the first failure after it -/
structure Trial where
  socket : Except Errno ℕ
  error : Option Errno

/-- `found` has the address and the descriptor of the socket that is kept -/
structure Search (α : Type) where
  found : Option (α × ℕ)
  lastError : Errno
  acts : List (FdAct Slot)

/-- the error of a call on the address -/
def Trial.failure : Trial → Option Errno
  | ⟨.error e, _⟩ => some e
  | ⟨.ok _, error⟩ => error

/-- what a round does with its candidate -/
def Trial.acts : Trial → List (FdAct Slot)
  | ⟨.error _, _⟩ => [.construct .candidate (-1), .destroy .candidate]
  | ⟨.ok fd, some _⟩ => [.environment fd true, .construct .candidate fd, .destroy .candidate]
  | ⟨.ok fd, none⟩ =>
    [.environment fd true, .construct .candidate fd, .moveAssign .kept .candidate, .destroy .candidate]

section
variable {α : Type} (trial : α → Trial)

def search : List α → Errno → Search α
  | [], lastError => ⟨none, lastError, []⟩
  | address :: rest, lastError =>
    match trial address with
    | ⟨.ok fd, none⟩ => ⟨some (address, fd), lastError, (trial address).acts⟩
    | ⟨.ok _, some e⟩ =>
      let r := search rest e
      { r with acts := (trial address).acts ++ r.acts }
    | ⟨.error e, _⟩ =>
      let r := search rest e
      { r with acts := (trial address).acts ++ r.acts }

variable {trial}

theorem search_failed {address : α} {e : Errno} (h : (trial address).failure = some e) (rest : List α)
    (lastError : Errno) :
    search trial (address :: rest) lastError =
      { search trial rest e with acts := (trial address).acts ++ (search trial rest e).acts } := by
  rw [search]
  rcases ht : trial address with ⟨_ | fd, _ | e'⟩ <;> rw [ht] at h <;> cases h <;> rfl

theorem search_ok {address : α} {fd : ℕ} (h : trial address = ⟨.ok fd, none⟩) (rest : List α)
    (lastError : Errno) :
    search trial (address :: rest) lastError = ⟨some (address, fd), lastError, (trial address).acts⟩ := by
  rw [search, h]

theorem Trial.ok_of_failure {t : Trial} (h : t.failure = none) : ∃ fd, t = ⟨.ok fd, none⟩ := by
  rcases t with ⟨_ | fd, _ | e⟩
  · exact nomatch h
  · exact nomatch h
  · exact ⟨fd, rfl⟩
  · exact nomatch h

/-- the loop keeps the first socket for which no call fails -/
theorem search_found {before : List α} (after : List α) {address : α} {fd : ℕ} (lastError : Errno)
    (hbefore : ∀ b ∈ before, (trial b).failure ≠ none) (h : trial address = ⟨.ok fd, none⟩) :
    (search trial (before ++ address :: after) lastError).found = some (address, fd) := by
  induction before generalizing lastError with
  | nil => rw [List.nil_append, search_ok h]
  | cons b before ih =>
    obtain ⟨hb, hrest⟩ := List.forall_mem_cons.mp hbefore
    obtain ⟨e, he⟩ := Option.ne_none_iff_exists'.mp hb
    rw [List.cons_append, search_failed he]
    exact ih e hrest

theorem search_some {addresses : List α} {address : α} {fd : ℕ} {lastError : Errno}
    (h : (search trial addresses lastError).found = some (address, fd)) :
    ∃ before after, addresses = before ++ address :: after ∧
      (∀ b ∈ before, (trial b).failure ≠ none) ∧ trial address = ⟨.ok fd, none⟩ := by
  induction addresses generalizing lastError with
  | nil => exact nomatch h
  | cons b rest ih =>
    cases hb : (trial b).failure with
    | none =>
      obtain ⟨fd', ht⟩ := Trial.ok_of_failure hb
      rw [search_ok ht] at h
      cases h
      exact ⟨[], rest, rfl, fun b hb => absurd hb List.not_mem_nil, ht⟩
    | some e =>
      rw [search_failed hb] at h
      obtain ⟨before, after, rfl, hbefore, ht⟩ := ih h
      refine ⟨b :: before, after, rfl, List.forall_mem_cons.mpr ⟨?_, hbefore⟩, ht⟩
      rw [hb]
      exact nofun

/-- the loop finds nothing only if there is a failure at each address; the last one is reported -/
theorem search_none {addresses : List α} {lastError : Errno}
    (h : (search trial addresses lastError).found = none) :
    (∀ b ∈ addresses, (trial b).failure ≠ none) ∧
      some (search trial addresses lastError).lastError =
        (addresses.map fun b => (trial b).failure).getLastD (some lastError) := by
  induction addresses generalizing lastError with
  | nil => exact ⟨fun b hb => absurd hb List.not_mem_nil, rfl⟩
  | cons b rest ih =>
    cases hb : (trial b).failure with
    | none =>
      obtain ⟨fd, ht⟩ := Trial.ok_of_failure hb
      rw [search_ok ht] at h
      exact nomatch h
    | some e =>
      rw [search_failed hb] at h ⊢
      obtain ⟨hall, hlast⟩ := ih h
      rw [List.map_cons, List.getLastD_cons, hb]
      exact ⟨List.forall_mem_cons.mpr ⟨by rw [hb]; exact nofun, hall⟩, hlast⟩

end

/-! ## descriptors -/

/-- apart from at most one, the open descriptors are those of `opened` -/
def Descriptors.Within {Obj : Type} (opened : ℤ → Bool) (x : Descriptors Obj) : Prop :=
  ∃ fd, ∀ fd', fd' ≠ fd → x.opened fd' = opened fd'

/-- a call after which there is at most one descriptor more than at the start -/
def FdAct.Frugal {Obj : Type} [DecidableEq Obj] (opened : ℤ → Bool) (x : Descriptors Obj)
    (a : FdAct Obj) : Prop :=
  a.Ok x ∧ (a.out x).Within opened

theorem Descriptors.Within.of_eq {Obj : Type} {opened : ℤ → Bool} {x : Descriptors Obj}
    (h : x.opened = opened) : x.Within opened :=
  ⟨0, fun _ _ => by rw [h]⟩

theorem Descriptors.Within.of_update {Obj : Type} {opened : ℤ → Bool} {x : Descriptors Obj} {fd : ℤ}
    {b : Bool} (h : x.opened = Function.update opened fd b) : x.Within opened :=
  ⟨fd, fun fd' hne => by rw [h, Function.update_of_ne hne]⟩

/-- the two objects, and the open descriptors -/
structure Descriptors.At (x : Descriptors Slot) (kept candidate : Option ℤ) (opened : ℤ → Bool) :
    Prop where
  kept : x.held .kept = kept
  candidate : x.held .candidate = candidate
  opened : x.opened = opened

section
variable {x : Descriptors Slot} {kept : Option ℤ} {opened : ℤ → Bool}

theorem Descriptors.opened_destroy {Obj : Type} [DecidableEq Obj] (x : Descriptors Obj) (o : Obj) :
    (x.destroy o).opened =
      if 0 ≤ x.get o then Function.update x.opened (x.get o) false else x.opened := by
  show (x.reset o (-1)).opened = _
  unfold Descriptors.reset
  dsimp only
  split <;> rfl

namespace Descriptors.At

theorem environment {candidate : Option ℤ} (h : x.At kept candidate opened) (fd : ℤ) (b : Bool) :
    ((FdAct.environment fd b).out x).At kept candidate (Function.update opened fd b) := by
  refine ⟨h.kept, h.candidate, ?_⟩
  rw [← h.opened]
  rfl

theorem construct_candidate (h : x.At kept none opened) (fd : ℤ) :
    ((FdAct.construct .candidate fd).out x).At kept (some fd) opened := by
  refine ⟨?_, ?_, ?_⟩
  · show ((x.handIn fd).store .candidate fd).held .kept = kept
    rw [held_store, if_neg nofun, held_handIn, h.kept]
  · show ((x.handIn fd).store .candidate fd).held .candidate = some fd
    rw [held_store, if_pos rfl]
  · show (x.handIn fd).opened = opened
    rw [← h.opened, handIn]
    split <;> rfl

theorem destroy_candidate {fd : ℤ} (h : x.At kept (some fd) opened) :
    ((FdAct.destroy .candidate).out x).At kept none
      (if 0 ≤ fd then Function.update opened fd false else opened) := by
  refine ⟨?_, ?_, ?_⟩
  · exact (x.held_destroy .candidate .kept).trans ((if_neg nofun).trans h.kept)
  · exact (x.held_destroy .candidate .candidate).trans (if_pos rfl)
  · show (x.destroy .candidate).opened = _
    rw [opened_destroy, get_of_held h.candidate, h.opened]

theorem moveAssign {fd : ℤ} (h : x.At (some (-1)) (some fd) opened) :
    ((FdAct.moveAssign .kept .candidate).out x).At (some fd) (some (-1)) opened := by
  have hget : (x.store .candidate (-1)).get .kept = -1 := by
    apply get_of_held
    rw [held_store, if_neg nofun, h.kept]
  have hout : (FdAct.moveAssign .kept .candidate).out x =
      (x.store .candidate (-1)).reset .kept fd := by
    show x.moveAssign .kept .candidate = _
    rw [Descriptors.moveAssign, if_neg nofun, release, get_of_held h.candidate]
  rw [hout]
  refine ⟨?_, ?_, ?_⟩
  · rw [held_reset, if_pos rfl]
  · rw [held_reset, if_neg nofun, held_store, if_pos rfl]
  · rw [reset, hget, if_neg (by decide)]
    exact h.opened

theorem construct_kept (h : x.At none none opened) :
    ((FdAct.construct .kept (-1)).out x).At (some (-1)) none opened :=
  ⟨x.held_store .kept .kept (-1) |>.trans (if_pos rfl),
    (x.held_store .kept .candidate (-1)).trans ((if_neg nofun).trans h.candidate), h.opened⟩

theorem destroy_kept {fd : ℤ} (h : x.At (some fd) none opened) :
    ((FdAct.destroy .kept).out x).At none none
      (if 0 ≤ fd then Function.update opened fd false else opened) := by
  refine ⟨?_, ?_, ?_⟩
  · exact (x.held_destroy .kept .kept).trans (if_pos rfl)
  · exact (x.held_destroy .kept .candidate).trans ((if_neg nofun).trans h.candidate)
  · show (x.destroy .kept).opened = _
    rw [opened_destroy, get_of_held h.kept, h.opened]

/-- a descriptor that is not held may be handed in while it is open -/
theorem free {fd : ℕ} (h : x.At (some (-1)) none (Function.update opened fd true)) : x.Free fd := by
  refine fun _ => ⟨by rw [h.opened, Function.update_self], fun o ho => ?_⟩
  cases o with
  | kept =>
    rw [h.kept] at ho
    exact absurd (Option.some.inj ho) (by omega)
  | candidate =>
    rw [h.candidate] at ho
    exact nomatch ho

end Descriptors.At

/-- a socket that is closed again leaves the open descriptors as they were -/
theorem update_restored {fd : ℤ} (hfresh : opened fd = false) :
    Function.update (Function.update opened fd true) fd false = opened := by
  rw [Function.update_idem, ← hfresh, Function.update_eq_self]

/-- a round that fails closes its socket -/
theorem Trial.run_failed (h : x.At (some (-1)) none opened) {t : Trial} {e : Errno}
    (hfresh : ∀ fd : ℕ, t.socket = .ok fd → opened fd = false) (hf : t.failure = some e) :
    ∃ y, Run (FdAct.Frugal opened) FdAct.out x t.acts y ∧ y.At (some (-1)) none opened := by
  rcases t with ⟨e' | fd, error⟩
  · have h1 := h.construct_candidate (-1)
    have h2 := h1.destroy_candidate
    rw [if_neg (by decide)] at h2
    refine ⟨_, ⟨⟨⟨h.candidate, ?_⟩, .of_eq h1.opened⟩, ⟨?_, .of_eq h2.opened⟩, rfl⟩, h2⟩
    · exact fun hpos => absurd hpos (by decide)
    · show _ ≠ none
      rw [h1.candidate]
      exact nofun
  · cases hf
    have h1 := h.environment fd true
    have h2 := h1.construct_candidate fd
    have h3 := h2.destroy_candidate
    rw [if_pos (Int.natCast_nonneg fd), update_restored (hfresh fd rfl)] at h3
    refine ⟨_, ⟨⟨trivial, .of_update h1.opened⟩,
      ⟨⟨h1.candidate, h1.free⟩, .of_update h2.opened⟩, ⟨?_, .of_eq h3.opened⟩, rfl⟩, h3⟩
    show _ ≠ none
    rw [h2.candidate]
    exact nofun

/-- a round without a failure hands its socket on -/
theorem Trial.run_ok (h : x.At (some (-1)) none opened) (fd : ℕ) :
    ∃ y, Run (FdAct.Frugal opened) FdAct.out x (Trial.acts ⟨.ok fd, none⟩) y ∧
      y.At (some (fd : ℤ)) none (Function.update opened fd true) := by
  have h1 := h.environment fd true
  have h2 := h1.construct_candidate fd
  have h3 := h2.moveAssign
  have h4 := h3.destroy_candidate
  rw [if_neg (by decide)] at h4
  refine ⟨_, ⟨⟨trivial, .of_update h1.opened⟩,
    ⟨⟨h1.candidate, h1.free⟩, .of_update h2.opened⟩,
    ⟨⟨?_, ?_⟩, .of_update h3.opened⟩, ⟨?_, .of_update h4.opened⟩, rfl⟩, h4⟩
  · rw [h2.kept]
    exact nofun
  · rw [h2.candidate]
    exact nofun
  · show _ ≠ none
    rw [h3.candidate]
    exact nofun

/-- After the loop the socket that was found is open and kept, and no other was left open. -/
theorem search_run {α : Type} {trial : α → Trial} {addresses : List α} (lastError : Errno)
    (h : x.At (some (-1)) none opened)
    (hfresh : ∀ a ∈ addresses, ∀ fd : ℕ, (trial a).socket = .ok fd → opened fd = false) :
    ∃ y, Run (FdAct.Frugal opened) FdAct.out x (search trial addresses lastError).acts y ∧
      match (search trial addresses lastError).found with
      | none => y.At (some (-1)) none opened
      | some (_, fd) => y.At (some (fd : ℤ)) none (Function.update opened fd true) ∧
        opened fd = false := by
  induction addresses generalizing x lastError with
  | nil => exact ⟨x, rfl, h⟩
  | cons a rest ih =>
    obtain ⟨ha, hrest⟩ := List.forall_mem_cons.mp hfresh
    cases hf : (trial a).failure with
    | none =>
      obtain ⟨fd, ht⟩ := Trial.ok_of_failure hf
      obtain ⟨y, hrun, hy⟩ := Trial.run_ok h fd
      rw [search_ok ht, ht]
      exact ⟨y, hrun, hy, ha fd (by rw [ht])⟩
    | some e =>
      obtain ⟨y, hrun, hy⟩ := Trial.run_failed h ha hf
      obtain ⟨z, hrun', hz⟩ := ih e hy hrest
      rw [search_failed hf]
      exact ⟨z, hrun.append hrun', hz⟩

/-- the loop in a function that begins without a socket -/
theorem search_run_first {α : Type} (trial : α → Trial) {addresses : List α} (lastError : Errno)
    (hfresh : ∀ a ∈ addresses, ∀ fd : ℕ, (trial a).socket = .ok fd → opened fd = false) :
    ∃ y, Run (FdAct.Frugal opened) FdAct.out { opened := opened }
        (.construct .kept (-1) :: (search trial addresses lastError).acts) y ∧
      match (search trial addresses lastError).found with
      | none => y.At (some (-1)) none opened
      | some (_, fd) => y.At (some (fd : ℤ)) none (Function.update opened fd true) ∧
        opened fd = false := by
  have hstart : ({ opened := opened } : Descriptors Slot).At none none opened := ⟨rfl, rfl, rfl⟩
  have hkept := hstart.construct_kept
  obtain ⟨y, hrun, hy⟩ := search_run lastError hkept hfresh
  refine ⟨y, ⟨⟨⟨rfl, fun hpos => ?_⟩, .of_eq hkept.opened⟩, hrun⟩, hy⟩
  exact absurd hpos (by decide)

end

/-! ## the listener of the server -/

/-- outcomes of the calls on one address; the result of `setsockopt` is not looked at -/
structure ListenIo where
  socket : Except Errno ℕ
  getDescriptorFlags : Option Errno
  setDescriptorFlags : Option Errno
  bind : Option Errno
  listen : Option Errno

def ListenIo.trial (io : ListenIo) : Trial :=
  ⟨io.socket, io.getDescriptorFlags.or (io.setDescriptorFlags.or (io.bind.or io.listen))⟩

/-- what `open_listener` leaves in the members of the server: `error_` and `bound_port_` -/
structure Listener where
  error : Option Bytes
  boundPort : UInt16
  acts : List (FdAct Slot)

/-- `Server::open_listener`, with `listener_` as the object `kept`.  `errno` is its value before the
loop, `getsockname` the port of the family of the socket, and none for another family. -/
def openListener (strerror : Errno → Bytes) (lookup : Except Bytes (List ListenIo)) (errno : Errno)
    (getsockname : Except Errno (Option UInt16)) : Listener :=
  match lookup with
  | .error text => ⟨some text, 0, []⟩
  | .ok addresses =>
    let r := search ListenIo.trial addresses errno
    match r.found with
    | none => ⟨some (strerror r.lastError), 0, r.acts⟩
    | some _ =>
      match getsockname with
      | .error e => ⟨some (strerror e), 0, r.acts ++ [.reset .kept (-1)]⟩
      | .ok port => ⟨none, port.getD 0, r.acts⟩

section
variable {x : Descriptors Slot} {opened : ℤ → Bool}

theorem Descriptors.At.reset_kept {fd : ℕ} (h : x.At (some (fd : ℤ)) none opened) :
    ((FdAct.reset .kept (-1)).out x).At (some (-1)) none (Function.update opened fd false) := by
  have hget : x.get .kept = fd := get_of_held h.kept
  refine ⟨?_, ?_, ?_⟩
  · exact (x.held_reset .kept .kept (-1)).trans (if_pos rfl)
  · exact (x.held_reset .kept .candidate (-1)).trans ((if_neg nofun).trans h.candidate)
  · show (x.reset .kept (-1)).opened = _
    rw [reset, hget, if_pos (Int.natCast_nonneg fd), ← h.opened]
    rfl

end

/-- **The listener.**  `open_listener` without an error leaves one more descriptor open than before, the
socket of the first address for which all calls succeed, and `listener_` has it; with an error it leaves
none, and `listener_` is empty.  The error is that of `getaddrinfo`, that of the last address if a call
failed for each of them, and otherwise that of `getsockname`.  There is never more than one socket at a
time. -/
theorem listener_kept (strerror : Errno → Bytes) (lookup : Except Bytes (List ListenIo)) (errno : Errno)
    (getsockname : Except Errno (Option UInt16)) (opened : ℤ → Bool)
    (hfresh : ∀ addresses, lookup = .ok addresses →
      ∀ a ∈ addresses, ∀ fd : ℕ, a.socket = .ok fd → opened fd = false) :
    ∃ y, Run (FdAct.Frugal opened) FdAct.out { opened := opened }
        (.construct .kept (-1) :: (openListener strerror lookup errno getsockname).acts) y ∧
      y.held .candidate = none ∧
      (match (openListener strerror lookup errno getsockname).error with
        | some what => y.held .kept = some (-1) ∧ y.opened = opened ∧
            (lookup = .error what ∨ ∃ addresses e, lookup = .ok addresses ∧ what = strerror e ∧
              ((∀ a ∈ addresses, a.trial.failure ≠ none) ∧
                (addresses.map fun a => a.trial.failure).getLastD (some errno) = some e ∨
                (∃ a ∈ addresses, a.trial.failure = none) ∧ getsockname = .error e))
        | none => ∃ before a after, ∃ fd : ℕ, lookup = .ok (before ++ a :: after) ∧
            (∀ b ∈ before, b.trial.failure ≠ none) ∧ a.trial = ⟨.ok fd, none⟩ ∧
            y.held .kept = some (fd : ℤ) ∧ y.opened = Function.update opened fd true) := by
  cases lookup with
  | error text =>
    -- the loop over no addresses at all
    obtain ⟨y, hrun, hy⟩ :=
      @search_run_first opened ListenIo ListenIo.trial [] errno fun a ha => absurd ha List.not_mem_nil
    exact ⟨y, hrun, hy.candidate, hy.kept, hy.opened, .inl rfl⟩
  | ok addresses =>
    obtain ⟨y, hrun, hy⟩ := search_run_first ListenIo.trial errno (hfresh addresses rfl)
    unfold openListener
    dsimp only
    cases hfound : (search ListenIo.trial addresses errno).found with
    | none =>
      rw [hfound] at hy
      obtain ⟨hall, hlast⟩ := search_none hfound
      exact ⟨y, hrun, hy.candidate, hy.kept, hy.opened,
        .inr ⟨addresses, _, rfl, rfl, .inl ⟨hall, hlast.symm⟩⟩⟩
    | some found =>
      obtain ⟨a, fd⟩ := found
      rw [hfound] at hy
      obtain ⟨hy, hclosed⟩ := hy
      obtain ⟨before, after, rfl, hbefore, ht⟩ := search_some hfound
      cases getsockname with
      | error e =>
        have hz := hy.reset_kept
        rw [update_restored hclosed] at hz
        have hgood : ∃ b ∈ before ++ a :: after, b.trial.failure = none :=
          ⟨a, List.mem_append_right _ (List.mem_cons_self ..), by rw [ht]; rfl⟩
        refine ⟨_, hrun.append ⟨⟨⟨?_, ?_⟩, .of_eq hz.opened⟩, rfl⟩, hz.candidate, hz.kept,
          hz.opened, .inr ⟨_, e, rfl, rfl, .inr ⟨hgood, rfl⟩⟩⟩
        · rw [hy.kept]
          exact nofun
        · exact fun hpos => absurd hpos (by decide)
      | ok port => exact ⟨y, hrun, hy.candidate, before, a, after, fd, rfl, hbefore, ht, hy.kept, hy.opened⟩

/-- the port is in use at the first address -/
def twoAddresses : List ListenIo :=
  [⟨.ok 3, none, none, some (.other 98), none⟩, ⟨.ok 3, none, none, none, none⟩]

/-- the server listens at the second one -/
theorem listener_kept_second :
    (openListener (fun _ => []) (.ok twoAddresses) .eio (.ok (some 4000))).error = none ∧
    (openListener (fun _ => []) (.ok twoAddresses) .eio (.ok (some 4000))).boundPort = 4000 ∧
    ∃ y : Descriptors Slot, Run (FdAct.Frugal fun fd => decide (fd ≤ 2)) FdAct.out
        { opened := fun fd => decide (fd ≤ 2) } (.construct .kept (-1) ::
          (openListener (fun _ => []) (.ok twoAddresses) .eio (.ok (some 4000))).acts) y ∧
      y.held .kept = some 3 ∧ y.opened = Function.update (fun fd => decide (fd ≤ 2)) 3 true := by
  have hfresh : ∀ addresses, Except.ok twoAddresses = (Except.ok addresses : Except Bytes _) →
      ∀ a ∈ addresses, ∀ fd : ℕ, a.socket = .ok fd → decide ((fd : ℤ) ≤ 2) = false := by
    intro addresses h a ha fd hfd
    cases h
    rcases List.mem_cons.mp ha with rfl | ha
    · cases hfd
      rfl
    · cases List.mem_singleton.mp ha
      cases hfd
      rfl
  obtain ⟨y, hrun, -, h⟩ := listener_kept (fun _ => []) (.ok twoAddresses) .eio (.ok (some 4000))
    (fun fd => decide (fd ≤ 2)) hfresh
  have herror : (openListener (fun _ => []) (.ok twoAddresses) .eio (.ok (some 4000))).error = none := rfl
  rw [herror] at h
  obtain ⟨before, a, after, fd, hsplit, -, ht, hkept, hopened⟩ := h
  have ha : a ∈ twoAddresses := by
    rw [Except.ok.inj hsplit]
    exact List.mem_append_right _ List.mem_cons_self
  have hfd : fd = 3 := by
    rcases List.mem_cons.mp ha with rfl | ha
    · exact nomatch ht
    · cases List.mem_singleton.mp ha
      cases ht
      rfl
  subst hfd
  exact ⟨herror, rfl, y, hrun, hkept, hopened⟩

end NetForge
