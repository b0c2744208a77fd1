import SystemsCourse.Lib.Frames
import SystemsCourse.Lib.Strip
import Mathlib.Tactic.Cases

/-!
# NetForge wire protocol: command text

Model of the parsing half of `capstone/reference/src/protocol.cpp`.  `trim` strips the six
characters of `isspace`, `splitOnce` cuts at one of four separators: vertical tab and form feed
are stripped but do not separate.

`splitOnce_pad` and `splitOnce_split` describe `splitOnce` on padded text.  `Parts` says what the
parser finds when it cuts a text with `splitOnce`, `Grammar` which texts a command has; the two
agree (`parts_iff_grammar`), and the parser accepts the NUL-free texts of the grammar
(`parseCommand_ok`).
-/

namespace NetForge
open Wire Strip

inductive Command where
  | ping
  | stats
  | get (key : Bytes)
  | del (key : Bytes)
  | set (key value : Bytes)
deriving DecidableEq, Repr

structure ParseError where
  message : Bytes
deriving DecidableEq, Repr

abbrev ParseResult := Except ParseError Command

/-! ## characters -/

/-- `std::isalnum` of the C locale -/
def isAlnum (c : UInt8) : Bool :=
  (48 ≤ c && c ≤ 57) || (65 ≤ c && c ≤ 90) || (97 ≤ c && c ≤ 122)

/-- the characters `" \t\r\n"` of `find_first_of` -/
def isSeparator (c : UInt8) : Bool := c == 32 || c == 9 || c == 13 || c == 10

/-- the characters of `valid_key`: alphanumerics, `_ - . :` -/
def isKeyChar (c : UInt8) : Bool := isAlnum c || c == 95 || c == 45 || c == 46 || c == 58

theorem isSpace_of_isSeparator : ∀ c : UInt8, isSeparator c = true → isSpace c = true :=
  forall_byte (by decide +kernel)

theorem isSpace_of_isKeyChar : ∀ c : UInt8, isKeyChar c = true → isSpace c = false :=
  forall_byte (by decide +kernel)

theorem ne_zero_of_isKeyChar : ∀ c : UInt8, isKeyChar c = true → c ≠ 0 :=
  forall_byte (by decide +kernel)

/-! ## the parser -/

def trim (text : Bytes) : Bytes := (text.dropWhile isSpace).rdropWhile isSpace

def splitOnce (text : Bytes) : Bytes × Bytes :=
  let text := trim text
  match text.findIdx? isSeparator with
  | none => (text, [])
  | some position => (text.take position, trim (text.drop (position + 1)))

def validKey (key : Bytes) : Bool :=
  if key.isEmpty || key.length > 128 then false else key.all isKeyChar

def parseCommand (payload : Bytes) : ParseResult :=
  if payload.contains 0 then .error ⟨ascii "NUL bytes are not valid command text"⟩
  else
    let (verb, arguments) := splitOnce payload
    if verb = ascii "PING" ∧ arguments.isEmpty then .ok .ping
    else if verb = ascii "STATS" ∧ arguments.isEmpty then .ok .stats
    else if verb = ascii "GET" ∨ verb = ascii "DEL" then
      let (key, extra) := splitOnce arguments
      if !validKey key || !extra.isEmpty then
        .error ⟨ascii "GET/DEL requires exactly one safe key"⟩
      else if verb = ascii "GET" then .ok (.get key)
      else .ok (.del key)
    else if verb = ascii "SET" then
      let (key, value) := splitOnce arguments
      if !validKey key || value.isEmpty then
        .error ⟨ascii "SET requires a safe key and a non-empty value"⟩
      else .ok (.set key value)
    else .error ⟨ascii "unknown or malformed command"⟩

theorem trim_eq_strip (text : Bytes) : trim text = strip isSpace text := rfl

/-! ## `splitOnce` on padded text -/

/-- only characters of `isspace` -/
def Blank (t : Bytes) : Prop := ∀ x ∈ t, isSpace x = true

/-- no separator -/
def Unsplit (t : Bytes) : Prop := ∀ x ∈ t, isSeparator x = false

theorem Blank.append {s t : Bytes} (hs : Blank s) (ht : Blank t) : Blank (s ++ t) := by
  intro x hx
  rcases List.mem_append.mp hx with e | e
  · exact hs x e
  · exact ht x e

theorem blank_nil : Blank [] := fun x hx => absurd hx (by simp)

theorem splitOnce_pad (a x : Bytes) (s : UInt8) (w y b : Bytes) (ha : Blank a) (hw : Blank w)
    (hb : Blank b) (hs : isSeparator s = true) (hx : Stripped isSpace x) (hxn : x ≠ [])
    (hxu : Unsplit x) (hy : Stripped isSpace y) (hyn : y ≠ []) :
    splitOnce (a ++ (x ++ s :: w ++ y) ++ b) = (x, y) := by
  have ht : trim (a ++ (x ++ s :: w ++ y) ++ b) = x ++ s :: (w ++ y) := by
    rw [trim_eq_strip, strip_pad _ _ _ _ ha hb (stripped_append _ hx hy hxn hyn)]
    simp
  have hr : trim (w ++ y) = y := by
    have := strip_pad isSpace w y [] hw blank_nil hy
    rwa [List.append_nil] at this
  unfold splitOnce
  rw [ht]
  dsimp only
  rw [findIdx?_pad isSeparator x (w ++ y) s hxu hs]
  dsimp only
  rw [List.take_left' rfl, ← List.drop_drop, List.drop_left' rfl, List.drop_succ_cons,
    List.drop_zero, hr]

theorem splitOnce_single (a x b : Bytes) (ha : Blank a) (hb : Blank b) (hx : Stripped isSpace x)
    (hxu : Unsplit x) : splitOnce (a ++ x ++ b) = (x, []) := by
  unfold splitOnce
  rw [trim_eq_strip, strip_pad _ _ _ _ ha hb hx]
  dsimp only
  rw [List.findIdx?_eq_none_iff.mpr hxu]

/-- the two ways in which a text is split -/
theorem splitOnce_cases (t : Bytes) :
    ((splitOnce t).2 = [] ∧ (splitOnce t).1 = trim t ∧ Unsplit (trim t)) ∨
      ∃ s rest, trim t = (splitOnce t).1 ++ s :: rest ∧ isSeparator s = true ∧
        Unsplit (splitOnce t).1 ∧ (splitOnce t).2 = trim rest := by
  unfold splitOnce
  dsimp only
  cases h : (trim t).findIdx? isSeparator with
  | none => exact Or.inl ⟨rfl, rfl, List.findIdx?_eq_none_iff.mp h⟩
  | some i =>
    obtain ⟨a, s, b, e, hl, ha, hs⟩ := findIdx?_split isSeparator h
    refine Or.inr ⟨s, b, ?_, hs, ?_, ?_⟩
    · dsimp only
      rw [e, List.take_left' hl]
    · dsimp only
      rw [e, List.take_left' hl]
      exact ha
    · dsimp only
      rw [e, ← List.drop_drop, List.drop_left' hl]
      rfl

/-- nothing is left after the first word only if there is a single word -/
theorem splitOnce_nil {t x : Bytes} (h : splitOnce t = (x, [])) :
    trim t = x ∧ Unsplit x := by
  rcases splitOnce_cases t with ⟨_, h1, h2⟩ | ⟨s, rest, h1, h2, h3, h4⟩
  · rw [h] at h1
    exact ⟨h1.symm, by rw [show x = trim t from h1]; exact h2⟩
  · -- the last character of a trimmed text is not a space, so `rest` cannot be blank
    exfalso
    rw [h] at h1 h4
    dsimp only at h1 h4
    have hlast := (strip_stripped isSpace t).2
    rw [← trim_eq_strip, h1] at hlast
    obtain ⟨c, d, e, hc, hd⟩ := strip_split isSpace rest
    rw [← trim_eq_strip, ← h4, List.append_nil] at e
    have hblank : Blank (s :: rest) := by
      intro z hz
      rcases List.mem_cons.mp hz with rfl | hz
      · exact isSpace_of_isSeparator z h2
      · rw [e] at hz
        exact Blank.append hc hd z hz
    have hne : s :: rest ≠ [] := by simp
    rw [List.getLast?_append_of_ne_nil _ hne, List.getLast?_eq_some_getLast hne] at hlast
    have := hlast _ rfl
    rw [hblank _ (List.getLast_mem hne)] at this
    cases this

/-- something is left after the first word: the padding around the two parts -/
theorem splitOnce_split {t x y : Bytes} (h : splitOnce t = (x, y)) (hy : y ≠ []) :
    ∃ a s w b, t = a ++ (x ++ s :: w ++ y) ++ b ∧ Blank a ∧ Blank w ∧ Blank b ∧
      isSeparator s = true ∧ Unsplit x ∧ Stripped isSpace y := by
  rcases splitOnce_cases t with ⟨h1, _, _⟩ | ⟨s, rest, h1, h2, h3, h4⟩
  · rw [h] at h1
    exact absurd h1 hy
  · rw [h] at h1 h3 h4
    dsimp only at h1 h3 h4
    obtain ⟨a, b, e, ha, hb⟩ := strip_split isSpace t
    obtain ⟨w, b', e', hw, hb'⟩ := strip_split isSpace rest
    rw [← trim_eq_strip] at e e'
    refine ⟨a, s, w, b' ++ b, ?_, ha, hw, Blank.append hb' hb, h2, h3, ?_⟩
    · rw [h1, e', ← h4] at e
      rw [e]
      simp
    · rw [h4]
      exact strip_stripped isSpace rest

/-! ## the parts of a command -/

/-- what `splitOnce` gives on a text of the command -/
def Parts (p : Bytes) : Command → Prop
  | .ping => splitOnce p = (ascii "PING", [])
  | .stats => splitOnce p = (ascii "STATS", [])
  | .get k => (splitOnce p).1 = ascii "GET" ∧ splitOnce (splitOnce p).2 = (k, []) ∧
      validKey k = true
  | .del k => (splitOnce p).1 = ascii "DEL" ∧ splitOnce (splitOnce p).2 = (k, []) ∧
      validKey k = true
  | .set k v => (splitOnce p).1 = ascii "SET" ∧ splitOnce (splitOnce p).2 = (k, v) ∧
      validKey k = true ∧ v ≠ []

/-- what the parser checked before it returned a command -/
theorem parseCommand_inv {p : Bytes} {c : Command} (h : parseCommand p = .ok c) :
    0 ∉ p ∧ Parts p c := by
  unfold parseCommand at h
  dsimp only at h
  split at h
  · cases h
  rename_i h0
  refine ⟨by simpa using h0, ?_⟩
  split at h
  · rename_i hc
    cases h
    exact Prod.ext hc.1 (List.isEmpty_iff.mp hc.2)
  split at h
  · rename_i hc
    cases h
    exact Prod.ext hc.1 (List.isEmpty_iff.mp hc.2)
  split at h
  · rename_i hverb
    split at h
    · cases h
    rename_i hc
    simp only [Bool.or_eq_true, Bool.not_eq_true', not_or, Bool.not_eq_false] at hc
    have hargs : splitOnce (splitOnce p).2 = ((splitOnce (splitOnce p).2).1, []) :=
      Prod.ext rfl (List.isEmpty_iff.mp hc.2)
    split at h
    · rename_i hget
      cases h
      exact ⟨hget, hargs, hc.1⟩
    · rename_i hget
      cases h
      exact ⟨hverb.resolve_left hget, hargs, hc.1⟩
  split at h
  · rename_i hverb
    split at h
    · cases h
    · rename_i hc
      cases h
      simp only [Bool.or_eq_true, Bool.not_eq_true', List.isEmpty_iff, not_or,
        Bool.not_eq_false] at hc
      exact ⟨hverb, rfl, hc.1, hc.2⟩
  · cases h

theorem parseCommand_of {p : Bytes} {c : Command} (h0 : 0 ∉ p) (h : Parts p c) :
    parseCommand p = .ok c := by
  have h0' : p.contains 0 = false := by simpa using h0
  unfold parseCommand
  rw [h0']
  generalize hp : splitOnce p = r at h
  obtain ⟨verb, a⟩ := r
  cases c with
  | ping =>
    unfold Parts at h
    obtain ⟨rfl, rfl⟩ := Prod.mk.inj (hp.symm.trans h)
    simp
  | stats =>
    unfold Parts at h
    obtain ⟨rfl, rfl⟩ := Prod.mk.inj (hp.symm.trans h)
    simp [ascii]
  | get k =>
    unfold Parts at h
    rw [hp] at h
    obtain ⟨rfl, hk, hv⟩ := h
    dsimp only at hk ⊢
    rw [hk]
    simp [hv, ascii]
  | del k =>
    unfold Parts at h
    rw [hp] at h
    obtain ⟨rfl, hk, hv⟩ := h
    dsimp only at hk ⊢
    rw [hk]
    simp [hv, ascii]
  | set k v =>
    unfold Parts at h
    rw [hp] at h
    obtain ⟨rfl, hk, hv, hn⟩ := h
    dsimp only at hk ⊢
    rw [hk]
    have hne : v.isEmpty = false := by simpa using hn
    simp [hv, hne, ascii]

/-- the cuts determine the command -/
theorem Parts.unique {p : Bytes} {c c' : Command} (h : Parts p c) (h' : Parts p c') : c = c' := by
  cases c <;> cases c' <;> simp_all [Parts, ascii]

/-! ## the grammar -/

/-- `p` is `W* verb W*`, with `W` the `isspace` characters -/
def WordText (verb p : Bytes) : Prop := ∃ a b, p = a ++ verb ++ b ∧ Blank a ∧ Blank b

/-- `p` is `W* verb S W* k W*`, with `W` the `isspace` characters and `S` the separators -/
def KeyText (verb p k : Bytes) : Prop :=
  ∃ a s w b, p = a ++ (verb ++ s :: w ++ k) ++ b ∧ Blank a ∧ Blank w ∧ Blank b ∧
    isSeparator s = true

/-- `p` is `W* "SET" S W* k S W* v W*` -/
def SetText (p k v : Bytes) : Prop :=
  ∃ a s w s' w' b, p = a ++ (ascii "SET" ++ s :: w ++ (k ++ s' :: w' ++ v)) ++ b ∧ Blank a ∧
    Blank w ∧ Blank w' ∧ Blank b ∧ isSeparator s = true ∧ isSeparator s' = true

/-- the texts of a command -/
def Grammar (p : Bytes) : Command → Prop
  | .ping => WordText (ascii "PING") p
  | .stats => WordText (ascii "STATS") p
  | .get k => validKey k = true ∧ KeyText (ascii "GET") p k
  | .del k => validKey k = true ∧ KeyText (ascii "DEL") p k
  | .set k v => validKey k = true ∧ v ≠ [] ∧ Stripped isSpace v ∧ SetText p k v

theorem validKey_chars {k : Bytes} (h : validKey k = true) :
    k ≠ [] ∧ k.length ≤ 128 ∧ ∀ c ∈ k, isKeyChar c = true := by
  unfold validKey at h
  split at h
  · cases h
  · rename_i hc
    simp only [Bool.or_eq_true, List.isEmpty_iff, decide_eq_true_eq, not_or, not_lt] at hc
    exact ⟨hc.1, hc.2, List.all_eq_true.mp h⟩

/-- a text without spaces is stripped and cannot be split -/
theorem word_stripped {x : Bytes} (h : ∀ c ∈ x, isSpace c = false) :
    Stripped isSpace x ∧ Unsplit x := by
  refine ⟨stripped_of_all isSpace h, fun c hc => ?_⟩
  by_contra hs
  have := isSpace_of_isSeparator c (by simpa using hs)
  rw [h c hc] at this
  cases this

theorem verb_stripped {verb : Bytes} (h : verb.any isSpace = false) :
    Stripped isSpace verb ∧ Unsplit verb :=
  word_stripped fun c hc => Bool.eq_false_iff.mpr (List.any_eq_false.mp h c hc)

theorem validKey_word {k : Bytes} (h : validKey k = true) : Stripped isSpace k ∧ Unsplit k :=
  word_stripped (fun c hc => isSpace_of_isKeyChar c ((validKey_chars h).2.2 c hc))

theorem wordText_iff {verb : Bytes} (hverb : verb.any isSpace = false) (p : Bytes) :
    splitOnce p = (verb, []) ↔ WordText verb p := by
  constructor
  · intro h
    obtain ⟨a, b, e, ha, hb⟩ := strip_split isSpace p
    rw [← trim_eq_strip, (splitOnce_nil h).1] at e
    exact ⟨a, b, e, ha, hb⟩
  · rintro ⟨a, b, rfl, ha, hb⟩
    exact splitOnce_single a verb b ha hb (verb_stripped hverb).1 (verb_stripped hverb).2

theorem keyText_iff {verb : Bytes} (hverb : verb.any isSpace = false) (hn : verb ≠ [])
    (p : Bytes) {k : Bytes} (hv : validKey k = true) :
    ((splitOnce p).1 = verb ∧ splitOnce (splitOnce p).2 = (k, [])) ↔ KeyText verb p k := by
  have hkn := (validKey_chars hv).1
  constructor
  · rintro ⟨h1, hargs⟩
    obtain ⟨hk, _⟩ := splitOnce_nil hargs
    have hne : (splitOnce p).2 ≠ [] := by
      intro hnil
      rw [hnil] at hk
      exact hkn hk.symm
    obtain ⟨a, s, w, b, e, ha, hw, hb, hs, _, hst⟩ :=
      splitOnce_split (show splitOnce p = (verb, (splitOnce p).2) from Prod.ext h1 rfl) hne
    rw [trim_eq_strip, strip_eq_self _ hst] at hk
    rw [hk] at e
    exact ⟨a, s, w, b, e, ha, hw, hb, hs⟩
  · rintro ⟨a, s, w, b, rfl, ha, hw, hb, hs⟩
    obtain ⟨hks, hku⟩ := validKey_word hv
    have hword := verb_stripped hverb
    rw [splitOnce_pad a verb s w k b ha hw hb hs hword.1 hn hword.2 hks hkn]
    have h2 := splitOnce_single [] k [] blank_nil blank_nil hks hku
    rw [List.nil_append, List.append_nil] at h2
    exact ⟨rfl, h2⟩

theorem setText_iff (p : Bytes) {k v : Bytes} (hv : validKey k = true) (hn : v ≠ []) :
    ((splitOnce p).1 = ascii "SET" ∧ splitOnce (splitOnce p).2 = (k, v)) ↔
      Stripped isSpace v ∧ SetText p k v := by
  constructor
  · rintro ⟨hverb, hargs⟩
    obtain ⟨c, s', w', d, e', hc, hw', hd, hs', _, hvs⟩ := splitOnce_split hargs hn
    have hne : (splitOnce p).2 ≠ [] := by
      intro hnil
      rw [hnil] at e'
      simp at e'
    obtain ⟨a, s, w, b, e, ha, hw, hb, hs, _, _⟩ :=
      splitOnce_split (show splitOnce p = (ascii "SET", (splitOnce p).2) from
        Prod.ext hverb rfl) hne
    refine ⟨hvs, a, s, w ++ c, s', w', d ++ b, ?_, ha, hw.append hc, hw', hd.append hb, hs, hs'⟩
    rw [e'] at e
    rw [e]
    simp
  · rintro ⟨hvs, a, s, w, s', w', b, rfl, ha, hw, hw', hb, hs, hs'⟩
    have hkn := (validKey_chars hv).1
    have hk2 : Stripped isSpace (k ++ s' :: w' ++ v) :=
      stripped_append _ (validKey_word hv).1 hvs hkn hn
    obtain ⟨hks, hku⟩ := validKey_word hv
    have hset := verb_stripped (show (ascii "SET").any isSpace = false by decide)
    rw [splitOnce_pad a (ascii "SET") s w (k ++ s' :: w' ++ v) b ha hw hb hs hset.1
      (by decide) hset.2 hk2 (by simp)]
    have h2 := splitOnce_pad [] k s' w' v [] blank_nil hw' blank_nil hs' hks hkn hku hvs hn
    rw [List.nil_append, List.append_nil] at h2
    exact ⟨rfl, h2⟩

theorem parts_iff_grammar (p : Bytes) (c : Command) : Parts p c ↔ Grammar p c := by
  cases c with
  | ping => exact wordText_iff (by decide) p
  | stats => exact wordText_iff (by decide) p
  | get k =>
    simp only [Parts, Grammar]
    rw [← and_assoc, and_comm]
    exact and_congr_right fun hv => keyText_iff (by decide) (by decide) p hv
  | del k =>
    simp only [Parts, Grammar]
    rw [← and_assoc, and_comm]
    exact and_congr_right fun hv => keyText_iff (by decide) (by decide) p hv
  | set k v =>
    simp only [Parts, Grammar]
    rw [← and_assoc, and_comm, and_assoc]
    exact and_congr_right fun hv => and_congr_right fun hn => setText_iff p hv hn

/-- **the parser accepts the NUL-free texts of its grammar** -/
theorem parseCommand_ok (p : Bytes) (c : Command) :
    parseCommand p = .ok c ↔ 0 ∉ p ∧ Grammar p c := by
  rw [← parts_iff_grammar]
  exact ⟨parseCommand_inv, fun h => parseCommand_of h.1 h.2⟩

theorem parseCommand_set (p k v : Bytes) :
    parseCommand p = .ok (.set k v) ↔
      0 ∉ p ∧ validKey k = true ∧ v ≠ [] ∧ Stripped isSpace v ∧ SetText p k v :=
  parseCommand_ok p (.set k v)

theorem parseCommand_del (p k : Bytes) :
    parseCommand p = .ok (.del k) ↔ 0 ∉ p ∧ validKey k = true ∧ KeyText (ascii "DEL") p k :=
  parseCommand_ok p (.del k)

/-- **`parse_command` accepts its grammar**: a command is returned on the NUL-free texts of that
command, a text belongs to at most one command, and every other text is an error. -/
theorem command_grammar (p : Bytes) :
    (∀ c, parseCommand p = .ok c ↔ 0 ∉ p ∧ Grammar p c) ∧
      (∀ c c', Grammar p c → Grammar p c' → c = c') ∧
      ((∃ e, parseCommand p = .error e) ↔ ¬ ∃ c, 0 ∉ p ∧ Grammar p c) := by
  refine ⟨parseCommand_ok p, fun c c' h h' => ?_, ?_⟩
  · exact Parts.unique ((parts_iff_grammar p c).mpr h) ((parts_iff_grammar p c').mpr h')
  · simp only [← parseCommand_ok]
    cases hp : parseCommand p with
    | error e => simp
    | ok c => simp

end NetForge
