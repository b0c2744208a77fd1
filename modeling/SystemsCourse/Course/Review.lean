import Mathlib.Algebra.Ring.Int.Defs
import Mathlib.Data.List.Basic
import Mathlib.Data.List.Induction
import Mathlib.Data.List.Nodup
import Mathlib.Logic.Function.Basic

/-!
# The spaced review of the course

Model of `recordQuizResult` and of the scoring of the diagnostic in `assets/course.js`: what they do to
`state.reviews`.  Times are in milliseconds.

* `Earned`                 since its last start a review has had the retrievals of its stage;
* `scoreDiagnostic_cases`  what a diagnostic does to the review of a lesson;
* `run_inv`                the invariant of a review, along any list of events;
* `review_earned`          a mastered review had its three retrievals.
-/

set_option linter.unusedVariables false

namespace Course

/-! ## the tables -/

/-- `day-01` to `day-14` -/
def lessonIds : List String :=
  (List.range 14).map fun index => "day-" ++ (if index + 1 < 10 then "0" else "") ++ toString (index + 1)

/-- the lesson that reviews a domain -/
def diagnosticReviewDay : String → Option String
  | "networking" => some "day-01"
  | "resources" => some "day-02"
  | "modern-cpp" => some "day-03"
  | "concurrency" => some "day-04"
  | "storage" => some "day-11"
  | _ => none

def reviewIntervals : List ℤ := [1, 3, 7]

def dayMilliseconds : ℤ := 24 * 60 * 60 * 1000

/-- the time until the next review at a stage -/
def interval (stage : ℕ) : ℤ := reviewIntervals.getD stage 0 * dayMilliseconds

/-! ## reviews -/

inductive Reason where
  | quizMiss
  | diagnosticMiss
  | initialRetrieval
  | scheduledRetrieval
deriving DecidableEq

structure Review where
  stage : ℕ
  due : ℤ
  misses : ℕ
  reason : Reason
  mastered : Bool := false
deriving DecidableEq

/-- `state.reviews` -/
abbrev Reviews := String → Option Review

def Reviews.set (reviews : Reviews) (id : String) (review : Review) : Reviews :=
  Function.update reviews id (some review)

/-- the feedback, and the reviews after it -/
def recordQuizResult (reviews : Reviews) (id : String) (correct : Bool) (now : ℤ) : String × Reviews :=
  if id ∉ lessonIds then ("", reviews)
  else if correct = false then
    (" This concept is now due in the spaced review queue.",
      reviews.set id
        { stage := ((reviews id).map Review.stage).getD 0, due := now,
          misses := ((reviews id).map Review.misses).getD 0 + 1, reason := .quizMiss })
  else
    match reviews id with
    | none =>
      (" Spaced review is scheduled in 1 day.",
        reviews.set id { stage := 0, due := now + interval 0, misses := 0, reason := .initialRetrieval })
    | some current =>
      if current.reason = .quizMiss ∨ current.reason = .diagnosticMiss then
        (" The miss is cleared; retrieve it again in 1 day.",
          reviews.set id { current with stage := 0, due := now + interval 0, reason := .scheduledRetrieval })
      else if now < current.due then (" The existing spaced-review date is unchanged.", reviews)
      else if reviewIntervals.length - 1 ≤ current.stage then
        (" The 1/3/7-day cycle is complete; keep using it in mocks.",
          reviews.set id { current with mastered := true, due := 0 })
      else
        let nextStage := current.stage + 1
        (" Next review is scheduled in " ++ toString (reviewIntervals.getD nextStage 0) ++ " days.",
          reviews.set id { current with stage := nextStage, due := now + interval nextStage,
                                        reason := .scheduledRetrieval })

/-! ## the diagnostic -/

structure Question where
  /-- `data-diagnostic-domain`, empty if there is none -/
  domain : String
  answer : String
  selected : Option String

def Question.domainName (q : Question) : String := if q.domain = "" then "general" else q.domain

structure Score where
  correct : ℕ
  total : ℕ

/-- the entry of a domain after one more question -/
def bump (domain : String) (right : Bool) : List (String × Score) → List (String × Score)
  | [] => [(domain, ⟨right.toNat, 1⟩)]
  | (d, s) :: domains =>
    if d = domain then (d, ⟨s.correct + right.toNat, s.total + 1⟩) :: domains
    else (d, s) :: bump domain right domains

/-- the scores of the questions that have an answer -/
def tally (domains : List (String × Score)) (q : Question) : List (String × Score) :=
  match q.selected with
  | none => domains
  | some value => bump q.domainName (value == q.answer) domains

/-- the first loop over the domains, for a domain that was missed -/
def enqueue (now : ℤ) (reviews : Reviews) (domain : String) : Reviews :=
  match diagnosticReviewDay domain with
  | none => reviews
  | some reviewDay =>
    if (reviews reviewDay).isSome then reviews
    else reviews.set reviewDay { stage := 0, due := now, misses := 1, reason := .diagnosticMiss }

/-- the second loop -/
def clear (now : ℤ) (reviews : Reviews) (entry : String × Score) : Reviews :=
  match diagnosticReviewDay entry.1 with
  | none => reviews
  | some reviewDay =>
    match reviews reviewDay with
    | none => reviews
    | some review =>
      if entry.2.correct = entry.2.total ∧ review.reason = .diagnosticMiss then
        reviews.set reviewDay
          { review with stage := 0, due := now + dayMilliseconds, reason := .scheduledRetrieval }
      else reviews

/-- nothing is scored before all questions have an answer -/
def scoreDiagnostic (reviews : Reviews) (questions : List Question) (now : ℤ) : Reviews :=
  if (questions.filter fun q => q.selected.isSome).length ≠ questions.length then reviews
  else
    let domains := questions.foldl tally []
    let missedDomains := (domains.filter fun entry => entry.2.correct < entry.2.total).map Prod.fst
    domains.foldl (clear now) (missedDomains.foldl (enqueue now) reviews)

/-! ## runs -/

inductive Event where
  | quiz (id : String) (correct : Bool) (now : ℤ)
  | diagnostic (questions : List Question) (now : ℤ)

def Event.now : Event → ℤ
  | .quiz _ _ now => now
  | .diagnostic _ now => now

def Event.out (reviews : Reviews) : Event → Reviews
  | .quiz id correct now => (recordQuizResult reviews id correct now).2
  | .diagnostic questions now => scoreDiagnostic reviews questions now

def run (events : List Event) : Reviews := events.foldl Event.out fun _ => none

theorem run_concat (events : List Event) (e : Event) : run (events ++ [e]) = e.out (run events) := by
  unfold run
  rw [List.foldl_append]
  rfl

/-! ## histories -/

/-- a diagnostic asked questions of the domain that the lesson reviews, and all of them were answered right -/
def NoMiss (questions : List Question) (id : String) : Prop :=
  ∃ domain, diagnosticReviewDay domain = some id ∧ (∃ q ∈ questions, q.domainName = domain) ∧
    ∀ q ∈ questions, q.domainName = domain → q.selected = some q.answer

/-- the events with which the reviews of a lesson can begin -/
def Event.Starts (id : String) : Event → Prop
  | .quiz id' correct _ => id' = id ∧ correct = true
  | .diagnostic questions _ => NoMiss questions id

/-- `Retrieved id t₀ k t after`: the events contain `k` correct answers, the first one at least the first
interval after `t₀` and so on; `t` is the time of the last one. -/
inductive Retrieved (id : String) (t₀ : ℤ) : ℕ → ℤ → List Event → Prop
  | start : Retrieved id t₀ 0 t₀ []
  | retrieve {k : ℕ} {s t : ℤ} {after : List Event} : Retrieved id t₀ k s after → s + interval k ≤ t →
      Retrieved id t₀ (k + 1) t (after ++ [.quiz id true t])
  | other {k : ℕ} {s : ℤ} {after : List Event} (e : Event) : Retrieved id t₀ k s after →
      Retrieved id t₀ k s (after ++ [e])

/-- Since its last start, without a wrong answer, a review has had as many retrievals as its stage, or all
three; its next date is counted from the last one. -/
def Earned (id : String) (events : List Event) (r : Review) : Prop :=
  ∃ before e after k t, events = before ++ e :: after ∧ e.Starts id ∧
    (∀ now, Event.quiz id false now ∉ after) ∧ Retrieved id e.now k t after ∧
    if r.mastered then k = 3 else k = r.stage ∧ r.due = t + interval k

structure Inv (id : String) (events : List Event) (r : Review) : Prop where
  lesson : id ∈ lessonIds
  stage : r.stage ≤ 2
  missed : r.reason = .quizMiss ∨ r.reason = .diagnosticMiss → r.mastered = false
  complete : r.mastered = true → r.stage = 2
  earned : ¬ (r.reason = .quizMiss ∨ r.reason = .diagnosticMiss) → Earned id events r

section
variable {id : String} {events : List Event} {r : Review}

/-- no wrong answer is added by another event -/
theorem no_wrong_concat {after : List Event} (h : ∀ now, Event.quiz id false now ∉ after) {e : Event}
    (he : ∀ now, e ≠ .quiz id false now) : ∀ now, Event.quiz id false now ∉ after ++ [e] := by
  intro now hmem
  rcases List.mem_append.mp hmem with hmem | hmem
  · exact h now hmem
  · exact he now (List.mem_singleton.mp hmem).symm

theorem Earned.start {e : Event} (he : e.Starts id) (hstage : r.stage = 0) (hmastered : r.mastered = false)
    (hdue : r.due = e.now + interval 0) : Earned id (events ++ [e]) r := by
  refine ⟨events, e, [], 0, e.now, rfl, he, fun _ => List.not_mem_nil, .start, ?_⟩
  rw [hmastered, if_neg Bool.false_ne_true]
  exact ⟨hstage.symm, hdue⟩

/-- an event that is no wrong answer does not take anything away -/
theorem Earned.extend (h : Earned id events r) {e : Event} (he : ∀ now, e ≠ .quiz id false now) :
    Earned id (events ++ [e]) r := by
  obtain ⟨before, e₀, after, k, t, rfl, hstarts, hright, hretrieved, hr⟩ := h
  refine ⟨before, e₀, after ++ [e], k, t, ?_, hstarts, no_wrong_concat hright he, hretrieved.other e, hr⟩
  rw [List.append_assoc, List.cons_append]

/-- a correct answer at a date is one more retrieval -/
theorem Earned.retrieve (h : Earned id events r) (hmastered : r.mastered = false) {now : ℤ}
    (hdue : r.due ≤ now) {r' : Review}
    (hr' : if r'.mastered then r.stage + 1 = 3
      else r'.stage = r.stage + 1 ∧ r'.due = now + interval (r.stage + 1)) :
    Earned id (events ++ [.quiz id true now]) r' := by
  obtain ⟨before, e₀, after, k, t, rfl, hstarts, hright, hretrieved, hr⟩ := h
  rw [hmastered, if_neg Bool.false_ne_true] at hr
  obtain ⟨rfl, hdate⟩ := hr
  refine ⟨before, e₀, after ++ [.quiz id true now], r.stage + 1, now, ?_, hstarts,
    no_wrong_concat hright fun _ => nofun, hretrieved.retrieve (hdate ▸ hdue), ?_⟩
  · rw [List.append_assoc, List.cons_append]
  · split_ifs at hr' ⊢
    · exact hr'
    · exact ⟨hr'.1.symm, hr'.2⟩

theorem Earned.mastered (h : Earned id events r) (hr : r.mastered = true) {r' : Review}
    (hr' : r'.mastered = true) : Earned id events r' := by
  obtain ⟨before, e₀, after, k, t, hevents, hstarts, hright, hretrieved, hk⟩ := h
  refine ⟨before, e₀, after, k, t, hevents, hstarts, hright, hretrieved, ?_⟩
  rw [if_pos hr']
  rwa [if_pos hr] at hk

theorem Inv.extend (h : Inv id events r) {e : Event} (he : ∀ now, e ≠ .quiz id false now) :
    Inv id (events ++ [e]) r :=
  ⟨h.lesson, h.stage, h.missed, h.complete, fun hmiss => (h.earned hmiss).extend he⟩

/-- a review that starts, with a correct answer or with a diagnostic -/
theorem Inv.start {e : Event} (hlesson : id ∈ lessonIds) (he : e.Starts id) (hstage : r.stage = 0)
    (hmastered : r.mastered = false) (hdue : r.due = e.now + interval 0) : Inv id (events ++ [e]) r := by
  refine ⟨hlesson, by rw [hstage]; exact Nat.zero_le 2, fun _ => hmastered, ?_,
    fun _ => .start he hstage hmastered hdue⟩
  intro h
  rw [hmastered] at h
  cases h

/-- a correct answer at the last date completes the cycle, or comes after it -/
theorem Inv.last_date (h : Inv id events r) (hmiss : ¬ (r.reason = .quizMiss ∨ r.reason = .diagnosticMiss))
    {now : ℤ} (hdue : r.due ≤ now) (hstage : r.stage = 2) :
    Inv id (events ++ [.quiz id true now]) { r with mastered := true, due := 0 } := by
  refine ⟨h.lesson, h.stage, fun hm => absurd hm hmiss, fun _ => hstage, fun _ => ?_⟩
  cases hmastered : r.mastered with
  | true => exact ((h.earned hmiss).mastered hmastered rfl).extend fun _ => nofun
  | false =>
    refine (h.earned hmiss).retrieve hmastered hdue ?_
    exact congrArg (· + 1) hstage

theorem Inv.next_date (h : Inv id events r) (hmiss : ¬ (r.reason = .quizMiss ∨ r.reason = .diagnosticMiss))
    {now : ℤ} (hdue : r.due ≤ now) (hstage : r.stage < 2) :
    Inv id (events ++ [.quiz id true now])
      { r with stage := r.stage + 1, due := now + interval (r.stage + 1),
               reason := .scheduledRetrieval } := by
  have hmastered : r.mastered ≠ true := fun hm => absurd (h.complete hm) (Nat.ne_of_lt hstage)
  refine ⟨h.lesson, hstage, nofun, fun hm => absurd hm hmastered, fun _ => ?_⟩
  refine (h.earned hmiss).retrieve (Bool.eq_false_iff.mpr hmastered) hdue ?_
  rw [if_neg hmastered]
  exact ⟨rfl, rfl⟩

end

/-! ## quiz results -/

theorem Reviews.set_self (reviews : Reviews) (id : String) (review : Review) :
    reviews.set id review id = some review :=
  Function.update_self ..

theorem Reviews.set_of_ne (reviews : Reviews) {id id' : String} (h : id' ≠ id) (review : Review) :
    reviews.set id review id' = reviews id' :=
  Function.update_of_ne h ..

/-- a quiz result is about its own lesson only -/
theorem recordQuizResult_of_ne (reviews : Reviews) {id id' : String} (h : id' ≠ id) (correct : Bool)
    (now : ℤ) : (recordQuizResult reviews id correct now).2 id' = reviews id' := by
  unfold recordQuizResult
  split
  · rfl
  · split
    · exact reviews.set_of_ne h _
    · split
      · exact reviews.set_of_ne h _
      · split_ifs
        · exact reviews.set_of_ne h _
        · rfl
        · exact reviews.set_of_ne h _
        · exact reviews.set_of_ne h _

section
variable {id : String} {events : List Event} {reviews : Reviews}

/-- a wrong answer keeps the stage and takes the mastery away -/
theorem Inv.wrong (h : ∀ r, reviews id = some r → Inv id events r) (hlesson : id ∈ lessonIds) (now : ℤ)
    {r : Review} (hr : (recordQuizResult reviews id false now).2 id = some r) :
    Inv id (events ++ [.quiz id false now]) r := by
  have hstage : ((reviews id).map Review.stage).getD 0 ≤ 2 := by
    cases hold : reviews id with
    | none => exact Nat.zero_le 2
    | some current => exact (h current hold).stage
  unfold recordQuizResult at hr
  rw [if_neg (not_not.mpr hlesson), if_pos rfl] at hr
  cases (reviews.set_self id _).symm.trans hr
  exact ⟨hlesson, hstage, fun _ => rfl, nofun, fun hmiss => absurd (Or.inl rfl) hmiss⟩

/-- a correct answer starts the review, is early, or is a retrieval -/
theorem Inv.right (h : ∀ r, reviews id = some r → Inv id events r) (hlesson : id ∈ lessonIds) (now : ℤ)
    {r : Review} (hr : (recordQuizResult reviews id true now).2 id = some r) :
    Inv id (events ++ [.quiz id true now]) r := by
  unfold recordQuizResult at hr
  rw [if_neg (not_not.mpr hlesson), if_neg Bool.noConfusion] at hr
  cases hold : reviews id with
  | none =>
    rw [hold] at hr
    cases (reviews.set_self id _).symm.trans hr
    exact .start hlesson ⟨rfl, rfl⟩ rfl rfl rfl
  | some current =>
    have hinv := h current hold
    rw [hold] at hr
    dsimp only at hr
    split_ifs at hr with hmiss hearly hlast
    · cases (reviews.set_self id _).symm.trans hr
      exact .start hlesson ⟨rfl, rfl⟩ rfl (hinv.missed hmiss) rfl
    · cases hold.symm.trans hr
      exact hinv.extend fun _ => nofun
    · cases (reviews.set_self id _).symm.trans hr
      exact hinv.last_date hmiss (Int.not_lt.mp hearly) (Nat.le_antisymm hinv.stage hlast)
    · cases (reviews.set_self id _).symm.trans hr
      exact hinv.next_date hmiss (Int.not_lt.mp hearly) (Nat.not_le.mp hlast)

end

/-! ## the diagnostic -/

theorem keys_bump (domain : String) (right : Bool) (domains : List (String × Score)) :
    (bump domain right domains).map Prod.fst
      = if domain ∈ domains.map Prod.fst then domains.map Prod.fst
        else domains.map Prod.fst ++ [domain] := by
  induction domains with
  | nil => rfl
  | cons entry domains ih =>
    obtain ⟨d, s⟩ := entry
    unfold bump
    by_cases hd : d = domain
    · rw [if_pos hd, List.map_cons, List.map_cons, if_pos]
      rw [hd]
      exact List.mem_cons_self
    · rw [if_neg hd, List.map_cons, ih, List.map_cons]
      by_cases hmem : domain ∈ domains.map Prod.fst
      · rw [if_pos hmem, if_pos (List.mem_cons_of_mem _ hmem)]
      · rw [if_neg hmem, if_neg, List.cons_append]
        rw [List.mem_cons, not_or]
        exact ⟨Ne.symm hd, hmem⟩

/-- the entries after one more question -/
theorem mem_bump {domain : String} {right : Bool} {domains : List (String × Score)} {d : String}
    {s : Score} (hnodup : (domains.map Prod.fst).Nodup) (h : (d, s) ∈ bump domain right domains) :
    d ≠ domain ∧ (d, s) ∈ domains ∨
      d = domain ∧ ((domain ∉ domains.map Prod.fst ∧ s = ⟨right.toNat, 1⟩) ∨
        ∃ old, (domain, old) ∈ domains ∧ s = ⟨old.correct + right.toNat, old.total + 1⟩) := by
  induction domains with
  | nil =>
    cases List.mem_singleton.mp h
    exact Or.inr ⟨rfl, Or.inl ⟨List.not_mem_nil, rfl⟩⟩
  | cons entry domains ih =>
    obtain ⟨d', s'⟩ := entry
    rw [List.map_cons, List.nodup_cons] at hnodup
    unfold bump at h
    by_cases hd : d' = domain
    · subst hd
      rw [if_pos rfl] at h
      rcases List.mem_cons.mp h with he | hmem
      · cases he
        exact Or.inr ⟨rfl, Or.inr ⟨s', List.mem_cons_self, rfl⟩⟩
      · refine Or.inl ⟨?_, List.mem_cons_of_mem _ hmem⟩
        rintro rfl
        exact hnodup.1 (List.mem_map.mpr ⟨_, hmem, rfl⟩)
    · rw [if_neg hd] at h
      rcases List.mem_cons.mp h with h | h
      · cases h
        exact Or.inl ⟨hd, List.mem_cons_self⟩
      · rcases ih hnodup.2 h with ⟨hne, hmem⟩ | ⟨he, ⟨hnew, hs⟩ | ⟨old, hold, hs⟩⟩
        · exact Or.inl ⟨hne, List.mem_cons_of_mem _ hmem⟩
        · refine Or.inr ⟨he, Or.inl ⟨?_, hs⟩⟩
          rw [List.map_cons, List.mem_cons, not_or]
          exact ⟨Ne.symm hd, hnew⟩
        · exact Or.inr ⟨he, Or.inr ⟨old, List.mem_cons_of_mem _ hold, hs⟩⟩

/-- what the entries of the domains say about the questions -/
structure Tallied (questions : List Question) (domains : List (String × Score)) : Prop where
  nodup : (domains.map Prod.fst).Nodup
  asked : ∀ q ∈ questions, q.domainName ∈ domains.map Prod.fst
  correct_le : ∀ d s, (d, s) ∈ domains → s.correct ≤ s.total
  entry : ∀ d s, (d, s) ∈ domains → ∃ q ∈ questions, q.domainName = d
  right : ∀ d s, (d, s) ∈ domains → s.correct = s.total →
    ∀ q ∈ questions, q.domainName = d → q.selected = some q.answer

/-- If the counters of a domain agree after one more question, they agreed before, and the question was
answered right if it is of this domain. -/
theorem Tallied.right_bump {questions : List Question} {domains : List (String × Score)}
    (h : Tallied questions domains) {q : Question} {value : String} (hq : q.selected = some value)
    {d : String} {s : Score} (hs : (d, s) ∈ Course.bump q.domainName (value == q.answer) domains)
    (hall : s.correct = s.total) :
    (q.domainName = d → q.selected = some q.answer) ∧
      ∀ q' ∈ questions, q'.domainName = d → q'.selected = some q'.answer := by
  have hright : (value == q.answer).toNat = 1 → q.selected = some q.answer := by
    intro hone
    rw [hq, eq_of_beq (Bool.toNat_eq_one.mp hone)]
  have hle := Bool.toNat_le (value == q.answer)
  rcases mem_bump h.nodup hs with ⟨hne, hmem⟩ | ⟨rfl, ⟨hnone, rfl⟩ | ⟨old, hold, rfl⟩⟩
  · exact ⟨fun he => absurd he.symm hne, h.right d s hmem hall⟩
  · exact ⟨fun _ => hright hall, fun q' hq' he => absurd (he ▸ h.asked q' hq') hnone⟩
  · have hold_le := h.correct_le _ old hold
    dsimp only at hall
    exact ⟨fun _ => hright (by omega), h.right _ old hold (by omega)⟩

theorem Tallied.bump {questions : List Question} {domains : List (String × Score)}
    (h : Tallied questions domains) {q : Question} {value : String} (hq : q.selected = some value) :
    Tallied (questions ++ [q]) (bump q.domainName (value == q.answer) domains) := by
  have hkeys := keys_bump q.domainName (value == q.answer) domains
  have hle := Bool.toNat_le (value == q.answer)
  refine ⟨?_, ?_, ?_, ?_, ?_⟩
  · rw [hkeys]
    split_ifs with hmem
    · exact h.nodup
    · exact List.nodup_append.mpr ⟨h.nodup, List.nodup_singleton _, fun a ha b hb hab => by
        rw [List.mem_singleton.mp hb] at hab
        exact hmem (hab ▸ ha)⟩
  · intro q' hq'
    rw [hkeys]
    rcases List.mem_append.mp hq' with hq' | hq'
    · split_ifs
      · exact h.asked q' hq'
      · exact List.mem_append_left _ (h.asked q' hq')
    · cases List.mem_singleton.mp hq'
      split_ifs with hmem
      · exact hmem
      · exact List.mem_append_right _ List.mem_cons_self
  · intro d s hs
    rcases mem_bump h.nodup hs with ⟨_, hmem⟩ | ⟨_, ⟨_, rfl⟩ | ⟨old, hold, rfl⟩⟩
    · exact h.correct_le d s hmem
    · exact hle
    · exact Nat.add_le_add (h.correct_le _ old hold) hle
  · intro d s hs
    rcases mem_bump h.nodup hs with ⟨_, hmem⟩ | ⟨rfl, _⟩
    · obtain ⟨q', hq', hd⟩ := h.entry d s hmem
      exact ⟨q', List.mem_append_left _ hq', hd⟩
    · exact ⟨q, List.mem_append_right _ List.mem_cons_self, rfl⟩
  · intro d s hs hall q' hq' hd
    obtain ⟨hnew, hold⟩ := h.right_bump hq hs hall
    rcases List.mem_append.mp hq' with hq' | hq'
    · exact hold q' hq' hd
    · cases List.mem_singleton.mp hq'
      exact hnew hd

theorem tallied {questions : List Question} (h : ∀ q ∈ questions, q.selected.isSome = true) :
    Tallied questions (questions.foldl tally []) := by
  induction questions using List.reverseRecOn with
  | nil => exact ⟨List.nodup_nil, nofun, nofun, nofun, nofun⟩
  | append_singleton questions q ih =>
    have hq := h q (List.mem_append_right _ List.mem_cons_self)
    obtain ⟨value, hvalue⟩ := Option.isSome_iff_exists.mp hq
    have htally := (ih fun q hq => h q (List.mem_append_left _ hq)).bump hvalue
    rw [List.foldl_append, List.foldl_cons, List.foldl_nil, tally, hvalue]
    exact htally

/-- the review that the first loop enqueues -/
def enqueued (now : ℤ) : Review := { stage := 0, due := now, misses := 1, reason := .diagnosticMiss }

theorem enqueue_cases (now : ℤ) (reviews : Reviews) (domain id : String) :
    enqueue now reviews domain id = reviews id ∨
      reviews id = none ∧ diagnosticReviewDay domain = some id ∧
        enqueue now reviews domain id = some (enqueued now) := by
  unfold enqueue
  cases hday : diagnosticReviewDay domain with
  | none => exact Or.inl rfl
  | some day =>
    dsimp only
    split_ifs with hsome
    · exact Or.inl rfl
    · by_cases hid : id = day
      · subst hid
        exact Or.inr ⟨by simpa using hsome, rfl, reviews.set_self id _⟩
      · exact Or.inl (reviews.set_of_ne hid _)

/-- the first loop only adds reviews -/
theorem foldl_enqueue (now : ℤ) (domains : List String) (reviews : Reviews) (id : String) :
    domains.foldl (enqueue now) reviews id = reviews id ∨
      reviews id = none ∧ (∃ domain, diagnosticReviewDay domain = some id) ∧
        domains.foldl (enqueue now) reviews id = some (enqueued now) := by
  induction domains generalizing reviews with
  | nil => exact Or.inl rfl
  | cons domain domains ih =>
    rw [List.foldl_cons]
    rcases enqueue_cases now reviews domain id with he | ⟨hnone, hday, he⟩
    · rw [← he]
      exact ih (enqueue now reviews domain)
    · rcases ih (enqueue now reviews domain) with hlater | ⟨hlater, _⟩
      · exact Or.inr ⟨hnone, ⟨domain, hday⟩, hlater.trans he⟩
      · rw [he] at hlater
        cases hlater

/-- the review of a lesson that the second loop clears -/
def Review.cleared (r : Review) (now : ℤ) : Review :=
  { r with stage := 0, due := now + dayMilliseconds, reason := .scheduledRetrieval }

theorem clear_cases (now : ℤ) (reviews : Reviews) (entry : String × Score) (id : String) :
    clear now reviews entry id = reviews id ∨
      diagnosticReviewDay entry.1 = some id ∧ entry.2.correct = entry.2.total ∧
        ∃ r, reviews id = some r ∧ r.reason = .diagnosticMiss ∧
          clear now reviews entry id = some (r.cleared now) := by
  unfold clear
  cases hday : diagnosticReviewDay entry.1 with
  | none => exact Or.inl rfl
  | some day =>
    dsimp only
    cases hold : reviews day with
    | none => exact Or.inl rfl
    | some r =>
      dsimp only
      split_ifs with hclear
      · by_cases hid : id = day
        · subst hid
          exact Or.inr ⟨rfl, hclear.1, r, hold, hclear.2, reviews.set_self id _⟩
        · exact Or.inl (reviews.set_of_ne hid _)
      · exact Or.inl rfl

/-- the second loop clears reviews, each one once -/
theorem foldl_clear (now : ℤ) (domains : List (String × Score)) (reviews : Reviews) (id : String) :
    domains.foldl (clear now) reviews id = reviews id ∨
      (∃ d s, (d, s) ∈ domains ∧ diagnosticReviewDay d = some id ∧ s.correct = s.total) ∧
        ∃ r, reviews id = some r ∧ r.reason = .diagnosticMiss ∧
          domains.foldl (clear now) reviews id = some (r.cleared now) := by
  induction domains generalizing reviews with
  | nil => exact Or.inl rfl
  | cons entry domains ih =>
    rw [List.foldl_cons]
    rcases clear_cases now reviews entry id with he | ⟨hday, hfull, r, hold, hmiss, he⟩
    · rw [← he]
      rcases ih (clear now reviews entry) with hlater | ⟨⟨d, s, hmem, hd⟩, hr⟩
      · exact Or.inl hlater
      · exact Or.inr ⟨⟨d, s, List.mem_cons_of_mem _ hmem, hd⟩, hr⟩
    · refine Or.inr ⟨⟨entry.1, entry.2, List.mem_cons_self, hday, hfull⟩, r, hold, hmiss, ?_⟩
      rcases ih (clear now reviews entry) with hlater | ⟨_, r', hr', hmiss', _⟩
      · exact hlater.trans he
      · rw [he] at hr'
        cases hr'
        cases hmiss'

theorem lesson_of_reviewDay {domain id : String} (h : diagnosticReviewDay domain = some id) :
    id ∈ lessonIds := by
  unfold diagnosticReviewDay at h
  split at h <;> cases h <;> decide

/-- **what a diagnostic does to the review of a lesson** -/
theorem scoreDiagnostic_cases (reviews : Reviews) (questions : List Question) (now : ℤ) (id : String) :
    scoreDiagnostic reviews questions now id = reviews id ∨
      id ∈ lessonIds ∧ (scoreDiagnostic reviews questions now id = some (enqueued now) ∨
        NoMiss questions id ∧ ∃ r, (reviews id = some r ∨ r = enqueued now) ∧ r.reason = .diagnosticMiss ∧
          scoreDiagnostic reviews questions now id = some (r.cleared now)) := by
  unfold scoreDiagnostic
  split
  · exact Or.inl rfl
  · rename_i hanswered
    have htally := tallied (List.length_filter_eq_length_iff.mp (not_not.mp hanswered))
    dsimp only
    generalize questions.foldl tally [] = domains at htally ⊢
    generalize (domains.filter fun entry => entry.2.correct < entry.2.total).map Prod.fst = missed
    rcases foldl_clear now domains (missed.foldl (enqueue now) reviews) id with
      he | ⟨⟨d, s, hmem, hday, hfull⟩, r, hr, hmiss, he⟩
    · rw [he]
      rcases foldl_enqueue now missed reviews id with hq | ⟨_, ⟨domain, hday⟩, hq⟩
      · exact Or.inl hq
      · exact Or.inr ⟨lesson_of_reviewDay hday, Or.inl hq⟩
    · have hnomiss : NoMiss questions id :=
        ⟨d, hday, htally.entry d s hmem, htally.right d s hmem hfull⟩
      refine Or.inr ⟨lesson_of_reviewDay hday, Or.inr ⟨hnomiss, r, ?_, hmiss, he⟩⟩
      rcases foldl_enqueue now missed reviews id with hq | ⟨_, _, hq⟩
      · exact Or.inl (hq.symm.trans hr)
      · exact Or.inr (Option.some.inj (hr.symm.trans hq))

/-! ## whole runs -/

theorem Inv.diagnostic {id : String} {events : List Event} {reviews : Reviews}
    (h : ∀ r, reviews id = some r → Inv id events r) (questions : List Question) (now : ℤ) {r : Review}
    (hr : scoreDiagnostic reviews questions now id = some r) :
    Inv id (events ++ [.diagnostic questions now]) r := by
  rcases scoreDiagnostic_cases reviews questions now id with
    he | ⟨hlesson, he | ⟨hnomiss, r', hr', hmiss, he⟩⟩
  · exact (h r (he.symm.trans hr)).extend fun _ => nofun
  · cases he.symm.trans hr
    exact ⟨hlesson, Nat.zero_le 2, fun _ => rfl, nofun, fun hmiss => absurd (Or.inr rfl) hmiss⟩
  · have hmastered : r'.mastered = false := by
      rcases hr' with hr' | rfl
      · exact (h r' hr').missed (Or.inr hmiss)
      · rfl
    cases he.symm.trans hr
    exact .start hlesson hnomiss rfl hmastered rfl

theorem run_inv (events : List Event) (id : String) (r : Review) (hr : run events id = some r) :
    Inv id events r := by
  induction events using List.reverseRecOn generalizing r with
  | nil => cases hr
  | append_singleton events e ih =>
    rw [run_concat] at hr
    cases e with
    | diagnostic questions now => exact Inv.diagnostic ih questions now hr
    | quiz id' correct now =>
      have hstep : (recordQuizResult (run events) id' correct now).2 id = some r := hr
      by_cases hid : id = id'
      · subst hid
        by_cases hlesson : id ∈ lessonIds
        · cases correct with
          | false => exact Inv.wrong ih hlesson now hstep
          | true => exact Inv.right ih hlesson now hstep
        · unfold recordQuizResult at hstep
          rw [if_pos hlesson] at hstep
          exact absurd (ih r hstep).lesson hlesson
      · rw [recordQuizResult_of_ne _ hid] at hstep
        refine (ih r hstep).extend fun now' he => ?_
        cases he
        exact hid rfl

section
variable {id : String} {t₀ t : ℤ} {n : ℕ} {after : List Event}

/-- the last retrieval, and those before it -/
theorem Retrieved.pred (h : Retrieved id t₀ n t after) {k : ℕ} (hn : n = k + 1) :
    ∃ s before, Retrieved id t₀ k s before ∧ s + interval k ≤ t ∧
      (before ++ [Event.quiz id true t]).Sublist after := by
  induction h with
  | start => cases hn
  | @retrieve k' s t after hbefore hle _ =>
    cases hn
    exact ⟨s, after, hbefore, hle, List.Sublist.refl _⟩
  | other e _ ih =>
    obtain ⟨s, before, hbefore, hle, hsub⟩ := ih hn
    exact ⟨s, before, hbefore, hle, hsub.trans (List.sublist_append_left _ _)⟩

theorem Retrieved.zero (h : Retrieved id t₀ n t after) (hn : n = 0) : t = t₀ := by
  induction h with
  | start => rfl
  | retrieve _ _ _ => cases hn
  | other e _ ih => exact ih hn

/-- the three retrievals of the cycle -/
theorem Retrieved.three (h : Retrieved id t₀ 3 t after) :
    ∃ t₁ t₂, [Event.quiz id true t₁, .quiz id true t₂, .quiz id true t].Sublist after ∧
      t₀ + dayMilliseconds ≤ t₁ ∧ t₁ + 3 * dayMilliseconds ≤ t₂ ∧ t₂ + 7 * dayMilliseconds ≤ t := by
  obtain ⟨t₂, after₂, h₂, hle₂, hsub₂⟩ := h.pred rfl
  obtain ⟨t₁, after₁, h₁, hle₁, hsub₁⟩ := h₂.pred rfl
  obtain ⟨s, after₀, h₀, hle₀, hsub₀⟩ := h₁.pred rfl
  rw [h₀.zero rfl] at hle₀
  have hone : [Event.quiz id true t₁].Sublist after₁ := (List.sublist_append_right _ _).trans hsub₀
  have htwo : [Event.quiz id true t₁, .quiz id true t₂].Sublist after₂ :=
    (hone.append_right [.quiz id true t₂]).trans hsub₁
  exact ⟨t₁, t₂, (htwo.append_right [.quiz id true t]).trans hsub₂, hle₀, hle₁, hle₂⟩

end

/-- **Spaced review is earned.**  The stage of a review is at most 2.  If it is mastered, then after some
start, without a wrong answer since, there were three correct answers, one day, three days and seven days
or more after the one before. -/
theorem review_earned (events : List Event) (id : String) (r : Review) (hr : run events id = some r) :
    r.stage ≤ 2 ∧
      (r.mastered = true → ∃ before e after t₁ t₂ t₃, events = before ++ e :: after ∧ e.Starts id ∧
        (∀ now, Event.quiz id false now ∉ after) ∧
        [Event.quiz id true t₁, .quiz id true t₂, .quiz id true t₃].Sublist after ∧
        e.now + dayMilliseconds ≤ t₁ ∧ t₁ + 3 * dayMilliseconds ≤ t₂ ∧ t₂ + 7 * dayMilliseconds ≤ t₃) := by
  have hinv := run_inv events id r hr
  refine ⟨hinv.stage, fun hmastered => ?_⟩
  have hmiss : ¬ (r.reason = .quizMiss ∨ r.reason = .diagnosticMiss) := by
    intro hmiss
    rw [hinv.missed hmiss] at hmastered
    cases hmastered
  obtain ⟨before, e, after, k, t₃, hevents, hstarts, hright, hretrieved, hk⟩ := hinv.earned hmiss
  rw [if_pos hmastered] at hk
  subst hk
  obtain ⟨t₁, t₂, hanswers⟩ := hretrieved.three
  exact ⟨before, e, after, t₁, t₂, t₃, hevents, hstarts, hright, hanswers⟩

/-- a miss and its clearing, then the three retrievals -/
def cycle : List Event :=
  [.quiz "day-04" false 0, .quiz "day-04" true 1, .quiz "day-04" true (1 + dayMilliseconds),
    .quiz "day-04" true (1 + 4 * dayMilliseconds), .quiz "day-04" true (1 + 11 * dayMilliseconds)]

theorem review_earned_cycle :
    run cycle "day-04"
        = some { stage := 2, due := 0, misses := 1, reason := .scheduledRetrieval, mastered := true } ∧
      ∃ before e after t₁ t₂ t₃, cycle = before ++ e :: after ∧ e.Starts "day-04" ∧
        (∀ now, Event.quiz "day-04" false now ∉ after) ∧
        [Event.quiz "day-04" true t₁, .quiz "day-04" true t₂, .quiz "day-04" true t₃].Sublist after ∧
        e.now + dayMilliseconds ≤ t₁ ∧ t₁ + 3 * dayMilliseconds ≤ t₂ ∧ t₂ + 7 * dayMilliseconds ≤ t₃ := by
  have hrun : run cycle "day-04"
      = some { stage := 2, due := 0, misses := 1, reason := .scheduledRetrieval, mastered := true } := by
    decide +kernel
  exact ⟨hrun, (review_earned cycle "day-04" _ hrun).2 rfl⟩

end Course
