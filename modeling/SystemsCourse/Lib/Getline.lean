import Mathlib.Data.List.Basic
import Mathlib.Data.List.TakeWhile
import SystemsCourse.Lib.Frames

/-!
# Lines of a stream

`std::getline` on an input stream, and the loop `while (std::getline(stream, text))`.

* `getline`                a stream whose state is not good leaves the text as it is;
* `getline_line`, `getline_last`  what is read up to a delimiter, and up to the end;
* `lines`                  the texts between the delimiters;
* `whileGetline_eq`        the loop is a fold over the lines.
-/

set_option linter.unusedVariables false

namespace Getline
open Wire

/-- an input stream: what is left of it, and the bits of its state -/
structure IStream where
  rest : Bytes
  eof : Bool := false
  fail : Bool := false

/-- `std::getline(stream, text, delim)` -/
def getline (delim : UInt8) (s : IStream) (text : Bytes) : Bytes × IStream :=
  -- the sentry: the text is not erased
  if s.eof || s.fail then (text, { s with fail := true })
  else if delim ∈ s.rest then
    (s.rest.takeWhile (· != delim), { rest := (s.rest.dropWhile (· != delim)).tail })
  -- the end of the stream; it is a failure if no character was extracted
  else (s.rest, { rest := [], eof := true, fail := s.rest.isEmpty })

section
variable {delim : UInt8} {l rest : Bytes}

theorem ne_delim (h : delim ∉ l) : ∀ c ∈ l, (c != delim) = true := by
  intro c hc
  rw [bne_iff_ne]
  rintro rfl
  exact h hc

theorem getline_line (h : delim ∉ l) (text : Bytes) :
    getline delim { rest := l ++ delim :: rest } text = (l, { rest := rest }) := by
  have hmem : delim ∈ l ++ delim :: rest := List.mem_append_right _ List.mem_cons_self
  have hstop : ¬ (fun c => c != delim) delim = true := by
    show ¬ (delim != delim) = true
    rw [bne_self_eq_false]
    exact Bool.false_ne_true
  unfold getline
  dsimp only
  rw [Bool.or_self, if_neg Bool.false_ne_true, if_pos hmem, List.takeWhile_append_of_pos (ne_delim h),
    List.dropWhile_append_of_pos (ne_delim h), List.takeWhile_cons_of_neg (p := (· != delim)) hstop,
    List.dropWhile_cons_of_neg (p := (· != delim)) hstop, List.append_nil]
  rfl

theorem getline_last (h : delim ∉ l) (text : Bytes) :
    getline delim { rest := l } text = (l, { rest := [], eof := true, fail := l.isEmpty }) := by
  unfold getline
  dsimp only
  rw [Bool.or_self, if_neg Bool.false_ne_true, if_neg h]

theorem getline_bad {s : IStream} (h : s.eof = true) (text : Bytes) :
    getline delim s text = (text, { s with fail := true }) := by
  unfold getline
  rw [h, Bool.true_or, if_pos rfl]

/-! ## lines -/

/-- a character before the first line -/
def consHead (c : UInt8) : List Bytes → List Bytes
  | [] => [[c]]
  | l :: ls => (c :: l) :: ls

/-- the texts that are ended by a delimiter, and the rest if it is not empty -/
def lines (delim : UInt8) : Bytes → List Bytes
  | [] => []
  | c :: text => if c = delim then [] :: lines delim text else consHead c (lines delim text)

theorem lines_line (h : delim ∉ l) (rest : Bytes) :
    lines delim (l ++ delim :: rest) = l :: lines delim rest := by
  induction l with
  | nil => exact if_pos rfl
  | cons c l ih =>
    obtain ⟨hc, hl⟩ := List.ne_and_not_mem_of_not_mem_cons h
    rw [List.cons_append, lines, if_neg hc.symm, ih hl]
    rfl

theorem lines_last (h : delim ∉ l) (hne : l ≠ []) : lines delim l = [l] := by
  induction l with
  | nil => exact absurd rfl hne
  | cons c l ih =>
    obtain ⟨hc, hl⟩ := List.ne_and_not_mem_of_not_mem_cons h
    rw [lines, if_neg hc.symm]
    cases l with
    | nil => rfl
    | cons d l =>
      rw [ih hl (List.cons_ne_nil d l)]
      rfl

/-- the lines that were written, each with its delimiter, and then those of the rest -/
theorem lines_flatMap {ls : List Bytes} (h : ∀ l ∈ ls, delim ∉ l) (rest : Bytes) :
    lines delim ((ls.flatMap fun l => l ++ [delim]) ++ rest) = ls ++ lines delim rest := by
  induction ls with
  | nil => rfl
  | cons l ls ih =>
    rw [List.flatMap_cons, List.append_assoc, List.append_assoc, List.singleton_append,
      lines_line (h l List.mem_cons_self), ih fun l hl => h l (List.mem_cons_of_mem _ hl)]
    rfl

end

/-! ## the loop -/

theorem getline_lt {delim : UInt8} {s : IStream} {text : Bytes}
    (h : (getline delim s text).2.fail = false) :
    (getline delim s text).2.rest.length < s.rest.length := by
  obtain ⟨rest, eof, fail⟩ := s
  cases hbad : eof || fail with
  | true =>
    unfold getline at h
    dsimp only at h
    rw [hbad, if_pos rfl] at h
    cases h
  | false =>
    obtain ⟨rfl, rfl⟩ := Bool.or_eq_false_iff.mp hbad
    by_cases hmem : delim ∈ rest
    · obtain ⟨l, rest, rfl, hl⟩ := List.eq_append_cons_of_mem hmem
      rw [getline_line hl, List.length_append, List.length_cons]
      dsimp only
      omega
    · rw [getline_last hmem] at h ⊢
      cases rest with
      | nil => cases h
      | cons c rest => exact Nat.succ_pos _

variable {ε σ : Type}

/-- `while (std::getline(stream, text, delim)) body` -/
def whileGetline (delim : UInt8) (body : σ → Bytes → Except ε σ) (s : IStream) (text : Bytes)
    (state : σ) : Except ε σ :=
  if h : (getline delim s text).2.fail = false then do
    let state' ← body state (getline delim s text).1
    whileGetline delim body (getline delim s text).2 (getline delim s text).1 state'
  else .ok state
termination_by s.rest.length
decreasing_by exact getline_lt h

theorem whileGetline_end {delim : UInt8} {body : σ → Bytes → Except ε σ} {s : IStream} (text : Bytes)
    (state : σ) (h : s.eof = true) : whileGetline delim body s text state = .ok state := by
  rw [whileGetline, getline_bad h]
  exact dif_neg nofun

/-- **The loop is a fold over the lines.**  The induction is on the length of what is left. -/
theorem whileGetline_eq (delim : UInt8) (body : σ → Bytes → Except ε σ) (rest text : Bytes) (state : σ) :
    whileGetline delim body { rest := rest } text state = (lines delim rest).foldlM body state := by
  induction hn : rest.length using Nat.strongRecOn generalizing rest text state with
  | ind n ih =>
    subst hn
    rw [whileGetline]
    by_cases hmem : delim ∈ rest
    · obtain ⟨l, rest, rfl, hl⟩ := List.eq_append_cons_of_mem hmem
      rw [lines_line hl, List.foldlM_cons, getline_line hl, dif_pos rfl]
      congr 1
      funext state'
      refine ih _ ?_ rest l state' rfl
      rw [List.length_append, List.length_cons]
      omega
    · rw [getline_last hmem]
      cases rest with
      | nil => exact dif_neg nofun
      | cons c rest =>
        have hok : (c :: rest).isEmpty = false := rfl
        rw [lines_last hmem (List.cons_ne_nil c rest), List.foldlM_cons, dif_pos hok]
        congr 1
        funext state'
        exact whileGetline_end _ _ rfl

end Getline
