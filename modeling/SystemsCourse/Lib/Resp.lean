import SystemsCourse.Lib.Decimal

/-!
# RESP arrays of bulk strings

Commands as a RESP2 server reads them: `*` and the number of elements, then for each of them `$`, its
length and its bytes; numbers, and the bytes of an element, are followed by CR LF.

* `parseLength`, `parseBulk`, `parseBulks`, `parseArray`  the parser: an element has as many bytes as its
                          length says, whatever they are;
* `parseArray_append`     it takes an array that was written, and leaves what follows.
-/

namespace Resp
open Wire Decimal

/-! ## writing -/

def bulk (value : Bytes) : Bytes :=
  ascii "$" ++ print value.length ++ ascii "\r\n" ++ value ++ ascii "\r\n"

def array (values : List Bytes) : Bytes :=
  ascii "*" ++ print values.length ++ ascii "\r\n" ++ values.flatMap bulk

/-! ## parsing -/

/-- what follows CR LF -/
def parseCrlf : Bytes → Option Bytes
  | 13 :: 10 :: rest => some rest
  | _ => none

/-- digits, and what follows their CR LF -/
def parseLength (text : Bytes) : Option (ℕ × Bytes) :=
  if text.takeWhile isDigit = [] then none
  else (parseCrlf (text.dropWhile isDigit)).map fun rest => (value (text.takeWhile isDigit), rest)

/-- an element, and what follows it; 36 is `'$'` -/
def parseBulk : Bytes → Option (Bytes × Bytes)
  | [] => none
  | c :: text =>
    if c = 36 then do
      let (length, text) ← parseLength text
      if text.length < length then none
      else do
        let rest ← parseCrlf (text.drop length)
        return (text.take length, rest)
    else none

def parseBulks : ℕ → Bytes → Option (List Bytes × Bytes)
  | 0, text => some ([], text)
  | n + 1, text => do
    let (value, text) ← parseBulk text
    let (values, rest) ← parseBulks n text
    return (value :: values, rest)

/-- an array, and what follows it; 42 is `'*'` -/
def parseArray : Bytes → Option (List Bytes × Bytes)
  | [] => none
  | c :: text =>
    if c = 42 then do
      let (n, text) ← parseLength text
      parseBulks n text
    else none

/-! ## reading back -/

theorem parseLength_append (n : ℕ) (rest : Bytes) :
    parseLength (print n ++ ascii "\r\n" ++ rest) = some (n, rest) := by
  have hdigits : ∀ c ∈ print n, isDigit c = true := fun c => isDigit_of_mem_print
  have hstop : ¬ isDigit 13 = true := by decide
  have htake : (print n ++ 13 :: 10 :: rest).takeWhile isDigit = print n := by
    rw [List.takeWhile_append_of_pos hdigits, List.takeWhile_cons_of_neg hstop, List.append_nil]
  have hdrop : (print n ++ 13 :: 10 :: rest).dropWhile isDigit = 13 :: 10 :: rest := by
    rw [List.dropWhile_append_of_pos hdigits, List.dropWhile_cons_of_neg hstop]
  rw [List.append_assoc]
  show parseLength (print n ++ 13 :: 10 :: rest) = _
  unfold parseLength
  rw [htake, hdrop, if_neg (print_ne_nil n), value_print]
  rfl

theorem parseBulk_append (v rest : Bytes) : parseBulk (bulk v ++ rest) = some (v, rest) := by
  have hbulk : bulk v ++ rest = 36 :: (print v.length ++ ascii "\r\n" ++ (v ++ 13 :: 10 :: rest)) := by
    unfold bulk
    rw [List.append_assoc, List.append_assoc, List.append_assoc, List.append_assoc, List.append_assoc]
    rfl
  have hlength : ¬ (v ++ 13 :: 10 :: rest).length < v.length := by
    rw [List.length_append]
    omega
  rw [hbulk, parseBulk, if_pos rfl, parseLength_append]
  dsimp only [Option.bind_eq_bind, Option.bind_some]
  rw [if_neg hlength, List.drop_left, List.take_left]
  rfl

theorem parseBulks_append (values : List Bytes) (rest : Bytes) :
    parseBulks values.length (values.flatMap bulk ++ rest) = some (values, rest) := by
  induction values with
  | nil => rfl
  | cons v values ih =>
    rw [List.flatMap_cons, List.append_assoc, List.length_cons, parseBulks, parseBulk_append]
    dsimp only [Option.bind_eq_bind, Option.bind_some]
    rw [ih]
    rfl

/-- **an array is taken as it was written**, and nothing of what follows -/
theorem parseArray_append (values : List Bytes) (rest : Bytes) :
    parseArray (array values ++ rest) = some (values, rest) := by
  have harray : array values ++ rest
      = 42 :: (print values.length ++ ascii "\r\n" ++ (values.flatMap bulk ++ rest)) := by
    unfold array
    rw [List.append_assoc, List.append_assoc, List.append_assoc, List.append_assoc]
    rfl
  rw [harray, parseArray, if_pos rfl, parseLength_append]
  exact parseBulks_append values rest

end Resp
