import Mathlib.Data.List.Basic

/-!
# Reading a file with `fgets`

A call with a buffer of `limit + 1` bytes gives the next bytes of the file up to the newline and
with it, but at most `limit` of them. A line that is longer comes in several pieces, and every
line begins with a new piece.
-/

namespace OsLabs.Stdio

/-- What a call gives, and what is left of the file. -/
def fgets : Nat → List UInt8 → List UInt8 × List UInt8
  | 0, text => ([], text)
  | _ + 1, [] => ([], [])
  | n + 1, c :: rest =>
    if c = '\n'.toUInt8 then ([c], rest) else (c :: (fgets n rest).1, (fgets n rest).2)

theorem fgets_append (limit : Nat) (text : List UInt8) :
    (fgets limit text).1 ++ (fgets limit text).2 = text := by
  induction limit generalizing text with
  | zero => rfl
  | succ n ih =>
    cases text with
    | nil => rfl
    | cons c rest =>
      rw [fgets]
      split
      · rfl
      · rw [List.cons_append, ih]

theorem fgets_ne_nil {limit : Nat} {text : List UInt8} (hLimit : limit ≠ 0) (hText : text ≠ []) :
    (fgets limit text).1 ≠ [] := by
  cases limit with
  | zero => exact absurd rfl hLimit
  | succ n =>
    cases text with
    | nil => exact absurd rfl hText
    | cons c rest =>
      rw [fgets]
      split
      · exact List.cons_ne_nil _ _
      · exact List.cons_ne_nil _ _

/-- The results of all calls up to the end of the file. -/
def pieces (limit : Nat) (text : List UInt8) : List (List UInt8) :=
  if _h : limit = 0 ∨ text = [] then []
  else (fgets limit text).1 :: pieces limit (fgets limit text).2
termination_by text.length
decreasing_by
  have hne := fgets_ne_nil (fun hZero => _h (Or.inl hZero)) fun hNil => _h (Or.inr hNil)
  have hLength := congrArg List.length (fgets_append limit text)
  have hPos := List.length_pos_of_ne_nil hne
  rw [List.length_append] at hLength
  omega

theorem pieces_nil (limit : Nat) : pieces limit [] = [] := by
  rw [pieces, dif_pos (Or.inr rfl)]

theorem pieces_cons {limit : Nat} {text : List UInt8} (hLimit : limit ≠ 0) (hText : text ≠ []) :
    pieces limit text = (fgets limit text).1 :: pieces limit (fgets limit text).2 := by
  conv_lhs => rw [pieces]
  rw [dif_neg (not_or.mpr ⟨hLimit, hText⟩)]

/-- A call in a line. -/
theorem fgets_line {limit : Nat} {line : List UInt8} (hLine : '\n'.toUInt8 ∉ line)
    (rest : List UInt8) :
    fgets limit (line ++ '\n'.toUInt8 :: rest) =
      ((line ++ ['\n'.toUInt8]).take limit,
        (line ++ ['\n'.toUInt8]).drop limit ++ rest) := by
  induction limit generalizing line with
  | zero =>
    rw [fgets, List.take_zero, List.drop_zero, List.append_assoc]
    rfl
  | succ n ih =>
    cases line with
    | nil =>
      rw [List.nil_append, fgets, if_pos rfl, List.nil_append, List.take_succ_cons,
        List.take_nil, List.drop_succ_cons, List.drop_nil]
      rfl
    | cons c line =>
      rw [List.mem_cons, not_or] at hLine
      rw [List.cons_append, fgets, if_neg (Ne.symm hLine.1), ih hLine.2, List.cons_append,
        List.take_succ_cons, List.drop_succ_cons]

/-- The pieces of a line do not depend on what follows it. -/
theorem pieces_line {limit : Nat} {line : List UInt8} (hLimit : limit ≠ 0)
    (hLine : '\n'.toUInt8 ∉ line) (rest : List UInt8) :
    pieces limit (line ++ '\n'.toUInt8 :: rest) =
      pieces limit (line ++ ['\n'.toUInt8]) ++ pieces limit rest := by
  induction hLength : line.length using Nat.strongRecOn generalizing line with
  | ind m ih =>
    have hne (tail : List UInt8) : line ++ '\n'.toUInt8 :: tail ≠ [] :=
      List.append_ne_nil_of_right_ne_nil _ (List.cons_ne_nil _ _)
    rw [pieces_cons hLimit (hne rest), pieces_cons hLimit (hne []), fgets_line hLine,
      fgets_line hLine, List.append_nil, List.cons_append]
    congr 1
    by_cases hShort : line.length < limit
    · rw [List.drop_eq_nil_of_le (by rw [List.length_append, List.length_singleton]; omega),
        pieces_nil]
      rfl
    · have hDrop : (line ++ ['\n'.toUInt8]).drop limit = line.drop limit ++ ['\n'.toUInt8] :=
        List.drop_append_of_le_length (by omega)
      rw [hDrop, List.append_assoc]
      refine ih (line.drop limit).length ?_ (fun hMem => hLine (List.mem_of_mem_drop hMem)) rfl
      rw [List.length_drop]
      omega

/-- A piece for each time that `limit` bytes are reached. -/
theorem pieces_of_line {limit : Nat} {line : List UInt8} (hLimit : limit ≠ 0)
    (hLine : '\n'.toUInt8 ∉ line) :
    pieces limit (line ++ ['\n'.toUInt8]) =
      (line ++ ['\n'.toUInt8]).take limit ::
        pieces limit ((line ++ ['\n'.toUInt8]).drop limit) := by
  rw [pieces_cons hLimit (List.append_ne_nil_of_right_ne_nil _ (List.cons_ne_nil _ _)),
    fgets_line hLine, List.append_nil]

end OsLabs.Stdio
