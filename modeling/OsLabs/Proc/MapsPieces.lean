import OsLabs.Proc.Maps
import OsLabs.Stdio.Fgets
import OsLabs.Stdio.Scanf

/-!
# The lines of `maps`, read with `fgets` and `sscanf`

Every line begins with a new piece, and the two addresses stand in its first piece, where they are
read as they are. A line that is longer than the buffer has further pieces, which depend on this
line alone.
-/

namespace OsLabs.Proc

open Stdio

/-- A line with its newline. -/
def MapsLine.line (l : MapsLine) : List UInt8 := l.text ++ [newline]

theorem pieces_mapsText {limit : Nat} (hLimit : limit ≠ 0) (lines : List MapsLine) :
    pieces limit (mapsText lines) = lines.flatMap fun l => pieces limit l.line := by
  induction lines with
  | nil => exact pieces_nil limit
  | cons l rest ih =>
    rw [mapsText_cons, List.flatMap_cons, ← ih]
    exact pieces_line hLimit l.newline_not_mem_text _

theorem pieces_mapsLine {limit : Nat} (hLimit : limit ≠ 0) (l : MapsLine) :
    pieces limit l.line = l.line.take limit :: pieces limit (l.line.drop limit) :=
  pieces_of_line hLimit l.newline_not_mem_text

/-! ## The addresses -/

theorem digit_of_hexDigit {c : UInt8} {d : Nat} (h : hexDigit c = some d) :
    digit 16 c = some d := by
  have hLt := hexDigit_lt h
  have hValue : digitValue c = some d := by
    unfold hexDigit at h
    split at h
    · next hc =>
      have hRange : 48 ≤ c.toNat ∧ c.toNat ≤ 57 := hc
      rw [digitValue, if_pos hRange]
      exact h
    · split at h
      · next hc =>
        have hRange : 97 ≤ c.toNat ∧ c.toNat ≤ 102 := hc
        rw [digitValue, if_neg (by omega), if_pos hRange]
        exact h
      · cases h
  rw [digit, hValue, Option.filter_some, if_pos (decide_eq_true hLt)]

variable {text : List UInt8} {c : UInt8}

/-- The values of the digits of an address. -/
def addressDigits (text : List UInt8) : List Nat := text.map fun c => (hexDigit c).getD 0

theorem IsAddress.map_digit (h : IsAddress text) :
    text.map (digit 16) = (addressDigits text).map some := by
  rw [addressDigits, List.map_map]
  apply List.map_congr_left
  intro c hc
  obtain ⟨d, hd⟩ := Option.isSome_iff_exists.mp (h.digits c hc)
  rw [digit_of_hexDigit hd, Function.comp_apply, hd, Option.getD_some]

theorem numeral_addressDigits (text : List UInt8) :
    numeral 16 (addressDigits text) = hexValue text := by
  rw [numeral, addressDigits, List.foldl_map]
  rfl

/-- An address does not begin with `0x`, and neither does it with the byte behind it. -/
theorem IsAddress.hexPrefix_eq (h : IsAddress text) (hc : c ≠ 'x'.toUInt8 ∧ c ≠ 'X'.toUInt8)
    (rest : List UInt8) : hexPrefix (text ++ c :: rest) = none := by
  obtain ⟨a, b, tail, hText, hb⟩ : ∃ a b tail, text ++ c :: rest = a :: b :: tail ∧
      (b ≠ 'x'.toUInt8 ∧ b ≠ 'X'.toUInt8) := by
    match text, h with
    | [], h => exact absurd rfl h.nonempty
    | [a], _ => exact ⟨a, c, rest, rfl, hc⟩
    | a :: b :: tail, h =>
      refine ⟨a, b, tail ++ c :: rest, rfl, ?_⟩
      have hDigit := h.digits b (by simp)
      constructor
      · rintro rfl
        cases hDigit
      · rintro rfl
        cases hDigit
  rw [hText, hexPrefix, if_neg]
  rintro ⟨-, hx | hx⟩
  · exact hb.1 hx
  · exact hb.2 hx

/-- `%p` and `%lx` read an address as it is. -/
theorem IsAddress.convNumber_eq (h : IsAddress text) (hDigit : digit 16 c = none)
    (hc : c ≠ 'x'.toUInt8 ∧ c ≠ 'X'.toUInt8) (rest : List UInt8) :
    convNumber 16 Number.toULong (text ++ c :: rest) =
      some (.num (hexValue text), c :: rest) := by
  have hNumber : number 16 (text ++ c :: rest) = some (⟨false, hexValue text⟩, c :: rest) := by
    rw [number_run h.nonempty h.map_digit ?_ fun _ => h.hexPrefix_eq hc rest,
      numeral_addressDigits]
    intro b hb
    cases hb
    exact hDigit
  have hLt : ¬ 2 ^ 64 ≤ hexValue text := Nat.not_le.mpr h.hexValue_lt
  rw [convNumber, hNumber, Option.map_some, Number.toULong, if_neg hLt]
  rfl

theorem convert_p {x : Value × List UInt8} (h : convNumber 16 Number.toULong text = some x) :
    convert text .p = some x := by
  rw [convert, h]

/-- The string in the first piece of a line. -/
theorem cString_take {limit : Nat} (hLimit : 34 ≤ limit) (l : MapsLine) :
    ∃ tail, cString (l.line.take limit) = l.low ++ dash :: (l.high ++ space :: tail) := by
  have hLow := l.hLow.short
  have hHigh := l.hHigh.short
  have hSplit : l.line = (l.low ++ dash :: (l.high ++ [space])) ++
      (l.perms ++ space :: (l.offset ++ space :: (l.dev ++ space :: (l.inode ++
        (List.replicate (l.gap + 1) space ++ (l.name ++ [newline])))))) := by
    simp only [MapsLine.line, MapsLine.text, MapsLine.fields, List.append_assoc,
      List.cons_append, List.nil_append]
  have hShort : (l.low ++ dash :: (l.high ++ [space])).length ≤ limit := by
    simp only [List.length_append, List.length_cons, List.length_nil]
    omega
  have hNonzero : ∀ b ∈ l.low ++ dash :: (l.high ++ [space]), decide (b ≠ 0) = true := by
    intro b hb
    apply decide_eq_true
    rintro rfl
    simp only [List.mem_append, List.mem_cons, List.not_mem_nil, or_false] at hb
    rcases hb with hb | hb | hb | hb
    · cases l.hLow.digits 0 hb
    · exact absurd hb (by decide)
    · cases l.hHigh.digits 0 hb
    · exact absurd hb (by decide)
  rw [hSplit, List.take_append, List.take_of_length_le hShort, cString,
    List.takeWhile_append_of_pos hNonzero]
  generalize List.takeWhile _ _ = tail
  refine ⟨tail, ?_⟩
  rw [List.append_assoc, List.cons_append, List.append_assoc]
  rfl

/-- The first two conversions of `%p-%p` and `%lx-%lx`. -/
theorem convNumber_low (l : MapsLine) (rest : List UInt8) :
    convNumber 16 Number.toULong (l.low ++ dash :: rest) = some (.num l.start, dash :: rest) :=
  l.hLow.convNumber_eq (by decide) (by decide) rest

theorem convNumber_high (l : MapsLine) (rest : List UInt8) :
    convNumber 16 Number.toULong (l.high ++ space :: rest) = some (.num l.stop, space :: rest) :=
  l.hHigh.convNumber_eq (by decide) (by decide) rest

end OsLabs.Proc
