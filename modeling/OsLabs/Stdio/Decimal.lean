import OsLabs.Stdio.Tokens

/-!
# Decimal numbers

What `printf` prints for an integer, `scanf` reads back: as it is, saturated or cut off.
-/

namespace OsLabs.Stdio

/-- The decimal digits, the most significant one first. -/
def decimal (n : Nat) : List Nat := if _h : n < 10 then [n] else decimal (n / 10) ++ [n % 10]

/-- `%d` and `%u`, for integers of any size. -/
def render (v : Int) : List UInt8 :=
  if v < 0 then '-'.toUInt8 :: (decimal v.natAbs).map fun d => UInt8.ofNat (48 + d)
  else (decimal v.natAbs).map fun d => UInt8.ofNat (48 + d)

theorem decimal_ne_nil (n : Nat) : decimal n ≠ [] := by
  rw [decimal]
  split
  · exact List.cons_ne_nil _ _
  · exact List.append_ne_nil_of_right_ne_nil _ (List.cons_ne_nil _ _)

theorem decimal_lt (n : Nat) : ∀ d ∈ decimal n, d < 10 := by
  induction n using Nat.strongRecOn with
  | ind n ih =>
    intro d hd
    rw [decimal] at hd
    split at hd
    · next hLt =>
      rw [List.mem_singleton.mp hd]
      exact hLt
    · rcases List.mem_append.mp hd with hd | hd
      · exact ih (n / 10) (by omega) d hd
      · rw [List.mem_singleton.mp hd]
        omega

theorem numeral_decimal (n : Nat) : numeral 10 (decimal n) = n := by
  induction n using Nat.strongRecOn with
  | ind n ih =>
    rw [decimal]
    split
    · simp [numeral]
    · have hFirst : numeral 10 (decimal (n / 10)) = n / 10 := ih (n / 10) (by omega)
      rw [numeral, List.foldl_append]
      show 10 * numeral 10 (decimal (n / 10)) + n % 10 = n
      rw [hFirst]
      omega

theorem digit_byte {d : Nat} (h : d < 10) : digit 10 (UInt8.ofNat (48 + d)) = some d := by
  have hTable : ∀ k < 10, digit 10 (UInt8.ofNat (48 + k)) = some k := by decide
  exact hTable d h

theorem map_digit_decimal (n : Nat) :
    ((decimal n).map fun d => UInt8.ofNat (48 + d)).map (digit 10) = (decimal n).map some := by
  rw [List.map_map]
  apply List.map_congr_left
  intro d hd
  exact digit_byte (decimal_lt n d hd)

def Number.ofInt (v : Int) : Number := ⟨decide (v < 0), v.natAbs⟩

/-- A number with something behind it that is not a digit. -/
theorem number_render (v : Int) {rest : List UInt8} (hRest : ∀ c ∈ rest.head?, digit 10 c = none) :
    number 10 (render v ++ rest) = some (.ofInt v, rest) := by
  have hne : ((decimal v.natAbs).map fun d => UInt8.ofNat (48 + d)) ≠ [] := by
    simpa using decimal_ne_nil v.natAbs
  have hUnsigned :=
    number_run hne (map_digit_decimal v.natAbs) hRest (fun h => absurd h (by decide))
  rw [numeral_decimal] at hUnsigned
  unfold render
  split
  · next hNeg =>
    have hDigits := digits_run (map_digit_decimal v.natAbs) hRest
    have hSign (tail : List UInt8) :
        sign (skipSpace ('-'.toUInt8 :: tail)) = (true, tail) := by
      rw [skipSpace_cons (by decide)]
      rfl
    rw [List.cons_append, number, hSign]
    simp only [hDigits, numeral_decimal]
    rw [if_neg (decimal_ne_nil _), Number.ofInt, decide_eq_true hNeg]
    rfl
  · next hPos =>
    rw [hUnsigned, Number.ofInt, decide_eq_false hPos]

theorem render_skipSpace (v : Int) (rest : List UInt8) :
    skipSpace (render v ++ rest) = render v ++ rest := by
  unfold render
  split
  · exact skipSpace_cons (by decide)
  · obtain ⟨d, ds, hDigits⟩ := List.exists_cons_of_ne_nil (decimal_ne_nil v.natAbs)
    have hd : d < 10 := decimal_lt v.natAbs d (hDigits ▸ List.mem_cons_self)
    have hValue := (digitValue_of_digit (digit_byte hd)).1
    rw [hDigits]
    exact skipSpace_cons (isSpace_of_digit hValue)

/-- What the conversions of decimal numbers store. -/
def Conv.decimal : Conv → Option (Number → Int)
  | .ld => some Number.toLong
  | .lu => some Number.toULong
  | .d => some fun n => n.toLong.bmod (2 ^ 32)
  | .u => some fun n => n.toULong % 2 ^ 32
  | _ => none

theorem convert_decimal {v : Conv} {f : Number → Int} (h : v.decimal = some f)
    (text : List UInt8) : convert text v = convNumber 10 f text := by
  cases v <;> cases h <;> rfl

theorem digit_of_isSpace {c : UInt8} (h : isSpace c = true) : digit 10 c = none := by
  by_contra hne
  obtain ⟨d, hd⟩ := Option.ne_none_iff_exists'.mp hne
  rw [isSpace_of_digit (digitValue_of_digit hd).1] at h
  exact Bool.false_ne_true h

theorem reads_decimal {v : Conv} {f : Number → Int} (h : v.decimal = some f) (n : Int) :
    Reads v (render n) (.num (f (.ofInt n))) := by
  refine ⟨render_skipSpace n, ?_⟩
  intro rest hRest
  rw [convert_decimal h, convNumber, number_render n fun c hc => digit_of_isSpace (hRest c hc)]
  rfl

theorem natAbs_signed (n : Int) :
    (if decide (n < 0) = true then -(n.natAbs : Int) else n.natAbs) = n := by
  simp only [decide_eq_true_eq]
  split <;> omega

/-- `strtol` saturates. -/
theorem toLong_ofInt (n : Int) :
    (Number.ofInt n).toLong = max (-2 ^ 63) (min (2 ^ 63 - 1) n) := by
  exact congrArg (fun v => max (-2 ^ 63) (min (2 ^ 63 - 1) v)) (natAbs_signed n)

/-- `strtoul` saturates, too, and wraps for negative numbers. -/
theorem toULong_ofInt (n : Int) :
    (Number.ofInt n).toULong = if 2 ^ 64 ≤ n.natAbs then 2 ^ 64 - 1 else n % 2 ^ 64 := by
  simp only [Number.toULong, Number.ofInt, decide_eq_true_eq]
  by_cases hLarge : 2 ^ 64 ≤ n.natAbs
  · rw [if_pos hLarge, if_pos hLarge]
  · rw [if_neg hLarge, if_neg hLarge]
    split <;> omega

end OsLabs.Stdio
