import Mathlib.Algebra.Group.Nat.Defs
import Mathlib.Algebra.Ring.Int.Defs
import Mathlib.Data.List.TakeWhile

/-!
# `scanf`

The directives of a format are applied to the text one after the other, up to the first one that
does not match. As in the GNU C library, a number is read as a `long` or an `unsigned long` and
saturated there, and is cut off if it is to be stored in an `int`; a minus sign is accepted for
unsigned numbers, too; `0x` alone is a number; and a pointer may be `(nil)`.
-/

namespace OsLabs.Stdio

/-- `isspace` in the C locale. -/
def isSpace (c : UInt8) : Bool := c.toNat = 32 ∨ 9 ≤ c.toNat ∧ c.toNat ≤ 13

def skipSpace (text : List UInt8) : List UInt8 := text.dropWhile isSpace

/-- The value of a digit in lower or upper case. -/
def digitValue (c : UInt8) : Option Nat :=
  if 48 ≤ c.toNat ∧ c.toNat ≤ 57 then some (c.toNat - 48)
  else if 97 ≤ c.toNat ∧ c.toNat ≤ 102 then some (c.toNat - 97 + 10)
  else if 65 ≤ c.toNat ∧ c.toNat ≤ 70 then some (c.toNat - 65 + 10)
  else none

def digit (base : Nat) (c : UInt8) : Option Nat := (digitValue c).filter (· < base)

/-- The digits that a text begins with, and what stands behind them. -/
def digits (base : Nat) : List UInt8 → List Nat × List UInt8
  | [] => ([], [])
  | c :: rest =>
    match digit base c with
    | some d => (d :: (digits base rest).1, (digits base rest).2)
    | none => ([], c :: rest)

def numeral (base : Nat) (ds : List Nat) : Nat := ds.foldl (fun v d => base * v + d) 0

structure Number where
  negative : Bool
  magnitude : Nat
deriving DecidableEq

def sign : List UInt8 → Bool × List UInt8
  | [] => (false, [])
  | c :: rest =>
    if c = '-'.toUInt8 then (true, rest) else if c = '+'.toUInt8 then (false, rest)
    else (false, c :: rest)

/-- What stands behind `0x` or `0X`. -/
def hexPrefix : List UInt8 → Option (List UInt8)
  | c :: x :: rest =>
    if c = '0'.toUInt8 ∧ (x = 'x'.toUInt8 ∨ x = 'X'.toUInt8) then some rest else none
  | _ => none

def number (base : Nat) (text : List UInt8) : Option (Number × List UInt8) :=
  let signed := sign (skipSpace text)
  match if base = 16 then hexPrefix signed.2 else none with
  | some rest => some (⟨signed.1, numeral base (digits base rest).1⟩, (digits base rest).2)
  | none =>
    if (digits base signed.2).1 = [] then none
    else some (⟨signed.1, numeral base (digits base signed.2).1⟩, (digits base signed.2).2)

/-- `strtoul` -/
def Number.toULong (n : Number) : Int :=
  if 2 ^ 64 ≤ n.magnitude then 2 ^ 64 - 1
  else if n.negative then (-(n.magnitude : Int)) % 2 ^ 64
  else n.magnitude

/-- `strtol` -/
def Number.toLong (n : Number) : Int :=
  max (-2 ^ 63) (min (2 ^ 63 - 1) (if n.negative then -(n.magnitude : Int) else n.magnitude))

/-- `(nil)`, in which the letters may be in upper case. -/
def nil (text : List UInt8) : Option (List UInt8) :=
  match text with
  | a :: b :: c :: d :: e :: rest =>
    if a = '('.toUInt8 ∧ (b = 'n'.toUInt8 ∨ b = 'N'.toUInt8) ∧
      (c = 'i'.toUInt8 ∨ c = 'I'.toUInt8) ∧ (d = 'l'.toUInt8 ∨ d = 'L'.toUInt8) ∧
      e = ')'.toUInt8 then some rest else none
  | _ => none

/-- The conversions `%p`, `%lx`, `%ld`, `%lu`, `%d`, `%u`, `%c` and `%s` with a width. -/
inductive Conv where
  | p
  | lx
  | ld
  | lu
  | d
  | u
  | c
  | s (width : Nat)
deriving DecidableEq

inductive Value where
  | num (n : Int)
  | text (bytes : List UInt8)
deriving DecidableEq

/-- A conversion that reads a number. -/
def convNumber (base : Nat) (f : Number → Int) (text : List UInt8) :
    Option (Value × List UInt8) :=
  (number base text).map fun x => (.num (f x.1), x.2)

def convert (text : List UInt8) : Conv → Option (Value × List UInt8)
  | .p =>
    match convNumber 16 Number.toULong text with
    | some x => some x
    | none => (nil (skipSpace text)).map fun rest => (.num 0, rest)
  | .lx => convNumber 16 Number.toULong text
  | .ld => convNumber 10 Number.toLong text
  | .lu => convNumber 10 Number.toULong text
  | .d => convNumber 10 (fun n => n.toLong.bmod (2 ^ 32)) text
  | .u => convNumber 10 (fun n => n.toULong % 2 ^ 32) text
  | .c =>
    match text with
    | [] => none
    | c :: rest => some (.text [c], rest)
  | .s width =>
    let word := ((skipSpace text).takeWhile fun c => !isSpace c).take width
    if word = [] then none else some (.text word, (skipSpace text).drop word.length)

inductive Directive where
  | space
  | literal (c : UInt8)
  | conv (v : Conv)
deriving DecidableEq

/-- The values that are stored. -/
def scan : List Directive → List UInt8 → List Value
  | [], _ => []
  | .space :: ds, text => scan ds (skipSpace text)
  | .literal c :: ds, text =>
    match text with
    | [] => []
    | b :: rest => if b = c then scan ds rest else []
  | .conv v :: ds, text =>
    match convert text v with
    | none => []
    | some (value, rest) => value :: scan ds rest

/-- A string in an array. -/
def cString (text : List UInt8) : List UInt8 := text.takeWhile (· ≠ 0)

def sscanf (text : List UInt8) (format : List Directive) : List Value :=
  scan format (cString text)

/-! ## Numbers without a sign -/

theorem skipSpace_cons {c : UInt8} {rest : List UInt8} (h : isSpace c = false) :
    skipSpace (c :: rest) = c :: rest := by
  rw [skipSpace, List.dropWhile_cons_of_neg (by rw [h]; exact Bool.false_ne_true)]

theorem digitValue_range {c : UInt8} {d : Nat} (h : digitValue c = some d) :
    48 ≤ c.toNat ∧ c.toNat ≤ 57 ∨ 65 ≤ c.toNat ∧ c.toNat ≤ 70 ∨
      97 ≤ c.toNat ∧ c.toNat ≤ 102 := by
  unfold digitValue at h
  split at h
  · next hDec => exact Or.inl hDec
  · split at h
    · next hLow => exact Or.inr (Or.inr hLow)
    · split at h
      · next hUp => exact Or.inr (Or.inl hUp)
      · cases h

theorem digitValue_of_digit {base : Nat} {c : UInt8} {d : Nat} (h : digit base c = some d) :
    digitValue c = some d ∧ d < base := by
  rw [digit, Option.filter_eq_some_iff] at h
  exact ⟨h.1, of_decide_eq_true h.2⟩

theorem isSpace_of_digit {c : UInt8} {d : Nat} (h : digitValue c = some d) :
    isSpace c = false := by
  have hRange := digitValue_range h
  refine decide_eq_false ?_
  omega

theorem sign_of_digit {c : UInt8} {d : Nat} (h : digitValue c = some d) (rest : List UInt8) :
    sign (c :: rest) = (false, c :: rest) := by
  have hRange := digitValue_range h
  have hMinus : c ≠ '-'.toUInt8 := fun hEq => by
    have hNat : c.toNat = 45 := congrArg UInt8.toNat hEq
    omega
  have hPlus : c ≠ '+'.toUInt8 := fun hEq => by
    have hNat : c.toNat = 43 := congrArg UInt8.toNat hEq
    omega
  rw [sign, if_neg hMinus, if_neg hPlus]

theorem digits_length (base : Nat) (text : List UInt8) :
    (digits base text).2.length ≤ text.length := by
  induction text with
  | nil => exact Nat.le_refl 0
  | cons c rest ih =>
    unfold digits
    split
    · exact Nat.le_succ_of_le ih
    · exact Nat.le_refl _

theorem sign_length (text : List UInt8) : (sign text).2.length ≤ text.length := by
  unfold sign
  split
  · exact Nat.le_refl 0
  · split_ifs
    · exact Nat.le_succ _
    · exact Nat.le_succ _
    · exact Nat.le_refl _

theorem skipSpace_length (text : List UInt8) : (skipSpace text).length ≤ text.length :=
  (List.dropWhile_sublist _).length_le

theorem number_length {text rest : List UInt8} {n : Number}
    (h : number 10 text = some (n, rest)) : rest.length ≤ text.length := by
  unfold number at h
  simp only [Nat.reduceEqDiff, if_false] at h
  split_ifs at h
  cases h
  calc (digits 10 (sign (skipSpace text)).2).2.length
      ≤ (sign (skipSpace text)).2.length := digits_length 10 _
    _ ≤ (skipSpace text).length := sign_length _
    _ ≤ text.length := skipSpace_length text

/-- A width that the text does not reach plays no part. -/
theorem convert_word {text : List UInt8} {w w' : Nat} (h : text.length ≤ w)
    (h' : text.length ≤ w') : convert text (.s w) = convert text (.s w') := by
  have hWord : ((skipSpace text).takeWhile fun c => !isSpace c).length ≤ text.length :=
    (List.takeWhile_sublist _).length_le.trans (skipSpace_length text)
  simp only [convert, List.take_of_length_le (hWord.trans h),
    List.take_of_length_le (hWord.trans h')]

/-- A run of digits, up to a byte that is none. -/
theorem digits_run {base : Nat} {run rest : List UInt8} {ds : List Nat}
    (hRun : run.map (digit base) = ds.map some)
    (hRest : ∀ c ∈ rest.head?, digit base c = none) :
    digits base (run ++ rest) = (ds, rest) := by
  induction run generalizing ds with
  | nil =>
    obtain rfl : ds = [] := by simpa using hRun.symm
    cases rest with
    | nil => rfl
    | cons c rest =>
      rw [List.nil_append, digits, hRest c rfl]
  | cons b run ih =>
    cases ds with
    | nil => cases hRun
    | cons d ds =>
      rw [List.map_cons, List.map_cons, List.cons.injEq] at hRun
      rw [List.cons_append, digits, hRun.1]
      dsimp only
      rw [ih hRun.2]

/-- A number that begins with a digit. -/
theorem number_run {base : Nat} {run rest : List UInt8} {ds : List Nat} (hne : run ≠ [])
    (hRun : run.map (digit base) = ds.map some)
    (hRest : ∀ c ∈ rest.head?, digit base c = none)
    (hPrefix : base = 16 → hexPrefix (run ++ rest) = none) :
    number base (run ++ rest) = some (⟨false, numeral base ds⟩, rest) := by
  cases run with
  | nil => exact absurd rfl hne
  | cons b run =>
    cases ds with
    | nil => cases hRun
    | cons d ds =>
      have hDigits := digits_run hRun hRest
      rw [List.map_cons, List.map_cons, List.cons.injEq] at hRun
      obtain ⟨hValue, -⟩ := digitValue_of_digit hRun.1
      have hNone : (if base = 16 then hexPrefix (b :: run ++ rest) else none) = none := by
        split
        · next hBase => exact hPrefix hBase
        · rfl
      have hSigned : sign (skipSpace (b :: run ++ rest)) = (false, b :: run ++ rest) := by
        rw [List.cons_append, skipSpace_cons (isSpace_of_digit hValue), sign_of_digit hValue]
      simp only [number, hSigned, hNone, hDigits]
      rw [if_neg (List.cons_ne_nil d ds)]

end OsLabs.Stdio
