import Mathlib.Algebra.Group.Nat.Defs
import Mathlib.Data.List.Basic
import Mathlib.Data.List.Induction

/-!
# The text of `/proc/PID/maps`

A line `low-high perms offset dev inode`, then at least one space and perhaps a name. The
addresses are hexadecimal, the other fields are not empty and have no space or newline in them,
and a name does not begin with a space. What is known of the addresses themselves is `Aligned`.
-/

namespace OsLabs.Proc

def BUFSIZ : Nat := 8192

def newline : UInt8 := '\n'.toUInt8

def space : UInt8 := ' '.toUInt8

def dash : UInt8 := '-'.toUInt8

/-- The value of a hexadecimal digit, which is in lower case. -/
def hexDigit (c : UInt8) : Option Nat :=
  if '0'.toUInt8 ≤ c ∧ c ≤ '9'.toUInt8 then some (c.toNat - '0'.toNat)
  else if 'a'.toUInt8 ≤ c ∧ c ≤ 'f'.toUInt8 then some (c.toNat - 'a'.toNat + 10)
  else none

/-- A numeral, read after the value `v`. -/
def hexFrom (v : Nat) (digits : List UInt8) : Nat :=
  digits.foldl (fun v c => 16 * v + (hexDigit c).getD 0) v

def hexValue (digits : List UInt8) : Nat := hexFrom 0 digits

structure IsAddress (text : List UInt8) : Prop where
  nonempty : text ≠ []
  short : text.length ≤ 16
  digits : ∀ c ∈ text, (hexDigit c).isSome

structure IsField (text : List UInt8) : Prop where
  nonempty : text ≠ []
  plain : ∀ c ∈ text, c ≠ space ∧ c ≠ newline

structure IsName (text : List UInt8) : Prop where
  first : text.head? ≠ some space
  plain : newline ∉ text

structure MapsLine where
  low : List UInt8
  high : List UInt8
  perms : List UInt8
  offset : List UInt8
  dev : List UInt8
  inode : List UInt8
  /-- The number of spaces before the name, less one. -/
  gap : Nat
  name : List UInt8
  hLow : IsAddress low
  hHigh : IsAddress high
  hPerms : IsField perms
  hOffset : IsField offset
  hDev : IsField dev
  hInode : IsField inode
  hName : IsName name

namespace MapsLine

/-- The first six fields. -/
def fields (l : MapsLine) : List UInt8 :=
  l.low ++ dash :: (l.high ++ space :: (l.perms ++ space :: (l.offset ++ space ::
    (l.dev ++ space :: l.inode))))

/-- The line without its newline. -/
def text (l : MapsLine) : List UInt8 :=
  l.fields ++ (List.replicate (l.gap + 1) space ++ l.name)

def start (l : MapsLine) : Nat := hexValue l.low

def stop (l : MapsLine) : Nat := hexValue l.high

def size (l : MapsLine) : Nat := l.stop - l.start

def pages (page : Nat) (l : MapsLine) : Nat := l.size / page

/-- The range consists of whole pages, and a further page fits behind it. -/
structure Aligned (page : Nat) (l : MapsLine) : Prop where
  le : l.start ≤ l.stop
  start : page ∣ l.start
  stop : page ∣ l.stop
  top : l.stop + page ≤ 2 ^ 64

end MapsLine

def mapsText (lines : List MapsLine) : List UInt8 :=
  lines.flatMap fun l => l.text ++ [newline]

/-! ## Digits and separators -/

theorem hexDigit_lt {c : UInt8} {d : Nat} (h : hexDigit c = some d) : d < 16 := by
  unfold hexDigit at h
  split at h
  · next hc =>
    cases h
    have hNine : c.toNat ≤ 57 := hc.2
    show c.toNat - 48 < 16
    omega
  · split at h
    · next hc =>
      cases h
      have hF : c.toNat ≤ 102 := hc.2
      show c.toNat - 97 + 10 < 16
      omega
    · cases h

/-- A digit is none of the bytes that stand between the fields. -/
theorem hexDigit_ne {c : UInt8} (h : (hexDigit c).isSome) :
    c ≠ dash ∧ c ≠ space ∧ c ≠ newline := by
  refine ⟨?_, ?_, ?_⟩
  · rintro rfl
    cases h
  · rintro rfl
    cases h
  · rintro rfl
    cases h

theorem hexFrom_cons (v : Nat) (c : UInt8) (rest : List UInt8) :
    hexFrom v (c :: rest) = hexFrom (16 * v + (hexDigit c).getD 0) rest := rfl

theorem hexFrom_lt (v : Nat) (digits : List UInt8) :
    hexFrom v digits < (v + 1) * 16 ^ digits.length := by
  induction digits generalizing v with
  | nil => simp [hexFrom]
  | cons c rest ih =>
    have hDigit : (hexDigit c).getD 0 < 16 := by
      cases hc : hexDigit c with
      | none => exact (by decide : 0 < 16)
      | some d => exact hexDigit_lt hc
    calc hexFrom v (c :: rest)
        < (16 * v + (hexDigit c).getD 0 + 1) * 16 ^ rest.length := ih _
      _ ≤ ((v + 1) * 16) * 16 ^ rest.length := Nat.mul_le_mul_right _ (by omega)
      _ = (v + 1) * 16 ^ (c :: rest).length := by
        rw [List.length_cons, Nat.pow_succ, Nat.mul_assoc, Nat.mul_comm 16]

/-- Sixteen digits fit into 64 bits. -/
theorem IsAddress.hexValue_lt {text : List UInt8} (h : IsAddress text) :
    hexValue text < 2 ^ 64 := by
  have hLt := hexFrom_lt 0 text
  have hPow : 16 ^ text.length ≤ 16 ^ 16 := Nat.pow_le_pow_right (by decide) h.short
  have hTop : (16 : Nat) ^ 16 = 2 ^ 64 := by decide
  unfold hexValue
  omega

namespace MapsLine

theorem newline_not_mem_fields (l : MapsLine) : newline ∉ l.fields := by
  have hAddress {t : List UInt8} (h : IsAddress t) : newline ∉ t := fun hMem =>
    (hexDigit_ne (h.digits newline hMem)).2.2 rfl
  have hField {t : List UInt8} (h : IsField t) : newline ∉ t := fun hMem =>
    (h.plain newline hMem).2 rfl
  have hDash : newline ≠ dash := by decide
  have hSpace : newline ≠ space := by decide
  simp only [fields, List.mem_append, List.mem_cons, hAddress l.hLow, hAddress l.hHigh,
    hField l.hPerms, hField l.hOffset, hField l.hDev, hField l.hInode, hDash, hSpace, or_self,
    not_false_eq_true]

theorem newline_not_mem_text (l : MapsLine) : newline ∉ l.text := by
  rw [text, List.mem_append, List.mem_append, not_or, not_or]
  refine ⟨l.newline_not_mem_fields, fun hMem => ?_, l.hName.plain⟩
  exact absurd (List.eq_of_mem_replicate hMem) (by decide)

theorem text_ne_nil (l : MapsLine) : l.text ≠ [] := by
  intro hNil
  have hLow : l.low = [] := by
    rw [text, fields, List.append_eq_nil_iff, List.append_eq_nil_iff] at hNil
    exact hNil.1.1
  exact l.hLow.nonempty hLow

end MapsLine

/-! ## Lines one after the other -/

theorem mapsText_cons (l : MapsLine) (lines : List MapsLine) :
    mapsText (l :: lines) = l.text ++ newline :: mapsText lines := by
  rw [mapsText, List.flatMap_cons, List.append_assoc]
  rfl

theorem mapsText_ne_nil {lines : List MapsLine} (h : lines ≠ []) : mapsText lines ≠ [] := by
  cases lines with
  | nil => exact absurd rfl h
  | cons l rest =>
    rw [mapsText_cons]
    exact List.append_ne_nil_of_right_ne_nil _ (List.cons_ne_nil _ _)

theorem mapsText_append (xs ys : List MapsLine) :
    mapsText (xs ++ ys) = mapsText xs ++ mapsText ys := List.flatMap_append

theorem mapsText_end (lines : List MapsLine) :
    mapsText lines = [] ∨ ∃ init, mapsText lines = init ++ [newline] := by
  induction lines using List.reverseRecOn with
  | nil => exact Or.inl rfl
  | append_singleton lines l _ =>
    refine Or.inr ⟨mapsText lines ++ l.text, ?_⟩
    rw [mapsText_append, mapsText_cons, List.append_assoc]
    rfl

/-- A byte belongs to one of the lines. -/
theorem mapsText_index {lines : List MapsLine} {i : Nat} (hi : i < (mapsText lines).length) :
    ∃ before l after k, lines = before ++ l :: after ∧ i = (mapsText before).length + k ∧
      k ≤ l.text.length := by
  induction lines generalizing i with
  | nil => cases hi
  | cons l rest ih =>
    by_cases hFirst : i ≤ l.text.length
    · exact ⟨[], l, rest, i, rfl, (Nat.zero_add i).symm, hFirst⟩
    · rw [mapsText_cons, List.length_append, List.length_cons] at hi
      obtain ⟨before, l', after, k, rfl, hIndex, hk⟩ := ih (i := i - (l.text.length + 1)) (by omega)
      refine ⟨l :: before, l', after, k, rfl, ?_, hk⟩
      rw [mapsText_cons, List.length_append, List.length_cons]
      omega

/-! ## An example -/

theorem IsAddress.of_all {text : List UInt8} (hne : text ≠ []) (hShort : text.length ≤ 16)
    (h : (text.all fun c => (hexDigit c).isSome) = true) : IsAddress text :=
  ⟨hne, hShort, List.all_eq_true.mp h⟩

theorem IsField.of_all {text : List UInt8} (hne : text ≠ [])
    (h : (text.all fun c => c ≠ space ∧ c ≠ newline) = true) : IsField text :=
  ⟨hne, fun c hc => of_decide_eq_true (List.all_eq_true.mp h c hc)⟩

/-- The line `1000-2000 r 0 0 0 x`. -/
def onePage : MapsLine where
  low := ['1'.toUInt8, '0'.toUInt8, '0'.toUInt8, '0'.toUInt8]
  high := ['2'.toUInt8, '0'.toUInt8, '0'.toUInt8, '0'.toUInt8]
  perms := ['r'.toUInt8]
  offset := ['0'.toUInt8]
  dev := ['0'.toUInt8]
  inode := ['0'.toUInt8]
  gap := 0
  name := ['x'.toUInt8]
  hLow := .of_all (by decide) (by decide) (by decide)
  hHigh := .of_all (by decide) (by decide) (by decide)
  hPerms := .of_all (by decide) (by decide)
  hOffset := .of_all (by decide) (by decide)
  hDev := .of_all (by decide) (by decide)
  hInode := .of_all (by decide) (by decide)
  hName := ⟨by decide, by decide⟩

theorem aligned_onePage : onePage.Aligned 4096 :=
  ⟨by decide, by decide, by decide, by decide⟩

end OsLabs.Proc
