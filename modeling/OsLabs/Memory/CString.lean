import Mathlib.Data.List.TakeWhile

/-!
# Arrays of bytes and the strings in them

An array keeps its length; an access outside of it has no defined result. A string is
what stands from a position on up to the first zero byte, which has to be inside the
array.
-/

namespace OsLabs.Memory

/-- The array after `bytes` have been written from position `off` on. -/
def store (mem : List UInt8) (off : Nat) (bytes : List UInt8) : Option (List UInt8) :=
  if off + bytes.length ≤ mem.length then
    some (mem.take off ++ bytes ++ mem.drop (off + bytes.length))
  else none

/-- The first `len` bytes of an array. -/
def load (mem : List UInt8) (len : Nat) : Option (List UInt8) :=
  if len ≤ mem.length then some (mem.take len) else none

/-- The string that starts at position `off`. -/
def cstr (mem : List UInt8) (off : Nat) : Option (List UInt8) :=
  if 0 ∈ mem.drop off then some ((mem.drop off).takeWhile (· ≠ 0)) else none

/-- `snprintf` of a finished text: the array, which gets at most `size` bytes with the
closing zero, and the length of the whole text. -/
def snprintf (mem : List UInt8) (size : Nat) (text : List UInt8) : Option (List UInt8 × Nat) :=
  if size = 0 then some (mem, text.length)
  else (store mem 0 (text.take (size - 1) ++ [0])).map fun mem => (mem, text.length)

theorem store_append {old bytes : List UInt8} (before after : List UInt8)
    (hLength : old.length = bytes.length) :
    store (before ++ old ++ after) before.length bytes = some (before ++ bytes ++ after) := by
  have hFits : before.length + bytes.length ≤ (before ++ old ++ after).length := by
    simp only [List.length_append]
    omega
  have hAfter : (before ++ old ++ after).drop (before.length + bytes.length) = after := by
    apply List.drop_left'
    rw [List.length_append, hLength]
  rw [store, if_pos hFits, hAfter, List.append_assoc before old after, List.take_left]

/-- An array after bytes have been written into it. -/
theorem store_take {mem mem' bytes : List UInt8} {off : Nat}
    (h : store mem off bytes = some mem') :
    mem'.take (off + bytes.length) = mem.take off ++ bytes ∧ mem'.length = mem.length := by
  unfold store at h
  split at h
  · next hFits =>
    cases h
    constructor
    · apply List.take_left'
      rw [List.length_append, List.length_take, Nat.min_eq_left (by omega)]
    · simp only [List.length_append, List.length_take, List.length_drop]
      omega
  · cases h

theorem store_eq_none {mem bytes : List UInt8} {off : Nat} :
    store mem off bytes = none ↔ mem.length < off + bytes.length := by
  unfold store
  split
  · simpa using ‹off + bytes.length ≤ mem.length›
  · simpa using ‹¬ off + bytes.length ≤ mem.length›

/-- The text of a string is followed by a zero byte. -/
theorem getElem_takeWhile {bytes : List UInt8} (h : 0 ∈ bytes) :
    bytes[(bytes.takeWhile (· ≠ 0)).length]? = some 0 := by
  induction bytes with
  | nil => cases h
  | cons b rest ih =>
    by_cases hb : b = 0
    · subst hb
      rfl
    · rw [List.takeWhile_cons_of_pos (by simpa using hb), List.length_cons,
        List.getElem?_cons_succ]
      exact ih ((List.mem_cons.mp h).resolve_left (Ne.symm hb))

/-- A string ends before its array does. -/
theorem length_takeWhile_lt {bytes : List UInt8} (h : 0 ∈ bytes) :
    (bytes.takeWhile (· ≠ 0)).length < bytes.length :=
  (List.getElem?_eq_some_iff.mp (getElem_takeWhile h)).1

/-- The string that starts at a position is the same in a longer array. -/
theorem cstr_append_right {mem : List UInt8} {off : Nat} (h : 0 ∈ mem.drop off)
    (rest : List UInt8) : cstr (mem ++ rest) off = some ((mem.drop off).takeWhile (· ≠ 0)) := by
  have hOff : off ≤ mem.length := by
    by_contra hOver
    rw [List.drop_eq_nil_of_le (by omega)] at h
    cases h
  have hDrop : (mem ++ rest).drop off = mem.drop off ++ rest := List.drop_append_of_le_length hOff
  have hShort := length_takeWhile_lt h
  rw [cstr, hDrop, if_pos (List.mem_append_left rest h), List.takeWhile_append,
    if_neg (Nat.ne_of_lt hShort)]

theorem cstr_append {text : List UInt8} (before after : List UInt8)
    (hText : ∀ b ∈ text, b ≠ 0) :
    cstr (before ++ text ++ 0 :: after) before.length = some text := by
  have hDrop : (before ++ text ++ 0 :: after).drop before.length = text ++ 0 :: after := by
    rw [List.append_assoc, List.drop_left]
  have hTake : (text ++ 0 :: after).takeWhile (· ≠ 0) = text := by
    rw [List.takeWhile_append_of_pos]
    · simp
    · intro b hb
      simpa using hText b hb
  rw [cstr, hDrop, if_pos (by simp), hTake]

/-- Bytes written right behind what an array begins with. -/
theorem store_prefix {mem before bytes : List UInt8} (hBefore : before <+: mem)
    (hFits : (before ++ bytes).length ≤ mem.length) :
    ∃ mem', store mem before.length bytes = some mem' ∧ before ++ bytes <+: mem' ∧
      mem'.length = mem.length := by
  obtain ⟨rest, rfl⟩ := hBefore
  rw [List.length_append, List.length_append] at hFits
  have hOld : (rest.take bytes.length).length = bytes.length := by
    rw [List.length_take]
    omega
  have hStore := store_append before (rest.drop bytes.length) hOld
  rw [List.append_assoc before, List.take_append_drop] at hStore
  refine ⟨_, hStore, List.prefix_append _ _, ?_⟩
  simp only [List.length_append, List.length_drop]
  omega

/-- Bytes written further behind. -/
theorem store_behind {mem before bytes : List UInt8} {off : Nat} (hBefore : before <+: mem)
    (hOff : before.length ≤ off) (hFits : off + bytes.length ≤ mem.length) :
    ∃ mem', store mem off bytes = some mem' ∧ before <+: mem' ∧ mem'.length = mem.length := by
  refine ⟨_, if_pos hFits, ?_, ?_⟩
  · rw [List.append_assoc]
    refine List.IsPrefix.trans ?_ (List.prefix_append _ _)
    rw [List.prefix_take_iff]
    exact ⟨hBefore, hOff⟩
  · simp only [List.length_append, List.length_take, List.length_drop]
    omega

theorem cstr_prefix {mem text : List UInt8} (hPrefix : text ++ [0] <+: mem) (hText : 0 ∉ text) :
    cstr mem 0 = some text := by
  obtain ⟨rest, rfl⟩ := hPrefix
  rw [List.append_assoc]
  exact cstr_append [] rest fun b hb hZero => hText (hZero ▸ hb)

/-- `strrchr`: what stands from the last such byte on. -/
def strrchr (b : UInt8) : List UInt8 → Option (List UInt8)
  | [] => none
  | x :: rest =>
    match strrchr b rest with
    | some found => some found
    | none => if x = b then some (x :: rest) else none

theorem strrchr_of_not_mem {b : UInt8} {text : List UInt8} (h : b ∉ text) :
    strrchr b text = none := by
  induction text with
  | nil => rfl
  | cons x rest ih =>
    rw [List.mem_cons, not_or] at h
    rw [strrchr, ih h.2]
    exact if_neg fun hx => h.1 hx.symm

theorem strrchr_append {b : UInt8} (before : List UInt8) {text : List UInt8} (h : b ∉ text) :
    strrchr b (before ++ b :: text) = some (b :: text) := by
  induction before with
  | nil =>
    rw [List.nil_append, strrchr, strrchr_of_not_mem h]
    exact if_pos rfl
  | cons x rest ih => rw [List.cons_append, strrchr, ih]

/-- A text that is shorter than the array and the given size is printed as a whole. -/
theorem snprintf_fits {mem text : List UInt8} {size : Nat} (hMem : text.length < mem.length)
    (hSize : text.length < size) :
    ∃ rest, snprintf mem size text = some (text ++ 0 :: rest, text.length) ∧
      (text ++ 0 :: rest).length = mem.length := by
  have hTake : text.take (size - 1) = text := List.take_of_length_le (by omega)
  have hFits : 0 + (text ++ [0]).length ≤ mem.length := by
    rw [List.length_append, List.length_singleton]
    omega
  refine ⟨mem.drop (0 + (text ++ [0]).length), ?_, ?_⟩
  · rw [snprintf, if_neg (by omega), hTake, store, if_pos hFits]
    simp
  · simp only [List.length_append, List.length_cons, List.length_drop, List.length_nil] at hFits ⊢
    omega

end OsLabs.Memory
