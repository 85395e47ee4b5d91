import Mathlib.Data.List.Infix
import OsLabs.Proc.MapsPieces

/-!
# The memory of a process (`lab_proc/main.c`, `print_mem`)

The lines of `maps` are read into a buffer of 256 bytes and counted by calls of `fgets`. The second
and the third one are selected, and every one that has `[stack]` somewhere in it. If the range is
readable, its bytes are read from `mem` and printed, 16 in a row.

`mem` are the bytes at all addresses, and `sizes` tells how many bytes each call of `read` would
return at most; 0 stands for a failed call. Opening the files is left out.
-/

namespace OsLabs.Proc

open Stdio

/-- `"[stack]"` -/
def stack : List UInt8 :=
  ['['.toUInt8, 's'.toUInt8, 't'.toUInt8, 'a'.toUInt8, 'c'.toUInt8, 'k'.toUInt8, ']'.toUInt8]

/-- `"%lx-%lx %4s"` -/
def memFormat : List Directive :=
  [.conv .lx, .literal dash, .conv .lx, .space, .conv (.s 4)]

/-- The range of piece number `i` if it is to be printed: `start` and `end`. -/
def selected (i : Nat) (piece : List UInt8) : Option (Int × Int) :=
  match sscanf piece memFormat with
  | [.num start, .num stop, .text perm] =>
    if (stack <:+: cString piece ∨ i = 2 ∨ i = 3) ∧ perm.head? = some 'r'.toUInt8 then
      some (start, stop)
    else none
  | _ => none

def hexChar (n : Nat) : UInt8 :=
  if n < 10 then '0'.toUInt8 + UInt8.ofNat n else 'a'.toUInt8 + UInt8.ofNat (n - 10)

/-- `"%.2x "` -/
def byteText (b : UInt8) : List UInt8 := [hexChar (b.toNat / 16), hexChar (b.toNat % 16), space]

/-- What is printed after a call of `read` that has returned `n` bytes. -/
def printBytes (mem : Nat → UInt8) (pos n : Nat) : List UInt8 :=
  (List.range n).flatMap fun i =>
    byteText (mem (pos + i)) ++ if (i + 1) % 16 = 0 then [newline] else []

/-- The loop over the calls of `read`: what is printed, and the number of the next call. -/
def printRegion (mem : Nat → UInt8) (sizes : Nat → Nat) (calls pos size : Nat) :
    List UInt8 × Nat :=
  if _hSize : size > 0 then
    let n := min (sizes calls) (if size > BUFSIZ then BUFSIZ else size)
    if _hn : n = 0 then ([], calls + 1)
    else
      let rest := printRegion mem sizes (calls + 1) (pos + n) (size - n)
      (printBytes mem pos n ++ rest.1, rest.2)
  else ([], calls)
termination_by size
decreasing_by
  show size - n < size
  omega

/-- `size = end - start` -/
def regionSize (r : Int × Int) : Nat := ((r.2 - r.1) % 2 ^ 64).toNat

/-- The pieces from number `i + 1` on. -/
def printPieces (mem : Nat → UInt8) (sizes : Nat → Nat) (calls i : Nat) :
    List (List UInt8) → List UInt8
  | [] => []
  | piece :: rest =>
    match selected (i + 1) piece with
    | none => printPieces mem sizes calls (i + 1) rest
    | some r =>
      let region := printRegion mem sizes calls r.1.toNat (regionSize r)
      region.1 ++ newline :: printPieces mem sizes region.2 (i + 1) rest

def printMem (mem : Nat → UInt8) (sizes : Nat → Nat) (text : List UInt8) : List UInt8 :=
  printPieces mem sizes 0 0 (pieces 255 text)

/-! ## What is printed of a region -/

/-- The bytes of a region as they are printed, without the newlines. -/
def regionText (mem : Nat → UInt8) (pos size : Nat) : List UInt8 :=
  (List.range size).flatMap fun i => byteText (mem (pos + i))

/-- What is printed without the newlines. -/
def unwrapped (text : List UInt8) : List UInt8 := text.filter (· ≠ newline)

theorem hexChar_ne {n : Nat} (h : n < 16) : hexChar n ≠ newline := by
  have hTable : ∀ k < 16, hexChar k ≠ newline := by decide
  exact hTable n h

theorem unwrapped_byteText (b : UInt8) : unwrapped (byteText b) = byteText b := by
  have hHigh := hexChar_ne (show b.toNat / 16 < 16 by have := b.toNat_lt; omega)
  have hLow := hexChar_ne (show b.toNat % 16 < 16 by omega)
  have hSpace : space ≠ newline := by decide
  simp [unwrapped, byteText, hHigh, hLow, hSpace]

theorem unwrapped_append (xs ys : List UInt8) :
    unwrapped (xs ++ ys) = unwrapped xs ++ unwrapped ys := List.filter_append ..

theorem unwrapped_printBytes (mem : Nat → UInt8) (pos n : Nat) :
    unwrapped (printBytes mem pos n) = regionText mem pos n := by
  induction n with
  | zero => rfl
  | succ n ih =>
    have hEnd : unwrapped (if (n + 1) % 16 = 0 then [newline] else []) = [] := by
      split
      · rfl
      · rfl
    rw [printBytes, regionText, List.range_succ, List.flatMap_append, unwrapped_append,
      List.flatMap_append]
    simp only [List.flatMap_singleton, unwrapped_append, unwrapped_byteText, hEnd, List.append_nil]
    exact congrArg (· ++ byteText (mem (pos + n))) ih

/-- Whatever sizes the reads return, as long as they are positive. -/
theorem unwrapped_printRegion {mem : Nat → UInt8} {sizes : Nat → Nat} (hSizes : ∀ k, 0 < sizes k)
    (calls pos size : Nat) :
    unwrapped (printRegion mem sizes calls pos size).1 = regionText mem pos size := by
  induction size using Nat.strongRecOn generalizing calls pos with
  | ind size ih =>
    rw [printRegion]
    by_cases hSize : size > 0
    · rw [dif_pos hSize]
      dsimp only
      have hPos := hSizes calls
      generalize hn : min (sizes calls) (if size > BUFSIZ then BUFSIZ else size) = n
      have hBounds : 0 < n ∧ n ≤ size := by
        have hBufsiz : 0 < BUFSIZ := by decide
        split at hn <;> omega
      rw [dif_neg (by omega), unwrapped_append, unwrapped_printBytes, ih (size - n) (by omega)]
      obtain ⟨m, rfl⟩ : ∃ m, size = n + m := ⟨size - n, by omega⟩
      rw [Nat.add_sub_cancel_left, regionText, regionText, regionText, List.range_add,
        List.flatMap_append, List.flatMap_map]
      simp only [Nat.add_assoc]
    · obtain rfl : size = 0 := by omega
      rw [dif_neg hSize]
      rfl

/-! ## The regions that are printed -/

def regions (i : Nat) : List (List UInt8) → List (Int × Int)
  | [] => []
  | piece :: rest => (selected (i + 1) piece).toList ++ regions (i + 1) rest

theorem unwrapped_printPieces {mem : Nat → UInt8} {sizes : Nat → Nat} (hSizes : ∀ k, 0 < sizes k)
    (calls i : Nat) (ps : List (List UInt8)) :
    unwrapped (printPieces mem sizes calls i ps) =
      (regions i ps).flatMap fun r => regionText mem r.1.toNat (regionSize r) := by
  induction ps generalizing calls i with
  | nil => rfl
  | cons piece rest ih =>
    rw [printPieces, regions]
    cases selected (i + 1) piece with
    | none => exact ih calls (i + 1)
    | some r =>
      dsimp only
      rw [unwrapped_append, unwrapped_printRegion hSizes]
      show _ ++ unwrapped (printPieces mem sizes _ (i + 1) rest) = _
      rw [ih]
      rfl

namespace MapsLine

def Readable (l : MapsLine) : Prop := l.perms.head? = some 'r'.toUInt8

/-- As the kernel prints a line: the permissions begin with `r` or `-`, and there is no zero byte
in the text. -/
structure Printed (l : MapsLine) : Prop where
  le : l.start ≤ l.stop
  perms : l.perms.head? = some 'r'.toUInt8 ∨ l.perms.head? = some '-'.toUInt8
  text : 0 ∉ l.text

instance (l : MapsLine) : Decidable l.Readable := inferInstanceAs (Decidable (_ = _))

/-- Whether line number `i` is to be printed. -/
def Meant (i : Nat) (l : MapsLine) : Prop := (l.name = stack ∨ i = 2 ∨ i = 3) ∧ l.Readable

instance (i : Nat) (l : MapsLine) : Decidable (l.Meant i) := inferInstanceAs (Decidable (_ ∧ _))

end MapsLine

/-- The lines that should be printed, from number `i + 1` on. -/
def meant (i : Nat) : List MapsLine → List MapsLine
  | [] => []
  | l :: rest => (if l.Meant (i + 1) then [l] else []) ++ meant (i + 1) rest

def MapsLine.range (l : MapsLine) : Int × Int := (l.start, l.stop)

theorem MapsLine.regionSize_range {l : MapsLine} (h : l.Printed) :
    regionSize l.range = l.size := by
  have hLe := h.le
  have hLt : l.stop < 2 ^ 64 := l.hHigh.hexValue_lt
  simp only [regionSize, range, size]
  omega

/-- The first byte of the word that `%4s` reads. -/
theorem convert_head {b : UInt8} (hb : isSpace b = false) (tail : List UInt8) :
    ∃ word, convert (skipSpace (space :: b :: tail)) (.s 4) =
        some (.text word, (b :: tail).drop word.length) ∧ word.head? = some b := by
  have hSkip : skipSpace (space :: b :: tail) = b :: tail := by
    show skipSpace (b :: tail) = _
    exact skipSpace_cons hb
  have hWord : (((b :: tail).takeWhile fun c => !isSpace c).take 4) =
      b :: (tail.takeWhile fun c => !isSpace c).take 3 := by
    rw [List.takeWhile_cons_of_pos (by rw [hb]; rfl)]
    rfl
  have hAgain : skipSpace (b :: tail) = b :: tail := skipSpace_cons hb
  refine ⟨b :: (tail.takeWhile fun c => !isSpace c).take 3, ?_, rfl⟩
  rw [hSkip, convert, hAgain, hWord]
  exact if_neg (List.cons_ne_nil _ _)

/-- What `fgets` stores of a line at first. -/
def MapsLine.firstPiece (l : MapsLine) : List UInt8 := l.line.take 255

theorem MapsLine.cString_firstPiece {l : MapsLine} (h : l.Printed) :
    cString l.firstPiece = l.firstPiece := by
  rw [cString, List.takeWhile_eq_self_iff]
  intro b hb
  apply decide_eq_true
  rintro rfl
  have hLine : (0 : UInt8) ∈ l.text ++ [newline] := List.mem_of_mem_take hb
  rw [List.mem_append, List.mem_singleton] at hLine
  rcases hLine with hText | hNewline
  · exact h.text hText
  · exact absurd hNewline (by decide)

/-- The addresses and the first of the permissions stand in the first piece. -/
theorem MapsLine.firstPiece_eq {l : MapsLine} (h : l.Printed) :
    ∃ b tail, isSpace b = false ∧ l.perms.head? = some b ∧
      l.firstPiece = l.low ++ dash :: (l.high ++ space :: b :: tail) := by
  obtain ⟨b, perms, hPerms⟩ := List.exists_cons_of_ne_nil l.hPerms.nonempty
  have hb : isSpace b = false := by
    have hFirst := h.perms
    rw [hPerms] at hFirst
    rcases hFirst with hFirst | hFirst
    · cases hFirst
      rfl
    · cases hFirst
      rfl
  have hLow := l.hLow.short
  have hHigh := l.hHigh.short
  have hSplit : l.line = (l.low ++ dash :: (l.high ++ [space, b])) ++
      (perms ++ space :: (l.offset ++ space :: (l.dev ++ space :: (l.inode ++
        (List.replicate (l.gap + 1) space ++ (l.name ++ [newline])))))) := by
    simp only [MapsLine.line, MapsLine.text, MapsLine.fields, hPerms, List.append_assoc,
      List.cons_append, List.nil_append]
  have hShort : (l.low ++ dash :: (l.high ++ [space, b])).length ≤ 255 := by
    simp only [List.length_append, List.length_cons, List.length_nil]
    omega
  rw [firstPiece, hSplit, List.take_append, List.take_of_length_le hShort]
  generalize List.take _ _ = tail
  refine ⟨b, tail, hb, by rw [hPerms]; rfl, ?_⟩
  rw [List.append_assoc, List.cons_append, List.append_assoc]
  rfl

/-- A line is selected by its number or by what its first piece contains. -/
theorem selected_line {l : MapsLine} (h : l.Printed) (i : Nat) :
    selected i l.firstPiece =
      if (stack <:+: l.firstPiece ∨ i = 2 ∨ i = 3) ∧ l.Readable then some l.range else none := by
  obtain ⟨b, tail, hb, hFirst, hPiece⟩ := MapsLine.firstPiece_eq h
  obtain ⟨word, hWord, hHead⟩ := convert_head hb tail
  have hScan : sscanf l.firstPiece memFormat = [.num l.start, .num l.stop, .text word] := by
    rw [sscanf, MapsLine.cString_firstPiece h, hPiece]
    simp only [memFormat, scan, convert, convNumber_low, convNumber_high, if_true]
    have hText := hWord
    simp only [convert] at hText
    rw [hText]
  rw [selected, hScan, MapsLine.cString_firstPiece h]
  dsimp only
  rw [hHead, ← hFirst]
  exact if_congr Iff.rfl rfl rfl

/-- The line begins with a piece that has `[stack]` in it and is readable, but it is not one of
those that are meant. -/
def FalseStack (i : Nat) (l : MapsLine) : Prop :=
  stack <:+: l.firstPiece ∧ l.Readable ∧ ¬ l.Meant i

theorem stack_of_name {l : MapsLine} (hShort : l.line.length ≤ 255) (h : l.name = stack) :
    stack <:+: l.firstPiece := by
  rw [MapsLine.firstPiece, List.take_of_length_le hShort]
  refine ⟨l.fields ++ List.replicate (l.gap + 1) space, [newline], ?_⟩
  rw [MapsLine.line, MapsLine.text, h]
  simp only [List.append_assoc]

/-- A line that is meant is selected, and otherwise only one that is taken for the stack. -/
theorem selected_cases {l : MapsLine} (h : l.Printed)
    (hShort : l.name = stack → l.line.length ≤ 255) (i : Nat) :
    (selected i l.firstPiece).toList = (if l.Meant i then [l] else []).map MapsLine.range ∧
        ¬ FalseStack i l ∨
      (selected i l.firstPiece).toList = [l.range] ∧ ¬ l.Meant i ∧ FalseStack i l := by
  rw [selected_line h]
  by_cases hMeant : l.Meant i
  · left
    have hBoth : (stack <:+: l.firstPiece ∨ i = 2 ∨ i = 3) ∧ l.Readable :=
      ⟨hMeant.1.imp_left fun hName => stack_of_name (hShort hName) hName, hMeant.2⟩
    rw [if_pos hBoth, if_pos hMeant]
    exact ⟨rfl, fun hFalse => hFalse.2.2 hMeant⟩
  · by_cases hFalse : FalseStack i l
    · right
      rw [if_pos ⟨Or.inl hFalse.1, hFalse.2.1⟩]
      exact ⟨rfl, hMeant, hFalse⟩
    · left
      rw [if_neg, if_neg hMeant]
      · exact ⟨rfl, hFalse⟩
      · rintro ⟨hStack | hNumber, hReadable⟩
        · exact hFalse ⟨hStack, hReadable, hMeant⟩
        · exact hMeant ⟨Or.inr hNumber, hReadable⟩

/-! ## The further pieces of long lines -/

/-- From the fourth piece on the number does not matter. -/
theorem selected_late {i : Nat} (hi : 3 < i) (piece : List UInt8) :
    selected i piece = selected 0 piece := by
  have hLate : ¬ i = 2 ∧ ¬ i = 3 := by omega
  simp only [selected, hLate.1, hLate.2, show ¬ (0 : Nat) = 2 by decide,
    show ¬ (0 : Nat) = 3 by decide]

theorem regions_further {i : Nat} {further : List (List UInt8)} (hi : further = [] ∨ 3 ≤ i)
    (hNone : ∀ piece ∈ further, selected 0 piece = none) (ps : List (List UInt8)) :
    regions i (further ++ ps) = regions (i + further.length) ps := by
  induction further generalizing i with
  | nil => rfl
  | cons piece rest ih =>
    have hLate : 3 ≤ i := hi.resolve_left (List.cons_ne_nil _ _)
    rw [List.cons_append, regions, selected_late (Nat.lt_succ_of_le hLate),
      hNone piece List.mem_cons_self,
      ih (Or.inr (Nat.le_succ_of_le hLate)) fun p hp => hNone p (List.mem_cons_of_mem _ hp),
      List.length_cons, ← Nat.add_assoc, Nat.succ_eq_add_one, Nat.add_right_comm]
    rfl

/-- The lines from number `j + 1` on: up to the third, and where they are named `[stack]`, they
come in one piece, and none of the further pieces of the others is selected. -/
structure Counted (j : Nat) (lines : List MapsLine) : Prop where
  printed : ∀ l ∈ lines, l.Printed
  early : ∀ k l, lines[k]? = some l → j + k < 3 → l.line.length ≤ 255
  stack : ∀ l ∈ lines, l.name = stack → l.line.length ≤ 255
  further : ∀ l ∈ lines, ∀ piece ∈ pieces 255 (l.line.drop 255), selected 0 piece = none

theorem Counted.rest {j : Nat} {l : MapsLine} {rest : List MapsLine} (h : Counted j (l :: rest)) :
    Counted (j + 1) rest := by
  refine ⟨fun m hm => h.printed m (List.mem_cons_of_mem _ hm), fun k m hm hEarly => ?_,
    fun m hm => h.stack m (List.mem_cons_of_mem _ hm),
    fun m hm => h.further m (List.mem_cons_of_mem _ hm)⟩
  exact h.early (k + 1) m hm (by omega)

/-- Piece number `i + 1` is the beginning of line number `j + 1`. -/
theorem Counted.regions_cons {i j : Nat} {l : MapsLine} {rest : List MapsLine}
    (h : Counted j (l :: rest)) (hIndex : i = j ∨ 3 ≤ i ∧ 3 ≤ j) :
    ∃ i', (i' = j + 1 ∨ 3 ≤ i' ∧ 3 ≤ j + 1) ∧
      regions i (pieces 255 (mapsText (l :: rest))) =
        (selected (j + 1) l.firstPiece).toList ++ regions i' (pieces 255 (mapsText rest)) := by
  have hFurther : pieces 255 (l.line.drop 255) = [] ∨ 3 ≤ j := by
    refine (Nat.lt_or_ge j 3).imp_left fun hEarly => ?_
    rw [List.drop_eq_nil_of_le (h.early 0 l rfl hEarly), pieces_nil]
  have hLate : pieces 255 (l.line.drop 255) = [] ∨ 3 ≤ i + 1 := by
    refine hFurther.imp_right fun hj => ?_
    omega
  have hSame : selected (i + 1) l.firstPiece = selected (j + 1) l.firstPiece := by
    rcases hIndex with rfl | ⟨hi, hj⟩
    · rfl
    · rw [selected_late (Nat.lt_succ_of_le hi), selected_late (Nat.lt_succ_of_le hj)]
  refine ⟨i + 1 + (pieces 255 (l.line.drop 255)).length, ?_, ?_⟩
  · rcases hFurther with hNone | hj
    · rw [hNone, List.length_nil]
      omega
    · omega
  · rw [pieces_mapsText (by decide), List.flatMap_cons, ← pieces_mapsText (by decide),
      pieces_mapsLine (by decide), List.cons_append, regions,
      regions_further hLate (h.further l List.mem_cons_self), ← MapsLine.firstPiece, hSame]

theorem Counted.length_meant_le {i j : Nat} {lines : List MapsLine} (h : Counted j lines)
    (hIndex : i = j ∨ 3 ≤ i ∧ 3 ≤ j) :
    (meant j lines).length ≤ (regions i (pieces 255 (mapsText lines))).length := by
  induction lines generalizing i j with
  | nil => exact Nat.zero_le _
  | cons l rest ih =>
    obtain ⟨i', hIndex', hRegions⟩ := h.regions_cons hIndex
    have hRest := ih h.rest hIndex'
    rw [meant, hRegions, List.length_append, List.length_append]
    rcases selected_cases (h.printed l List.mem_cons_self) (h.stack l List.mem_cons_self) (j + 1)
      with ⟨hSame, -⟩ | ⟨hMore, hNot, -⟩
    · rw [hSame, List.length_map]
      omega
    · rw [hMore, if_neg hNot, List.length_nil]
      omega

theorem Counted.regions_eq_meant_iff {i j : Nat} {lines : List MapsLine} (h : Counted j lines)
    (hIndex : i = j ∨ 3 ≤ i ∧ 3 ≤ j) :
    regions i (pieces 255 (mapsText lines)) = (meant j lines).map MapsLine.range ↔
      ∀ k l, lines[k]? = some l → ¬ FalseStack (j + k + 1) l := by
  induction lines generalizing i j with
  | nil =>
    refine iff_of_true ?_ nofun
    rw [show mapsText [] = [] from rfl, pieces_nil]
    rfl
  | cons l rest ih =>
    obtain ⟨i', hIndex', hRegions⟩ := h.regions_cons hIndex
    have hSplit : (∀ k m, (l :: rest)[k]? = some m → ¬ FalseStack (j + k + 1) m) ↔
        ¬ FalseStack (j + 1) l ∧
          ∀ k m, rest[k]? = some m → ¬ FalseStack (j + 1 + k + 1) m := by
      constructor
      · intro hAll
        refine ⟨hAll 0 l rfl, fun k m hm => ?_⟩
        have hNext := hAll (k + 1) m hm
        rwa [show j + (k + 1) + 1 = j + 1 + k + 1 by omega] at hNext
      · rintro ⟨hFirst, hRest⟩ k m hm
        cases k with
        | zero =>
          cases hm
          exact hFirst
        | succ k =>
          rw [show j + (k + 1) + 1 = j + 1 + k + 1 by omega]
          exact hRest k m hm
    rw [hSplit, ← ih h.rest hIndex', hRegions, meant, List.map_append]
    rcases selected_cases (h.printed l List.mem_cons_self) (h.stack l List.mem_cons_self) (j + 1)
      with ⟨hSame, hNot⟩ | ⟨hMore, hNot, hFalse⟩
    · rw [hSame, List.append_cancel_left_eq]
      exact (and_iff_right hNot).symm
    · rw [hMore, if_neg hNot]
      refine iff_of_false (fun hEq => ?_) fun hBoth => hBoth.1 hFalse
      have hLength := congrArg List.length hEq
      have hLe := h.rest.length_meant_le hIndex'
      rw [List.singleton_append, List.length_cons, List.map_nil, List.nil_append,
        List.length_map] at hLength
      omega

theorem mem_of_mem_meant {i : Nat} {lines : List MapsLine} {l : MapsLine} (h : l ∈ meant i lines) :
    l ∈ lines := by
  induction lines generalizing i with
  | nil => exact h
  | cons m rest ih =>
    rw [meant, List.mem_append] at h
    rcases h with hFirst | hRest
    · split at hFirst
      · rw [List.mem_singleton.mp hFirst]
        exact List.mem_cons_self
      · cases hFirst
    · exact List.mem_cons_of_mem _ (ih hRest)

/-- If the lines up to the third and those named `[stack]` are no longer than 255 bytes, and none
of the further pieces of the others is selected: the regions that are meant are printed, with all
their bytes and whatever positive sizes the reads return, if and only if no other readable line
has `[stack]` in its first piece. -/
theorem printMem_iff {lines : List MapsLine} (hCounted : Counted 0 lines) :
    (regions 0 (pieces 255 (mapsText lines)) = (meant 0 lines).map MapsLine.range ∧
      ∀ (mem : Nat → UInt8) (sizes : Nat → Nat), (∀ k, 0 < sizes k) →
        unwrapped (printMem mem sizes (mapsText lines)) =
          (meant 0 lines).flatMap fun l => regionText mem l.start l.size) ↔
      ∀ k l, lines[k]? = some l → ¬ FalseStack (k + 1) l := by
  have hIff := hCounted.regions_eq_meant_iff (Or.inl rfl)
  simp only [Nat.zero_add] at hIff
  rw [← hIff]
  refine and_iff_left_of_imp fun hRegions mem sizes hSizes => ?_
  rw [printMem, unwrapped_printPieces hSizes, hRegions, List.flatMap_map]
  apply List.flatMap_congr
  intro l hl
  rw [MapsLine.regionSize_range (hCounted.printed l (mem_of_mem_meant hl))]
  rfl

theorem printed_onePage : onePage.Printed := ⟨by decide, Or.inl rfl, by decide⟩

/-- A line that comes in two pieces. -/
def longFirst : MapsLine :=
  { onePage with name := List.replicate 300 'z'.toUInt8, hName := ⟨by decide, by decide +kernel⟩ }

theorem pieces_longFirst :
    pieces 255 (longFirst.line.drop 255) = [longFirst.line.drop 255] := by
  have hDrop : longFirst.line.drop 255 = List.replicate 63 'z'.toUInt8 ++ ['\n'.toUInt8] := by
    decide +kernel
  rw [hDrop, pieces_of_line (by decide) (by decide), List.drop_eq_nil_of_le (by decide),
    pieces_nil]
  rfl

/-- The fourth line comes in two pieces. -/
theorem printMem_long_last :
    unwrapped (printMem (fun _ => 0) (fun _ => 5)
      (mapsText [onePage, onePage, onePage, longFirst])) =
      regionText (fun _ => 0) 4096 4096 ++ regionText (fun _ => 0) 4096 4096 := by
  have hOnly : ∀ l ∈ [onePage, onePage, onePage, longFirst], l = onePage ∨ l = longFirst := by
    intro l hl
    simpa using hl
  have hShort : onePage.line.length ≤ 255 := by decide
  have hCounted : Counted 0 [onePage, onePage, onePage, longFirst] := by
    refine ⟨fun l hl => ?_, fun k l hl hEarly => ?_, fun l hl hName => ?_, fun l hl piece hp => ?_⟩
    · rcases hOnly l hl with rfl | rfl
      · exact printed_onePage
      · exact ⟨by decide, Or.inl rfl, by decide +kernel⟩
    · match k, hl, hEarly with
      | 0, rfl, _ | 1, rfl, _ | 2, rfl, _ => exact hShort
    · rcases hOnly l hl with rfl | rfl
      · exact hShort
      · exact absurd hName (by decide +kernel)
    · rcases hOnly l hl with rfl | rfl
      · rw [List.drop_eq_nil_of_le hShort, pieces_nil] at hp
        cases hp
      · rw [pieces_longFirst, List.mem_singleton] at hp
        rw [hp]
        decide +kernel
  have hNoStack : ∀ k l, [onePage, onePage, onePage, longFirst][k]? = some l →
      ¬ FalseStack (k + 1) l := by
    rintro k l hl ⟨hStack, -, -⟩
    rcases hOnly l (List.mem_of_getElem? hl) with rfl | rfl
    · exact absurd hStack (by decide)
    · exact absurd hStack (by decide +kernel)
  have hMeant : meant 0 [onePage, onePage, onePage, longFirst] = [onePage, onePage] := rfl
  have hStart : onePage.start = 4096 := by decide
  have hSize : onePage.size = 4096 := by decide
  rw [((printMem_iff hCounted).mpr hNoStack).2 _ _ fun _ => by decide, hMeant, List.flatMap_cons,
    List.flatMap_singleton, hStart, hSize]

/-- The third line is piece number 4 and is not printed. -/
theorem printMem_long_first :
    regions 0 (pieces 255 (mapsText [longFirst, onePage, onePage])) = [(4096, 8192)] ∧
      (meant 0 [longFirst, onePage, onePage]).map MapsLine.range =
        [(4096, 8192), (4096, 8192)] := by
  have hShort : pieces 255 onePage.line = [onePage.line] := by
    rw [pieces_mapsLine (by decide), List.drop_eq_nil_of_le (by decide), pieces_nil]
    rfl
  rw [pieces_mapsText (by decide)]
  simp only [List.flatMap_cons, List.flatMap_nil, hShort, pieces_mapsLine (show 255 ≠ 0 by decide)
    longFirst, pieces_longFirst]
  constructor
  · decide +kernel
  · decide +kernel

end OsLabs.Proc
