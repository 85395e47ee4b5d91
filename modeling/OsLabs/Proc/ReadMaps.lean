import Mathlib.Algebra.BigOperators.Ring.Finset
import Mathlib.Algebra.Order.BigOperators.Group.List
import Mathlib.Algebra.Order.Group.Nat
import OsLabs.Proc.MapsPieces
import OsLabs.Proc.PagemapInfo

/-!
# The totals of the mappings (`lab_proc/main.c`, `read_maps`)

The file is read with `fgets` into a buffer of 4096 bytes, and the result of `sscanf` is not
tested. A line of more than 4095 bytes comes in several pieces. What stands in the later ones is
the rest of a name, and `sscanf` finds two addresses there, or one, or none, in which case the
pointers keep their values and the range of the line is added once more.

The differences and sums of 64-bit integers wrap. `st` and `end` are not initialised.
-/

namespace OsLabs.Proc

open Stdio

/-- The variables `st` and `end`. -/
structure Range where
  st : Int
  stop : Int
deriving DecidableEq

/-- `"%p-%p"` -/
def rangeFormat : List Directive := [.conv .p, .literal dash, .conv .p]

/-- `sscanf(buffer, "%p-%p", &st, &end)` -/
def scanRange (r : Range) (piece : List UInt8) : Range :=
  match sscanf piece rangeFormat with
  | [.num st, .num stop] => ⟨st, stop⟩
  | [.num st] => { r with st := st }
  | _ => r

/-- `end - st` -/
def Range.diff (r : Range) : Int := (r.stop - r.st).bmod (2 ^ 64)

/-- `rows` are the number of pages and the text that are printed for every piece. -/
structure ReadMaps where
  range : Range
  sumPages : Int
  sum : Int
  rows : List (Int × List UInt8)

def readPiece (page : Nat) (s : ReadMaps) (piece : List UInt8) : ReadMaps :=
  let range := scanRange s.range piece
  { range := range
    sumPages := (s.sumPages + range.diff.tdiv page).bmod (2 ^ 64)
    sum := (s.sum + range.diff).bmod (2 ^ 64)
    rows := s.rows ++ [(range.diff.tdiv page, cString piece)] }

/-- `garbage` is what `st` and `end` are at first. -/
def readMaps (page : Nat) (garbage : Range) (text : List UInt8) : ReadMaps :=
  (pieces 4095 text).foldl (readPiece page) ⟨garbage, 0, 0, []⟩

/-! ## The ranges that are added up -/

/-- The ranges after each of the pieces. -/
def ranges : Range → List (List UInt8) → List Range
  | _, [] => []
  | r, piece :: rest => scanRange r piece :: ranges (scanRange r piece) rest

theorem foldl_readPiece (page : Nat) (ps : List (List UInt8)) (s : ReadMaps) (a b : Int)
    (hPages : s.sumPages = a.bmod (2 ^ 64)) (hSum : s.sum = b.bmod (2 ^ 64)) :
    (ps.foldl (readPiece page) s).sumPages =
        (a + ((ranges s.range ps).map fun r => r.diff.tdiv page).sum).bmod (2 ^ 64) ∧
      (ps.foldl (readPiece page) s).sum =
        (b + ((ranges s.range ps).map Range.diff).sum).bmod (2 ^ 64) := by
  induction ps generalizing s a b with
  | nil =>
    simp only [List.foldl_nil, ranges, List.map_nil, List.sum_nil, Int.add_zero]
    exact ⟨hPages, hSum⟩
  | cons piece rest ih =>
    have hNext := ih (readPiece page s piece) (a + (scanRange s.range piece).diff.tdiv page)
      (b + (scanRange s.range piece).diff)
    rw [List.foldl_cons]
    simp only [ranges, List.map_cons, List.sum_cons, ← Int.add_assoc]
    apply hNext
    · rw [readPiece, hPages, Int.bmod_add_bmod]
    · rw [readPiece, hSum, Int.bmod_add_bmod]

/-- The first piece of a line sets both pointers. -/
theorem scanRange_first (l : MapsLine) (r : Range) :
    scanRange r (l.line.take 4095) = ⟨l.start, l.stop⟩ := by
  obtain ⟨tail, hString⟩ := cString_take (show 34 ≤ 4095 by decide) l
  have hScan : sscanf (l.line.take 4095) rangeFormat = [.num l.start, .num l.stop] := by
    rw [sscanf, hString]
    simp only [rangeFormat, scan, convert_p (convNumber_low l _), convert_p (convNumber_high l _),
      if_true]
  rw [scanRange, hScan]

/-- The range of a line, and what its further pieces add. -/
def furtherRanges (l : MapsLine) : List Range :=
  ranges ⟨l.start, l.stop⟩ (pieces 4095 (l.line.drop 4095))

/-- A line that fits into the buffer has no further pieces. -/
theorem furtherRanges_of_short {l : MapsLine} (h : l.line.length ≤ 4095) :
    furtherRanges l = [] := by
  rw [furtherRanges, List.drop_eq_nil_of_le h, pieces_nil]
  rfl

theorem ranges_append (r : Range) (xs ys : List (List UInt8)) :
    ∃ r', ranges r (xs ++ ys) = ranges r xs ++ ranges r' ys := by
  induction xs generalizing r with
  | nil => exact ⟨r, rfl⟩
  | cons piece rest ih =>
    obtain ⟨r', hRest⟩ := ih (scanRange r piece)
    exact ⟨r', by rw [List.cons_append, ranges, hRest]; rfl⟩

theorem ranges_mapsText (r : Range) (lines : List MapsLine) :
    ranges r (pieces 4095 (mapsText lines)) =
      lines.flatMap fun l => ⟨l.start, l.stop⟩ :: furtherRanges l := by
  rw [pieces_mapsText (by decide)]
  induction lines generalizing r with
  | nil => rfl
  | cons l rest ih =>
    obtain ⟨r', hSplit⟩ := ranges_append r (pieces 4095 l.line)
      (rest.flatMap fun l => pieces 4095 l.line)
    rw [List.flatMap_cons, hSplit, ih, pieces_mapsLine (by decide), ranges, scanRange_first,
      List.flatMap_cons]
    rfl

/-! ## The totals -/

def totalSize (lines : List MapsLine) : Nat := (lines.map MapsLine.size).sum

def totalPages (page : Nat) (lines : List MapsLine) : Nat := (lines.map (MapsLine.pages page)).sum

/-- What the further pieces of all lines add. -/
def furtherSum (f : Range → Int) (lines : List MapsLine) : Int :=
  ((lines.flatMap furtherRanges).map f).sum

theorem sum_ranges (f : Range → Int) (lines : List MapsLine) :
    ((lines.flatMap fun l => ⟨l.start, l.stop⟩ :: furtherRanges l).map f).sum =
      (lines.map fun l => f ⟨l.start, l.stop⟩).sum + furtherSum f lines := by
  induction lines with
  | nil => rfl
  | cons l rest ih =>
    simp only [furtherSum, List.flatMap_cons, List.map_append, List.map_cons, List.sum_append,
      List.sum_cons, List.cons_append] at ih ⊢
    omega

theorem bmod_add_eq_iff {a e : Int} (hNonneg : 0 ≤ a) (hLt : a < 2 ^ 63) :
    (a + e).bmod (2 ^ 64) = a ↔ 2 ^ 64 ∣ e := by
  rw [Int.dvd_iff_emod_eq_zero]
  simp only [Int.bmod]
  split
  · omega
  · omega

theorem MapsLine.diff_eq {l : MapsLine} (hLe : l.start ≤ l.stop) (hLt : l.size < 2 ^ 63) :
    Range.diff ⟨l.start, l.stop⟩ = l.size := by
  have hSize : (l.stop : Int) - l.start = l.size := by
    rw [size]
    omega
  have hIff := bmod_add_eq_iff (e := 0) (Int.natCast_nonneg l.size) (by omega)
  rw [Int.add_zero] at hIff
  rw [Range.diff, hSize]
  exact hIff.mpr (Int.dvd_zero _)

theorem size_le_totalSize {lines : List MapsLine} {l : MapsLine} (h : l ∈ lines) :
    l.size ≤ totalSize lines :=
  List.le_sum_of_mem (List.mem_map_of_mem h)

theorem totalPages_le (page : Nat) (lines : List MapsLine) :
    totalPages page lines ≤ totalSize lines := by
  induction lines with
  | nil => exact Nat.le_refl 0
  | cons l rest ih =>
    have hLe : l.pages page ≤ l.size := Nat.div_le_self _ _
    simp only [totalPages, totalSize, List.map_cons, List.sum_cons] at ih ⊢
    omega

variable {page : Nat} {lines : List MapsLine}

/-- The ranges of the lines themselves add up as they should. -/
theorem sum_diff (page : Nat) (hLe : ∀ l ∈ lines, l.start ≤ l.stop)
    (hTotal : totalSize lines < 2 ^ 63) :
    (lines.map fun l => Range.diff ⟨l.start, l.stop⟩).sum = totalSize lines ∧
      (lines.map fun l => (Range.diff ⟨l.start, l.stop⟩).tdiv page).sum =
        totalPages page lines := by
  have hDiff : ∀ l ∈ lines, Range.diff ⟨l.start, l.stop⟩ = (l.size : Int) := fun l hl =>
    l.diff_eq (hLe l hl) (Nat.lt_of_le_of_lt (size_le_totalSize hl) hTotal)
  have hTdiv : ∀ l ∈ lines, (Range.diff ⟨l.start, l.stop⟩).tdiv page = (l.pages page : Int) := by
    intro l hl
    rw [hDiff l hl]
    exact (Int.ofNat_tdiv _ _).symm
  rw [List.map_congr_left hDiff, List.map_congr_left hTdiv]
  constructor
  · rw [totalSize, Nat.cast_list_sum, List.map_map]
    rfl
  · rw [totalPages, Nat.cast_list_sum, List.map_map]
    rfl

theorem readMaps_sums (page : Nat) (garbage : Range) (lines : List MapsLine) :
    (readMaps page garbage (mapsText lines)).sumPages =
        ((lines.map fun l => (Range.diff ⟨l.start, l.stop⟩).tdiv page).sum +
          furtherSum (fun r => r.diff.tdiv page) lines).bmod (2 ^ 64) ∧
      (readMaps page garbage (mapsText lines)).sum =
        ((lines.map fun l => Range.diff ⟨l.start, l.stop⟩).sum +
          furtherSum Range.diff lines).bmod (2 ^ 64) := by
  have hFold := foldl_readPiece page (pieces 4095 (mapsText lines)) ⟨garbage, 0, 0, []⟩ 0 0 rfl rfl
  rw [ranges_mapsText, sum_ranges, sum_ranges, Int.zero_add, Int.zero_add] at hFold
  exact hFold

/-- The numbers of pages that `fprintf_pagemap_info` prints. -/
def printedPages (out : List Out) : List Nat :=
  out.filterMap fun
    | .pages n => some n
    | _ => none

theorem printedPages_printRow (pread : Pread) (libName : List UInt8) (x : Nat × List Out)
    (addr : Nat) : printedPages (printRow page pread libName x addr).2 = printedPages x.2 := by
  unfold printRow
  dsimp only
  split
  · rw [printedPages, List.filterMap_append]
    exact List.append_nil _
  · rfl

theorem printedPages_printMapping (pread : Pread) (x : Nat × List Out) (l : MapsLine) :
    printedPages (printMapping page pread x l).2 = printedPages x.2 ++ [l.pages page] := by
  have hRows (as : List Nat) (x : Nat × List Out) :
      printedPages (as.foldl (printRow page pread l.libName) x).2 = printedPages x.2 := by
    induction as generalizing x with
    | nil => rfl
    | cons a rest ih => rw [List.foldl_cons, ih, printedPages_printRow]
  rw [printMapping, hRows, printedPages, List.filterMap_append]
  rfl

theorem printedPages_foldl (pread : Pread) (x : Nat × List Out) :
    printedPages (lines.foldl (printMapping page pread) x).2 =
      printedPages x.2 ++ lines.map (MapsLine.pages page) := by
  induction lines generalizing x with
  | nil => exact (List.append_nil _).symm
  | cons l rest ih =>
    rw [List.foldl_cons, ih, printedPages_printMapping, List.append_assoc]
    rfl

theorem sum_printedPages {chunks : List (List MapsLine)} (hPage : 0 < page) (pread : Pread)
    {buffer : List UInt8} (hBuffer : buffer.length = BUFSIZ) (hChunks : Chunks page chunks)
    (hCount : chunks.flatten.length ≤ 1000) :
    ∃ s, fprintfPagemapInfo page pread buffer (chunks.map mapsText) = .ok s ∧
      (printedPages s.log.out).sum = totalPages page chunks.flatten := by
  obtain ⟨buffer', -, hRun⟩ := fprintfPagemapInfo_eq hPage pread hBuffer hChunks
  rw [if_pos hCount] at hRun
  refine ⟨_, hRun, ?_⟩
  dsimp only
  rw [printedPages_foldl]
  rfl

/-- The totals are those of the mappings if they fit a `long` and the further pieces of long lines
add nothing. -/
theorem totals_iff_further (garbage : Range) (hLe : ∀ l ∈ lines, l.start ≤ l.stop) :
    (readMaps page garbage (mapsText lines)).sumPages = totalPages page lines ∧
      (readMaps page garbage (mapsText lines)).sum = totalSize lines ↔
    totalSize lines < 2 ^ 63 ∧ 2 ^ 64 ∣ furtherSum (fun r => r.diff.tdiv page) lines ∧
      2 ^ 64 ∣ furtherSum Range.diff lines := by
  obtain ⟨hPages, hSum⟩ := readMaps_sums page garbage lines
  have hBound := totalPages_le page lines
  constructor
  · rintro ⟨hTotalPages, hTotal⟩
    have hLt : totalSize lines < 2 ^ 63 := by
      have hBmod := Int.bmod_lt (x := (lines.map fun l => Range.diff ⟨l.start, l.stop⟩).sum +
        furtherSum Range.diff lines) (m := 2 ^ 64) (by decide)
      rw [← hSum, hTotal] at hBmod
      omega
    obtain ⟨hDiff, hTdiv⟩ := sum_diff page hLe hLt
    rw [hTotalPages, hTdiv] at hPages
    rw [hTotal, hDiff] at hSum
    exact ⟨hLt, (bmod_add_eq_iff (by omega) (by omega)).mp hPages.symm,
      (bmod_add_eq_iff (by omega) (by omega)).mp hSum.symm⟩
  · rintro ⟨hLt, hPagesZero, hZero⟩
    obtain ⟨hDiff, hTdiv⟩ := sum_diff page hLe hLt
    rw [hPages, hSum, hDiff, hTdiv]
    exact ⟨(bmod_add_eq_iff (by omega) (by omega)).mpr hPagesZero,
      (bmod_add_eq_iff (by omega) (by omega)).mpr hZero⟩

/-! ## Long lines -/

/-- Line `l` is read in at most two pieces, and the rest of its name has no address in it. -/
structure PlainRest (l : MapsLine) : Prop where
  two : l.line.length ≤ 8190
  nothing : ∀ piece ∈ pieces 4095 (l.line.drop 4095), sscanf piece rangeFormat = []

/-- The rest of a long line is one piece. -/
theorem pieces_rest {l : MapsLine} (hLong : 4095 < l.line.length) (hTwo : l.line.length ≤ 8190) :
    pieces 4095 (l.line.drop 4095) = [l.line.drop 4095] := by
  have hText : 4095 ≤ l.text.length := by
    rw [MapsLine.line, List.length_append, List.length_singleton] at hLong
    omega
  have hDrop : l.line.drop 4095 = l.text.drop 4095 ++ [newline] :=
    List.drop_append_of_le_length hText
  have hLength : (l.line.drop 4095).length ≤ 4095 := by
    rw [List.length_drop]
    omega
  have hPlain : newline ∉ l.text.drop 4095 := fun hMem =>
    l.newline_not_mem_text (List.mem_of_mem_drop hMem)
  rw [hDrop] at hLength ⊢
  rw [show newline = '\n'.toUInt8 from rfl] at hLength hPlain ⊢
  rw [pieces_of_line (by decide) hPlain, List.take_of_length_le hLength,
    List.drop_eq_nil_of_le hLength, pieces_nil]

/-- The range of a long line is added once more. -/
theorem furtherRanges_of_plain {l : MapsLine} (h : PlainRest l) :
    furtherRanges l = if l.line.length ≤ 4095 then [] else [⟨l.start, l.stop⟩] := by
  split
  · next hShort => exact furtherRanges_of_short hShort
  · next hLong =>
    have hNothing := h.nothing
    rw [pieces_rest (Nat.not_le.mp hLong) h.two] at hNothing
    rw [furtherRanges, pieces_rest (Nat.not_le.mp hLong) h.two, ranges, ranges, scanRange,
      hNothing _ List.mem_cons_self]

theorem furtherSum_of_plain (f : Range → Int) (h : ∀ l ∈ lines, PlainRest l) :
    furtherSum f lines =
      (lines.map fun l => if l.line.length ≤ 4095 then 0 else f ⟨l.start, l.stop⟩).sum := by
  induction lines with
  | nil => rfl
  | cons l rest ih =>
    have hRest := ih fun l' hl => h l' (List.mem_cons_of_mem l hl)
    rw [furtherSum] at hRest ⊢
    rw [List.flatMap_cons, List.map_append, List.sum_append, hRest, List.map_cons, List.sum_cons,
      furtherRanges_of_plain (h l List.mem_cons_self)]
    split
    · rfl
    · simp

/-- If the rests have no addresses in them, only a long line for an empty range does no harm. -/
theorem totals_iff_plain (garbage : Range) (hLe : ∀ l ∈ lines, l.start ≤ l.stop)
    (hPlain : ∀ l ∈ lines, PlainRest l) :
    (readMaps page garbage (mapsText lines)).sumPages = totalPages page lines ∧
      (readMaps page garbage (mapsText lines)).sum = totalSize lines ↔
    totalSize lines < 2 ^ 63 ∧ ∀ l ∈ lines, 0 < l.size → l.line.length ≤ 4095 := by
  rw [totals_iff_further garbage hLe, furtherSum_of_plain _ hPlain, furtherSum_of_plain _ hPlain]
  refine and_congr_right fun hLt => ?_
  have hDiff : ∀ l ∈ lines, Range.diff ⟨l.start, l.stop⟩ = (l.size : Int) := fun l hl =>
    l.diff_eq (hLe l hl) (Nat.lt_of_le_of_lt (size_le_totalSize hl) hLt)
  constructor
  · rintro ⟨-, hZero⟩ l hl hPos
    have hCast : (lines.map fun l =>
        if l.line.length ≤ 4095 then 0 else Range.diff ⟨l.start, l.stop⟩).sum =
        ((lines.map fun l => if l.line.length ≤ 4095 then 0 else l.size).sum : Nat) := by
      rw [Nat.cast_list_sum, List.map_map]
      refine congrArg List.sum (List.map_congr_left fun l hl => ?_)
      rw [hDiff l hl]
      show _ = ((if _ then _ else _ : Nat) : Int)
      split
      · rfl
      · rfl
    have hAtMost : (lines.map fun l => if l.line.length ≤ 4095 then 0 else l.size).sum ≤
        totalSize lines := by
      apply List.sum_le_sum
      intro l _
      split
      · exact Nat.zero_le _
      · exact Nat.le_refl _
    have hMem := List.le_sum_of_mem
      (List.mem_map_of_mem (f := fun l => if l.line.length ≤ 4095 then 0 else l.size) hl)
    rw [hCast] at hZero
    by_contra hLong
    rw [if_neg hLong] at hMem
    omega
  · intro hShort
    have hNone (f : Range → Int) (hf : ∀ l ∈ lines, l.size = 0 → f ⟨l.start, l.stop⟩ = 0) :
        (lines.map fun l => if l.line.length ≤ 4095 then 0 else f ⟨l.start, l.stop⟩).sum = 0 := by
      apply List.sum_eq_zero
      intro x hx
      obtain ⟨l, hl, rfl⟩ := List.mem_map.mp hx
      split
      · rfl
      · next hLong => exact hf l hl (Nat.eq_zero_of_not_pos fun hPos => hLong (hShort l hl hPos))
    have hZero : ∀ l ∈ lines, l.size = 0 → Range.diff ⟨l.start, l.stop⟩ = 0 := by
      intro l hl hSize
      rw [hDiff l hl, hSize]
      rfl
    rw [hNone (fun r => r.diff.tdiv page) fun l hl hSize => by rw [hZero l hl hSize, Int.zero_tdiv],
      hNone Range.diff hZero]
    exact ⟨Int.dvd_zero _, Int.dvd_zero _⟩

/-- The totals are those of the mappings if they fit a `long` and no line is too long for the
buffer. A long line whose rest has no address in it makes them wrong, unless its range is empty.
The number of pages is also what `fprintf_pagemap_info` prints for the same text. -/
theorem readMaps_totals (garbage : Range) (hAligned : ∀ l ∈ lines, l.Aligned page) :
    (totalSize lines < 2 ^ 63 → (∀ l ∈ lines, l.line.length ≤ 4095) →
      (readMaps page garbage (mapsText lines)).sumPages = totalPages page lines ∧
        (readMaps page garbage (mapsText lines)).sum = totalSize lines) ∧
    ((∀ l ∈ lines, PlainRest l) →
      ((readMaps page garbage (mapsText lines)).sumPages = totalPages page lines ∧
        (readMaps page garbage (mapsText lines)).sum = totalSize lines ↔
      totalSize lines < 2 ^ 63 ∧ ∀ l ∈ lines, 0 < l.size → l.line.length ≤ 4095)) ∧
    ∀ (chunks : List (List MapsLine)) (pread : Pread) (buffer : List UInt8),
      chunks.flatten = lines → 0 < page → Chunks page chunks → lines.length ≤ 1000 →
      buffer.length = BUFSIZ →
      ∃ s, fprintfPagemapInfo page pread buffer (chunks.map mapsText) = .ok s ∧
        (printedPages s.log.out).sum = totalPages page lines := by
  have hLe : ∀ l ∈ lines, l.start ≤ l.stop := fun l hl => (hAligned l hl).le
  refine ⟨fun hLt hShort => ?_, totals_iff_plain garbage hLe, ?_⟩
  · refine (totals_iff_plain garbage hLe fun l hl => ⟨?_, fun piece hPiece => ?_⟩).mpr
      ⟨hLt, fun l hl _ => hShort l hl⟩
    · exact Nat.le_trans (hShort l hl) (by decide)
    · rw [List.drop_eq_nil_of_le (hShort l hl), pieces_nil] at hPiece
      cases hPiece
  · rintro chunks pread buffer rfl hPage hChunks hCount hBuffer
    exact sum_printedPages hPage pread hBuffer hChunks hCount

/-- The same range with a name of 4076 bytes; the line just fits. -/
def fullLine : MapsLine :=
  { onePage with name := List.replicate 4076 'z'.toUInt8, hName := ⟨by decide, by decide +kernel⟩ }

theorem readMaps_totals_fullLine :
    (readMaps 4096 ⟨0, 0⟩ (mapsText [onePage, fullLine, onePage])).sumPages = 3 ∧
      (readMaps 4096 ⟨0, 0⟩ (mapsText [onePage, fullLine, onePage])).sum = 12288 ∧
      fullLine.line.length = 4095 := by
  have hAll {P : MapsLine → Prop} (hOne : P onePage) (hFull : P fullLine) :
      ∀ l ∈ [onePage, fullLine, onePage], P l := by
    intro l hl
    simp only [List.mem_cons, List.not_mem_nil, or_false] at hl
    rcases hl with rfl | rfl | rfl
    · exact hOne
    · exact hFull
    · exact hOne
  have hLength : fullLine.line.length = 4095 := by decide +kernel
  obtain ⟨hPages, hSum⟩ := (readMaps_totals ⟨0, 0⟩ (hAll aligned_onePage
    ⟨by decide, by decide, by decide, by decide⟩)).1 (by decide)
    (hAll (by decide) (Nat.le_of_eq hLength))
  exact ⟨hPages, hSum, hLength⟩

/-- The same range with a name of 4090 bytes. -/
def longName : MapsLine :=
  { onePage with name := List.replicate 4090 'z'.toUInt8, hName := ⟨by decide, by decide +kernel⟩ }

/-- The last 13 bytes of the name are a piece of their own, in which `sscanf` finds nothing, and
the range is added twice. -/
theorem readMaps_longName :
    (readMaps 4096 ⟨0, 0⟩ (mapsText [longName])).sumPages = 2 ∧
      (readMaps 4096 ⟨0, 0⟩ (mapsText [longName])).sum = 8192 ∧
      totalPages 4096 [longName] = 1 ∧ totalSize [longName] = 4096 := by
  have hDrop : longName.line.drop 4095 = List.replicate 13 'z'.toUInt8 ++ ['\n'.toUInt8] := by
    decide +kernel
  have hPieces : pieces 4095 (List.replicate 13 'z'.toUInt8 ++ ['\n'.toUInt8]) =
      [List.replicate 13 'z'.toUInt8 ++ ['\n'.toUInt8]] := by
    rw [pieces_of_line (by decide) (by decide), List.drop_eq_nil_of_le (by decide), pieces_nil]
    rfl
  have hFurther : furtherRanges longName = [⟨4096, 8192⟩] := by
    rw [furtherRanges, hDrop, hPieces]
    decide +kernel
  have hSum (f : Range → Int) : furtherSum f [longName] = f ⟨4096, 8192⟩ := by
    rw [furtherSum, List.flatMap_cons, hFurther]
    simp
  obtain ⟨hPages, hTotal⟩ := readMaps_sums 4096 ⟨0, 0⟩ [longName]
  rw [hPages, hTotal, hSum, hSum]
  decide +kernel

end OsLabs.Proc
