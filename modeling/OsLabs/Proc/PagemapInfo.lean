import OsLabs.Proc.ParseLine

/-!
# What `fprintf_pagemap_info` prints

A chunk of complete lines is processed line by line: at the newline of a line its range is printed
and the buffer is as before, at every other byte nothing happens. What is left of earlier chunks
behind the last line is never looked at. Only `buf` has a limit: it is written once for every
line of all chunks together, and the line after the thousandth is written behind it.
-/

namespace OsLabs.Proc

open Memory

variable {page : Nat} {pread : Pread}

/-! ## What is to be printed for a line -/

namespace MapsLine

/-- What `%s` prints of the name, which is all of it unless it has a zero byte. -/
def libName (l : MapsLine) : List UInt8 := l.name.takeWhile (· ≠ 0)

/-- The zero byte that stands for the newline ends the name. -/
theorem libName_behind (l : MapsLine) (post : List UInt8) :
    (l.name ++ 0 :: post).takeWhile (· ≠ 0) = l.libName := by
  unfold libName
  induction l.name with
  | nil => rfl
  | cons b rest ih =>
    rw [List.cons_append, List.takeWhile_cons, List.takeWhile_cons, ih]

/-- The addresses `low`, `low + page` and so on below `high`. -/
def addresses (page : Nat) (l : MapsLine) : List Nat := List.range' l.start (l.pages page) page

/-- The range is as long as its pages. -/
theorem Aligned.stop_eq {l : MapsLine} (h : l.Aligned page) :
    l.stop = l.start + l.pages page * page := by
  have hDvd : page ∣ l.size := Nat.dvd_sub h.stop h.start
  have hLe := h.le
  rw [pages, Nat.div_mul_cancel hDvd, size]
  omega

end MapsLine

/-- The number of pages, and a row for every page whose entry can be read. -/
def printMapping (page : Nat) (pread : Pread) (x : Nat × List Out) (l : MapsLine) :
    Nat × List Out :=
  (l.addresses page).foldl (printRow page pread l.libName) (x.1, x.2 ++ [.pages (l.pages page)])

theorem printRows_eq (hPage : 0 < page) (libName : List UInt8) (n addr : Nat)
    (x : Nat × List Out) (hTop : addr + n * page + page ≤ 2 ^ 64) :
    printRows page pread libName (addr + n * page) addr x =
      .ok ((List.range' addr n page).foldl (printRow page pread libName) x) := by
  induction n generalizing addr x with
  | zero =>
    rw [printRows, if_neg (by omega)]
    rfl
  | succ n ih =>
    rw [Nat.succ_mul] at hTop ⊢
    have hNext : (addr + page) % 2 ^ 64 = addr + page := Nat.mod_eq_of_lt (by omega)
    have hEnd : addr + (n * page + page) = addr + page + n * page := by omega
    rw [printRows, if_pos (by omega)]
    dsimp only
    rw [hNext, if_pos (by omega), hEnd, ih (addr + page) _ (by omega)]
    rfl

/-! ## One byte -/

/-- What a line does to everything but the buffer. -/
def lineStep (page : Nat) (pread : Pread) (log : Log) (l : MapsLine) : Except Fault Log :=
  if log.buf.length < 1000 then
    let x := printMapping page pread (log.calls, log.out) l
    .ok ⟨log.buf ++ [l.pages page], x.1, x.2⟩
  else .error (.buf log.buf.length)

theorem poke_append (before after : List UInt8) (b c : UInt8) :
    poke (before ++ b :: after) before.length c = .ok (before ++ c :: after) := by
  have hInside : before.length < (before ++ b :: after).length := by
    rw [List.length_append, List.length_cons]
    omega
  rw [poke, if_pos hInside, List.set_append_right _ _ (Nat.le_refl _), Nat.sub_self]
  rfl

theorem byteStep_inside {buffer before line tail : List UInt8} {k : Nat}
    (hBuffer : buffer = before ++ (line ++ tail)) (hLine : newline ∉ line)
    (hk : k < line.length) (log : Log) :
    byteStep page pread ⟨buffer, log⟩ (before.length + k) = .ok ⟨buffer, log⟩ := by
  obtain ⟨c, hc, hPeek⟩ := peek_append before tail hk
  have hne : ¬ (c = newline ∧ before.length + k ≠ 0) := fun hBoth => hLine (hBoth.1 ▸ hc)
  rw [← hBuffer] at hPeek
  simp only [byteStep, hPeek, bind, Except.bind, if_neg hne]

theorem byteStep_newline {l : MapsLine} {buffer before post : List UInt8} (hPage : 0 < page)
    (hAligned : l.Aligned page) (hBuffer : buffer = before ++ (l.text ++ newline :: post))
    (hBefore : before = [] ∨ ∃ init, before = init ++ [newline])
    (hInside : before.length + l.text.length < BUFSIZ) (log : Log) :
    byteStep page pread ⟨buffer, log⟩ (before.length + l.text.length) =
      (lineStep page pread log l).map (State.mk buffer) := by
  have hLength : (before ++ l.text).length = before.length + l.text.length := List.length_append
  have hSplit (c : UInt8) : before ++ (l.text ++ c :: post) = (before ++ l.text) ++ c :: post :=
    (List.append_assoc _ _ _).symm
  have hPeek : peek buffer (before.length + l.text.length) = .ok newline := by
    rw [hBuffer, hSplit, ← hLength]
    exact peek_of_drop (List.drop_left)
  have hPos := List.length_pos_of_ne_nil l.text_ne_nil
  have hParse := parseLine_line l post hBefore hInside
  rw [← hBuffer] at hParse
  have hZero : poke buffer (before.length + l.text.length) 0 =
      .ok (before ++ (l.text ++ 0 :: post)) := by
    rw [hBuffer, hSplit, hSplit, ← hLength]
    exact poke_append _ _ _ _
  have hRestore : poke (before ++ (l.text ++ 0 :: post)) (before.length + l.text.length) newline =
      .ok buffer := by
    rw [hBuffer, hSplit, hSplit, ← hLength]
    exact poke_append _ _ _ _
  have hName : ((before ++ (l.text ++ 0 :: post)).drop (before.length + l.namePos)).takeWhile
      (· ≠ 0) = l.libName := by
    have hText : l.text = (l.fields ++ List.replicate (l.gap + 1) space) ++ l.name := by
      rw [MapsLine.text, List.append_assoc]
    have hPrefix : (l.fields ++ List.replicate (l.gap + 1) space).length = l.namePos := by
      rw [List.length_append, List.length_replicate, MapsLine.namePos]
    rw [← List.drop_drop, List.drop_left, hText, List.append_assoc, List.drop_left' hPrefix]
    exact l.libName_behind post
  have hSize : (l.stop + 2 ^ 64 - l.start) % 2 ^ 64 / page = l.pages page := by
    have hLe := hAligned.le
    have hTop := hAligned.top
    have hEq : l.stop + 2 ^ 64 - l.start = l.size + 2 ^ 64 := by
      rw [MapsLine.size]
      omega
    have hLt : l.size < 2 ^ 64 := by
      rw [MapsLine.size]
      omega
    rw [hEq, Nat.add_mod_right, Nat.mod_eq_of_lt hLt, MapsLine.pages]
  have hTop := hAligned.top
  rw [hAligned.stop_eq] at hTop
  have hRows (x : Nat × List Out) : printRows page pread l.libName l.stop l.start x =
      .ok ((l.addresses page).foldl (printRow page pread l.libName) x) := by
    rw [hAligned.stop_eq]
    exact printRows_eq hPage l.libName _ _ x hTop
  simp only [byteStep, hPeek, bind, Except.bind, true_and]
  rw [if_pos (by omega)]
  simp only [hParse, hZero, hName, hSize, hRows, hRestore, lineStep]
  split
  · rfl
  · rfl

/-! ## One chunk -/

theorem foldlM_inside {buffer before line tail : List UInt8}
    (hBuffer : buffer = before ++ (line ++ tail)) (hLine : newline ∉ line) (log : Log) {n : Nat}
    (hn : n ≤ line.length) :
    (List.range' before.length n).foldlM (byteStep page pread) ⟨buffer, log⟩ =
      .ok ⟨buffer, log⟩ := by
  induction n with
  | zero => rfl
  | succ n ih =>
    rw [List.range'_concat, List.foldlM_append, ih (by omega), Nat.one_mul]
    simp only [bind, Except.bind, List.foldlM_cons, List.foldlM_nil]
    rw [byteStep_inside hBuffer hLine (by omega)]
    rfl

theorem foldlM_line {l : MapsLine} {buffer before post : List UInt8} (hPage : 0 < page)
    (hAligned : l.Aligned page) (hBuffer : buffer = before ++ (l.text ++ newline :: post))
    (hBefore : before = [] ∨ ∃ init, before = init ++ [newline])
    (hInside : before.length + l.text.length < BUFSIZ) (log : Log) :
    (List.range' before.length (l.text.length + 1)).foldlM (byteStep page pread) ⟨buffer, log⟩ =
      (lineStep page pread log l).map (State.mk buffer) := by
  rw [List.range'_concat, List.foldlM_append,
    foldlM_inside hBuffer l.newline_not_mem_text log (Nat.le_refl _), Nat.one_mul]
  simp only [bind, Except.bind, List.foldlM_cons, List.foldlM_nil]
  rw [byteStep_newline hPage hAligned hBuffer hBefore hInside]
  cases lineStep page pread log l with
  | error fault => rfl
  | ok log' => rfl

/-- The bytes of some lines, with complete lines before them. -/
theorem foldlM_lines {lines : List MapsLine} {buffer before stale : List UInt8}
    (hPage : 0 < page) (hAligned : ∀ l ∈ lines, l.Aligned page)
    (hBuffer : buffer = before ++ (mapsText lines ++ stale))
    (hBefore : before = [] ∨ ∃ init, before = init ++ [newline])
    (hInside : before.length + (mapsText lines).length ≤ BUFSIZ) (log : Log) :
    (List.range' before.length (mapsText lines).length).foldlM (byteStep page pread)
        ⟨buffer, log⟩ =
      (lines.foldlM (lineStep page pread) log).map (State.mk buffer) := by
  induction lines generalizing before log with
  | nil => rfl
  | cons l rest ih =>
    have hLength : (mapsText (l :: rest)).length = l.text.length + 1 + (mapsText rest).length := by
      rw [mapsText_cons, List.length_append, List.length_cons]
      omega
    have hFirst : buffer = before ++ (l.text ++ newline :: (mapsText rest ++ stale)) := by
      rw [hBuffer, mapsText_cons, List.append_assoc, List.cons_append]
    have hRest : buffer = (before ++ l.text ++ [newline]) ++ (mapsText rest ++ stale) := by
      rw [hFirst, List.append_assoc, List.append_assoc]
      rfl
    have hNext : (before ++ l.text ++ [newline]).length = before.length + (l.text.length + 1) := by
      rw [List.length_append, List.length_append, List.length_singleton, Nat.add_assoc]
    rw [hLength, ← List.range'_append_1, List.foldlM_append, List.foldlM_cons,
      foldlM_line hPage (hAligned l List.mem_cons_self) hFirst hBefore (by omega)]
    cases lineStep page pread log l with
    | error fault => rfl
    | ok log' =>
      rw [← hNext]
      exact ih (fun l hl => hAligned l (List.mem_cons_of_mem _ hl)) hRest (Or.inr ⟨_, rfl⟩)
        (by omega) log'

/-- A chunk that fits stands at the beginning of the buffer, before what was there. -/
theorem loadChunk_eq {s : State} {chunk : List UInt8} (hFits : chunk.length ≤ s.buffer.length) :
    loadChunk s chunk = .ok ⟨chunk ++ s.buffer.drop chunk.length, s.log⟩ := by
  rw [loadChunk, store, if_pos (by omega)]
  simp

theorem readChunk_lines {lines : List MapsLine} {s : State} (hPage : 0 < page)
    (hAligned : ∀ l ∈ lines, l.Aligned page) (hBuffer : s.buffer.length = BUFSIZ)
    (hFits : (mapsText lines).length ≤ BUFSIZ) :
    readChunk page pread s (mapsText lines) =
      (lines.foldlM (lineStep page pread) s.log).map
        (State.mk (mapsText lines ++ s.buffer.drop (mapsText lines).length)) := by
  rw [readChunk, loadChunk_eq (by omega), List.range_eq_range']
  exact foldlM_lines hPage hAligned (List.nil_append _).symm (Or.inl rfl)
    (by rw [List.length_nil]; omega) s.log

/-! ## All chunks -/

/-- The chunks that `read` may return: complete lines, at least one and not too many. -/
def Chunks (page : Nat) (chunks : List (List MapsLine)) : Prop :=
  ∀ lines ∈ chunks, lines ≠ [] ∧ (mapsText lines).length ≤ BUFSIZ ∧ ∀ l ∈ lines, l.Aligned page

theorem readChunks_lines {chunks : List (List MapsLine)} {s : State} (hPage : 0 < page)
    (hChunks : Chunks page chunks) (hBuffer : s.buffer.length = BUFSIZ) :
    ∃ buffer, buffer.length = BUFSIZ ∧
      readChunks page pread s (chunks.map mapsText) =
        (chunks.flatten.foldlM (lineStep page pread) s.log).map (State.mk buffer) := by
  induction chunks generalizing s with
  | nil => exact ⟨s.buffer, hBuffer, rfl⟩
  | cons lines rest ih =>
    obtain ⟨hne, hFits, hAligned⟩ := hChunks lines List.mem_cons_self
    have hRead : readChunk page pread s (mapsText lines) = _ :=
      readChunk_lines hPage hAligned hBuffer hFits
    rw [List.map_cons, readChunks, if_neg (mapsText_ne_nil hne), hRead, List.flatten_cons,
      List.foldlM_append]
    cases lines.foldlM (lineStep page pread) s.log with
    | error fault => exact ⟨s.buffer, hBuffer, rfl⟩
    | ok log =>
      refine ih (fun lines hMem => hChunks lines (List.mem_cons_of_mem _ hMem)) ?_
      rw [List.length_append, List.length_drop]
      omega

/-- All lines together: as long as `buf` has room, everything is printed. -/
theorem foldlM_lineStep (lines : List MapsLine) (log : Log) (hRoom : log.buf.length ≤ 1000) :
    lines.foldlM (lineStep page pread) log =
      if log.buf.length + lines.length ≤ 1000 then
        let x := lines.foldl (printMapping page pread) (log.calls, log.out)
        .ok ⟨log.buf ++ lines.map (MapsLine.pages page), x.1, x.2⟩
      else .error (.buf 1000) := by
  induction lines generalizing log with
  | nil =>
    rw [List.foldlM_nil, List.length_nil, Nat.add_zero, if_pos hRoom, List.map_nil,
      List.append_nil]
    rfl
  | cons l rest ih =>
    rw [List.foldlM_cons, lineStep, List.length_cons]
    by_cases hLess : log.buf.length < 1000
    · rw [if_pos hLess]
      show rest.foldlM (lineStep page pread) _ = _
      rw [ih _ (by rw [List.length_append, List.length_singleton]; omega), List.length_append,
        List.length_singleton, Nat.add_assoc, Nat.add_comm 1, List.append_assoc]
      rfl
    · rw [if_neg hLess, if_neg (by omega)]
      show Except.error _ = Except.error _
      rw [show log.buf.length = 1000 by omega]

/-! ## The buffer after every byte -/

theorem byteStep_keeps {lines : List MapsLine} {s : State} {stale : List UInt8} (hPage : 0 < page)
    (hAligned : ∀ l ∈ lines, l.Aligned page) (hBuffer : s.buffer = mapsText lines ++ stale)
    (hFits : (mapsText lines).length ≤ BUFSIZ) {i : Nat} (hi : i < (mapsText lines).length) :
    ∃ next : Except Fault Log, byteStep page pread s i = next.map (State.mk s.buffer) := by
  obtain ⟨before, l, after, k, rfl, rfl, hk⟩ := mapsText_index hi
  have hSplit : s.buffer =
      mapsText before ++ (l.text ++ newline :: (mapsText after ++ stale)) := by
    rw [hBuffer, mapsText_append, mapsText_cons, List.append_assoc, List.append_assoc,
      List.cons_append]
  have hInside : (mapsText before).length + l.text.length < BUFSIZ := by
    rw [mapsText_append, mapsText_cons, List.length_append, List.length_append,
      List.length_cons] at hFits
    omega
  rcases Nat.lt_or_eq_of_le hk with hLess | rfl
  · exact ⟨.ok s.log, byteStep_inside hSplit l.newline_not_mem_text hLess s.log⟩
  · refine ⟨lineStep page pread s.log l, ?_⟩
    exact byteStep_newline hPage (hAligned l (by simp)) hSplit (mapsText_end before) hInside s.log

theorem foldlM_keeps {lines : List MapsLine} {s : State} {stale : List UInt8} (hPage : 0 < page)
    (hAligned : ∀ l ∈ lines, l.Aligned page) (hBuffer : s.buffer = mapsText lines ++ stale)
    (hFits : (mapsText lines).length ≤ BUFSIZ) {k : Nat} (hk : k ≤ (mapsText lines).length) :
    ∃ next : Except Fault Log,
      (List.range k).foldlM (byteStep page pread) s = next.map (State.mk s.buffer) := by
  induction k with
  | zero => exact ⟨.ok s.log, rfl⟩
  | succ k ih =>
    obtain ⟨next, hNext⟩ := ih (by omega)
    rw [List.range_succ, List.foldlM_append, hNext]
    cases next with
    | error fault => exact ⟨.error fault, rfl⟩
    | ok log =>
      obtain ⟨last, hLast⟩ : ∃ last : Except Fault Log,
          byteStep page pread ⟨s.buffer, log⟩ k = last.map (State.mk s.buffer) :=
        byteStep_keeps (s := ⟨s.buffer, log⟩) hPage hAligned hBuffer hFits (by omega)
      refine ⟨last, ?_⟩
      show [k].foldlM (byteStep page pread) ⟨s.buffer, log⟩ = _
      rw [List.foldlM_cons, hLast]
      cases last with
      | error fault => rfl
      | ok log' => rfl

/-- The first steps of a loop that comes to its end. -/
theorem foldlM_take {σ α : Type} {f : σ → α → Except Fault σ} {xs ys : List α} {s t : σ}
    (h : (xs ++ ys).foldlM f s = .ok t) : ∃ m, xs.foldlM f s = .ok m := by
  rw [List.foldlM_append] at h
  cases hFirst : xs.foldlM f s with
  | error fault =>
    rw [hFirst] at h
    cases h
  | ok m => exact ⟨m, rfl⟩

/-- As long as `buf` has room for all lines of the chunk, the bytes are as before at every
moment of the loop. -/
theorem foldlM_restores {lines : List MapsLine} {s : State} {stale : List UInt8}
    (hPage : 0 < page) (hAligned : ∀ l ∈ lines, l.Aligned page)
    (hBuffer : s.buffer = mapsText lines ++ stale) (hFits : (mapsText lines).length ≤ BUFSIZ)
    (hRoom : s.log.buf.length + lines.length ≤ 1000) {k : Nat}
    (hk : k ≤ (mapsText lines).length) :
    ∃ s', (List.range k).foldlM (byteStep page pread) s = .ok s' ∧ s'.buffer = s.buffer := by
  have hAll : (List.range (mapsText lines).length).foldlM (byteStep page pread) s =
      (lines.foldlM (lineStep page pread) s.log).map (State.mk s.buffer) := by
    rw [List.range_eq_range']
    exact foldlM_lines hPage hAligned (hBuffer.trans (List.nil_append _).symm) (Or.inl rfl)
      (by rw [List.length_nil]; omega) s.log
  rw [foldlM_lineStep _ _ (by omega), if_pos hRoom, List.range_eq_range',
    ← Nat.add_sub_cancel' hk, ← List.range'_append_1, ← List.range_eq_range'] at hAll
  obtain ⟨s', hOk⟩ := foldlM_take hAll
  obtain ⟨next, hNext⟩ : ∃ next : Except Fault Log,
      (List.range k).foldlM (byteStep page pread) s = next.map (State.mk s.buffer) :=
    foldlM_keeps hPage hAligned hBuffer hFits hk
  refine ⟨s', hOk, ?_⟩
  rw [hOk] at hNext
  cases next with
  | error fault => cases hNext
  | ok log =>
    cases hNext
    rfl

/-! ## The main results -/

/-- The whole run, with any number of lines. -/
theorem fprintfPagemapInfo_eq (hPage : 0 < page) (pread : Pread) {buffer : List UInt8}
    (hBuffer : buffer.length = BUFSIZ) {chunks : List (List MapsLine)}
    (hChunks : Chunks page chunks) :
    ∃ buffer', buffer'.length = BUFSIZ ∧
      fprintfPagemapInfo page pread buffer (chunks.map mapsText) =
        if chunks.flatten.length ≤ 1000 then
          let x := chunks.flatten.foldl (printMapping page pread) (0, title)
          .ok ⟨buffer', chunks.flatten.map (MapsLine.pages page), x.1, x.2⟩
        else .error (.buf 1000) := by
  have hStart : (State.mk buffer ⟨[], 0, title⟩).buffer.length = BUFSIZ := hBuffer
  obtain ⟨buffer', hBuffer', hRead⟩ : ∃ buffer' : List UInt8, buffer'.length = BUFSIZ ∧
      readChunks page pread ⟨buffer, [], 0, title⟩ (chunks.map mapsText) = _ :=
    readChunks_lines hPage hChunks hStart
  refine ⟨buffer', hBuffer', ?_⟩
  rw [fprintfPagemapInfo, hRead, foldlM_lineStep _ _ (Nat.zero_le _), List.length_nil,
    Nat.zero_add]
  split
  · rfl
  · rfl

/-- With at most 1000 lines, whatever stands in the buffer at first: the ranges are printed in
order, and the bytes of a chunk are as before after each of them. -/
theorem fprintfPagemapInfo_prints (hPage : 0 < page) (pread : Pread) {buffer : List UInt8}
    (hBuffer : buffer.length = BUFSIZ) {chunks : List (List MapsLine)}
    (hChunks : Chunks page chunks) (hCount : chunks.flatten.length ≤ 1000) :
    (∃ s, fprintfPagemapInfo page pread buffer (chunks.map mapsText) = .ok s ∧
      s.log.out = (chunks.flatten.foldl (printMapping page pread) (0, title)).2) ∧
    ∀ before lines after, chunks = before ++ lines :: after →
      ∃ s₀ s₁, fprintfPagemapInfo page pread buffer (before.map mapsText) = .ok s₀ ∧
        loadChunk s₀ (mapsText lines) = .ok s₁ ∧
        s₁.buffer.take (mapsText lines).length = mapsText lines ∧
        ∀ k, k ≤ (mapsText lines).length →
          ∃ s, (List.range k).foldlM (byteStep page pread) s₁ = .ok s ∧
            s.buffer = s₁.buffer := by
  constructor
  · obtain ⟨buffer', -, hRun⟩ := fprintfPagemapInfo_eq hPage pread hBuffer hChunks
    rw [if_pos hCount] at hRun
    exact ⟨_, hRun, rfl⟩
  · rintro before lines after rfl
    rw [List.flatten_append, List.flatten_cons, List.length_append, List.length_append] at hCount
    have hFirst : Chunks page before := fun ls hMem => hChunks ls (List.mem_append_left _ hMem)
    obtain ⟨-, hFits, hAligned⟩ := hChunks lines (by simp)
    obtain ⟨buffer', hBuffer', hRun⟩ := fprintfPagemapInfo_eq hPage pread hBuffer hFirst
    rw [if_pos (by omega)] at hRun
    refine ⟨_, _, hRun, loadChunk_eq (by rw [hBuffer']; exact hFits), List.take_left, ?_⟩
    intro k hk
    refine foldlM_restores hPage hAligned rfl hFits ?_ hk
    rw [List.length_map]
    omega

/-- Chunks of one line each. -/
theorem chunks_onePage (n : Nat) : Chunks 4096 (List.replicate n [onePage]) := by
  intro lines hMem
  rw [List.eq_of_mem_replicate hMem]
  refine ⟨List.cons_ne_nil _ _, by decide, fun l hl => ?_⟩
  rw [List.mem_singleton] at hl
  rw [hl]
  exact aligned_onePage

theorem flatten_onePage (n : Nat) : (List.replicate n [onePage]).flatten.length = n := by
  simp

/-- A `pagemap` full of zeros. -/
def zeros : Pread := fun _ count _ => List.replicate count 0

theorem pagemapGetEntry_zeros (calls vaddr : Nat) :
    pagemapGetEntry 4096 zeros calls vaddr = (some ⟨0, 0, 0, 0, 0⟩, calls + 1) := by
  have hRead : readData zeros (vaddr / 4096 * 8) calls [] =
      (some (List.replicate 8 0), calls + 1) := by
    rw [readData, dif_pos (by decide), dif_neg (by simp [zeros]), readData,
      dif_neg (by simp [zeros])]
    simp [zeros]
  rw [pagemapGetEntry, hRead]
  rfl

theorem fprintfPagemapInfo_prints_two :
    ∃ s, fprintfPagemapInfo 4096 zeros (List.replicate BUFSIZ 0)
        ((List.replicate 2 [onePage]).map mapsText) = .ok s ∧
      s.log.out = title ++ [.pages 1, .row 4096 ⟨0, 0, 0, 0, 0⟩ ['x'.toUInt8],
        .pages 1, .row 4096 ⟨0, 0, 0, 0, 0⟩ ['x'.toUInt8]] := by
  obtain ⟨s, hRun, hOut⟩ := (fprintfPagemapInfo_prints (by decide) zeros
    List.length_replicate (chunks_onePage 2) (by rw [flatten_onePage]; decide)).1
  refine ⟨s, hRun, hOut.trans ?_⟩
  have hAddresses : onePage.addresses 4096 = [4096] := by decide
  have hPages : onePage.pages 4096 = 1 := by decide
  have hName : onePage.libName = ['x'.toUInt8] := by decide
  simp [printMapping, printRow, hAddresses, hPages, hName, pagemapGetEntry_zeros,
    List.replicate_succ]

/-- No access is outside of the arrays if and only if there are at most 1000 lines. -/
theorem fprintfPagemapInfo_inBounds_iff (hPage : 0 < page) (pread : Pread) {buffer : List UInt8}
    (hBuffer : buffer.length = BUFSIZ) {chunks : List (List MapsLine)}
    (hChunks : Chunks page chunks) :
    (∃ s, fprintfPagemapInfo page pread buffer (chunks.map mapsText) = .ok s) ↔
      chunks.flatten.length ≤ 1000 := by
  obtain ⟨buffer', -, hRun⟩ := fprintfPagemapInfo_eq hPage pread hBuffer hChunks
  rw [hRun]
  by_cases hCount : chunks.flatten.length ≤ 1000
  · rw [if_pos hCount]
    exact iff_of_true ⟨_, rfl⟩ hCount
  · rw [if_neg hCount]
    exact iff_of_false (fun ⟨s, hs⟩ => by cases hs) hCount

theorem fprintfPagemapInfo_inBounds_two :
    ∃ s, fprintfPagemapInfo 4096 zeros (List.replicate BUFSIZ 0)
      ((List.replicate 2 [onePage]).map mapsText) = .ok s := by
  refine (fprintfPagemapInfo_inBounds_iff (by decide) _ List.length_replicate
    (chunks_onePage 2)).mpr ?_
  rw [flatten_onePage]
  decide

/-- The 1001st line is counted in `buf[1000]`. -/
theorem fprintfPagemapInfo_out_of_bounds :
    fprintfPagemapInfo 4096 zeros (List.replicate BUFSIZ 0)
      ((List.replicate 1001 [onePage]).map mapsText) = .error (.buf 1000) := by
  obtain ⟨buffer, -, hRun⟩ := fprintfPagemapInfo_eq (show 0 < 4096 by decide) zeros
    List.length_replicate (chunks_onePage 1001)
  rw [hRun, flatten_onePage]
  rfl

end OsLabs.Proc
