import OsLabs.Proc.Pagemap

/-!
# Scanning a line of `maps`

Every loop of the scanner is followed on what stands in the buffer from its position on. A loop
that runs over `run` stops at the byte behind it, provided this is still inside the buffer, and
what stands from there on is the rest. What stands before the line matters only for the way back
to its beginning, and what stands behind its newline does not matter at all.
-/

namespace OsLabs.Proc

variable {buffer run rest : List UInt8} {c : UInt8} {x : Nat}

/-! ## Positions in the buffer -/

theorem drop_run (h : buffer.drop x = run ++ rest) : buffer.drop (x + run.length) = rest := by
  rw [← List.drop_drop, h, List.drop_left]

theorem drop_one (h : buffer.drop x = c :: rest) : buffer.drop (x + 1) = rest := by
  rw [← List.drop_drop, h]
  rfl

theorem peek_of_drop {rest : List UInt8} (h : buffer.drop x = c :: rest) :
    peek buffer x = .ok c := by
  have hHead : buffer[x]? = some c := by
    rw [← List.head?_drop, h]
    rfl
  rw [peek, hHead]

theorem peek_append (before : List UInt8) {line : List UInt8} (tail : List UInt8) {k : Nat}
    (hk : k < line.length) :
    ∃ c ∈ line, peek (before ++ (line ++ tail)) (before.length + k) = .ok c := by
  refine ⟨line.get ⟨k, hk⟩, List.getElem_mem hk, ?_⟩
  rw [peek, List.getElem?_append_right (Nat.le_add_right _ _), Nat.add_sub_cancel_left,
    List.getElem?_append_left hk, List.getElem?_eq_getElem hk]
  rfl

theorem peek_newline (init tail : List UInt8) :
    peek (init ++ [newline] ++ tail) init.length = .ok newline := by
  have hDrop : (init ++ [newline] ++ tail).drop init.length = newline :: tail := by
    rw [List.append_assoc, List.drop_left]
    rfl
  exact peek_of_drop hDrop

/-! ## The loops -/

theorem skip_stop {p : UInt8 → Bool} (hc : p c = false) : skip p (c :: rest) x = .ok x := by
  rw [skip, if_neg]
  rw [hc]
  exact fun hBoth => Bool.false_ne_true hBoth.1

theorem skip_run {p : UInt8 → Bool} (hRun : ∀ b ∈ run, p b = true) (hc : p c = false)
    (hInside : x + run.length < BUFSIZ) : skip p (run ++ c :: rest) x = .ok (x + run.length) := by
  induction run generalizing x with
  | nil => exact skip_stop hc
  | cons b run ih =>
    rw [List.length_cons] at hInside
    rw [List.cons_append, skip, if_pos ⟨hRun b List.mem_cons_self, by omega⟩,
      ih (fun b hb => hRun b (List.mem_cons_of_mem _ hb)) (by omega), List.length_cons]
    congr 1
    omega

theorem le_hexFrom (v : Nat) (digits : List UInt8) : v ≤ hexFrom v digits := by
  induction digits generalizing v with
  | nil => exact Nat.le_refl v
  | cons b rest ih =>
    have hRest := ih (16 * v + (hexDigit b).getD 0)
    rw [hexFrom_cons]
    omega

/-- An address that fits into 64 bits is read as it is. -/
theorem address_run {value : Nat} (hDigits : ∀ b ∈ run, (hexDigit b).isSome ∧ b ≠ c)
    (hFits : hexFrom value run < 2 ^ 64) (hInside : x + run.length < BUFSIZ) :
    address c (run ++ c :: rest) x value = .ok (x + run.length, hexFrom value run) := by
  induction run generalizing x value with
  | nil =>
    rw [List.nil_append, address, if_neg fun hBoth => hBoth.1 rfl]
    rfl
  | cons b run ih =>
    obtain ⟨hDigit, hne⟩ := hDigits b List.mem_cons_self
    obtain ⟨d, hd⟩ := Option.isSome_iff_exists.mp hDigit
    rw [List.length_cons] at hInside
    rw [hexFrom_cons, hd, Option.getD_some] at hFits ⊢
    have hLe := le_hexFrom (16 * value + d) run
    have hMod : (value * 16 % 2 ^ 64 + d) % 2 ^ 64 = 16 * value + d := by omega
    rw [List.cons_append, address, if_pos ⟨hne, by omega⟩, hd]
    dsimp only
    rw [hMod, ih (fun b hb => hDigits b (List.mem_cons_of_mem _ hb)) hFits (by omega),
      List.length_cons]
    congr 2
    omega

/-- One field of the loop over the fields: from the space before it to the space behind it. -/
theorem skipFields_succ {n : Nat} (hField : IsField run)
    (h : buffer.drop x = space :: (run ++ space :: rest))
    (hInside : x + 1 + run.length < BUFSIZ) :
    skipFields buffer (n + 1) x = skipFields buffer n (x + 1 + run.length) ∧
      buffer.drop (x + 1 + run.length) = space :: rest := by
  have hDrop := drop_one h
  refine ⟨?_, drop_run hDrop⟩
  have hPlain : ∀ b ∈ run, (decide (b ≠ space)) = true := fun b hb =>
    decide_eq_true (hField.plain b hb).1
  rw [skipFields, hDrop, skip_run hPlain (decide_eq_false (not_not.mpr rfl)) hInside]
  rfl

/-! ## The way back -/

/-- Back from inside a line to the newline before it, or to the beginning of the buffer. -/
theorem back_line {before line : List UInt8} (tail : List UInt8) {k : Nat} (hLine : newline ∉ line)
    (hBefore : before = [] ∨ ∃ init, before = init ++ [newline]) (hk : k < line.length) :
    back (before ++ (line ++ tail)) (before.length + k) = .ok (before.length - 1) := by
  induction k with
  | zero =>
    rcases hBefore with rfl | ⟨init, rfl⟩
    · rfl
    · obtain ⟨c, hc, hPeek⟩ := peek_append (init ++ [newline]) tail hk
      have hne : c ≠ newline := fun hEq => hLine (hEq ▸ hc)
      rw [List.length_append, List.length_singleton] at hPeek ⊢
      rw [Nat.add_zero] at hPeek ⊢
      rw [back, hPeek]
      show (if c ≠ newline then back _ init.length else _) = _
      rw [if_pos hne]
      cases hInit : init.length with
      | zero => rfl
      | succ m =>
        have hNewline : peek (init ++ [newline] ++ (line ++ tail)) (m + 1) = .ok newline := by
          rw [← hInit]
          exact peek_newline init (line ++ tail)
        rw [back, hNewline]
        rfl
  | succ k ih =>
    obtain ⟨c, hc, hPeek⟩ := peek_append before tail hk
    have hne : c ≠ newline := fun hEq => hLine (hEq ▸ hc)
    rw [← Nat.add_assoc] at hPeek ⊢
    rw [back, hPeek]
    show (if c ≠ newline then back _ (before.length + k) else _) = _
    rw [if_pos hne]
    exact ih (by omega)

theorem lineStart_line {before line tail : List UInt8} (hLine : newline ∉ line)
    (hBefore : before = [] ∨ ∃ init, before = init ++ [newline]) (hne : line ≠ []) :
    lineStart (before ++ (line ++ tail)) (before.length + line.length) = .ok before.length := by
  have hPos := List.length_pos_of_ne_nil hne
  have hBack := back_line tail hLine hBefore (show line.length - 1 < line.length by omega)
  rw [lineStart, Nat.add_sub_assoc hPos, hBack]
  rcases hBefore with rfl | ⟨init, rfl⟩
  · obtain ⟨c, hc, hPeek⟩ := peek_append [] tail hPos
    have hNot : c ≠ newline := fun hEq => hLine (hEq ▸ hc)
    show (peek _ 0 >>= fun c => if c = newline then _ else _) = _
    rw [show peek ([] ++ (line ++ tail)) 0 = .ok c from hPeek]
    show (if c = newline then _ else _) = _
    rw [if_neg hNot]
    rfl
  · have hNewline := peek_newline init (line ++ tail)
    rw [List.length_append, List.length_singleton, Nat.add_sub_cancel]
    show (peek _ init.length >>= fun c => if c = newline then _ else _) = _
    rw [hNewline]
    rfl

/-! ## The whole line -/

/-- What stands behind the spaces of a line does not begin with a space. -/
theorem name_behind (l : MapsLine) (post : List UInt8) :
    ∃ c tail, l.name ++ newline :: post = c :: tail ∧ c ≠ space := by
  cases hName : l.name with
  | nil => exact ⟨newline, post, rfl, by decide⟩
  | cons b rest =>
    refine ⟨b, rest ++ newline :: post, rfl, fun hEq => l.hName.first ?_⟩
    rw [hName, hEq]
    rfl

theorem MapsLine.length_fields (l : MapsLine) : l.fields.length =
    l.low.length + l.high.length + l.perms.length + l.offset.length + l.dev.length +
      l.inode.length + 5 := by
  simp only [fields, List.length_append, List.length_cons]
  omega

theorem MapsLine.length_text (l : MapsLine) :
    l.text.length = l.fields.length + (l.gap + 1) + l.name.length := by
  simp only [text, List.length_append, List.length_replicate]
  omega

/-- The position of the name in its line. -/
def MapsLine.namePos (l : MapsLine) : Nat := l.fields.length + (l.gap + 1)

/-- The spaces before the name, and the name. -/
theorem skip_name (l : MapsLine) {buffer post : List UInt8} {x : Nat}
    (h : buffer.drop x = List.replicate (l.gap + 1) space ++ (l.name ++ newline :: post))
    (hInside : x + (l.gap + 1) + l.name.length < BUFSIZ) :
    skip (· = space) (buffer.drop x) x = .ok (x + (l.gap + 1)) ∧
      skip (· ≠ newline) (buffer.drop (x + (l.gap + 1))) (x + (l.gap + 1)) =
        .ok (x + (l.gap + 1) + l.name.length) := by
  have hGap : (List.replicate (l.gap + 1) space).length = l.gap + 1 := List.length_replicate
  constructor
  · obtain ⟨c, tail, hBehind, hc⟩ := name_behind l post
    rw [h, hBehind]
    nth_rewrite 2 [← hGap]
    refine skip_run (fun b hb => ?_) (decide_eq_false hc) ?_
    · exact decide_eq_true (List.eq_of_mem_replicate hb)
    · omega
  · have hName := drop_run h
    rw [hGap] at hName
    rw [hName]
    refine skip_run (fun b hb => decide_eq_true ?_) (decide_eq_false (not_not.mpr rfl)) hInside
    exact fun hEq => l.hName.plain (hEq ▸ hb)

theorem parseLine_line (l : MapsLine) {before : List UInt8} (post : List UInt8)
    (hBefore : before = [] ∨ ∃ init, before = init ++ [newline])
    (hInside : before.length + l.text.length < BUFSIZ) :
    parseLine (before ++ (l.text ++ newline :: post)) (before.length + l.text.length) =
      .ok ⟨l.start, l.stop, before.length + l.namePos, before.length + l.text.length⟩ := by
  have hText := l.length_text
  have hFields := l.length_fields
  generalize hBuffer : before ++ (l.text ++ newline :: post) = buffer
  have hStart : lineStart buffer (before.length + l.text.length) = .ok before.length := by
    rw [← hBuffer]
    exact lineStart_line l.newline_not_mem_text hBefore l.text_ne_nil
  -- What stands from the positions of the scanner on.
  have h₀ : buffer.drop before.length = l.low ++ dash :: (l.high ++ space :: (l.perms ++ space ::
      (l.offset ++ space :: (l.dev ++ space :: (l.inode ++ space :: (List.replicate l.gap space ++
        (l.name ++ newline :: post))))))) := by
    rw [← hBuffer, List.drop_left]
    simp only [MapsLine.text, MapsLine.fields, List.replicate_succ, List.append_assoc,
      List.cons_append]
  have hLow : address dash (buffer.drop before.length) before.length 0 =
      .ok (before.length + l.low.length, l.start) := by
    rw [h₀]
    refine address_run (fun b hb => ⟨l.hLow.digits b hb, ?_⟩) l.hLow.hexValue_lt (by omega)
    exact (hexDigit_ne (l.hLow.digits b hb)).1
  have h₁ := drop_run h₀
  have hDash : skip (· ≠ dash) (buffer.drop (before.length + l.low.length))
      (before.length + l.low.length) = .ok (before.length + l.low.length) := by
    rw [h₁]
    exact skip_stop (decide_eq_false (not_not.mpr rfl))
  have hPeek := peek_of_drop h₁
  have h₂ := drop_one h₁
  have hHigh : address space (buffer.drop (before.length + l.low.length + 1))
      (before.length + l.low.length + 1) 0 =
      .ok (before.length + l.low.length + 1 + l.high.length, l.stop) := by
    rw [h₂]
    refine address_run (fun b hb => ⟨l.hHigh.digits b hb, ?_⟩) l.hHigh.hexValue_lt (by omega)
    exact (hexDigit_ne (l.hHigh.digits b hb)).2.1
  have h₃ := drop_run h₂
  obtain ⟨hPerms, h₄⟩ := skipFields_succ (n := 3) l.hPerms h₃ (by omega)
  obtain ⟨hOffset, h₅⟩ := skipFields_succ (n := 2) l.hOffset h₄ (by omega)
  obtain ⟨hDev, h₆⟩ := skipFields_succ (n := 1) l.hDev h₅ (by omega)
  obtain ⟨hInode, h₇⟩ := skipFields_succ (n := 0) l.hInode h₆ (by omega)
  generalize hx : before.length + l.low.length + 1 + l.high.length + 1 + l.perms.length + 1 +
    l.offset.length + 1 + l.dev.length + 1 + l.inode.length = x at hInode h₇
  have h₈ : buffer.drop x = List.replicate (l.gap + 1) space ++ (l.name ++ newline :: post) := by
    rw [h₇]
    rfl
  have hNamePos : x + (l.gap + 1) = before.length + l.namePos := by
    rw [MapsLine.namePos, hFields]
    omega
  have hEnd : before.length + l.namePos + l.name.length = before.length + l.text.length := by
    rw [hText, MapsLine.namePos]
    omega
  obtain ⟨hGap, hName⟩ := skip_name l h₈ (by omega)
  rw [hNamePos] at hGap hName
  rw [hEnd] at hName
  have hAll : skipFields buffer 4 (before.length + l.low.length + 1 + l.high.length) = .ok x := by
    rw [hPerms, hOffset, hDev, hInode]
    rfl
  simp only [parseLine, hStart, hLow, hDash, hPeek, hHigh, hAll, hGap, hName, bind, Except.bind,
    if_true]

end OsLabs.Proc
