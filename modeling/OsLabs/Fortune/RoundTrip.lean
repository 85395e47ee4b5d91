import OsLabs.Fortune.Module

/-!
# Cookies come back in cyclic order

`offset ws k` is where cookie `k` of the cookies `ws` written so far begins in the pot, and
where cookie `k - 1` ends. `Pot ws k s` says that the pot holds exactly the cookies `ws`
and that `readInd` stands at cookie `k`, or at the end of the last one. A write appends a
cookie and leaves `k`, a read prints cookie `k` modulo their number and steps to the next
one: the length that `snprintf` reports is that of the text with its line break, which is
that of the cookie with its zero byte.
-/

namespace OsLabs.Fortune

open Memory

variable {PAGE_SIZE : Nat}

/-- A cookie as it stands in the pot. -/
def stored (w : List UInt8) : List UInt8 := w.dropLast ++ [0]

/-- A cookie as it is read back. -/
def line (w : List UInt8) : List UInt8 := w.dropLast ++ [newline]

def offset (ws : List (List UInt8)) (k : Nat) : Nat := (ws.take k).flatten.length

/-- A cookie the pot can hold and `fortuneRead` can give back. -/
structure Cookie (PAGE_SIZE : Nat) (w : List UInt8) : Prop where
  nonempty : 1 ≤ w.length
  small : w.length < PAGE_SIZE
  text : ∀ b ∈ w.dropLast, b ≠ 0

theorem length_stored {w : List UInt8} (h : 1 ≤ w.length) : (stored w).length = w.length := by
  simp only [stored, List.length_append, List.length_dropLast, List.length_singleton]
  omega

theorem length_line {w : List UInt8} (h : 1 ≤ w.length) : (line w).length = w.length := by
  simp only [line, List.length_append, List.length_dropLast, List.length_singleton]
  omega

theorem offset_zero (ws : List (List UInt8)) : offset ws 0 = 0 := by
  simp [offset]

theorem offset_length (ws : List (List UInt8)) : offset ws ws.length = ws.flatten.length := by
  rw [offset, List.take_length]

theorem offset_succ {ws : List (List UInt8)} {k : Nat} (hk : k < ws.length) :
    offset ws (k + 1) = offset ws k + ws[k].length := by
  simp only [offset, List.take_succ_eq_append_getElem hk, List.flatten_append,
    List.flatten_singleton, List.length_append]

theorem offset_append {ws : List (List UInt8)} {k : Nat} (hk : k ≤ ws.length)
    (more : List (List UInt8)) : offset (ws ++ more) k = offset ws k := by
  rw [offset, List.take_append_of_le_length hk, offset]

/-- Cookies are not empty, so their positions tell them apart. -/
theorem offset_lt {ws : List (List UInt8)} (hCookies : ∀ w ∈ ws, Cookie PAGE_SIZE w) {i j : Nat}
    (hij : i < j) (hj : j ≤ ws.length) : offset ws i < offset ws j := by
  induction j with
  | zero => omega
  | succ j ih =>
    have hCookie := (hCookies _ (ws.getElem_mem (by omega : j < ws.length))).nonempty
    rw [offset_succ (by omega)]
    rcases Nat.lt_or_ge i j with hLt | hGe
    · have hBelow := ih hLt (by omega)
      omega
    · obtain rfl : i = j := by omega
      omega

theorem offset_inj {ws : List (List UInt8)} (hCookies : ∀ w ∈ ws, Cookie PAGE_SIZE w)
    {i j : Nat} (hi : i ≤ ws.length) (hj : j ≤ ws.length) (h : offset ws i = offset ws j) :
    i = j := by
  rcases Nat.lt_trichotomy i j with hLt | hEq | hGt
  · have hBelow := offset_lt hCookies hLt hj
    omega
  · exact hEq
  · have hBelow := offset_lt hCookies hGt hi
    omega

theorem length_stored_flatten {ws : List (List UInt8)}
    (hCookies : ∀ w ∈ ws, Cookie PAGE_SIZE w) :
    (ws.map stored).flatten.length = ws.flatten.length := by
  induction ws with
  | nil => rfl
  | cons w ws ih =>
    have hFirst := length_stored (hCookies w (by simp)).nonempty
    have hRest := ih fun v hv => hCookies v (by simp [hv])
    simp only [List.map_cons, List.flatten_cons, List.length_append, hFirst, hRest]

/-! ## The pot -/

/-- The pot holds the cookies `ws`, and the next one to read is cookie `k`. -/
structure Pot (PAGE_SIZE : Nat) (ws : List (List UInt8)) (k : Nat) (s : State) : Prop where
  cookies : ∀ w ∈ ws, Cookie PAGE_SIZE w
  pot : ∃ rest, s.cookiePot = (ws.map stored).flatten ++ rest
  size : s.cookiePot.length = PAGE_SIZE
  tmpSize : s.tmpBuf.length = PAGE_SIZE
  writeInd : s.writeInd = offset ws ws.length
  cursor : k ≤ ws.length
  readInd : s.readInd = offset ws k

theorem pot_init {s : State} (hInit : mdInit PAGE_SIZE true true true true = .ok s) :
    Pot PAGE_SIZE [] 0 s := by
  cases hInit
  refine ⟨nofun, ⟨_, rfl⟩, ?_, ?_, rfl, Nat.le_refl 0, rfl⟩
  · exact List.length_replicate
  · exact List.length_replicate

/-- The two stores of `fortuneWrite` leave the cookie in its stored form. -/
theorem store_cookie {w rest : List UInt8} (before : List UInt8) (hw : 1 ≤ w.length)
    (hRoom : w.length ≤ rest.length) :
    (store (before ++ rest) before.length w).bind
        (fun mem => store mem (before.length + w.length - 1) [0]) =
      some (before ++ stored w ++ rest.drop w.length) := by
  have hSplit : before ++ rest = before ++ rest.take w.length ++ rest.drop w.length := by
    rw [List.append_assoc, List.take_append_drop]
  have hNonempty : w ≠ [] := by
    rintro rfl
    cases hw
  have hLast : before ++ w ++ rest.drop w.length =
      (before ++ w.dropLast) ++ [w.getLast hNonempty] ++ rest.drop w.length := by
    rw [List.append_assoc before w.dropLast, List.dropLast_concat_getLast]
  have hPlace : before.length + w.length - 1 = (before ++ w.dropLast).length := by
    rw [List.length_append, List.length_dropLast]
    omega
  rw [hSplit, store_append before _ (by rw [List.length_take, Nat.min_eq_left hRoom]),
    Option.bind_some, hLast, hPlace, store_append _ _ (by rfl), stored, List.append_assoc before]

theorem fortuneWrite_pot {ws : List (List UInt8)} {k : Nat} {s : State} {w : List UInt8}
    (h : Pot PAGE_SIZE ws k s) (hCookie : Cookie PAGE_SIZE w)
    (hTotal : (ws ++ [w]).flatten.length ≤ PAGE_SIZE) :
    ∃ s', fortuneWrite PAGE_SIZE s w 0 = some (s', .ok w.length) ∧
      Pot PAGE_SIZE (ws ++ [w]) k s' := by
  obtain ⟨rest, hPot⟩ := h.pot
  have hUsed := length_stored_flatten h.cookies
  have hWrite : s.writeInd = (ws.map stored).flatten.length := by
    rw [h.writeInd, offset_length, hUsed]
  have hSize := h.size
  rw [hPot, List.length_append] at hSize
  simp only [List.flatten_append, List.flatten_singleton, List.length_append] at hTotal
  have hNonempty := hCookie.nonempty
  have hRoom : w.length ≤ rest.length := by omega
  have hStore := store_cookie (ws.map stored).flatten hNonempty hRoom
  rw [← hPot, ← hWrite] at hStore
  obtain ⟨mem, hFirst, hSecond⟩ := Option.bind_eq_some_iff.mp hStore
  have hEnough : ¬ (w.length : Int) > COOKIE_POT_SIZE PAGE_SIZE - s.writeInd + 1 := by
    dsimp only [COOKIE_POT_SIZE]
    omega
  have hPositive : ¬ s.writeInd + w.length = 0 := by omega
  refine ⟨⟨(ws.map stored).flatten ++ stored w ++ rest.drop w.length, s.tmpBuf, s.readInd,
    s.writeInd + w.length⟩, ?_, ?_, ⟨rest.drop w.length, ?_⟩, ?_, h.tmpSize, ?_, ?_, ?_⟩
  · simp only [fortuneWrite, if_neg hEnough, copyFromUser_all, hFirst, Option.bind_some,
      if_neg hPositive, hSecond, Option.map_some]
    simp
  · intro v hv
    rcases List.mem_append.mp hv with hOld | hNew
    · exact h.cookies v hOld
    · rwa [List.mem_singleton.mp hNew]
  · simp
  · simp only [List.length_append, List.length_drop, length_stored hNonempty]
    omega
  · rw [offset_length, h.writeInd, offset_length]
    simp
  · rw [List.length_append]
    have hCursor := h.cursor
    omega
  · rw [offset_append h.cursor]
    exact h.readInd

/-- The cookie that a read prints when `readInd` stands at cookie `k`. -/
def current (ws : List (List UInt8)) (k : Nat) : List UInt8 := ws.getD (k % ws.length) []

/-- What a read of the whole cookie `w` gives to the user. -/
def reading (w : List UInt8) : Reading := ⟨line w, w.length, .ok w.length⟩

theorem cstr_current {ws : List (List UInt8)} {k : Nat} {s : State} (h : Pot PAGE_SIZE ws k s)
    {i : Nat} (hi : i < ws.length) : cstr s.cookiePot (offset ws i) = some ws[i].dropLast := by
  obtain ⟨rest, hPot⟩ := h.pot
  have hSplit : (ws.map stored).flatten ++ rest =
      ((ws.take i).map stored).flatten ++ ws[i].dropLast ++
        0 :: (((ws.drop (i + 1)).map stored).flatten ++ rest) := by
    have hCut : ws.take i ++ ws[i] :: ws.drop (i + 1) = ws := by
      rw [← List.drop_eq_getElem_cons hi, List.take_append_drop]
    rw [show ws.map stored = (ws.take i ++ ws[i] :: ws.drop (i + 1)).map stored by rw [hCut],
      List.map_append, List.map_cons]
    simp only [stored, List.flatten_append, List.flatten_cons, List.append_assoc,
      List.cons_append, List.nil_append]
  have hBefore : offset ws i = ((ws.take i).map stored).flatten.length :=
    (length_stored_flatten fun w hw => h.cookies w (List.mem_of_mem_take hw)).symm
  rw [hPot, hSplit, hBefore]
  exact cstr_append _ _ (h.cookies _ (ws.getElem_mem hi)).text

theorem fortuneRead_pot {ws : List (List UInt8)} {k : Nat} {s : State}
    (h : Pot PAGE_SIZE ws k s) (hSome : 0 < ws.length) (len : Nat) :
    ∃ s', fortuneRead PAGE_SIZE s len 0 0 = some (s', reading (current ws k)) ∧
      Pot PAGE_SIZE ws (k % ws.length + 1) s' := by
  have hIndex : k % ws.length < ws.length := Nat.mod_lt k hSome
  have hCurrent : current ws k = ws[k % ws.length] := by
    simp [current, List.getD_eq_getElem?_getD, hIndex]
  have hCookie : Cookie PAGE_SIZE ws[k % ws.length] := h.cookies _ (ws.getElem_mem hIndex)
  have hLine := length_line hCookie.nonempty
  have hWritten : s.writeInd ≠ 0 := by
    have hLt := offset_lt h.cookies hSome (Nat.le_refl _)
    rw [h.writeInd]
    omega
  have hReset : (if s.readInd ≥ s.writeInd then 0 else s.readInd) = offset ws (k % ws.length) := by
    rw [h.readInd, h.writeInd]
    rcases Nat.lt_or_ge k ws.length with hLt | hGe
    · have hBelow := offset_lt h.cookies hLt (Nat.le_refl _)
      rw [if_neg (by omega), Nat.mod_eq_of_lt hLt]
    · obtain rfl : k = ws.length := Nat.le_antisymm h.cursor hGe
      rw [if_pos (Nat.le_refl _), Nat.mod_self, offset_zero]
  have hText : ws[k % ws.length].dropLast ++ [newline] = line ws[k % ws.length] := rfl
  have hShort : (line ws[k % ws.length]).length < PAGE_SIZE := by
    rw [hLine]
    exact hCookie.small
  obtain ⟨rest, hPrint, hLength⟩ := snprintf_fits (h.tmpSize.symm ▸ hShort) hShort
  have hLoad : load (line ws[k % ws.length] ++ 0 :: rest) (line ws[k % ws.length]).length =
      some (line ws[k % ws.length]) := by
    rw [load, if_pos (by simp), List.take_left]
  rw [hLine] at hPrint hLoad
  refine ⟨⟨s.cookiePot, line ws[k % ws.length] ++ 0 :: rest, offset ws (k % ws.length + 1),
    s.writeInd⟩, ?_, h.cookies, h.pot, h.size, hLength.trans h.tmpSize, h.writeInd, hIndex, rfl⟩
  rw [fortuneRead, if_neg (by simp [hWritten])]
  simp only [hReset, cstr_current h hIndex, Option.bind_some, hText, hPrint, hLoad,
    Option.map_some, offset_succ hIndex, hCurrent, reading]
  simp

theorem fortuneRead_empty {k : Nat} {s : State} (h : Pot PAGE_SIZE [] k s) (len : Nat) :
    fortuneRead PAGE_SIZE s len 0 0 = some (s, ⟨[], 0, .ok 0⟩) := by
  have hWrite : s.writeInd = 0 := h.writeInd
  rw [fortuneRead, if_pos (Or.inr hWrite)]

/-! ## Sequences of calls -/

/-- A write of a cookie or a read of a freshly opened file, with all bytes copied. -/
def Proper (PAGE_SIZE : Nat) : Call → Prop
  | .write buf left => Cookie PAGE_SIZE buf ∧ left = 0
  | .read _ fPos left => fPos = 0 ∧ left = 0

/-- The cookies written by a sequence of calls. -/
def written (calls : List Call) : List (List UInt8) :=
  calls.filterMap fun
    | .write buf _ => some buf
    | .read _ _ _ => none

theorem call_pot {ws : List (List UInt8)} {k : Nat} {s : State} {c : Call}
    (h : Pot PAGE_SIZE ws k s) (hProper : Proper PAGE_SIZE c)
    (hTotal : (ws ++ written [c]).flatten.length ≤ PAGE_SIZE) :
    ∃ s' reply k', call PAGE_SIZE s c = some (s', reply) ∧
      Pot PAGE_SIZE (ws ++ written [c]) k' s' := by
  cases c with
  | write buf left =>
    obtain ⟨hCookie, rfl⟩ := hProper
    obtain ⟨s', hWrite, hPot⟩ := fortuneWrite_pot h hCookie hTotal
    exact ⟨s', .wrote (.ok buf.length), k, by simp [call, hWrite], hPot⟩
  | read len fPos left =>
    obtain ⟨rfl, rfl⟩ := hProper
    have hSame : ws ++ written [.read len 0 0] = ws := List.append_nil ws
    rw [hSame]
    rcases Nat.eq_zero_or_pos ws.length with hNone | hSome
    · obtain rfl := List.eq_nil_of_length_eq_zero hNone
      exact ⟨s, .read ⟨[], 0, .ok 0⟩, k, by simp [call, fortuneRead_empty h], h⟩
    · obtain ⟨s', hRead, hPot⟩ := fortuneRead_pot h hSome len
      exact ⟨s', .read (reading (current ws k)), _, by simp [call, hRead], hPot⟩

theorem exec_pot {calls : List Call} {ws : List (List UInt8)} {k : Nat} {s : State}
    (h : Pot PAGE_SIZE ws k s) (hProper : ∀ c ∈ calls, Proper PAGE_SIZE c)
    (hTotal : (ws ++ written calls).flatten.length ≤ PAGE_SIZE) :
    ∃ s' replies k', exec PAGE_SIZE s calls = some (s', replies) ∧
      Pot PAGE_SIZE (ws ++ written calls) k' s' := by
  induction calls generalizing ws k s with
  | nil => exact ⟨s, [], k, rfl, by rwa [written, List.filterMap_nil, List.append_nil]⟩
  | cons c rest ih =>
    have hSplit : ws ++ written (c :: rest) = (ws ++ written [c]) ++ written rest := by
      rw [List.append_assoc, written, written, written, ← List.filterMap_append]
      rfl
    rw [hSplit] at hTotal ⊢
    have hFirst : (ws ++ written [c]).flatten.length ≤ PAGE_SIZE := by
      rw [List.flatten_append, List.length_append] at hTotal
      omega
    obtain ⟨s₁, reply, k₁, hCall, hPot₁⟩ := call_pot h (hProper c (by simp)) hFirst
    obtain ⟨s₂, replies, k₂, hExec, hPot₂⟩ :=
      ih hPot₁ (fun c' hc' => hProper c' (by simp [hc'])) hTotal
    exact ⟨s₂, reply :: replies, k₂, by simp [exec, hCall, hExec], hPot₂⟩

/-- Reads with no write between them go through the cookies in order, again and again. -/
theorem exec_reads {ws : List (List UInt8)} {k : Nat} {s : State} (h : Pot PAGE_SIZE ws k s)
    (hSome : 0 < ws.length) (lens : List Nat) :
    ∃ s', exec PAGE_SIZE s (lens.map fun len => .read len 0 0) =
      some (s', (List.range lens.length).map fun i => .read (reading (current ws (k + i)))) := by
  induction lens generalizing k s with
  | nil => exact ⟨s, rfl⟩
  | cons len rest ih =>
    obtain ⟨s₁, hRead, hPot⟩ := fortuneRead_pot h hSome len
    obtain ⟨s₂, hExec⟩ := ih hPot
    have hShift (i : Nat) : current ws (k % ws.length + 1 + i) = current ws (k + (i + 1)) := by
      rw [current, current, Nat.add_assoc, Nat.mod_add_mod, Nat.add_comm 1 i]
    refine ⟨s₂, ?_⟩
    simp only [hShift] at hExec
    simp [exec, call, hRead, hExec, List.range_succ_eq_map, Function.comp_def]

/-- Where `readInd` can stand, in terms of the cookie it stands at. -/
theorem Pot.cursor_eq {ws : List (List UInt8)} {k i : Nat} {s : State}
    (h : Pot PAGE_SIZE ws k s) (hi : i < ws.length)
    (hAt : s.readInd = offset ws i ∨ i = 0 ∧ s.readInd = s.writeInd) : k % ws.length = i := by
  have hInj := fun {j} hj => offset_inj (j := j) h.cookies h.cursor hj
  rcases hAt with hStart | ⟨rfl, hEnd⟩
  · obtain rfl := hInj (Nat.le_of_lt hi) (h.readInd.symm.trans hStart)
    exact Nat.mod_eq_of_lt hi
  · obtain rfl := hInj (Nat.le_refl _) (h.readInd.symm.trans (hEnd.trans h.writeInd))
    exact Nat.mod_self _

/-- After any calls that write cookies into the page and read freshly opened files,
`readInd` is at the beginning or at the end of a cookie, a read gives back the cookie there
(the first one at the end) and moves to its end, and further reads cycle through all
cookies in the order of their writes. -/
theorem cookies_round_trip {calls : List Call} {s₀ : State}
    (hInit : mdInit PAGE_SIZE true true true true = .ok s₀)
    (hProper : ∀ c ∈ calls, Proper PAGE_SIZE c)
    (hTotal : (written calls).flatten.length ≤ COOKIE_POT_SIZE PAGE_SIZE) :
    ∃ s replies, exec PAGE_SIZE s₀ calls = some (s, replies) ∧
      (s.readInd = 0 ∨
        ∃ k < (written calls).length, s.readInd = offset (written calls) (k + 1)) ∧
      (∀ k (hk : k < (written calls).length),
        s.readInd = offset (written calls) k ∨ k = 0 ∧ s.readInd = s.writeInd →
        ∀ len, ∃ s', fortuneRead PAGE_SIZE s len 0 0 = some (s', reading (written calls)[k]) ∧
          s'.readInd = offset (written calls) (k + 1)) ∧
      (written calls ≠ [] → ∃ k ≤ (written calls).length,
        s.readInd = offset (written calls) k ∧
        ∀ lens : List Nat, ∃ s', exec PAGE_SIZE s (lens.map fun len => .read len 0 0) =
          some (s', (List.range lens.length).map fun i =>
            .read (reading (current (written calls) (k + i))))) := by
  obtain ⟨s, replies, k, hExec, hPot⟩ := exec_pot (pot_init hInit) hProper hTotal
  rw [List.nil_append] at hPot
  generalize written calls = ws at hPot
  refine ⟨s, replies, hExec, ?_, ?_, ?_⟩
  · rcases Nat.eq_zero_or_pos k with rfl | hPos
    · exact Or.inl (hPot.readInd.trans (offset_zero ws))
    · have hCursor := hPot.cursor
      obtain ⟨j, rfl⟩ : ∃ j, k = j + 1 := ⟨k - 1, by omega⟩
      exact Or.inr ⟨j, by omega, hPot.readInd⟩
  · intro i hi hAt len
    obtain ⟨s', hRead, hNext⟩ := fortuneRead_pot hPot (by omega) len
    have hIndex := hPot.cursor_eq hi hAt
    have hCurrent : current ws k = ws[i] := by
      simp [current, hIndex, List.getD_eq_getElem?_getD, hi]
    rw [hCurrent] at hRead
    rw [hIndex] at hNext
    exact ⟨s', hRead, hNext.readInd⟩
  · intro hSome
    exact ⟨k, hPot.cursor, hPot.readInd, exec_reads hPot (List.length_pos_iff.mpr hSome)⟩

/-- Two cookies, read three times. -/
theorem cookies_round_trip_two :
    let calls : List Call := [.write [97, 98, 10] 0, .read 16 0 0, .write [99, 10] 0]
    ∃ s replies, (mdInit 16 true true true true).toOption.bind
        (fun s₀ => exec 16 s₀ calls) = some (s, replies) ∧
      ∃ k ≤ 2, s.readInd = offset (written calls) k ∧
        ∃ s', exec 16 s [.read 16 0 0, .read 16 0 0, .read 16 0 0] =
          some (s', [.read (reading (current (written calls) k)),
            .read (reading (current (written calls) (k + 1))),
            .read (reading (current (written calls) (k + 2)))]) := by
  intro calls
  have hProper : ∀ c ∈ calls, Proper 16 c := by
    intro c hc
    simp only [calls, List.mem_cons, List.not_mem_nil, or_false] at hc
    rcases hc with rfl | rfl | rfl
    · exact ⟨⟨by decide, by decide, by simp⟩, rfl⟩
    · exact ⟨rfl, rfl⟩
    · exact ⟨⟨by decide, by decide, by simp⟩, rfl⟩
  obtain ⟨s, replies, hExec, -, -, hCycle⟩ :=
    @cookies_round_trip 16 calls _ rfl hProper (by decide)
  obtain ⟨k, hk, hStart, hReads⟩ := hCycle (by decide)
  exact ⟨s, replies, hExec, k, hk, hStart, hReads [16, 16, 16]⟩

end OsLabs.Fortune
