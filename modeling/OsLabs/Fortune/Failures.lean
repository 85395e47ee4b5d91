import OsLabs.Fortune.Jar

/-!
# What a failed call leaves behind

A write that fails may have overwritten bytes of the pot, but only behind those in use, and
nobody will see them. A read that fails after it has found `readInd` at the end has already
taken it back to the beginning. Then the next cookie to be written is no longer the next
one to be read. This shows unless the pot has no room for another cookie, or only for an
empty one and all the cookies in it are empty too.

Two jars are told apart by a cookie of one byte, if there is room for it, and else by an
empty cookie and enough reads: the one jar is always one cookie behind the other, so if all
the answers are the same, then so are all the cookies.
-/

namespace OsLabs.Fortune

open Memory Runs

variable {size : Nat}

def Reply.Failed : Reply → Prop
  | .wrote ret => ∃ e, ret = .error e
  | .read r => ∃ e, r.ret = .error e

/-- All reads are from freshly opened files. -/
def Fresh (calls : List Call) : Prop :=
  ∀ len fPos left, .read len fPos left ∈ calls → fPos = 0

/-- No later calls tell the two states apart. -/
def Indistinct (size : Nat) (s s' : State) : Prop :=
  ∀ later, Fresh later → (exec size s' later).map Prod.snd = (exec size s later).map Prod.snd

/-- The call is a write, or finds `readInd` before `writeInd`, or there is no room for
another cookie that could be told from the others. -/
def Harmless (size : Nat) (s : State) (c : Call) : Prop :=
  (∃ buf left, c = .write buf left) ∨ s.readInd < s.writeInd ∨
    s.writeInd = COOKIE_POT_SIZE size ∨
    s.writeInd + 1 = COOKIE_POT_SIZE size ∧ ∀ b ∈ s.cookiePot.take s.writeInd, b = 0

namespace Jar

/-- The jars give the same answers to all calls. -/
def Same (j k : Jar size) : Prop :=
  ∀ later, Fresh later → (j.exec later).map Prod.snd = (k.exec later).map Prod.snd

theorem rewound_of_lt {j : Jar size} (h : j.cursor < j.used.length) : j.rewound = j := by
  apply Jar.ext
  · rfl
  · exact if_neg (Nat.not_le.mpr h)

theorem place_congr {j k : Jar size} (hUsed : j.used = k.used) (hCursor : j.cursor = k.cursor) :
    j.place = k.place := by
  rw [place, place, hUsed, hCursor]

/-! ## Jars that cannot be told apart -/

/-- The same bytes in use, and no room for anything that could show where the cursor is:
either the jars read at the same place and are full, or all cookies are empty. -/
structure Alike (j k : Jar size) : Prop where
  used : j.used = k.used
  room : j.used.length = size ∧ j.place = k.place ∨
    size ≤ j.used.length + 1 ∧ ∀ b ∈ j.used, b = 0

theorem text_of_zeros {j : Jar size} (hZeros : ∀ b ∈ j.used, b = 0) : j.text = [] := by
  rw [text, List.takeWhile_eq_nil_iff]
  intro hSome
  have hMem := List.mem_of_mem_drop (List.getElem_mem hSome)
  simp [hZeros _ hMem]

theorem Alike.text {j k : Jar size} (h : Alike j k) : j.text = k.text := by
  rcases h.room with ⟨-, hPlace⟩ | ⟨-, hZeros⟩
  · rw [Jar.text, Jar.text, h.used, hPlace]
  · rw [text_of_zeros hZeros, text_of_zeros (h.used ▸ hZeros)]

theorem Alike.read {j k : Jar size} (h : Alike j k) (fPos : Int) (left : Nat) :
    Alike (j.read fPos left).1 (k.read fPos left).1 ∧
      (j.read fPos left).2 = (k.read fPos left).2 := by
  unfold Jar.read
  by_cases hEnd : fPos > 0 ∨ j.used = []
  · rw [dif_pos hEnd, dif_pos (by rwa [← h.used])]
    exact ⟨h, rfl⟩
  · rw [dif_neg hEnd, dif_neg (by rwa [← h.used])]
    simp only [← h.text]
    by_cases hFault : left ≠ 0
    · rw [if_pos hFault, if_pos hFault]
      refine ⟨⟨h.used, h.room.imp_left fun hRoom => ?_⟩, rfl⟩
      exact ⟨hRoom.1, place_congr h.used hRoom.2⟩
    · rw [if_neg hFault, if_neg hFault]
      refine ⟨⟨h.used, h.room.imp_left fun hRoom => ⟨hRoom.1, ?_⟩⟩, rfl⟩
      refine place_congr h.used ?_
      simp only [advanced, hRoom.2, h.text]

/-- There is room for one byte at most, and that becomes a zero. -/
theorem Alike.added {j k : Jar size} (h : Alike j k) {buf : List UInt8}
    (hFits : (j.used ++ buf).length ≤ size) (hSome : j.used ++ buf ≠ [])
    (hFits' : (k.used ++ buf).length ≤ size) (hSome' : k.used ++ buf ≠ []) :
    Alike (j.added buf hFits hSome) (k.added buf hFits' hSome') := by
  have hLength := length_added hFits hSome
  have hLength' := length_added hFits' hSome'
  have hFits₀ := hFits
  rw [List.length_append] at hFits
  refine ⟨by simp only [Jar.added, h.used], ?_⟩
  rcases h.room with ⟨hFull, hPlace⟩ | ⟨hRoom, hZeros⟩
  · obtain rfl : buf = [] := List.eq_nil_of_length_eq_zero (by omega)
    rw [List.append_nil] at hLength hLength'
    refine Or.inl ⟨hLength.trans hFull, ?_⟩
    simp only [place, hLength, hLength']
    exact hPlace
  · refine Or.inr ⟨?_, ?_⟩
    · rw [hLength, List.length_append]
      omega
    · intro b hb
      rcases List.mem_append.mp hb with hFront | hLast
      · apply hZeros
        cases buf with
        | nil =>
          rw [List.append_nil] at hFront
          exact List.dropLast_subset _ hFront
        | cons x rest =>
          obtain rfl : rest = [] := by
            apply List.eq_nil_of_length_eq_zero
            simp only [List.length_cons] at hFits
            omega
          rwa [List.dropLast_concat] at hFront
      · exact List.mem_singleton.mp hLast

theorem Alike.write {j k : Jar size} (h : Alike j k) (buf : List UInt8) (left : Nat) :
    Agree Alike (j.write buf left) (k.write buf left) := by
  obtain ⟨used, cursor, hFit, hClosed, hBehind⟩ := k
  obtain rfl : j.used = used := h.used
  unfold Jar.write
  by_cases hRefused : size + 1 < (j.used ++ buf).length
  · rw [if_pos hRefused, if_pos hRefused]
    exact .some ⟨h, rfl⟩
  rw [if_neg hRefused, if_neg hRefused]
  by_cases hFits : (j.used ++ buf).length ≤ size
  · rw [dif_pos hFits, dif_pos hFits]
    by_cases hFault : left ≠ 0
    · rw [if_pos hFault, if_pos hFault]
      exact .some ⟨h, rfl⟩
    rw [if_neg hFault, if_neg hFault]
    by_cases hNone : j.used ++ buf = []
    · rw [dif_pos hNone, dif_pos hNone]
      exact .none
    · rw [dif_neg hNone, dif_neg hNone]
      exact .some ⟨h.added hFits hNone hFits hNone, rfl⟩
  · rw [dif_neg hFits, dif_neg hFits]
    exact .none

theorem Alike.call {j k : Jar size} (h : Alike j k) (c : Call) :
    Agree Alike (j.call c) (k.call c) := by
  cases c with
  | write buf left => exact (h.write buf left).map Reply.wrote
  | read len fPos left =>
    obtain ⟨hNext, hReply⟩ := h.read fPos left
    exact .some ⟨hNext, congrArg Reply.read hReply⟩

theorem Alike.replies {j k : Jar size} (h : Alike j k) (later : List Call) :
    (j.exec later).map Prod.snd = (k.exec later).map Prod.snd :=
  (execAll_agree (fun _ _ c hJars => hJars.call c) h later).replies

/-! ## Jars that are told apart -/

/-- A read that copies everything, from a freshly opened file. -/
def look : Call := .read 1 0 0

theorem fresh_replicate_look (m : Nat) : Fresh (List.replicate m look) := by
  intro len fPos left hMem
  cases List.eq_of_mem_replicate hMem
  rfl

theorem exec_look {j : Jar size} (hSome : j.used ≠ []) (rest : List Call) :
    (j.exec (look :: rest)).map Prod.snd =
      (((j.advanced hSome).exec rest).map Prod.snd).map
        (.read ⟨shown size j.text, ↑(j.text.length + 1), .ok (j.text.length + 1)⟩ :: ·) := by
  have hEnd : ¬ ((0 : Int) > 0 ∨ j.used = []) := by simp [hSome]
  apply replies_cons
  simp only [call, look, read, dif_neg hEnd, ne_eq, not_true_eq_false, if_false, Prod.map_apply,
    id_eq, Int.zero_add]

theorem write_eq {j : Jar size} {buf : List UInt8} (hFits : (j.used ++ buf).length ≤ size)
    (hSome : j.used ++ buf ≠ []) :
    j.write buf 0 = some (j.added buf hFits hSome, .ok buf.length) := by
  rw [write, if_neg (by omega), dif_pos hFits, if_neg (by simp), dif_neg hSome]

theorem exec_write {j : Jar size} {buf : List UInt8} (hFits : (j.used ++ buf).length ≤ size)
    (hSome : j.used ++ buf ≠ []) (rest : List Call) :
    (j.exec (.write buf 0 :: rest)).map Prod.snd =
      (((j.added buf hFits hSome).exec rest).map Prod.snd).map (.wrote (.ok buf.length) :: ·) := by
  apply replies_cons
  rw [call, write_eq hFits hSome]
  rfl

/-- The two jars hold the same, and the one is at the end while the other is at the
beginning. -/
structure Apart (j k : Jar size) : Prop where
  used : j.used = k.used
  nonempty : j.used ≠ []
  atEnd : j.cursor = j.used.length
  atStart : k.cursor = 0

/-- The jars with one more cookie. Now it shows who is at the end: there, the new cookie is
the next one to be read. -/
structure Trailing (xs text : List UInt8) (j k : Jar size) : Prop where
  used : j.used = xs ++ (text ++ [0])
  used' : k.used = xs ++ (text ++ [0])
  place : j.place = xs.length
  text : j.text = text
  atStart : k.cursor = 0
  same : ∀ m, (j.exec (List.replicate m look)).map Prod.snd =
    (k.exec (List.replicate m look)).map Prod.snd

theorem used_added {j : Jar size} {text : List UInt8}
    (hFits : (j.used ++ (text ++ [0])).length ≤ size) (hSome : j.used ++ (text ++ [0]) ≠ []) :
    (j.added (text ++ [0]) hFits hSome).used = j.used ++ (text ++ [0]) := by
  rw [added]
  dsimp only
  rw [← List.append_assoc, List.dropLast_concat]

theorem Apart.trailing {j k : Jar size} (h : Apart j k) (hSame : Same j k) {text : List UInt8}
    (hText : 0 ∉ text) (hFits : (j.used ++ (text ++ [0])).length ≤ size) :
    ∃ j' k' : Jar size, Trailing j.used text j' k' := by
  have hFits' : (k.used ++ (text ++ [0])).length ≤ size := by rwa [← h.used]
  have hSome : j.used ++ (text ++ [0]) ≠ [] := by simp
  have hSome' : k.used ++ (text ++ [0]) ≠ [] := by simp
  have hUsed := used_added hFits hSome
  have hUsed' := used_added hFits' hSome'
  have hPlace : (j.added (text ++ [0]) hFits hSome).place = j.used.length := by
    rw [Jar.place, if_neg]
    · exact h.atEnd
    · rw [hUsed, added, h.atEnd]
      simp
  refine ⟨j.added (text ++ [0]) hFits hSome, k.added (text ++ [0]) hFits' hSome', hUsed,
    by rw [hUsed', h.used], hPlace, ?_, h.atStart, ?_⟩
  · rw [Jar.text, hPlace, hUsed, List.drop_left, List.takeWhile_append_of_pos, List.takeWhile_cons]
    · simp
    · intro b hb
      exact decide_eq_true (ne_of_mem_of_not_mem hb hText)
  · intro m
    have hFresh : Fresh (.write (text ++ [0]) 0 :: List.replicate m look) := by
      intro len fPos left hMem
      exact fresh_replicate_look m len fPos left ((List.mem_cons.mp hMem).resolve_left (by simp))
    have hAnswers := hSame _ hFresh
    rw [exec_write hFits hSome, exec_write hFits' hSome'] at hAnswers
    exact Option.map_injective (fun _ _ hCons => (List.cons.inj hCons).2) hAnswers

theorem Trailing.nonempty {xs text : List UInt8} {j k : Jar size} (h : Trailing xs text j k) :
    j.used ≠ [] ∧ k.used ≠ [] := by
  rw [h.used, h.used']
  simp

theorem head_takeWhile {b : UInt8} {xs : List UInt8} {p : UInt8 → Bool}
    (h : (xs.takeWhile p).head? = some b) : xs.head? = some b := by
  cases xs with
  | nil => simp at h
  | cons x rest =>
    rw [List.takeWhile_cons] at h
    split at h
    · exact h
    · cases h

/-- A cookie of one byte with which the first cookie in the jar does not start. -/
theorem Apart.not_same {j k : Jar size} (h : Apart j k) (hRoom : j.used.length + 2 ≤ size) :
    ¬ Same j k := by
  intro hSame
  have hLength := List.length_pos_iff.mpr h.nonempty
  obtain ⟨b, hZero, hNew⟩ : ∃ b : UInt8, 0 ≠ b ∧ j.used.head? ≠ some b := by
    by_cases hOne : j.used.head? = some 1
    · exact ⟨2, by simp, by simp [hOne]⟩
    · exact ⟨1, by simp, hOne⟩
  have hText : 0 ∉ [b] := by rwa [List.mem_singleton]
  obtain ⟨j', k', hNext⟩ := h.trailing hSame hText (by simpa using hRoom)
  obtain ⟨hSome, hSome'⟩ := hNext.nonempty
  have hAnswers := hNext.same 1
  rw [List.replicate_one, exec_look hSome, exec_look hSome', hNext.text] at hAnswers
  simp only [exec, execAll, Option.map_some, Option.some.injEq, List.cons.injEq, and_true,
    Reply.read.injEq, Reading.mk.injEq, Except.ok.injEq] at hAnswers
  obtain ⟨hShown, -, hSize⟩ := hAnswers
  rw [List.length_singleton] at hSize
  rw [shown_eq (by rw [List.length_singleton]; omega), shown_eq (by omega)] at hShown
  have hFirst := congrArg List.head? (List.append_cancel_right hShown)
  have hHead := head_takeWhile hFirst.symm
  have hPlace : k'.place = 0 := by
    rw [Jar.place, hNext.atStart]
    exact ite_self 0
  rw [hPlace, hNext.used', List.drop_zero, List.head?_append, Option.or_eq_some_iff] at hHead
  rcases hHead with hHead | ⟨hNone, -⟩
  · exact hNew hHead
  · exact h.nonempty (List.head?_eq_none_iff.mp hNone)

theorem zero_of_text_nil {j : Jar size} (hCursor : j.cursor < j.used.length)
    (hText : j.text = []) : j.used[j.cursor]? = some 0 := by
  have hPlace : j.place = j.cursor := if_neg (Nat.not_le.mpr hCursor)
  rw [text, hPlace, List.drop_eq_getElem_cons hCursor, List.takeWhile_cons] at hText
  split at hText
  · cases hText
  · next hZero =>
    rw [List.getElem?_eq_getElem hCursor]
    simpa using hZero

/-- As long as the reads give empty cookies, all bytes that they pass are zero. -/
theorem zeros_of_looks {j : Jar size} {reply : Reading} (hReply : reply.ret = .ok 1) {m : Nat}
    (hLooks : (j.exec (List.replicate m look)).map Prod.snd =
      some (List.replicate m (.read reply)))
    {i : Nat} (hStart : j.cursor ≤ i) (hEnd : i < j.cursor + m) (hi : i < j.used.length) :
    j.used[i]? = some 0 := by
  induction m generalizing j with
  | zero => omega
  | succ m ih =>
    have hSome : j.used ≠ [] := List.length_pos_iff.mp (by omega)
    have hCursor : j.cursor < j.used.length := by omega
    have hPlace : j.place = j.cursor := if_neg (Nat.not_le.mpr hCursor)
    rw [List.replicate_succ, exec_look hSome, List.replicate_succ] at hLooks
    obtain ⟨replies, hRest, hBoth⟩ := Option.map_eq_some_iff.mp hLooks
    obtain ⟨hFirst, rfl⟩ := List.cons.inj hBoth
    have hText : j.text = [] := by
      apply List.eq_nil_of_length_eq_zero
      have hRet := congrArg Reading.ret (Reply.read.inj hFirst)
      rw [hReply] at hRet
      have hLength := Except.ok.inj hRet
      omega
    by_cases hHere : i = j.cursor
    · subst hHere
      exact zero_of_text_nil hCursor hText
    · have hNext : (j.advanced hSome).cursor = j.cursor + 1 := by
        simp [advanced, hPlace, hText]
      exact ih (j := j.advanced hSome) hRest (by omega) (by omega) hi

/-- One jar is always one look behind the other, so all looks give the same. -/
theorem looks_of_behind {j k : Jar size} (hSome : j.used ≠ [])
    (hBehind : Alike (j.advanced hSome) k)
    (hSame : ∀ m, (j.exec (List.replicate m look)).map Prod.snd =
      (k.exec (List.replicate m look)).map Prod.snd) (m : Nat) :
    (k.exec (List.replicate m look)).map Prod.snd = some (List.replicate m
      (.read ⟨shown size j.text, ↑(j.text.length + 1), .ok (j.text.length + 1)⟩)) := by
  induction m with
  | zero => rfl
  | succ m ih =>
    rw [← hSame, List.replicate_succ, exec_look hSome, hBehind.replies, ih]
    rfl

/-- An empty cookie in the last byte of the jar: the jar at the end gives it first, and then
what the other gives. -/
theorem Apart.zeros {j k : Jar size} (h : Apart j k) (hLast : j.used.length + 1 = size)
    (hSame : Same j k) : ∀ b ∈ j.used, b = 0 := by
  obtain ⟨j', k', hNext⟩ := h.trailing hSame List.not_mem_nil (by simp [hLast])
  obtain ⟨hSome, -⟩ := hNext.nonempty
  have hBehind : Alike (j'.advanced hSome) k' := by
    refine ⟨hNext.used.trans hNext.used'.symm, Or.inl ⟨?_, ?_⟩⟩
    · rw [advanced, hNext.used]
      simpa using hLast
    · have hEnd : (j'.advanced hSome).cursor ≥ (j'.advanced hSome).used.length := by
        change j'.place + (j'.text.length + 1) ≥ j'.used.length
        rw [hNext.place, hNext.text, hNext.used]
        simp
      rw [place, if_pos hEnd, place, hNext.atStart]
      exact (ite_self 0).symm
  have hLooks := looks_of_behind hSome hBehind hNext.same
  intro b hb
  obtain ⟨i, hi⟩ := List.mem_iff_getElem?.mp (List.mem_append_left ([] ++ [0]) hb)
  rw [← hNext.used'] at hi
  have hLt := (List.getElem?_eq_some_iff.mp hi).1
  have hZero := zeros_of_looks (by rw [hNext.text]; rfl) (hLooks k'.used.length)
    (by rw [hNext.atStart]; exact Nat.zero_le i) (by omega) hLt
  rw [hi] at hZero
  exact Option.some.inj hZero

theorem same_rewound_iff {j : Jar size} (hSome : j.used ≠ []) :
    Same j j.rewound ↔ j.cursor < j.used.length ∨ j.used.length = size ∨
      j.used.length + 1 = size ∧ ∀ b ∈ j.used, b = 0 := by
  have hBehind := j.behind
  have hFits := j.fits
  constructor
  · intro hSame
    by_cases hBefore : j.cursor < j.used.length
    · exact Or.inl hBefore
    have hApart : Apart j j.rewound := ⟨rfl, hSome, by omega, if_pos (Nat.not_lt.mp hBefore)⟩
    by_cases hFull : j.used.length = size
    · exact Or.inr (Or.inl hFull)
    by_cases hLast : j.used.length + 1 = size
    · exact Or.inr (Or.inr ⟨hLast, hApart.zeros hLast hSame⟩)
    · exact absurd hSame (hApart.not_same (by omega))
  · rintro (hBefore | hFull | ⟨hLast, hZeros⟩) later -
    · rw [rewound_of_lt hBefore]
    · apply Alike.replies
      exact ⟨rfl, Or.inl ⟨hFull, (place_rewound hSome).symm⟩⟩
    · apply Alike.replies
      exact ⟨rfl, Or.inr ⟨by omega, hZeros⟩⟩

/-- What a call that fails can do. -/
theorem call_failed {j j' : Jar size} {c : Call} {reply : Reply}
    (hCall : j.call c = some (j', reply)) (hFailed : reply.Failed) :
    (∃ buf left, c = .write buf left) ∧ j' = j ∨
      (∃ len fPos left, c = .read len fPos left) ∧ j.used ≠ [] ∧ j' = j.rewound := by
  cases c with
  | write buf left =>
    refine Or.inl ⟨⟨buf, left, rfl⟩, ?_⟩
    obtain ⟨⟨j₁, ret⟩, hWrite, hReply⟩ := Option.map_eq_some_iff.mp hCall
    cases hReply
    obtain ⟨e, rfl⟩ := hFailed
    unfold write at hWrite
    split at hWrite
    · cases hWrite
      rfl
    · split at hWrite
      · split at hWrite
        · cases hWrite
          rfl
        · split at hWrite
          · cases hWrite
          · cases hWrite
      · cases hWrite
  | read len fPos left =>
    refine Or.inr ⟨⟨len, fPos, left, rfl⟩, ?_⟩
    rw [call, read] at hCall
    split at hCall
    · cases hCall
      obtain ⟨e, he⟩ := hFailed
      cases he
    · next hStarted =>
      refine ⟨fun hNone => hStarted (Or.inr hNone), ?_⟩
      dsimp only at hCall
      split at hCall
      · cases hCall
        rfl
      · cases hCall
        obtain ⟨e, he⟩ := hFailed
        cases he

end Jar

theorem indistinct_iff {s s' : State} {j j' : Jar size} (h : Represents s j)
    (h' : Represents s' j') : Indistinct size s s' ↔ Jar.Same j j' := by
  constructor
  · intro hIndistinct later hFresh
    rw [← (exec_simulates h later).replies, ← (exec_simulates h' later).replies]
    exact (hIndistinct later hFresh).symm
  · intro hSame later hFresh
    rw [(exec_simulates h later).replies, (exec_simulates h' later).replies]
    exact (hSame later hFresh).symm

theorem Represents.harmless_iff {s : State} {j : Jar size} (h : Represents s j) (len : Nat)
    (fPos : Int) (left : Nat) :
    Harmless size s (.read len fPos left) ↔ j.cursor < j.used.length ∨ j.used.length = size ∨
      j.used.length + 1 = size ∧ ∀ b ∈ j.used, b = 0 := by
  rw [Harmless, h.used, h.readInd, h.writeInd]
  simp

/-- A call that fails leaves the module as if it had not been made exactly if it is harmless,
that is, if it is not a read that takes `readInd` back while there is still room for a cookie
that would tell. -/
theorem failed_call_no_effect_iff (calls : List Call) (c : Call) {s s' : State}
    {replies : List Reply} {reply : Reply}
    (hExec : exec size (loaded size) calls = some (s, replies))
    (hCall : call size s c = some (s', reply)) (hFailed : reply.Failed) :
    Indistinct size s s' ↔ Harmless size s c := by
  obtain ⟨j, hj⟩ := exec_represents hExec
  have hAgree := call_simulates hj c
  rw [hCall] at hAgree
  obtain ⟨j', hJar, hj'⟩ := hAgree.left
  rw [indistinct_iff hj hj']
  rcases Jar.call_failed hJar hFailed with ⟨hWrite, rfl⟩ | ⟨⟨len, fPos, left, rfl⟩, hSome, rfl⟩
  · constructor
    · intro _
      exact Or.inl hWrite
    · intro _ later _
      rfl
  · rw [hj.harmless_iff, Jar.same_rewound_iff hSome]

/-- A jar with one cookie, before and after it has been read. -/
def unread : Jar 4096 := ⟨[97, 0], 0, by simp, Or.inr ⟨[97], rfl⟩, by simp, Or.inl rfl⟩

def onceRead : Jar 4096 := ⟨[97, 0], 2, by simp, Or.inr ⟨[97], rfl⟩, by simp, Or.inr rfl⟩

/-- A read that fails before the only cookie has been read. -/
theorem failed_call_no_effect_unread : ∃ s s' replies reply,
    exec 4096 (loaded 4096) [.write [97, 10] 0] = some (s, replies) ∧
      call 4096 s (.read 2 0 2) = some (s', reply) ∧ reply.Failed ∧ Indistinct 4096 s s' := by
  obtain ⟨s, hExec, hState⟩ := exec_loaded [.write [97, 10] 0] (j := unread) rfl
  have hFault : Agree Represents (call 4096 s (.read 2 0 2))
    (some (unread, .read ⟨[], 0, .error .EFAULT⟩)) := call_simulates hState (.read 2 0 2)
  obtain ⟨s', hCall, -⟩ := hFault.right
  refine ⟨s, s', _, _, hExec, hCall, ⟨.EFAULT, rfl⟩, ?_⟩
  rw [failed_call_no_effect_iff _ _ hExec hCall ⟨.EFAULT, rfl⟩, hState.harmless_iff]
  simp [unread]

/-- The only cookie has been read and the next read fails. Then the next cookie to be written
should be the next one to be read, but it is the first one that is. -/
theorem not_noEffect_rewound : ¬ ∀ calls c s s' replies reply,
    exec 4096 (loaded 4096) calls = some (s, replies) → call 4096 s c = some (s', reply) →
    reply.Failed → Indistinct 4096 s s' := by
  intro h
  obtain ⟨s, hExec, hState⟩ := exec_loaded [.write [97, 10] 0, .read 2 0 0] (j := onceRead) rfl
  have hFault : Agree Represents (call 4096 s (.read 2 0 2))
    (some (unread, .read ⟨[], 0, .error .EFAULT⟩)) := call_simulates hState (.read 2 0 2)
  obtain ⟨s', hCall, hState'⟩ := hFault.right
  have hFresh : Fresh [.write [98, 10] 0, .read 2 0 0] := by
    intro len fPos left hMem
    simp only [List.mem_cons, reduceCtorEq, Call.read.injEq, List.not_mem_nil, or_false,
      false_or] at hMem
    exact hMem.2.1
  have hSame := h _ _ s s' _ _ hExec hCall ⟨.EFAULT, rfl⟩ _ hFresh
  rw [(exec_simulates hState _).replies, (exec_simulates hState' _).replies] at hSame
  have hAfter : (unread.exec [.write [98, 10] 0, .read 2 0 0]).map Prod.snd =
      some [.wrote (.ok 2), .read ⟨[97, 10], 2, .ok 2⟩] := rfl
  have hOtherwise : (onceRead.exec [.write [98, 10] 0, .read 2 0 0]).map Prod.snd =
      some [.wrote (.ok 2), .read ⟨[98, 10], 2, .ok 2⟩] := rfl
  rw [hAfter, hOtherwise] at hSame
  simp at hSame

end OsLabs.Fortune
