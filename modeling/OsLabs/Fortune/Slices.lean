import Mathlib.Data.List.Forall2
import OsLabs.Fortune.Jar

/-!
# The user's buffer

`fortuneRead` does not look at the length of the user's buffer. It copies the whole cookie
with its line break, and then the file is at its end. So a program that reads a file until
it gets nothing more receives the cookie as it should exactly if all of its buffers up to the
first successful read are large enough, if there is a cookie at all, if the cookie is
not one that fills the whole pot, whose line break does not fit into `tmpBuf`, and if the string
that comes next is a whole cookie: one that contains a zero byte is handed out in parts.
-/

namespace OsLabs.Fortune

open Memory Runs

variable {size : Nat}

/-- The length of a buffer, and the number of bytes of it that could not be copied to. -/
structure Slice where
  len : Nat
  left : Nat

/-- One read on an open file, which knows its position. -/
def readOn (size : Nat) : State × Int → Slice → Option ((State × Int) × Reading)
  | (s, fPos), slice =>
    (fortuneRead size s slice.len fPos slice.left).map fun (s, r) => ((s, r.fPos), r)

/-- The reads on a freshly opened file. -/
def readings (size : Nat) (s : State) (slices : List Slice) : Option (List Reading) :=
  (execAll (readOn size) (s, 0) slices).map Prod.snd

/-- The bytes that the successful reads give up to the first one that gives none. -/
def untilEnd : List Reading → Option (List UInt8)
  | [] => none
  | r :: rest =>
    match r.ret with
    | .ok 0 => some []
    | .ok _ => (untilEnd rest).map (r.data ++ ·)
    | .error _ => untilEnd rest

/-- The read stores at most as much as the buffer holds, and returns no more than that. -/
def InBuffer (slice : Slice) (r : Reading) : Prop :=
  r.data.length ≤ slice.len ∧ ∀ n, r.ret = .ok n → n ≤ slice.len

/-- The text of the cookie that a call has stored. The last byte written becomes the zero. -/
def cookieOf : Call × Reply → Option (List UInt8)
  | (.write buf _, .wrote (.ok _)) => if buf = [] then none else some buf.dropLast
  | _ => none

/-- The texts of the cookies stored so far. -/
def cookies (calls : List Call) (replies : List Reply) : List (List UInt8) :=
  (calls.zip replies).filterMap cookieOf

/-- The reads keep inside their buffers, and what they give is one of the cookies with a line
break. -/
structure Honoured (texts : List (List UInt8)) (slices : List Slice) (rs : List Reading) :
    Prop where
  inBuffer : List.Forall₂ InBuffer slices rs
  cookie : ∀ bytes, untilEnd rs = some bytes → ∃ text ∈ texts, bytes = text ++ [newline]

/-- Every buffer has room for what is copied to it, as long as no read has copied all of the
`readLen` bytes. Only if they are `whole` and do not fill the pot is more asked for. -/
def Roomy (size readLen : Nat) (whole : Prop) : List Slice → Prop
  | [] => True
  | slice :: rest =>
    readLen - slice.left ≤ slice.len ∧
      if slice.left ≠ 0 then Roomy size readLen whole rest
      else rest = [] ∨ readLen < size ∧ whole

/-- The string in the pot that comes next. -/
def nextText (s : State) : Option (List UInt8) :=
  cstr s.cookiePot (if s.readInd ≥ s.writeInd then 0 else s.readInd)

/-- There is a cookie, and the buffers have room for the next string. -/
def Served (size : Nat) (s : State) (whole : List UInt8 → Prop) (slices : List Slice) : Prop :=
  slices = [] ∨ s.writeInd ≠ 0 ∧
    ∀ text, nextText s = some text → Roomy size (text.length + 1) (whole text) slices

/-! ## The jar -/

namespace Jar

def readOn : Jar size × Int → Slice → Option ((Jar size × Int) × Reading)
  | (j, fPos), slice =>
    let (j, r) := j.read fPos slice.left
    some ((j, r.fPos), r)

/-- What the reads give for a cookie with this text. -/
def results (size : Nat) (text : List UInt8) : List Slice → List Reading
  | [] => []
  | slice :: rest =>
    if slice.left ≠ 0 then
      ⟨(shown size text).take (text.length + 1 - slice.left), 0, .error .EFAULT⟩ ::
        results size text rest
    else
      ⟨shown size text, ↑(text.length + 1), .ok (text.length + 1)⟩ ::
        rest.map fun _ => ⟨[], ↑(text.length + 1), .ok 0⟩

/-- At the end of the file nothing more is read. -/
theorem readOn_atEnd {j : Jar size} {fPos : Int} (hEnd : fPos > 0 ∨ j.used = [])
    (slices : List Slice) :
    execAll readOn (j, fPos) slices =
      some ((j, fPos), slices.map fun _ => ⟨[], fPos, .ok 0⟩) := by
  induction slices with
  | nil => rfl
  | cons slice rest ih =>
    simp only [execAll, readOn, read, dif_pos hEnd, Option.bind_some, ih]
    rfl

theorem text_rewound {j : Jar size} (hSome : j.used ≠ []) : j.rewound.text = j.text := by
  rw [text, place_rewound hSome]
  rfl

theorem readOn_results {j : Jar size} (hSome : j.used ≠ []) (slices : List Slice) :
    (execAll readOn (j, 0) slices).map Prod.snd = some (results size j.text slices) := by
  induction slices generalizing j with
  | nil => rfl
  | cons slice rest ih =>
    have hEnd : ¬ ((0 : Int) > 0 ∨ j.used = []) := by simp [hSome]
    rw [results]
    by_cases hFault : slice.left ≠ 0
    · have hFirst : readOn (j, 0) slice = some ((j.rewound, 0),
          ⟨(shown size j.text).take (j.text.length + 1 - slice.left), 0, .error .EFAULT⟩) := by
        simp only [readOn, read, dif_neg hEnd, if_pos hFault]
      rw [if_pos hFault, replies_cons hFirst, ih (j := j.rewound) hSome, text_rewound hSome]
      rfl
    · have hFirst : readOn (j, 0) slice = some ((j.advanced hSome, ↑(j.text.length + 1)),
          ⟨shown size j.text, ↑(j.text.length + 1), .ok (j.text.length + 1)⟩) := by
        simp only [readOn, read, dif_neg hEnd, if_neg hFault, Int.zero_add]
      rw [if_neg hFault, replies_cons hFirst, readOn_atEnd (Or.inl (by omega))]
      rfl

theorem length_shown {text : List UInt8} (hFits : text.length + 1 ≤ size) :
    (shown size text).length = text.length + 1 := by
  simp only [shown, List.length_take, List.length_append, List.length_singleton]
  omega

/-- The line break of a cookie that fills the pot is cut off. -/
theorem shown_full {text : List UInt8} (hFull : text.length + 1 = size) :
    shown size text = text ++ [0] := by
  subst hFull
  rw [shown, Nat.add_sub_cancel, List.take_left, List.take_of_length_le]
  simp

/-! ## The cookies in the jar -/

/-- A jar that holds cookies with these texts. -/
def Holds (j : Jar size) (texts : List (List UInt8)) : Prop :=
  j.used = texts.flatMap (· ++ [0])

theorem Holds.added {j : Jar size} {texts : List (List UInt8)} (h : j.Holds texts)
    {buf : List UInt8} (hFits : (j.used ++ buf).length ≤ size) (hSome : j.used ++ buf ≠ []) :
    (j.added buf hFits hSome).Holds
      (texts ++ if buf = [] then [] else [buf.dropLast]) := by
  show (j.used ++ buf).dropLast ++ [0] = _
  rw [List.flatMap_append, ← show j.used = _ from h]
  split
  · next hNil =>
    -- the last byte is a zero already
    subst hNil
    rw [List.append_nil] at hSome ⊢
    obtain ⟨front, hClosed⟩ := j.closed.resolve_left hSome
    rw [hClosed, List.dropLast_concat]
    exact (List.append_nil _).symm
  · next hBytes =>
    rw [List.dropLast_append_of_ne_nil hBytes]
    simp

theorem used_read (j : Jar size) (fPos : Int) (left : Nat) :
    (j.read fPos left).1.used = j.used := by
  unfold read
  split
  · rfl
  · dsimp only
    split
    · rfl
    · rfl

/-- The jar holds the cookies that have been written. -/
theorem exec_holds {calls : List Call} {replies : List Reply} {j : Jar size}
    (hExec : (empty : Jar size).exec calls = some (j, replies)) :
    j.Holds (cookies calls replies) := by
  suffices h : calls.length = replies.length ∧ j.Holds (cookies calls replies) from h.2
  have hRun : execAll call (empty : Jar size) calls = some (j, replies) := hExec
  have hStart : (empty : Jar size).Holds (cookies [] []) := rfl
  refine execAll_invariant (P := fun (j : Jar size) calls replies =>
    calls.length = replies.length ∧ j.Holds (cookies calls replies)) ?_ ⟨rfl, hStart⟩ hRun
  rintro j calls replies c j' reply ⟨hLength, hHolds⟩ hCall
  refine ⟨by rw [List.length_append, List.length_append, hLength]; rfl, ?_⟩
  rw [cookies, List.zip_append hLength, List.filterMap_append, ← cookies]
  cases c with
  | read len fPos left =>
    cases hCall
    rw [show List.filterMap cookieOf _ = [] from rfl, List.append_nil]
    exact (used_read j fPos left).trans hHolds
  | write buf left =>
    obtain ⟨⟨j₁, ret⟩, hWrite, hEq⟩ := Option.map_eq_some_iff.mp hCall
    cases hEq
    unfold write at hWrite
    split at hWrite
    · cases hWrite
      exact (List.append_nil (cookies calls replies)).symm ▸ hHolds
    · split at hWrite
      · split at hWrite
        · cases hWrite
          exact (List.append_nil (cookies calls replies)).symm ▸ hHolds
        · split at hWrite
          · cases hWrite
          · next hSome =>
            cases hWrite
            have hAdded := hHolds.added (by assumption) hSome
            by_cases hNil : buf = []
            · simpa [cookieOf, hNil] using hAdded
            · simpa [cookieOf, hNil] using hAdded
      · cases hWrite

/-- Where there is no other zero byte, a string that begins after one is a whole cookie. -/
theorem takeWhile_mem {texts : List (List UInt8)} (hPlain : ∀ text ∈ texts, 0 ∉ text) {p : Nat}
    (hPlace : p < (texts.flatMap (· ++ [0])).length)
    (hBegins : p = 0 ∨ (texts.flatMap (· ++ [0]))[p - 1]? = some 0) :
    ((texts.flatMap (· ++ [0])).drop p).takeWhile (· ≠ 0) ∈ texts := by
  induction texts generalizing p with
  | nil => cases hPlace
  | cons text rest ih =>
    have hText : ∀ b ∈ text, decide (b ≠ 0) = true := fun b hb =>
      decide_eq_true fun hZero => hPlain text List.mem_cons_self (hZero ▸ hb)
    rw [List.flatMap_cons] at hPlace hBegins ⊢
    rw [List.append_assoc] at hPlace hBegins ⊢
    rcases Nat.eq_zero_or_pos p with rfl | hPos
    · rw [List.drop_zero, List.takeWhile_append_of_pos hText]
      simp
    · have hZero := hBegins.resolve_left (by omega)
      have hBehind : text.length < p := by
        by_contra hInside
        rw [List.getElem?_append_left (by omega)] at hZero
        exact hPlain text List.mem_cons_self (List.mem_of_getElem? hZero)
      obtain ⟨q, rfl⟩ : ∃ q, p = text.length + (1 + q) := ⟨p - text.length - 1, by omega⟩
      rw [← List.drop_drop, List.drop_left, ← List.drop_drop]
      refine List.mem_cons_of_mem text (ih (fun t ht => hPlain t (List.mem_cons_of_mem _ ht)) ?_ ?_)
      · simp only [List.length_append, List.length_singleton] at hPlace
        omega
      · rcases Nat.eq_zero_or_pos q with rfl | hMore
        · exact Or.inl rfl
        · right
          rw [List.getElem?_append_right (by omega)] at hZero
          rw [show text.length + (1 + q) - 1 - text.length = (q - 1) + 1 by omega] at hZero
          simpa using hZero

theorem text_mem {j : Jar size} {texts : List (List UInt8)} (h : j.Holds texts)
    (hPlain : ∀ text ∈ texts, 0 ∉ text) (hSome : j.used ≠ []) : j.text ∈ texts := by
  have hPlace := place_lt hSome
  have hBegins := j.rewound.boundary
  unfold Holds at h
  rw [text, h]
  rw [h] at hPlace
  exact takeWhile_mem hPlain hPlace (h ▸ hBegins)

end Jar

/-! ## The buffers -/

variable {texts : List (List UInt8)}

theorem Honoured.error_cons {slice : Slice} {slices : List Slice} {r : Reading}
    {rs : List Reading} {e : Errno} (hRet : r.ret = .error e) :
    Honoured texts (slice :: slices) (r :: rs) ↔
      r.data.length ≤ slice.len ∧ Honoured texts slices rs := by
  have hSame : untilEnd (r :: rs) = untilEnd rs := by rw [untilEnd, hRet]
  constructor
  · intro h
    obtain ⟨hFirst, hRest⟩ := List.forall₂_cons.mp h.inBuffer
    exact ⟨hFirst.1, hRest, hSame ▸ h.cookie⟩
  · rintro ⟨hFirst, hRest⟩
    refine ⟨List.forall₂_cons.mpr ⟨⟨hFirst, ?_⟩, hRest.inBuffer⟩, hSame ▸ hRest.cookie⟩
    rw [hRet]
    simp

/-- The reads after the first successful one. -/
theorem honoured_ok_cons {slice : Slice} {data : List UInt8} {n : Nat}
    (hLength : data.length = n + 1) (rest : List Slice) :
    Honoured texts (slice :: rest) (⟨data, ↑(n + 1), .ok (n + 1)⟩ ::
        rest.map fun _ => ⟨[], ↑(n + 1), .ok 0⟩) ↔
      n + 1 ≤ slice.len ∧ (rest = [] ∨ ∃ text ∈ texts, data = text ++ [newline]) := by
  have hRest : List.Forall₂ InBuffer rest (rest.map fun _ => ⟨[], ↑(n + 1), .ok 0⟩) := by
    rw [List.forall₂_map_right_iff, List.forall₂_same]
    intro later _
    simp [InBuffer]
  constructor
  · intro h
    obtain ⟨hFirst, -⟩ := List.forall₂_cons.mp h.inBuffer
    refine ⟨hFirst.2 _ rfl, ?_⟩
    by_cases hNone : rest = []
    · exact Or.inl hNone
    · obtain ⟨next, more, rfl⟩ := List.exists_cons_of_ne_nil hNone
      obtain ⟨text, hText⟩ := h.cookie (data ++ []) rfl
      rw [List.append_nil] at hText
      exact Or.inr ⟨text, hText⟩
  · rintro ⟨hFirst, hCookie⟩
    refine ⟨List.forall₂_cons.mpr ⟨⟨by rwa [hLength], ?_⟩, hRest⟩, ?_⟩
    · intro m hm
      cases hm
      exact hFirst
    · intro bytes hBytes
      rcases hCookie with rfl | hText
      · cases hBytes
      · cases rest with
        | nil => cases hBytes
        | cons next more =>
          rw [List.map_cons, untilEnd] at hBytes
          obtain rfl : data ++ [] = bytes := Option.some.inj hBytes
          rwa [List.append_nil]

theorem shown_mem_iff {text : List UInt8} (hFits : text.length + 1 ≤ size) :
    (∃ other ∈ texts, Jar.shown size text = other ++ [newline]) ↔
      text.length + 1 < size ∧ text ∈ texts := by
  constructor
  · rintro ⟨other, hOther, hShown⟩
    have hRoom : text.length + 1 < size := by
      by_contra hFull
      rw [Jar.shown_full (by omega)] at hShown
      have hLast := (List.append_inj' hShown rfl).2
      simp [newline] at hLast
    rw [Jar.shown_eq hRoom] at hShown
    obtain rfl := (List.append_inj' hShown rfl).1
    exact ⟨hRoom, hOther⟩
  · rintro ⟨hRoom, hText⟩
    exact ⟨text, hText, Jar.shown_eq hRoom⟩

theorem honoured_results_iff {text : List UInt8} (hFits : text.length + 1 ≤ size)
    (slices : List Slice) :
    Honoured texts slices (Jar.results size text slices) ↔
      Roomy size (text.length + 1) (text ∈ texts) slices := by
  have hLength := Jar.length_shown hFits
  induction slices with
  | nil => exact iff_of_true ⟨.nil, fun _ hNone => nomatch hNone⟩ trivial
  | cons slice rest ih =>
    rw [Jar.results, Roomy]
    by_cases hFault : slice.left ≠ 0
    · rw [if_pos hFault, if_pos hFault, Honoured.error_cons rfl, List.length_take, hLength,
        Nat.min_eq_left (Nat.sub_le _ _)]
      exact and_congr_right fun _ => ih
    · rw [if_neg hFault, if_neg hFault, honoured_ok_cons hLength, shown_mem_iff hFits,
        not_not.mp hFault, Nat.sub_zero]

/-- The file is at the same position and the module holds the jar. -/
def SameFile (x : State × Int) (y : Jar size × Int) : Prop :=
  Represents x.1 y.1 ∧ x.2 = y.2

theorem readOn_simulates {x : State × Int} {y : Jar size × Int} (h : SameFile x y)
    (slice : Slice) : Agree SameFile (readOn size x slice) (Jar.readOn y slice) := by
  obtain ⟨s, fPos⟩ := x
  obtain ⟨j, fPos'⟩ := y
  obtain ⟨hState, rfl⟩ : Represents s j ∧ fPos = fPos' := h
  obtain ⟨s', hRead, hNext⟩ := (fortuneRead_simulates hState slice.len fPos slice.left).right
  rw [readOn, hRead]
  exact .some ⟨⟨hNext, rfl⟩, rfl⟩

theorem readings_eq {s : State} {j : Jar size} (h : Represents s j) (slices : List Slice) :
    readings size s slices = (execAll Jar.readOn (j, 0) slices).map Prod.snd := by
  have hFile : SameFile (s, 0) (j, 0) := ⟨h, rfl⟩
  exact (execAll_agree (fun _ _ slice hSame => readOn_simulates hSame slice) hFile slices).replies

theorem Represents.nextText_eq {s : State} {j : Jar size} (h : Represents s j)
    (hSome : j.used ≠ []) : nextText s = some j.text := by
  have hPlace : (if s.readInd ≥ s.writeInd then 0 else s.readInd) = j.place := by
    rw [h.readInd, h.writeInd]
    rfl
  rw [nextText, hPlace, h.cstr_place hSome]

theorem honoured_iff {s : State} {j : Jar size} (hj : Represents s j) (slices : List Slice) :
    (∃ rs, readings size s slices = some rs ∧ Honoured texts slices rs) ↔
      Served size s (· ∈ texts) slices := by
  have hEmpty : s.writeInd = 0 ↔ j.used = [] := by rw [hj.writeInd, List.length_eq_zero_iff]
  rw [readings_eq hj, Served]
  by_cases hSome : j.used = []
  · -- An empty pot gives an empty file, which is no cookie.
    rw [Jar.readOn_atEnd (Or.inr hSome)]
    constructor
    · rintro ⟨rs, hRs, hHonoured⟩
      cases slices with
      | nil => exact Or.inl rfl
      | cons slice rest =>
        cases hRs
        obtain ⟨text, -, hText⟩ := hHonoured.cookie [] rfl
        simp at hText
    · rintro (rfl | ⟨hWritten, -⟩)
      · exact ⟨[], rfl, .nil, fun _ hNone => nomatch hNone⟩
      · exact absurd (hEmpty.mpr hSome) hWritten
  · have hText := Jar.text_lt hSome
    have hFits := j.fits
    rw [Jar.readOn_results hSome, hj.nextText_eq hSome]
    simp only [Option.some.injEq, exists_eq_left', forall_eq']
    rw [honoured_results_iff (by omega)]
    constructor
    · intro hRoomy
      exact Or.inr ⟨hEmpty.not.mpr hSome, hRoomy⟩
    · rintro (rfl | ⟨-, hRoomy⟩)
      · trivial
      · exact hRoomy

/-- From every state that the module can reach, the reads on one open file keep inside their
buffers and give one cookie with a line break exactly if there is a cookie, the buffers
have room for the next string, and this is a whole cookie. It always is when no cookie contains a
zero byte. -/
theorem buffer_honoured_iff (calls : List Call) (slices : List Slice) {s : State}
    {replies : List Reply} (hExec : exec size (loaded size) calls = some (s, replies)) :
    ((∃ rs, readings size s slices = some rs ∧ Honoured (cookies calls replies) slices rs) ↔
      Served size s (· ∈ cookies calls replies) slices) ∧
    ((∀ text ∈ cookies calls replies, 0 ∉ text) →
      ((∃ rs, readings size s slices = some rs ∧ Honoured (cookies calls replies) slices rs) ↔
        Served size s (fun _ => True) slices)) := by
  have hAgree := exec_simulates (represents_loaded : Represents _ (Jar.empty : Jar size)) calls
  rw [hExec] at hAgree
  obtain ⟨j, hJar, hj⟩ := hAgree.left
  refine ⟨honoured_iff hj slices, fun hPlain => ?_⟩
  rw [honoured_iff hj slices, Served, Served]
  refine or_congr_right (and_congr_right fun hWritten => ?_)
  have hSome : j.used ≠ [] := by
    rwa [Ne, hj.writeInd, List.length_eq_zero_iff] at hWritten
  rw [hj.nextText_eq hSome]
  simp only [Option.some.injEq, forall_eq',
    Jar.text_mem (Jar.exec_holds hJar) hPlain hSome]

/-- A jar with the cookie `a`. -/
def letterA : Jar 4096 := Jar.empty.added [97, 10] (by simp [Jar.empty]) (by simp)

theorem exec_letterA : ∃ s, exec 4096 (loaded 4096) [.write [97, 10] 0] =
    some (s, [.wrote (.ok 2)]) ∧ Represents s letterA :=
  exec_loaded [.write [97, 10] 0] rfl

/-- Two reads with buffers of two bytes. -/
theorem buffer_honoured_two : ∃ s rs,
    exec 4096 (loaded 4096) [.write [97, 10] 0] = some (s, [.wrote (.ok 2)]) ∧
      readings 4096 s [⟨2, 0⟩, ⟨2, 0⟩] = some rs ∧
      Honoured (cookies [.write [97, 10] 0] [.wrote (.ok 2)]) [⟨2, 0⟩, ⟨2, 0⟩] rs := by
  obtain ⟨s, hExec, hState⟩ := exec_letterA
  have hSome : letterA.used ≠ [] := by simp [letterA, Jar.added]
  have hServed : Served 4096 s (fun _ => True) [⟨2, 0⟩, ⟨2, 0⟩] := by
    refine Or.inr ⟨by rw [hState.writeInd]; simp [letterA, Jar.added], ?_⟩
    intro text hText
    rw [hState.nextText_eq hSome] at hText
    obtain rfl : [97] = text := Option.some.inj hText
    simp [Roomy]
  obtain ⟨rs, hRs, hHonoured⟩ :=
    ((buffer_honoured_iff _ [⟨2, 0⟩, ⟨2, 0⟩] hExec).2 (by simp [cookies, cookieOf])).mpr hServed
  exact ⟨s, rs, hExec, hRs, hHonoured⟩

/-- A buffer of one byte, to which two are copied. -/
theorem not_honoured_short : ¬ ∀ calls slices s replies,
    exec 4096 (loaded 4096) calls = some (s, replies) → (∀ slice ∈ slices, 1 ≤ slice.len) →
    ∃ rs, readings 4096 s slices = some rs ∧ Honoured (cookies calls replies) slices rs := by
  intro h
  obtain ⟨s, hExec, hState⟩ := exec_letterA
  obtain ⟨rs, hRs, hHonoured⟩ := h _ [⟨1, 0⟩] s _ hExec (by simp)
  have hRead : (execAll Jar.readOn (letterA, 0) [⟨1, 0⟩]).map Prod.snd =
      some [⟨[97, 10], 2, .ok 2⟩] := rfl
  rw [readings_eq hState, hRead] at hRs
  obtain rfl := Option.some.inj hRs
  have hFirst := (List.forall₂_cons.mp hHonoured.inBuffer).1
  have hOver : 2 ≤ 1 := hFirst.1
  omega

end OsLabs.Fortune
