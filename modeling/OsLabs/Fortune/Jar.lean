import OsLabs.Fortune.Module
import OsLabs.Runs.Calls

/-!
# The part of the pot that is in use

All that the module's answers depend on are the bytes of the pot before `writeInd` and the
place of `readInd` among them. A `Jar` is just that: bytes that end with a zero, unless
there are none, and a cursor. `Represents` relates it to the variables of the module, and
`exec_simulates` says that the module answers every sequence of calls as the jar does. A
call that would leave an array is undefined in both.
-/

namespace OsLabs.Fortune

open Memory Runs

/-- The bytes in use, at most `size` of them, and the place of the next cookie to read. -/
@[ext]
structure Jar (size : Nat) where
  used : List UInt8
  cursor : Nat
  fits : used.length ≤ size
  closed : used = [] ∨ ∃ front, used = front ++ [0]
  behind : cursor ≤ used.length
  boundary : cursor = 0 ∨ used[cursor - 1]? = some 0

variable {size : Nat}

namespace Jar

def empty : Jar size := ⟨[], 0, Nat.zero_le size, Or.inl rfl, Nat.le_refl 0, Or.inl rfl⟩

/-- Where the next read starts. -/
def place (j : Jar size) : Nat := if j.cursor ≥ j.used.length then 0 else j.cursor

/-- The text of the cookie that the next read gives back. -/
def text (j : Jar size) : List UInt8 := (j.used.drop j.place).takeWhile (· ≠ 0)

theorem place_lt {j : Jar size} (hSome : j.used ≠ []) : j.place < j.used.length := by
  have hPos := List.length_pos_iff.mpr hSome
  unfold place
  split <;> omega

/-- A jar that is not empty is closed from every place on. -/
theorem zero_mem {j : Jar size} (hSome : j.used ≠ []) : 0 ∈ j.used.drop j.place := by
  obtain ⟨front, hClosed⟩ := j.closed.resolve_left hSome
  have hPlace := place_lt hSome
  rw [hClosed, List.length_append, List.length_singleton] at hPlace
  rw [hClosed, List.drop_append_of_le_length (by omega)]
  simp

theorem text_lt {j : Jar size} (hSome : j.used ≠ []) :
    j.place + j.text.length < j.used.length := by
  have hShort := length_takeWhile_lt (zero_mem hSome)
  rw [List.length_drop] at hShort
  have hPlace := place_lt hSome
  unfold text
  omega

theorem getElem_text {j : Jar size} (hSome : j.used ≠ []) :
    j.used[j.place + (j.text.length + 1) - 1]? = some 0 := by
  have hClose := getElem_takeWhile (zero_mem hSome)
  rwa [List.getElem?_drop] at hClose

/-- The jar with the cursor where the next read starts. -/
def rewound (j : Jar size) : Jar size :=
  { j with
    cursor := j.place
    behind := by
      unfold place
      split
      · exact Nat.zero_le _
      · exact j.behind
    boundary := by
      unfold place
      split
      · exact Or.inl rfl
      · exact j.boundary }

theorem place_rewound {j : Jar size} (hSome : j.used ≠ []) : j.rewound.place = j.place :=
  if_neg (Nat.not_le.mpr (place_lt hSome))

/-- The jar after the next cookie has been read. -/
def advanced (j : Jar size) (hSome : j.used ≠ []) : Jar size :=
  { j with
    cursor := j.place + (j.text.length + 1)
    behind := text_lt hSome
    boundary := Or.inr (getElem_text hSome) }

theorem getElem_dropLast_append {xs : List UInt8} {i : Nat} (h : xs[i]? = some 0) :
    (xs.dropLast ++ [0])[i]? = some 0 := by
  have hLt := (List.getElem?_eq_some_iff.mp h).1
  by_cases hLast : i < xs.dropLast.length
  · rw [List.getElem?_append_left hLast, List.getElem?_dropLast, if_pos, h]
    rwa [List.length_dropLast] at hLast
  · rw [List.length_dropLast] at hLast
    rw [List.getElem?_append_right (by rw [List.length_dropLast]; omega), List.length_dropLast]
    have hZero : i - (xs.length - 1) = 0 := by omega
    rw [hZero]
    rfl

/-- The jar with one more cookie, whose last byte becomes a zero. -/
def added (j : Jar size) (buf : List UInt8) (hFits : (j.used ++ buf).length ≤ size)
    (hSome : j.used ++ buf ≠ []) : Jar size where
  used := (j.used ++ buf).dropLast ++ [0]
  cursor := j.cursor
  fits := by
    have hPos := List.length_pos_iff.mpr hSome
    simp only [List.length_append, List.length_dropLast, List.length_singleton] at *
    omega
  closed := Or.inr ⟨_, rfl⟩
  behind := by
    have hPos := List.length_pos_iff.mpr hSome
    have hBehind := j.behind
    simp only [List.length_append, List.length_dropLast, List.length_singleton] at *
    omega
  boundary := by
    apply j.boundary.imp_right
    intro hZero
    apply getElem_dropLast_append
    rwa [List.getElem?_append_left (List.getElem?_eq_some_iff.mp hZero).1]

theorem length_added {j : Jar size} {buf : List UInt8} (hFits : (j.used ++ buf).length ≤ size)
    (hSome : j.used ++ buf ≠ []) :
    (j.added buf hFits hSome).used.length = (j.used ++ buf).length := by
  have hPos := List.length_pos_iff.mpr hSome
  simp only [added, List.length_append, List.length_dropLast, List.length_singleton] at hPos ⊢
  omega

def write (j : Jar size) (buf : List UInt8) (left : Nat) :
    Option (Jar size × Except Errno Nat) :=
  if size + 1 < (j.used ++ buf).length then some (j, .error .ENOSPC)
  else if hFits : (j.used ++ buf).length ≤ size then
    if left ≠ 0 then some (j, .error .EFAULT)
    else if hNone : j.used ++ buf = [] then none
    else some (j.added buf hFits hNone, .ok buf.length)
  else none

/-- What `copy_to_user` finds in `tmpBuf` for a cookie with this text. -/
def shown (size : Nat) (text : List UInt8) : List UInt8 :=
  ((text ++ [newline]).take (size - 1) ++ [0]).take (text.length + 1)

theorem shown_eq {text : List UInt8} (hRoom : text.length + 1 < size) :
    shown size text = text ++ [newline] := by
  have hWhole : (text ++ [newline]).length = text.length + 1 := List.length_append
  rw [shown, List.take_of_length_le (i := size - 1) (by omega), ← hWhole, List.take_left]

def read (j : Jar size) (fPos : Int) (left : Nat) : Jar size × Reading :=
  if h : fPos > 0 ∨ j.used = [] then (j, ⟨[], fPos, .ok 0⟩)
  else
    let readLen := j.text.length + 1
    if left ≠ 0 then
      (j.rewound, ⟨(shown size j.text).take (readLen - left), fPos, .error .EFAULT⟩)
    else
      (j.advanced fun hNone => h (Or.inr hNone),
        ⟨shown size j.text, fPos + readLen, .ok readLen⟩)

def call (j : Jar size) : Call → Option (Jar size × Reply)
  | .write buf left => (j.write buf left).map (Prod.map id .wrote)
  | .read _ fPos left => some (Prod.map id .read (j.read fPos left))

def exec : Jar size → List Call → Option (Jar size × List Reply) := execAll call

end Jar

/-! ## The module and its jar -/

/-- The variables of the module hold this jar. -/
structure Represents (s : State) (j : Jar size) : Prop where
  potSize : s.cookiePot.length = size
  tmpSize : s.tmpBuf.length = size
  used : s.cookiePot.take s.writeInd = j.used
  writeInd : s.writeInd = j.used.length
  readInd : s.readInd = j.cursor

/-- The variables after `md_init`. -/
def loaded (size : Nat) : State := ⟨List.replicate size 0, List.replicate size 0, 0, 0⟩

theorem mdInit_eq : mdInit size true true true true = .ok (loaded size) := rfl

theorem represents_loaded : Represents (loaded size) (Jar.empty : Jar size) :=
  ⟨List.length_replicate, List.length_replicate, rfl, rfl, rfl⟩

theorem length_copyFromUser (buf : List UInt8) (left : Nat) :
    (copyFromUser buf left).length = buf.length := by
  simp only [copyFromUser, List.length_append, List.length_take, List.length_replicate]
  omega

/-- A failed copy leaves the bytes in use alone. -/
theorem Represents.fault {s : State} {j : Jar size} (h : Represents s j) {pot bytes : List UInt8}
    (hStore : store s.cookiePot s.writeInd bytes = some pot) :
    Represents { s with cookiePot := pot } j := by
  obtain ⟨hTake, hLength⟩ := store_take hStore
  refine ⟨hLength.trans h.potSize, h.tmpSize, ?_, h.writeInd, h.readInd⟩
  have hShort : (s.cookiePot.take s.writeInd).length = s.writeInd := by rw [h.used, h.writeInd]
  have hFirst := congrArg (List.take s.writeInd) hTake
  rwa [List.take_take, Nat.min_eq_left (by omega), List.take_left' hShort, h.used] at hFirst

/-- The two stores of a successful write. -/
theorem Represents.added {s : State} {j : Jar size} (h : Represents s j)
    {buf pot pot' : List UInt8} (hFits : (j.used ++ buf).length ≤ size)
    (hSome : j.used ++ buf ≠ []) (hStore : store s.cookiePot s.writeInd buf = some pot)
    (hClose : store pot (s.writeInd + buf.length - 1) [0] = some pot') :
    Represents { s with cookiePot := pot', writeInd := s.writeInd + buf.length }
      (j.added buf hFits hSome) := by
  obtain ⟨hTake, hLength⟩ := store_take hStore
  obtain ⟨hTake', hLength'⟩ := store_take hClose
  have hPos := List.length_pos_iff.mpr hSome
  have hCount : s.writeInd + buf.length = (j.used ++ buf).length := by
    rw [List.length_append, h.writeInd]
  rw [h.used, hCount] at hTake
  rw [List.length_singleton, hCount, Nat.sub_add_cancel hPos] at hTake'
  have hFront : pot.take ((j.used ++ buf).length - 1) = (j.used ++ buf).dropLast := by
    rw [List.dropLast_eq_take, ← hTake, List.take_take, hTake,
      Nat.min_eq_left (Nat.sub_le _ _)]
  refine ⟨hLength'.trans (hLength.trans h.potSize), h.tmpSize, ?_, ?_, h.readInd⟩
  · dsimp only
    rw [hCount, hTake', hFront]
    rfl
  · rw [Jar.length_added]
    exact hCount

theorem fortuneWrite_simulates {s : State} {j : Jar size} (h : Represents s j) (buf : List UInt8)
    (left : Nat) : Agree Represents (fortuneWrite size s buf left) (j.write buf left) := by
  have hFull := j.fits
  have hWrite := h.writeInd
  have hCount : (j.used ++ buf).length = s.writeInd + buf.length := by
    rw [List.length_append, h.writeInd]
  unfold fortuneWrite Jar.write
  by_cases hRefused : size + 1 < (j.used ++ buf).length
  · rw [if_pos hRefused, if_pos (by dsimp only [COOKIE_POT_SIZE]; omega)]
    exact .some ⟨h, rfl⟩
  rw [if_neg hRefused]
  dsimp only
  rw [if_neg (by dsimp only [COOKIE_POT_SIZE]; omega)]
  by_cases hFits : (j.used ++ buf).length ≤ size
  · rw [dif_pos hFits]
    cases hStore : store s.cookiePot s.writeInd (copyFromUser buf left) with
    | none =>
      rw [store_eq_none, h.potSize, length_copyFromUser] at hStore
      omega
    | some pot =>
      rw [Option.bind_some]
      by_cases hFault : left ≠ 0
      · rw [if_pos hFault, if_pos hFault]
        exact .some ⟨h.fault hStore, rfl⟩
      rw [if_neg hFault, if_neg hFault]
      obtain rfl := not_not.mp hFault
      rw [copyFromUser_all] at hStore
      by_cases hNone : j.used ++ buf = []
      · have hZero : s.writeInd + buf.length = 0 := by rw [← hCount, hNone]; rfl
        rw [dif_pos hNone, if_pos hZero]
        exact .none
      · have hPos := List.length_pos_iff.mpr hNone
        rw [dif_neg hNone, if_neg (by omega)]
        cases hClose : store pot (s.writeInd + buf.length - 1) [0] with
        | none =>
          have hLength := (store_take hStore).2
          have hPot := h.potSize
          rw [store_eq_none, List.length_singleton] at hClose
          omega
        | some pot' => exact .some ⟨h.added hFits hNone hStore hClose, rfl⟩
  · have hOutside : store s.cookiePot s.writeInd (copyFromUser buf left) = none := by
      rw [store_eq_none, h.potSize, length_copyFromUser]
      omega
    rw [dif_neg hFits, hOutside]
    exact .none

/-- What `snprintf` leaves in `tmpBuf` and `copy_to_user` takes from it. -/
theorem snprintf_shown {tmp text : List UInt8} (hTmp : tmp.length = size)
    (hFits : text.length + 1 ≤ size) :
    ∃ tmp', snprintf tmp size (text ++ [newline]) = some (tmp', text.length + 1) ∧
      tmp'.length = size ∧ load tmp' (text.length + 1) = some (Jar.shown size text) := by
  have hPrinted : ((text ++ [newline]).take (size - 1) ++ [0]).length ≤ size := by
    simp only [List.length_append, List.length_take, List.length_singleton]
    omega
  cases hStore : store tmp 0 ((text ++ [newline]).take (size - 1) ++ [0]) with
  | none =>
    rw [store_eq_none] at hStore
    omega
  | some tmp' =>
    obtain ⟨hTake, hLength⟩ := store_take hStore
    refine ⟨tmp', ?_, hLength.trans hTmp, ?_⟩
    · rw [snprintf, if_neg (by omega), hStore]
      simp
    · rw [load, if_pos (by omega), Jar.shown]
      rw [Nat.zero_add, List.take_zero, List.nil_append] at hTake
      rw [← hTake, List.take_take]
      congr 2
      simp only [List.length_append, List.length_take, List.length_singleton]
      omega

theorem Represents.cstr_place {s : State} {j : Jar size} (h : Represents s j)
    (hSome : j.used ≠ []) : cstr s.cookiePot j.place = some j.text := by
  rw [← List.take_append_drop s.writeInd s.cookiePot, h.used]
  exact cstr_append_right (Jar.zero_mem hSome) _

theorem fortuneRead_simulates {s : State} {j : Jar size} (h : Represents s j) (len : Nat)
    (fPos : Int) (left : Nat) :
    Agree Represents (fortuneRead size s len fPos left) (some (j.read fPos left)) := by
  have hEmpty : s.writeInd = 0 ↔ j.used = [] := by rw [h.writeInd, List.length_eq_zero_iff]
  unfold fortuneRead Jar.read
  by_cases hEnd : fPos > 0 ∨ j.used = []
  · rw [dif_pos hEnd, if_pos (by rwa [hEmpty])]
    exact .some ⟨h, rfl⟩
  · have hSome : j.used ≠ [] := fun hNone => hEnd (Or.inr hNone)
    rw [dif_neg hEnd, if_neg (by rwa [hEmpty])]
    have hPlace : (if s.readInd ≥ s.writeInd then 0 else s.readInd) = j.place := by
      rw [h.readInd, h.writeInd]
      rfl
    have hText := h.cstr_place hSome
    have hFits : j.text.length + 1 ≤ size := by
      have hText := Jar.text_lt hSome
      have hFull := j.fits
      omega
    obtain ⟨tmp, hPrint, hTmp, hLoad⟩ := snprintf_shown h.tmpSize hFits
    simp only [hPlace, hText, hPrint, hLoad, Option.bind_some, Option.map_some]
    by_cases hFault : left ≠ 0
    · rw [if_pos hFault, if_pos hFault]
      exact .some ⟨⟨h.potSize, hTmp, h.used, h.writeInd, rfl⟩, rfl⟩
    · rw [if_neg hFault, if_neg hFault]
      exact .some ⟨⟨h.potSize, hTmp, h.used, h.writeInd, rfl⟩, rfl⟩

theorem call_simulates {s : State} {j : Jar size} (h : Represents s j) (c : Call) :
    Agree Represents (call size s c) (j.call c) := by
  cases c with
  | write buf left => exact (fortuneWrite_simulates h buf left).map Reply.wrote
  | read len fPos left => exact (fortuneRead_simulates h len fPos left).map Reply.read

theorem exec_eq (s : State) (calls : List Call) :
    exec size s calls = execAll (call size) s calls := by
  induction calls generalizing s with
  | nil => rfl
  | cons c rest ih => simp only [exec, execAll, ih]

/-- The module answers every sequence of calls as the jar it holds does. -/
theorem exec_simulates {s : State} {j : Jar size} (h : Represents s j) (calls : List Call) :
    Agree Represents (exec size s calls) (j.exec calls) := by
  rw [exec_eq]
  exact execAll_agree (fun _ _ c hState => call_simulates hState c) h calls

/-- The variables of the module hold a jar whenever they are defined. -/
theorem exec_represents {calls : List Call} {s : State} {replies : List Reply}
    (hExec : exec size (loaded size) calls = some (s, replies)) :
    ∃ j : Jar size, Represents s j := by
  have hAgree := exec_simulates (represents_loaded : Represents _ (Jar.empty : Jar size)) calls
  rw [hExec] at hAgree
  obtain ⟨j, -, hj⟩ := hAgree.left
  exact ⟨j, hj⟩

theorem exec_loaded (calls : List Call) {j : Jar size} {replies : List Reply}
    (hJar : (Jar.empty : Jar size).exec calls = some (j, replies)) :
    ∃ s, exec size (loaded size) calls = some (s, replies) ∧ Represents s j := by
  have hAgree := exec_simulates (represents_loaded : Represents _ (Jar.empty : Jar size)) calls
  rw [hJar] at hAgree
  exact hAgree.right

end OsLabs.Fortune
