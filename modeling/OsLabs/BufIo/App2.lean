import OsLabs.Runs.Fairness

/-!
# Two threads under a mutex (`lab_buf_io/src/app2_threads_right.c`)

`main` and `thr_fn` open the same file, so each has an offset of its own, and copy it byte by byte
to the standard output, under a mutex. `main` writes a line end before it asks for the mutex, when
the other thread may be in the middle of its copy, and another one when that thread has been joined.
-/

namespace OsLabs.BufIo.App2

open Runs

inductive Thread where
  | main
  | thrFn
deriving DecidableEq

/-- Where a thread is. `thr_fn` writes no line end, and it joins nobody. -/
inductive Pc where
  | lineEnd
  | lock
  | read
  | write (c : UInt8)
  | unlock
  | join
  | lastLineEnd
  | done
deriving DecidableEq

structure State where
  mutex : Option Thread
  offset : Thread → Nat
  pc : Thread → Pc

/-- What is written to the standard output. -/
inductive Event where
  | copy (t : Thread) (c : UInt8)
  | lineEnd

def Event.byte : Event → UInt8
  | .copy _ c => c
  | .lineEnd => '\n'.toUInt8

def State.setPc (s : State) (t : Thread) (pc : Pc) : State :=
  { s with pc := Function.update s.pc t pc }

def step (content : List UInt8) (s : State) (t : Thread) : Option (State × List Event) :=
  match s.pc t with
  | .lineEnd => some (s.setPc t .lock, [.lineEnd])
  | .lock => if s.mutex = none then some ({ s.setPc t .read with mutex := some t }, []) else none
  | .read =>
    match content[s.offset t]? with
    | some c =>
      some ({ s.setPc t (.write c) with offset := Function.update s.offset t (s.offset t + 1) }, [])
    | none => some (s.setPc t .unlock, [])
  | .write c => some (s.setPc t .read, [.copy t c])
  | .unlock =>
    some ({ s.setPc t (if t = .main then .join else .done) with mutex := none }, [])
  | .join => if s.pc .thrFn = .done then some (s.setPc t .lastLineEnd, []) else none
  | .lastLineEnd => some (s.setPc t .done, [.lineEnd])
  | .done => none

/-- When the thread has been created. -/
def init : State := ⟨none, fun _ => 0, fun | .main => .lineEnd | .thrFn => .lock⟩

/-! ## What has been copied -/

def Pc.Before : Pc → Prop
  | .lineEnd | .lock => True
  | _ => False

def Pc.Inside : Pc → Prop
  | .read | .write _ | .unlock => True
  | _ => False

def Pc.After : Pc → Prop
  | .join | .lastLineEnd | .done => True
  | _ => False

/-- `p` has been copied by a thread at `pc`. -/
def CopiedAt (content p : List UInt8) (offset : Nat) : Pc → Prop
  | .lineEnd | .lock => p = [] ∧ offset = 0
  | .read => p = content.take offset
  | .write c => p ++ [c] = content.take offset
  | .unlock | .join | .lastLineEnd | .done => p = content

def newline : UInt8 := '\n'.toUInt8

/-- The copy of `main` is `p` and that of `thr_fn` is `q`. Whoever is the second begins when the
other one has finished, and the first line end of `main` is in front of its copy. -/
inductive Shape (p q : List UInt8) (main thrFn : Pc) : List UInt8 → Prop where
  | start (hMain : main = .lineEnd) (hNothing : p = []) : Shape p q main thrFn q
  | second (hMain : main ≠ .lineEnd) (h : p = [] ∨ thrFn.After) (i : Nat) (hi : i ≤ q.length) :
      Shape p q main thrFn (q.take i ++ newline :: (q.drop i ++ p))
  | first (hMain : main ≠ .lineEnd) (h : q = [] ∨ main.After) :
      Shape p q main thrFn (newline :: (p ++ q))

/-- What thread `t` has copied. -/
def copied (t : Thread) (h : List Event) : List UInt8 :=
  h.filterMap fun
    | .copy u c => if u = t then some c else none
    | .lineEnd => none

def output (h : List Event) : List UInt8 := h.map Event.byte

structure Inv (content : List UInt8) (s : State) (h : List Event) : Prop where
  copies : ∀ t, CopiedAt content (copied t h) (s.offset t) (s.pc t)
  mutex : ∀ t, (s.pc t).Inside ↔ s.mutex = some t
  joined : s.pc .main = .lastLineEnd ∨ s.pc .main = .done → s.pc .thrFn = .done
  thrFn : s.pc .thrFn ≠ .lineEnd ∧ s.pc .thrFn ≠ .join ∧ s.pc .thrFn ≠ .lastLineEnd
  shape : ∃ base, Shape (copied .main h) (copied .thrFn h) (s.pc .main) (s.pc .thrFn) base ∧
    output h = base ++ if s.pc .main = .done then [newline] else []

variable {content : List UInt8} {s s' : State} {h es : List Event} {t : Thread}

theorem inv_init : Inv content init [] where
  copies t := by cases t <;> exact ⟨rfl, rfl⟩
  mutex t := by cases t <;> exact ⟨nofun, nofun⟩
  joined := by simp [init]
  thrFn := by simp [init]
  shape := ⟨[], .start rfl rfl, rfl⟩

/-! ## Steps -/

/-- Other threads than `t` stay where they are. -/
inductive Moves (content : List UInt8) (s : State) (t : Thread) : State → List Event → Prop where
  | lineEnd (h : s.pc t = .lineEnd) : Moves content s t (s.setPc t .lock) [.lineEnd]
  | lock (h : s.pc t = .lock) (hFree : s.mutex = none) :
      Moves content s t { s.setPc t .read with mutex := some t } []
  | read (c : UInt8) (h : s.pc t = .read) (hByte : content[s.offset t]? = some c) :
      Moves content s t
        { s.setPc t (.write c) with offset := Function.update s.offset t (s.offset t + 1) } []
  | atEnd (h : s.pc t = .read) (hEnd : content[s.offset t]? = none) :
      Moves content s t (s.setPc t .unlock) []
  | write (c : UInt8) (h : s.pc t = .write c) : Moves content s t (s.setPc t .read) [.copy t c]
  | unlock (h : s.pc t = .unlock) :
      Moves content s t { s.setPc t (if t = .main then .join else .done) with mutex := none } []
  | join (h : s.pc t = .join) (hDone : s.pc .thrFn = .done) :
      Moves content s t (s.setPc t .lastLineEnd) []
  | lastLineEnd (h : s.pc t = .lastLineEnd) : Moves content s t (s.setPc t .done) [.lineEnd]

theorem moves_of_step (hStep : step content s t = some (s', es)) : Moves content s t s' es := by
  unfold step at hStep
  split at hStep
  · next hPc => cases hStep; exact .lineEnd hPc
  · next hPc =>
    split at hStep
    · next hFree => cases hStep; exact .lock hPc hFree
    · cases hStep
  · next hPc =>
    split at hStep
    · next c hByte => cases hStep; exact .read c hPc hByte
    · next hEnd => cases hStep; exact .atEnd hPc hEnd
  · next c hPc => cases hStep; exact .write c hPc
  · next hPc => cases hStep; exact .unlock hPc
  · next hPc =>
    split at hStep
    · next hDone => cases hStep; exact .join hPc hDone
    · cases hStep
  · next hPc => cases hStep; exact .lastLineEnd hPc
  · cases hStep

theorem copied_lineEnd (t : Thread) (h : List Event) : copied t (h ++ [.lineEnd]) = copied t h := by
  simp [copied]

theorem copied_copy (t u : Thread) (c : UInt8) (h : List Event) :
    copied u (h ++ [.copy t c]) = if u = t then copied u h ++ [c] else copied u h := by
  by_cases hEq : u = t
  · simp [copied, hEq]
  · simp [copied, hEq, Ne.symm hEq]

/-- A step changes nothing for the other thread. -/
theorem Moves.other (hMoves : Moves content s t s' es) {u : Thread} (hu : u ≠ t) (h : List Event) :
    s'.pc u = s.pc u ∧ s'.offset u = s.offset u ∧ copied u (h ++ es) = copied u h := by
  cases hMoves with
  | lineEnd _ | lastLineEnd _ => simp [State.setPc, hu, copied_lineEnd]
  | write c _ => simp [State.setPc, hu, copied_copy]
  | lock _ _ | read _ _ _ | atEnd _ _ | unlock _ | join _ _ => simp [State.setPc, hu]

theorem Inv.copies_step (hInv : Inv content s h) (hMoves : Moves content s t s' es) (u : Thread) :
    CopiedAt content (copied u (h ++ es)) (s'.offset u) (s'.pc u) := by
  have hCopied := hInv.copies u
  by_cases hu : u = t
  · obtain rfl := hu
    cases hMoves with
    | lineEnd hPc | lastLineEnd hPc =>
      rw [hPc] at hCopied
      simp only [copied_lineEnd, State.setPc, Function.update_self]
      exact hCopied
    | lock hPc _ =>
      rw [hPc] at hCopied
      obtain ⟨hNothing, hOffset⟩ := hCopied
      simp [State.setPc, CopiedAt, hNothing, hOffset]
    | read c hPc hByte =>
      rw [hPc] at hCopied
      have hTake : content.take (s.offset u + 1) = content.take (s.offset u) ++ [c] := by
        rw [List.take_add_one, hByte]
        rfl
      simp only [List.append_nil, State.setPc, Function.update_self, CopiedAt, hTake]
      rw [show copied u h = _ from hCopied]
    | atEnd hPc hEnd =>
      rw [hPc] at hCopied
      have hAll : content.take (s.offset u) = content :=
        List.take_of_length_le (List.getElem?_eq_none_iff.mp hEnd)
      simp only [List.append_nil, State.setPc, Function.update_self, CopiedAt]
      rw [show copied u h = _ from hCopied, hAll]
    | write c hPc =>
      rw [hPc] at hCopied
      simp only [copied_copy, if_pos, State.setPc, Function.update_self]
      exact hCopied
    | unlock hPc =>
      rw [hPc] at hCopied
      simp only [List.append_nil, State.setPc, Function.update_self]
      split <;> exact hCopied
    | join hPc _ =>
      rw [hPc] at hCopied
      simp only [List.append_nil, State.setPc, Function.update_self]
      exact hCopied
  · obtain ⟨hPc, hOffset, hSame⟩ := hMoves.other hu h
    rwa [hPc, hOffset, hSame]

theorem Inv.mutex_step (hInv : Inv content s h) (hMoves : Moves content s t s' es) (u : Thread) :
    (s'.pc u).Inside ↔ s'.mutex = some u := by
  have hMutex := hInv.mutex t
  have hOther (hu : u ≠ t) : (s'.pc u).Inside ↔ s.mutex = some u := by
    rw [(hMoves.other hu h).1]
    exact hInv.mutex u
  by_cases hu : u = t
  · obtain rfl := hu
    cases hMoves with
    | unlock hPc =>
      simp only [State.setPc, Function.update_self]
      split <;> exact ⟨nofun, nofun⟩
    | lock hPc _ =>
      simp only [State.setPc, Function.update_self]
      exact ⟨fun _ => trivial, fun _ => trivial⟩
    | lineEnd hPc | read _ hPc _ | atEnd hPc _ | write _ hPc | join hPc _ | lastLineEnd hPc =>
      rw [hPc] at hMutex
      simp only [State.setPc, Function.update_self]
      exact hMutex
  · rw [hOther hu]
    cases hMoves with
    | lock hPc hFree => simp [hFree, Ne.symm hu]
    | unlock hPc =>
      rw [hPc] at hMutex
      simp [hMutex.mp trivial, Ne.symm hu]
    | lineEnd _ | read _ _ _ | atEnd _ _ | write _ _ | join _ _ | lastLineEnd _ => rfl

/-! ## The order of the copies -/

theorem CopiedAt.before {p : List UInt8} {offset : Nat} {pc : Pc} (h : CopiedAt content p offset pc)
    (hBefore : pc.Before) : p = [] := by
  cases pc with
  | lineEnd | lock => exact h.1
  | _ => cases hBefore

/-- A thread that is not inside is before or after its copy. -/
theorem Pc.before_or_after {pc : Pc} (h : ¬ pc.Inside) : pc.Before ∨ pc.After := by
  cases pc with
  | lineEnd | lock => exact Or.inl trivial
  | join | lastLineEnd | done => exact Or.inr trivial
  | read | write c | unlock => exact absurd trivial h

theorem Pc.After.not_inside {pc : Pc} (h : pc.After) : ¬ pc.Inside := by
  cases pc with
  | join | lastLineEnd | done => exact id
  | lineEnd | lock | read | write c | unlock => cases h

variable {p q base : List UInt8} {main thrFn : Pc} {c : UInt8}

theorem Shape.copy_main (h : Shape p q main thrFn base) (hInside : main.Inside)
    (hOther : q = [] ∨ thrFn.After) : Shape (p ++ [c]) q .read thrFn (base ++ [c]) := by
  cases h with
  | start hMain _ =>
    rw [hMain] at hInside
    cases hInside
  | second hMain _ i hi =>
    rcases hOther with rfl | hAfter
    · have hNext : Shape (p ++ [c]) [] .read thrFn (newline :: (p ++ [c] ++ [])) :=
        .first (by simp) (Or.inl rfl)
      simpa using hNext
    · have hNext : Shape (p ++ [c]) q .read thrFn
          (q.take i ++ newline :: (q.drop i ++ (p ++ [c]))) :=
        .second (by simp) (Or.inr hAfter) i hi
      simpa using hNext
  | first hMain hTurn =>
    rcases hTurn with rfl | hAfter
    · have hNext : Shape (p ++ [c]) [] .read thrFn (newline :: (p ++ [c] ++ [])) :=
        .first (by simp) (Or.inl rfl)
      simpa using hNext
    · exact absurd hInside hAfter.not_inside

theorem Shape.copy_thrFn (h : Shape p q main thrFn base) (hInside : thrFn.Inside)
    (hOther : p = [] ∨ main.After) : Shape p (q ++ [c]) main .read (base ++ [c]) := by
  cases h with
  | start hMain hNothing => exact .start hMain hNothing
  | second hMain hTurn i hi =>
    have hp : p = [] := by
      rcases hTurn with hNothing | hAfter
      · exact hNothing
      · exact absurd hInside hAfter.not_inside
    obtain rfl := hp
    have hNext : Shape [] (q ++ [c]) main .read
        ((q ++ [c]).take i ++ newline :: ((q ++ [c]).drop i ++ [])) :=
      .second hMain (Or.inl rfl) i (by rw [List.length_append]; omega)
    rw [List.take_append_of_le_length hi, List.drop_append_of_le_length hi] at hNext
    simpa using hNext
  | first hMain hTurn =>
    rcases hOther with rfl | hAfter
    · rcases hTurn with rfl | hAfter
      · have hNext : Shape [] [c] main .read ([c].take 0 ++ newline :: ([c].drop 0 ++ [])) :=
          .second hMain (Or.inl rfl) 0 (Nat.zero_le _)
        simpa using hNext
      · have hNext : Shape [] (q ++ [c]) main .read (newline :: ([] ++ (q ++ [c]))) :=
          .first hMain (Or.inr hAfter)
        simpa using hNext
    · have hNext : Shape p (q ++ [c]) main .read (newline :: (p ++ (q ++ [c]))) :=
        .first hMain (Or.inr hAfter)
      simpa using hNext

/-- Other steps than copying only finish something. -/
theorem Shape.mono (h : Shape p q main thrFn base) {main' thrFn' : Pc}
    (hMain : main' = .lineEnd ↔ main = .lineEnd) (hAfter : main.After → main'.After)
    (hOther : thrFn.After → thrFn'.After) : Shape p q main' thrFn' base := by
  cases h with
  | start hStart hNothing => exact .start (hMain.mpr hStart) hNothing
  | second hLater hTurn i hi => exact .second (mt hMain.mp hLater) (hTurn.imp_right hOther) i hi
  | first hLater hTurn => exact .first (mt hMain.mp hLater) (hTurn.imp_right hAfter)

theorem Shape.lineEnd (h : Shape p q .lineEnd thrFn base) :
    Shape p q .lock thrFn (base ++ [newline]) := by
  cases h with
  | start _ hNothing =>
    have hNext : Shape p q .lock thrFn
        (q.take q.length ++ newline :: (q.drop q.length ++ p)) :=
      .second (by simp) (Or.inl hNothing) q.length (Nat.le_refl _)
    simpa [hNothing] using hNext
  | second hMain _ _ _ => exact absurd rfl hMain
  | first hMain _ => exact absurd rfl hMain

/-- When the one copies, the other has not begun or is through. -/
theorem Inv.other (hInv : Inv content s h) (hInside : (s.pc t).Inside) {u : Thread} (hu : u ≠ t) :
    copied u h = [] ∨ (s.pc u).After := by
  have hOutside : ¬ (s.pc u).Inside := by
    intro hBoth
    have hSame := ((hInv.mutex t).mp hInside).symm.trans ((hInv.mutex u).mp hBoth)
    exact hu (Option.some.inj hSame).symm
  rcases Pc.before_or_after hOutside with hBefore | hAfter
  · exact Or.inl ((hInv.copies u).before hBefore)
  · exact Or.inr hAfter

theorem output_append (h es : List Event) : output (h ++ es) = output h ++ output es :=
  List.map_append

theorem Inv.shape_step (hInv : Inv content s h) (hMoves : Moves content s t s' es) :
    ∃ base, Shape (copied .main (h ++ es)) (copied .thrFn (h ++ es)) (s'.pc .main) (s'.pc .thrFn)
        base ∧ output (h ++ es) = base ++ if s'.pc .main = .done then [newline] else [] := by
  obtain ⟨base, hShape, hOutput⟩ := hInv.shape
  have hThrFn := hInv.thrFn
  cases t with
  | main =>
    obtain ⟨hPcOther, -, hCopiedOther⟩ := hMoves.other (u := .thrFn) (by decide) h
    rw [hPcOther, hCopiedOther]
    cases hMoves with
    | lineEnd hPc =>
      rw [hPc] at hShape hOutput
      refine ⟨base ++ [newline], ?_, ?_⟩
      · simpa [State.setPc, copied_lineEnd] using hShape.lineEnd
      · rw [output_append, hOutput]
        simp [State.setPc, output, Event.byte, newline]
    | write c hPc =>
      have hTurn := hInv.other (t := .main) (u := .thrFn) (by rw [hPc]; trivial) (by decide)
      refine ⟨base ++ [c], ?_, ?_⟩
      · simpa [State.setPc, copied_copy] using
          hShape.copy_main (c := c) (by rw [hPc]; trivial) hTurn
      · rw [output_append, hOutput]
        simp [State.setPc, output, Event.byte, hPc]
    | lastLineEnd hPc =>
      rw [hPc] at hShape hOutput
      refine ⟨base, ?_, ?_⟩
      · rw [copied_lineEnd]
        exact hShape.mono (by simp [State.setPc]) (by simp [State.setPc, Pc.After]) id
      · rw [output_append, hOutput]
        simp [State.setPc, output, Event.byte, newline]
    | lock hPc _ | read _ hPc _ | atEnd hPc _ | unlock hPc | join hPc _ =>
      rw [hPc] at hShape hOutput
      rw [List.append_nil]
      refine ⟨base, hShape.mono (by simp [State.setPc]) (by simp [State.setPc, Pc.After]) id, ?_⟩
      rw [hOutput]
      simp [State.setPc]
  | thrFn =>
    obtain ⟨hPcOther, -, hCopiedOther⟩ := hMoves.other (u := .main) (by decide) h
    rw [hPcOther, hCopiedOther]
    cases hMoves with
    | lineEnd hPc => exact absurd hPc hThrFn.1
    | join hPc _ => exact absurd hPc hThrFn.2.1
    | lastLineEnd hPc => exact absurd hPc hThrFn.2.2
    | write c hPc =>
      have hTurn := hInv.other (t := .thrFn) (u := .main) (by rw [hPc]; trivial) (by decide)
      have hRunning : s.pc .main ≠ .done := by
        intro hDone
        have hJoined := hInv.joined (Or.inr hDone)
        rw [hPc] at hJoined
        cases hJoined
      refine ⟨base ++ [c], ?_, ?_⟩
      · simpa [State.setPc, copied_copy] using
          hShape.copy_thrFn (c := c) (by rw [hPc]; trivial) hTurn
      · rw [output_append, hOutput]
        simp [output, Event.byte, hRunning]
    | lock hPc _ | read _ hPc _ | atEnd hPc _ | unlock hPc =>
      rw [hPc] at hShape
      rw [List.append_nil]
      exact ⟨base, hShape.mono Iff.rfl id (by simp [State.setPc, Pc.After]), hOutput⟩

theorem Inv.joined_step (hInv : Inv content s h) (hMoves : Moves content s t s' es)
    (hLate : s'.pc .main = .lastLineEnd ∨ s'.pc .main = .done) : s'.pc .thrFn = .done := by
  cases t with
  | main =>
    rw [(hMoves.other (u := .thrFn) (by decide) h).1]
    cases hMoves with
    | join _ hDone => exact hDone
    | lastLineEnd hPc => exact hInv.joined (Or.inl hPc)
    | lineEnd _ | lock _ _ | read _ _ _ | atEnd _ _ | write _ _ | unlock _ =>
      simp [State.setPc] at hLate
  | thrFn =>
    rw [(hMoves.other (u := .main) (by decide) h).1] at hLate
    have hDone := hInv.joined hLate
    cases hMoves with
    | lineEnd hPc | lock hPc _ | read _ hPc _ | atEnd hPc _ | write _ hPc | unlock hPc
    | join hPc _ | lastLineEnd hPc =>
      rw [hPc] at hDone
      cases hDone

theorem Inv.thrFn_step (hInv : Inv content s h) (hMoves : Moves content s t s' es) :
    s'.pc .thrFn ≠ .lineEnd ∧ s'.pc .thrFn ≠ .join ∧ s'.pc .thrFn ≠ .lastLineEnd := by
  have hThrFn := hInv.thrFn
  cases t with
  | main => rwa [(hMoves.other (u := .thrFn) (by decide) h).1]
  | thrFn =>
    cases hMoves with
    | join hPc _ => exact absurd hPc hThrFn.2.1
    | lineEnd _ | lock _ _ | read _ _ _ | atEnd _ _ | write _ _ | unlock _ | lastLineEnd _ =>
      simp [State.setPc]

theorem Inv.step (hInv : Inv content s h) (hStep : step content s t = some (s', es)) :
    Inv content s' (h ++ es) := by
  have hMoves := moves_of_step hStep
  exact ⟨hInv.copies_step hMoves, hInv.mutex_step hMoves, hInv.joined_step hMoves,
    hInv.thrFn_step hMoves, hInv.shape_step hMoves⟩

/-! ## Endless schedules -/

/-- The steps left to a thread. -/
def Pc.rank (left : Nat) : Pc → Nat
  | .lineEnd => 2 * left + 7
  | .lock => 2 * left + 6
  | .read => 2 * left + 5
  | .write _ => 2 * left + 6
  | .unlock => 3
  | .join => 2
  | .lastLineEnd => 1
  | .done => 0

def State.rank (content : List UInt8) (s : State) (t : Thread) : Nat :=
  (s.pc t).rank (content.length - s.offset t)

theorem Moves.rank (hMoves : Moves content s t s' es) : s'.rank content t < s.rank content t := by
  unfold State.rank
  cases hMoves with
  | read c hPc hByte =>
    obtain ⟨hLess, -⟩ := List.getElem?_eq_some_iff.mp hByte
    rw [hPc]
    simp only [State.setPc, Function.update_self, Pc.rank]
    omega
  | unlock hPc =>
    rw [hPc]
    simp only [State.setPc, Function.update_self]
    split <;> simp [Pc.rank]
  | lineEnd hPc | lock hPc _ | atEnd hPc _ | write _ hPc | join hPc _ | lastLineEnd hPc =>
    rw [hPc]
    simp only [State.setPc, Function.update_self, Pc.rank]
    omega

theorem State.rank_other (hMoves : Moves content s t s' es) {u : Thread} (hu : u ≠ t) :
    s'.rank content u = s.rank content u := by
  obtain ⟨hPc, hOffset, -⟩ := hMoves.other hu []
  rw [State.rank, State.rank, hPc, hOffset]

/-- A thread waits for the mutex or for the other thread, or it is through. -/
theorem stuck_cases (hStuck : step content s t = none) :
    (s.pc t = .lock ∧ s.mutex ≠ none) ∨ (s.pc t = .join ∧ s.pc .thrFn ≠ .done) ∨
      s.pc t = .done := by
  unfold step at hStuck
  split at hStuck
  · cases hStuck
  · next hPc =>
    split at hStuck
    · cases hStuck
    · next hTaken => exact Or.inl ⟨hPc, hTaken⟩
  · split at hStuck <;> cases hStuck
  · cases hStuck
  · cases hStuck
  · next hPc =>
    split at hStuck
    · cases hStuck
    · next hRunning => exact Or.inr (Or.inl ⟨hPc, hRunning⟩)
  · cases hStuck
  · next hPc => exact Or.inr (Or.inr hPc)

/-- If nobody can go on, then both are through. -/
theorem Inv.through (hInv : Inv content s h) (hStuck : ∀ t, App2.step content s t = none)
    (t : Thread) : s.pc t = .done := by
  have hFree : s.mutex = none := by
    cases hOwner : s.mutex with
    | none => rfl
    | some u =>
      have hInside := (hInv.mutex u).mpr hOwner
      rcases stuck_cases (hStuck u) with ⟨hPc, -⟩ | ⟨hPc, -⟩ | hPc
      all_goals
        rw [hPc] at hInside
        cases hInside
  have hThrFn : s.pc .thrFn = .done := by
    rcases stuck_cases (hStuck .thrFn) with ⟨-, hTaken⟩ | ⟨hPc, -⟩ | hPc
    · exact absurd hFree hTaken
    · exact absurd hPc hInv.thrFn.2.1
    · exact hPc
  rcases stuck_cases (hStuck t) with ⟨-, hTaken⟩ | ⟨-, hRunning⟩ | hPc
  · exact absurd hFree hTaken
  · exact absurd hThrFn hRunning
  · exact hPc

theorem run_inv (content : List UInt8) (sched : List Thread) :
    Inv content (run (step content) init sched).1 (run (step content) init sched).2 :=
  run_invariant inv_init (fun _ _ _ _ _ hInv hStep => hInv.step hStep) sched

/-- Whatever the schedule, as long as both threads get their turns, the file is copied twice, one
copy after the other, and the first line end is somewhere in front of the copy of `main`. -/
theorem copied_twice (content : List UInt8) {σ : Nat → Thread} (hFair : Fair (fun _ => True) σ) :
    ∃ n, ∀ m, n ≤ m → ∃ i, i ≤ content.length ∧
      output (run (step content) init ((List.range m).map σ)).2 =
        content.take i ++ newline :: (content.drop i ++ content ++ [newline]) := by
  obtain ⟨n, -, hRests, ⟨h, hInv⟩, hIdle⟩ := fair_rests (step content)
    (I := fun s => ∃ h, Inv content s h)
    (fun s => s.rank content .main + s.rank content .thrFn)
    (fun m (_ : 0 ≤ m) => ⟨_, run_inv content _⟩) hFair fun s t s' es _ hStep => by
      have hMoves := moves_of_step hStep
      have hLess := hMoves.rank
      right
      cases t with
      | main =>
        have hSame := State.rank_other hMoves (u := .thrFn) (by decide)
        omega
      | thrFn =>
        have hSame := State.rank_other hMoves (u := .main) (by decide)
        omega
  have hThrough := hInv.through fun t => hIdle t trivial
  refine ⟨n, fun m hm => ?_⟩
  have hEnd := run_inv content ((List.range m).map σ)
  have hState : (run (step content) init ((List.range m).map σ)).1 =
      moment (step content) init σ n := hRests m hm
  rw [hState] at hEnd
  obtain ⟨base, hShape, hOutput⟩ := hEnd.shape
  have hMain := hEnd.copies .main
  have hThrFn := hEnd.copies .thrFn
  rw [hThrough] at hMain hThrFn hOutput hShape
  rw [hThrough] at hShape
  rw [hOutput, if_pos rfl]
  rw [show copied .main _ = content from hMain,
    show copied .thrFn _ = content from hThrFn] at hShape
  cases hShape with
  | start hStart _ => cases hStart
  | second _ _ i hi => exact ⟨i, hi, by simp⟩
  | first _ _ => exact ⟨0, Nat.zero_le _, by simp⟩

/-- The threads take turns. -/
def inTurn (n : Nat) : Thread := if n % 2 = 0 then .main else .thrFn

theorem copied_twice_inTurn :
    ∃ n, ∀ m, n ≤ m → ∃ i, i ≤ 2 ∧
      output (run (step [97, 98]) init ((List.range m).map inTurn)).2 =
        [97, 98].take i ++ newline :: ([97, 98].drop i ++ [97, 98] ++ [newline]) := by
  refine copied_twice [97, 98] fun t _ n => ?_
  cases t with
  | main => exact ⟨2 * n, by omega, by simp [inTurn]⟩
  | thrFn => exact ⟨2 * n + 1, by omega, by simp [inTurn]⟩

end OsLabs.BufIo.App2
