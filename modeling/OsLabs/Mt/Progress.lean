import OsLabs.Mt.Lock

/-!
# A thread of the reservation server goes on

Between two messages a thread has a bounded number of statements left. While the readers are fewer
than `SEMVMX` no `semop` fails, a thread inside is never held up, and where nobody is inside no
thread is.
-/

namespace OsLabs.Mt

open Memory Runs SysV RwLock

/-! ## Steps of a thread go down -/

/-- The statements that a thread has left before its next `recv`, at most. -/
def pcRank : Pc → Nat
  | .finished => 0
  | .recv => 1
  | .dispatch => 59
  | .startRd asleep | .startWr asleep => if asleep then 57 else 58
  | .test => 56
  | .reserve | .refuse => 55
  | .copy i | .full i => 30 + (ARR_SIZE - i)
  | .sendBuf | .sendStatus => 29
  | .stopRd asleep | .stopWr asleep => if asleep then 27 else 28

theorem processClient_rank {sh sh' : Shared} {w w' : Worker} {input : Input} {es : List Event}
    (hStep : processClient sh w input = some (sh', w', es)) (hRunning : sh'.exited = false) :
    (w.pc = .recv ∧ (∃ msg, input.recv = .data msg) ∧ pcRank w'.pc < 60) ∨
      pcRank w'.pc < pcRank w.pc := by
  obtain ⟨pc, index, buf, status⟩ := w
  unfold processClient at hStep
  split at hStep
  · cases hStep
  cases pc with
  | recv =>
    simp only at hStep
    split at hStep
    · next msg hData => cases hStep; exact Or.inl ⟨rfl, ⟨msg, hData⟩, by simp [pcRank]⟩
    · cases hStep; exact Or.inr (by simp [pcRank])
    · cases hStep; exact Or.inr (by simp [pcRank])
  | dispatch =>
    simp only at hStep
    split at hStep
    · cases hStep; exact Or.inr (by simp [pcRank])
    · cases hStep; exact Or.inr (by simp [pcRank])
    · cases hStep; exact Or.inr (by simp [pcRank])
  | startRd asleep | startWr asleep | stopRd asleep | stopWr asleep =>
    refine Or.inr ?_
    apply attempt_elim (P := fun x => x.1.exited = false → pcRank x.2.1.pc < _) hStep ?_ ?_ ?_
      hRunning
    · intro vals _ _
      cases asleep <;> simp [pcRank, ARR_SIZE]
    · rintro rfl _
      simp [pcRank]
    · intro _ hExited
      cases hExited
  | copy i =>
    simp only at hStep
    split at hStep
    · cases hStep
      exact Or.inr (by simp only [pcRank]; omega)
    · cases hStep
      exact Or.inr (by simp only [pcRank]; omega)
  | full i =>
    simp only at hStep
    split at hStep
    · split at hStep
      · cases hStep
        exact Or.inr (by simp only [pcRank]; omega)
      · cases hStep
        exact Or.inr (by simp only [pcRank]; omega)
    · cases hStep
      exact Or.inr (by simp only [pcRank]; omega)
  | sendBuf | reserve | sendStatus =>
    cases hStep
    exact Or.inr (by simp [pcRank, ARR_SIZE])
  | test =>
    simp only at hStep
    split at hStep
    · split at hStep
      · cases hStep; exact Or.inr (by simp [pcRank])
      · cases hStep; exact Or.inr (by simp [pcRank])
    · cases hStep; exact Or.inr (by simp [pcRank])
  | refuse =>
    simp only at hStep
    split at hStep
    · cases hStep; exact Or.inr (by simp [pcRank, ARR_SIZE])
    · cases hStep; exact Or.inr (by simp [pcRank, ARR_SIZE])
  | finished => cases hStep

theorem processClient_rank_lt {sh sh' : Shared} {w w' : Worker} {input : Input} {es : List Event}
    (hStep : processClient sh w input = some (sh', w', es)) (hRunning : sh'.exited = false)
    (hInput : ∀ msg, input.recv ≠ .data msg) : pcRank w'.pc < pcRank w.pc :=
  (processClient_rank hStep hRunning).resolve_left fun ⟨_, ⟨msg, hData⟩, _⟩ => hInput msg hData

/-- A thread finishes when there is nothing more to receive. -/
theorem processClient_finished {sh sh' : Shared} {w w' : Worker} {input : Input} {es : List Event}
    (hStep : processClient sh w input = some (sh', w', es)) (hFinished : w'.pc = .finished) :
    w.pc = .recv ∧ ∀ msg, input.recv ≠ .data msg := by
  obtain ⟨pc, index, buf, status⟩ := w
  unfold processClient at hStep
  split at hStep
  · cases hStep
  cases pc with
  | recv =>
    simp only at hStep
    split at hStep
    · cases hStep
      cases hFinished
    · next hClosed => exact ⟨rfl, fun msg hData => by cases hClosed.symm.trans hData⟩
    · next hError => exact ⟨rfl, fun msg hData => by cases hError.symm.trans hData⟩
  | dispatch =>
    simp only at hStep
    split at hStep <;> cases hStep <;> cases hFinished
  | startRd asleep | startWr asleep | stopRd asleep | stopWr asleep =>
    obtain ⟨vals, -, ⟨⟩⟩ | ⟨-, ⟨⟩⟩ | ⟨-, ⟨⟩⟩ := attempt_cases hStep <;> cases hFinished
  | copy i | refuse =>
    simp only at hStep
    split at hStep <;> cases hStep <;> cases hFinished
  | test | full i =>
    simp only at hStep
    split at hStep
    · split at hStep <;> cases hStep <;> cases hFinished
    · cases hStep
      cases hFinished
  | sendBuf | reserve | sendStatus =>
    cases hStep
    cases hFinished
  | finished => cases hStep

/-! ## No `semop` fails -/

theorem startWr_vacant {sems : SemSet Sem} (h : Locked sems ⟨0, 0⟩) :
    ∃ vals, semop sems startWr = .done vals := by
  have hSmall : ¬ SEMVMX < 1 := by decide
  have hReader : sems .reader = 0 := h.reader
  have hShadow : sems .shadowWriter = 0 := h.shadowWriter
  have hWriter : sems .writer = 1 := h.writer
  simp [startWr, h.writerQueue, hReader, hShadow, hWriter, hSmall]

theorem startWr_cases {sems : SemSet Sem} {l : Lock} (h : Locked sems l) :
    semop sems startWr = .sleep ∨ ∃ vals, semop sems startWr = .done vals := by
  have hSmall : ¬ SEMVMX < 1 := by decide
  obtain ⟨readers, writers⟩ := l
  have hReader : sems .reader = readers := h.reader
  have hWriter : sems .writer + writers = 1 := h.writer
  cases readers with
  | succ n => simp [startWr, h.writerQueue, hReader, hSmall, wouldBlock]
  | zero =>
    cases writers with
    | zero => exact Or.inr (startWr_vacant h)
    | succ m =>
      have hZero : sems .writer = 0 := by omega
      simp [startWr, h.writerQueue, hReader, hZero, hSmall, wouldBlock]

theorem stopRd_reading {sems : SemSet Sem} {l : Lock} (h : Locked sems l)
    (hReading : 1 ≤ l.readers) : ∃ vals, semop sems stopRd = .done vals := by
  have hSome : ¬ sems .reader < 1 := by
    rw [h.reader]
    exact Nat.not_lt.mpr hReading
  rw [stopRd, semop_down, if_neg hSome]
  exact ⟨_, rfl⟩

theorem stopWr_writing {sems : SemSet Sem} {l : Lock} (h : Locked sems l)
    (hWriting : 1 ≤ l.writers) : ∃ vals, semop sems stopWr = .done vals := by
  have hSmall : ¬ SEMVMX < 1 := by decide
  have hWriter := h.writer
  have hShadow := h.shadowWriter
  have hOne : sems .shadowWriter = 1 := by omega
  have hZero : sems .writer = 0 := by omega
  simp [stopWr, hOne, hZero, hSmall]

/-- As long as the readers are fewer than `SEMVMX`, nothing ends the process. -/
theorem processClient_running {sh sh' : Shared} {w w' : Worker} {input : Input} {es : List Event}
    {l : Lock} (hLock : Locked sh.sems l)
    (hRoom : ∀ asleep, w.pc = .startRd asleep → l.readers < SEMVMX)
    (hReading : w.role = .reading → 1 ≤ l.readers) (hWriting : w.role = .writing → 1 ≤ l.writers)
    (hStep : processClient sh w input = some (sh', w', es)) : sh'.exited = false := by
  obtain ⟨pc, index, buf, status⟩ := w
  unfold processClient at hStep
  split at hStep
  · cases hStep
  next hRunning =>
  have hOpen : sh.exited = false := by simpa using hRunning
  cases pc with
  | startRd asleep =>
    apply attempt_elim (P := fun x => x.1.exited = false) hStep (fun _ _ => hOpen) fun _ => hOpen
    intro hFail
    have hLess : ¬ SEMVMX < l.readers + 1 := Nat.not_lt.mpr (hRoom asleep rfl)
    rw [startRd_eq hLock, if_neg hLess] at hFail
    split at hFail <;> simp at hFail
  | startWr asleep =>
    apply attempt_elim (P := fun x => x.1.exited = false) hStep (fun _ _ => hOpen) fun _ => hOpen
    intro hFail
    obtain hSleep | ⟨vals, hDone⟩ := startWr_cases hLock
    · simp [hSleep] at hFail
    · simp [hDone] at hFail
  | stopRd asleep =>
    obtain ⟨vals, hDone⟩ := stopRd_reading hLock (hReading rfl)
    obtain ⟨⟩ := attempt_done hDone hStep
    exact hOpen
  | stopWr asleep =>
    obtain ⟨vals, hDone⟩ := stopWr_writing hLock (hWriting rfl)
    obtain ⟨⟩ := attempt_done hDone hStep
    exact hOpen
  | recv | dispatch =>
    simp only at hStep
    split at hStep <;> cases hStep <;> exact hOpen
  | copy i | refuse =>
    simp only at hStep
    split at hStep <;> cases hStep <;> exact hOpen
  | test | full i =>
    simp only at hStep
    split at hStep
    · split at hStep <;> cases hStep <;> exact hOpen
    · cases hStep
      exact hOpen
  | sendBuf | reserve | sendStatus =>
    cases hStep
    exact hOpen
  | finished => cases hStep

/-- A worker inside is never held up. -/
theorem processClient_inside {sh : Shared} {w : Worker} {input : Input} {l : Lock}
    (hLock : Locked sh.sems l) (hRunning : sh.exited = false) (hInside : w.role ≠ .out)
    (hReading : w.role = .reading → 1 ≤ l.readers) (hWriting : w.role = .writing → 1 ≤ l.writers) :
    processClient sh w input ≠ none := by
  intro hIdle
  obtain ⟨pc, index, buf, status⟩ := w
  unfold processClient at hIdle
  rw [if_neg (by simp [hRunning])] at hIdle
  cases pc with
  | recv | dispatch | startRd asleep | startWr asleep | finished => exact hInside rfl
  | stopRd asleep =>
    obtain ⟨vals, hDone⟩ := stopRd_reading hLock (hReading rfl)
    exact attempt_enabled hDone hIdle
  | stopWr asleep =>
    obtain ⟨vals, hDone⟩ := stopWr_writing hLock (hWriting rfl)
    exact attempt_enabled hDone hIdle
  | copy i | refuse =>
    simp only at hIdle
    split at hIdle <;> cases hIdle
  | test | full i =>
    simp only at hIdle
    split at hIdle
    · split at hIdle <;> cases hIdle
    · cases hIdle
  | sendBuf | reserve | sendStatus => cases hIdle

/-- While nobody is inside, nobody is held up outside. -/
theorem processClient_vacant {sh : Shared} {w : Worker} {input : Input}
    (hLock : Locked sh.sems ⟨0, 0⟩) (hRunning : sh.exited = false) (hOut : w.role = .out)
    (hLeft : w.pc ≠ .finished) : processClient sh w input ≠ none := by
  intro hIdle
  obtain ⟨pc, index, buf, status⟩ := w
  unfold processClient at hIdle
  rw [if_neg (by simp [hRunning])] at hIdle
  cases pc with
  | recv | dispatch =>
    simp only at hIdle
    split at hIdle <;> cases hIdle
  | startRd asleep =>
    have hEnter := startRd_eq hLock
    rw [if_pos rfl, if_neg (by decide)] at hEnter
    exact attempt_enabled hEnter hIdle
  | startWr asleep =>
    obtain ⟨vals, hDone⟩ := startWr_vacant hLock
    exact attempt_enabled hDone hIdle
  | finished => exact hLeft rfl
  | copy i | sendBuf | stopRd asleep | test | reserve | refuse | full i | sendStatus
  | stopWr asleep => cases hOut

end OsLabs.Mt
