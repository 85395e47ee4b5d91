import OsLabs.Mt.Server
import OsLabs.RwLock.Lock

/-!
# The five semaphores as a readers-writers lock

`READER` counts the readers inside, `SHADOW_WRITER` the writers, and `WRITER` is the
complement of the latter. The queue counters are raised and lowered by the same array of
operations, so between two calls they are zero.
-/

namespace OsLabs.Mt

open SysV RwLock

def Worker.role (w : Worker) : Role :=
  match w.pc with
  | .copy _ | .sendBuf | .stopRd _ => .reading
  | .test | .reserve | .refuse | .full _ | .sendStatus | .stopWr _ => .writing
  | _ => .out

/-- The semaphore set stands for the lock `l`. -/
structure Locked (sems : SemSet Sem) (l : Lock) : Prop where
  readerQueue : sems .readerQueue = 0
  writerQueue : sems .writerQueue = 0
  reader : sems .reader = l.readers
  shadowWriter : sems .shadowWriter = l.writers
  writer : sems .writer + l.writers = 1

theorem locked_init : Locked initSems ⟨0, 0⟩ := ⟨rfl, rfl, rfl, rfl, rfl⟩

theorem startRd_eq {sems : SemSet Sem} {l : Lock} (h : Locked sems l) :
    semop sems startRd =
      if l.writers = 0 then
        if SEMVMX < l.readers + 1 then .erange
        else .done (Function.update (Function.update (Function.update sems .readerQueue 1)
          .reader (l.readers + 1)) .readerQueue 0)
      else .sleep := by
  have hSmall : ¬ SEMVMX < 1 := by decide
  simp [startRd, h.readerQueue, h.writerQueue, h.reader, h.shadowWriter, hSmall, wouldBlock]

theorem startRd_done {sems vals : SemSet Sem} {l : Lock} (h : Locked sems l)
    (hDone : semop sems startRd = .done vals) :
    l.writers = 0 ∧ Locked vals ⟨l.readers + 1, 0⟩ := by
  rw [startRd_eq h] at hDone
  split at hDone
  · next hNone =>
    split at hDone
    · cases hDone
    · cases hDone
      have hWriter := h.writer
      refine ⟨hNone, by simp, by simp [h.writerQueue], by simp, ?_, ?_⟩
      · simp [h.shadowWriter, hNone]
      · simpa [hNone] using hWriter
  · cases hDone

theorem startWr_done {sems vals : SemSet Sem} {l : Lock} (h : Locked sems l)
    (hDone : semop sems startWr = .done vals) :
    l.readers = 0 ∧ l.writers = 0 ∧ Locked vals ⟨0, 1⟩ := by
  have hSmall : ¬ SEMVMX < 1 := by decide
  have hWriter := h.writer
  by_cases hReaders : l.readers = 0
  · by_cases hWriters : l.writers = 0
    · have hOne : sems .writer = 1 := by omega
      simp [startWr, h.writerQueue, h.reader, h.shadowWriter, hSmall, hReaders, hWriters, hOne]
        at hDone
      cases hDone
      exact ⟨hReaders, hWriters, by simp [h.readerQueue], by simp, by simp [h.reader, hReaders],
        by simp, by simp⟩
    · have hZero : sems .writer = 0 := by omega
      simp [startWr, h.writerQueue, h.reader, hSmall, hReaders, hZero, wouldBlock] at hDone
  · simp [startWr, h.writerQueue, h.reader, hSmall, hReaders, wouldBlock] at hDone

theorem stopRd_done {sems vals : SemSet Sem} {l : Lock} (h : Locked sems l)
    (hDone : semop sems stopRd = .done vals) :
    ∃ n, l.readers = n + 1 ∧ Locked vals ⟨n, l.writers⟩ := by
  obtain ⟨readers, writers⟩ := l
  have hReader : sems .reader = readers := h.reader
  cases readers with
  | zero => simp [stopRd, hReader, wouldBlock] at hDone
  | succ n =>
    simp [stopRd, hReader] at hDone
    cases hDone
    exact ⟨n, rfl, by simp [h.readerQueue], by simp [h.writerQueue], by simp,
      by simp [h.shadowWriter], by simpa using h.writer⟩

theorem stopWr_done {sems vals : SemSet Sem} {l : Lock} (h : Locked sems l)
    (hDone : semop sems stopWr = .done vals) :
    ∃ m, l.writers = m + 1 ∧ Locked vals ⟨l.readers, m⟩ := by
  obtain ⟨readers, writers⟩ := l
  have hShadow : sems .shadowWriter = writers := h.shadowWriter
  have hWriter : sems .writer + writers = 1 := h.writer
  cases writers with
  | zero => simp [stopWr, hShadow, wouldBlock] at hDone
  | succ m =>
    have hSmall : ¬ SEMVMX < 1 := by decide
    have hZero : sems .writer = 0 := by omega
    simp [stopWr, hShadow, hZero, hSmall] at hDone
    cases hDone
    refine ⟨m, rfl, by simp [h.readerQueue], by simp [h.writerQueue], by simp [h.reader],
      by simp, ?_⟩
    simp
    omega

end OsLabs.Mt
