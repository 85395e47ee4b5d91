import OsLabs.RwLock.Lock
import OsLabs.SysV.Semop

/-!
# A bounded buffer behind a mutex

The usual three semaphores of producers and consumers: one counts the free places, one the
filled places, one is a mutex. A producer or a consumer takes a place and the mutex in one
call, and gives back the mutex and a place of the other kind in another. `Slots` ties the
values to a lock whose only users are writers; a process inside can always leave.
-/

namespace OsLabs.SysV

open RwLock

variable {ι : Type} [DecidableEq ι]

/-- Wait for a place and for the mutex. -/
def acquire (places mutex : ι) : List (Sembuf ι) := [⟨places, -1, false⟩, ⟨mutex, -1, false⟩]

/-- Give back the mutex and a place. -/
def release (mutex places : ι) : List (Sembuf ι) := [⟨mutex, 1, false⟩, ⟨places, 1, false⟩]

theorem acquire_done {s v : SemSet ι} {places mutex : ι} (hne : places ≠ mutex)
    (h : semop s (acquire places mutex) = .done v) :
    s places = v places + 1 ∧ s mutex = v mutex + 1 ∧
      ∀ i, i ≠ places → i ≠ mutex → v i = s i := by
  have hNet := semop_net h
  simp only [acquire, net_cons, net_nil] at hNet
  refine ⟨?_, ?_, ?_⟩
  · have hPlaces := hNet places
    rw [if_pos rfl, if_neg hne.symm] at hPlaces
    omega
  · have hMutex := hNet mutex
    rw [if_neg hne, if_pos rfl] at hMutex
    omega
  · intro i hi hi'
    have hOther := hNet i
    rw [if_neg hi.symm, if_neg hi'.symm] at hOther
    omega

theorem acquire_eq {s : SemSet ι} {places mutex : ι} (hne : places ≠ mutex)
    (hPlaces : 1 ≤ s places) (hMutex : 1 ≤ s mutex) :
    ∃ v, semop s (acquire places mutex) = .done v := by
  have hFirst : ¬ s places < 1 := by omega
  have hSecond : ¬ s mutex < 1 := by omega
  refine ⟨Function.update (Function.update s places (s places - 1)) mutex (s mutex - 1), ?_⟩
  simp [acquire, hFirst, Function.update_of_ne hne.symm, hSecond]

/-- A caller without `IPC_NOWAIT` that only waits never gets an error. -/
theorem acquire_safe (s : SemSet ι) (places mutex : ι) :
    ¬ (semop s (acquire places mutex) = .eagain ∨ semop s (acquire places mutex) = .erange) := by
  simp only [acquire, semop_down, semop_nil, wouldBlock]
  split
  · simp
  · split
    · simp
    · simp

theorem release_eq {s : SemSet ι} {places mutex : ι} (hne : places ≠ mutex)
    (hMutex : s mutex = 0) (hRange : s places < SEMVMX) :
    ∃ v, semop s (release mutex places) = .done v ∧ v mutex = 1 ∧ v places = s places + 1 ∧
      ∀ i, i ≠ places → i ≠ mutex → v i = s i := by
  have hSmall : ¬ SEMVMX < 1 := by decide
  have hPlaces : ¬ SEMVMX < s places + 1 := by omega
  refine ⟨Function.update (Function.update s mutex 1) places (s places + 1), ?_, ?_, ?_, ?_⟩
  · simp [release, hMutex, hSmall, Function.update_of_ne hne, hPlaces]
  · rw [Function.update_of_ne hne.symm, Function.update_self]
  · rw [Function.update_self]
  · intro i hi hi'
    rw [Function.update_of_ne hi, Function.update_of_ne hi']

/-! ## The three semaphores and a lock -/

/-- The semaphores `empty`, `full` and `mutex` of a buffer with `capacity` places stand
for the lock `l`. -/
structure Slots (empty full mutex : ι) (capacity : Nat) (sems : SemSet ι) (l : Lock) :
    Prop where
  distinct : empty ≠ full ∧ empty ≠ mutex ∧ full ≠ mutex
  readers : l.readers = 0
  free : sems mutex + l.writers = 1
  total : sems empty + sems full + l.writers = capacity

variable {empty full mutex : ι} {capacity : Nat} {sems vals : SemSet ι} {l : Lock}

omit [DecidableEq ι] in
/-- A process can only enter while nobody is inside. -/
theorem Slots.vacant (h : Slots empty full mutex capacity sems l) (hFree : 1 ≤ sems mutex) :
    l = ⟨0, 0⟩ := by
  have hMutex := h.free
  have hReaders := h.readers
  obtain ⟨readers, writers⟩ := l
  dsimp only at hMutex hReaders
  obtain rfl : writers = 0 := by omega
  rw [hReaders]

omit [DecidableEq ι] in
theorem Slots.occupied (h : Slots empty full mutex capacity sems l) (hInside : 1 ≤ l.writers) :
    l = ⟨0, 1⟩ := by
  have hMutex := h.free
  have hReaders := h.readers
  obtain ⟨readers, writers⟩ := l
  dsimp only at hMutex hReaders hInside
  obtain rfl : writers = 1 := by omega
  rw [hReaders]

omit [DecidableEq ι] in
/-- If no process is inside as a writer, then nobody is inside. -/
theorem Slots.vacant_of_owned {τ ω : Type} [Fintype τ] {role : ω → Role} {procs : τ → ω}
    (h : Slots empty full mutex capacity sems l) (hOwned : Owned role l procs)
    (hNone : ∀ t, role (procs t) ≠ .writing) : l = ⟨0, 0⟩ ∧ ∀ t, role (procs t) = .out := by
  have hReaders := h.readers
  have hWriters := hOwned.writers_eq_zero.mpr hNone
  obtain ⟨r, w⟩ := l
  obtain rfl : w = 0 := hWriters
  obtain rfl : r = 0 := hReaders
  refine ⟨rfl, fun t => ?_⟩
  cases hRole : role (procs t) with
  | out => rfl
  | writing => exact absurd hRole (hNone t)
  | reading => exact absurd (hOwned.one_le_readers hRole) (Nat.not_succ_le_zero 0)

theorem Slots.startProduce (h : Slots empty full mutex capacity sems l)
    (hDone : semop sems (acquire empty mutex) = .done vals) :
    l = ⟨0, 0⟩ ∧ Slots empty full mutex capacity vals ⟨0, 1⟩ ∧ vals full = sems full := by
  obtain ⟨hEF, hEM, hFM⟩ := h.distinct
  obtain ⟨hEmpty, hMutex, hOther⟩ := acquire_done hEM hDone
  have hFull := hOther full hEF.symm hFM
  obtain rfl := h.vacant (by omega)
  have hFree := h.free
  have hTotal := h.total
  dsimp only at hFree hTotal
  exact ⟨rfl, ⟨h.distinct, rfl, by dsimp only; omega, by dsimp only; omega⟩, hFull⟩

theorem Slots.startConsume (h : Slots empty full mutex capacity sems l)
    (hDone : semop sems (acquire full mutex) = .done vals) :
    l = ⟨0, 0⟩ ∧ Slots empty full mutex capacity vals ⟨0, 1⟩ ∧ vals full + 1 = sems full := by
  obtain ⟨hEF, hEM, hFM⟩ := h.distinct
  obtain ⟨hFull, hMutex, hOther⟩ := acquire_done hFM hDone
  have hEmpty := hOther empty hEF hEM
  obtain rfl := h.vacant (by omega)
  have hFree := h.free
  have hTotal := h.total
  dsimp only at hFree hTotal
  exact ⟨rfl, ⟨h.distinct, rfl, by dsimp only; omega, by dsimp only; omega⟩, hFull.symm⟩

theorem Slots.stopProduce (h : Slots empty full mutex capacity sems ⟨0, 1⟩)
    (hRange : capacity ≤ SEMVMX) :
    ∃ vals, semop sems (release mutex full) = .done vals ∧
      Slots empty full mutex capacity vals ⟨0, 0⟩ ∧ vals full = sems full + 1 := by
  obtain ⟨hEF, hEM, hFM⟩ := h.distinct
  have hFree := h.free
  have hTotal := h.total
  dsimp only at hFree hTotal
  obtain ⟨vals, hDone, hMutex, hFull, hOther⟩ :=
    release_eq (s := sems) hFM (by omega) (by omega)
  have hEmpty := hOther empty hEF hEM
  exact ⟨vals, hDone, ⟨h.distinct, rfl, by dsimp only; omega, by dsimp only; omega⟩, hFull⟩

theorem Slots.stopConsume (h : Slots empty full mutex capacity sems ⟨0, 1⟩)
    (hRange : capacity ≤ SEMVMX) :
    ∃ vals, semop sems (release mutex empty) = .done vals ∧
      Slots empty full mutex capacity vals ⟨0, 0⟩ ∧ vals full = sems full := by
  obtain ⟨hEF, hEM, hFM⟩ := h.distinct
  have hFree := h.free
  have hTotal := h.total
  dsimp only at hFree hTotal
  obtain ⟨vals, hDone, hMutex, hEmpty, hOther⟩ :=
    release_eq (s := sems) hEM (by omega) (by omega)
  have hFull := hOther full hEF.symm hFM
  exact ⟨vals, hDone, ⟨h.distinct, rfl, by dsimp only; omega, by dsimp only; omega⟩, hFull⟩

/-- While nobody is inside, a producer or a consumer can enter. -/
theorem Slots.enterable (h : Slots empty full mutex capacity sems ⟨0, 0⟩)
    (hCapacity : 0 < capacity) :
    (∃ vals, semop sems (acquire empty mutex) = .done vals) ∨
      ∃ vals, semop sems (acquire full mutex) = .done vals := by
  obtain ⟨hEF, hEM, hFM⟩ := h.distinct
  have hFree := h.free
  have hTotal := h.total
  dsimp only at hFree hTotal
  by_cases hEmpty : 1 ≤ sems empty
  · exact Or.inl (acquire_eq hEM hEmpty (by omega))
  · exact Or.inr (acquire_eq hFM (by omega) (by omega))

end OsLabs.SysV
