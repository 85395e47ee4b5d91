import OsLabs.Runs.Pool

/-!
# Readers-writers exclusion

A lock keeps the numbers of active readers and active writers. `Move` lists what one step
of a process may do to the lock together with its own role: enter as a reader while no
writer is active, enter as a writer while nobody is, leave, or neither.

`Owned` is the invariant of the lock: its numbers are those of the processes inside, and a
writer is alone there. `Guarded` adds data that only the writer inside changes. Every
process inside may assert something about the data, and something is known of them
whenever no writer is active; both survive every step. A mutex is the case in which every
process is a writer.
-/

namespace OsLabs.RwLock

open Runs

inductive Role where
  | out
  | reading
  | writing
deriving DecidableEq

structure Lock where
  readers : Nat
  writers : Nat

inductive Move : Lock → Role → Lock → Role → Prop
  | keep (l : Lock) (r : Role) : Move l r l r
  | startRead (n : Nat) : Move ⟨n, 0⟩ .out ⟨n + 1, 0⟩ .reading
  | stopRead (n m : Nat) : Move ⟨n + 1, m⟩ .reading ⟨n, m⟩ .out
  | startWrite : Move ⟨0, 0⟩ .out ⟨0, 1⟩ .writing
  | stopWrite (n m : Nat) : Move ⟨n, m + 1⟩ .writing ⟨n, m⟩ .out

variable {τ ω δ : Type} [Fintype τ] {role : ω → Role}

/-- The lock counts the processes inside, and a writer there is alone. -/
structure Owned (role : ω → Role) (l : Lock) (procs : τ → ω) : Prop where
  readers : l.readers = count (fun w => role w = .reading) procs
  writers : l.writers = count (fun w => role w = .writing) procs
  exclusive : l.writers = 0 ∨ (l.writers = 1 ∧ l.readers = 0)

theorem owned_init {procs : τ → ω} (h : ∀ t, role (procs t) = .out) :
    Owned role ⟨0, 0⟩ procs := by
  refine ⟨?_, ?_, Or.inl rfl⟩
  · exact (count_eq_zero.mpr fun t ht => by rw [h t] at ht; cases ht).symm
  · exact (count_eq_zero.mpr fun t ht => by rw [h t] at ht; cases ht).symm

theorem Owned.one_le_readers {l : Lock} {procs : τ → ω} {t : τ} (h : Owned role l procs)
    (ht : role (procs t) = .reading) : 1 ≤ l.readers := by
  have hLe := le_count (fun w => role w = .reading) procs t
  rw [if_pos ht] at hLe
  rw [h.readers]
  exact hLe

theorem Owned.one_le_writers {l : Lock} {procs : τ → ω} {t : τ} (h : Owned role l procs)
    (ht : role (procs t) = .writing) : 1 ≤ l.writers := by
  have hLe := le_count (fun w => role w = .writing) procs t
  rw [if_pos ht] at hLe
  rw [h.writers]
  exact hLe

theorem Owned.writers_eq_zero {l : Lock} {procs : τ → ω} (h : Owned role l procs) :
    l.writers = 0 ↔ ∀ t, role (procs t) ≠ .writing := by
  rw [h.writers, count_eq_zero]

theorem Owned.vacant {l : Lock} {procs : τ → ω} (h : Owned role l procs)
    (hOut : ∀ t, role (procs t) = .out) : l = ⟨0, 0⟩ := by
  have hOther {r : Role} (hRole : r ≠ .out) (t : τ) : role (procs t) ≠ r := by
    rw [hOut t]
    exact hRole.symm
  have hReaders : l.readers = 0 := h.readers.trans (count_eq_zero.mpr (hOther (by decide)))
  have hWriters : l.writers = 0 := h.writers_eq_zero.mpr (hOther (by decide))
  exact congrArg₂ Lock.mk hReaders hWriters

/-- While a process writes, all others are outside. -/
theorem Owned.alone {l : Lock} {procs : τ → ω} {t u : τ} (h : Owned role l procs)
    (ht : role (procs t) = .writing) (hu : t ≠ u) : role (procs u) = .out := by
  have hWriters := h.one_le_writers ht
  have hExclusive := h.exclusive
  cases hRole : role (procs u) with
  | out => rfl
  | reading =>
    have hReaders := h.one_le_readers hRole
    omega
  | writing =>
    have hTwo := two_le_count (p := fun w => role w = .writing) hu ht hRole
    rw [← h.writers] at hTwo
    omega

variable [DecidableEq τ]

theorem Owned.move {l l' : Lock} {procs : τ → ω} {t : τ} {w : ω} (h : Owned role l procs)
    (hMove : Move l (role (procs t)) l' (role w)) : Owned role l' (Function.update procs t w) := by
  have hReading := count_update (fun w => role w = .reading) procs t w
  have hWriting := count_update (fun w => role w = .writing) procs t w
  have hReaders := h.readers
  have hWriters := h.writers
  have hExclusive := h.exclusive
  generalize role (procs t) = r at *
  generalize role w = r' at *
  cases hMove with
  | keep => exact ⟨by omega, by omega, hExclusive⟩
  | startRead n =>
    simp only [reduceCtorEq, ↓reduceIte] at hReading hWriting
    dsimp only at hReaders hWriters hExclusive
    refine ⟨?_, ?_, ?_⟩ <;> dsimp only <;> omega
  | stopRead n m =>
    simp only [reduceCtorEq, ↓reduceIte] at hReading hWriting
    dsimp only at hReaders hWriters hExclusive
    refine ⟨?_, ?_, ?_⟩ <;> dsimp only <;> omega
  | startWrite =>
    simp only [reduceCtorEq, ↓reduceIte] at hReading hWriting
    dsimp only at hReaders hWriters hExclusive
    refine ⟨?_, ?_, ?_⟩ <;> dsimp only <;> omega
  | stopWrite n m =>
    simp only [reduceCtorEq, ↓reduceIte] at hReading hWriting
    dsimp only at hReaders hWriters hExclusive
    refine ⟨?_, ?_, ?_⟩ <;> dsimp only <;> omega

/-! ## Data behind the lock -/

/-- The processes' assertions about the data `d`, and what holds of them at rest. -/
structure Guarded (role : ω → Role) (D : δ → ω → Prop) (Rest : δ → Prop) (l : Lock) (d : δ)
    (procs : τ → ω) : Prop where
  owned : Owned role l procs
  asserted : ∀ t, D d (procs t)
  rest : l.writers = 0 → Rest d

/-- What a step of a process does behind the lock: the data change only while the process
is, or becomes, the writer inside, the process keeps its own assertion, and a writer that
leaves has put the data to rest. -/
structure Advance (role : ω → Role) (D : δ → ω → Prop) (Rest : δ → Prop) (l l' : Lock)
    (d d' : δ) (w w' : ω) : Prop where
  move : Move l (role w) l' (role w')
  data : d' = d ∨ role w = .writing ∨ role w' = .writing
  asserted : D d' w'
  rest : role w = .writing → role w' = .out → Rest d'

omit [Fintype τ] [DecidableEq τ] in
/-- A step that does not touch the lock. -/
theorem Advance.inside {D : δ → ω → Prop} {Rest : δ → Prop} {l : Lock} {d d' : δ} {w w' : ω}
    (hRole : role w' = role w) (hData : d' = d ∨ role w = .writing) (hAssert : D d' w') :
    Advance role D Rest l l d d' w w' := by
  refine ⟨?_, hData.imp_right Or.inl, hAssert, ?_⟩
  · rw [hRole]
    exact .keep l (role w)
  · intro hWriting hOut
    rw [hRole, hWriting] at hOut
    cases hOut

theorem Guarded.advance {D : δ → ω → Prop} {Rest : δ → Prop} {l l' : Lock} {d d' : δ}
    {procs : τ → ω} {t : τ} {w : ω} (h : Guarded role D Rest l d procs)
    (hOut : ∀ d w, role w = .out → D d w)
    (hStep : Advance role D Rest l l' d d' (procs t) w) :
    Guarded role D Rest l' d' (Function.update procs t w) := by
  obtain ⟨hMove, hData, hAssert, hLeave⟩ := hStep
  have hOwned := h.owned.move hMove
  have hSelf : role (Function.update procs t w t) = role w := by rw [Function.update_self]
  refine ⟨hOwned, ?_, ?_⟩
  · intro u
    by_cases hu : t = u
    · subst hu
      rwa [Function.update_self]
    · have hOther : Function.update procs t w u = procs u :=
        Function.update_of_ne (Ne.symm hu) w procs
      rcases hData with rfl | hWriting | hWriting
      · rw [hOther]
        exact h.asserted u
      · rw [hOther]
        exact hOut d' _ (h.owned.alone hWriting hu)
      · exact hOut d' _ (hOwned.alone (hSelf.trans hWriting) hu)
  · intro hNone
    have hNew : role w ≠ .writing := by
      intro hWriting
      have hOne := hOwned.one_le_writers (hSelf.trans hWriting)
      omega
    by_cases hWriting : role (procs t) = .writing
    · refine hLeave hWriting ?_
      rw [hWriting] at hMove
      generalize role w = r' at hMove hNew ⊢
      cases hMove with
      | keep => exact absurd rfl hNew
      | stopWrite n m => rfl
    · have hSame : d' = d := hData.resolve_right (not_or.mpr ⟨hWriting, hNew⟩)
      rw [hSame]
      apply h.rest
      generalize role (procs t) = r at hMove hWriting
      generalize role w = r' at hMove
      cases hMove with
      | keep => exact hNone
      | startRead n => rfl
      | stopRead n m => exact hNone
      | startWrite => rfl
      | stopWrite n m => exact absurd rfl hWriting

end OsLabs.RwLock
