import OsLabs.Mt.Linearizable
import OsLabs.Sem05.Register

/-!
# Waiting writers and new readers

Both readers-writers programs test in `start_read` a counter that `start_write` raises
first and lowers last (`WRITE_COUNT`, `WRITER_QUEUE`), so that a waiting writer would hold
back new readers. Raising, waiting and lowering are one array of operations, though, and a
call that sleeps changes nothing: the counter is zero whenever another process looks at
it. What keeps a reader out is a writer inside its section, or a full counter of readers.
The Windows version of the program raises `write_queue` by an operation of its own.
-/

namespace OsLabs.WaitingWriters

open Memory Runs SysV RwLock

/-- While a writer waits, `ops` does not succeed. -/
def HeldBack {ι : Type} [DecidableEq ι] (waiting : Prop) (sems : SemSet ι)
    (ops : List (Sembuf ι)) : Prop :=
  waiting → ∀ vals, semop sems ops ≠ .done vals

variable {τ ω : Type} [Fintype τ]

/-- A writer is inside its section, or no further reader can be counted. -/
def Shut (role : ω → Role) (procs : τ → ω) : Prop :=
  (∃ t, role (procs t) = .writing) ∨ SEMVMX ≤ count (fun w => role w = .reading) procs

theorem heldBack_iff {ι : Type} [DecidableEq ι] {role : ω → Role} {l : Lock} {procs : τ → ω}
    {sems sems' : SemSet ι} {ops : List (Sembuf ι)} (hOwned : Owned role l procs)
    (hOps : semop sems ops = if l.writers = 0 then
      if SEMVMX < l.readers + 1 then .erange else .done sems' else .sleep) (waiting : Prop) :
    HeldBack waiting sems ops ↔ (waiting → Shut role procs) := by
  have hZero := hOwned.writers_eq_zero
  rw [HeldBack, hOps, Shut, ← hOwned.readers]
  refine forall_congr' fun _ => ?_
  by_cases hNone : l.writers = 0
  · have hNobody : ¬ ∃ t, role (procs t) = .writing := not_exists.mpr (hZero.mp hNone)
    rw [if_pos hNone]
    by_cases hFull : SEMVMX < l.readers + 1
    · rw [if_pos hFull]
      exact iff_of_true (fun _ => nofun) (Or.inr (by omega))
    · rw [if_neg hFull]
      refine iff_of_false (fun h => h sems' rfl) ?_
      rintro (hSome | hMany)
      · exact hNobody hSome
      · omega
  · rw [if_neg hNone]
    refine iff_of_true (fun _ => nofun) (Or.inl ?_)
    by_contra hNobody
    exact hNone (hZero.mpr (not_exists.mp hNobody))

variable [DecidableEq τ]

/-- In every reachable state of either program, a waiting writer holds back new readers
exactly if a writer is inside or no further reader can be counted. -/
theorem waiting_writers_iff (kind : τ → Sem05.ReaderWriter.Kind)
    (sched : List (τ × Sem05.ReaderWriter.Input))
    (locals : τ → Nat × Object Mt.BUF_SIZE × BitVec 32) (sched' : List (τ × Mt.Input)) :
    let c := (Sem05.ReaderWriter.execute kind sched).1
    let d := (Mt.serve locals sched').1
    (HeldBack (∃ t, (c.procs t).pc = .startWrite true) c.shared.sems
        Sem05.ReaderWriter.startRead ↔
      ((∃ t, (c.procs t).pc = .startWrite true) → Shut Sem05.ReaderWriter.Process.role c.procs)) ∧
    (HeldBack (∃ t, (d.procs t).pc = .startWr true) d.shared.sems Mt.startRd ↔
      ((∃ t, (d.procs t).pc = .startWr true) → Shut Mt.Worker.role d.procs)) := by
  obtain ⟨⟨l, hLock, hGuarded⟩, -⟩ := Sem05.ReaderWriter.execute_inv kind sched
  obtain ⟨⟨l', hLock', hGuarded'⟩, -⟩ := Mt.serve_inv locals sched'
  exact ⟨heldBack_iff hGuarded.owned (Sem05.ReaderWriter.startRead_eq hLock) _,
    heldBack_iff hGuarded'.owned (Mt.startRd_eq hLock') _⟩

/-- A reader enters, then a writer falls asleep. -/
def overtakingProcesses : List (Fin 2 × Sem05.ReaderWriter.Input) :=
  [(0, .run), (0, .run), (1, .run), (1, .run)]

def overtakingKind (t : Fin 2) : Sem05.ReaderWriter.Kind := if t = 0 then .reader else .writer

/-- The same with two connections, one of which sends `'r'` and the other `'w'`. -/
def overtakingWorkers : List (Fin 2 × Mt.Input) :=
  [(0, ⟨.data ['r'.toUInt8], 0⟩), (0, ⟨.closed, 0⟩), (0, ⟨.closed, 0⟩),
    (1, ⟨.data ['w'.toUInt8, 1], 0⟩), (1, ⟨.closed, 0⟩), (1, ⟨.closed, 0⟩)]

theorem not_heldBack_overtaking :
    let c := (Sem05.ReaderWriter.execute overtakingKind overtakingProcesses).1
    let d := (Mt.serve (fun _ : Fin 2 => (0, fun _ => 0, 0)) overtakingWorkers).1
    ¬ HeldBack (∃ t, (c.procs t).pc = .startWrite true) c.shared.sems
        Sem05.ReaderWriter.startRead ∧
      ¬ HeldBack (∃ t, (d.procs t).pc = .startWr true) d.shared.sems Mt.startRd := by
  refine ⟨fun h => ?_, fun h => ?_⟩
  · exact h ⟨1, rfl⟩ _ rfl
  · exact h ⟨1, rfl⟩ _ rfl

end OsLabs.WaitingWriters
