import OsLabs.Keyboard.Tasklet
import OsLabs.Keyboard.Workqueue

/-!
# The last key is the one recorded

Both modules, with the rules of deferred work: an older code that a function has read is
overwritten by the next execution, which is already due, and the two items of the work queue
write the same.
-/

namespace OsLabs.Keyboard

open Runs Deferred

/-- The record of the last key that was accepted, or the initial one. -/
def Recorded {ι : Type} (ascii : List String) (h : List (Deferred.Event ι Interrupt Event))
    (r : Record) : Prop :=
  match lastAccepted h with
  | none => r = .init
  | some i => r = ⟨i.code, keyName ascii i.code⟩

/-- No name outside the table is looked up. -/
def IndexesInside {ι : Type} (h : List (Deferred.Event ι Interrupt Event)) : Prop :=
  ∀ k press, .did k (.index press) ∈ h → press < ASCII_SIZE

theorem recorded_of_quiet {ι V β : Type} [DecidableEq ι]
    {P : Program ι Interrupt V Record (At β) Event} {ascii : List String}
    {fetch : ι → V → β → β ⊕ BitVec 32 × Nat} {toInt : V → BitVec 32} {Read : V → ι → β → Prop}
    (hComplete : Complete P.orders) (hFetches : Fetches P ascii fetch toInt Read)
    (cell : ι → V) (sched : List (Action ι Interrupt))
    (hQuiet : (run (step P) (.init cell .init) sched).1.Quiet) :
    Recorded ascii (run (step P) (.init cell .init) sched).2
      (run (step P) (.init cell .init) sched).1.result := by
  have hFollows := run_follows hComplete hFetches.delivers cell .init sched
  have hResult := hFollows.result_of_quiet hQuiet
  unfold Recorded
  generalize lastAccepted (run (step P) (.init cell .init) sched).2 = last at hResult ⊢
  cases last with
  | none => exact hResult
  | some i =>
    obtain ⟨v, hAccept, hRight⟩ := hResult
    dsimp only
    rw [← (hFetches.accept i v hAccept).2]
    exact right_iff.mp hRight

/-- In both modules, for every sequence of interrupts and every interleaving: when nothing is
left to do, the code and the name are those of the last key that was accepted, and the table
of names is never left. -/
theorem last_key_recorded :
    (∀ data sched,
      ((Tasklet.execute data sched).1.Quiet →
        Recorded Tasklet.ascii (Tasklet.execute data sched).2
          (Tasklet.execute data sched).1.result) ∧
      IndexesInside (Tasklet.execute data sched).2) ∧
    ∀ code sched,
      ((Workqueue.execute code sched).1.Quiet →
        Recorded Workqueue.ascii (Workqueue.execute code sched).2
          (Workqueue.execute code sched).1.result) ∧
      IndexesInside (Workqueue.execute code sched).2 := by
  refine ⟨fun data sched => ⟨?_, ?_⟩, fun code sched => ⟨?_, ?_⟩⟩
  · exact recorded_of_quiet Tasklet.complete Tasklet.fetches _ sched
  · intro k press hIndex
    exact run_good Tasklet.storedFirst (Tasklet.fetches.respects Tasklet.indexes) _ _ sched hIndex
  · exact recorded_of_quiet Workqueue.complete Workqueue.fetches _ sched
  · intro k press hIndex
    exact run_good Workqueue.storedFirst (Workqueue.fetches.respects Workqueue.indexes) _ _ sched
      hIndex

/-- The key A is released, the handler runs, and then the tasklet. -/
def releaseA : List (Action Unit Interrupt) :=
  .interrupt ⟨IRQ_NUM, 158⟩ :: List.replicate 3 .handle ++ List.replicate 25 (.work ())

theorem last_key_recorded_a : (Tasklet.execute 0 releaseA).1.Quiet ∧
    (Tasklet.execute 0 releaseA).1.result = ⟨158, keyName Tasklet.ascii 158⟩ := by
  have hQuiet : (Tasklet.execute 0 releaseA).1.Quiet := ⟨rfl, fun _ => rfl, fun _ => rfl⟩
  exact ⟨hQuiet, (last_key_recorded.1 0 releaseA).1 hQuiet⟩

/-- The handler has accepted the key, and has not scheduled anything yet. -/
theorem not_recorded_by_handler : ¬ (
    (∀ data sched,
      ((∀ k, (Tasklet.execute data sched).1.pending k = false ∧
          (Tasklet.execute data sched).1.running k = none) →
        Recorded Tasklet.ascii (Tasklet.execute data sched).2
          (Tasklet.execute data sched).1.result) ∧
      IndexesInside (Tasklet.execute data sched).2) ∧
    ∀ code sched,
      ((∀ k, (Workqueue.execute code sched).1.pending k = false ∧
          (Workqueue.execute code sched).1.running k = none) →
        Recorded Workqueue.ascii (Workqueue.execute code sched).2
          (Workqueue.execute code sched).1.result) ∧
      IndexesInside (Workqueue.execute code sched).2) := by
  intro h
  have hRecorded := (h.1 0 [.interrupt ⟨IRQ_NUM, 158⟩]).1 fun _ => ⟨rfl, rfl⟩
  have hInit : Record.init = ⟨158, keyName Tasklet.ascii 158⟩ := hRecorded
  exact absurd (congrArg Record.code hInit) (by decide)

end OsLabs.Keyboard
