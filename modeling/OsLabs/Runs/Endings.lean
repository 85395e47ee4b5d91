import OsLabs.Runs.Schedule

/-!
# Orderly endings

A run may end, and something should have been done by then. Some actions are fatal: they end
the run and do nothing else. If the run only ends with the job done otherwise, then the fatal
actions alone decide: the job is done in every run that ends exactly if none of them comes
before.
-/

namespace OsLabs.Runs

variable {S A E : Type}

/-- What is left by a step. Unless it was fatal, the run goes on or the job has been done. -/
def Lasts (I Ended Done : S → Prop) (fatal : Prop) (s : S) : Prop :=
  I s ∧ (¬ fatal → Ended s → Done s)

structure Ending (step : S → A → Option (S × List E)) (I Ended Done : S → Prop)
    (Fatal : S → A → Prop) : Prop where
  lasts : ∀ {s s' a es}, I s → step s a = some (s', es) → Lasts I Ended Done (Fatal s a) s'
  fatal : ∀ {s a}, Fatal s a →
    ∃ s' es, step s a = some (s', es) ∧ Ended s' ∧ (Done s' ↔ Done s)
  still : ∀ {s a}, Ended s → step s a = none

variable {step : S → A → Option (S × List E)} {I Ended Done : S → Prop} {Fatal : S → A → Prop}

theorem lasts_of_running {fatal : Prop} {s : S} (hI : I s) (hRunning : ¬ Ended s) :
    Lasts I Ended Done fatal s :=
  ⟨hI, fun _ hEnded => absurd hEnded hRunning⟩

theorem lasts_of_fatal {fatal : Prop} {s : S} (hI : I s) (hFatal : fatal) :
    Lasts I Ended Done fatal s :=
  ⟨hI, fun hNot => absurd hFatal hNot⟩

theorem Lasts.imp {fatal fatal' : Prop} {s : S} (h : Lasts I Ended Done fatal s)
    (hImp : fatal → fatal') : Lasts I Ended Done fatal' s :=
  ⟨h.1, fun hNot => h.2 fun hFatal => hNot (hImp hFatal)⟩

theorem Ending.run_ended (h : Ending step I Ended Done Fatal) {s : S} (hEnded : Ended s)
    (sched : List A) : (run step s sched).1 = s :=
  run_stuck (fun _ => h.still hEnded) sched

/-- Nothing is fatal any more. -/
theorem Ending.along_ended (h : Ending step I Ended Done Fatal) {s : S} (hEnded : Ended s)
    (sched : List A) : Along step (fun s a => Fatal s a → Done s) s sched := by
  induction sched with
  | nil => trivial
  | cons a rest ih =>
    refine ⟨fun hFatal => ?_, ?_⟩
    · obtain ⟨s', es, hStep, -⟩ := h.fatal hFatal
      rw [h.still hEnded] at hStep
      cases hStep
    · have hSame : (advance step (s, []) a).1 = s := h.run_ended hEnded [a]
      rw [hSame]
      exact ih

theorem Ending.done_iff (h : Ending step I Ended Done Fatal) {s : S} (hI : I s)
    (hRunning : ¬ Ended s) (sched : List A) :
    (Ended (run step s sched).1 → Done (run step s sched).1) ↔
      Along step (fun s a => Fatal s a → Done s) s sched := by
  induction sched generalizing s with
  | nil => exact iff_of_true (fun hEnded => absurd hEnded hRunning) trivial
  | cons a rest ih =>
    rw [run_cons_state]
    show _ ↔ (Fatal s a → Done s) ∧ Along step _ (advance step (s, []) a).1 rest
    cases hStep : step s a with
    | none =>
      have hSame : (advance step (s, []) a).1 = s := by simp only [advance, hStep]
      have hNot : ¬ Fatal s a := by
        intro hFatal
        obtain ⟨s', es, hSome, -⟩ := h.fatal hFatal
        rw [hStep] at hSome
        cases hSome
      rw [hSame, ih hI hRunning]
      exact ⟨fun hRest => ⟨fun hFatal => absurd hFatal hNot, hRest⟩, And.right⟩
    | some next =>
      obtain ⟨s', es⟩ := next
      have hNext : (advance step (s, []) a).1 = s' := by rw [advance_eq_some (x := (s, [])) hStep]
      rw [hNext]
      by_cases hEnded : Ended s'
      · rw [h.run_ended hEnded]
        have hHere : Done s' ↔ (Fatal s a → Done s) := by
          by_cases hFatal : Fatal s a
          · obtain ⟨s₁, es₁, hSome, -, hSame⟩ := h.fatal hFatal
            rw [hStep] at hSome
            cases hSome
            exact hSame.trans ⟨fun hDone _ => hDone, fun hDone => hDone hFatal⟩
          · have hDone : Done s' := (h.lasts hI hStep).2 hFatal hEnded
            exact iff_of_true hDone fun hFatal' => absurd hFatal' hFatal
        constructor
        · intro hDone
          exact ⟨hHere.mp (hDone hEnded), h.along_ended hEnded rest⟩
        · intro hAlong _
          exact hHere.mpr hAlong.1
      · have hNot : ¬ Fatal s a := by
          intro hFatal
          obtain ⟨s₁, es₁, hSome, hEnded', -⟩ := h.fatal hFatal
          rw [hStep] at hSome
          cases hSome
          exact hEnded hEnded'
        rw [ih (h.lasts hI hStep).1 hEnded]
        exact ⟨fun hRest => ⟨fun hFatal => absurd hFatal hNot, hRest⟩, And.right⟩

end OsLabs.Runs
