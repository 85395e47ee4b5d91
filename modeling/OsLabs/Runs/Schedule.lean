import Mathlib.Data.List.Induction
import Mathlib.Logic.Function.Basic

/-!
# Scheduled runs and their histories

A system is a partial step function: an action (which process moves, and what its
environment hands to it) either is enabled in a state, and then gives the next state
and the events it emits, or is not. A run executes a list of actions in order and skips
those that are not enabled, so every list is a schedule and every reachable state is the
end of a run. The history of a run is the list of all its events.

`run_invariant` is the induction rule: what holds at the start and survives every
enabled action holds at the end of every run; `run_invariant_along` is the same for the
runs whose actions meet a condition on the state in which they are taken. `Always` is a
property of every event in a history, given the events before it; it is extended one event
at a time.
-/

namespace OsLabs.Runs

variable {S A E : Type}

/-- One scheduled action on a state with its history. -/
def advance (step : S → A → Option (S × List E)) (x : S × List E) (a : A) : S × List E :=
  match step x.1 a with
  | none => x
  | some (s, es) => (s, x.2 ++ es)

/-- A schedule continued from a state with its history. -/
def resume (step : S → A → Option (S × List E)) (x : S × List E) (sched : List A) :
    S × List E :=
  sched.foldl (advance step) x

def run (step : S → A → Option (S × List E)) (s : S) (sched : List A) : S × List E :=
  resume step (s, []) sched

theorem run_append (step : S → A → Option (S × List E)) (s : S) (xs ys : List A) :
    run step s (xs ++ ys) = resume step (run step s xs) ys := by
  simp only [run, resume, List.foldl_append]

theorem run_snoc (step : S → A → Option (S × List E)) (s : S) (sched : List A) (a : A) :
    run step s (sched ++ [a]) = advance step (run step s sched) a :=
  run_append step s sched [a]

theorem advance_eq_some {step : S → A → Option (S × List E)} {x : S × List E} {a : A} {s : S}
    {es : List E} (h : step x.1 a = some (s, es)) : advance step x a = (s, x.2 ++ es) := by
  simp only [advance, h]

/-- `C` holds of every action in the state in which it is scheduled. -/
def Along (step : S → A → Option (S × List E)) (C : S → A → Prop) : S → List A → Prop
  | _, [] => True
  | s, a :: rest => C s a ∧ Along step C (advance step (s, []) a).1 rest

instance decidableAlong (step : S → A → Option (S × List E)) (C : S → A → Prop)
    [∀ s a, Decidable (C s a)] : ∀ s sched, Decidable (Along step C s sched)
  | _, [] => isTrue trivial
  | s, a :: rest =>
    have := decidableAlong step C (advance step (s, []) a).1 rest
    inferInstanceAs (Decidable (C s a ∧ Along step C (advance step (s, []) a).1 rest))

theorem along_mono {step : S → A → Option (S × List E)} {C C' : S → A → Prop}
    (hC : ∀ s a, C s a → C' s a) {s : S} {sched : List A} (h : Along step C s sched) :
    Along step C' s sched := by
  induction sched generalizing s with
  | nil => trivial
  | cons a rest ih => exact ⟨hC s a h.1, ih h.2⟩

/-- A condition on the actions alone. -/
theorem along_of_forall (step : S → A → Option (S × List E)) {C : A → Prop} (s : S)
    {sched : List A} (h : ∀ a ∈ sched, C a) : Along step (fun _ a => C a) s sched := by
  induction sched generalizing s with
  | nil => trivial
  | cons a rest ih =>
    refine ⟨h a (by simp), ih _ fun b hb => h b (by simp [hb])⟩

theorem along_true (step : S → A → Option (S × List E)) (s : S) (sched : List A) :
    Along step (fun _ _ => True) s sched :=
  along_of_forall step s fun _ _ => trivial

theorem advance_state (step : S → A → Option (S × List E)) (s : S) (h : List E) (a : A) :
    (advance step (s, h) a).1 = (advance step (s, []) a).1 := by
  simp only [advance]
  cases step s a with
  | none => rfl
  | some next => rfl

theorem resume_state (step : S → A → Option (S × List E)) (s : S) (h : List E)
    (sched : List A) : (resume step (s, h) sched).1 = (run step s sched).1 := by
  induction sched generalizing s h with
  | nil => rfl
  | cons a rest ih =>
    have hHead := advance_state step s h a
    show (resume step (advance step (s, h) a) rest).1 =
      (resume step (advance step (s, []) a) rest).1
    rw [← Prod.eta (advance step (s, h) a), ← Prod.eta (advance step (s, []) a), ih, ih, hHead]

theorem run_cons_state (step : S → A → Option (S × List E)) (s : S) (a : A) (rest : List A) :
    (run step s (a :: rest)).1 = (run step (advance step (s, []) a).1 rest).1 :=
  resume_state step _ _ rest

/-- A run leads from the one state to the other. -/
def Leads (step : S → A → Option (S × List E)) (s s' : S) : Prop :=
  ∃ sched, (run step s sched).1 = s'

theorem Leads.refl (step : S → A → Option (S × List E)) (s : S) : Leads step s s := ⟨[], rfl⟩

theorem Leads.trans {step : S → A → Option (S × List E)} {s₁ s₂ s₃ : S} (h : Leads step s₁ s₂)
    (h' : Leads step s₂ s₃) : Leads step s₁ s₃ := by
  obtain ⟨xs, rfl⟩ := h
  obtain ⟨ys, rfl⟩ := h'
  refine ⟨xs ++ ys, ?_⟩
  rw [run_append, ← Prod.eta (run step s₁ xs), resume_state]

theorem leads_of_step {step : S → A → Option (S × List E)} {s s' : S} {a : A} {es : List E}
    (h : step s a = some (s', es)) : Leads step s s' := by
  refine ⟨[a], ?_⟩
  show (advance step (s, []) a).1 = s'
  rw [advance_eq_some (x := (s, [])) h]

/-- A run only adds to its history. -/
theorem resume_history (step : S → A → Option (S × List E)) (x : S × List E) (sched : List A) :
    x.2 <+: (resume step x sched).2 := by
  induction sched generalizing x with
  | nil => exact List.prefix_rfl
  | cons a rest ih =>
    refine List.IsPrefix.trans ?_ (ih (advance step x a))
    unfold advance
    split
    · exact List.prefix_rfl
    · exact List.prefix_append _ _

theorem run_history (step : S → A → Option (S × List E)) (s : S) (xs ys : List A) :
    (run step s xs).2 <+: (run step s (xs ++ ys)).2 := by
  rw [run_append]
  exact resume_history step _ ys

/-- If an action keeps `P` exactly when it meets `C`, then `P` holds at every moment of a run
exactly when all its actions meet `C`. -/
theorem always_iff_along {step : S → A → Option (S × List E)} {I P : S → Prop}
    {C : S → A → Prop} (hKeep : ∀ s a, I s → I (advance step (s, []) a).1)
    (hStep : ∀ s a, I s → P s → (P (advance step (s, []) a).1 ↔ C s a)) {s : S} (hI : I s)
    (hP : P s) (sched : List A) :
    (∀ k, P (run step s (sched.take k)).1) ↔ Along step C s sched := by
  induction sched generalizing s with
  | nil =>
    refine ⟨fun _ => trivial, fun _ k => ?_⟩
    rw [List.take_nil]
    exact hP
  | cons a rest ih =>
    constructor
    · intro hAll
      have hNext : P (advance step (s, []) a).1 := hAll 1
      refine ⟨(hStep s a hI hP).mp hNext, (ih (hKeep s a hI) hNext).mp fun k => ?_⟩
      rw [← run_cons_state]
      exact hAll (k + 1)
    · rintro ⟨hC, hRest⟩ k
      have hNext := (hStep s a hI hP).mpr hC
      cases k with
      | zero => exact hP
      | succ k =>
        rw [List.take_succ_cons, run_cons_state]
        exact (ih (hKeep s a hI) hNext).mpr hRest k

/-- What holds of every component still does after one has been changed. -/
theorem forall_update {τ ω : Type} [DecidableEq τ] {p : ω → Prop} {f : τ → ω}
    (h : ∀ u, p (f u)) {w : ω} (hw : p w) (t u : τ) : p (Function.update f t w u) := by
  rw [Function.update_apply]
  split
  · exact hw
  · exact h u

/-! ## Invariants -/

theorem resume_invariant_along {step : S → A → Option (S × List E)} {C : S → A → Prop}
    {P : S → List E → Prop}
    (hStep : ∀ s h a s' es, P s h → C s a → step s a = some (s', es) → P s' (h ++ es))
    {x : S × List E} (hStart : P x.1 x.2) {sched : List A} (hAlong : Along step C x.1 sched) :
    P (resume step x sched).1 (resume step x sched).2 := by
  induction sched generalizing x with
  | nil => exact hStart
  | cons a rest ih =>
    obtain ⟨hC, hRest⟩ := hAlong
    rw [← advance_state step x.1 x.2] at hRest
    refine ih (x := advance step x a) ?_ hRest
    unfold advance
    split
    · exact hStart
    · next hEnabled => exact hStep _ _ _ _ _ hStart hC hEnabled

/-- What holds at the start and survives every enabled action that meets `C` holds at the
end of every run whose actions all meet `C`. -/
theorem run_invariant_along {step : S → A → Option (S × List E)} {C : S → A → Prop}
    {P : S → List E → Prop} {s : S} (hStart : P s [])
    (hStep : ∀ s h a s' es, P s h → C s a → step s a = some (s', es) → P s' (h ++ es))
    {sched : List A} (hAlong : Along step C s sched) :
    P (run step s sched).1 (run step s sched).2 :=
  resume_invariant_along (x := (s, [])) hStep hStart hAlong

theorem resume_invariant {step : S → A → Option (S × List E)} {P : S → List E → Prop}
    (hStep : ∀ s h a s' es, P s h → step s a = some (s', es) → P s' (h ++ es))
    {x : S × List E} (hStart : P x.1 x.2) (sched : List A) :
    P (resume step x sched).1 (resume step x sched).2 :=
  resume_invariant_along (fun s h a s' es hP _ => hStep s h a s' es hP) hStart
    (along_true step x.1 sched)

theorem run_invariant {step : S → A → Option (S × List E)} {P : S → List E → Prop} {s : S}
    (hStart : P s [])
    (hStep : ∀ s h a s' es, P s h → step s a = some (s', es) → P s' (h ++ es))
    (sched : List A) : P (run step s sched).1 (run step s sched).2 :=
  resume_invariant (x := (s, [])) hStep hStart sched

/-- If no action is enabled, then nothing changes any more. -/
theorem run_stuck {step : S → A → Option (S × List E)} {s : S} (h : ∀ a, step s a = none)
    (sched : List A) : (run step s sched).1 = s := by
  refine run_invariant (P := fun s' _ => s' = s) rfl ?_ sched
  rintro _ history a s' es rfl hEnabled
  rw [h a] at hEnabled
  cases hEnabled

/-! ## Properties of every event of a history -/

/-- `Q` holds of every event together with the events before it. -/
def Always (Q : List E → E → Prop) (h : List E) : Prop :=
  ∀ before e after, h = before ++ e :: after → Q before e

theorem always_nil (Q : List E → E → Prop) : Always Q [] := by
  intro before e after h
  simp at h

theorem always_snoc {Q : List E → E → Prop} {h : List E} {e : E} :
    Always Q (h ++ [e]) ↔ Always Q h ∧ Q h e := by
  constructor
  · intro hAll
    refine ⟨fun before x after hSplit => ?_, hAll h e [] rfl⟩
    exact hAll before x (after ++ [e]) (by simp [hSplit])
  · rintro ⟨hAll, hLast⟩ before x after hSplit
    rcases List.eq_nil_or_concat after with rfl | ⟨rest, last, rfl⟩
    · obtain ⟨rfl, hx⟩ := List.append_inj' hSplit rfl
      cases hx
      exact hLast
    · rw [List.concat_eq_append, ← List.cons_append, ← List.append_assoc] at hSplit
      exact hAll before x rest (List.append_inj' hSplit rfl).1

theorem always_append {Q : List E → E → Prop} {h es : List E} (hAll : Always Q h)
    (hNew : Always (fun before e => Q (h ++ before) e) es) : Always Q (h ++ es) := by
  induction es using List.reverseRecOn with
  | nil => rwa [List.append_nil]
  | append_singleton es e ih =>
    obtain ⟨hOld, hLast⟩ := always_snoc.mp hNew
    rw [← List.append_assoc]
    exact always_snoc.mpr ⟨ih hOld, hLast⟩

end OsLabs.Runs
