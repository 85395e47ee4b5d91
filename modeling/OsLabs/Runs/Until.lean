/-!
# Calls up to the first answer that is not 0

A callback with a state of its own is called for the elements of a list in turn, until it
answers something other than 0.
-/

namespace OsLabs.Runs

variable {σ α β : Type}

/-- The state of the callback after the calls, the calls that were made and the last answer,
0 if there was none. -/
structure Answered (σ α : Type) where
  state : σ
  made : List α
  answer : Int

def callUntil (f : σ → α → σ × Int) (state : σ) : List α → Answered σ α
  | [] => ⟨state, [], 0⟩
  | a :: rest =>
    if (f state a).2 ≠ 0 then ⟨(f state a).1, [a], (f state a).2⟩
    else
      let next := callUntil f (f state a).1 rest
      ⟨next.state, a :: next.made, next.answer⟩

theorem callUntil_one (f : σ → α → σ × Int) (state : σ) (a : α) :
    callUntil f state [a] = ⟨(f state a).1, [a], (f state a).2⟩ := by
  simp only [callUntil]
  split
  · rfl
  · next hGo =>
    rw [Decidable.not_not] at hGo
    rw [hGo]

theorem callUntil_append (f : σ → α → σ × Int) (state : σ) (xs ys : List α) :
    callUntil f state (xs ++ ys) =
      if (callUntil f state xs).answer ≠ 0 then callUntil f state xs
      else
        let next := callUntil f (callUntil f state xs).state ys
        ⟨next.state, (callUntil f state xs).made ++ next.made, next.answer⟩ := by
  induction xs generalizing state with
  | nil => simp [callUntil]
  | cons a rest ih =>
    simp only [List.cons_append, callUntil]
    by_cases hStop : (f state a).2 ≠ 0
    · simp [hStop]
    · simp only [hStop, if_false, ih]
      split <;> simp_all

theorem callUntil_all {f : σ → α → σ × Int} (hZero : ∀ s a, (f s a).2 = 0) (s : σ)
    (xs : List α) : (callUntil f s xs).made = xs ∧ (callUntil f s xs).answer = 0 := by
  induction xs generalizing s with
  | nil => exact ⟨rfl, rfl⟩
  | cons a rest ih =>
    obtain ⟨hMade, hAnswer⟩ := ih (f s a).1
    simp [callUntil, hZero, hMade, hAnswer]

/-- If related states answer alike to calls that look alike to `v`, so they do to lists of
them. -/
theorem callUntil_congr {f : σ → α → σ × Int} {v : α → β} {R : σ → σ → Prop}
    (hAlike : ∀ s s' a b, R s s' → v a = v b → R (f s a).1 (f s' b).1 ∧ (f s a).2 = (f s' b).2)
    {xs ys : List α} (hSame : xs.map v = ys.map v) {s s' : σ} (hState : R s s') :
    (callUntil f s xs).made.map v = (callUntil f s' ys).made.map v ∧
      (callUntil f s xs).answer = (callUntil f s' ys).answer := by
  induction xs generalizing ys s s' with
  | nil =>
    rw [List.map_nil, eq_comm, List.map_eq_nil_iff] at hSame
    subst hSame
    exact ⟨rfl, rfl⟩
  | cons a rest ih =>
    cases ys with
    | nil => cases hSame
    | cons b others =>
      rw [List.map_cons, List.map_cons, List.cons_eq_cons] at hSame
      obtain ⟨hNext, hAnswer⟩ := hAlike s s' a b hState hSame.1
      obtain ⟨hMade, hLast⟩ := ih hSame.2 hNext
      simp only [callUntil, hAnswer]
      split
      · exact ⟨by simp [hSame.1], rfl⟩
      · exact ⟨by simp [hSame.1, hMade], hLast⟩

end OsLabs.Runs
