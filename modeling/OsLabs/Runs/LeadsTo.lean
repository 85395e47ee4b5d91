import OsLabs.Runs.Fairness

/-!
# What a run leads to

`LeadsTo` says of an endless run that after every state of one kind there is one of another kind,
at once or later. `leadsTo_of_rank` proves it from what single steps do and from fairness: every
state names a class of actions that would help, and these lower a rank that nothing else raises.
The fairness is strong: a class is taken again and again if one of its actions is enabled again
and again, and not only if one stays enabled.
-/

namespace OsLabs.Runs

variable {S A E : Type} {step : S → A → Option (S × List E)} {s : S} {σ : Nat → A}

def LeadsTo (step : S → A → Option (S × List E)) (s : S) (σ : Nat → A) (P Q : S → Prop) : Prop :=
  ∀ n, P (moment step s σ n) → ∃ k, n ≤ k ∧ Q (moment step s σ k)

/-- If actions of the class are enabled again and again, then such an action is taken. -/
def StronglyFair (step : S → A → Option (S × List E)) (s : S) (σ : Nat → A) (K : A → Prop) :
    Prop :=
  ∀ n, (∀ m, n ≤ m → ∃ k, m ≤ k ∧ ∃ a, K a ∧ step (moment step s σ k) a ≠ none) →
    ∃ k, n ≤ k ∧ K (σ k) ∧ step (moment step s σ k) (σ k) ≠ none

variable {I P Q : S → Prop}

theorem leadsTo_of_imp (h : ∀ s, P s → Q s) : LeadsTo step s σ P Q :=
  fun n hP => ⟨n, Nat.le_refl n, h _ hP⟩

/-- What the enabled steps of a run keep from moment `n` on. -/
theorem moment_from {n : Nat} (hStart : P (moment step s σ n))
    (hKeep : ∀ m, n ≤ m → P (moment step s σ m) → ∀ es,
      step (moment step s σ m) (σ m) = some (moment step s σ (m + 1), es) →
        P (moment step s σ (m + 1)))
    {m : Nat} (hLater : n ≤ m) : P (moment step s σ m) := by
  induction m, hLater using Nat.le_induction with
  | base => exact hStart
  | succ m hm ih =>
    rcases moment_succ_cases step s σ m with hSame | ⟨es, hEnabled⟩
    · rwa [hSame]
    · exact hKeep m hm ih es hEnabled

/-- What every enabled action keeps holds at every later moment. -/
theorem moment_stable (hInv : ∀ n, I (moment step s σ n))
    (hKeep : ∀ s a s' es, I s → P s → step s a = some (s', es) → P s') {n m : Nat}
    (hStart : P (moment step s σ n)) (hLater : n ≤ m) : P (moment step s σ m) :=
  moment_from hStart (fun m _ hP _ hEnabled => hKeep _ _ _ _ (hInv m) hP hEnabled) hLater

/-- In every state of `P` somebody can help: its actions lower the rank, and the others neither
change who that is nor raise the rank, until there is a state of `Q`. And wherever `O` holds, which
is again and again, an action of the helper is enabled. -/
theorem leadsTo_of_rank {κ : Type} {K : κ → A → Prop} {O : κ → S → Prop} (helper : S → κ)
    (rank : S → Nat) (hFair : ∀ c, StronglyFair step s σ (K c))
    (hInv : ∀ n, I (moment step s σ n))
    (hStay : ∀ s a s' es, I s → I s' → P s → ¬ K (helper s) a → step s a = some (s', es) →
      Q s' ∨ P s' ∧ helper s' = helper s ∧ rank s' ≤ rank s)
    (hMove : ∀ s a s' es, I s → I s' → P s → K (helper s) a → step s a = some (s', es) →
      Q s' ∨ P s' ∧ rank s' < rank s)
    (hOften : ∀ c, LeadsTo step s σ (fun _ => True) (O c))
    (hEnabled : ∀ s, I s → P s → O (helper s) s → ∃ a, K (helper s) a ∧ step s a ≠ none) :
    LeadsTo step s σ P Q := by
  intro n hP
  induction hRank : rank (moment step s σ n) using Nat.strong_induction_on generalizing n with
  | _ v ih =>
    by_contra hNever
    have hNot (k : Nat) (hk : n ≤ k) : ¬ Q (moment step s σ k) := fun hQ => hNever ⟨k, hk, hQ⟩
    have hNotLess (m : Nat) (hm : n ≤ m) (hP' : P (moment step s σ m)) :
        ¬ rank (moment step s σ m) < v := by
      intro hLess
      obtain ⟨k, hk, hQ⟩ := ih _ hLess m hP' rfl
      exact hNot k (hm.trans hk) hQ
    -- the rank would stay at `v` for ever, and the same one would have to help
    let c := helper (moment step s σ n)
    let Stuck (s : S) : Prop := P s ∧ rank s = v ∧ helper s = c
    have hIdle (m : Nat) (hm : n ≤ m) (hStuck : Stuck (moment step s σ m)) (es : List E)
        (hStep : step (moment step s σ m) (σ m) = some (moment step s σ (m + 1), es)) :
        ¬ K c (σ m) := by
      obtain ⟨hP', hSame, hHelper⟩ := hStuck
      intro hK
      rw [← hHelper] at hK
      rcases hMove _ _ _ _ (hInv m) (hInv (m + 1)) hP' hK hStep with hQ | ⟨hP'', hLess⟩
      · exact hNot (m + 1) (Nat.le_succ_of_le hm) hQ
      · exact hNotLess (m + 1) (Nat.le_succ_of_le hm) hP'' (hSame ▸ hLess)
    have hAlways {m : Nat} (hm : n ≤ m) : Stuck (moment step s σ m) := by
      refine moment_from (P := Stuck) ⟨hP, hRank, rfl⟩ (fun m hm hStuck es hStep => ?_) hm
      have hOther := hIdle m hm hStuck es hStep
      obtain ⟨hP', hSame, hHelper⟩ := hStuck
      rw [← hHelper] at hOther
      rcases hStay _ _ _ _ (hInv m) (hInv (m + 1)) hP' hOther hStep with
        hQ | ⟨hP'', hHelper', hLe⟩
      · exact absurd hQ (hNot (m + 1) (Nat.le_succ_of_le hm))
      · have hGe := hNotLess (m + 1) (Nat.le_succ_of_le hm) hP''
        exact ⟨hP'', by omega, hHelper'.trans hHelper⟩
    obtain ⟨k, hk, hK, hSome⟩ := hFair c n fun m hm => by
      obtain ⟨k, hk, hO⟩ := hOften c m trivial
      obtain ⟨hP', -, hHelper⟩ := hAlways (hm.trans hk)
      rw [← hHelper] at hO ⊢
      exact ⟨k, hk, hEnabled _ (hInv k) hP' hO⟩
    obtain ⟨⟨s', es⟩, hStep⟩ := Option.ne_none_iff_exists'.mp hSome
    refine hIdle k hk (hAlways hk) es ?_ hK
    rw [hStep, moment_succ, advance_eq_some (x := (moment step s σ k, [])) hStep]

end OsLabs.Runs
