import Mathlib.Data.Nat.Find
import OsLabs.Runs.Pool

/-!
# Endless schedules

An endless schedule names an action for every moment. It is fair to a class of actions if
each of them comes again and again. A run whose enabled steps all lower a measure, or
leave the state as it is, comes to rest after finitely many moments; where it rests, every
action that the schedule is fair to has nothing left to do. For a pool the measure is the
sum of the ranks of its processes, so that it is enough to rank the local states.
-/

namespace OsLabs.Runs

variable {S A E : Type}

/-- The state before moment `n` of an endless schedule. -/
def moment (step : S → A → Option (S × List E)) (s : S) (σ : Nat → A) (n : Nat) : S :=
  (run step s ((List.range n).map σ)).1

theorem moment_succ (step : S → A → Option (S × List E)) (s : S) (σ : Nat → A) (n : Nat) :
    moment step s σ (n + 1) = (advance step (moment step s σ n, []) (σ n)).1 := by
  rw [moment, List.range_succ, List.map_append, List.map_singleton, run_snoc,
    ← Prod.eta (run step s ((List.range n).map σ)), advance_state]
  rfl

/-- A moment passes without a change, or its action is enabled. -/
theorem moment_succ_cases (step : S → A → Option (S × List E)) (s : S) (σ : Nat → A) (n : Nat) :
    moment step s σ (n + 1) = moment step s σ n ∨
      ∃ es, step (moment step s σ n) (σ n) = some (moment step s σ (n + 1), es) := by
  rw [moment_succ]
  unfold advance
  split
  · exact Or.inl rfl
  · next s' es hEnabled => exact Or.inr ⟨es, hEnabled⟩

/-- What every enabled action keeps holds from a moment on. -/
theorem moment_keeps {step : S → A → Option (S × List E)} {I : S → Prop} {s : S} {σ : Nat → A}
    {n m : Nat} (hKeep : ∀ s a s' es, I s → step s a = some (s', es) → I s')
    (hStart : I (moment step s σ n)) (hLater : n ≤ m) : I (moment step s σ m) := by
  induction m, hLater using Nat.le_induction with
  | base => exact hStart
  | succ m _ ih =>
    rcases moment_succ_cases step s σ m with hSame | ⟨es, hEnabled⟩
    · rwa [hSame]
    · exact hKeep _ _ _ _ ih hEnabled

/-- What every step that the schedule takes keeps holds at every moment. -/
theorem moment_invariant {step : S → A → Option (S × List E)} {I : S → Prop} {s : S} {σ : Nat → A}
    (hStart : I s) (hKeep : ∀ n s' es, I (moment step s σ n) →
      step (moment step s σ n) (σ n) = some (s', es) → I s') (n : Nat) :
    I (moment step s σ n) := by
  induction n with
  | zero => exact hStart
  | succ n ih =>
    rcases moment_succ_cases step s σ n with hSame | ⟨es, hEnabled⟩
    · rwa [hSame]
    · exact hKeep n _ es ih hEnabled

/-- Every action of the class is scheduled again and again. -/
def Fair (chosen : A → Prop) (σ : Nat → A) : Prop :=
  ∀ a, chosen a → ∀ n, ∃ k, n ≤ k ∧ σ k = a

/-- From moment `n` on the state stays the same. -/
def Rests (step : S → A → Option (S × List E)) (s : S) (σ : Nat → A) (n : Nat) : Prop :=
  ∀ m, n ≤ m → moment step s σ m = moment step s σ n

/-- At rest an action that comes again does nothing. -/
theorem Rests.idle {step : S → A → Option (S × List E)} {s : S} {σ : Nat → A} {n : Nat}
    {chosen : A → Prop} (hRests : Rests step s σ n) (hFair : Fair chosen σ) {a : A}
    (ha : chosen a) {s' : S} {es : List E} (hStep : step (moment step s σ n) a = some (s', es)) :
    s' = moment step s σ n := by
  obtain ⟨k, hk, rfl⟩ := hFair a ha n
  have hAfter := hRests (k + 1) (Nat.le_succ_of_le hk)
  rw [moment_succ, hRests k hk, advance_eq_some (x := (moment step s σ n, [])) hStep] at hAfter
  exact hAfter

/-- An endless run whose moments from `start` on lower a measure or leave the state as it is
comes to rest. -/
theorem exists_rests (step : S → A → Option (S × List E)) (measure : S → Nat) (s : S)
    (σ : Nat → A) (start : Nat)
    (hDown : ∀ m, start ≤ m → moment step s σ (m + 1) = moment step s σ m ∨
      measure (moment step s σ (m + 1)) < measure (moment step s σ m)) :
    ∃ n, start ≤ n ∧ Rests step s σ n := by
  classical
  -- `n` is a moment of the least value that the measure takes from `start` on
  have hSome : ∃ v n, start ≤ n ∧ measure (moment step s σ n) = v := ⟨_, start, le_refl start, rfl⟩
  obtain ⟨n, hn, hLeast⟩ := Nat.find_spec hSome
  refine ⟨n, hn, fun m hm => ?_⟩
  induction m, hm using Nat.le_induction with
  | base => rfl
  | succ m hm ih =>
    rcases hDown m (hn.trans hm) with hSame | hLess
    · rw [hSame, ih]
    · rw [ih, hLeast] at hLess
      exact absurd ⟨m + 1, by omega, rfl⟩ (Nat.find_min hSome hLess)

/-- The rule for a system whose states meet `I` from `start` on: if then every enabled
action lowers the measure, or is not chosen and changes nothing, the run comes to rest in a
state that meets `I` and in which no chosen action is enabled. -/
theorem fair_rests (step : S → A → Option (S × List E)) {I : S → Prop} (measure : S → Nat)
    {chosen : A → Prop} {s : S} {σ : Nat → A} {start : Nat}
    (hStart : ∀ m, start ≤ m → I (moment step s σ m)) (hFair : Fair chosen σ)
    (hDown : ∀ s a s' es, I s → step s a = some (s', es) →
      (s' = s ∧ ¬ chosen a) ∨ measure s' < measure s) :
    ∃ n, start ≤ n ∧ Rests step s σ n ∧ I (moment step s σ n) ∧
      ∀ a, chosen a → step (moment step s σ n) a = none := by
  obtain ⟨n, hn, hRests⟩ := exists_rests step measure s σ start fun m hm => by
    rcases moment_succ_cases step s σ m with hSame | ⟨es, hEnabled⟩
    · exact Or.inl hSame
    · exact (hDown _ _ _ _ (hStart m hm) hEnabled).imp_left And.left
  refine ⟨n, hn, hRests, hStart n hn, fun a ha => ?_⟩
  by_contra hSome
  obtain ⟨⟨s', es⟩, hStep⟩ := Option.ne_none_iff_exists'.mp hSome
  obtain rfl := hRests.idle hFair ha hStep
  rcases hDown _ _ _ _ (hStart n hn) hStep with ⟨-, hOther⟩ | hLess
  · exact hOther ha
  · exact Nat.lt_irrefl _ hLess

/-- The rule for a schedule of chosen actions alone. -/
theorem chosen_rests (step : S → A → Option (S × List E)) {I : S → Prop} (measure : S → Nat)
    {chosen : A → Prop} {s : S} {σ : Nat → A} (hI : ∀ m, I (moment step s σ m))
    (hFair : Fair chosen σ) (hChosen : ∀ m, chosen (σ m))
    (hDown : ∀ s a s' es, I s → chosen a → step s a = some (s', es) → measure s' < measure s) :
    ∃ n, Rests step s σ n ∧ ∀ a, chosen a → step (moment step s σ n) a = none := by
  obtain ⟨n, -, hRests⟩ := exists_rests step measure s σ 0 fun m _ => by
    rcases moment_succ_cases step s σ m with hSame | ⟨es, hEnabled⟩
    · exact Or.inl hSame
    · exact Or.inr (hDown _ _ _ _ (hI m) (hChosen m) hEnabled)
  refine ⟨n, hRests, fun a ha => ?_⟩
  by_contra hSome
  obtain ⟨⟨s', es⟩, hStep⟩ := Option.ne_none_iff_exists'.mp hSome
  have hLess := hDown _ _ _ _ (hI n) ha hStep
  rw [hRests.idle hFair ha hStep] at hLess
  exact Nat.lt_irrefl _ hLess

/-- The rule for steering a run: if some action leads from every state of `I` that does not yet
meet `G` to one of `I` with a lower measure, then a run leads to a state that meets `G`. -/
theorem exists_leads {step : S → A → Option (S × List E)} {I G : S → Prop} (measure : S → Nat)
    (hNext : ∀ s, I s → ¬ G s →
      ∃ a s' es, step s a = some (s', es) ∧ I s' ∧ measure s' < measure s)
    {s : S} (hI : I s) : ∃ s', Leads step s s' ∧ I s' ∧ G s' := by
  induction hMeasure : measure s using Nat.strong_induction_on generalizing s with
  | _ k ih =>
    by_cases hG : G s
    · exact ⟨s, .refl step s, hI, hG⟩
    · obtain ⟨a, s₁, es, hStep, hI₁, hLess⟩ := hNext s hI hG
      obtain ⟨s', hLeads, hEnd⟩ := ih (measure s₁) (hMeasure ▸ hLess) hI₁ rfl
      exact ⟨s', (leads_of_step hStep).trans hLeads, hEnd⟩

/-! ## One process of a pool -/

variable {τ σ' ω ι ε : Type} [DecidableEq τ] {step : σ' → ω → ι → Option (σ' × ω × List ε)}

theorem poolStep_of_step {c : Conf τ σ' ω} {t : τ} {i : ι} {sh : σ'} {w : ω} {es : List ε}
    (hStep : step c.shared (c.procs t) i = some (sh, w, es)) :
    poolStep step c (t, i) = some (⟨sh, Function.update c.procs t w⟩, es.map (Prod.mk t)) := by
  simp only [poolStep, hStep]

/-- Steps that one process takes while the others wait. -/
inductive Solo (step : σ' → ω → ι → Option (σ' × ω × List ε)) : σ' → ω → σ' → ω → Prop where
  | refl (sh : σ') (w : ω) : Solo step sh w sh w
  | step {sh sh₁ sh₂ : σ'} {w w₁ w₂ : ω} {i : ι} {es : List ε}
      (hStep : step sh w i = some (sh₁, w₁, es)) (hRest : Solo step sh₁ w₁ sh₂ w₂) :
      Solo step sh w sh₂ w₂

theorem Solo.leads {sh sh' : σ'} {w w' : ω} (h : Solo step sh w sh' w') (procs : τ → ω) {t : τ}
    (hOwn : procs t = w) :
    Leads (poolStep step) ⟨sh, procs⟩ ⟨sh', Function.update procs t w'⟩ := by
  induction h generalizing procs with
  | refl sh w =>
    subst hOwn
    rw [Function.update_eq_self]
    exact .refl _ _
  | @step sh sh₁ sh₂ w w₁ w₂ i es hStep _ ih =>
    subst hOwn
    have hFirst := leads_of_step (poolStep_of_step (c := ⟨sh, procs⟩) hStep)
    have hLater := ih (Function.update procs t w₁) (Function.update_self t w₁ procs)
    rw [Function.update_idem] at hLater
    exact hFirst.trans hLater

theorem pool_moment_move {c : Conf τ σ' ω} {σ : Nat → τ × ι} {n : Nat} {t : τ} {i : ι} {sh : σ'}
    {w : ω} {es : List ε} (hNow : σ n = (t, i))
    (hStep : step (moment (poolStep step) c σ n).shared ((moment (poolStep step) c σ n).procs t) i =
      some (sh, w, es)) :
    moment (poolStep step) c σ (n + 1) =
      ⟨sh, Function.update (moment (poolStep step) c σ n).procs t w⟩ := by
  rw [moment_succ, hNow,
    advance_eq_some (x := (moment (poolStep step) c σ n, [])) (poolStep_of_step hStep)]

variable (step) in
/-- A process stays as it is, or the schedule names it and its step is enabled. -/
theorem pool_moment_cases (c : Conf τ σ' ω) (σ : Nat → τ × ι) (n : Nat) (t : τ) :
    (moment (poolStep step) c σ (n + 1)).procs t = (moment (poolStep step) c σ n).procs t ∨
      ∃ i es, σ n = (t, i) ∧
        step (moment (poolStep step) c σ n).shared ((moment (poolStep step) c σ n).procs t) i =
          some ((moment (poolStep step) c σ (n + 1)).shared,
            (moment (poolStep step) c σ (n + 1)).procs t, es) := by
  rcases moment_succ_cases (poolStep step) c σ n with hSame | ⟨es, hEnabled⟩
  · rw [hSame]
    exact Or.inl rfl
  · obtain ⟨sh, w, own, hMove, hNext, -⟩ := poolStep_eq_some hEnabled
    by_cases ht : (σ n).1 = t
    · subst ht
      refine Or.inr ⟨(σ n).2, own, rfl, ?_⟩
      rw [hMove, hNext]
      dsimp only
      rw [Function.update_self]
    · left
      rw [hNext]
      dsimp only
      rw [Function.update_of_ne (Ne.symm ht)]

/-- What the steps of a process keep of its local state holds from then on. -/
theorem pool_local_from {P : ω → Prop} {c : Conf τ σ' ω} {σ : Nat → τ × ι} {n m : Nat} {t : τ}
    (hKeep : ∀ sh w i sh' w' es, P w → step sh w i = some (sh', w', es) → P w')
    (hStart : P ((moment (poolStep step) c σ n).procs t)) (hLater : n ≤ m) :
    P ((moment (poolStep step) c σ m).procs t) := by
  induction m, hLater using Nat.le_induction with
  | base => exact hStart
  | succ m _ ih =>
    rcases pool_moment_cases step c σ m t with hSame | ⟨i, es, -, hStep⟩
    · rwa [hSame]
    · exact hKeep _ _ _ _ _ _ ih hStep

/-- What the action `i` makes true of its process, or finds true when it is not enabled, and
the later steps of the process keep, holds from that moment on. -/
theorem pool_holds_after {P : ω → Prop} {c : Conf τ σ' ω} {σ : Nat → τ × ι} {k m : Nat} {t : τ}
    {i : ι} (hNow : σ k = (t, i))
    (hMove : ∀ sh w es, step (moment (poolStep step) c σ k).shared
      ((moment (poolStep step) c σ k).procs t) i = some (sh, w, es) → P w)
    (hStuck : step (moment (poolStep step) c σ k).shared
      ((moment (poolStep step) c σ k).procs t) i = none →
      P ((moment (poolStep step) c σ k).procs t))
    (hKeep : ∀ sh w i sh' w' es, P w → step sh w i = some (sh', w', es) → P w') (hLater : k < m) :
    P ((moment (poolStep step) c σ m).procs t) := by
  refine pool_local_from (n := k + 1) hKeep ?_ hLater
  cases hStep : step (moment (poolStep step) c σ k).shared
      ((moment (poolStep step) c σ k).procs t) i with
  | some next =>
    obtain ⟨sh, w, es⟩ := next
    rw [pool_moment_move hNow hStep]
    dsimp only
    rw [Function.update_self]
    exact hMove sh w es hStep
  | none =>
    have hSame : moment (poolStep step) c σ (k + 1) = moment (poolStep step) c σ k := by
      rw [moment_succ, hNow]
      unfold advance
      rw [poolStep_eq_none.mpr hStep]
    rw [hSame]
    exact hStuck hStep

/-! ## Ranked processes -/

variable [Fintype τ]

omit [DecidableEq τ] in
/-- What has happened to every process has happened to all of them by some moment. -/
theorem exists_all_before {Q : τ → Nat → Prop} (h : ∀ t, ∃ k, Q t k) :
    ∃ start, ∀ t, ∃ k, k < start ∧ Q t k := by
  choose k hk using h
  refine ⟨Finset.univ.sup k + 1, fun t => ⟨k t, ?_, hk t⟩⟩
  exact Nat.lt_succ_of_le (Finset.le_sup (Finset.mem_univ t))

/-- The ranks of all processes together. -/
def totalRank (rank : ω → Nat) (procs : τ → ω) : Nat := ∑ t, rank (procs t)

theorem totalRank_update (rank : ω → Nat) (procs : τ → ω) (t : τ) (w : ω) :
    totalRank rank (Function.update procs t w) + rank (procs t) =
      totalRank rank procs + rank w := by
  have hOld := Finset.add_sum_erase Finset.univ (fun u => rank (procs u)) (Finset.mem_univ t)
  have hNew := Finset.add_sum_erase Finset.univ
    (fun u => rank (Function.update procs t w u)) (Finset.mem_univ t)
  have hRest : ∑ u ∈ Finset.univ.erase t, rank (Function.update procs t w u) =
      ∑ u ∈ Finset.univ.erase t, rank (procs u) := by
    refine Finset.sum_congr rfl fun u hu => ?_
    rw [Function.update_of_ne (Finset.ne_of_mem_erase hu)]
  rw [hRest, Function.update_self] at hNew
  unfold totalRank
  omega

omit [DecidableEq τ] in
theorem totalRank_le {rank : ω → Nat} {procs : τ → ω} {k : Nat} (h : ∀ t, rank (procs t) ≤ k) :
    totalRank rank procs ≤ Fintype.card τ * k :=
  Finset.sum_le_card_nsmul Finset.univ _ k fun t _ => h t

omit [DecidableEq τ] in
theorem le_totalRank (rank : ω → Nat) (procs : τ → ω) (t : τ) :
    rank (procs t) ≤ totalRank rank procs :=
  Finset.single_le_sum (f := fun u => rank (procs u)) (fun _ _ => Nat.zero_le _)
    (Finset.mem_univ t)

variable (step) in
/-- The rule for a pool: a step lowers the rank of its process, or is not chosen and changes
nothing. -/
theorem pool_rests {I : Conf τ σ' ω → Prop} (rank : ω → Nat) {chosen : τ × ι → Prop}
    {c : Conf τ σ' ω} {σ : Nat → τ × ι} (start : Nat)
    (hStart : ∀ m, start ≤ m → I (moment (poolStep step) c σ m)) (hFair : Fair chosen σ)
    (hDown : ∀ c t i sh w es, I c → step c.shared (c.procs t) i = some (sh, w, es) →
      ((sh = c.shared ∧ w = c.procs t) ∧ ¬ chosen (t, i)) ∨ rank w < rank (c.procs t)) :
    ∃ n, start ≤ n ∧ Rests (poolStep step) c σ n ∧ I (moment (poolStep step) c σ n) ∧
      ∀ t i, chosen (t, i) →
        step (moment (poolStep step) c σ n).shared ((moment (poolStep step) c σ n).procs t) i =
          none := by
  obtain ⟨n, hn, hRests, hI, hIdle⟩ :=
    fair_rests (poolStep step) (fun c => totalRank rank c.procs) hStart hFair
      fun c a c' es hI hEnabled => by
        obtain ⟨sh, w, own, hMove, rfl, -⟩ := poolStep_eq_some hEnabled
        rcases hDown c a.1 a.2 sh w own hI hMove with ⟨⟨rfl, rfl⟩, hOther⟩ | hLess
        · left
          rw [Function.update_eq_self]
          exact ⟨rfl, hOther⟩
        · right
          have hSum := totalRank_update rank c.procs a.1 w
          dsimp only
          omega
  exact ⟨n, hn, hRests, hI, fun t i hChosen => poolStep_eq_none.mp (hIdle (t, i) hChosen)⟩

end OsLabs.Runs
