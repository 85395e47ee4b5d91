import OsLabs.Rpc.BusyWait

/-!
# Runs in which the dispatcher does not wedge

If no slot still to be tested holds a ticket smaller than that of the slot that is served, the
dispatcher passes every test by itself (`Passable`). Orderly steps keep this.
-/

namespace OsLabs.Rpc.NewBakery

open Runs

variable {s s' : State} {es : List Event} {k : Nat}

/-! ## A loop that ends -/

/-- No slot still to be tested is ahead of the one that is served, and the slot that the
dispatcher has found occupied still is. -/
structure Passable (s : State) (j : Slot) : Prop where
  loop : s.dispatcher.loop = some j
  free : ∀ i, s.dispatcher.Before i → ¬ Ahead s.numbers i j
  nonneg : ∀ i, 0 ≤ s.numbers i
  distinct : ∀ i, s.numbers i = s.numbers j → s.numbers i ≠ 0 → i = j
  seen : ∀ i, s.dispatcher = .whileLess j i ∨ s.dispatcher = .whileEqual j i → s.numbers i ≠ 0

/-- How many steps the dispatcher needs at most. -/
def DispatcherPc.rank : DispatcherPc → Nat
  | .forTest _ i => 4 * (MAX_CLIENTS - i) + 1
  | .whileZero _ i => 4 * (MAX_CLIENTS - i)
  | .whileLess _ i => 4 * (MAX_CLIENTS - i) - 1
  | .whileEqual _ i => 4 * (MAX_CLIENTS - i) - 2
  | _ => 0

/-- One step of the dispatcher in a passable loop. -/
theorem Passable.dispatcherStep {j : Slot} (h : Passable s j) :
    ∃ s', dispatcherStep s = some (s', []) ∧
      (s'.dispatcher.loop = none ∨
        Passable s' j ∧ s'.dispatcher.rank < s.dispatcher.rank) := by
  have hLoop := h.loop
  have hFree := h.free
  have hSeen := h.seen
  cases hPc : s.dispatcher with
  | forTest j' i =>
    rw [hPc] at hLoop hFree
    obtain rfl : j' = j := Option.some.inj hLoop
    by_cases hi : i < MAX_CLIENTS
    · refine ⟨{ s with dispatcher := .whileZero j' ⟨i, hi⟩ }, ?_, Or.inr ⟨?_, ?_⟩⟩
      · simp [NewBakery.dispatcherStep, hPc, hi]
      · exact ⟨rfl, hFree, h.nonneg, h.distinct, nofun⟩
      · simp only [DispatcherPc.rank]
        omega
    · refine ⟨{ s with dispatcher := .clear j' }, ?_, Or.inl rfl⟩
      simp [NewBakery.dispatcherStep, hPc, hi]
  | whileZero j' i =>
    rw [hPc] at hLoop hFree
    obtain rfl : j' = j := Option.some.inj hLoop
    have hi := i.isLt
    by_cases hZero : s.numbers i = 0
    · refine ⟨{ s with dispatcher := .forTest j' (i + 1) }, ?_, Or.inr ⟨?_, ?_⟩⟩
      · simp [NewBakery.dispatcherStep, hPc, hZero]
      · refine ⟨rfl, fun i' hBefore => hFree i' ?_, h.nonneg, h.distinct, nofun⟩
        exact Nat.le_of_succ_le hBefore
      · simp only [DispatcherPc.rank]
        omega
    · refine ⟨{ s with dispatcher := .whileLess j' i }, ?_, Or.inr ⟨?_, ?_⟩⟩
      · simp [NewBakery.dispatcherStep, hPc, hZero]
      · refine ⟨rfl, hFree, h.nonneg, h.distinct, ?_⟩
        rintro i' (hEq | hEq)
        · cases hEq
          exact hZero
        · cases hEq
      · simp only [DispatcherPc.rank]
        omega
  | whileLess j' i =>
    rw [hPc] at hLoop hFree
    obtain rfl : j' = j := Option.some.inj hLoop
    have hi := i.isLt
    have hOccupied : s.numbers i ≠ 0 := hSeen i (Or.inl hPc)
    have hNonneg := h.nonneg i
    have hLess : ¬ s.numbers i < s.numbers j' := fun hLt =>
      hFree i (Nat.le_refl _) ⟨by omega, hLt⟩
    refine ⟨{ s with dispatcher := .whileEqual j' i }, ?_, Or.inr ⟨?_, ?_⟩⟩
    · simp [NewBakery.dispatcherStep, hPc, hLess]
    · refine ⟨rfl, fun i' hBefore => hFree i' (Nat.le_of_lt hBefore), h.nonneg, h.distinct, ?_⟩
      rintro i' (hEq | hEq)
      · cases hEq
      · cases hEq
        exact hOccupied
    · simp only [DispatcherPc.rank]
      omega
  | whileEqual j' i =>
    rw [hPc] at hLoop hFree
    obtain rfl : j' = j := Option.some.inj hLoop
    have hi := i.isLt
    have hOccupied : s.numbers i ≠ 0 := hSeen i (Or.inr hPc)
    have hOther : ¬ (s.numbers i = s.numbers j' ∧ i < j') := by
      rintro ⟨hEq, hLt⟩
      obtain rfl := h.distinct i hEq hOccupied
      exact Nat.lt_irrefl _ hLt
    refine ⟨{ s with dispatcher := .forTest j' (i + 1) }, ?_, Or.inr ⟨?_, ?_⟩⟩
    · simp only [NewBakery.dispatcherStep, hPc, if_neg hOther]
    · exact ⟨rfl, hFree, h.nonneg, h.distinct, nofun⟩
    · simp only [DispatcherPc.rank]
      omega
  | svcRun | registerReply id | getTest id | getRead id | getReset id result
  | getReply id result | clear j' | resultReply j' =>
    rw [hPc] at hLoop
    cases hLoop

/-- The dispatcher leaves a passable loop by itself. -/
theorem Passable.leaves {j : Slot} (h : Passable s j) :
    ∃ sched, (run step s sched).1.dispatcher.loop = none := by
  induction hRank : s.dispatcher.rank using Nat.strongRecOn generalizing s with
  | ind n ih =>
    obtain ⟨s₁, hStep, hDone | ⟨hPassable, hLess⟩⟩ := h.dispatcherStep
    · refine ⟨[.dispatcher], ?_⟩
      rw [run_cons_state]
      simpa [advance, step, hStep, run, resume] using hDone
    · obtain ⟨sched, hLeaves⟩ := ih _ (hRank ▸ hLess) hPassable rfl
      refine ⟨.dispatcher :: sched, ?_⟩
      rw [run_cons_state]
      simpa [advance, step, hStep] using hLeaves

theorem Passable.not_wedged {j : Slot} (h : Passable s j) : ¬ Wedged s := by
  rintro ⟨j', -, hStays⟩
  obtain ⟨sched, hLeaves⟩ := h.leaves
  rw [hStays sched] at hLeaves
  cases hLeaves

/-! ## Runs in order -/

structure InOrder (s : State) : Prop where
  base : Base s
  passable : ∀ j, s.dispatcher.loop = some j → Passable s j

/-- The dispatcher enters the loop with a request only. -/
theorem dispatcherStep_loop (hStep : dispatcherStep s = some (s', es))
    (hOut : s.dispatcher.loop = none) : s'.dispatcher.loop = none := by
  unfold dispatcherStep at hStep
  split at hStep
  case h_1 => cases hStep
  case h_3 => split at hStep <;> cases hStep <;> rfl
  case h_7 hPc | h_8 hPc | h_9 hPc | h_10 hPc =>
    rw [hPc] at hOut
    cases hOut
  all_goals
    cases hStep
    rfl

theorem InOrder.dispatcherStep (h : InOrder s) (hStep : dispatcherStep s = some (s', es)) :
    InOrder s' := by
  refine ⟨h.base.dispatcherStep hStep, fun j hLoop => ?_⟩
  cases hBefore : s.dispatcher.loop with
  | none =>
    rw [dispatcherStep_loop hStep hBefore] at hLoop
    cases hLoop
  | some j' =>
    obtain ⟨s₁, hNext, hNow⟩ := (h.passable j' hBefore).dispatcherStep
    obtain rfl : s₁ = s' := congrArg Prod.fst (Option.some.inj (hNext.symm.trans hStep))
    rcases hNow with hDone | ⟨hPassable, -⟩
    · rw [hDone] at hLoop
      cases hLoop
    · obtain rfl : j' = j := Option.some.inj (hPassable.loop.symm.trans hLoop)
      exact hPassable

/-- A new ticket for a slot other than the one that is served is larger than those the
dispatcher compares. -/
theorem InOrder.storeNumber (h : InOrder s) (hOrderly : Orderly s (.thread k)) {idx j : Slot}
    (hPc : s.thread k = .storeNumber idx) (hLoop : s.dispatcher.loop = some j) {i : Slot}
    (hBefore : s.dispatcher.Before i) :
    ¬ Ahead (Function.update s.numbers idx s.maxNumber) i j := by
  have hFresh := h.base.fresh k idx hPc j
  rintro ⟨hPos, hLess⟩
  rcases eq_or_ne j idx with rfl | hne
  · rcases eq_or_ne i j with rfl | hi
    · omega
    · rw [Function.update_of_ne hi, hOrderly j hPc hLoop i hi hBefore] at hPos
      omega
  · rw [Function.update_of_ne hne] at hLess
    rcases eq_or_ne i idx with rfl | hi
    · rw [Function.update_self] at hLess
      omega
    · rw [Function.update_of_ne hi] at hPos hLess
      exact (h.passable j hLoop).free i hBefore ⟨hPos, hLess⟩

theorem InOrder.findMaxNumber (h : InOrder s) (hOrderly : Orderly s (.thread k))
    (hStep : findMaxNumber s k = some (s', es)) : InOrder s' := by
  have hBase := h.base.findMaxNumber hStep
  refine ⟨hBase, fun j hLoop => ?_⟩
  unfold NewBakery.findMaxNumber at hStep
  split at hStep
  · split at hStep
    · cases hStep
      have hPassable := h.passable j hLoop
      exact ⟨hLoop, hPassable.free, hPassable.nonneg, hPassable.distinct, hPassable.seen⟩
    · cases hStep
  · cases hStep
    have hPassable := h.passable j hLoop
    exact ⟨hLoop, hPassable.free, hPassable.nonneg, hPassable.distinct, hPassable.seen⟩
  · next idx hPc =>
    cases hStep
    refine ⟨hLoop, fun i hBefore => h.storeNumber hOrderly hPc hLoop hBefore, hBase.nonneg,
      fun i => hBase.distinct i j, fun i hAt => ?_⟩
    have hFresh := h.base.fresh k idx hPc i
    have hNonneg := h.base.nonneg i
    have hSeen := (h.passable j hLoop).seen i hAt
    dsimp only
    rcases eq_or_ne i idx with rfl | hi
    · rw [Function.update_self]
      omega
    · rw [Function.update_of_ne hi]
      exact hSeen
  · cases hStep
    have hPassable := h.passable j hLoop
    exact ⟨hLoop, hPassable.free, hPassable.nonneg, hPassable.distinct, hPassable.seen⟩
  · cases hStep
    have hPassable := h.passable j hLoop
    exact ⟨hLoop, hPassable.free, hPassable.nonneg, hPassable.distinct, hPassable.seen⟩
  · cases hStep
  · cases hStep

theorem InOrder.step {a : Action} (h : InOrder s) (hOrderly : Orderly s a)
    (hStep : step s a = some (s', es)) : InOrder s' := by
  cases a with
  | client id =>
    have hBase := h.base.step hStep
    obtain ⟨pc, rfl, -, -⟩ := clientStep_eq hStep
    refine ⟨hBase, fun j hLoop => ?_⟩
    have hPassable := h.passable j hLoop
    exact ⟨hLoop, hPassable.free, hPassable.nonneg, hPassable.distinct, hPassable.seen⟩
  | take id created =>
    have hBase := h.base.step hStep
    refine ⟨hBase, fun j hLoop => ?_⟩
    simp only [NewBakery.step, take] at hStep
    split at hStep
    · next hIdle =>
      split at hStep
      · split at hStep
        · cases hStep
          cases hLoop
        · cases hStep
          have hOut : s.dispatcher.loop = some j := hLoop
          rw [hIdle] at hOut
          cases hOut
      · cases hStep
        cases hLoop
      · next hPc =>
        cases hStep
        obtain rfl : id = j := Option.some.inj hLoop
        exact ⟨rfl, fun i _ => hOrderly hIdle hPc i, hBase.nonneg,
          fun i => hBase.distinct i id, fun i hAt => by rcases hAt with hAt | hAt <;> cases hAt⟩
      · cases hStep
    · cases hStep
  | thread k => exact h.findMaxNumber hOrderly hStep
  | dispatcher => exact h.dispatcherStep hStep

/-- In no run whose steps are all orderly does the dispatcher wedge. -/
theorem not_wedged_of_orderly {sched : List Action} (hOrderly : Along step Orderly init sched) :
    ¬ Wedged (serve sched).1 := by
  have hInOrder : InOrder (serve sched).1 :=
    run_invariant_along (P := fun s _ => InOrder s) ⟨base_init, nofun⟩
      (fun _ _ _ _ _ hIn hC hStep => hIn.step hC hStep) hOrderly
  intro hWedged
  obtain ⟨j, hLoop, -⟩ := id hWedged
  exact (hInOrder.passable j hLoop).not_wedged hWedged

/-- The client in slot `j` picks its ticket up and calls `RESULT_PROC`. -/
def pickingUp (j : Slot) : List Action :=
  [.client j, .take j true, .dispatcher, .dispatcher, .dispatcher, .dispatcher, .client j,
    .take j true]

/-- Two clients register one after the other, and the first is served first. -/
def firstFirst : List Action := registering slot0 0 ++ registering slot1 1 ++ pickingUp slot0

/-- Two clients register one after the other, and the second is served first. -/
def secondFirst : List Action := registering slot0 0 ++ registering slot1 1 ++ pickingUp slot1

/-- `RESULT_PROC` is taken for a slot with the first ticket only, and no thread runs
meanwhile. -/
def calm (s : State) : Action → Bool
  | .take j _ => s.client j ≠ .resultSent ∨ s.numbers j ≤ 1
  | .thread _ => s.dispatcher.loop = none
  | _ => true

theorem orderly_of_calm (s : State) (a : Action) (h : calm s a = true) : Orderly s a := by
  cases a with
  | client id => trivial
  | take j created =>
    rintro - hSent i ⟨hPos, hLess⟩
    rcases of_decide_eq_true h with hOther | hFirst
    · exact hOther hSent
    · omega
  | thread k =>
    intro j _ hLoop
    rw [of_decide_eq_true h] at hLoop
    cases hLoop
  | dispatcher => trivial

theorem not_wedged_firstFirst :
    Along step Orderly init firstFirst ∧ (serve firstFirst).1.dispatcher.loop = some slot0 ∧
      ¬ Wedged (serve firstFirst).1 := by
  have hCalm : Along step (fun s a => calm s a = true) init firstFirst := by decide
  have hOrderly := along_mono orderly_of_calm hCalm
  exact ⟨hOrderly, by decide, not_wedged_of_orderly hOrderly⟩

/-- The ticket in slot 0 is smaller than that in slot 1, and the dispatcher would have to
clear it. -/
theorem wedged_secondFirst : Wedged (serve secondFirst).1 := by
  have hBase : Base (serve secondFirst).1 :=
    run_invariant (P := fun s _ => Base s) base_init (fun _ _ _ _ _ h => h.step) secondFirst
  have hAbsent (k : Nat) (hk : 2 ≤ k) : (serve secondFirst).1.thread k = .absent :=
    hBase.mutexed.absent k hk
  have hStuck : Stuck (serve secondFirst).1 slot1 slot0 := by
    refine ⟨hBase, by decide, Nat.zero_le _, ⟨by decide, by decide⟩, fun k hWill => ?_⟩
    have hEnded : ∀ k < 2, (serve secondFirst).1.thread k = .ended := by decide
    rcases Nat.lt_or_ge k 2 with hk | hk
    · rw [hEnded k hk] at hWill
      exact hWill
    · rw [hAbsent k hk] at hWill
      exact hWill
  exact hStuck.wedged

end OsLabs.Rpc.NewBakery
