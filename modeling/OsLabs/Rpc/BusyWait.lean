import OsLabs.Rpc.NewBakery

/-!
# When the dispatcher wedges in `RESULT_PROC`

A slot that is to be cleared has to be cleared by the dispatcher itself. So once the
dispatcher busy-waits for slot `j` and a slot `i`, still to be tested, holds a smaller
ticket that no thread is about to replace, nothing can end the loop (`Stuck`). If on the
other hand no slot still to be tested holds a ticket smaller than that of `j`, the dispatcher
passes every test by itself (`Passable`). This is kept by all steps except two: taking the
`RESULT_PROC` of a client whose ticket is not the smallest, and storing a new ticket for the
very slot that is served while slots still to be tested hold tickets. `Orderly` excludes
these.
-/

namespace OsLabs.Rpc.NewBakery

open Runs

/-- The slot for which the dispatcher is in the loop of `RESULT_PROC`. -/
def DispatcherPc.loop : DispatcherPc → Option Slot
  | .forTest j _ | .whileZero j _ | .whileLess j _ | .whileEqual j _ => some j
  | _ => none

/-- The dispatcher is in the loop, and every continuation leaves it there. -/
def Wedged (s : State) : Prop :=
  ∃ j, s.dispatcher.loop = some j ∧ ∀ sched, (run step s sched).1.dispatcher.loop = some j

/-- Slot `i` holds a ticket smaller than that of slot `j`. -/
def Ahead (numbers : Slot → Int) (i j : Slot) : Prop := 0 < numbers i ∧ numbers i < numbers j

/-- The dispatcher still has to test slot `i`. -/
def DispatcherPc.Before (i : Slot) : DispatcherPc → Prop
  | .forTest _ i' => i' ≤ i.val
  | .whileZero _ i' | .whileLess _ i' => i' ≤ i
  | .whileEqual _ i' => i' < i
  | _ => False

/-- `RESULT_PROC` is taken only for a slot with no other slot ahead, and a ticket is stored
for the slot that is served only if all other slots still to be tested are free. -/
def Orderly (s : State) : Action → Prop
  | .take j _ => s.dispatcher = .svcRun → s.client j = .resultSent → ∀ i, ¬ Ahead s.numbers i j
  | .thread k => ∀ j, s.thread k = .storeNumber j → s.dispatcher.loop = some j →
      ∀ i, i ≠ j → s.dispatcher.Before i → s.numbers i = 0
  | _ => True

/-! ## The tickets in `numbers` -/

structure Base (s : State) : Prop where
  mutexed : Mutexed s.mutex s.thread s.threads
  nonneg : ∀ i, 0 ≤ s.numbers i
  le : ∀ i, s.numbers i ≤ s.maxNumber
  fresh : ∀ k idx, s.thread k = .storeNumber idx → ∀ i, s.numbers i < s.maxNumber
  distinct : ∀ i j, s.numbers i = s.numbers j → s.numbers i ≠ 0 → i = j

theorem base_init : Base init :=
  ⟨⟨nofun, fun _ _ => rfl⟩, fun _ => Int.le_refl 0, fun _ => Int.le_refl 0, nofun,
    fun _ _ _ hne => absurd rfl hne⟩

variable {s s' : State} {es : List Event} {k : Nat} {pc : ThreadPc}

/-- A thread goes on without storing a ticket. -/
theorem Base.fresh_update (h : Base s) (hPc : ∀ idx, pc ≠ .storeNumber idx) {m : Nat} {idx : Slot}
    (hm : Function.update s.thread k pc m = .storeNumber idx) (i : Slot) :
    s.numbers i < s.maxNumber := by
  rcases eq_or_ne m k with rfl | hne
  · rw [Function.update_self] at hm
    exact absurd hm (hPc idx)
  · rw [Function.update_of_ne hne] at hm
    exact h.fresh m idx hm i

/-- The new ticket is larger than all others. -/
theorem Base.store (h : Base s) {idx : Slot} (hk : s.thread k = .storeNumber idx)
    (hMutexed : Mutexed s.mutex (Function.update s.thread k (.storeResult idx)) s.threads) :
    Base { s.setThread k (.storeResult idx) with
      numbers := Function.update s.numbers idx s.maxNumber } := by
  have hFresh := h.fresh k idx hk
  have hInside : (s.thread k).Inside := by rw [hk]; trivial
  have hValue (i : Slot) : Function.update s.numbers idx s.maxNumber i = s.maxNumber ∧ i = idx ∨
      Function.update s.numbers idx s.maxNumber i = s.numbers i ∧ i ≠ idx := by
    rcases eq_or_ne i idx with rfl | hne
    · exact Or.inl ⟨Function.update_self i _ _, rfl⟩
    · exact Or.inr ⟨Function.update_of_ne hne _ _, hne⟩
  refine ⟨hMutexed, fun i => ?_, fun i => ?_, ?_, ?_⟩
  · have hNonneg := h.nonneg i
    have hLt := hFresh i
    rcases hValue i with ⟨hi, -⟩ | ⟨hi, -⟩
    · dsimp only; omega
    · dsimp only; omega
  · have hLe := h.le i
    rcases hValue i with ⟨hi, -⟩ | ⟨hi, -⟩
    · dsimp only [State.setThread]; omega
    · dsimp only [State.setThread]; omega
  · intro m idx' hm i
    exfalso
    dsimp only [State.setThread] at hm
    obtain rfl := eq_of_inside_update (fun _ => h.mutexed.alone hInside) (by rw [hm]; trivial)
    rw [Function.update_self] at hm
    cases hm
  · intro i j hEq hNe
    dsimp only at hEq hNe
    have hi := hFresh i
    have hj := hFresh j
    rcases hValue i with ⟨hi', rfl⟩ | ⟨hi', -⟩
    · rcases hValue j with ⟨-, rfl⟩ | ⟨hj', -⟩
      · rfl
      · omega
    · rcases hValue j with ⟨hj', rfl⟩ | ⟨hj', -⟩
      · omega
      · exact h.distinct i j (by omega) (by omega)

theorem Base.findMaxNumber (h : Base s) (hStep : findMaxNumber s k = some (s', es)) : Base s' := by
  have hMutexed := h.mutexed.findMaxNumber hStep
  unfold NewBakery.findMaxNumber at hStep
  split at hStep
  · split at hStep
    · cases hStep
      exact ⟨hMutexed, h.nonneg, h.le, fun m idx => h.fresh_update fun _ => by simp, h.distinct⟩
    · cases hStep
  · cases hStep
    refine ⟨hMutexed, h.nonneg, fun i => ?_, fun m idx _ i => ?_, h.distinct⟩
    · have hLe := h.le i
      dsimp only [State.setThread]
      omega
    · have hLe := h.le i
      dsimp only [State.setThread]
      omega
  · next idx hk =>
    cases hStep
    exact h.store hk hMutexed
  · cases hStep
    exact ⟨hMutexed, h.nonneg, h.le, fun m idx => h.fresh_update fun _ => by simp, h.distinct⟩
  · cases hStep
    exact ⟨hMutexed, h.nonneg, h.le, fun m idx => h.fresh_update fun _ => by simp, h.distinct⟩
  · cases hStep
  · cases hStep

/-- `numbers` is only changed by the dispatcher when it leaves `RESULT_PROC`. -/
theorem dispatcherStep_numbers (hStep : dispatcherStep s = some (s', es)) :
    s'.numbers = s.numbers ∨
      ∃ j, s.dispatcher = .clear j ∧ s'.dispatcher = .resultReply j ∧
        s'.numbers = Function.update s.numbers j 0 := by
  unfold dispatcherStep at hStep
  split at hStep
  case h_1 => cases hStep
  case h_3 | h_7 | h_8 | h_9 | h_10 => split at hStep <;> cases hStep <;> exact Or.inl rfl
  case h_11 j hPc => cases hStep; exact Or.inr ⟨j, hPc, rfl, rfl⟩
  all_goals
    cases hStep
    exact Or.inl rfl

theorem Base.clear (h : Base s) (j : Slot) (i : Slot) :
    0 ≤ Function.update s.numbers j 0 i ∧ Function.update s.numbers j 0 i ≤ s.numbers i := by
  have hNonneg := h.nonneg i
  rcases eq_or_ne i j with rfl | hne
  · rw [Function.update_self]
    omega
  · rw [Function.update_of_ne hne]
    omega

theorem Base.dispatcherStep (h : Base s) (hStep : dispatcherStep s = some (s', es)) : Base s' := by
  obtain ⟨hMutex, hThread, hThreads, hMax⟩ := dispatcherStep_threads hStep
  have hMutexed : Mutexed s'.mutex s'.thread s'.threads := by
    rw [hMutex, hThread, hThreads]
    exact h.mutexed
  rcases dispatcherStep_numbers hStep with hSame | ⟨j, -, -, hClear⟩
  · refine ⟨hMutexed, ?_, ?_, ?_, ?_⟩
    · rw [hSame]; exact h.nonneg
    · rw [hSame, hMax]; exact h.le
    · rw [hSame, hMax, hThread]; exact h.fresh
    · rw [hSame]; exact h.distinct
  · refine ⟨hMutexed, fun i => ?_, fun i => ?_, fun k idx hk i => ?_, fun a b hEq hNe => ?_⟩
    · rw [hClear]
      exact (h.clear j i).1
    · have hLe := h.le i
      have hLow := (h.clear j i).2
      rw [hClear, hMax]
      omega
    · rw [hThread] at hk
      have hLt := h.fresh k idx hk i
      have hLow := (h.clear j i).2
      rw [hClear, hMax]
      omega
    · rw [hClear] at hEq hNe
      have hKept {i : Slot} (hi : Function.update s.numbers j 0 i ≠ 0) :
          Function.update s.numbers j 0 i = s.numbers i := by
        rcases eq_or_ne i j with rfl | hne
        · exact absurd (Function.update_self i _ _) hi
        · exact Function.update_of_ne hne _ _
      have hKeptA := hKept hNe
      have hKeptB := hKept (hEq ▸ hNe)
      exact h.distinct a b (hKeptA ▸ hKeptB ▸ hEq) (hKeptA ▸ hNe)

theorem Base.step {a : Action} (h : Base s) (hStep : step s a = some (s', es)) : Base s' := by
  cases a with
  | client id =>
    obtain ⟨pc, rfl, -, -⟩ := clientStep_eq hStep
    exact ⟨h.mutexed, h.nonneg, h.le, h.fresh, h.distinct⟩
  | take id created =>
    have hMutexed := h.mutexed.step hStep
    simp only [NewBakery.step, take] at hStep
    split at hStep
    · split at hStep
      · split at hStep
        · cases hStep
          exact ⟨hMutexed, h.nonneg, h.le, fun m idx => h.fresh_update fun _ => by simp,
            h.distinct⟩
        · cases hStep
          exact ⟨hMutexed, h.nonneg, h.le, h.fresh, h.distinct⟩
      · cases hStep
        exact ⟨hMutexed, h.nonneg, h.le, h.fresh, h.distinct⟩
      · cases hStep
        exact ⟨hMutexed, h.nonneg, h.le, h.fresh, h.distinct⟩
      · cases hStep
    · cases hStep
  | thread k => exact h.findMaxNumber hStep
  | dispatcher => exact h.dispatcherStep hStep

/-! ## A slot that nobody can clear -/

/-- The thread will store a ticket for slot `i`. -/
def ThreadPc.Will (i : Slot) : ThreadPc → Prop
  | .lock idx | .incMax idx | .storeNumber idx => idx = i
  | _ => False

structure Stuck (s : State) (j i : Slot) : Prop where
  base : Base s
  loop : s.dispatcher.loop = some j
  before : s.dispatcher.Before i
  ahead : Ahead s.numbers i j
  kept : ∀ k, ¬ (s.thread k).Will i

theorem Stuck.dispatcherStep {j i : Slot} (h : Stuck s j i)
    (hStep : dispatcherStep s = some (s', es)) : Stuck s' j i := by
  have hBase := h.base.dispatcherStep hStep
  have hLoop := h.loop
  have hBefore := h.before
  have hAhead := h.ahead
  have hThread := (dispatcherStep_threads hStep).2.1
  have hPos : s.numbers i ≠ 0 := by
    have hLt := hAhead.1
    omega
  suffices hNext : s'.numbers = s.numbers ∧ s'.dispatcher.loop = some j ∧
      s'.dispatcher.Before i by
    obtain ⟨hNumbers, hLoop', hBefore'⟩ := hNext
    refine ⟨hBase, hLoop', hBefore', ?_, ?_⟩
    · rw [hNumbers]; exact hAhead
    · rw [hThread]; exact h.kept
  unfold NewBakery.dispatcherStep at hStep
  split at hStep
  case h_7 j' i' hPc =>
    rw [hPc] at hLoop hBefore
    split at hStep
    · cases hStep
      exact ⟨rfl, hLoop, hBefore⟩
    · next hEnd =>
      have hLt := i.isLt
      have hLe : i' ≤ i.val := hBefore
      omega
  case h_8 j' i' hPc =>
    rw [hPc] at hLoop hBefore
    split at hStep
    · cases hStep
      exact ⟨rfl, hLoop, hBefore⟩
    · next hZero =>
      cases hStep
      refine ⟨rfl, hLoop, ?_⟩
      rcases Nat.lt_or_eq_of_le (show i'.val ≤ i.val from hBefore) with hLt | hEq
      · exact hLt
      · exact absurd (Fin.ext hEq ▸ hPos) hZero
  case h_9 j' i' hPc =>
    rw [hPc] at hLoop hBefore
    obtain rfl : j' = j := Option.some.inj hLoop
    split at hStep
    · cases hStep
      exact ⟨rfl, rfl, hBefore⟩
    · next hLess =>
      cases hStep
      refine ⟨rfl, rfl, ?_⟩
      rcases Nat.lt_or_eq_of_le (show i'.val ≤ i.val from hBefore) with hLt | hEq
      · exact hLt
      · exact absurd (Fin.ext hEq ▸ hAhead.2) hLess
  case h_10 j' i' hPc =>
    rw [hPc] at hLoop hBefore
    have hLt : i' < i := hBefore
    split at hStep
    · cases hStep
      exact ⟨rfl, hLoop, Nat.le_of_lt hLt⟩
    · cases hStep
      exact ⟨rfl, hLoop, hLt⟩
  all_goals
    next hPc =>
      rw [hPc] at hLoop
      cases hLoop

theorem Stuck.findMaxNumber {j i : Slot} (h : Stuck s j i)
    (hStep : findMaxNumber s k = some (s', es)) : Stuck s' j i := by
  have hBase := h.base.findMaxNumber hStep
  have hKeep {pc : ThreadPc} (hPc : ¬ pc.Will i) (m : Nat) :
      ¬ (Function.update s.thread k pc m).Will i :=
    forall_update (p := fun pc : ThreadPc => ¬ pc.Will i) h.kept hPc k m
  have hOwn := h.kept k
  unfold NewBakery.findMaxNumber at hStep
  split at hStep
  · next idx hPc =>
    rw [hPc] at hOwn
    split at hStep
    · cases hStep
      exact ⟨hBase, h.loop, h.before, h.ahead, hKeep hOwn⟩
    · cases hStep
  · next idx hPc =>
    rw [hPc] at hOwn
    cases hStep
    exact ⟨hBase, h.loop, h.before, h.ahead, hKeep hOwn⟩
  · next idx hPc =>
    rw [hPc] at hOwn
    cases hStep
    refine ⟨hBase, h.loop, h.before, ?_, hKeep fun hWill => hWill⟩
    have hFresh := h.base.fresh k idx hPc i
    have hAhead := h.ahead
    have hOther : i ≠ idx := fun hEq => hOwn hEq.symm
    unfold Ahead at hAhead ⊢
    dsimp only
    rw [Function.update_of_ne hOther]
    refine ⟨hAhead.1, ?_⟩
    rcases eq_or_ne j idx with rfl | hne
    · rw [Function.update_self]
      exact hFresh
    · rw [Function.update_of_ne hne]
      exact hAhead.2
  · cases hStep
    exact ⟨hBase, h.loop, h.before, h.ahead, hKeep fun hWill => hWill⟩
  · cases hStep
    exact ⟨hBase, h.loop, h.before, h.ahead, hKeep fun hWill => hWill⟩
  · cases hStep
  · cases hStep

theorem Stuck.step {j i : Slot} {a : Action} (h : Stuck s j i)
    (hStep : step s a = some (s', es)) : Stuck s' j i := by
  cases a with
  | client id =>
    have hBase := h.base.step hStep
    obtain ⟨pc, rfl, -, -⟩ := clientStep_eq hStep
    exact ⟨hBase, h.loop, h.before, h.ahead, h.kept⟩
  | take id created =>
    have hLoop := h.loop
    simp only [NewBakery.step, take] at hStep
    split at hStep
    · next hIdle =>
      rw [hIdle] at hLoop
      cases hLoop
    · cases hStep
  | thread k => exact h.findMaxNumber hStep
  | dispatcher => exact h.dispatcherStep hStep

theorem Stuck.wedged {j i : Slot} (h : Stuck s j i) : Wedged s := by
  refine ⟨j, h.loop, fun sched => ?_⟩
  have hRun : Stuck (run NewBakery.step s sched).1 j i :=
    run_invariant (P := fun s _ => Stuck s j i) h (fun _ _ _ _ _ hStuck => hStuck.step) sched
  exact hRun.loop

end OsLabs.Rpc.NewBakery
