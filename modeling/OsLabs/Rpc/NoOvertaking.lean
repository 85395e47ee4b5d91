import Mathlib.Data.Finset.Card
import Mathlib.Data.Finset.Range
import OsLabs.Rpc.OrderlyRuns

/-!
# Nobody is overtaken in `RESULT_PROC`

The server alone, with any requests for any slots. While the dispatcher is in the loop for
slot `j`, a thread may store a ticket in a slot that has been tested already. But tickets are
taken and stored under the mutex, so every ticket that is stored after `t` is larger than `t`,
and only the dispatcher itself clears a slot. So a slot that has been tested holds no ticket or
one that is not smaller than `t`, and it stays like this to the end of the loop. A new ticket
for `j` itself would only make the tests stricter.
-/

namespace OsLabs.Rpc.NewBakery

open Runs

inductive Request where
  | register (id : Slot) (created : Bool)
  | getNumber (id : Slot)
  | result (id : Slot)
deriving DecidableEq

/-- The dispatcher takes a request, whoever sends it. -/
def accept (s : State) (r : Request) : Option (State × List Event) :=
  if s.dispatcher = .svcRun then
    match r with
    | .register id true =>
      some ({ s.setThread s.threads (.lock id) with
        threads := s.threads + 1, dispatcher := .registerReply id },
        [.registered id (some s.threads)])
    | .register id false => some (s, [.registered id none])
    | .getNumber id => some ({ s with dispatcher := .getTest id }, [])
    | .result id => some ({ s with dispatcher := .forTest id 0 }, [])
  else none

inductive ServerAction where
  | request (r : Request)
  | thread (k : Nat)
  | dispatcher
deriving DecidableEq

def serverStep (s : State) : ServerAction → Option (State × List Event)
  | .request r => accept s r
  | .thread k => findMaxNumber s k
  | .dispatcher => dispatcherStep s

variable {s s' : State} {es : List Event} {k : Nat}

theorem Base.accept (h : Base s) {r : Request} (hStep : accept s r = some (s', es)) : Base s' := by
  unfold NewBakery.accept at hStep
  split at hStep
  · split at hStep
    · cases hStep
      exact ⟨h.mutexed.create nofun, h.nonneg, h.le, fun m idx => h.fresh_update fun _ => by nofun,
        h.distinct⟩
    · cases hStep
      exact h
    · cases hStep
      exact ⟨h.mutexed, h.nonneg, h.le, h.fresh, h.distinct⟩
    · cases hStep
      exact ⟨h.mutexed, h.nonneg, h.le, h.fresh, h.distinct⟩
  · cases hStep

theorem Base.serverStep {a : ServerAction} (h : Base s) (hStep : serverStep s a = some (s', es)) :
    Base s' := by
  cases a with
  | request r => exact h.accept hStep
  | thread k => exact h.findMaxNumber hStep
  | dispatcher => exact h.dispatcherStep hStep

/-! ## One ticket for each registration -/

/-- The thread has taken its ticket. -/
def ThreadPc.Drawn : ThreadPc → Prop
  | .storeNumber _ | .storeResult _ | .unlock | .ended => True
  | _ => False

instance : DecidablePred ThreadPc.Drawn
  | .absent | .lock _ | .incMax _ => isFalse not_false
  | .storeNumber _ | .storeResult _ | .unlock | .ended => isTrue trivial

/-- The threads that have taken their tickets. -/
def drawn (thread : Nat → ThreadPc) (threads : Nat) : Finset Nat :=
  (Finset.range threads).filter fun k => (thread k).Drawn

structure Counted (s : State) : Prop where
  mutexed : Mutexed s.mutex s.thread s.threads
  maxNumber : s.maxNumber = (drawn s.thread s.threads).card

theorem drawn_update {thread : Nat → ThreadPc} {threads : Nat} {pc : ThreadPc}
    (hPc : (thread k).Drawn ↔ pc.Drawn) :
    drawn (Function.update thread k pc) threads = drawn thread threads := by
  unfold drawn
  apply Finset.filter_congr
  intro m _
  rcases eq_or_ne m k with rfl | hne
  · rw [Function.update_self]
    exact hPc.symm
  · rw [Function.update_of_ne hne]

theorem drawn_create {thread : Nat → ThreadPc} {threads : Nat} {pc : ThreadPc}
    (hPc : ¬ pc.Drawn) :
    drawn (Function.update thread threads pc) (threads + 1) = drawn thread threads := by
  unfold drawn
  rw [Finset.range_add_one, Finset.filter_insert, if_neg (by rwa [Function.update_self])]
  apply Finset.filter_congr
  intro m hm
  rw [Function.update_of_ne (Nat.ne_of_lt (Finset.mem_range.mp hm))]

theorem drawn_draw {thread : Nat → ThreadPc} {threads : Nat} {pc : ThreadPc} (hk : k < threads)
    (hBefore : ¬ (thread k).Drawn) (hPc : pc.Drawn) :
    (drawn (Function.update thread k pc) threads).card = (drawn thread threads).card + 1 := by
  have hInsert : drawn (Function.update thread k pc) threads = insert k (drawn thread threads) := by
    ext m
    simp only [drawn, Finset.mem_filter, Finset.mem_range, Finset.mem_insert]
    rcases eq_or_ne m k with rfl | hne
    · simp [hk, hPc]
    · simp [hne]
  rw [hInsert, Finset.card_insert_of_notMem]
  intro hMem
  exact hBefore (Finset.mem_filter.mp hMem).2

/-- A thread goes on, but takes no ticket. -/
theorem Counted.card_update (h : Counted s) {pc : ThreadPc}
    (hPc : (s.thread k).Drawn ↔ pc.Drawn) :
    s.maxNumber = (drawn (Function.update s.thread k pc) s.threads).card := by
  rw [drawn_update hPc]
  exact h.maxNumber

theorem Counted.findMaxNumber (h : Counted s) (hStep : findMaxNumber s k = some (s', es)) :
    Counted s' := by
  have hMutexed := h.mutexed.findMaxNumber hStep
  unfold NewBakery.findMaxNumber at hStep
  split at hStep
  · next idx hPc =>
    split at hStep
    · cases hStep
      exact ⟨hMutexed, h.card_update (by rw [hPc]; exact Iff.rfl)⟩
    · cases hStep
  · next idx hPc =>
    cases hStep
    refine ⟨hMutexed, ?_⟩
    have hk : k < s.threads := h.mutexed.lt (by rw [hPc]; nofun)
    have hBefore : ¬ (s.thread k).Drawn := by rw [hPc]; exact not_false
    have hDrawn : (ThreadPc.storeNumber idx).Drawn := trivial
    show s.maxNumber + 1 = (drawn (Function.update s.thread k _) s.threads).card
    rw [drawn_draw hk hBefore hDrawn, h.maxNumber]
    rfl
  · next idx hPc =>
    cases hStep
    exact ⟨hMutexed, h.card_update (by rw [hPc]; exact Iff.rfl)⟩
  · next idx hPc =>
    cases hStep
    exact ⟨hMutexed, h.card_update (by rw [hPc]; exact Iff.rfl)⟩
  · next hPc =>
    cases hStep
    exact ⟨hMutexed, h.card_update (by rw [hPc]; exact Iff.rfl)⟩
  · cases hStep
  · cases hStep

theorem Counted.accept (h : Counted s) {r : Request} (hStep : accept s r = some (s', es)) :
    Counted s' := by
  unfold NewBakery.accept at hStep
  split at hStep
  · split at hStep
    · next id =>
      cases hStep
      refine ⟨h.mutexed.create nofun, ?_⟩
      have hLock : ¬ (ThreadPc.lock id).Drawn := not_false
      show s.maxNumber = (drawn (Function.update s.thread s.threads _) (s.threads + 1)).card
      rw [drawn_create hLock, h.maxNumber]
    · cases hStep
      exact h
    · cases hStep
      exact ⟨h.mutexed, h.maxNumber⟩
    · cases hStep
      exact ⟨h.mutexed, h.maxNumber⟩
  · cases hStep

/-- As long as fewer than `2 ^ 31` registrations have been taken, every ticket is in the range of
an `int`. -/
theorem maxNumber_le_threads (sched : List ServerAction) :
    (run serverStep init sched).1.maxNumber ≤ (run serverStep init sched).1.threads := by
  have hCounted : Counted (run serverStep init sched).1 := by
    refine run_invariant (P := fun s _ => Counted s) ⟨base_init.mutexed, rfl⟩ ?_ sched
    intro s _ a s' es h hStep
    cases a with
    | request r => exact h.accept hStep
    | thread k => exact h.findMaxNumber hStep
    | dispatcher =>
      obtain ⟨hMutex, hThread, hThreads, hMax⟩ := dispatcherStep_threads hStep
      refine ⟨?_, ?_⟩
      · rw [hMutex, hThread, hThreads]
        exact h.mutexed
      · rw [hThread, hThreads, hMax]
        exact h.maxNumber
  have hCard : (drawn (run serverStep init sched).1.thread
      (run serverStep init sched).1.threads).card ≤ (run serverStep init sched).1.threads := by
    apply (Finset.card_filter_le _ _).trans
    rw [Finset.card_range]
  rw [hCounted.maxNumber]
  exact Int.ofNat_le.mpr hCard

/-! ## The slots that have been tested -/

/-- The dispatcher has passed slot `i`, or only looks at `i < j` any more. -/
def DispatcherPc.Tested (i : Slot) : DispatcherPc → Prop
  | .forTest _ i' => i.val < i'
  | .whileZero _ i' | .whileLess _ i' => i < i'
  | .whileEqual _ i' => i ≤ i'
  | .clear _ => True
  | _ => False

/-- The loop for slot `j`, which began when `j` held the ticket `t`. -/
structure Scanned (j : Slot) (t : Int) (s : State) : Prop where
  base : Base s
  own : t ≤ s.numbers j
  tested : ∀ i, s.dispatcher.Tested i → s.numbers i = 0 ∨ t ≤ s.numbers i

theorem Scanned.thread {j : Slot} {t : Int} (h : Scanned j t s)
    (hStep : findMaxNumber s k = some (s', es)) : Scanned j t s' := by
  have hBase := h.base.findMaxNumber hStep
  unfold findMaxNumber at hStep
  split at hStep
  · split at hStep
    · cases hStep
      exact ⟨hBase, h.own, h.tested⟩
    · cases hStep
  · cases hStep
    exact ⟨hBase, h.own, h.tested⟩
  · next idx hPc =>
    cases hStep
    -- The new ticket is larger than that of `j`.
    have hNew : t < s.maxNumber := by
      have hFresh := h.base.fresh k idx hPc j
      have hOwn := h.own
      omega
    refine ⟨hBase, ?_, fun i hTested => ?_⟩
    · show t ≤ Function.update s.numbers idx s.maxNumber j
      rcases eq_or_ne j idx with rfl | hne
      · rw [Function.update_self]
        omega
      · rw [Function.update_of_ne hne]
        exact h.own
    · show Function.update s.numbers idx s.maxNumber i = 0 ∨
        t ≤ Function.update s.numbers idx s.maxNumber i
      rcases eq_or_ne i idx with rfl | hne
      · rw [Function.update_self]
        exact Or.inr (by omega)
      · rw [Function.update_of_ne hne]
        exact h.tested i hTested
  · cases hStep
    exact ⟨hBase, h.own, h.tested⟩
  · cases hStep
    exact ⟨hBase, h.own, h.tested⟩
  · cases hStep
  · cases hStep

theorem Scanned.dispatcher {j : Slot} {t : Int} (h : Scanned j t s)
    (hLoop : s.dispatcher.loop = some j) (hStep : dispatcherStep s = some (s', es)) :
    Scanned j t s' := by
  have hBase := h.base.dispatcherStep hStep
  have hTested := h.tested
  unfold dispatcherStep at hStep
  split at hStep
  case h_7 j' i' hPc =>
    rw [hPc] at hTested
    split at hStep
    · cases hStep
      exact ⟨hBase, h.own, hTested⟩
    · next hEnd =>
      cases hStep
      refine ⟨hBase, h.own, fun i _ => hTested i ?_⟩
      exact Nat.lt_of_lt_of_le i.isLt (Nat.not_lt.mp hEnd)
  case h_8 j' i' hPc =>
    rw [hPc] at hTested
    split at hStep
    · cases hStep
      exact ⟨hBase, h.own, hTested⟩
    · next hZero =>
      cases hStep
      refine ⟨hBase, h.own, fun i hi => ?_⟩
      rcases Nat.lt_or_eq_of_le (Nat.le_of_lt_succ hi) with hLt | hEq
      · exact hTested i hLt
      · obtain rfl : i = i' := Fin.ext hEq
        exact Or.inl (not_not.mp hZero)
  case h_9 j' i' hPc =>
    rw [hPc] at hTested hLoop
    obtain rfl : j' = j := Option.some.inj hLoop
    split at hStep
    · cases hStep
      exact ⟨hBase, h.own, hTested⟩
    · next hLess =>
      cases hStep
      refine ⟨hBase, h.own, fun i hi => ?_⟩
      rcases Nat.lt_or_eq_of_le (show i.val ≤ i'.val from hi) with hLt | hEq
      · exact hTested i hLt
      · obtain rfl : i = i' := Fin.ext hEq
        have hOwn := h.own
        dsimp only
        exact Or.inr (by omega)
  case h_10 j' i' hPc =>
    rw [hPc] at hTested
    split at hStep
    · cases hStep
      exact ⟨hBase, h.own, fun i hi => hTested i (Nat.le_of_lt hi)⟩
    · cases hStep
      exact ⟨hBase, h.own, fun i hi => hTested i (Nat.le_of_lt_succ hi)⟩
  all_goals
    next hPc =>
      rw [hPc] at hLoop
      cases hLoop

theorem Scanned.step {j : Slot} {t : Int} {a : ServerAction} (h : Scanned j t s)
    (hLoop : s.dispatcher.loop = some j) (hStep : serverStep s a = some (s', es)) :
    Scanned j t s' := by
  cases a with
  | request r =>
    simp only [serverStep, accept] at hStep
    split at hStep
    · next hIdle =>
      rw [hIdle] at hLoop
      cases hLoop
    · cases hStep
  | thread k => exact h.thread hStep
  | dispatcher => exact h.dispatcher hLoop hStep

/-- The loop is only left at its end. -/
theorem clear_of_loop {j : Slot} (hLoop : s.dispatcher.loop = some j)
    (hStep : dispatcherStep s = some (s', es)) (hLeft : s'.dispatcher.loop = none) :
    s'.dispatcher = .clear j := by
  unfold dispatcherStep at hStep
  split at hStep
  case h_7 j' i hPc =>
    rw [hPc] at hLoop
    obtain rfl : j' = j := Option.some.inj hLoop
    split at hStep
    · cases hStep
      cases hLeft
    · cases hStep
      rfl
  case h_8 | h_9 | h_10 =>
    split at hStep
    · cases hStep
      cases hLeft
    · cases hStep
      cases hLeft
  all_goals
    next hPc =>
      rw [hPc] at hLoop
      cases hLoop

/-- A loop that the dispatcher leaves by itself, seen from the server. -/
theorem Passable.scan {j : Slot} (h : Passable s j) :
    ∃ scan, Along serverStep (fun s _ => s.dispatcher.loop = some j) s scan ∧
      (run serverStep s scan).1.dispatcher = .clear j := by
  induction hRank : s.dispatcher.rank using Nat.strongRecOn generalizing s with
  | ind n ih =>
    obtain ⟨s₁, hStep, hDone⟩ := h.dispatcherStep
    have hAdvance : (advance serverStep (s, []) .dispatcher).1 = s₁ := by
      rw [advance_eq_some (x := (s, [])) (show serverStep s .dispatcher = some (s₁, []) from hStep)]
    rcases hDone with hDone | ⟨hPassable, hLess⟩
    · refine ⟨[.dispatcher], ⟨h.loop, trivial⟩, ?_⟩
      rw [run_cons_state, hAdvance]
      exact clear_of_loop h.loop hStep hDone
    · obtain ⟨scan, hAlong, hEnd⟩ := ih _ (hRank ▸ hLess) hPassable rfl
      refine ⟨.dispatcher :: scan, ⟨h.loop, ?_⟩, ?_⟩
      · rw [hAdvance]
        exact hAlong
      · rw [run_cons_state, hAdvance]
        exact hEnd

/-- If the loop for slot `j` begins when `j` holds a ticket, then no slot holds a smaller one at
its end. -/
theorem no_overtaking {before scan : List ServerAction} {j : Slot} {s s' : State}
    (hBefore : (run serverStep init before).1 = s) (hStart : s.dispatcher = .forTest j 0)
    (hTicket : s.numbers j ≠ 0)
    (hScan : Along serverStep (fun s _ => s.dispatcher.loop = some j) s scan)
    (hAfter : (run serverStep s scan).1 = s') (hEnd : s'.dispatcher = .clear j) :
    0 < s.numbers j ∧ ∀ i, ¬ (0 < s'.numbers i ∧ s'.numbers i < s.numbers j) := by
  have hBase : Base s := by
    rw [← hBefore]
    exact run_invariant (P := fun s _ => Base s) base_init
      (fun s h a s' es hBase hStep => hBase.serverStep hStep) before
  have hScanned : Scanned j (s.numbers j) s' := by
    rw [← hAfter]
    refine run_invariant_along (P := fun s' _ => Scanned j (s.numbers j) s') ?_
      (fun s h a s' es hP hLoop hStep => hP.step hLoop hStep) hScan
    refine ⟨hBase, Int.le_refl _, fun i hTested => ?_⟩
    rw [hStart] at hTested
    exact absurd hTested (Nat.not_lt_zero i)
  have hNonneg := hBase.nonneg j
  refine ⟨by omega, ?_⟩
  rintro i ⟨hPos, hLt⟩
  rcases hScanned.tested i (by rw [hEnd]; trivial) with hZero | hLe
  · omega
  · omega

/-- Slot 1 is registered twice, so that it holds ticket 2, and slot 0 once; `RESULT_PROC` is taken
for slot 1 before the thread of slot 0 has its ticket. -/
def secondTicket : List ServerAction :=
  [.request (.register slot1 true), .dispatcher, .request (.register slot1 true), .dispatcher,
    .request (.register slot0 true), .dispatcher] ++ List.replicate 5 (.thread 0) ++
    List.replicate 5 (.thread 1) ++ [.request (.result slot1)]

/-- Slot 0 is tested, and then its thread stores ticket 3. -/
def lateStore : List ServerAction :=
  [.dispatcher, .dispatcher, .thread 2, .thread 2, .thread 2]

theorem numbers_secondTicket : (run serverStep init secondTicket).1.numbers =
    Function.update (Function.update (fun _ => 0) slot1 1) slot1 2 := rfl

/-- The dispatcher passes the first slot when it is free. -/
theorem pass_free {j : Slot} (hPc : s.dispatcher = .forTest j 0) (hFree : s.numbers slot0 = 0)
    (rest : List ServerAction) :
    (run serverStep s (.dispatcher :: .dispatcher :: rest)).1 =
        (run serverStep { s with dispatcher := .forTest j 1 } rest).1 ∧
      (Along serverStep (fun s _ => s.dispatcher.loop = some j)
          { s with dispatcher := .forTest j 1 } rest →
        Along serverStep (fun s _ => s.dispatcher.loop = some j) s
          (.dispatcher :: .dispatcher :: rest)) := by
  have hTest : serverStep s .dispatcher =
      some ({ s with dispatcher := .whileZero j slot0 }, []) := by
    simp only [serverStep, dispatcherStep, hPc]
    exact dif_pos (by decide)
  have hZero : serverStep { s with dispatcher := .whileZero j slot0 } .dispatcher =
      some ({ s with dispatcher := .forTest j 1 }, []) := by
    simp only [serverStep, dispatcherStep]
    exact if_neg (not_not.mpr hFree)
  constructor
  · rw [run_cons_state, advance_eq_some (x := (s, [])) hTest, run_cons_state,
      advance_eq_some (x := (_, [])) hZero]
  · intro hRest
    refine ⟨congrArg DispatcherPc.loop hPc, ?_⟩
    rw [advance_eq_some (x := (s, [])) hTest]
    refine ⟨rfl, ?_⟩
    rw [advance_eq_some (x := (_, [])) hZero]
    exact hRest

theorem no_overtaking_slot_one :
    ∃ scan, let s' := (run serverStep (run serverStep init secondTicket).1 (lateStore ++ scan)).1
      s'.dispatcher = .clear slot1 ∧ ∀ i, ¬ (0 < s'.numbers i ∧ s'.numbers i < 2) := by
  have hPc : (run serverStep init secondTicket).1.dispatcher = .forTest slot1 0 := by decide
  have hOwn : (run serverStep init secondTicket).1.numbers slot1 = 2 := by
    rw [numbers_secondTicket, Function.update_self]
  have hFree : (run serverStep init secondTicket).1.numbers slot0 = 0 := by
    rw [numbers_secondTicket, Function.update_of_ne (by decide), Function.update_of_ne (by decide)]
  let s₁ := (run serverStep
    { (run serverStep init secondTicket).1 with dispatcher := .forTest slot1 1 }
    (List.replicate 3 (.thread 2))).1
  have hNumbers : s₁.numbers = Function.update (Function.update (Function.update (fun _ => 0)
    slot1 1) slot1 2) slot0 3 := rfl
  have hFirst : s₁.numbers slot0 = 3 := by rw [hNumbers, Function.update_self]
  have hSecond : s₁.numbers slot1 = 2 := by
    rw [hNumbers, Function.update_of_ne (by decide), Function.update_self]
  have hOther : ∀ i, i = slot1 ∨ i = slot0 ∨ s₁.numbers i = 0 := by
    intro i
    by_contra hNot
    rw [not_or, not_or] at hNot
    obtain ⟨hOne, hZero, hTicket⟩ := hNot
    rw [hNumbers, Function.update_of_ne hZero, Function.update_of_ne hOne,
      Function.update_of_ne hOne] at hTicket
    exact hTicket rfl
  have hPassable : Passable s₁ slot1 := by
    refine ⟨rfl, ?_, fun i => ?_, fun i hSame hNe => ?_, ?_⟩
    · rintro i - ⟨hPos, hLt⟩
      rw [hSecond] at hLt
      rcases hOther i with rfl | rfl | hTicket
      · omega
      · omega
      · omega
    · rcases hOther i with rfl | rfl | hTicket
      · omega
      · omega
      · omega
    · rcases hOther i with rfl | rfl | hTicket
      · rfl
      · omega
      · exact absurd hTicket hNe
    · rintro i (hEq | hEq)
      · cases hEq
      · cases hEq
  obtain ⟨scan, hAlong, hEnd⟩ := hPassable.scan
  obtain ⟨hState, hPass⟩ := pass_free hPc hFree (List.replicate 3 (.thread 2) ++ scan)
  have hWhole := hPass ⟨rfl, rfl, rfl, hAlong⟩
  have hClear : (run serverStep (run serverStep init secondTicket).1
      (lateStore ++ scan)).1.dispatcher = .clear slot1 := by
    rw [← hEnd]
    refine congrArg State.dispatcher (hState.trans ?_)
    rw [run_append, ← Prod.eta (run serverStep _ (List.replicate 3 (.thread 2))), resume_state]
  have hNone := no_overtaking rfl hPc (by rw [hOwn]; decide) hWhole rfl hClear
  rw [hOwn] at hNone
  exact ⟨scan, hClear, hNone.2⟩

end OsLabs.Rpc.NewBakery
