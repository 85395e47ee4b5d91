import OsLabs.Rpc.Boxes

/-!
# Which tickets `GET_NUMBER_PROC` returns

A client polls until it has got its ticket, so there is at most one thread, one filled element
of `results` or one reply under way for its slot. What breaks this is the initial value: only
`results[0]` starts as -1, and the 0 that the others start with is returned as a ticket by the
first `GET_NUMBER_PROC` that comes before the thread. `filled` is the condition that this does
not happen.
-/

namespace OsLabs.Rpc.NewBakery

open Runs

/-- A value other than -1 is the ticket assigned for the last `REGISTER_PROC` of the client,
and it has not been returned before. -/
def PickedUp (before : List Event) : Event → Prop
  | .returned id v => v ≠ -1 →
      (∃ k, registration id before = some k ∧ .assigned k id v ∈ before) ∧
        ∀ id', .returned id' v ∉ before
  | _ => True

/-- `GET_NUMBER_PROC` does not read the initial 0. -/
def filled (s : State) (a : Action) : Bool :=
  match a, s.dispatcher with
  | .dispatcher, .getRead id => s.results id ≠ 0
  | _, _ => true

/-! ## The clients and the dispatcher -/

/-- The client has registered, or is about to learn that it has, and has no ticket yet. -/
def ClientPc.Awaits : ClientPc → Prop
  | .registerWait | .getNumber | .getNumberSent | .getNumberWait => True
  | _ => False

/-- The client that the dispatcher serves, and what it waits for. -/
def DispatcherPc.serves : DispatcherPc → Option (Slot × ClientPc)
  | .svcRun => none
  | .registerReply id => some (id, .registerWait)
  | .getTest id | .getRead id | .getReset id _ | .getReply id _ => some (id, .getNumberWait)
  | .forTest j _ | .whileZero j _ | .whileLess j _ | .whileEqual j _ | .clear j
  | .resultReply j => some (j, .resultWait)

/-- What `GET_NUMBER_PROC` knows of the value it returns. -/
def Carried (thread : Nat → ThreadPc) (results : Slot → Int) (h : List Event) :
    DispatcherPc → Prop
  | .getRead j => results j ≠ -1
  | .getReset j v => v = results j ∧ ¬ Vacant v
  | .getReply j v => v = -1 ∨ Vacant (results j) ∧ (∀ k, ¬ (thread k).Pending j) ∧ Due h j v
  | _ => True

structure Inv (s : State) (h : List Event) : Prop where
  mutexed : Mutexed s.mutex s.thread s.threads
  boxes : Boxes s.thread s.results s.maxNumber h
  awaits : ∀ j, (∃ k, (s.thread k).Pending j) ∨ ¬ Vacant (s.results j) → (s.client j).Awaits
  serving : ∀ j pc, s.dispatcher.serves = some (j, pc) → s.client j = pc
  carried : Carried s.thread s.results h s.dispatcher

theorem inv_init : Inv init [] := by
  have hVacant (j : Slot) : Vacant (init.results j) := by
    unfold init Vacant
    dsimp only
    split
    · exact Or.inl rfl
    · exact Or.inr rfl
  refine ⟨⟨nofun, fun _ _ => rfl⟩, ⟨⟨Int.le_refl 0, nofun, nofun, nofun⟩, nofun, nofun, nofun, ?_⟩,
    ?_, nofun, trivial⟩
  · intro j hFull
    exact absurd (hVacant j) hFull
  · rintro j (⟨k, hk⟩ | hFull)
    · exact hk.elim
    · exact absurd (hVacant j) hFull

variable {s s' : State} {h es : List Event} {j : Slot} {k : Nat}

theorem serves_waiting {d : DispatcherPc} {pc : ClientPc} (hServes : d.serves = some (j, pc)) :
    pc = .registerWait ∨ pc = .getNumberWait ∨ pc = .resultWait := by
  cases d <;> cases hServes
  case registerReply => exact Or.inl rfl
  case getTest | getRead | getReset | getReply => exact Or.inr (Or.inl rfl)
  all_goals exact Or.inr (Or.inr rfl)

/-- Nothing is on its way to a client that does not await a ticket. -/
theorem Inv.idle (hInv : Inv s h) (hClient : ¬ (s.client j).Awaits) :
    (∀ k, ¬ (s.thread k).Pending j) ∧ Vacant (s.results j) := by
  refine ⟨fun k hk => hClient (hInv.awaits j (Or.inl ⟨k, hk⟩)), ?_⟩
  by_contra hFull
  exact hClient (hInv.awaits j (Or.inr hFull))

/-- A client moves on, and awaits its ticket if one is on its way. -/
theorem Inv.awaits_update (hInv : Inv s h) {pc : ClientPc}
    (hPc : (∃ k, (s.thread k).Pending j) ∨ ¬ Vacant (s.results j) → pc.Awaits) (i : Slot)
    (hDue : (∃ k, (s.thread k).Pending i) ∨ ¬ Vacant (s.results i)) :
    (Function.update s.client j pc i).Awaits := by
  rcases eq_or_ne i j with rfl | hne
  · rw [Function.update_self]
    exact hPc hDue
  · rw [Function.update_of_ne hne]
    exact hInv.awaits i hDue

theorem Inv.clientStep (hInv : Inv s h) (hStep : clientStep s j = some (s', es)) :
    Inv s' (h ++ es) := by
  obtain ⟨pc, rfl, rfl, hMoves⟩ := clientStep_eq hStep
  rw [List.append_nil]
  refine ⟨hInv.mutexed, hInv.boxes, hInv.awaits_update ?_, ?_, hInv.carried⟩
  · intro hDue
    have hAwaits := hInv.awaits j hDue
    rcases hMoves with ⟨hPc, rfl⟩ | ⟨hPc, rfl⟩ | ⟨hPc, rfl⟩
    · rwa [hPc] at hAwaits
    · trivial
    · rwa [hPc] at hAwaits
  · intro i pc' hServes
    have hOld := hInv.serving i pc' hServes
    have hWaiting := serves_waiting hServes
    simp only [State.setClient]
    rw [Function.update_of_ne ?_]
    · exact hOld
    · rintro rfl
      rw [hOld] at hMoves
      rcases hWaiting with rfl | rfl | rfl <;> simp at hMoves

theorem Inv.take {created : Bool} (hInv : Inv s h) (hStep : take s j created = some (s', es)) :
    Inv s' (h ++ es) := by
  have hMutexed := hInv.mutexed.step (a := .take j created) hStep
  have hServing {pc pc' : ClientPc} {i : Slot} (hServes : some (j, pc) = some (i, pc')) :
      Function.update s.client j pc i = pc' := by
    cases hServes
    exact Function.update_self _ _ _
  unfold NewBakery.take at hStep
  split at hStep
  · next hIdle =>
    split at hStep
    · next hPc =>
      obtain ⟨hNone, hVacant⟩ := hInv.idle (j := j) (by rw [hPc]; exact id)
      split at hStep
      · cases hStep
        refine ⟨hMutexed, ?_, ?_, fun _ _ => hServing, trivial⟩
        · refine (hInv.boxes.register hNone hVacant (some s.threads)).move (fun _ => by nofun)
            (fun _ => by nofun) ?_
          rintro i rfl
          exact ⟨by rw [registration_registered, if_pos rfl], hVacant⟩
        · intro i hDue
          rcases eq_or_ne i j with rfl | hne
          · simp only [State.setThread, State.setClient, Function.update_self]
            trivial
          · refine hInv.awaits_update (fun _ => show ClientPc.registerWait.Awaits from trivial) i
              (hDue.imp_left ?_)
            rintro ⟨m, hm⟩
            refine ⟨m, ?_⟩
            simp only [State.setThread, Function.update_apply] at hm
            split at hm
            · exact absurd hm.symm hne
            · exact hm
      · cases hStep
        refine ⟨hMutexed, hInv.boxes.register hNone hVacant none,
          hInv.awaits_update fun _ => trivial, ?_, ?_⟩
        · intro i pc hServes
          simp only [State.setClient, hIdle] at hServes
          cases hServes
        · simp only [State.setClient, hIdle]
          trivial
    · cases hStep
      rw [List.append_nil]
      exact ⟨hMutexed, hInv.boxes, hInv.awaits_update fun _ => trivial, fun _ _ => hServing,
        trivial⟩
    · next hPc =>
      cases hStep
      rw [List.append_nil]
      refine ⟨hMutexed, hInv.boxes, hInv.awaits_update ?_, fun _ _ => hServing, trivial⟩
      intro hDue
      have hAwaits := hInv.awaits j hDue
      rwa [hPc] at hAwaits
    · cases hStep
  · cases hStep

/-- What the dispatcher knows does not depend on threads that do not store a result. -/
theorem Carried.mono {thread thread' : Nat → ThreadPc} {results : Slot → Int} {h' : List Event}
    {d : DispatcherPc} (hCarried : Carried thread results h d)
    (hThread : ∀ m i, (thread' m).Pending i → (thread m).Pending i)
    (hDue : ∀ i n, Due h i n → Due h' i n) : Carried thread' results h' d := by
  cases d with
  | getReply i v =>
    rcases hCarried with hNone | ⟨hVacant, hIdle, hOwed⟩
    · exact Or.inl hNone
    · exact Or.inr ⟨hVacant, fun m hm => hIdle m (hThread m i hm), hDue i v hOwed⟩
  | getRead i | getReset i v => exact hCarried
  | _ => trivial

/-- A thread stores the result for slot `j`: the dispatcher holds no ticket for it. -/
theorem Carried.fill {thread thread' : Nat → ThreadPc} {results : Slot → Int} {maxNumber : Int}
    {d : DispatcherPc} (hCarried : Carried thread results h d) (hk : (thread k).Pending j)
    (hVacant : Vacant (results j)) (hPos : 0 < maxNumber)
    (hThread : ∀ m i, (thread' m).Pending i → (thread m).Pending i) :
    Carried thread' (Function.update results j maxNumber) h d := by
  cases d with
  | getRead i =>
    show Function.update results j maxNumber i ≠ -1
    rcases eq_or_ne i j with rfl | hi
    · rw [Function.update_self]
      omega
    · rw [Function.update_of_ne hi]
      exact hCarried
  | getReset i v =>
    obtain ⟨rfl, hFull⟩ := hCarried
    have hi : i ≠ j := by
      rintro rfl
      exact hFull hVacant
    exact ⟨(Function.update_of_ne hi _ _).symm, hFull⟩
  | getReply i v =>
    rcases hCarried with hNone | ⟨hOld, hIdle, hOwed⟩
    · exact Or.inl hNone
    · have hi : i ≠ j := by
        rintro rfl
        exact hIdle k hk
      refine Or.inr ⟨?_, fun m hm => hIdle m (hThread m i hm), hOwed⟩
      rwa [Function.update_of_ne hi]
  | _ => trivial

/-- A thread moves on without storing a result. -/
theorem Inv.threadMoves (hInv : Inv s h) {pc : ThreadPc}
    (hPc : ∀ i, pc.Pending i → (s.thread k).Pending i)
    (hThread : s'.thread = Function.update s.thread k pc) (hResults : s'.results = s.results)
    (hClient : s'.client = s.client) (hDispatcher : s'.dispatcher = s.dispatcher)
    (hMutexed : Mutexed s'.mutex s'.thread s'.threads)
    (hBoxes : Boxes s'.thread s'.results s'.maxNumber (h ++ es))
    (hDue : ∀ i n, Due h i n → Due (h ++ es) i n) : Inv s' (h ++ es) := by
  have hPending (m : Nat) (i : Slot) (hm : (s'.thread m).Pending i) : (s.thread m).Pending i := by
    rw [hThread] at hm
    exact pending_update hPc hm
  refine ⟨hMutexed, hBoxes, ?_, ?_, ?_⟩
  · intro i hOwed
    rw [hClient]
    apply hInv.awaits i
    rw [hResults] at hOwed
    rcases hOwed with ⟨m, hm⟩ | hFull
    · exact Or.inl ⟨m, hPending m i hm⟩
    · exact Or.inr hFull
  · rw [hClient, hDispatcher]
    exact hInv.serving
  · rw [hResults, hDispatcher]
    exact hInv.carried.mono hPending hDue

theorem Inv.findMaxNumber (hInv : Inv s h) (hStep : findMaxNumber s k = some (s', es)) :
    Inv s' (h ++ es) := by
  have hMutexed := hInv.mutexed.findMaxNumber hStep
  have hAlone (hk : (s.thread k).Inside) (m : Nat) (hm : (s.thread m).Inside) : m = k :=
    hInv.mutexed.alone hk hm
  have hNothing (i : Slot) (n : Int) (hDue : Due h i n) : Due (h ++ []) i n := by
    rwa [List.append_nil]
  unfold NewBakery.findMaxNumber at hStep
  split at hStep
  · next idx hk =>
    have hSame (i : Slot) (hi : (ThreadPc.incMax idx).Pending i) : (s.thread k).Pending i := by
      rw [hk]
      exact hi
    split at hStep
    · cases hStep
      refine hInv.threadMoves hSame rfl rfl rfl rfl hMutexed ?_ hNothing
      rw [List.append_nil]
      exact hInv.boxes.move (fun _ => by nofun) (fun _ => by nofun) fun i hi =>
        hInv.boxes.pending k i (hSame i hi)
    · cases hStep
  · next idx hk =>
    cases hStep
    refine hInv.threadMoves (fun i hi => by rw [hk]; exact hi) rfl rfl rfl rfl hMutexed ?_ hNothing
    rw [List.append_nil]
    exact hInv.boxes.incMax hk (hAlone (by rw [hk]; trivial))
  · next idx hk =>
    cases hStep
    refine hInv.threadMoves (fun i hi => by rw [hk]; exact hi) rfl rfl rfl rfl hMutexed
      (hInv.boxes.assign hk (hAlone (by rw [hk]; trivial))) ?_
    intro i n hDue
    exact hDue.append (registration_assigned idx) (by simp)
  · next idx hk =>
    cases hStep
    rw [List.append_nil]
    have hPending : (s.thread k).Pending idx := by
      rw [hk]
      rfl
    have hVacant := (hInv.boxes.pending k idx hPending).2
    have hPos := (hInv.boxes.numbered.range _ _ _ (hInv.boxes.stored k idx hk).1).1
    have hLess (m : Nat) (i : Slot) :
        (Function.update s.thread k .unlock m).Pending i → (s.thread m).Pending i :=
      pending_update fun _ (hNone : ThreadPc.unlock.Pending _) => hNone.elim
    refine ⟨hMutexed, hInv.boxes.fill hk, ?_, hInv.serving, ?_⟩
    · intro i hOwed
      apply hInv.awaits i
      rcases hOwed with ⟨m, hm⟩ | hFull
      · exact Or.inl ⟨m, hLess m i hm⟩
      · rcases eq_or_ne i idx with rfl | hi
        · exact Or.inl ⟨k, hPending⟩
        · dsimp only at hFull
          rw [Function.update_of_ne hi] at hFull
          exact Or.inr hFull
    · exact hInv.carried.fill hPending hVacant hPos hLess
  · cases hStep
    refine hInv.threadMoves (fun _ (hNone : ThreadPc.ended.Pending _) => hNone.elim) rfl rfl rfl
      rfl hMutexed ?_ hNothing
    rw [List.append_nil]
    exact hInv.boxes.move (fun _ => by nofun) (fun _ => by nofun) fun _ hNone => hNone.elim
  · cases hStep
  · cases hStep

/-- The dispatcher goes on in a procedure. -/
theorem Inv.goesOn (hInv : Inv s h) {d : DispatcherPc} (hServes : d.serves = s.dispatcher.serves)
    (hCarried : Carried s.thread s.results h d) :
    Inv { s with dispatcher := d } (h ++ []) := by
  rw [List.append_nil]
  refine ⟨hInv.mutexed, hInv.boxes, hInv.awaits, fun i pc hi => ?_, hCarried⟩
  exact hInv.serving i pc (hServes ▸ hi)

theorem Inv.dispatcherStep (hInv : Inv s h) (hFilled : filled s .dispatcher)
    (hStep : dispatcherStep s = some (s', es)) : Inv s' (h ++ es) := by
  have hCarried := hInv.carried
  have hServing := hInv.serving
  unfold NewBakery.dispatcherStep at hStep
  split at hStep
  case h_1 => cases hStep
  case h_2 id hPc =>
    cases hStep
    rw [List.append_nil]
    exact ⟨hInv.mutexed, hInv.boxes, hInv.awaits_update fun _ => trivial, nofun, trivial⟩
  case h_3 id hPc =>
    split at hStep
    · cases hStep
      exact hInv.goesOn (by rw [hPc]; rfl) (Or.inl rfl)
    · next hRead =>
      cases hStep
      exact hInv.goesOn (by rw [hPc]; rfl) hRead
  case h_4 id hPc =>
    rw [hPc] at hCarried
    cases hStep
    refine hInv.goesOn (by rw [hPc]; rfl) ⟨rfl, ?_⟩
    rintro (hNone | hZero)
    · exact hCarried hNone
    · simp only [filled, hPc] at hFilled
      exact of_decide_eq_true hFilled hZero
  case h_5 id v hPc =>
    rw [hPc] at hCarried hServing
    cases hStep
    rw [List.append_nil]
    obtain ⟨rfl, hFull⟩ := hCarried
    refine ⟨hInv.mutexed, hInv.boxes.reset id, ?_, hServing, Or.inr ⟨?_, ?_, ?_⟩⟩
    · intro i hDue
      apply hInv.awaits i
      refine hDue.imp_right fun hNow hOld => hNow ?_
      dsimp only
      rcases eq_or_ne i id with rfl | hi
      · exact absurd hOld hFull
      · rwa [Function.update_of_ne hi]
    · dsimp only
      rw [Function.update_self]
      exact Or.inl rfl
    · exact hInv.boxes.no_pending hFull
    · exact hInv.boxes.filled id hFull
  case h_6 id v hPc =>
    rw [hPc] at hCarried
    cases hStep
    refine ⟨hInv.mutexed, hInv.boxes.give hCarried, hInv.awaits_update ?_, nofun, trivial⟩
    intro hDue
    rcases hCarried with rfl | ⟨hVacant, hIdle, -⟩
    · trivial
    · rcases hDue with ⟨m, hm⟩ | hFull
      · exact absurd hm (hIdle m)
      · exact absurd hVacant hFull
  case h_7 hPc | h_8 hPc | h_9 hPc | h_10 hPc =>
    split at hStep <;> cases hStep <;> exact hInv.goesOn (by rw [hPc]; rfl) trivial
  case h_11 j hPc =>
    rw [hPc] at hServing
    cases hStep
    rw [List.append_nil]
    exact ⟨hInv.mutexed, hInv.boxes, hInv.awaits, hServing, trivial⟩
  case h_12 j hPc =>
    rw [hPc] at hServing
    cases hStep
    rw [List.append_nil]
    refine ⟨hInv.mutexed, hInv.boxes, hInv.awaits_update ?_, nofun, trivial⟩
    intro hDue
    have hAwaits := hInv.awaits j hDue
    rw [hServing j _ rfl] at hAwaits
    exact hAwaits.elim

theorem Inv.step {a : Action} (hInv : Inv s h) (hFilled : filled s a)
    (hStep : step s a = some (s', es)) : Inv s' (h ++ es) := by
  cases a with
  | client id => exact hInv.clientStep hStep
  | take id created => exact hInv.take hStep
  | thread k => exact hInv.findMaxNumber hStep
  | dispatcher => exact hInv.dispatcherStep hFilled hStep

/-! ## What is returned -/

/-- Only a reply to `GET_NUMBER_PROC` returns something. -/
theorem step_events {a : Action} (hStep : step s a = some (s', es)) :
    es = [] ∨ ∃ e, es = [e] ∧ ∀ id v, e = .returned id v → s.dispatcher = .getReply id v := by
  cases a with
  | client id =>
    obtain ⟨pc, -, rfl, -⟩ := clientStep_eq hStep
    exact Or.inl rfl
  | take id created =>
    simp only [step, take] at hStep
    split at hStep
    · split at hStep
      · split at hStep <;> cases hStep <;> exact Or.inr ⟨_, rfl, by simp⟩
      · cases hStep
        exact Or.inl rfl
      · cases hStep
        exact Or.inl rfl
      · cases hStep
    · cases hStep
  | thread k =>
    simp only [step, findMaxNumber] at hStep
    split at hStep
    · split at hStep
      · cases hStep
        exact Or.inl rfl
      · cases hStep
    case h_3 => cases hStep; exact Or.inr ⟨_, rfl, by simp⟩
    all_goals
      cases hStep
      try exact Or.inl rfl
  | dispatcher =>
    simp only [step, dispatcherStep] at hStep
    split at hStep
    case h_1 => cases hStep
    case h_3 | h_7 | h_8 | h_9 | h_10 => split at hStep <;> cases hStep <;> exact Or.inl rfl
    case h_6 id v hPc =>
      cases hStep
      refine Or.inr ⟨_, rfl, fun id' v' hEq => ?_⟩
      cases hEq
      exact hPc
    all_goals
      cases hStep
      exact Or.inl rfl

theorem Inv.picked (hInv : Inv s h) {e : Event}
    (hReply : ∀ id v, e = .returned id v → s.dispatcher = .getReply id v) : PickedUp h e := by
  cases e with
  | registered id thread => trivial
  | assigned thread id n => trivial
  | returned id v =>
    intro hSome
    have hCarried := hInv.carried
    rw [hReply id v rfl] at hCarried
    rcases hCarried with hNone | ⟨-, -, k, hReg, hAssigned, hFirst⟩
    · exact absurd hNone hSome
    · exact ⟨⟨k, hReg, hAssigned⟩, hFirst⟩

/-- In every run in which `GET_NUMBER_PROC` never reads the initial 0, every value other than
-1 that it returns is the ticket of the last `REGISTER_PROC`, returned for the first time. -/
theorem picked_up_of_filled {sched : List Action}
    (hFilled : Along step (fun s a => filled s a) init sched) :
    Always PickedUp (serve sched).2 := by
  have hRun : Inv (serve sched).1 (serve sched).2 ∧ Always PickedUp (serve sched).2 := by
    refine run_invariant_along (P := fun s h => Inv s h ∧ Always PickedUp h)
      ⟨inv_init, always_nil _⟩ ?_ hFilled
    rintro s h a s' es ⟨hInv, hAll⟩ hC hStep
    refine ⟨hInv.step hC hStep, ?_⟩
    rcases step_events hStep with rfl | ⟨e, rfl, hReply⟩
    · rwa [List.append_nil]
    · exact always_snoc.mpr ⟨hAll, hInv.picked hReply⟩
  exact hRun.2

/-- The client in slot `j` polls once. -/
def polling (j : Slot) : List Action :=
  [.client j, .take j true, .dispatcher, .dispatcher, .dispatcher, .dispatcher]

/-- The client in slot 1 registers and polls when its thread has ended. -/
def latePoll : List Action := registering slot1 0 ++ polling slot1

/-- The client in slot 1 registers and polls before its thread has run. -/
def earlyPoll : List Action := [.client slot1, .take slot1 true, .dispatcher] ++ polling slot1

theorem picked_up_latePoll :
    Along step (fun s a => filled s a) init latePoll ∧
      (serve latePoll).2 = [.registered slot1 (some 0), .assigned 0 slot1 1, .returned slot1 1] ∧
      Always PickedUp (serve latePoll).2 := by
  have hFilled : Along step (fun s a => filled s a) init latePoll := by decide
  exact ⟨hFilled, by decide, picked_up_of_filled hFilled⟩

/-- The client gets the initial 0 instead of -1. -/
theorem not_picked_up_earlyPoll : ¬ Always PickedUp (serve earlyPoll).2 := by
  intro hAll
  have hEvents : (serve earlyPoll).2 = [.registered slot1 (some 0)] ++ [.returned slot1 0] := by
    decide
  obtain ⟨⟨k, -, hAssigned⟩, -⟩ := hAll _ _ [] hEvents (by decide)
  simp at hAssigned

end OsLabs.Rpc.NewBakery
