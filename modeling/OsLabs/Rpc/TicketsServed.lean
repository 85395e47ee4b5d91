import OsLabs.Rpc.TicketTurns
import OsLabs.Runs.LeadsTo

/-!
# Every client of the ticket server is served

A client that is not next polls the dispatcher, so at any time the dispatcher may be busy with
somebody else and the mutex taken: it is not enough that everybody makes steps, a request that waits
must be taken and a mutex that is free be got some time (`Just`). The tickets are then served by
induction on their number.
-/

namespace OsLabs.Rpc.TicketServer

open Runs

variable {τ : Type} [DecidableEq τ] {s s' : State τ} {h es : List (Event τ)} {t : τ} {a : Action τ}

/-! ## Endless runs -/

/-- Nobody is passed over for ever, and no `clock_gettime` fails. -/
structure Just (σ : Nat → Action τ) : Prop where
  fair : ∀ p : Party τ, StronglyFair step init σ fun a => a.party = p
  clock : ∀ n, (σ n).clockSucceeds = true

variable {σ : Nat → Action τ}

theorem Just.engaged (hJust : Just σ) (n : Nat) : ∃ h, Engaged (moment step init σ n) h := by
  have hClock : ∀ a ∈ (List.range n).map σ, a.clockSucceeds := by
    intro a ha
    obtain ⟨k, -, rfl⟩ := List.mem_map.mp ha
    exact hJust.clock k
  exact ⟨_, run_invariant_along engaged_init
    (fun _ _ _ _ _ hEngaged hSucceeds hStep => hEngaged.step hSucceeds hStep)
    (along_of_forall step init hClock)⟩

/-- Whoever has the mutex gives it back. -/
theorem Just.unlock (hJust : Just σ) (o : Thread τ) :
    LeadsTo step init σ (fun s => s.sendMutex = some o) (fun s => s.sendMutex = none) := by
  refine leadsTo_of_rank (I := fun s => ∃ h, Engaged s h) (O := fun _ _ => True)
    (fun _ => o.party) (fun s => o.rank s) hJust.fair hJust.engaged ?_ ?_
    (fun _ => leadsTo_of_imp fun _ => id) ?_
  · rintro s a s' es ⟨h, hEngaged⟩ - hOwner hOther hStep
    rcases owner_moves hEngaged (moves_of_step hStep) hOwner with ⟨hParty, -⟩ | ⟨hSame, -, hRank⟩
    · exact absurd hParty hOther
    · rw [if_neg hOther] at hRank
      exact Or.inr ⟨hSame, rfl, hRank.le⟩
  · rintro s a s' es ⟨h, hEngaged⟩ - hOwner hParty hStep
    rcases owner_moves hEngaged (moves_of_step hStep) hOwner with ⟨-, hFree⟩ | ⟨hSame, -, hRank⟩
    · exact Or.inl hFree
    · rw [if_pos hParty] at hRank
      exact Or.inr ⟨hSame, hRank⟩
  · rintro s ⟨h, hEngaged⟩ hOwner -
    have hHolds := hEngaged.owner o hOwner
    cases o with
    | worker t =>
      refine ⟨.worker t, rfl, ?_⟩
      rw [Thread.Holds] at hHolds
      simp only [step, getNumberWorker]
      cases hPc : s.worker t with
      | absent | lock | ended =>
        rw [hPc] at hHolds
        exact hHolds.elim
      | readNum | incNum result | sendreply result | unlock => exact Option.some_ne_none _
    | dispatcher =>
      refine ⟨.dispatcher (some 0), rfl, ?_⟩
      rw [Thread.Holds] at hHolds
      simp only [step, dispatcherStep]
      cases hd : s.dispatcher with
      | svcRun | compare u arg | clock u arg | incService u arg time | lock u reply =>
        rw [hd] at hHolds
        exact hHolds.elim
      | sendreply u reply =>
        dsimp only
        split <;> exact Option.some_ne_none _
      | unlock => exact Option.some_ne_none _

theorem Just.often_free (hJust : Just σ) :
    LeadsTo step init σ (fun _ => True) (fun s => s.sendMutex = none) := by
  intro n _
  cases hMutex : (moment step init σ n).sendMutex with
  | none => exact ⟨n, le_rfl, hMutex⟩
  | some o => exact hJust.unlock o n hMutex

theorem dispatcher_same (hMoves : Moves s a s') (hBusy : s.dispatcher ≠ .svcRun)
    (hOther : a.party ≠ .dispatcher) : s'.dispatcher = s.dispatcher := by
  cases hMoves with
  | takeProc u arg hIdle _ => exact absurd hIdle hBusy
  | getNumber | bakeryProc | takeNumber | workerLock | readNum | incNum | sendNumber
  | workerUnlock => rfl
  | _ => exact absurd rfl hOther

theorem dispatcher_rank (hMoves : Moves s a s') (hParty : a.party = .dispatcher) :
    s'.dispatcher.rank < s.dispatcher.rank := by
  cases hMoves with
  | getNumber | bakeryProc | takeNumber | takeProc | workerLock | readNum | incNum | sendNumber
  | workerUnlock => cases hParty
  | refuse _ _ _ hd _ | accept _ _ _ hd _ | clock _ _ _ hd | incService _ _ _ _ hd
  | dispatcherLock _ _ _ hd _ | reply _ _ _ _ hd _ | noReply _ _ _ hd _ | dispatcherUnlock _ hd =>
    rw [hd]
    simp [DispatcherPc.rank]

theorem dispatcher_enabled (hBusy : s.dispatcher ≠ .svcRun)
    (hLock : (∃ u reply, s.dispatcher = .lock u reply) → s.sendMutex = none) :
    ∃ a : Action τ, a.party = .dispatcher ∧ step s a ≠ none := by
  refine ⟨.dispatcher (some 0), rfl, ?_⟩
  simp only [step, dispatcherStep]
  cases hd : s.dispatcher with
  | svcRun => exact absurd hd hBusy
  | compare u arg =>
    dsimp only
    split <;> exact Option.some_ne_none _
  | lock u reply =>
    dsimp only
    rw [if_pos (hLock ⟨u, reply, hd⟩)]
    exact Option.some_ne_none _
  | sendreply u reply =>
    dsimp only
    split <;> exact Option.some_ne_none _
  | clock | incService | unlock => exact Option.some_ne_none _

/-- The dispatcher comes back to `svc_run`. -/
theorem Just.often_idle (hJust : Just σ) :
    LeadsTo step init σ (fun _ => True) (fun s => s.dispatcher = .svcRun) := by
  have hBusy : LeadsTo step init σ (fun s => s.dispatcher ≠ .svcRun)
      (fun s => s.dispatcher = .svcRun) := by
    refine leadsTo_of_rank (I := fun s => ∃ h, Engaged s h) (fun _ => Party.dispatcher)
      (fun s => s.dispatcher.rank) hJust.fair hJust.engaged ?_ ?_ (fun _ => hJust.often_free) ?_
    · intro s a s' es _ _ hBusy hOther hStep
      have hSame := dispatcher_same (moves_of_step hStep) hBusy hOther
      exact Or.inr ⟨hSame ▸ hBusy, rfl, (congrArg DispatcherPc.rank hSame).le⟩
    · intro s a s' es _ _ _ hParty hStep
      by_cases hIdle : s'.dispatcher = .svcRun
      · exact Or.inl hIdle
      · exact Or.inr ⟨hIdle, dispatcher_rank (moves_of_step hStep) hParty⟩
    · exact fun s _ hBusy hFree => dispatcher_enabled hBusy fun _ => hFree
  intro n _
  by_cases hIdle : (moment step init σ n).dispatcher = .svcRun
  · exact ⟨n, le_rfl, hIdle⟩
  · exact hBusy n hIdle

/-! ## One client -/

/-- The turns until a client has its ticket, or has been served with it if it is due; a reply that
refuses it is one turn more. -/
def rank (t : τ) (s : State τ) : Nat :=
  match s.client t with
  | .getNumber => 7
  | .getNumberSent => 6
  | .getNumberWait => (s.worker t).rank
  | .bakeryProc _ => 8
  | .bakeryProcSent _ => 7
  | .bakeryProcWait _ =>
    match s.dispatcher with
    | .lock _ _ | .sendreply _ _ => 7 + s.dispatcher.rank
    | d => d.rank
  | .served _ => 0

omit [DecidableEq τ] in
theorem rank_congr (hClient : s'.client t = s.client t)
    (hWorker : (s.client t).ticket = none → s'.worker t = s.worker t)
    (hDispatcher : ∀ arg, s.client t = .bakeryProcWait arg → s'.dispatcher = s.dispatcher) :
    rank t s' = rank t s := by
  unfold rank
  rw [hClient]
  cases hPc : s.client t with
  | getNumber | getNumberSent | bakeryProc arg | bakeryProcSent arg | served arg => rfl
  | getNumberWait => rw [hWorker (by rw [hPc]; rfl)]
  | bakeryProcWait arg => rw [hDispatcher arg hPc]

/-- A turn of a client lowers its rank, or hands it its ticket, or finds that the ticket is not yet
due, or serves it. -/
theorem rank_turn (hEngaged : Engaged s h) (hMoves : Moves s a s')
    (hTurn : (s.client t).turn t = some a.party) :
    rank t s' < rank t s ∨ ((s.client t).ticket = none ∧ (s'.client t).ticket ≠ none) ∨
      (∃ n, (s.client t).ticket = some n ∧ s.clientNumberService < n) ∨
        ((s.client t).ticket = some s.clientNumberService ∧
          s.clientNumberService < s'.clientNumberService) := by
  obtain ⟨hSame, hWorker, hDispatcher⟩ := turn_eq_some hTurn
  have hAttended := hEngaged.attended t
  have hDispatched := hEngaged.inv.dispatched
  unfold Attended at hAttended
  cases hMoves with
  | getNumber u hPc | bakeryProc u arg hPc =>
    obtain rfl := hSame u (Or.inl rfl)
    left
    simp [rank, State.setClient, hPc]
  | takeNumber u hIdle hPc | takeProc u arg hIdle hPc =>
    obtain rfl := hSame u (Or.inr (Or.inl rfl))
    left
    simp [rank, State.setClient, State.setWorker, WorkerPc.rank, DispatcherPc.rank, hPc]
  | workerLock u hPc _ | readNum u hPc | incNum u result hPc =>
    obtain rfl := hSame u (Or.inr (Or.inr rfl))
    left
    simp [rank, State.setWorker, WorkerPc.rank, hWorker _ rfl, hPc]
  | sendNumber u result hPc =>
    obtain rfl := hSame u (Or.inr (Or.inr rfl))
    right; left
    rw [hWorker _ rfl]
    simp [State.setWorker, State.setClient, ClientPc.ticket]
  | workerUnlock u hPc =>
    obtain rfl := hSame u (Or.inr (Or.inr rfl))
    rw [hWorker _ rfl, hPc] at hAttended
    exact hAttended.elim
  | refuse clock u arg hd hEarly =>
    obtain ⟨n, hWait⟩ := hDispatcher rfl
    rw [hWait, hd] at hAttended
    obtain ⟨rfl, rfl⟩ := hAttended
    rw [hd] at hDispatched
    right; right; left
    exact ⟨arg, by rw [hWait]; rfl, lt_of_le_of_ne hDispatched.2 hEarly.symm⟩
  | accept clock u arg hd _ | clock clock u arg hd | dispatcherLock clock u reply hd _ =>
    obtain ⟨n, hWait⟩ := hDispatcher rfl
    left
    simp [rank, DispatcherPc.rank, hWait, hd]
  | incService clock u arg time hd =>
    obtain ⟨n, hWait⟩ := hDispatcher rfl
    rw [hWait, hd] at hAttended
    obtain ⟨rfl, rfl⟩ := hAttended
    rw [hd] at hDispatched
    right; right; right
    exact ⟨by rw [hWait, ← hDispatched.2.1]; rfl, Nat.lt_succ_self _⟩
  | reply clock u arg result hd hWait =>
    obtain ⟨n, hWaits⟩ := hDispatcher rfl
    rw [hWaits, hd] at hAttended
    obtain rfl := hAttended.1
    left
    have hReceive : receive arg result = .bakeryProc arg ∨ receive arg result = .served arg := by
      unfold receive
      split
      · exact Or.inl rfl
      · exact Or.inr rfl
    rcases hReceive with hPc | hPc
    · simp [rank, State.setClient, DispatcherPc.rank, hPc, hWaits, hd]
    · simp [rank, State.setClient, DispatcherPc.rank, hPc, hWaits, hd]
  | noReply clock u reply hd hNone =>
    obtain ⟨n, hWait⟩ := hDispatcher rfl
    rw [hWait, hd] at hAttended
    obtain ⟨rfl, hSome⟩ := hAttended
    rw [hNone n hWait] at hSome
    cases hSome
  | dispatcherUnlock clock hd =>
    obtain ⟨n, hWait⟩ := hDispatcher rfl
    rw [hWait, hd] at hAttended
    exact hAttended.elim

/-- A ticket is kept. -/
theorem ticket_step (hInv : Inv s h) {n : Nat} (hTicket : (s.client t).ticket = some n)
    (hMoves : Moves s a s') : (s'.client t).ticket = some n := by
  have hUpdate {u : τ} {pc : ClientPc} (hPc : pc.ticket = (s.client u).ticket ∨
      (s.client u).ticket = none) : (Function.update s.client u pc t).ticket = some n := by
    rcases eq_or_ne t u with rfl | hne
    · rw [Function.update_self]
      rcases hPc with hSame | hNone
      · rw [hSame, hTicket]
      · rw [hNone] at hTicket
        cases hTicket
    · rw [Function.update_of_ne hne, hTicket]
  cases hMoves with
  | getNumber u hPc => exact hUpdate (Or.inr (by rw [hPc]; rfl))
  | bakeryProc u arg hPc => exact hUpdate (Or.inl (by rw [hPc]; rfl))
  | takeNumber u _ hPc => exact hUpdate (Or.inr (by rw [hPc]; rfl))
  | takeProc u arg _ hPc => exact hUpdate (Or.inl (by rw [hPc]; rfl))
  | sendNumber u result hPc =>
    exact hUpdate (Or.inr (by rw [hInv.busy u (by rw [hPc]; trivial)]; rfl))
  | reply clock u arg result _ hWait =>
    refine hUpdate (Or.inl ?_)
    rw [hWait, receive]
    split <;> rfl
  | _ => exact hTicket

/-- What the party needs to move. -/
def Party.Unblocked (s : State τ) : Party τ → Prop
  | .client _ => True
  | .take _ => s.dispatcher = .svcRun
  | .worker _ | .dispatcher => s.sendMutex = none

theorem Just.often_unblocked (hJust : Just σ) (p : Party τ) :
    LeadsTo step init σ (fun _ => True) p.Unblocked :=
  match p with
  | .client _ => leadsTo_of_imp fun _ => id
  | .take _ => hJust.often_idle
  | .worker _ | .dispatcher => hJust.often_free

theorem turn_enabled (hEngaged : Engaged s h) {p : Party τ} (hTurn : (s.client t).turn t = some p)
    (hUnblocked : p.Unblocked s) : ∃ a : Action τ, a.party = p ∧ step s a ≠ none := by
  have hAttended := hEngaged.attended t
  unfold Attended at hAttended
  cases hPc : s.client t with
  | getNumber | bakeryProc arg =>
    rw [hPc] at hTurn
    cases hTurn
    refine ⟨.client t, rfl, ?_⟩
    simp [step, clientStep, hPc]
  | getNumberSent | bakeryProcSent arg =>
    rw [hPc] at hTurn
    cases hTurn
    refine ⟨.take t, rfl, ?_⟩
    simp [step, take, hPc, show s.dispatcher = .svcRun from hUnblocked]
  | getNumberWait =>
    rw [hPc] at hTurn hAttended
    cases hTurn
    refine ⟨.worker t, rfl, ?_⟩
    have hFree : s.sendMutex = none := hUnblocked
    cases hWorker : s.worker t with
    | lock | readNum | incNum result | sendreply result =>
      simp [step, getNumberWorker, hWorker, hFree]
    | absent | unlock | ended =>
      rw [hWorker] at hAttended
      exact hAttended.elim
  | bakeryProcWait arg =>
    rw [hPc] at hTurn hAttended
    cases hTurn
    refine dispatcher_enabled ?_ fun _ => hUnblocked
    intro hIdle
    rw [hIdle] at hAttended
    exact hAttended
  | served arg =>
    rw [hPc] at hTurn
    cases hTurn

/-! ## Being served -/

/-- The rule for one client: as long as it is not served, its turns lead on to `Q`. -/
theorem Just.leadsTo (hJust : Just σ) (t : τ) {P Q : State τ → Prop}
    (hServed : ∀ s h, Engaged s h → P s → ∀ n, s.client t ≠ .served n)
    (hStay : ∀ s s', P s → s'.client t = s.client t →
      s.clientNumberService ≤ s'.clientNumberService → Q s' ∨ P s')
    (hMove : ∀ s h a s' h', Engaged s h → Engaged s' h' → P s → Moves s a s' →
      s.clientNumberService ≤ s'.clientNumberService → (s.client t).turn t = some a.party →
        Q s' ∨ P s' ∧ rank t s' < rank t s) :
    LeadsTo step init σ P Q := by
  have hTurn {s : State τ} {h : List (Event τ)} (hEngaged : Engaged s h) (hP : P s) :
      (s.client t).turn t = some (((s.client t).turn t).getD .dispatcher) := by
    cases hPc : s.client t with
    | served n => exact absurd hPc (hServed s h hEngaged hP n)
    | _ => rfl
  refine leadsTo_of_rank (I := fun s => ∃ h, Engaged s h)
    (fun s => ((s.client t).turn t).getD .dispatcher) (rank t) hJust.fair hJust.engaged ?_ ?_
    hJust.often_unblocked ?_
  · rintro s a s' es ⟨h, hEngaged⟩ - hP hOther hStep
    obtain ⟨hClient, hWorker, hDispatcher⟩ := still hEngaged.inv (hEngaged.attended t)
      (moves_of_step hStep) fun hIts => hOther (by rw [hIts]; rfl)
    refine (hStay s s' hP hClient (step_service_le hStep)).imp_right fun hP' => ⟨hP', ?_, ?_⟩
    · rw [hClient]
    · exact (rank_congr hClient hWorker hDispatcher).le
  · rintro s a s' es ⟨h, hEngaged⟩ ⟨h', hEngaged'⟩ hP hIts hStep
    refine hMove s h a s' h' hEngaged hEngaged' hP (moves_of_step hStep) (step_service_le hStep) ?_
    rw [hTurn hEngaged hP, ← hIts]
  · rintro s ⟨h, hEngaged⟩ hP hUnblocked
    exact turn_enabled hEngaged (hTurn hEngaged hP) hUnblocked

/-- Every client gets a ticket. -/
theorem Just.ticket (hJust : Just σ) (t : τ) :
    LeadsTo step init σ (fun s => (s.client t).ticket = none)
      (fun s => ∃ n, (s.client t).ticket = some n) := by
  refine hJust.leadsTo t ?_ ?_ ?_
  · intro s h _ hNone n hServed
    rw [hServed] at hNone
    cases hNone
  · intro s s' hNone hClient _
    right
    rwa [hClient]
  · intro s h a s' h' hEngaged _ hNone hMoves _ hTurn
    rcases Option.eq_none_or_eq_some (s'.client t).ticket with hNone' | hSome
    · right
      refine ⟨hNone', ?_⟩
      rcases rank_turn hEngaged hMoves hTurn with hLess | ⟨-, hSome⟩ | ⟨n, hSome, -⟩ | ⟨hSome, -⟩
      · exact hLess
      · exact absurd hNone' hSome
      · rw [hNone] at hSome
        cases hSome
      · rw [hNone] at hSome
        cases hSome
    · exact Or.inl hSome

/-- A ticket that is due is served. -/
theorem Just.due (hJust : Just σ) (t : τ) (n : Nat) :
    LeadsTo step init σ (fun s => (s.client t).ticket = some n ∧ s.clientNumberService = n)
      (fun s => n < s.clientNumberService) := by
  refine hJust.leadsTo t ?_ ?_ ?_
  · rintro s h hEngaged ⟨hTicket, rfl⟩ m hServed
    have hBehind := hEngaged.attended t
    rw [Attended, hServed] at hBehind
    rw [hServed] at hTicket
    obtain rfl := Option.some.inj hTicket
    exact Nat.lt_irrefl _ hBehind
  · rintro s s' ⟨hTicket, rfl⟩ hClient hService
    rcases hService.lt_or_eq with hLess | hEq
    · exact Or.inl hLess
    · exact Or.inr ⟨by rwa [hClient], hEq.symm⟩
  · rintro s h a s' h' hEngaged _ ⟨hTicket, rfl⟩ hMoves hService hTurn
    have hTicket' := ticket_step hEngaged.inv hTicket hMoves
    rcases hService.lt_or_eq with hLess | hEq
    · exact Or.inl hLess
    · right
      refine ⟨⟨hTicket', hEq.symm⟩, ?_⟩
      rcases rank_turn hEngaged hMoves hTurn with hRank | ⟨hNone, -⟩ | ⟨m, hSome, hEarly⟩ |
        ⟨-, hLess⟩
      · exact hRank
      · rw [hNone] at hTicket
        cases hTicket
      · obtain rfl := Option.some.inj (hTicket.symm.trans hSome)
        exact absurd hEarly (Nat.lt_irrefl _)
      · exact absurd hEq hLess.ne

omit [DecidableEq τ] in
/-- A client whose ticket is behind waits for the reply or has got it. -/
theorem Inv.past (hInv : Inv s h) {n : Nat} (hTicket : (s.client t).ticket = some n)
    (hPast : n < s.clientNumberService) :
    s.client t = .bakeryProcWait n ∨ s.client t = .served n := by
  have hAhead := hInv.tickets.ahead t
  cases hPc : s.client t with
  | getNumber | getNumberSent | getNumberWait =>
    rw [hPc] at hTicket
    cases hTicket
  | bakeryProc m | bakeryProcSent m =>
    rw [hPc] at hTicket hAhead
    cases hTicket
    exact absurd (hAhead n rfl) (by omega)
  | bakeryProcWait m =>
    rw [hPc] at hTicket
    cases hTicket
    exact Or.inl rfl
  | served m =>
    rw [hPc] at hTicket
    cases hTicket
    exact Or.inr rfl

/-- The client of a ticket that has been served gets the reply. -/
theorem Just.told (hJust : Just σ) (t : τ) (n : Nat) :
    LeadsTo step init σ (fun s => s.client t = .bakeryProcWait n ∧ n < s.clientNumberService)
      (fun s => s.client t = .served n) := by
  refine hJust.leadsTo t ?_ ?_ ?_
  · rintro s h _ ⟨hWait, -⟩ m hServed
    rw [hWait] at hServed
    cases hServed
  · rintro s s' ⟨hWait, hPast⟩ hClient hService
    exact Or.inr ⟨hClient.trans hWait, hPast.trans_le hService⟩
  · rintro s h a s' h' hEngaged hEngaged' ⟨hWait, hPast⟩ hMoves hService hTurn
    have hTicket : (s.client t).ticket = some n := by rw [hWait]; rfl
    have hPast' := hPast.trans_le hService
    rcases hEngaged'.inv.past (ticket_step hEngaged.inv hTicket hMoves) hPast' with hWait' | hServed
    · right
      refine ⟨⟨hWait', hPast'⟩, ?_⟩
      rcases rank_turn hEngaged hMoves hTurn with hRank | ⟨hNone, -⟩ | ⟨m, hSome, hEarly⟩ |
        ⟨hSome, -⟩
      · exact hRank
      · rw [hNone] at hTicket
        cases hTicket
      · obtain rfl := Option.some.inj (hTicket.symm.trans hSome)
        omega
      · obtain rfl := Option.some.inj (hTicket.symm.trans hSome)
        omega
    · exact Or.inl hServed

theorem Just.ticket_kept (hJust : Just σ) {n i j : Nat}
    (hTicket : ((moment step init σ i).client t).ticket = some n) (hLater : i ≤ j) :
    ((moment step init σ j).client t).ticket = some n := by
  refine moment_stable (I := fun s : State τ => ∃ h, Engaged s h)
    (P := fun s => (s.client t).ticket = some n) hJust.engaged ?_ hTicket hLater
  rintro s a s' es ⟨h, hEngaged⟩ hTicket hStep
  exact ticket_step hEngaged.inv hTicket (moves_of_step hStep)

omit [DecidableEq τ] in
theorem mem_issued {n : Nat} (hIssued : n ∈ issued h) : ∃ u, .issued u n ∈ h := by
  obtain ⟨e, he, hNumber⟩ := List.mem_filterMap.mp hIssued
  cases e with
  | issued u m =>
    cases hNumber
    exact ⟨u, he⟩
  | served | refused | clockFailed => cases hNumber

/-- The induction on the tickets: when the one before has been served, a ticket is due. -/
theorem Just.serves (hJust : Just σ) (n : Nat) :
    LeadsTo step init σ (fun s => ∃ t, (s.client t).ticket = some n)
      (fun s => n < s.clientNumberService) := by
  induction n with
  | zero =>
    rintro k ⟨t, hTicket⟩
    rcases Nat.eq_zero_or_pos (moment step init σ k).clientNumberService with hDue | hPast
    · exact hJust.due t 0 k ⟨hTicket, hDue⟩
    · exact ⟨k, le_rfl, hPast⟩
  | succ n ih =>
    rintro k ⟨t, hTicket⟩
    obtain ⟨h, hEngaged⟩ := hJust.engaged k
    -- somebody has the ticket before
    have hIssued : n ∈ issued h := by
      rw [hEngaged.inv.numbers, List.mem_range]
      have hBound := hEngaged.inv.tickets.bound t _ hTicket
      omega
    obtain ⟨u, hHolder⟩ := mem_issued hIssued
    obtain ⟨j, hj, hPast⟩ := ih k ⟨u, hEngaged.inv.holders u n hHolder⟩
    rcases (show n + 1 ≤ _ from hPast).lt_or_eq with hLess | hEq
    · exact ⟨j, hj, hLess⟩
    · obtain ⟨i, hi, hServed⟩ := hJust.due t (n + 1) j ⟨hJust.ticket_kept hTicket hj, hEq.symm⟩
      exact ⟨i, hj.trans hi, hServed⟩

end OsLabs.Rpc.TicketServer
