import OsLabs.Rpc.TicketOrder

/-!
# Whose turn it is at the ticket server

`ClientPc.turn` says who has to move for a client to get on. While somebody else moves, its
situation stays the same (`still`), and whatever the party does whose turn it is, somebody is at
work for the client afterwards (`attended_of_turn`). Whoever has the mutex goes on to `unlock`.
-/

namespace OsLabs.Rpc.TicketServer

open Runs

variable {τ : Type}

/-- Who moves; to take a request is a matter of the client's connection. -/
inductive Party (τ : Type) where
  | client (t : τ)
  | worker (t : τ)
  | take (t : τ)
  | dispatcher
deriving DecidableEq

def Action.party : Action τ → Party τ
  | .client t => .client t
  | .worker t => .worker t
  | .take t => .take t
  | .dispatcher _ => .dispatcher

/-- Who has to move for a client to get on. -/
def ClientPc.turn (t : τ) : ClientPc → Option (Party τ)
  | .getNumber | .bakeryProc _ => some (.client t)
  | .getNumberSent | .bakeryProcSent _ => some (.take t)
  | .getNumberWait => some (.worker t)
  | .bakeryProcWait _ => some .dispatcher
  | .served _ => none

/-- The dispatcher is at work for the client, or is about to reply to it. -/
def DispatcherPc.Serves (t : τ) (arg : Nat) : DispatcherPc τ → Prop
  | .compare u n | .clock u n | .incService u n _ => u = t ∧ n = arg
  | .lock u reply | .sendreply u reply => u = t ∧ reply.isSome
  | .svcRun | .unlock => False

/-- What its worker and the dispatcher are doing for a client. -/
def Attends (t : τ) (service : Nat) (worker : WorkerPc) (dispatcher : DispatcherPc τ) :
    ClientPc → Prop
  | .getNumber | .getNumberSent => worker = .absent
  | .getNumberWait => worker.Busy
  | .bakeryProc _ | .bakeryProcSent _ => True
  | .bakeryProcWait arg => dispatcher.Serves t arg
  | .served arg => arg < service

def Attended (s : State τ) (t : τ) : Prop :=
  Attends t s.clientNumberService (s.worker t) s.dispatcher (s.client t)

/-- Whoever has the mutex is between `lock` and `unlock`. -/
def Thread.Holds (s : State τ) : Thread τ → Prop
  | .worker t => (s.worker t).Inside
  | .dispatcher => s.dispatcher.Inside

def Thread.party : Thread τ → Party τ
  | .worker t => .worker t
  | .dispatcher => .dispatcher

/-- The statements until the worker has given the mutex back. -/
def WorkerPc.rank : WorkerPc → Nat
  | .lock => 5
  | .readNum => 4
  | .incNum _ => 3
  | .sendreply _ => 2
  | .unlock => 1
  | .absent | .ended => 0

/-- The statements until the dispatcher is back in `svc_run`. -/
def DispatcherPc.rank : DispatcherPc τ → Nat
  | .compare _ _ => 6
  | .clock _ _ => 5
  | .incService _ _ _ => 4
  | .lock _ _ => 3
  | .sendreply _ _ => 2
  | .unlock => 1
  | .svcRun => 0

def Thread.rank (s : State τ) : Thread τ → Nat
  | .worker t => (s.worker t).rank
  | .dispatcher => s.dispatcher.rank

structure Engaged (s : State τ) (h : List (Event τ)) : Prop where
  inv : Inv s h
  owner : ∀ o ∈ s.sendMutex, o.Holds s
  attended : ∀ t, Attended s t

theorem engaged_init : Engaged (init : State τ) [] :=
  ⟨inv_init, nofun, fun _ => rfl⟩

variable [DecidableEq τ] {s s' : State τ} {h es : List (Event τ)} {t : τ} {a : Action τ}

/-! ## One step -/

/-- What a step can be. -/
inductive Moves (s : State τ) : Action τ → State τ → Prop where
  | getNumber (t : τ) (h : s.client t = .getNumber) :
      Moves s (.client t) (s.setClient t .getNumberSent)
  | bakeryProc (t : τ) (arg : Nat) (h : s.client t = .bakeryProc arg) :
      Moves s (.client t) (s.setClient t (.bakeryProcSent arg))
  | takeNumber (t : τ) (hIdle : s.dispatcher = .svcRun) (h : s.client t = .getNumberSent) :
      Moves s (.take t) ((s.setClient t .getNumberWait).setWorker t .lock)
  | takeProc (t : τ) (arg : Nat) (hIdle : s.dispatcher = .svcRun)
      (h : s.client t = .bakeryProcSent arg) :
      Moves s (.take t)
        { s.setClient t (.bakeryProcWait arg) with dispatcher := .compare t arg }
  | workerLock (t : τ) (h : s.worker t = .lock) (hFree : s.sendMutex = none) :
      Moves s (.worker t) { s.setWorker t .readNum with sendMutex := some (.worker t) }
  | readNum (t : τ) (h : s.worker t = .readNum) :
      Moves s (.worker t) (s.setWorker t (.incNum s.clientNum))
  | incNum (t : τ) (result : Nat) (h : s.worker t = .incNum result) :
      Moves s (.worker t)
        { s.setWorker t (.sendreply result) with clientNum := s.clientNum + 1 }
  | sendNumber (t : τ) (result : Nat) (h : s.worker t = .sendreply result) :
      Moves s (.worker t) ((s.setClient t (.bakeryProc result)).setWorker t .unlock)
  | workerUnlock (t : τ) (h : s.worker t = .unlock) :
      Moves s (.worker t) { s.setWorker t .ended with sendMutex := none }
  | refuse (clock : Option Int) (t : τ) (arg : Nat) (h : s.dispatcher = .compare t arg)
      (hEarly : arg ≠ s.clientNumberService) :
      Moves s (.dispatcher clock) { s with dispatcher := .lock t (some ⟨0, none⟩) }
  | accept (clock : Option Int) (t : τ) (arg : Nat) (h : s.dispatcher = .compare t arg)
      (hDue : arg = s.clientNumberService) :
      Moves s (.dispatcher clock) { s with dispatcher := .clock t arg }
  | clock (clock : Option Int) (t : τ) (arg : Nat) (h : s.dispatcher = .clock t arg) :
      Moves s (.dispatcher clock) { s with dispatcher := .incService t arg clock }
  | incService (clock : Option Int) (t : τ) (arg : Nat) (time : Option Int)
      (h : s.dispatcher = .incService t arg time) :
      Moves s (.dispatcher clock) { s with
        clientNumberService := s.clientNumberService + 1
        dispatcher := .lock t (time.map fun ms => ⟨1, some ms⟩) }
  | dispatcherLock (clock : Option Int) (t : τ) (reply : Option BakeryResult)
      (h : s.dispatcher = .lock t reply) (hFree : s.sendMutex = none) :
      Moves s (.dispatcher clock)
        { s with sendMutex := some .dispatcher, dispatcher := .sendreply t reply }
  | reply (clock : Option Int) (t : τ) (arg : Nat) (result : BakeryResult)
      (h : s.dispatcher = .sendreply t (some result)) (hWait : s.client t = .bakeryProcWait arg) :
      Moves s (.dispatcher clock)
        { s.setClient t (receive arg result) with dispatcher := .unlock }
  | noReply (clock : Option Int) (t : τ) (reply : Option BakeryResult)
      (h : s.dispatcher = .sendreply t reply)
      (hNone : ∀ arg, s.client t = .bakeryProcWait arg → reply = none) :
      Moves s (.dispatcher clock) { s with dispatcher := .unlock }
  | dispatcherUnlock (clock : Option Int) (h : s.dispatcher = .unlock) :
      Moves s (.dispatcher clock) { s with sendMutex := none, dispatcher := .svcRun }

theorem moves_of_step (hStep : step s a = some (s', es)) : Moves s a s' := by
  cases a with
  | client t =>
    simp only [step, clientStep] at hStep
    split at hStep
    · next hPc => cases hStep; exact .getNumber t hPc
    · next arg hPc => cases hStep; exact .bakeryProc t arg hPc
    · cases hStep
  | take t =>
    simp only [step, take] at hStep
    split at hStep
    · next hIdle =>
      split at hStep
      · next hPc => cases hStep; exact .takeNumber t hIdle hPc
      · next arg hPc => cases hStep; exact .takeProc t arg hIdle hPc
      · cases hStep
    · cases hStep
  | worker t =>
    simp only [step, getNumberWorker] at hStep
    split at hStep
    · next hPc =>
      split at hStep
      · next hFree => cases hStep; exact .workerLock t hPc hFree
      · cases hStep
    · next hPc => cases hStep; exact .readNum t hPc
    · next result hPc => cases hStep; exact .incNum t result hPc
    · next result hPc => cases hStep; exact .sendNumber t result hPc
    · next hPc => cases hStep; exact .workerUnlock t hPc
    · cases hStep
    · cases hStep
  | dispatcher clock =>
    simp only [step, dispatcherStep] at hStep
    split at hStep
    · cases hStep
    · next t arg hd =>
      split at hStep
      · next hEarly => cases hStep; exact .refuse clock t arg hd hEarly
      · next hDue => cases hStep; exact .accept clock t arg hd (not_not.mp hDue)
    · next t arg hd => cases hStep; exact .clock clock t arg hd
    · next t arg time hd => cases hStep; exact .incService clock t arg time hd
    · next t reply hd =>
      split at hStep
      · next hFree => cases hStep; exact .dispatcherLock clock t reply hd hFree
      · cases hStep
    · next t reply hd =>
      split at hStep
      · next result arg hWait => cases hStep; exact .reply clock t arg result hd hWait
      · next hNot =>
        cases hStep
        exact .noReply clock t _ hd fun arg hWait =>
          Option.eq_none_iff_forall_ne_some.mpr fun result hSome => hNot result arg hSome hWait
    · next hd => cases hStep; exact .dispatcherUnlock clock hd

omit [DecidableEq τ] in
theorem Attended.unlocking (h : Attended s t) (hUnlock : s.worker t = .unlock) :
    (s.client t).ticket ≠ none := by
  intro hNone
  unfold Attended at h
  cases hPc : s.client t with
  | getNumber | getNumberSent | getNumberWait =>
    rw [hPc, hUnlock] at h
    cases h
  | bakeryProc arg | bakeryProcSent arg | bakeryProcWait arg | served arg =>
    rw [hPc] at hNone
    cases hNone

/-- While it is not its turn, nothing changes for a client. -/
theorem still (hInv : Inv s h) (hAttended : Attended s t) (hMoves : Moves s a s')
    (hOther : (s.client t).turn t ≠ some a.party) :
    s'.client t = s.client t ∧ ((s.client t).ticket = none → s'.worker t = s.worker t) ∧
      ∀ arg, s.client t = .bakeryProcWait arg → s'.dispatcher = s.dispatcher := by
  have hNe {u : τ} {pc : ClientPc} {p : Party τ} (hPc : s.client u = pc) (hParty : a.party = p)
      (hTurn : pc.turn u = some p) : t ≠ u := by
    rintro rfl
    rw [hPc, hTurn, hParty] at hOther
    exact hOther rfl
  have hNot {arg : Nat} (hParty : a.party = .dispatcher)
      (hWait : s.client t = .bakeryProcWait arg) : False := by
    rw [hWait, hParty] at hOther
    exact hOther rfl
  cases hMoves with
  | getNumber u hPc =>
    have hne := hNe hPc rfl rfl
    exact ⟨Function.update_of_ne hne _ _, fun _ => rfl, fun _ _ => rfl⟩
  | bakeryProc u arg hPc =>
    have hne := hNe hPc rfl rfl
    exact ⟨Function.update_of_ne hne _ _, fun _ => rfl, fun _ _ => rfl⟩
  | takeNumber u hIdle hPc =>
    have hne := hNe hPc rfl rfl
    exact ⟨Function.update_of_ne hne _ _, fun _ => Function.update_of_ne hne _ _, fun _ _ => rfl⟩
  | takeProc u arg hIdle hPc =>
    have hne := hNe hPc rfl rfl
    refine ⟨Function.update_of_ne hne _ _, fun _ => rfl, fun arg' hWait => ?_⟩
    rw [Attended, hWait, hIdle] at hAttended
    exact hAttended.elim
  | workerLock u hPc _ =>
    have hne := hNe (hInv.busy u (by rw [hPc]; trivial)) rfl rfl
    exact ⟨rfl, fun _ => Function.update_of_ne hne _ _, fun _ _ => rfl⟩
  | readNum u hPc =>
    have hne := hNe (hInv.busy u (by rw [hPc]; trivial)) rfl rfl
    exact ⟨rfl, fun _ => Function.update_of_ne hne _ _, fun _ _ => rfl⟩
  | incNum u result hPc =>
    have hne := hNe (hInv.busy u (by rw [hPc]; trivial)) rfl rfl
    exact ⟨rfl, fun _ => Function.update_of_ne hne _ _, fun _ _ => rfl⟩
  | sendNumber u result hPc =>
    have hne := hNe (hInv.busy u (by rw [hPc]; trivial)) rfl rfl
    exact ⟨Function.update_of_ne hne _ _, fun _ => Function.update_of_ne hne _ _, fun _ _ => rfl⟩
  | workerUnlock u hPc =>
    refine ⟨rfl, fun hNone => ?_, fun _ _ => rfl⟩
    refine Function.update_of_ne ?_ _ _
    rintro rfl
    exact hAttended.unlocking hPc hNone
  | refuse clock u arg hd _ => exact ⟨rfl, fun _ => rfl, fun arg hWait => (hNot rfl hWait).elim⟩
  | accept clock u arg hd _ => exact ⟨rfl, fun _ => rfl, fun arg hWait => (hNot rfl hWait).elim⟩
  | clock clock u arg hd => exact ⟨rfl, fun _ => rfl, fun arg hWait => (hNot rfl hWait).elim⟩
  | incService clock u arg time hd =>
    exact ⟨rfl, fun _ => rfl, fun arg hWait => (hNot rfl hWait).elim⟩
  | dispatcherLock clock u reply hd _ =>
    exact ⟨rfl, fun _ => rfl, fun arg hWait => (hNot rfl hWait).elim⟩
  | reply clock u arg result hd hWait =>
    have hne := hNe hWait rfl rfl
    exact ⟨Function.update_of_ne hne _ _, fun _ => rfl, fun arg hWait => (hNot rfl hWait).elim⟩
  | noReply clock u reply hd _ =>
    exact ⟨rfl, fun _ => rfl, fun arg hWait => (hNot rfl hWait).elim⟩
  | dispatcherUnlock clock hd => exact ⟨rfl, fun _ => rfl, fun arg hWait => (hNot rfl hWait).elim⟩

omit [DecidableEq τ] in
theorem turn_eq_some {pc : ClientPc} {p : Party τ} (h : pc.turn t = some p) :
    (∀ u, p = .client u ∨ p = .take u ∨ p = .worker u → t = u) ∧
      (∀ u, p = .worker u → pc = .getNumberWait) ∧
      (p = .dispatcher → ∃ arg, pc = .bakeryProcWait arg) := by
  cases pc <;> cases h <;> simp

/-- The party whose turn it is gets a client on. -/
theorem attended_of_turn (hEngaged : Engaged s h) (hMoves : Moves s a s')
    (hTurn : (s.client t).turn t = some a.party) : Attended s' t := by
  obtain ⟨hSame, hWorker, hDispatcher⟩ := turn_eq_some hTurn
  have hAttended := hEngaged.attended t
  have hDispatched := hEngaged.inv.dispatched
  unfold Attended at hAttended ⊢
  cases hMoves with
  | getNumber u hPc =>
    obtain rfl := hSame u (Or.inl rfl)
    simpa [State.setClient, Attends, hPc] using hAttended
  | bakeryProc u arg hPc =>
    obtain rfl := hSame u (Or.inl rfl)
    simp [State.setClient, Attends]
  | takeNumber u hIdle hPc =>
    obtain rfl := hSame u (Or.inr (Or.inl rfl))
    simp [State.setClient, State.setWorker, Attends, WorkerPc.Busy]
  | takeProc u arg hIdle hPc =>
    obtain rfl := hSame u (Or.inr (Or.inl rfl))
    simp [State.setClient, Attends, DispatcherPc.Serves]
  | workerLock u hPc _ | readNum u hPc | incNum u result hPc =>
    obtain rfl := hSame u (Or.inr (Or.inr rfl))
    simp [State.setWorker, Attends, hWorker _ rfl, WorkerPc.Busy]
  | sendNumber u result hPc =>
    obtain rfl := hSame u (Or.inr (Or.inr rfl))
    simp [State.setClient, State.setWorker, Attends]
  | workerUnlock u hPc =>
    obtain rfl := hSame u (Or.inr (Or.inr rfl))
    rw [hWorker _ rfl, hPc] at hAttended
    exact hAttended.elim
  | refuse clock u arg hd _ =>
    obtain ⟨n, hWait⟩ := hDispatcher rfl
    rw [hWait, hd] at hAttended
    rw [hWait]
    exact ⟨hAttended.1, rfl⟩
  | accept clock u arg hd _ | dispatcherLock clock u reply hd _ | clock clock u arg hd =>
    obtain ⟨n, hWait⟩ := hDispatcher rfl
    rw [hWait, hd] at hAttended
    rw [hWait]
    exact hAttended
  | incService clock u arg time hd =>
    obtain ⟨n, hWait⟩ := hDispatcher rfl
    rw [hd] at hDispatched
    rw [hWait, hd] at hAttended
    rw [hWait]
    exact ⟨hAttended.1, by rw [Option.isSome_map]; exact hDispatched.2.2⟩
  | reply clock u arg result hd hWait =>
    obtain ⟨n, hWaits⟩ := hDispatcher rfl
    rw [hWaits, hd] at hAttended
    obtain rfl := hAttended.1
    rw [hd] at hDispatched
    obtain ⟨arg', hWait', hReply⟩ := hDispatched
    obtain rfl : arg' = arg := ClientPc.bakeryProcWait.inj (hWait'.symm.trans hWait)
    simp only [State.setClient, Function.update_self, receive]
    split
    · trivial
    · next hServed => simpa [ReplyOk, hServed, Attends] using hReply
  | noReply clock u reply hd hNone =>
    obtain ⟨n, hWait⟩ := hDispatcher rfl
    rw [hWait, hd] at hAttended
    obtain ⟨rfl, hSome⟩ := hAttended
    rw [hNone n hWait] at hSome
    cases hSome
  | dispatcherUnlock clock hd =>
    obtain ⟨n, hWait⟩ := hDispatcher rfl
    rw [hWait, hd] at hAttended
    exact hAttended.elim

theorem attended_step (hEngaged : Engaged s h)
    (hStep : step s a = some (s', es)) : Attended s' t := by
  have hMoves := moves_of_step hStep
  by_cases hTurn : (s.client t).turn t = some a.party
  · exact attended_of_turn hEngaged hMoves hTurn
  · have hAttended := hEngaged.attended t
    obtain ⟨hClient, hWorker, hDispatcher⟩ := still hEngaged.inv hAttended hMoves hTurn
    have hService := step_service_le hStep
    unfold Attended at hAttended ⊢
    rw [hClient]
    cases hPc : s.client t with
    | getNumber | getNumberSent | getNumberWait =>
      rw [hPc] at hAttended hWorker
      rw [hWorker rfl]
      exact hAttended
    | bakeryProc arg | bakeryProcSent arg => trivial
    | bakeryProcWait arg =>
      rw [hPc] at hAttended
      rw [hDispatcher arg hPc]
      exact hAttended
    | served arg =>
      rw [hPc] at hAttended
      exact Nat.lt_of_lt_of_le hAttended hService

/-- Whoever has the mutex goes on, or gives it back; nobody else touches it. -/
theorem owner_moves (hEngaged : Engaged s h) (hMoves : Moves s a s') {o : Thread τ}
    (ho : s.sendMutex = some o) :
    (a.party = o.party ∧ s'.sendMutex = none) ∨
      (s'.sendMutex = some o ∧ o.Holds s' ∧
        (if a.party = o.party then o.rank s' < o.rank s else o.rank s' = o.rank s)) := by
  have hHolds := hEngaged.owner o ho
  have hCounter := hEngaged.inv.counter
  have hWorker {u : τ} (hInside : (s.worker u).Inside) : o = .worker u :=
    Option.some.inj (ho.symm.trans (hCounter.inside u hInside))
  have hReplying (hInside : s.dispatcher.Inside) : o = .dispatcher :=
    Option.some.inj (ho.symm.trans (hCounter.replying hInside))
  cases hMoves with
  | getNumber u hPc | bakeryProc u arg hPc =>
    refine Or.inr ⟨ho, hHolds, ?_⟩
    rw [if_neg (by cases o <;> simp [Action.party, Thread.party])]
    rfl
  | takeNumber u hIdle hPc =>
    have hAbsent := hEngaged.attended u
    rw [Attended, hPc] at hAbsent
    refine Or.inr ⟨ho, ?_⟩
    rw [if_neg (by cases o <;> simp [Action.party, Thread.party])]
    cases o with
    | dispatcher => exact ⟨hHolds, rfl⟩
    | worker v =>
      have hne : v ≠ u := by
        rintro rfl
        rw [Thread.Holds, show s.worker v = .absent from hAbsent] at hHolds
        exact hHolds
      simpa [State.setWorker, State.setClient, Thread.Holds, Thread.rank, hne] using hHolds
  | takeProc u arg hIdle hPc =>
    refine Or.inr ⟨ho, ?_⟩
    rw [if_neg (by cases o <;> simp [Action.party, Thread.party])]
    cases o with
    | worker v => exact ⟨hHolds, rfl⟩
    | dispatcher =>
      rw [Thread.Holds, hIdle] at hHolds
      exact hHolds.elim
  | workerLock u hPc hFree =>
    rw [hFree] at ho
    cases ho
  | readNum u hPc | incNum u result hPc | sendNumber u result hPc =>
    obtain rfl := hWorker (u := u) (by rw [hPc]; trivial)
    refine Or.inr ⟨ho, ?_⟩
    simp [State.setWorker, State.setClient, Thread.Holds, Thread.rank, Thread.party, Action.party,
      WorkerPc.Inside, WorkerPc.rank, hPc]
  | workerUnlock u hPc =>
    obtain rfl := hWorker (u := u) (by rw [hPc]; trivial)
    exact Or.inl ⟨rfl, rfl⟩
  | refuse clock u arg hd _ | accept clock u arg hd _ | clock clock u arg hd
  | incService clock u arg time hd =>
    cases o with
    | dispatcher =>
      rw [Thread.Holds, hd] at hHolds
      exact hHolds.elim
    | worker v =>
      refine Or.inr ⟨ho, hHolds, ?_⟩
      rw [if_neg (by simp [Action.party, Thread.party])]
      rfl
  | dispatcherLock clock u reply hd hFree =>
    rw [hFree] at ho
    cases ho
  | reply clock u arg result hd hWait =>
    obtain rfl := hReplying (by rw [hd]; trivial)
    refine Or.inr ⟨ho, trivial, ?_⟩
    simp [Thread.rank, Thread.party, Action.party, DispatcherPc.rank, hd]
  | noReply clock u reply hd _ =>
    obtain rfl := hReplying (by rw [hd]; trivial)
    refine Or.inr ⟨ho, trivial, ?_⟩
    simp [Thread.rank, Thread.party, Action.party, DispatcherPc.rank, hd]
  | dispatcherUnlock clock hd =>
    obtain rfl := hReplying (by rw [hd]; trivial)
    exact Or.inl ⟨rfl, rfl⟩

theorem owner_step (hEngaged : Engaged s h) (hMoves : Moves s a s') (o : Thread τ)
    (ho : o ∈ s'.sendMutex) : o.Holds s' := by
  cases hMutex : s.sendMutex with
  | some o' =>
    rcases owner_moves hEngaged hMoves hMutex with ⟨-, hFree⟩ | ⟨hSame, hHolds, -⟩
    · rw [hFree] at ho
      cases ho
    · rw [hSame] at ho
      cases ho
      exact hHolds
  | none =>
    cases hMoves with
    | workerLock u _ _ =>
      cases ho
      simp [Thread.Holds, State.setWorker, WorkerPc.Inside]
    | dispatcherLock clock u reply _ _ =>
      cases ho
      trivial
    | _ =>
      first
      | cases ho
      | cases hMutex.symm.trans ho

theorem Engaged.step (hEngaged : Engaged s h) (hClock : a.clockSucceeds)
    (hStep : step s a = some (s', es)) : Engaged s' (h ++ es) :=
  ⟨hEngaged.inv.step hClock hStep, fun o => owner_step hEngaged (moves_of_step hStep) o,
    fun _ => attended_step hEngaged hStep⟩

end OsLabs.Rpc.TicketServer
