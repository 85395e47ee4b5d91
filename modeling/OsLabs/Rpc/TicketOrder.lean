import Mathlib.Order.Bounds.Basic
import OsLabs.Rpc.Tickets

/-!
# Every ticket is served once and in order

`client_num` counts the tickets handed out: only the worker that holds `send_mutex` touches
it, and `WorkerOk` says how far that worker is. `client_number_service` counts the tickets
served: only the dispatcher touches it, and every client that still asks holds a ticket of
its own that is not below it (`Tickets.ahead`). A client whose ticket equals it is the only one,
and can only be served.
-/

namespace OsLabs.Rpc.TicketServer

open Runs

variable {τ : Type}

/-- The tickets handed out, in order. -/
def issued (h : List (Event τ)) : List Nat :=
  h.filterMap fun
    | .issued _ number => some number
    | _ => none

/-- The tickets served, in order. -/
def served (h : List (Event τ)) : List Nat :=
  h.filterMap fun
    | .served _ number => some number
    | _ => none

def Action.clockSucceeds : Action τ → Bool
  | .dispatcher clock => clock.isSome
  | _ => true

structure Inv (s : State τ) (h : List (Event τ)) : Prop where
  counter : Counter (issued h).length s.clientNum s.sendMutex s.worker s.dispatcher
  tickets : Tickets (issued h).length s.clientNumberService s.client
  busy : ∀ t, (s.worker t).Busy → s.client t = .getNumberWait
  dispatched : DispatcherOk s.clientNumberService s.client s.dispatcher
  numbers : issued h = List.range (issued h).length
  services : served h = List.range s.clientNumberService
  holders : ∀ t n, .issued t n ∈ h → (s.client t).ticket = some n

theorem inv_init : Inv (init : State τ) [] := by
  refine ⟨⟨nofun, nofun, fun _ => trivial, fun _ => rfl, Nat.le_refl 0⟩,
    ⟨nofun, nofun, nofun, Nat.le_refl 0⟩, nofun, trivial, rfl, rfl, nofun⟩

/-! ## Steps of the clients -/

variable [DecidableEq τ] {s s' : State τ} {h es : List (Event τ)} {t : τ}

theorem Inv.busy_update (hInv : Inv s h) (ht : s.client t ≠ .getNumberWait) (pc : ClientPc)
    (u : τ) (hu : (s.worker u).Busy) : Function.update s.client t pc u = .getNumberWait := by
  have hWait := hInv.busy u hu
  rw [Function.update_of_ne, hWait]
  rintro rfl
  exact ht hWait

theorem Inv.holders_update (hInv : Inv s h) {pc : ClientPc}
    (hTicket : pc.ticket = (s.client t).ticket) (u : τ) (n : Nat) (hu : .issued u n ∈ h) :
    (Function.update s.client t pc u).ticket = some n := by
  have hHolds := hInv.holders u n hu
  rw [Function.update_apply]
  split
  · next hEq => rw [hTicket, ← hEq, hHolds]
  · exact hHolds

/-- A client that neither waits for a reply nor gets or loses a ticket. -/
theorem Inv.setClient (hInv : Inv s h) {pc : ClientPc} (hNumber : s.client t ≠ .getNumberWait)
    (hProc : ∀ arg, s.client t ≠ .bakeryProcWait arg) (hTicket : pc.ticket = (s.client t).ticket)
    (hAsks : ∀ n, pc.asks = some n → s.clientNumberService ≤ n) : Inv (s.setClient t pc) h where
  counter := hInv.counter
  tickets := hInv.tickets.keep hTicket hAsks
  busy := hInv.busy_update hNumber pc
  dispatched := hInv.dispatched.update hProc pc
  numbers := hInv.numbers
  services := hInv.services
  holders := hInv.holders_update hTicket

theorem Inv.clientStep (hInv : Inv s h) (hStep : clientStep s t = some (s', es)) :
    Inv s' (h ++ es) := by
  unfold TicketServer.clientStep at hStep
  split at hStep
  · next hPc =>
    cases hStep
    rw [List.append_nil]
    refine hInv.setClient ?_ ?_ ?_ nofun
    · rw [hPc]; nofun
    · rw [hPc]; nofun
    · rw [hPc]; rfl
  · next arg hPc =>
    cases hStep
    rw [List.append_nil]
    have hAhead := hInv.tickets.ahead t
    rw [hPc] at hAhead
    refine hInv.setClient ?_ ?_ ?_ hAhead
    · rw [hPc]; nofun
    · rw [hPc]; nofun
    · rw [hPc]; rfl
  · cases hStep

theorem Inv.take (hInv : Inv s h) (hStep : take s t = some (s', es)) : Inv s' (h ++ es) := by
  unfold TicketServer.take at hStep
  split at hStep
  · next hIdle =>
    split at hStep
    · next hPc =>
      cases hStep
      rw [List.append_nil]
      have hTicket : ClientPc.getNumberWait.ticket = (s.client t).ticket := by rw [hPc]; rfl
      refine ⟨hInv.counter.outside nofun trivial, hInv.tickets.keep hTicket nofun,
        ?_, hInv.dispatched.update (by rw [hPc]; nofun) _, hInv.numbers, hInv.services,
        hInv.holders_update hTicket⟩
      · intro u hu
        rcases eq_or_ne u t with rfl | hne
        · simp [State.setWorker, State.setClient]
        · simp only [State.setWorker, State.setClient, Function.update_of_ne hne] at hu ⊢
          exact hInv.busy u hu
    · next arg hPc =>
      cases hStep
      rw [List.append_nil]
      have hTicket : (ClientPc.bakeryProcWait arg).ticket = (s.client t).ticket := by
        rw [hPc]; rfl
      have hAhead : s.clientNumberService ≤ arg := hInv.tickets.ahead t arg (by rw [hPc]; rfl)
      refine ⟨hInv.counter.dispatch nofun,
        hInv.tickets.keep hTicket nofun, hInv.busy_update (by rw [hPc]; nofun) _,
        ⟨?_, hAhead⟩, hInv.numbers, hInv.services, hInv.holders_update hTicket⟩
      exact Function.update_self t _ _
    · cases hStep
  · cases hStep

/-! ## The workers -/

theorem Inv.busy_worker (hInv : Inv s h) {pc : WorkerPc}
    (hPc : pc.Busy → s.client t = .getNumberWait) (u : τ)
    (hu : (Function.update s.worker t pc u).Busy) : s.client u = .getNumberWait := by
  rcases eq_or_ne u t with rfl | hne
  · rw [Function.update_self] at hu
    exact hPc hu
  · rw [Function.update_of_ne hne] at hu
    exact hInv.busy u hu

/-- A step of a worker that says nothing to its client. -/
theorem Inv.workerMoves (hInv : Inv s h) {clientNum : Nat} {sendMutex : Option (Thread τ)}
    (hCounter : Counter (issued h).length clientNum sendMutex (Function.update s.worker t pc)
      s.dispatcher)
    (hBusy : pc.Busy → s.client t = .getNumberWait) :
    Inv { s with
      clientNum := clientNum, sendMutex := sendMutex
      worker := Function.update s.worker t pc } h where
  counter := hCounter
  tickets := hInv.tickets
  busy := hInv.busy_worker hBusy
  dispatched := hInv.dispatched
  numbers := hInv.numbers
  services := hInv.services
  holders := hInv.holders

omit [DecidableEq τ] in
theorem issued_append (h : List (Event τ)) (t : τ) (n : Nat) :
    issued (h ++ [.issued t n]) = issued h ++ [n] := by
  simp [issued]

omit [DecidableEq τ] in
theorem served_append (h : List (Event τ)) (t : τ) (n : Nat) :
    served (h ++ [.served t n]) = served h ++ [n] := by
  simp [served]

/-- The reply to `GET_NUMBER`. -/
theorem Inv.issue (hInv : Inv s h) {result : Nat} (ht : s.worker t = .sendreply result) :
    Inv ((s.setClient t (.bakeryProc result)).setWorker t .unlock) (h ++ [.issued t result]) := by
  have hInside : (s.worker t).Inside := by rw [ht]; trivial
  obtain ⟨hCount, rfl⟩ : WorkerOk _ s.clientNum (.sendreply result) := ht ▸ hInv.counter.counted t
  have hWait : s.client t = .getNumberWait := hInv.busy t (by rw [ht]; trivial)
  have hLength : (issued (h ++ [.issued t (issued h).length])).length = (issued h).length + 1 := by
    rw [issued_append, List.length_append, List.length_singleton]
  refine ⟨?_, ?_, ?_, hInv.dispatched.update (by rw [hWait]; nofun) _, ?_, ?_, ?_⟩
  · rw [hLength]
    exact hInv.counter.hold hInside hCount (Nat.le_of_eq hCount.symm)
  · rw [hLength]
    exact hInv.tickets.issue t
  · intro u hu
    rcases eq_or_ne u t with rfl | hne
    · simp [State.setWorker, WorkerPc.Busy] at hu
    · simp only [State.setWorker, State.setClient, Function.update_of_ne hne] at hu ⊢
      exact hInv.busy u hu
  · rw [hLength, issued_append, List.range_succ, ← hInv.numbers]
  · show served (h ++ [.issued t (issued h).length]) = List.range s.clientNumberService
    rw [← hInv.services]
    simp [served]
  · intro u n hu
    rcases List.mem_append.mp hu with hOld | hNew
    · have hHolds := hInv.holders u n hOld
      rcases eq_or_ne u t with rfl | hne
      · rw [hWait] at hHolds
        cases hHolds
      · simpa [State.setWorker, State.setClient, Function.update_of_ne hne] using hHolds
    · cases List.mem_singleton.mp hNew
      simp [State.setWorker, State.setClient, ClientPc.ticket]

theorem Inv.getNumberWorker (hInv : Inv s h) (hStep : getNumberWorker s t = some (s', es)) :
    Inv s' (h ++ es) := by
  have hCounter := hInv.counter
  have hCounted := hCounter.counted t
  unfold TicketServer.getNumberWorker at hStep
  split at hStep
  · next hPc =>
    split at hStep
    · next hFree =>
      cases hStep
      rw [List.append_nil]
      rw [hFree] at hCounter
      exact hInv.workerMoves (hCounter.acquire t) fun _ => hInv.busy t (by rw [hPc]; trivial)
    · cases hStep
  · next hPc =>
    cases hStep
    rw [List.append_nil]
    rw [hPc] at hCounted
    exact hInv.workerMoves (hCounter.hold (by rw [hPc]; trivial) ⟨hCounted, hCounted⟩ hCounter.le)
      fun _ => hInv.busy t (by rw [hPc]; trivial)
  · next result hPc =>
    cases hStep
    rw [List.append_nil]
    rw [hPc] at hCounted
    exact hInv.workerMoves (hCounter.hold (by rw [hPc]; trivial)
      ⟨congrArg Nat.succ hCounted.1, hCounted.2⟩ (Nat.le_succ_of_le hCounter.le))
      fun _ => hInv.busy t (by rw [hPc]; trivial)
  · next result hPc =>
    cases hStep
    exact hInv.issue hPc
  · next hPc =>
    cases hStep
    rw [List.append_nil]
    exact hInv.workerMoves (hCounter.release hPc) nofun
  · cases hStep
  · cases hStep

/-! ## Steps of the dispatcher -/

omit [DecidableEq τ] in
/-- A step of the dispatcher that changes neither a client nor `client_number_service`. -/
theorem Inv.dispatcherMoves (hInv : Inv s h) {d : DispatcherPc τ} {sendMutex : Option (Thread τ)}
    (hCounter : Counter (issued h).length s.clientNum sendMutex s.worker d)
    (hOk : DispatcherOk s.clientNumberService s.client d) :
    Inv { s with sendMutex := sendMutex, dispatcher := d } h where
  counter := hCounter
  tickets := hInv.tickets
  busy := hInv.busy
  dispatched := hOk
  numbers := hInv.numbers
  services := hInv.services
  holders := hInv.holders

omit [DecidableEq τ] in
/-- Events that are neither tickets handed out nor tickets served. -/
theorem Inv.refuse (hInv : Inv s h) (t : τ) (n : Nat) : Inv s (h ++ [.refused t n]) := by
  have hIssued : issued (h ++ [.refused t n]) = issued h := by simp [issued]
  have hServed : served (h ++ [.refused t n]) = served h := by simp [served]
  refine ⟨?_, ?_, hInv.busy, hInv.dispatched, ?_, ?_, ?_⟩
  · rw [hIssued]; exact hInv.counter
  · rw [hIssued]; exact hInv.tickets
  · rw [hIssued]; exact hInv.numbers
  · rw [hServed]; exact hInv.services
  · intro u m hu
    exact hInv.holders u m (by simpa using hu)

omit [DecidableEq τ] in
/-- `client_number_service++` for the client whose ticket it equals. -/
theorem Inv.serve (hInv : Inv s h) {arg : Nat} {time : Option Int}
    (hd : s.dispatcher = .incService t arg time) :
    Inv { s with
        clientNumberService := s.clientNumberService + 1
        dispatcher := .lock t (time.map fun ms => ⟨1, some ms⟩) }
      (h ++ [if time.isSome then .served t arg else .clockFailed t arg]) := by
  have hDispatched := hInv.dispatched
  rw [hd] at hDispatched
  obtain ⟨hWait, rfl, hTime⟩ := hDispatched
  rw [if_pos hTime]
  have hIssued : issued (h ++ [.served t s.clientNumberService]) = issued h := by simp [issued]
  refine ⟨?_, ?_, hInv.busy, ⟨_, hWait, ?_⟩, ?_, ?_, ?_⟩
  · rw [hIssued]
    exact hInv.counter.dispatch nofun
  · rw [hIssued]
    exact hInv.tickets.serve hWait
  · cases time with
    | none => trivial
    | some ms => exact Nat.lt_succ_self _
  · rw [hIssued]
    exact hInv.numbers
  · rw [served_append, hInv.services, List.range_succ]
  · intro u m hu
    exact hInv.holders u m (by simpa using hu)

/-- The reply to `BAKERY_PROC`. -/
theorem Inv.reply (hInv : Inv s h) {arg : Nat} {result : BakeryResult}
    (hd : s.dispatcher = .sendreply t (some result)) (hWait : s.client t = .bakeryProcWait arg) :
    Inv { s.setClient t (receive arg result) with dispatcher := .unlock } h := by
  have hDispatched := hInv.dispatched
  rw [hd] at hDispatched
  obtain ⟨arg', hWait', hReply⟩ := hDispatched
  obtain rfl : arg' = arg := ClientPc.bakeryProcWait.inj (hWait'.symm.trans hWait)
  have hTicket : (receive arg' result).ticket = (s.client t).ticket := by
    rw [hWait, receive]
    split
    · rfl
    · rfl
  have hAsks : ∀ n, (receive arg' result).asks = some n → s.clientNumberService ≤ n := by
    intro n hn
    unfold receive at hn
    split at hn
    · next hRefused =>
      obtain rfl := Option.some.inj hn
      simpa [ReplyOk, hRefused] using hReply
    · cases hn
  exact ⟨hInv.counter.dispatch (fun _ => by rw [hd]; trivial), hInv.tickets.keep hTicket hAsks,
    hInv.busy_update (by rw [hWait]; nofun) _, trivial, hInv.numbers, hInv.services,
    hInv.holders_update hTicket⟩

theorem Inv.dispatcherStep (hInv : Inv s h) {clock : Option Int} (hClock : clock.isSome)
    (hStep : dispatcherStep s clock = some (s', es)) : Inv s' (h ++ es) := by
  have hDispatched := hInv.dispatched
  have hCounter := hInv.counter
  unfold TicketServer.dispatcherStep at hStep
  split at hStep
  · cases hStep
  · next t arg hd =>
    rw [hd] at hDispatched
    split at hStep
    · cases hStep
      exact (hInv.refuse t arg).dispatcherMoves ((hInv.refuse t arg).counter.dispatch nofun)
        ⟨arg, hDispatched.1, hDispatched.2⟩
    · next hEq =>
      cases hStep
      rw [List.append_nil]
      exact hInv.dispatcherMoves (hCounter.dispatch nofun) ⟨hDispatched.1, not_not.mp hEq⟩
  · next t arg hd =>
    cases hStep
    rw [List.append_nil]
    rw [hd] at hDispatched
    exact hInv.dispatcherMoves (hCounter.dispatch nofun) ⟨hDispatched.1, hDispatched.2, hClock⟩
  · next t arg time hd =>
    cases hStep
    exact hInv.serve hd
  · next t reply hd =>
    split at hStep
    · next hFree =>
      cases hStep
      rw [List.append_nil]
      rw [hd] at hDispatched
      rw [hFree] at hCounter
      obtain ⟨hNobody, -, hCount⟩ := hCounter.free
      exact hInv.dispatcherMoves ⟨fun u hu => absurd hu (hNobody u), fun _ => rfl,
        hCounter.counted, fun _ => hCount, hCounter.le⟩ hDispatched
    · cases hStep
  · next t reply hd =>
    split at hStep
    · next result arg hWait =>
      cases hStep
      rw [List.append_nil]
      exact hInv.reply hd hWait
    · cases hStep
      rw [List.append_nil]
      exact hInv.dispatcherMoves (hCounter.dispatch fun _ => by rw [hd]; trivial) trivial
  · next hd =>
    cases hStep
    rw [List.append_nil]
    have hOwner := hCounter.replying (by rw [hd]; trivial)
    have hOthers : ∀ t, s.sendMutex ≠ some (.worker t) := by
      rw [hOwner]
      nofun
    exact hInv.dispatcherMoves ⟨fun u hu => absurd (hCounter.inside u hu) (hOthers u), nofun,
      hCounter.counted, fun _ => hCounter.rest hOthers, hCounter.le⟩ trivial

theorem Inv.step (hInv : Inv s h) {a : Action τ} (hClock : a.clockSucceeds)
    (hStep : step s a = some (s', es)) : Inv s' (h ++ es) := by
  cases a with
  | client t => exact hInv.clientStep hStep
  | worker t => exact hInv.getNumberWorker hStep
  | take t => exact hInv.take hStep
  | dispatcher clock => exact hInv.dispatcherStep hClock hStep

/-! ## Whole runs -/

theorem step_service_le {a : Action τ} (hStep : step s a = some (s', es)) :
    s.clientNumberService ≤ s'.clientNumberService := by
  cases a with
  | client t =>
    simp only [step, clientStep] at hStep
    split at hStep <;> cases hStep <;> exact Nat.le_refl _
  | worker t =>
    simp only [step, getNumberWorker] at hStep
    split at hStep
    · split at hStep <;> cases hStep
      exact Nat.le_refl _
    all_goals cases hStep
    all_goals exact Nat.le_refl _
  | take t =>
    simp only [step, take] at hStep
    split at hStep
    · split at hStep <;> cases hStep <;> exact Nat.le_refl _
    · cases hStep
  | dispatcher clock =>
    simp only [step, dispatcherStep] at hStep
    split at hStep
    · cases hStep
    · split at hStep <;> cases hStep <;> exact Nat.le_refl _
    · cases hStep
      exact Nat.le_refl _
    · cases hStep
      exact Nat.le_succ _
    · split at hStep <;> cases hStep
      exact Nat.le_refl _
    · split at hStep <;> cases hStep <;> exact Nat.le_refl _
    · cases hStep
      exact Nat.le_refl _

/-- Only the dispatcher refuses, and only tickets that are not yet due. -/
theorem Inv.refused_early {a : Action τ} (hInv : Inv s h)
    (hStep : TicketServer.step s a = some (s', es))
    {n : Nat} (hRefused : .refused t n ∈ es) :
    (s.client t).ticket = some n ∧ s.clientNumberService < n := by
  cases a with
  | client u =>
    simp only [TicketServer.step, TicketServer.clientStep] at hStep
    split at hStep <;> cases hStep <;> cases hRefused
  | worker u =>
    simp only [TicketServer.step, TicketServer.getNumberWorker] at hStep
    split at hStep
    · split at hStep <;> cases hStep
      cases hRefused
    all_goals cases hStep
    all_goals simp at hRefused
  | take u =>
    simp only [TicketServer.step, TicketServer.take] at hStep
    split at hStep
    · split at hStep <;> cases hStep <;> cases hRefused
    · cases hStep
  | dispatcher clock =>
    have hDispatched := hInv.dispatched
    simp only [TicketServer.step, TicketServer.dispatcherStep] at hStep
    split at hStep
    · cases hStep
    · next u arg hd =>
      rw [hd] at hDispatched
      split at hStep
      · next hne =>
        cases hStep
        obtain ⟨rfl, rfl⟩ := Event.refused.inj (List.mem_singleton.mp hRefused)
        refine ⟨?_, lt_of_le_of_ne hDispatched.2 (Ne.symm hne)⟩
        rw [hDispatched.1]
        rfl
      · cases hStep
        cases hRefused
    · cases hStep
      cases hRefused
    · cases hStep
      simp only [List.mem_singleton] at hRefused
      split at hRefused <;> cases hRefused
    · split at hStep <;> cases hStep
      cases hRefused
    · split at hStep <;> cases hStep <;> cases hRefused
    · cases hStep
      cases hRefused

theorem serve_inv {sched : List (Action τ)} (hClock : ∀ a ∈ sched, a.clockSucceeds) :
    Inv (serve sched).1 (serve sched).2 := by
  refine run_invariant_along inv_init ?_ (along_of_forall step init hClock)
  exact fun s h a s' es hInv hSucceeds hStep => hInv.step hSucceeds hStep

/-- From a state on in which the ticket of `t` is due, no call of `t` is refused. -/
theorem Inv.never_refused (hInv : Inv s h) {m : Nat} (hHolder : .issued t m ∈ h)
    (hDue : m ≤ s.clientNumberService) {more : List (Action τ)}
    (hClock : ∀ a ∈ more, a.clockSucceeds) (n : Nat) :
    .refused t n ∉ (resume TicketServer.step (s, []) more).2 := by
  suffices hAll : Inv (resume TicketServer.step (s, []) more).1
      (h ++ (resume TicketServer.step (s, []) more).2) ∧
      m ≤ (resume TicketServer.step (s, []) more).1.clientNumberService ∧
      .refused t n ∉ (resume TicketServer.step (s, []) more).2 from hAll.2.2
  refine resume_invariant_along (x := (s, []))
    (P := fun s' h' => Inv s' (h ++ h') ∧ m ≤ s'.clientNumberService ∧ .refused t n ∉ h')
    ?_ ⟨by rwa [List.append_nil], hDue, List.not_mem_nil⟩
    (along_of_forall TicketServer.step s hClock)
  rintro s₁ h₁ a s₂ es ⟨hInv₁, hDue₁, hNever⟩ hSucceeds hStep
  refine ⟨?_, Nat.le_trans hDue₁ (step_service_le hStep), ?_⟩
  · rw [← List.append_assoc]
    exact hInv₁.step hSucceeds hStep
  · intro hRefused
    rcases List.mem_append.mp hRefused with hOld | hNew
    · exact hNever hOld
    · obtain ⟨hTicket, hEarly⟩ := hInv₁.refused_early hStep hNew
      have hSame := hInv₁.holders t m (List.mem_append_left h₁ hHolder)
      obtain rfl : m = n := Option.some.inj (hSame.symm.trans hTicket)
      omega

/-! ## The call of the holder -/

def Action.dispatches : Action τ → Bool
  | .dispatcher _ => true
  | _ => false

/-- The dispatcher is executing a call of `t` with the ticket `n`, which it counts as served after
so many statements. -/
inductive Serving (t : τ) (n : Nat) : DispatcherPc τ → Nat → Prop where
  | compare : Serving t n (.compare t n) 3
  | clock : Serving t n (.clock t n) 2
  | incService (ms : Int) : Serving t n (.incService t n (some ms)) 1

omit [DecidableEq τ] in
theorem Serving.pos {n k : Nat} {d : DispatcherPc τ} (hServing : Serving t n d k) : 0 < k := by
  cases hServing <;> decide

omit [DecidableEq τ] in
theorem Serving.not_svcRun {n k : Nat} {d : DispatcherPc τ} (hServing : Serving t n d k) :
    d ≠ .svcRun := by
  cases hServing <;> simp

/-- The statements of the dispatcher up to there do not wait for anybody. -/
theorem Serving.dispatcherStep {k : Nat} {clock : Option Int}
    (hServing : Serving t s.clientNumberService s.dispatcher k) (hClock : clock.isSome) :
    ∃ s' es, TicketServer.dispatcherStep s clock = some (s', es) ∧
      (.served t s.clientNumberService ∈ es ∨
        s'.clientNumberService = s.clientNumberService ∧
          Serving t s.clientNumberService s'.dispatcher (k - 1)) := by
  generalize hPc : s.dispatcher = d at hServing
  cases hServing with
  | compare =>
    refine ⟨{ s with dispatcher := .clock t s.clientNumberService }, [], ?_, Or.inr ⟨rfl, .clock⟩⟩
    simp [TicketServer.dispatcherStep, hPc]
  | clock =>
    obtain ⟨ms, rfl⟩ := Option.isSome_iff_exists.mp hClock
    refine ⟨{ s with dispatcher := .incService t s.clientNumberService (some ms) }, [], ?_,
      Or.inr ⟨rfl, .incService ms⟩⟩
    simp [TicketServer.dispatcherStep, hPc]
  | incService ms =>
    refine ⟨_, _, by rw [TicketServer.dispatcherStep, hPc], Or.inl ?_⟩
    exact List.mem_singleton.mpr rfl

/-- Nobody else disturbs them. -/
theorem Serving.others {k : Nat} {a : Action τ}
    (hServing : Serving t s.clientNumberService s.dispatcher k) (hOther : a.dispatches = false)
    (hStep : step s a = some (s', es)) :
    s'.clientNumberService = s.clientNumberService ∧
      Serving t s.clientNumberService s'.dispatcher k := by
  cases a with
  | dispatcher clock => cases hOther
  | client u =>
    simp only [step, clientStep] at hStep
    split at hStep <;> cases hStep <;> exact ⟨rfl, hServing⟩
  | worker u =>
    simp only [step, getNumberWorker] at hStep
    split at hStep
    · split at hStep <;> cases hStep
      exact ⟨rfl, hServing⟩
    all_goals cases hStep
    all_goals exact ⟨rfl, hServing⟩
  | take u =>
    simp only [step, take, if_neg hServing.not_svcRun] at hStep
    cases hStep

/-- Such a call is served as soon as the dispatcher has had its turns. -/
theorem Serving.served {k : Nat} (hServing : Serving t s.clientNumberService s.dispatcher k)
    (h : List (Event τ)) {more : List (Action τ)} (hClock : ∀ a ∈ more, a.clockSucceeds)
    (hTurns : k ≤ more.countP Action.dispatches) :
    .served t s.clientNumberService ∈ (resume step (s, h) more).2 := by
  induction more generalizing s h k with
  | nil =>
    exact absurd hTurns (Nat.not_le.mpr hServing.pos)
  | cons a rest ih =>
    have hRest : ∀ b ∈ rest, b.clockSucceeds := fun b hb => hClock b (List.mem_cons_of_mem a hb)
    show _ ∈ (resume step (advance step (s, h) a) rest).2
    cases hOther : a.dispatches with
    | false =>
      have hCount : k ≤ rest.countP Action.dispatches := by
        rwa [List.countP_cons_of_neg (by simp [hOther])] at hTurns
      unfold advance
      split
      · exact ih hServing h hRest hCount
      · next s' es hEnabled =>
        obtain ⟨hSame, hNext⟩ := hServing.others hOther hEnabled
        rw [← hSame] at hNext ⊢
        exact ih hNext _ hRest hCount
    | true =>
      obtain ⟨clock, rfl⟩ : ∃ clock, a = .dispatcher clock := by
        cases a with
        | dispatcher clock => exact ⟨clock, rfl⟩
        | client u | worker u | take u => cases hOther
      obtain ⟨s', es, hStep, hServed⟩ :=
        hServing.dispatcherStep (hClock (.dispatcher clock) List.mem_cons_self)
      have hEnabled : step s (.dispatcher clock) = some (s', es) := hStep
      rw [advance_eq_some (x := (s, h)) hEnabled]
      rcases hServed with hNow | ⟨hSame, hNext⟩
      · exact (resume_history step _ rest).subset (List.mem_append_right h hNow)
      · rw [← hSame] at hNext ⊢
        refine ih hNext _ hRest ?_
        rw [List.countP_cons_of_pos hOther] at hTurns
        omega

/-- Tickets are handed out and served in the order 0, 1, 2, ..., each once, no more are
served than handed out, and the smallest ticket that waits is the one that is due: no
further call of its holder is refused, and the next one that the dispatcher takes is served, by
its third statement. -/
theorem tickets_in_order {sched : List (Action τ)} (hClock : ∀ a ∈ sched, a.clockSucceeds) :
    let s := (serve sched).1
    let h := (serve sched).2
    issued h = List.range (issued h).length ∧ served h = List.range (served h).length ∧
      s.clientNumberService = (served h).length ∧ s.clientNumberService ≤ s.clientNum ∧
      (∀ n, IsLeast {n | n ∈ issued h ∧ n ∉ served h} n → n = s.clientNumberService) ∧
      ∀ t, .issued t s.clientNumberService ∈ h → ∀ more, (∀ a ∈ more, a.clockSucceeds) →
        (∀ n, .refused t n ∉ (resume step (s, []) more).2) ∧
        (∀ arg, s.client t = .bakeryProcSent arg → s.dispatcher = .svcRun →
          3 ≤ more.countP Action.dispatches →
            .served t s.clientNumberService ∈ (resume step (s, []) (.take t :: more)).2) := by
  intro s h
  have hInv : Inv s h := serve_inv hClock
  have hLength : (served h).length = s.clientNumberService := by
    rw [hInv.services, List.length_range]
  refine ⟨hInv.numbers, ?_, hLength.symm, ?_, ?_, ?_⟩
  · rw [hLength, ← hInv.services]
  · exact Nat.le_trans hInv.tickets.behind hInv.counter.le
  · rintro n ⟨⟨hIssued, hWaits⟩, hLeast⟩
    rw [hInv.services, List.mem_range, Nat.not_lt] at hWaits
    rw [hInv.numbers, List.mem_range] at hIssued
    refine Nat.le_antisymm (hLeast ⟨?_, ?_⟩) hWaits
    · rw [hInv.numbers, List.mem_range]
      omega
    · rw [hInv.services, List.mem_range]
      omega
  · intro t hHolder more hMore
    refine ⟨hInv.never_refused hHolder (Nat.le_refl _) hMore, ?_⟩
    intro arg hSent hIdle hTurns
    have hTicket := hInv.holders t _ hHolder
    rw [hSent] at hTicket
    obtain rfl : arg = s.clientNumberService := Option.some.inj hTicket
    have hTake : step s (.take t) = some ({ s.setClient t (.bakeryProcWait s.clientNumberService)
        with dispatcher := .compare t s.clientNumberService }, []) := by
      simp only [step, take, if_pos hIdle, hSent]
    show _ ∈ (resume step (advance step (s, []) (.take t)) more).2
    rw [advance_eq_some (x := (s, [])) hTake]
    exact Serving.compare.served _ hMore hTurns

/-- Two clients; the second one gets its ticket first and is refused once. -/
def twoClients : List (Action Bool) :=
  [.client true, .take true, .client false, .take false, .worker false, .worker false,
    .worker false, .worker false, .worker false, .worker true, .worker true, .worker true,
    .worker true, .worker true, .client true, .take true, .dispatcher (some 7),
    .dispatcher (some 7), .dispatcher (some 7), .dispatcher (some 7)]

/-- The first ticket is served, and the second client asks again. -/
def oneServed : List (Action Bool) :=
  twoClients ++ [.client false, .take false] ++ List.replicate 6 (.dispatcher (some 8)) ++
    [.client true]

theorem tickets_in_order_two :
    issued (serve oneServed).2 = [0, 1] ∧ served (serve oneServed).2 = [0] ∧
      .served true 1 ∈ (resume step ((serve oneServed).1, [])
        [.take true, .dispatcher (some 9), .client false, .dispatcher (some 9),
          .dispatcher (some 9)]).2 := by
  have hClock : ∀ a ∈ oneServed, a.clockSucceeds := by decide
  obtain ⟨-, -, -, -, -, hHolder⟩ := tickets_in_order hClock
  obtain ⟨-, hServed⟩ := hHolder true (by decide) [.dispatcher (some 9), .client false,
    .dispatcher (some 9), .dispatcher (some 9)] (by decide)
  exact ⟨by decide, by decide, hServed 1 (by decide) (by decide) (by decide)⟩

end OsLabs.Rpc.TicketServer
