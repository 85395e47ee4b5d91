import OsLabs.Rpc.TicketServer

/-!
# Tickets and the mutex of the ticket server

Who holds a ticket and who is about to present one (`Tickets`), and how far the worker is that
holds `send_mutex` (`Counter`).
-/

namespace OsLabs.Rpc.TicketServer

open Runs

variable {τ : Type}

def ClientPc.ticket : ClientPc → Option Nat
  | .bakeryProc arg | .bakeryProcSent arg | .bakeryProcWait arg | .served arg => some arg
  | _ => none

/-- The client is about to present its ticket. -/
def ClientPc.asks : ClientPc → Option Nat
  | .bakeryProc arg | .bakeryProcSent arg => some arg
  | _ => none

/-- Between `lock` and `unlock`. -/
def WorkerPc.Inside : WorkerPc → Prop
  | .readNum | .incNum _ | .sendreply _ | .unlock => True
  | _ => False

/-- The client of the worker has not got its number yet. -/
def WorkerPc.Busy : WorkerPc → Prop
  | .lock | .readNum | .incNum _ | .sendreply _ => True
  | _ => False

def DispatcherPc.Inside : DispatcherPc τ → Prop
  | .sendreply _ _ | .unlock => True
  | _ => False

/-- How `client_num` and the number `count` of tickets handed out stand to each other at
each statement of a worker. -/
def WorkerOk (count clientNum : Nat) : WorkerPc → Prop
  | .readNum | .unlock => clientNum = count
  | .incNum result => clientNum = count ∧ result = count
  | .sendreply result => clientNum = count + 1 ∧ result = count
  | _ => True

/-- A reply for the holder of ticket `arg` says whether the ticket is behind `service`. -/
def ReplyOk (service arg : Nat) : Option BakeryResult → Prop
  | none => True
  | some result => if result.isRecievedTime = 0 then service ≤ arg else arg < service

def DispatcherOk (service : Nat) (client : τ → ClientPc) : DispatcherPc τ → Prop
  | .svcRun | .unlock => True
  | .compare t arg => client t = .bakeryProcWait arg ∧ service ≤ arg
  | .clock t arg => client t = .bakeryProcWait arg ∧ arg = service
  | .incService t arg time => client t = .bakeryProcWait arg ∧ arg = service ∧ time.isSome
  | .lock t reply | .sendreply t reply =>
    ∃ arg, client t = .bakeryProcWait arg ∧ ReplyOk service arg reply

/-- The tickets of the clients: `count` many, all different, none that is still to be
presented below `service`. -/
structure Tickets (count service : Nat) (client : τ → ClientPc) : Prop where
  bound : ∀ t n, (client t).ticket = some n → n < count
  distinct : ∀ t u n, (client t).ticket = some n → (client u).ticket = some n → t = u
  ahead : ∀ t n, (client t).asks = some n → service ≤ n
  behind : service ≤ count

/-- Who holds `send_mutex`, and what that means for `client_num`. -/
structure Counter (count clientNum : Nat) (sendMutex : Option (Thread τ))
    (worker : τ → WorkerPc) (dispatcher : DispatcherPc τ) : Prop where
  inside : ∀ t, (worker t).Inside → sendMutex = some (.worker t)
  replying : dispatcher.Inside → sendMutex = some .dispatcher
  counted : ∀ t, WorkerOk count clientNum (worker t)
  rest : (∀ t, sendMutex ≠ some (.worker t)) → clientNum = count
  le : count ≤ clientNum

/-! ## The clients -/

variable [DecidableEq τ] {count service : Nat} {client : τ → ClientPc}

/-- A client that neither gets nor loses a ticket. -/
theorem Tickets.keep (h : Tickets count service client) {t : τ} {pc : ClientPc}
    (hTicket : pc.ticket = (client t).ticket) (hAsks : ∀ n, pc.asks = some n → service ≤ n) :
    Tickets count service (Function.update client t pc) := by
  have hSame (u : τ) : (Function.update client t pc u).ticket = (client u).ticket := by
    rw [Function.update_apply]
    split
    · next hu => rw [hu, hTicket]
    · rfl
  refine ⟨?_, ?_, ?_, h.behind⟩
  · intro u n hu
    rw [hSame] at hu
    exact h.bound u n hu
  · intro u v n hu hv
    rw [hSame] at hu hv
    exact h.distinct u v n hu hv
  · exact (Function.forall_update_iff client fun _ pc => ∀ n, pc.asks = some n → service ≤ n).mpr
      ⟨hAsks, fun u _ => h.ahead u⟩

/-- The next ticket goes to a client that has none. -/
theorem Tickets.issue (h : Tickets count service client) (t : τ) :
    Tickets (count + 1) service (Function.update client t (.bakeryProc count)) := by
  have hCases {u : τ} {n : Nat}
      (hn : (Function.update client t (.bakeryProc count) u).ticket = some n) :
      (u = t ∧ n = count) ∨ (client u).ticket = some n := by
    rw [Function.update_apply] at hn
    split at hn
    · next hu => exact Or.inl ⟨hu, (Option.some.inj hn).symm⟩
    · exact Or.inr hn
  refine ⟨?_, ?_, ?_, Nat.le_succ_of_le h.behind⟩
  · intro u n hn
    rcases hCases hn with ⟨-, rfl⟩ | hOld
    · exact Nat.lt_succ_self n
    · exact Nat.lt_succ_of_lt (h.bound u n hOld)
  · intro u v n hu hv
    rcases hCases hu with ⟨rfl, rfl⟩ | hOld
    · rcases hCases hv with ⟨rfl, -⟩ | hOld'
      · rfl
      · exact absurd (h.bound v n hOld') (Nat.lt_irrefl n)
    · rcases hCases hv with ⟨-, rfl⟩ | hOld'
      · exact absurd (h.bound u n hOld) (Nat.lt_irrefl n)
      · exact h.distinct u v n hOld hOld'
  · intro u n hu
    rw [Function.update_apply] at hu
    split at hu
    · obtain rfl := Option.some.inj hu
      exact h.behind
    · exact h.ahead u n hu

omit [DecidableEq τ] in
/-- The ticket equal to `service` is presented by its only holder and served. -/
theorem Tickets.serve (h : Tickets count service client) {t : τ}
    (ht : client t = .bakeryProcWait service) : Tickets count (service + 1) client := by
  have hTicket : (client t).ticket = some service := by rw [ht]; rfl
  refine ⟨h.bound, h.distinct, ?_, h.bound t service hTicket⟩
  intro u n hu
  have hAhead := h.ahead u n hu
  have hHolds : (client u).ticket = some n := by
    cases hPc : client u with
    | bakeryProc arg | bakeryProcSent arg => rwa [hPc] at hu
    | getNumber | getNumberSent | getNumberWait | bakeryProcWait arg | served arg =>
      rw [hPc] at hu
      cases hu
  have hOther : n ≠ service := by
    rintro rfl
    obtain rfl := h.distinct t u n hTicket hHolds
    rw [ht] at hu
    cases hu
  omega

omit [DecidableEq τ] in
theorem workerOk_outside {pc : WorkerPc} (h : ¬ pc.Inside) (clientNum : Nat) :
    WorkerOk count clientNum pc := by
  cases pc with
  | absent | lock | ended => trivial
  | readNum | incNum result | sendreply result | unlock => exact absurd trivial h

/-- The dispatcher does not notice a client that it is not serving. -/
theorem DispatcherOk.update {d : DispatcherPc τ} (h : DispatcherOk service client d) {t : τ}
    (ht : ∀ arg, client t ≠ .bakeryProcWait arg) (pc : ClientPc) :
    DispatcherOk service (Function.update client t pc) d := by
  have hOther {u : τ} {arg : Nat} (hu : client u = .bakeryProcWait arg) :
      Function.update client t pc u = .bakeryProcWait arg := by
    rw [Function.update_of_ne, hu]
    rintro rfl
    exact ht arg hu
  cases d with
  | svcRun | unlock => trivial
  | compare u arg | clock u arg | incService u arg time => exact ⟨hOther h.1, h.2⟩
  | lock u reply | sendreply u reply =>
    obtain ⟨arg, hWait, hReply⟩ := h
    exact ⟨arg, hOther hWait, hReply⟩

/-! ## The mutex -/

variable {count' clientNum clientNum' : Nat} {sendMutex : Option (Thread τ)}
  {worker : τ → WorkerPc} {dispatcher : DispatcherPc τ} {pc : WorkerPc}

/-- A worker that is outside the mutex afterwards. -/
theorem Counter.outside (h : Counter count clientNum sendMutex worker dispatcher) {t : τ}
    (hInside : ¬ pc.Inside) (hOk : WorkerOk count clientNum pc) :
    Counter count clientNum sendMutex (Function.update worker t pc) dispatcher := by
  refine ⟨?_, h.replying, ?_, h.rest, h.le⟩
  · intro u hu
    rcases eq_or_ne u t with rfl | hne
    · rw [Function.update_self] at hu
      exact absurd hu hInside
    · rw [Function.update_of_ne hne] at hu
      exact h.inside u hu
  · intro u
    rcases eq_or_ne u t with rfl | hne
    · rwa [Function.update_self]
    · rw [Function.update_of_ne hne]
      exact h.counted u

omit [DecidableEq τ] in
/-- The holder of the mutex is the only worker inside. -/
theorem Counter.alone (h : Counter count clientNum sendMutex worker dispatcher) {t u : τ}
    (ht : (worker t).Inside) (hu : u ≠ t) : ¬ (worker u).Inside := by
  intro hInside
  have hBoth := (h.inside u hInside).symm.trans (h.inside t ht)
  simp only [Option.some.injEq, Thread.worker.injEq] at hBoth
  exact hu hBoth

/-- The worker that holds the mutex goes on. -/
theorem Counter.hold (h : Counter count clientNum sendMutex worker dispatcher) {t : τ}
    (ht : (worker t).Inside) (hOk : WorkerOk count' clientNum' pc) (hLe : count' ≤ clientNum') :
    Counter count' clientNum' sendMutex (Function.update worker t pc) dispatcher := by
  have hOwner := h.inside t ht
  refine ⟨?_, h.replying, ?_, fun hNone => absurd hOwner (hNone t), hLe⟩
  · intro u hu
    rcases eq_or_ne u t with rfl | hne
    · exact hOwner
    · rw [Function.update_of_ne hne] at hu
      exact absurd hu (h.alone ht hne)
  · intro u
    rcases eq_or_ne u t with rfl | hne
    · rwa [Function.update_self]
    · rw [Function.update_of_ne hne]
      exact workerOk_outside (h.alone ht hne) _

omit [DecidableEq τ] in
theorem Counter.free (h : Counter count clientNum none worker dispatcher) :
    (∀ t, ¬ (worker t).Inside) ∧ ¬ dispatcher.Inside ∧ clientNum = count := by
  refine ⟨fun t ht => ?_, fun hReplying => ?_, h.rest fun t => nofun⟩
  · cases h.inside t ht
  · cases h.replying hReplying

theorem Counter.acquire (h : Counter count clientNum none worker dispatcher) (t : τ) :
    Counter count clientNum (some (.worker t)) (Function.update worker t .readNum)
      dispatcher := by
  obtain ⟨hNobody, hIdle, hCount⟩ := h.free
  refine ⟨?_, fun hReplying => absurd hReplying hIdle, ?_, fun hNone => absurd rfl (hNone t),
    h.le⟩
  · intro u hu
    rcases eq_or_ne u t with rfl | hne
    · rfl
    · rw [Function.update_of_ne hne] at hu
      exact absurd hu (hNobody u)
  · intro u
    rcases eq_or_ne u t with rfl | hne
    · rwa [Function.update_self]
    · rw [Function.update_of_ne hne]
      exact h.counted u

theorem Counter.release (h : Counter count clientNum sendMutex worker dispatcher) {t : τ}
    (ht : worker t = .unlock) :
    Counter count clientNum none (Function.update worker t .ended) dispatcher := by
  have hInside : (worker t).Inside := by rw [ht]; trivial
  have hOwner := h.inside t hInside
  have hCount : WorkerOk count clientNum .unlock := ht ▸ h.counted t
  refine ⟨?_, ?_, ?_, fun _ => hCount, h.le⟩
  · intro u hu
    rcases eq_or_ne u t with rfl | hne
    · rw [Function.update_self] at hu
      cases hu
    · rw [Function.update_of_ne hne] at hu
      exact absurd hu (h.alone hInside hne)
  · intro hReplying
    have hBoth := hOwner.symm.trans (h.replying hReplying)
    cases hBoth
  · intro u
    rcases eq_or_ne u t with rfl | hne
    · rw [Function.update_self]
      trivial
    · rw [Function.update_of_ne hne]
      exact h.counted u

omit [DecidableEq τ] in
theorem Counter.dispatch (h : Counter count clientNum sendMutex worker dispatcher)
    {d : DispatcherPc τ} (hd : d.Inside → dispatcher.Inside) :
    Counter count clientNum sendMutex worker d :=
  ⟨h.inside, fun hInside => h.replying (hd hInside), h.counted, h.rest, h.le⟩

end OsLabs.Rpc.TicketServer
