import OsLabs.Sockets.ThreadsClients

/-!
# How many clients the threaded server can serve

The clients of `server_1.c` wait in its `semop` calls instead of being refused. Five clients have
at most five letters each in the ring when they wait for a place, so one place is free; a client
that waits for a letter has put six in. With six clients the ring can fill while each of them is
in its first `produce` commands, and then nobody ever consumes.

Every step brings its client closer to its end, so it is enough to show that some step is
enabled as long as a client has commands left.
-/

namespace OsLabs.Sockets.ThreadsClients

open Memory Runs SysV RwLock Client ServerThreads
open ServerEpoll (stream sent)

variable {τ : Type} [Fintype τ]

/-- The semaphores stand for a lock that guards the ring, `exit` has not been called, and `SEM_FULL`
counts the letters of the clients. -/
structure Inv (c : Conf τ Shared Process) : Prop where
  lock : ∃ l acc, Locked c.shared.sems l ∧
    Guarded Process.role Process.Asserts AtRest l (dataOf c.shared acc) c.procs
  running : c.shared.exited = false
  valid : ∀ t, (c.procs t).Valid
  full : c.shared.sems .full = totalRank Process.letters c.procs

theorem inv_init (locals : τ → Nat → Locals) : Inv (init locals) := by
  have hLocked : Locked initSems ⟨0, 0⟩ := ⟨by decide, rfl, rfl, rfl⟩
  refine ⟨⟨⟨0, 0⟩, [], hLocked, owned_init fun t => rfl, fun t => ?_, fun _ => ?_⟩, rfl, ?_, ?_⟩
  · exact asserts_out _ _ rfl
  · exact ⟨rfl, rfl, rfl, .empty _ _⟩
  · exact fun t => ⟨nofun, fun _ h => absurd h List.not_mem_nil, Nat.zero_le _⟩
  · show 0 = ∑ t : τ, surplus 0
    simp [surplus]

/-! ## Progress -/

/-- The client has neither a command left nor a reply to wait for. -/
def Process.Done (p : Process) : Prop := p.iter = 40005 ∧ p.conn = none

/-- The client can neither connect nor be served. -/
def Blocked (sh : Shared) (p : Process) : Prop :=
  step sh p .connect = none ∧ step sh p .work = none

/-- Some client has commands left, and no client can connect or be served. -/
def Deadlocked (c : Conf τ Shared Process) : Prop :=
  (∃ t, ¬ (c.procs t).Done) ∧ ∀ t, Blocked c.shared (c.procs t)

theorem Blocked.finish {sh : Shared} {p : Process} (h : Blocked sh p) (earlier : List Conn) :
    Blocked sh { p with earlier := earlier } := by
  obtain ⟨hConnect, hWork⟩ := h
  constructor
  · simp only [step] at hConnect ⊢
    split at hConnect
    · cases hConnect
    · rfl
  · simp only [step] at hWork ⊢
    split at hWork
    · split at hWork
      · rfl
      · split at hWork <;> cases hWork
    · rfl

theorem connect_ne_none {sh : Shared} {p : Process} (hConn : p.conn = none)
    (hLess : p.iter < 40005) : step sh p .connect ≠ none := by
  obtain ⟨cmd, hCommand⟩ := command_isSome hLess
  simp [step, hConn, hCommand]

theorem work_eq_none {sh : Shared} {p : Process} {conn : Conn} (hValid : p.Valid)
    (hConn : p.conn = some conn) (hIdle : step sh p .work = none) : conn.step sh = none := by
  obtain ⟨cmd, hCommand, -⟩ := hValid.serving conn hConn
  simp only [step, hConn, hCommand] at hIdle
  split at hIdle
  · assumption
  · split at hIdle <;> cases hIdle

theorem Inv.vacant_of_none {c : Conf τ Shared Process} (hInv : Inv c)
    (hNone : ∀ t, (c.procs t).role ≠ .writing) :
    Locked c.shared.sems ⟨0, 0⟩ ∧ ∀ t, (c.procs t).role = .out := by
  obtain ⟨l, acc, hLock, hGuarded⟩ := hInv.lock
  obtain ⟨rfl, hOut⟩ := hLock.vacant_of_owned hGuarded.owned hNone
  exact ⟨hLock, hOut⟩

/-- A client whose worker is inside can be served. -/
theorem Inv.work_inside {c : Conf τ Shared Process} (hInv : Inv c) {t : τ}
    (hWriting : (c.procs t).role = .writing) :
    ThreadsClients.step c.shared (c.procs t) .work ≠ none := by
  intro hIdle
  obtain ⟨l, acc, hLock, hGuarded⟩ := hInv.lock
  obtain rfl := hLock.occupied (hGuarded.owned.one_le_writers hWriting)
  cases hConn : (c.procs t).conn with
  | none =>
    rw [Process.role, hConn] at hWriting
    cases hWriting
  | some conn =>
    rw [Process.role, hConn] at hWriting
    obtain ⟨cmd, -, hServing⟩ := (hInv.valid t).serving conn hConn
    exact serving_step_ne_none hServing (processClient_inside hLock hWriting hInv.running)
      (work_eq_none (hInv.valid t) hConn hIdle)

/-- Where no client can be served, nobody is inside. -/
theorem Inv.vacant {c : Conf τ Shared Process} (hInv : Inv c)
    (hIdle : ∀ t, ThreadsClients.step c.shared (c.procs t) .work = none) :
    Locked c.shared.sems ⟨0, 0⟩ ∧ ∀ t, (c.procs t).role = .out := by
  exact hInv.vacant_of_none fun t hWriting => hInv.work_inside hWriting (hIdle t)

/-- What a client can be doing where nobody can be served. -/
inductive Stuck (sems : SemSet Sem) (p : Process) : Prop where
  | done (h : p.Done)
  | produce (hIter : command p.iter = some .produce) (hLetters : p.letters = surplus p.iter)
      (hEmpty : sems .empty = 0)
  | consume (hIter : command p.iter = some .consume) (hLetters : p.letters = 6)
      (hFull : sems .full = 0)

theorem Inv.stuck {c : Conf τ Shared Process} (hInv : Inv c) (hLock : Locked c.shared.sems ⟨0, 0⟩)
    {t : τ} (hOut : (c.procs t).role = .out)
    (hConnect : ThreadsClients.step c.shared (c.procs t) .connect = none)
    (hWork : ThreadsClients.step c.shared (c.procs t) .work = none) :
    Stuck c.shared.sems (c.procs t) := by
  have hValid := hInv.valid t
  cases hConn : (c.procs t).conn with
  | none =>
    by_cases hLess : (c.procs t).iter < 40005
    · exact absurd hConnect (connect_ne_none hConn hLess)
    · exact .done ⟨Nat.le_antisymm hValid.bound (Nat.not_lt.mp hLess), hConn⟩
  | some conn =>
    obtain ⟨cmd, hCommand, hServing⟩ := hValid.serving conn hConn
    rw [Process.role, hConn] at hOut
    have hStop : ¬ ∀ msg, processClient c.shared conn.worker msg ≠ none := fun hRun =>
      serving_step_ne_none hServing hRun (work_eq_none hValid hConn hWork)
    obtain ⟨msg, hNone⟩ := not_forall_not.mp hStop
    obtain ⟨⟨pc, req, status⟩, inbox⟩ := conn
    rcases processClient_vacant hLock hInv.running hOut hNone with
      hEnd | ⟨hPc, hEmpty⟩ | ⟨hPc, hFull⟩
    · obtain rfl : pc = .finished := hEnd
      cases hServing
    · obtain rfl : pc = .startProduce true := hPc
      obtain ⟨-, rfl⟩ := hServing
      exact .produce hCommand (by simp [Process.letters, hConn, counted]) hEmpty
    · obtain rfl : pc = .startConsume true := hPc
      obtain ⟨-, rfl⟩ := hServing
      refine .consume hCommand ?_ hFull
      simp [Process.letters, hConn, counted, (surplus_consume hCommand).2]

/-- Five clients never all wait. -/
theorem Inv.not_deadlocked {c : Conf τ Shared Process} (hInv : Inv c)
    (hFew : Fintype.card τ ≤ 5) : ¬ Deadlocked c := by
  rintro ⟨⟨t, hLeft⟩, hIdle⟩
  obtain ⟨hLock, hOut⟩ := hInv.vacant fun u => (hIdle u).2
  have hStuck (u : τ) : Stuck c.shared.sems (c.procs u) :=
    hInv.stuck hLock (hOut u) (hIdle u).1 (hIdle u).2
  have hTotal := hLock.total
  have hFull := hInv.full
  dsimp only at hTotal
  -- nobody waits for a letter, since who does has put six in
  have hNoConsumer (u : τ) : (c.procs u).letters = 6 → c.shared.sems .full = 0 → False := by
    intro hSix hNone
    have hLe := le_totalRank Process.letters c.procs u
    omega
  have hFive (u : τ) : (c.procs u).letters ≤ 5 := by
    cases hStuck u with
    | done h =>
      rw [Process.letters, h.1, h.2]
      decide
    | produce hIter hLetters hEmpty =>
      rw [hLetters]
      exact (surplus_produce hIter).2
    | consume hIter hLetters hNone => exact absurd hNone (hNoConsumer u hLetters)
  have hLe := totalRank_le hFive
  cases hStuck t with
  | done h => exact hLeft h
  | produce hIter hLetters hEmpty =>
    simp only [ARR_SIZE] at hTotal
    omega
  | consume hIter hLetters hNone => exact hNoConsumer t hLetters hNone

/-! ## Six clients -/

/-- Up to the `semop` that enters the ring as a producer. -/
def beforeEntry : Pc → Bool
  | .recv | .dispatch | .startProduce _ => true
  | _ => false

/-- A client that has given at most five commands, and has not entered the ring for its sixth. -/
def Process.Early (p : Process) : Prop :=
  p.iter < 5 ∨ p.iter = 5 ∧ ∀ conn, p.conn = some conn → beforeEntry conn.worker.pc = true

theorem work_cases {sh sh' : Shared} {p p' : Process} {es : List Report}
    (hStep : step sh p .work = some (sh', p', es)) :
    ∃ conn cmd conn' own, p.conn = some conn ∧ command p.iter = some cmd ∧
      conn.step sh = some (sh', conn', own) ∧
      (p' = { p with conn := some conn' } ∨ p' = p.receive cmd conn' ∧ sent own ≠ []) := by
  simp only [step] at hStep
  split at hStep
  · next conn cmd hConn hCommand =>
    split at hStep
    · cases hStep
    · next conn' own hMove =>
      refine ⟨conn, cmd, conn', own, hConn, hCommand, ?_⟩
      split at hStep
      · cases hStep
        exact ⟨hMove, Or.inl rfl⟩
      · next reply more hSent =>
        cases hStep
        refine ⟨hMove, Or.inr ⟨rfl, ?_⟩⟩
        rw [hSent]
        exact List.cons_ne_nil reply more
  · cases hStep

theorem startProduce_full {sems : SemSet Sem} (hEmpty : sems .empty = 0) :
    semop sems startProduce = .sleep := by
  simp [startProduce, hEmpty, wouldBlock]

/-- A worker that would enter a full ring stays before it, and sends nothing. -/
theorem beforeEntry_step {sh sh' : Shared} {conn conn' : Conn} {es : List Event}
    (hBefore : beforeEntry conn.worker.pc = true) (hServing : Serving .produce conn)
    (hFull : ∀ asleep, conn.worker.pc = .startProduce asleep → sh.sems .empty = 0)
    (hStep : conn.step sh = some (sh', conn', es)) :
    beforeEntry conn'.worker.pc = true ∧ sent es = [] := by
  obtain ⟨msg, hRun, hInbox⟩ := conn_step_eq hStep
  obtain ⟨⟨pc, req, status⟩, inbox⟩ := conn
  obtain ⟨worker', inbox'⟩ := conn'
  dsimp only at hInbox hBefore ⊢
  unfold processClient at hRun
  split at hRun
  · cases hRun
  cases pc with
  | recv =>
    obtain ⟨r, hStream, -⟩ := hServing
    obtain ⟨-, hHead⟩ | ⟨hNot, -⟩ := hInbox
    · obtain ⟨rfl, -⟩ := List.cons.inj (hStream.symm.trans hHead)
      cases hRun
      exact ⟨rfl, rfl⟩
    · exact absurd rfl hNot
  | dispatch =>
    obtain ⟨-, hType⟩ := hServing
    simp only at hRun hType
    rw [hType] at hRun
    cases hRun
    exact ⟨rfl, rfl⟩
  | startProduce asleep =>
    have hSleep := startProduce_full (hFull asleep rfl)
    obtain ⟨vals, hDone, -⟩ | ⟨-, ⟨⟩⟩ | ⟨hFail, -⟩ := attempt_cases hRun
    · rw [hSleep] at hDone
      cases hDone
    · exact ⟨rfl, rfl⟩
    · exact absurd hFail (acquire_safe _ _ _)
  | _ => cases hBefore

/-- What the steering has to avoid is an entry for the sixth command. -/
theorem Process.Early.work {sh sh' : Shared} {p p' : Process} {es : List Report} (h : p.Early)
    (hValid : p.Valid)
    (hFull : p.iter = 5 → ∀ conn asleep, p.conn = some conn →
      conn.worker.pc = .startProduce asleep → sh.sems .empty = 0)
    (hStep : step sh p .work = some (sh', p', es)) : p'.Early := by
  obtain ⟨conn, cmd, conn', own, hConn, hCommand, hMove, hNext⟩ := work_cases hStep
  rcases h with hLess | ⟨hFive, hBefore⟩
  · rcases hNext with rfl | ⟨rfl, -⟩
    · exact Or.inl hLess
    · by_cases hLast : p.iter + 1 < 5
      · exact Or.inl hLast
      · refine Or.inr ⟨?_, nofun⟩
        show p.iter + 1 = 5
        omega
  · obtain ⟨cmd', hCommand', hServing⟩ := hValid.serving conn hConn
    rw [command_first (Nat.le_of_eq hFive)] at hCommand'
    obtain rfl := Option.some.inj hCommand'
    obtain ⟨hBefore', hQuiet⟩ := beforeEntry_step (hBefore conn hConn) hServing
      (fun asleep => hFull hFive conn asleep hConn) hMove
    rcases hNext with rfl | ⟨-, hSent⟩
    · refine Or.inr ⟨hFive, ?_⟩
      rintro other ⟨⟩
      exact hBefore'
    · exact absurd hQuiet hSent

theorem Process.Early.iter_le {p : Process} (h : p.Early) : p.iter ≤ 5 := by
  rcases h with hLess | ⟨hFive, -⟩ <;> omega

theorem Process.Early.letters {p : Process} (h : p.Early) (hFive : p.iter = 5) : p.letters = 5 := by
  obtain hLess | ⟨-, hBefore⟩ := h
  · omega
  · cases hConn : p.conn with
    | none => simp [Process.letters, hConn, hFive, surplus]
    | some conn =>
      have hNot : counted conn.worker.pc = false := by
        have hPc := hBefore conn hConn
        generalize conn.worker.pc = pc at hPc
        cases pc <;> first | rfl | cases hPc
      simp [Process.letters, hConn, hFive, hNot, surplus]

theorem Process.Early.role {p : Process} (h : p.Early) (hFive : p.iter = 5) : p.role = .out := by
  obtain hLess | ⟨-, hBefore⟩ := h
  · omega
  · cases hConn : p.conn with
    | none => rw [Process.role, hConn]
    | some conn =>
      rw [Process.role, hConn]
      have hPc := hBefore conn hConn
      obtain ⟨⟨pc, req, status⟩, inbox⟩ := conn
      cases pc <;> first | rfl | cases hPc

/-- While there is a place, a client that has given fewer than five commands can go on, or
another one that is inside the ring. -/
theorem exists_enabled {c : Conf τ Shared Process} (hInv : Inv c)
    (hEarly : ∀ t, (c.procs t).Early) (hPlace : c.shared.sems .empty ≠ 0) {u : τ}
    (hLess : (c.procs u).iter < 5) :
    ∃ v, (c.procs v).iter < 5 ∧ (ThreadsClients.step c.shared (c.procs v) .connect ≠ none ∨
      ThreadsClients.step c.shared (c.procs v) .work ≠ none) := by
  by_cases hInside : ∃ v, (c.procs v).role = .writing
  · obtain ⟨v, hWriting⟩ := hInside
    refine ⟨v, ?_, Or.inr (hInv.work_inside hWriting)⟩
    by_contra hLast
    rw [(hEarly v).role (Nat.le_antisymm (hEarly v).iter_le (Nat.not_lt.mp hLast))] at hWriting
    cases hWriting
  · obtain ⟨hLock, hOut⟩ := hInv.vacant_of_none (not_exists.mp hInside)
    refine ⟨u, hLess, ?_⟩
    by_contra hIdle
    obtain ⟨hConnect, hWork⟩ := not_or.mp hIdle
    cases hInv.stuck hLock (hOut u) (not_not.mp hConnect) (not_not.mp hWork) with
    | done h =>
      have hIter := h.1
      omega
    | produce hIter hLetters hEmpty => exact hPlace hEmpty
    | consume hIter hLetters hFull =>
      rw [command_first (Nat.le_of_lt hLess)] at hIter
      cases hIter

theorem Process.Early.connect {sh sh' : Shared} {p p' : Process} {es : List Report} (h : p.Early)
    (hStep : step sh p .connect = some (sh', p', es)) : p'.Early := by
  simp only [step] at hStep
  split at hStep
  · cases hStep
    refine h.imp_right fun hFive => ⟨hFive.1, ?_⟩
    rintro conn ⟨⟩
    rfl
  · cases hStep

/-- Six clients that are all before the entry for their sixth command would need thirty places. -/
theorem exists_first {c : Conf τ Shared Process} (hMany : 6 ≤ Fintype.card τ) (hInv : Inv c)
    (hEarly : ∀ t, (c.procs t).Early) : ∃ u, (c.procs u).iter < 5 := by
  by_contra hNone
  have hFive (t : τ) : (c.procs t).letters = 5 :=
    (hEarly t).letters (Nat.le_antisymm (hEarly t).iter_le (Nat.not_lt.mp (not_exists.mp hNone t)))
  obtain ⟨l, acc, hLock, -⟩ := hInv.lock
  have hTotal := hLock.total
  have hFull := hInv.full
  simp only [totalRank, hFive, Finset.sum_const, Finset.card_univ, Nat.nsmul_eq_mul] at hFull
  simp only [ARR_SIZE] at hTotal
  omega

/-- The steering: unless nobody can be served, some step keeps all clients early. -/
theorem exists_early_step {c : Conf τ Shared Process} (hMany : 6 ≤ Fintype.card τ) (hInv : Inv c)
    (hEarly : ∀ t, (c.procs t).Early) (hNot : ¬ Deadlocked c) :
    ∃ t a sh p es, ThreadsClients.step c.shared (c.procs t) a = some (sh, p, es) ∧ p.Early := by
  obtain ⟨u, hFirst⟩ := exists_first hMany hInv hEarly
  by_cases hConnect : ∃ t, ThreadsClients.step c.shared (c.procs t) .connect ≠ none
  · obtain ⟨t, hSome⟩ := hConnect
    obtain ⟨⟨sh, p, es⟩, hStep⟩ := Option.ne_none_iff_exists'.mp hSome
    exact ⟨t, .connect, sh, p, es, hStep, (hEarly t).connect hStep⟩
  · have hNone (t : τ) : ThreadsClients.step c.shared (c.procs t) .connect = none :=
      not_not.mp (not_exists.mp hConnect t)
    by_cases hPlace : c.shared.sems .empty = 0
    · have hWork : ¬ ∀ t, ThreadsClients.step c.shared (c.procs t) .work = none := by
        intro hIdle
        refine hNot ⟨⟨u, fun hDone => ?_⟩, fun t => ⟨hNone t, hIdle t⟩⟩
        have hIter := hDone.1
        omega
      obtain ⟨t, hSome⟩ := not_forall.mp hWork
      obtain ⟨⟨sh, p, es⟩, hStep⟩ := Option.ne_none_iff_exists'.mp hSome
      exact ⟨t, .work, sh, p, es, hStep,
        (hEarly t).work (hInv.valid t) (fun _ _ _ _ _ => hPlace) hStep⟩
    · obtain ⟨v, hLess, hSome⟩ := exists_enabled hInv hEarly hPlace hFirst
      obtain ⟨⟨sh, p, es⟩, hStep⟩ :=
        Option.ne_none_iff_exists'.mp (hSome.resolve_left (not_not.mpr (hNone v)))
      exact ⟨v, .work, sh, p, es, hStep, (hEarly v).work (hInv.valid v) (by omega) hStep⟩

/-! ## Whole runs -/

variable [DecidableEq τ]

/-- A step keeps the invariant and lowers the rank of its client. -/
theorem Inv.step {c : Conf τ Shared Process} {t : τ} {a : Action} {sh : Shared} {p : Process}
    {es : List Report} (hInv : Inv c)
    (hStep : step c.shared (c.procs t) a = some (sh, p, es)) :
    Inv ⟨sh, Function.update c.procs t p⟩ ∧ p.rank < (c.procs t).rank := by
  obtain ⟨⟨l, acc, hLock, hGuarded⟩, hRunning, hValid, hFull⟩ := hInv
  have hInside : (c.procs t).role = .writing → l = ⟨0, 1⟩ := fun hWriting =>
    hLock.occupied (hGuarded.owned.one_le_writers hWriting)
  have hMoves :=
    step_moves hLock hInside (hGuarded.asserted t) hGuarded.rest hRunning (hValid t) hStep
  obtain ⟨l', acc', hLock', hAdvance⟩ := hMoves.guard
  refine ⟨⟨⟨l', acc', hLock', hGuarded.advance asserts_out hAdvance⟩, hMoves.running,
    forall_update hValid hMoves.valid t, ?_⟩, hMoves.rank⟩
  have hTotal := totalRank_update Process.letters c.procs t p
  have hChange := hMoves.full
  dsimp only
  omega

theorem execute_inv (locals : τ → Nat → Locals) (sched : List (τ × Action)) :
    Inv (execute locals sched).1 := by
  refine pool_invariant (P := fun c _ => Inv c) (inv_init locals) ?_ sched
  exact fun c h t a sh p es hInv hStep => (hInv.step hStep).1

/-- Only workers of answered connections move in a deadlock, and they change nothing. -/
theorem Deadlocked.step {c : Conf τ Shared Process} {t : τ} {a : Action} {sh : Shared}
    {p : Process} {es : List Report} (h : Deadlocked c) (hInv : Inv c)
    (hStep : step c.shared (c.procs t) a = some (sh, p, es)) :
    Deadlocked ⟨sh, Function.update c.procs t p⟩ := by
  obtain ⟨⟨u, hLeft⟩, hIdle⟩ := h
  cases a with
  | connect => rw [(hIdle t).1] at hStep; cases hStep
  | work => rw [(hIdle t).2] at hStep; cases hStep
  | finish i =>
    simp only [ThreadsClients.step] at hStep
    split at hStep
    · cases hStep
    · next conn hConn =>
      split at hStep
      · cases hStep
      · next sh₁ conn' own hMove =>
        cases hStep
        obtain ⟨rfl, -⟩ :=
          answered_step ((hInv.valid t).answered conn (List.mem_of_getElem? hConn)) hMove
        refine ⟨⟨u, ?_⟩, forall_update hIdle ((hIdle t).finish _) t⟩
        dsimp only
        rw [Function.update_apply]
        split
        · next hSame => exact hSame ▸ hLeft
        · exact hLeft

theorem Deadlocked.later {locals : τ → Nat → Locals} {sched : List (τ × Action)}
    (h : Deadlocked (execute locals sched).1) (more : List (τ × Action)) :
    Deadlocked (execute locals (sched ++ more)).1 := by
  let later := resume (poolStep ThreadsClients.step) (execute locals sched) more
  have hBoth : Inv later.1 ∧ Deadlocked later.1 := by
    refine resume_invariant (P := fun c _ => Inv c ∧ Deadlocked c) ?_
      ⟨execute_inv locals sched, h⟩ more
    rintro c _ a c' es ⟨hInv, hDeadlocked⟩ hEnabled
    obtain ⟨sh, p, own, hStep, rfl, -⟩ := poolStep_eq_some hEnabled
    exact ⟨(hInv.step hStep).1, hDeadlocked.step hInv hStep⟩
  rw [execute, run_append]
  exact hBoth.2

/-- The clients of the threaded server can come to a state in which some have commands left and
none is ever served again if and only if there are at least six of them. -/
theorem deadlock_iff (locals : τ → Nat → Locals) :
    (∃ sched, ∀ more, Deadlocked (execute locals (sched ++ more)).1) ↔ 6 ≤ Fintype.card τ := by
  constructor
  · rintro ⟨sched, hDeadlocked⟩
    by_contra hFew
    exact (execute_inv locals _).not_deadlocked (by omega) (hDeadlocked [])
  · intro hMany
    have hSteer (c : Conf τ Shared Process) (hGood : Inv c ∧ ∀ t, (c.procs t).Early)
        (hNot : ¬ Deadlocked c) : ∃ a c' es, poolStep step c a = some (c', es) ∧
          (Inv c' ∧ ∀ t, (c'.procs t).Early) ∧
          totalRank Process.rank c'.procs < totalRank Process.rank c.procs := by
      obtain ⟨hInv, hEarly⟩ := hGood
      obtain ⟨t, a, sh, p, es, hStep, hNext⟩ := exists_early_step hMany hInv hEarly hNot
      obtain ⟨hInv', hRank⟩ := hInv.step hStep
      have hTotal := totalRank_update Process.rank c.procs t p
      refine ⟨(t, a), _, _, poolStep_of_step hStep, ⟨hInv', forall_update hEarly hNext t⟩, ?_⟩
      dsimp only
      omega
    obtain ⟨c, ⟨sched, rfl⟩, -, hDeadlocked⟩ := exists_leads _ hSteer
      (⟨inv_init locals, fun t => Or.inl (Nat.succ_pos 4)⟩ :
        Inv (init locals) ∧ ∀ t, ((init locals).procs t).Early)
    exact ⟨sched, Deadlocked.later hDeadlocked⟩

/-- In every run in which no client and none of their workers starves, up to five clients get all
their commands answered. -/
theorem five_clients_finish (hFew : Fintype.card τ ≤ 5) (locals : τ → Nat → Locals)
    {σ : Nat → τ × Action} (hFair : Fair (fun a => a.2 = .connect ∨ a.2 = .work) σ) :
    ∃ n, ∀ m, n ≤ m → ∀ t, ((moment (poolStep step) (init locals) σ m).procs t).Done := by
  obtain ⟨n, -, hRests, hInv, hIdle⟩ := pool_rests step (I := Inv) Process.rank 0
    (fun m _ => execute_inv locals ((List.range m).map σ)) hFair
    (fun c t a sh p es hInv hStep => Or.inr (hInv.step hStep).2)
  refine ⟨n, fun m hm t => ?_⟩
  rw [hRests m hm]
  by_contra hLeft
  exact hInv.not_deadlocked hFew
    ⟨⟨t, hLeft⟩, fun u => ⟨hIdle u .connect (Or.inl rfl), hIdle u .work (Or.inr rfl)⟩⟩

/-- Five clients, each of which connects and is served in its turn. -/
def inTurn (n : Nat) : Fin 5 × Action :=
  (Fin.ofNat 5 (n / 2), if n % 2 = 0 then .connect else .work)

def zeroLocals : Locals := ⟨fun _ => 0, fun _ => 0, 0⟩

theorem five_clients_finish_inTurn :
    ∃ n, ∀ t, ((moment (poolStep step) (init fun _ _ => zeroLocals) inTurn n).procs t).Done := by
  have hFair : Fair (fun a => a.2 = .connect ∨ a.2 = .work) inTurn := by
    rintro ⟨t, a⟩ (rfl | rfl) n
    · refine ⟨2 * (5 * n + t.val), by omega, Prod.ext (Fin.ext ?_) ?_⟩
      · show 2 * (5 * n + t.val) / 2 % 5 = t.val
        omega
      · simp [inTurn]
    · refine ⟨2 * (5 * n + t.val) + 1, by omega, Prod.ext (Fin.ext ?_) ?_⟩
      · show (2 * (5 * n + t.val) + 1) / 2 % 5 = t.val
        omega
      · simp [inTurn]
  obtain ⟨n, hDone⟩ := five_clients_finish (by decide) (fun _ _ => zeroLocals) hFair
  exact ⟨n, fun t => hDone n le_rfl t⟩

end OsLabs.Sockets.ThreadsClients
