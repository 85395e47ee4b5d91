import OsLabs.Sockets.ClientMain
import OsLabs.Sockets.EpollQueue
import OsLabs.Sockets.ThreadsProgress

/-!
# Clients of the threaded server

Every command of a client is a connection of its own, and `server_1.c` starts a worker for each.
A client waits for the reply before it goes on, so it has one worker that serves it; the workers
of its earlier connections have still to log, to find the connection closed and to return. The
client's `recv`, output and `close` are taken together with the `send` they wait for.

The letters in the ring are the surpluses of the clients, where a command counts from the `semop`
on that changes `SEM_FULL`.
-/

namespace OsLabs.Sockets.ThreadsClients

open Memory Runs SysV RwLock Client ServerThreads
open ServerEpoll (stream sent)

/-- A connection: its worker, and what `recv` has still to return to it. -/
structure Conn where
  worker : Worker
  inbox : List Recv

/-- One statement of the worker of a connection. -/
def Conn.step (sh : Shared) (conn : Conn) : Option (Shared × Conn × List Event) :=
  match conn.worker.pc, conn.inbox with
  | .recv, [] => none
  | .recv, msg :: rest =>
    (processClient sh conn.worker msg).map fun r => (r.1, ⟨r.2.1, rest⟩, r.2.2)
  | _, inbox => (processClient sh conn.worker .closed).map fun r => (r.1, ⟨r.2.1, inbox⟩, r.2.2)

/-- The objects of a connection that the code does not initialise. -/
structure Locals where
  client : ReqT
  server : ReqT
  status : BitVec 32

/-- A client before its command number `iter`: the connection on which it waits for a reply, and
its earlier connections. -/
structure Process where
  iter : Nat
  letter : UInt8
  conn : Option Conn
  earlier : List Conn
  locals : Nat → Locals

/-- The client connects, the worker that serves it moves, or that of an earlier connection. -/
inductive Action where
  | connect
  | work
  | finish (i : Nat)

inductive Report where
  | server (e : Event)
  | printed (out : List Output)

/-- The client after it has received a reply. -/
def Process.receive (p : Process) (cmd : Command) (conn : Conn) : Process :=
  { p with
    iter := p.iter + 1
    letter := if cmd = .produce then nextLetter p.letter else p.letter
    conn := none
    earlier := p.earlier ++ [conn] }

def step (sh : Shared) (p : Process) : Action → Option (Shared × Process × List Report)
  | .connect =>
    match p.conn, command p.iter with
    | none, some cmd =>
      let locals := p.locals p.iter
      some (sh, { p with conn := some ⟨⟨.recv, locals.server, locals.status⟩,
        stream [request cmd p.letter locals.client]⟩ }, [])
    | _, _ => none
  | .work =>
    match p.conn, command p.iter with
    | some conn, some cmd =>
      match conn.step sh with
      | none => none
      | some (sh', conn', es) =>
        match sent es with
        | [] => some (sh', { p with conn := some conn' }, es.map .server)
        | reply :: _ =>
          some (sh', p.receive cmd conn', es.map .server ++
            [.printed (output cmd p.letter (p.locals p.iter).client reply)])
    | _, _ => none
  | .finish i =>
    match p.earlier[i]? with
    | none => none
    | some conn =>
      match conn.step sh with
      | none => none
      | some (sh', conn', es) =>
        some (sh', { p with earlier := p.earlier.set i conn' }, es.map .server)

variable {τ : Type}

def init (locals : τ → Nat → Locals) : Conf τ Shared Process :=
  ⟨initShared, fun t => ⟨0, 'a'.toUInt8, none, [], locals t⟩⟩

def execute [DecidableEq τ] (locals : τ → Nat → Locals) (sched : List (τ × Action)) :
    Conf τ Shared Process × List (τ × Report) :=
  run (poolStep step) (init locals) sched

/-! ## One connection -/

def typeOf (cmd : Command) : UInt8 := if cmd = .produce then 'p'.toUInt8 else 'c'.toUInt8

/-- A connection on which `cmd` has not been answered yet. -/
def Serving (cmd : Command) (conn : Conn) : Prop :=
  match conn.worker.pc with
  | .recv => ∃ req : ReqT, conn.inbox = stream [req] ∧ req.type = typeOf cmd
  | .dispatch => conn.inbox = [.closed] ∧ conn.worker.req.type = typeOf cmd
  | .startProduce _ | .putRing | .putTail | .putStatus | .putPrint | .stopProduce _
  | .sendStatus => conn.inbox = [.closed] ∧ cmd = .produce
  | .startConsume _ | .getRing | .getHead | .getPrint | .stopConsume _ | .getStatus
  | .sendReq => conn.inbox = [.closed] ∧ cmd = .consume
  | .logTime | .close | .finished => False

/-- A connection on which the command has been answered. -/
def Answered (conn : Conn) : Prop :=
  match conn.worker.pc with
  | .logTime | .recv => conn.inbox = [.closed]
  | .close | .finished => True
  | _ => False

/-- The command counts in `SEM_FULL`. -/
def counted : Pc → Bool
  | .sendStatus | .getRing | .getHead | .getPrint | .stopConsume _ | .getStatus | .sendReq => true
  | _ => false

/-- What a statement does to `SEM_FULL`. -/
def Counts (cmd : Command) (full full' : Nat) (pc pc' : Pc) : Prop :=
  (counted pc' = counted pc ∧ full' = full) ∨
    (counted pc = false ∧ counted pc' = true ∧
      (cmd = .produce ∧ full' = full + 1 ∨ cmd = .consume ∧ full' + 1 = full))

/-- The statements that the serving worker has left up to its reply, at most. -/
def servingRank : Pc → Nat
  | .recv => 20
  | .dispatch => 19
  | .startProduce asleep | .startConsume asleep => if asleep then 17 else 18
  | .putRing | .getRing => 16
  | .putTail | .getHead => 15
  | .putStatus | .getPrint => 14
  | .putPrint => 13
  | .stopConsume _ => 12
  | .stopProduce _ | .getStatus => 11
  | .sendStatus | .sendReq => 10
  | .logTime | .close | .finished => 0

/-- The statements that a worker has left after its reply. -/
def answeredRank : Pc → Nat
  | .logTime => 3
  | .recv => 2
  | .close => 1
  | _ => 0

theorem conn_step_eq {sh sh' : Shared} {conn conn' : Conn} {es : List Event}
    (hStep : conn.step sh = some (sh', conn', es)) :
    ∃ msg, processClient sh conn.worker msg = some (sh', conn'.worker, es) ∧
      (conn.worker.pc = .recv ∧ conn.inbox = msg :: conn'.inbox ∨
        conn.worker.pc ≠ .recv ∧ conn'.inbox = conn.inbox) := by
  obtain ⟨⟨pc, req, status⟩, inbox⟩ := conn
  cases pc with
  | recv =>
    cases inbox with
    | nil => cases hStep
    | cons msg rest =>
      obtain ⟨r, hRun, hEq⟩ := Option.map_eq_some_iff.mp hStep
      cases hEq
      exact ⟨msg, hRun, Or.inl ⟨rfl, rfl⟩⟩
  | dispatch | startProduce asleep | putRing | putTail | putStatus | putPrint
  | stopProduce asleep | sendStatus | startConsume asleep | getRing | getHead | getPrint
  | stopConsume asleep | getStatus | sendReq | logTime | close | finished =>
    obtain ⟨r, hRun, hEq⟩ := Option.map_eq_some_iff.mp hStep
    cases hEq
    exact ⟨.closed, hRun, Or.inr ⟨nofun, rfl⟩⟩

theorem conn_step_ne_none {sh : Shared} {conn : Conn}
    (hRun : ∀ msg, processClient sh conn.worker msg ≠ none)
    (hInbox : conn.worker.pc = .recv → conn.inbox ≠ []) : conn.step sh ≠ none := by
  obtain ⟨⟨pc, req, status⟩, inbox⟩ := conn
  cases pc with
  | recv =>
    cases inbox with
    | nil => exact absurd rfl (hInbox rfl)
    | cons msg rest =>
      rw [Conn.step, Ne, Option.map_eq_none_iff]
      exact hRun msg
  | dispatch | startProduce asleep | putRing | putTail | putStatus | putPrint
  | stopProduce asleep | sendStatus | startConsume asleep | getRing | getHead | getPrint
  | stopConsume asleep | getStatus | sendReq | logTime | close | finished =>
    rw [Conn.step, Ne, Option.map_eq_none_iff]
    exact hRun .closed

/-- What a statement of the serving worker does to its connection. -/
inductive Serves (cmd : Command) (sh : Shared) (conn : Conn) (sh' : Shared) (conn' : Conn)
    (es : List Event) : Prop where
  | goesOn (hSent : sent es = []) (hServing : Serving cmd conn')
      (hFull : Counts cmd (sh.sems .full) (sh'.sems .full) conn.worker.pc conn'.worker.pc)
      (hRank : servingRank conn'.worker.pc < servingRank conn.worker.pc)
  | replies (reply : List UInt8) (hSent : sent es = [reply]) (hAnswered : Answered conn')
      (hFull : sh'.sems .full = sh.sems .full) (hCounted : counted conn.worker.pc = true)

theorem serving_step {l : Lock} {cmd : Command} {sh sh' : Shared} {conn conn' : Conn}
    {es : List Event} (hLock : Locked sh.sems l)
    (hInside : conn.worker.role = .writing → l = ⟨0, 1⟩) (hServing : Serving cmd conn)
    (hStep : conn.step sh = some (sh', conn', es)) : Serves cmd sh conn sh' conn' es := by
  obtain ⟨msg, hRun, hInbox⟩ := conn_step_eq hStep
  obtain ⟨⟨pc, req, status⟩, inbox⟩ := conn
  obtain ⟨worker', inbox'⟩ := conn'
  dsimp only at hInbox
  unfold processClient at hRun
  split at hRun
  · cases hRun
  cases pc with
  | recv =>
    obtain ⟨r, hStream, hType⟩ := hServing
    obtain ⟨-, hHead⟩ | ⟨hNot, -⟩ := hInbox
    · obtain ⟨rfl, rfl⟩ := List.cons.inj (hStream.symm.trans hHead)
      cases hRun
      refine .goesOn rfl ⟨rfl, ?_⟩ (Or.inl ⟨rfl, rfl⟩) (by simp [servingRank])
      dsimp only
      rw [recvInto_bytes]
      exact hType
    · exact absurd rfl hNot
  | dispatch =>
    obtain ⟨hClosed, hType⟩ := hServing
    obtain ⟨hNot, -⟩ | ⟨-, rfl⟩ := hInbox
    · cases hNot
    · simp only at hRun hType
      rw [hType] at hRun
      cases cmd with
      | produce =>
        cases hRun
        exact .goesOn rfl ⟨hClosed, rfl⟩ (Or.inl ⟨rfl, rfl⟩) (by simp [servingRank])
      | consume =>
        cases hRun
        exact .goesOn rfl ⟨hClosed, rfl⟩ (Or.inl ⟨rfl, rfl⟩) (by simp [servingRank])
  | startProduce asleep =>
    obtain ⟨hNot, -⟩ | ⟨-, rfl⟩ := hInbox
    · cases hNot
    · apply attempt_elim (P := fun x => Serves cmd sh _ x.1 ⟨x.2.1, inbox'⟩ x.2.2) hRun
      · intro vals hDone
        obtain ⟨-, -, hFull⟩ := hLock.startProduce hDone
        exact .goesOn rfl hServing (Or.inl ⟨rfl, hFull⟩) (by cases asleep <;> simp [servingRank])
      · rintro rfl
        exact .goesOn rfl hServing (Or.inl ⟨rfl, rfl⟩) (by simp [servingRank])
      · exact fun hFail => absurd hFail (acquire_safe _ _ _)
  | startConsume asleep =>
    obtain ⟨hNot, -⟩ | ⟨-, rfl⟩ := hInbox
    · cases hNot
    · apply attempt_elim (P := fun x => Serves cmd sh _ x.1 ⟨x.2.1, inbox'⟩ x.2.2) hRun
      · intro vals hDone
        obtain ⟨-, -, hFull⟩ := hLock.startConsume hDone
        exact .goesOn rfl hServing (Or.inr ⟨rfl, rfl, Or.inr ⟨hServing.2, hFull⟩⟩)
          (by cases asleep <;> simp [servingRank])
      · rintro rfl
        exact .goesOn rfl hServing (Or.inl ⟨rfl, rfl⟩) (by simp [servingRank])
      · exact fun hFail => absurd hFail (acquire_safe _ _ _)
  | stopProduce asleep =>
    obtain ⟨hNot, -⟩ | ⟨-, rfl⟩ := hInbox
    · cases hNot
    · obtain rfl := hInside rfl
      obtain ⟨vals, hLeave, -, hFull⟩ := hLock.stopProduce (by decide)
      obtain ⟨⟩ := attempt_done hLeave hRun
      exact .goesOn rfl hServing (Or.inr ⟨rfl, rfl, Or.inl ⟨hServing.2, hFull⟩⟩)
        (by simp [servingRank])
  | stopConsume asleep =>
    obtain ⟨hNot, -⟩ | ⟨-, rfl⟩ := hInbox
    · cases hNot
    · obtain rfl := hInside rfl
      obtain ⟨vals, hLeave, -, hFull⟩ := hLock.stopConsume (by decide)
      obtain ⟨⟩ := attempt_done hLeave hRun
      exact .goesOn rfl hServing (Or.inl ⟨rfl, hFull⟩) (by simp [servingRank])
  | putRing | putTail | putStatus | putPrint | getRing | getHead | getPrint | getStatus =>
    obtain ⟨hNot, -⟩ | ⟨-, rfl⟩ := hInbox
    · cases hNot
    · cases hRun
      exact .goesOn rfl hServing (Or.inl ⟨rfl, rfl⟩) (by simp [servingRank])
  | sendStatus | sendReq =>
    obtain ⟨hNot, -⟩ | ⟨-, rfl⟩ := hInbox
    · cases hNot
    · cases hRun
      exact .replies _ rfl hServing.1 rfl rfl
  | logTime | close | finished => cases hServing

/-- The worker of an answered connection leaves the ring and the semaphores alone. -/
theorem answered_step {sh sh' : Shared} {conn conn' : Conn} {es : List Event}
    (hAnswered : Answered conn) (hStep : conn.step sh = some (sh', conn', es)) :
    sh' = sh ∧ Answered conn' ∧ answeredRank conn'.worker.pc < answeredRank conn.worker.pc := by
  obtain ⟨msg, hRun, hInbox⟩ := conn_step_eq hStep
  obtain ⟨⟨pc, req, status⟩, inbox⟩ := conn
  obtain ⟨worker', inbox'⟩ := conn'
  dsimp only at hInbox
  unfold processClient at hRun
  split at hRun
  · cases hRun
  cases pc with
  | recv =>
    obtain ⟨-, hHead⟩ | ⟨hNot, -⟩ := hInbox
    · obtain ⟨rfl, rfl⟩ := List.cons.inj (hAnswered.symm.trans hHead)
      cases hRun
      exact ⟨rfl, trivial, by simp [answeredRank]⟩
    · exact absurd rfl hNot
  | logTime =>
    obtain ⟨hNot, -⟩ | ⟨-, rfl⟩ := hInbox
    · cases hNot
    · cases hRun
      exact ⟨rfl, hAnswered, by simp [answeredRank]⟩
  | close =>
    cases hRun
    exact ⟨rfl, trivial, by simp [answeredRank]⟩
  | finished => cases hRun
  | dispatch | startProduce asleep | putRing | putTail | putStatus | putPrint
  | stopProduce asleep | sendStatus | startConsume asleep | getRing | getHead | getPrint
  | stopConsume asleep | getStatus | sendReq => cases hAnswered

/-- A `start` call that waits for a place. -/
def Waits (sems : SemSet Sem) (pc : Pc) : Prop :=
  (pc = .startProduce true ∧ sems .empty = 0) ∨ (pc = .startConsume true ∧ sems .full = 0)

/-- While nobody is inside, a worker can go on unless it has returned or waits for a place. -/
theorem processClient_vacant {sh : Shared} {w : Worker} {msg : Recv}
    (hLock : Locked sh.sems ⟨0, 0⟩) (hRunning : sh.exited = false) (hOut : w.role = .out)
    (hIdle : processClient sh w msg = none) : w.pc = .finished ∨ Waits sh.sems w.pc := by
  obtain ⟨hEF, hEM, hFM⟩ := hLock.distinct
  have hFree : 1 ≤ sh.sems .mutex := Nat.le_of_eq hLock.free.symm
  obtain ⟨pc, req, status⟩ := w
  unfold processClient at hIdle
  rw [if_neg (by simp [hRunning])] at hIdle
  cases pc with
  | recv => cases msg <;> cases hIdle
  | dispatch =>
    simp only at hIdle
    split at hIdle
    · cases hIdle
    · split at hIdle <;> cases hIdle
  | startProduce asleep =>
    refine Or.inr (Or.inl ⟨?_, ?_⟩)
    · cases asleep with
      | true => rfl
      | false =>
        simp only [call, attempt] at hIdle
        split at hIdle <;> cases hIdle
    · by_contra hPlace
      obtain ⟨vals, hDone⟩ := acquire_eq hEM (Nat.pos_of_ne_zero hPlace) hFree
      exact attempt_enabled hDone hIdle
  | startConsume asleep =>
    refine Or.inr (Or.inr ⟨?_, ?_⟩)
    · cases asleep with
      | true => rfl
      | false =>
        simp only [call, attempt] at hIdle
        split at hIdle <;> cases hIdle
    · by_contra hPlace
      obtain ⟨vals, hDone⟩ := acquire_eq hFM (Nat.pos_of_ne_zero hPlace) hFree
      exact attempt_enabled hDone hIdle
  | finished => exact Or.inl rfl
  | putRing | putTail | putStatus | putPrint | stopProduce asleep | getRing | getHead | getPrint
  | stopConsume asleep => cases hOut
  | sendStatus | getStatus | sendReq | logTime | close => cases hIdle

/-- The serving worker has always something to receive. -/
theorem serving_step_ne_none {cmd : Command} {sh : Shared} {conn : Conn}
    (hServing : Serving cmd conn) (hRun : ∀ msg, processClient sh conn.worker msg ≠ none) :
    conn.step sh ≠ none := by
  refine conn_step_ne_none hRun fun hRecv => ?_
  unfold Serving at hServing
  rw [hRecv] at hServing
  obtain ⟨r, hStream, -⟩ := hServing
  rw [hStream]
  exact List.cons_ne_nil _ _

/-! ## One client -/

def Process.role (p : Process) : Role :=
  match p.conn with
  | none => .out
  | some conn => conn.worker.role

def Process.Asserts (d : Data) (p : Process) : Prop :=
  ∀ conn, p.conn = some conn → ServerThreads.Asserts d conn.worker

theorem asserts_out (d : Data) (p : Process) (h : p.role = .out) : p.Asserts d := by
  intro conn hConn
  rw [Process.role, hConn] at h
  exact ServerThreads.asserts_out d conn.worker h

/-- The letters that the commands of a client have put in less those they have taken out. -/
def Process.letters (p : Process) : Nat :=
  surplus (p.iter + if p.conn.any (fun conn => counted conn.worker.pc) then 1 else 0)

/-- The steps that a client and its workers have left, at most. -/
def Process.rank (p : Process) : Nat :=
  (40005 - p.iter) * 30 + (p.conn.elim 25 fun conn => servingRank conn.worker.pc) +
    (p.earlier.map fun conn => answeredRank conn.worker.pc).sum

structure Process.Valid (p : Process) : Prop where
  serving : ∀ conn, p.conn = some conn → ∃ cmd, command p.iter = some cmd ∧ Serving cmd conn
  answered : ∀ conn ∈ p.earlier, Answered conn
  bound : p.iter ≤ 40005

/-- What a step does to the client and to the ring, seen from the lock. -/
structure Moves (l : Lock) (acc : List (RingBuffer.Access UInt8)) (sh : Shared) (p : Process)
    (sh' : Shared) (p' : Process) : Prop where
  guard : ∃ l' acc', Locked sh'.sems l' ∧ Advance Process.role Process.Asserts AtRest l l'
    (dataOf sh acc) (dataOf sh' acc') p p'
  running : sh'.exited = false
  valid : p'.Valid
  full : sh'.sems .full + p.letters = sh.sems .full + p'.letters
  rank : p'.rank < p.rank

theorem sum_map_set {α : Type} (f : α → Nat) {xs : List α} {i : Nat} {x : α} (h : xs[i]? = some x)
    (y : α) : ((xs.set i y).map f).sum + f x = (xs.map f).sum + f y := by
  induction xs generalizing i with
  | nil => cases h
  | cons z rest ih =>
    cases i with
    | zero =>
      cases h
      simp only [List.set_cons_zero, List.map_cons, List.sum_cons]
      omega
    | succ i =>
      have hRest := ih (i := i) (by simpa using h)
      simp only [List.set_cons_succ, List.map_cons, List.sum_cons]
      omega

theorem role_of_answered {conn : Conn} (h : Answered conn) : conn.worker.role = .out := by
  obtain ⟨⟨pc, req, status⟩, inbox⟩ := conn
  cases pc with
  | recv | logTime | close | finished => rfl
  | dispatch | startProduce asleep | putRing | putTail | putStatus | putPrint
  | stopProduce asleep | sendStatus | startConsume asleep | getRing | getHead | getPrint
  | stopConsume asleep | getStatus | sendReq => cases h

theorem answeredRank_le (pc : Pc) : answeredRank pc ≤ 3 := by
  unfold answeredRank
  split <;> omega

/-- A step that leaves the shared state as it is and does not move the serving worker. -/
theorem Moves.quiet {l : Lock} {acc : List (RingBuffer.Access UInt8)} {sh : Shared}
    {p p' : Process} (hLock : Locked sh.sems l) (hRunning : sh.exited = false)
    (hRole : p'.role = p.role) (hAsserts : p'.Asserts (dataOf sh acc)) (hValid : p'.Valid)
    (hLetters : p'.letters = p.letters) (hRank : p'.rank < p.rank) : Moves l acc sh p sh p' :=
  ⟨⟨l, acc, hLock, .inside hRole (Or.inl rfl) hAsserts⟩, hRunning, hValid, by rw [hLetters], hRank⟩

theorem connect_moves {l : Lock} {acc : List (RingBuffer.Access UInt8)} {sh sh' : Shared}
    {p p' : Process} {es : List Report} (hLock : Locked sh.sems l) (hRunning : sh.exited = false)
    (hValid : p.Valid) (hStep : step sh p .connect = some (sh', p', es)) :
    Moves l acc sh p sh' p' := by
  simp only [step] at hStep
  split at hStep
  · next cmd hNone hCommand =>
    cases hStep
    refine .quiet hLock hRunning ?_ ?_ ⟨?_, hValid.answered, hValid.bound⟩ ?_ ?_
    · simp [Process.role, hNone, Worker.role]
    · rintro conn ⟨⟩
      trivial
    · rintro conn ⟨⟩
      exact ⟨cmd, hCommand, _, rfl, type_request _ _ _⟩
    · simp [Process.letters, hNone, counted]
    · simp [Process.rank, hNone, servingRank]
  · cases hStep

theorem finish_moves {l : Lock} {acc : List (RingBuffer.Access UInt8)} {sh sh' : Shared}
    {p p' : Process} {i : Nat} {es : List Report} (hLock : Locked sh.sems l)
    (hAsserts : p.Asserts (dataOf sh acc)) (hRunning : sh.exited = false)
    (hValid : p.Valid) (hStep : step sh p (.finish i) = some (sh', p', es)) :
    Moves l acc sh p sh' p' := by
  simp only [step] at hStep
  split at hStep
  · cases hStep
  · next conn hConn =>
    split at hStep
    · cases hStep
    · next sh₁ conn' own hMove =>
      cases hStep
      obtain ⟨rfl, hAnswered, hRank⟩ :=
        answered_step (hValid.answered conn (List.mem_of_getElem? hConn)) hMove
      refine .quiet hLock hRunning rfl hAsserts ⟨hValid.serving, ?_, hValid.bound⟩ rfl ?_
      · intro other hOther
        rcases List.mem_or_eq_of_mem_set hOther with hOld | rfl
        · exact hValid.answered other hOld
        · exact hAnswered
      · have hSum := sum_map_set (fun conn => answeredRank conn.worker.pc) hConn conn'
        dsimp only [Process.rank] at hSum ⊢
        omega

/-- A step of the serving worker is one of its client. -/
theorem advance_of_worker {l l' : Lock} {d d' : Data} {p p' : Process} {w w' : Worker}
    (h : Advance Worker.role ServerThreads.Asserts AtRest l l' d d' w w')
    (hRole : p.role = w.role) (hRole' : p'.role = w'.role) (hAsserts : p'.Asserts d') :
    Advance Process.role Process.Asserts AtRest l l' d d' p p' := by
  obtain ⟨hMove, hData, -, hRest⟩ := h
  refine ⟨?_, ?_, hAsserts, ?_⟩
  · rwa [hRole, hRole']
  · rwa [hRole, hRole']
  · rwa [hRole, hRole']

/-- `SEM_FULL` follows the letters of the client. -/
theorem full_of_counts {k full full' : Nat} {cmd : Command} {pc pc' : Pc}
    (hCommand : command k = some cmd) (h : Counts cmd full full' pc pc') :
    full' + surplus (k + if counted pc = true then 1 else 0) =
      full + surplus (k + if counted pc' = true then 1 else 0) := by
  rcases h with ⟨hSame, rfl⟩ | ⟨hOld, hNew, ⟨rfl, rfl⟩ | ⟨rfl, hTaken⟩⟩
  · rw [hSame]
  · obtain ⟨hNext, -⟩ := surplus_produce hCommand
    simp only [hOld, hNew, if_true, Bool.false_eq_true, if_false, Nat.add_zero]
    omega
  · obtain ⟨hNext, hNow⟩ := surplus_consume hCommand
    simp only [hOld, hNew, if_true, Bool.false_eq_true, if_false, Nat.add_zero]
    omega

theorem work_moves {l : Lock} {acc : List (RingBuffer.Access UInt8)} {sh sh' : Shared}
    {p p' : Process} {es : List Report} (hLock : Locked sh.sems l)
    (hInside : p.role = .writing → l = ⟨0, 1⟩) (hAsserts : p.Asserts (dataOf sh acc))
    (hRest : l.writers = 0 → AtRest (dataOf sh acc)) (hRunning : sh.exited = false)
    (hValid : p.Valid) (hStep : step sh p .work = some (sh', p', es)) :
    Moves l acc sh p sh' p' := by
  simp only [step] at hStep
  split at hStep
  · next conn cmd hConn hCommand =>
    split at hStep
    · cases hStep
    · next sh₁ conn' own hMove =>
      have hRole : p.role = conn.worker.role := by rw [Process.role, hConn]
      rw [hRole] at hInside
      obtain ⟨cmd', hCommand', hServing⟩ := hValid.serving conn hConn
      obtain rfl : cmd = cmd' := Option.some.inj (hCommand.symm.trans hCommand')
      have hServes := serving_step hLock hInside hServing hMove
      obtain ⟨msg, hRun, -⟩ := conn_step_eq hMove
      obtain ⟨l', hLock', hAdvance⟩ :=
        (processClient_follows hLock hInside (hAsserts conn hConn) hRest hRun).guard
      have hRunning' := processClient_running hLock hInside hRunning hRun
      have hBound := lt_of_command hCommand
      cases hServes with
      | goesOn hSent hServing' hFull hRank =>
        rw [hSent] at hStep
        cases hStep
        refine ⟨⟨l', _, hLock', advance_of_worker hAdvance hRole rfl ?_⟩, hRunning',
          ⟨?_, hValid.answered, hValid.bound⟩, ?_, ?_⟩
        · rintro other ⟨⟩
          exact hAdvance.asserted
        · rintro other ⟨⟩
          exact ⟨cmd, hCommand, hServing'⟩
        · simp only [Process.letters, hConn, Option.any_some]
          exact full_of_counts hCommand hFull
        · simp only [Process.rank, hConn, Option.elim_some]
          omega
      | replies reply hSent hAnswered hFull hCounted =>
        rw [hSent] at hStep
        cases hStep
        refine ⟨⟨l', _, hLock', advance_of_worker hAdvance hRole (role_of_answered hAnswered).symm
          nofun⟩, hRunning', ⟨nofun, ?_, hBound⟩, ?_, ?_⟩
        · intro other hOther
          rcases List.mem_append.mp hOther with hOld | hNew
          · exact hValid.answered other hOld
          · exact (List.mem_singleton.mp hNew) ▸ hAnswered
        · simp [Process.letters, Process.receive, hConn, hCounted, hFull]
        · have hLast := answeredRank_le conn'.worker.pc
          simp only [Process.rank, Process.receive, hConn, Option.elim_some, Option.elim_none,
            List.map_append, List.sum_append, List.map_singleton, List.sum_singleton]
          omega
  · cases hStep

theorem step_moves {l : Lock} {acc : List (RingBuffer.Access UInt8)} {sh sh' : Shared}
    {p p' : Process} {a : Action} {es : List Report} (hLock : Locked sh.sems l)
    (hInside : p.role = .writing → l = ⟨0, 1⟩) (hAsserts : p.Asserts (dataOf sh acc))
    (hRest : l.writers = 0 → AtRest (dataOf sh acc)) (hRunning : sh.exited = false)
    (hValid : p.Valid) (hStep : step sh p a = some (sh', p', es)) : Moves l acc sh p sh' p' := by
  cases a with
  | connect => exact connect_moves hLock hRunning hValid hStep
  | work => exact work_moves hLock hInside hAsserts hRest hRunning hValid hStep
  | finish i => exact finish_moves hLock hAsserts hRunning hValid hStep

end OsLabs.Sockets.ThreadsClients
