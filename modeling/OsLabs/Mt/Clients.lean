import OsLabs.Mt.HandOver
import OsLabs.Mt.Linearizable

/-!
# The reservation server and its clients (`mt/client.c`)

A client connects, asks for the table, asks for the first letter it shows, and closes the
connection; it starts over until the table shows no letter. `main` of the server accepts the
connections in order and hands them over as in `HandOver`, so a thread may read the descriptor of
another connection than the one it was created for: a connection can have no thread, or several
that take its messages from each other. A thread replies before it leaves its section, and can
still be inside when the client has closed the connection, or has opened the next one.

The server closes no descriptor, and 0 to 3 are open from the start. At most `N` threads can be
created. A `recv` returns what one `send` has sent: a client sends nothing before it has received
the answer. A run is followed as long as the process of the server lives: it ends with the first
`semop`, `pthread_create` or `pthread_detach` that fails.
-/

namespace OsLabs.Mt.Clients

open Memory Runs SysV

/-- A connection: the messages that no thread has taken, whether the client has closed its end,
and the replies that the client has not received. -/
structure Conn where
  inbox : List (List UInt8)
  closed : Bool
  outbox : List (List UInt8)

/-- Where a client is: before a connection, waiting for the table or for the answer to its
request on the connection `sockfd`, or after `exit`, with a table without letters or an error. -/
inductive Phase where
  | start
  | table (sockfd : Nat) (buf : Object BUF_SIZE)
  | status (sockfd : Nat) (buf : Object BUF_SIZE)
  | finished
  | failed

/-- A client with the number of connections it has opened. -/
structure Client where
  phase : Phase
  opened : Nat

/-- The objects that the code does not initialise, `buf` of every call of `request` and the locals
of the threads, and what a read of `arr` outside its bounds would find. -/
structure Locals (τ : Type) (N : Nat) where
  buf : τ → Nat → Object BUF_SIZE
  thread : Fin N → Nat × Object BUF_SIZE × BitVec 32
  stray : Fin N → UInt8

/-- The server and its clients. `peer` tells the connection behind a descriptor, and `backlog`
those that have not been accepted. -/
structure System (τ : Type) (N : Nat) where
  shared : Shared
  handOver : HandOver.State
  peer : Int → Option (τ × Nat)
  backlog : List (τ × Nat)
  threads : Fin N → Worker
  conns : τ × Nat → Conn
  clients : τ → Client

inductive Line where
  | letters (text : List UInt8)
  | noLetters
  | sending (index : Nat)
  | ok
  | alreadyReserved
  | perror (text : String)
deriving DecidableEq

inductive Report (τ : Type) where
  | client (t : τ) (line : Line)
  | main (e : HandOver.Event)
  | server (e : Event)

/-- The flags tell whether the calls succeed. -/
inductive Action (τ : Type) (N : Nat) where
  | connect (t : τ) (socket connect : Bool)
  | client (t : τ)
  | accept (ok : Bool)
  | create (ok : Bool)
  | detach (ok : Bool)
  | read (k : Fin N)
  | work (k : Fin N)
deriving DecidableEq

variable {τ : Type} {N : Nat}

/-! ## The client -/

/-- The loop that looks for a letter. -/
def firstLetter (buf : Object BUF_SIZE) : Option Nat :=
  (List.range ARR_SIZE).find? fun i => buf (Fin.ofNat BUF_SIZE i) ≠ ' '.toUInt8

def unexpected : Line := .perror "Unexpected response from server"

/-- The connection on which a client waits. -/
def Client.sockfd (p : Client) : Option Nat :=
  match p.phase with
  | .table sockfd _ | .status sockfd _ => some sockfd
  | .start | .finished | .failed => none

/-- `request` from one message to the next one it has to wait for; `none` if it waits. -/
def Client.receive (p : Client) (conn : Conn) : Option (Client × Conn × List Line) :=
  match p.phase, conn.outbox with
  | .table sockfd buf, msg :: rest =>
    let shown := recvInto buf msg
    let text := (bytes shown).take ARR_SIZE
    match firstLetter shown with
    | none =>
      some ({ p with phase := .finished }, { conn with closed := true, outbox := rest },
        [.letters text, .noLetters])
    | some index =>
      let buf := Function.update (Function.update shown 0 'w'.toUInt8) 1 (UInt8.ofNat index)
      some ({ p with phase := .status sockfd buf },
        { conn with inbox := conn.inbox ++ [bytes buf], outbox := rest },
        [.letters text, .sending index])
  | .status _ buf, msg :: rest =>
    let buf := recvInto buf msg
    let conn := { conn with closed := true, outbox := rest }
    if buf 0 = 0 then some ({ p with phase := .start }, conn, [.ok])
    else if buf 0 = 1 then some ({ p with phase := .start }, conn, [.alreadyReserved])
    else some ({ p with phase := .failed }, conn, [unexpected])
  | _, _ => none

/-! ## A thread and its connection -/

/-- The messages sent in a history. -/
def sent (es : List Event) : List (List UInt8) := (replies es).map Prod.snd

/-- What `recv` returns, and the connection after it; `none` if it waits. -/
def Conn.recv (conn : Conn) : Option (Recv × Conn) :=
  match conn.inbox with
  | msg :: rest => some (.data msg, { conn with inbox := rest })
  | [] => if conn.closed then some (.closed, conn) else none

/-- One statement of a thread that has the descriptor of the connection. -/
def Conn.work (conn : Conn) (sh : Shared) (w : Worker) (stray : UInt8) :
    Option (Shared × Worker × Conn × List Event) :=
  match if w.pc = .recv then conn.recv else some (.closed, conn) with
  | none => none
  | some (input, conn) =>
    (processClient sh w ⟨input, stray⟩).map fun r =>
      (r.1, r.2.1, { conn with outbox := conn.outbox ++ sent r.2.2 }, r.2.2)

/-! ## The system -/

/-- The descriptor that `accept` returns: all below it are open, and none is ever closed. -/
def newFd (s : HandOver.State) : Int := 4 + s.fds.length

/-- The descriptor that thread `k` has read. -/
def System.connfd (s : System τ N) (k : Fin N) : Option Int := s.handOver.workers[k.val]?.join

/-- A statement of `main`, or the one with which a thread reads `connfd`. -/
def System.handsOver (s : System τ N) (a : HandOver.Action) :
    Option (System τ N × List (Report τ)) :=
  (HandOver.step s.handOver a).map fun r => ({ s with handOver := r.1 }, r.2.map .main)

def System.exit (s : System τ N) : System τ N :=
  { s with shared := { s.shared with exited := true } }

def System.setThread (s : System τ N) (k : Fin N) (sh : Shared) (w : Worker)
    (conns : τ × Nat → Conn) : System τ N :=
  { s with shared := sh, threads := Function.update s.threads k w, conns := conns }

def System.accept (s : System τ N) (ok : Bool) : Option (System τ N × List (Report τ)) :=
  if ok then
    match s.backlog with
    | [] => none
    | c :: rest =>
      let s := { s with
        peer := Function.update s.peer (newFd s.handOver) (some c)
        backlog := rest }
      s.handsOver (.accept (newFd s.handOver))
  else s.handsOver (.accept (-1))

def System.create (s : System τ N) (ok : Bool) : Option (System τ N × List (Report τ)) :=
  if ok then if s.handOver.workers.length < N then s.handsOver (.create true) else none
  else s.exit.handsOver (.create false)

def System.detach (s : System τ N) (ok : Bool) : Option (System τ N × List (Report τ)) :=
  if ok then s.handsOver (.detach true) else s.exit.handsOver (.detach false)

variable [DecidableEq τ]

/-- A client moves on, and has left its connection `i` so. -/
def System.setClient (s : System τ N) (t : τ) (p : Client) (i : Nat) (conn : Conn) : System τ N :=
  { s with
    clients := Function.update s.clients t p
    conns := Function.update s.conns (t, i) conn }

def System.connect (locals : Locals τ N) (s : System τ N) (t : τ) (socket connect : Bool) :
    Option (System τ N × List (Report τ)) :=
  let p := s.clients t
  match p.phase with
  | .start =>
    if socket = false then
      some (s.setClient t { p with phase := .failed } p.opened (s.conns (t, p.opened)),
        [.client t (.perror "error socket")])
    else if connect = false then
      some (s.setClient t { p with phase := .failed } p.opened (s.conns (t, p.opened)),
        [.client t (.perror "connection error")])
    else
      let buf := Function.update (locals.buf t p.opened) 0 'r'.toUInt8
      let s := { s with backlog := s.backlog ++ [(t, p.opened)] }
      some (s.setClient t ⟨.table p.opened buf, p.opened + 1⟩ p.opened ⟨[bytes buf], false, []⟩, [])
  | _ => none

def System.client (s : System τ N) (t : τ) : Option (System τ N × List (Report τ)) :=
  match (s.clients t).sockfd with
  | none => none
  | some i =>
    ((s.clients t).receive (s.conns (t, i))).map fun r =>
      (s.setClient t r.1 i r.2.1, r.2.2.map (.client t))

/-- What has no connection behind it, such as the descriptor `-1`, is an error for `recv`. -/
def System.work (locals : Locals τ N) (s : System τ N) (k : Fin N) :
    Option (System τ N × List (Report τ)) :=
  match s.connfd k with
  | none => none
  | some fd =>
    match s.peer fd with
    | none =>
      (processClient s.shared (s.threads k) ⟨.error, locals.stray k⟩).map fun r =>
        (s.setThread k r.1 r.2.1 s.conns, r.2.2.map .server)
    | some c =>
      ((s.conns c).work s.shared (s.threads k) (locals.stray k)).map fun r =>
        (s.setThread k r.1 r.2.1 (Function.update s.conns c r.2.2.1), r.2.2.2.map .server)

def step (locals : Locals τ N) (s : System τ N) (a : Action τ N) :
    Option (System τ N × List (Report τ)) :=
  if s.shared.exited then none
  else match a with
  | .connect t socket connect => s.connect locals t socket connect
  | .client t => s.client t
  | .accept ok => s.accept ok
  | .create ok => s.create ok
  | .detach ok => s.detach ok
  | .read k => s.handsOver (.read k)
  | .work k => s.work locals k

/-- The variable `connfd` of `main` is not initialised. -/
def init (locals : Locals τ N) (connfd : Int) : System τ N where
  shared := ⟨initSems, initArr, false⟩
  handOver := HandOver.init connfd
  peer _ := none
  backlog := []
  threads := (Mt.init locals.thread).procs
  conns _ := ⟨[], false, []⟩
  clients _ := ⟨.start, 0⟩

def execute (locals : Locals τ N) (connfd : Int) (sched : List (Action τ N)) :
    System τ N × List (Report τ) :=
  run (step locals) (init locals connfd) sched

/-! ## What one statement does -/

/-- The request that a thread has taken and not answered. -/
def serves (w : Worker) : Option Request :=
  match w.pc with
  | .dispatch => requestOf w.buf
  | .startRd _ | .copy _ | .sendBuf => some .read
  | .startWr _ | .test | .reserve | .refuse | .full _ | .sendStatus => some (.write w.index)
  | .recv | .stopRd _ | .stopWr _ | .finished => none

/-- A statement takes a message, or answers the request that is served, or neither. -/
inductive Serves (w w' : Worker) (input : Recv) (es : List Event) : Prop where
  | takes (msg : List UInt8) (hPc : w.pc = .recv) (hInput : input = .data msg)
      (hServes : serves w' = requestOf (recvInto w.buf msg)) (hSilent : replies es = [])
  | goesOn (hInput : w.pc = .recv → ∀ msg, input ≠ .data msg) (hServes : serves w' = serves w)
      (hSilent : replies es = [])
  | answers (req : Request) (msg : List UInt8) (hPc : w.pc ≠ .recv) (hOld : serves w = some req)
      (hNew : serves w' = none) (hReply : replies es = [(req, msg)])

theorem processClient_serves {sh sh' : Shared} {w w' : Worker} {input : Input} {es : List Event}
    (hStep : processClient sh w input = some (sh', w', es)) : Serves w w' input.recv es := by
  obtain ⟨pc, index, buf, status⟩ := w
  unfold processClient at hStep
  split at hStep
  · cases hStep
  cases pc with
  | recv =>
    simp only at hStep
    split at hStep
    · next msg hInput =>
      cases hStep
      exact .takes msg rfl hInput rfl rfl
    · next hInput =>
      cases hStep
      exact .goesOn (fun _ msg hMsg => by cases hInput.symm.trans hMsg) rfl rfl
    · next hInput =>
      cases hStep
      exact .goesOn (fun _ msg hMsg => by cases hInput.symm.trans hMsg) rfl rfl
  | dispatch =>
    simp only at hStep
    split at hStep
    · next hRequest => cases hStep; exact .goesOn (by simp) hRequest.symm rfl
    · next index hRequest => cases hStep; exact .goesOn (by simp) hRequest.symm rfl
    · next hRequest => cases hStep; exact .goesOn (by simp) hRequest.symm rfl
  | startRd asleep | startWr asleep | stopRd asleep | stopWr asleep =>
    obtain ⟨vals, -, ⟨⟩⟩ | ⟨-, ⟨⟩⟩ | ⟨-, ⟨⟩⟩ := attempt_cases hStep
    · exact .goesOn (by simp) rfl rfl
    · exact .goesOn (by simp) rfl rfl
    · exact .goesOn (by simp) rfl rfl
  | copy i | refuse =>
    simp only at hStep
    split at hStep
    · cases hStep; exact .goesOn (by simp) rfl rfl
    · cases hStep; exact .goesOn (by simp) rfl rfl
  | test | full i =>
    simp only at hStep
    split at hStep
    · split at hStep
      · cases hStep; exact .goesOn (by simp) rfl rfl
      · cases hStep; exact .goesOn (by simp) rfl rfl
    · cases hStep; exact .goesOn (by simp) rfl rfl
  | reserve => cases hStep; exact .goesOn (by simp) rfl rfl
  | sendBuf => cases hStep; exact .answers .read (bytes buf) (by simp) rfl rfl rfl
  | sendStatus =>
    cases hStep
    exact .answers (.write index) (intBytes status) (by simp) rfl rfl rfl
  | finished => cases hStep

/-- The same for a connection: a message leaves it, or a reply enters it, or neither. -/
inductive Conn.Works (conn conn' : Conn) (w w' : Worker) (es : List Event) : Prop where
  | takes (msg : List UInt8) (hInbox : conn.inbox = msg :: conn'.inbox)
      (hOutbox : conn'.outbox = conn.outbox) (hOld : serves w = none)
      (hNew : serves w' = requestOf (recvInto w.buf msg)) (hSilent : replies es = [])
  | goesOn (hInbox : conn'.inbox = conn.inbox) (hOutbox : conn'.outbox = conn.outbox)
      (hServes : serves w' = serves w) (hSilent : replies es = [])
  | answers (req : Request) (msg : List UInt8) (hInbox : conn'.inbox = conn.inbox)
      (hOutbox : conn'.outbox = conn.outbox ++ [msg]) (hOld : serves w = some req)
      (hNew : serves w' = none) (hReply : replies es = [(req, msg)])

theorem serves_recv {w : Worker} (h : w.pc = .recv) : serves w = none := by rw [serves, h]

/-- What `recv` returned to the thread that moves, if it stood there. -/
theorem conn_work_run {conn conn' : Conn} {sh sh' : Shared} {w w' : Worker} {stray : UInt8}
    {es : List Event} (hStep : conn.work sh w stray = some (sh', w', conn', es)) :
    ∃ input, processClient sh w ⟨input, stray⟩ = some (sh', w', es) ∧
      conn'.closed = conn.closed ∧ conn'.outbox = conn.outbox ++ sent es ∧
      ((w.pc = .recv ∧ ∃ msg, input = .data msg ∧ conn.inbox = msg :: conn'.inbox) ∨
        (input = .closed ∧ conn'.inbox = conn.inbox ∧
          (w.pc = .recv → conn.inbox = [] ∧ conn.closed = true))) := by
  unfold Conn.work at hStep
  by_cases hPc : w.pc = .recv
  · rw [if_pos hPc, Conn.recv] at hStep
    obtain ⟨inbox, closed, outbox⟩ := conn
    cases inbox with
    | cons msg rest =>
      obtain ⟨r, hRun, hEq⟩ := Option.map_eq_some_iff.mp hStep
      cases hEq
      exact ⟨.data msg, hRun, rfl, rfl, Or.inl ⟨hPc, msg, rfl, rfl⟩⟩
    | nil =>
      cases closed with
      | false => cases hStep
      | true =>
        obtain ⟨r, hRun, hEq⟩ := Option.map_eq_some_iff.mp hStep
        cases hEq
        exact ⟨.closed, hRun, rfl, rfl, Or.inr ⟨rfl, rfl, fun _ => ⟨rfl, rfl⟩⟩⟩
  · rw [if_neg hPc] at hStep
    obtain ⟨r, hRun, hEq⟩ := Option.map_eq_some_iff.mp hStep
    cases hEq
    exact ⟨.closed, hRun, rfl, rfl, Or.inr ⟨rfl, rfl, fun h => absurd h hPc⟩⟩

theorem conn_work {conn conn' : Conn} {sh sh' : Shared} {w w' : Worker} {stray : UInt8}
    {es : List Event} (hStep : conn.work sh w stray = some (sh', w', conn', es)) :
    conn.Works conn' w w' es := by
  obtain ⟨input, hRun, -, hOutbox, hInput⟩ := conn_work_run hStep
  cases processClient_serves hRun with
  | takes msg hPc hData hServes hSilent =>
    rw [sent, hSilent, List.map_nil, List.append_nil] at hOutbox
    obtain ⟨-, msg', hSame, hInbox⟩ | ⟨hClosed, -⟩ := hInput
    · cases hData.symm.trans hSame
      exact .takes msg hInbox hOutbox (serves_recv hPc) hServes hSilent
    · cases hData.symm.trans hClosed
  | goesOn hNone hServes hSilent =>
    rw [sent, hSilent, List.map_nil, List.append_nil] at hOutbox
    obtain ⟨hPc, msg, hData, -⟩ | ⟨-, hInbox, -⟩ := hInput
    · exact absurd hData (hNone hPc msg)
    · exact .goesOn hInbox hOutbox hServes hSilent
  | answers req msg hPc hOld hNew hReply =>
    rw [sent, hReply] at hOutbox
    obtain ⟨hRecv, -⟩ | ⟨-, hInbox, -⟩ := hInput
    · exact absurd hRecv hPc
    · exact .answers req msg hInbox hOutbox hOld hNew hReply

end OsLabs.Mt.Clients
