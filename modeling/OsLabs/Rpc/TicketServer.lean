import OsLabs.Runs.Schedule

/-!
# The ticket server (`sem_05/rpc/compile/0`)

The dispatcher thread takes one request at a time. For `GET_NUMBER` it starts a detached
`get_number_worker`, which runs `get_number_1_svc` and sends the reply under `send_mutex`;
`BAKERY_PROC` it executes itself and takes `send_mutex` only to reply. A client calls
`GET_NUMBER` once and then `BAKERY_PROC` with the number it got until it is served. Every
call is executed exactly once.

A step is one access to a shared variable, one mutex call, or the sending or taking of a
message. The input of a dispatcher step is what `clock_gettime` gives there, nothing if it
fails; every other statement ignores it. The counters are unbounded: past `INT_MAX` the
code has no defined behaviour.
-/

namespace OsLabs.Rpc.TicketServer

open Runs

variable {τ : Type}

/-- What a client does next, or which of its calls is under way: sent, or taken by the
dispatcher. -/
inductive ClientPc where
  | getNumber
  | getNumberSent
  | getNumberWait
  | bakeryProc (arg : Nat)
  | bakeryProcSent (arg : Nat)
  | bakeryProcWait (arg : Nat)
  | served (arg : Nat)
deriving DecidableEq

/-- The `get_number_worker` thread of a client. -/
inductive WorkerPc where
  | absent
  | lock
  | readNum
  | incNum (result : Nat)
  | sendreply (result : Nat)
  | unlock
  | ended
deriving DecidableEq

/-- `BAKERY_RESULT`; `time` is only assigned for a client that is served. -/
structure BakeryResult where
  isRecievedTime : Int
  time : Option Int
deriving DecidableEq

/-- The dispatcher in `svc_run` or in `BAKERY_PROC` for the client `t`. The reply is missing
if `retval` is `FALSE`. -/
inductive DispatcherPc (τ : Type) where
  | svcRun
  | compare (t : τ) (arg : Nat)
  | clock (t : τ) (arg : Nat)
  | incService (t : τ) (arg : Nat) (time : Option Int)
  | lock (t : τ) (reply : Option BakeryResult)
  | sendreply (t : τ) (reply : Option BakeryResult)
  | unlock
deriving DecidableEq

inductive Thread (τ : Type) where
  | worker (t : τ)
  | dispatcher
deriving DecidableEq

structure State (τ : Type) where
  clientNumberService : Nat
  clientNum : Nat
  sendMutex : Option (Thread τ)
  client : τ → ClientPc
  worker : τ → WorkerPc
  dispatcher : DispatcherPc τ

/-- A ticket handed to a client, and the outcome of a call of `BAKERY_PROC`. -/
inductive Event (τ : Type) where
  | issued (t : τ) (number : Nat)
  | served (t : τ) (number : Nat)
  | refused (t : τ) (number : Nat)
  | clockFailed (t : τ) (number : Nat)
deriving DecidableEq

/-- Who moves: a client, a worker, or the dispatcher, which takes the request of a client or
goes on with its call. -/
inductive Action (τ : Type) where
  | client (t : τ)
  | worker (t : τ)
  | take (t : τ)
  | dispatcher (clock : Option Int)
deriving DecidableEq

variable [DecidableEq τ]

def State.setClient (s : State τ) (t : τ) (pc : ClientPc) : State τ :=
  { s with client := Function.update s.client t pc }

def State.setWorker (s : State τ) (t : τ) (pc : WorkerPc) : State τ :=
  { s with worker := Function.update s.worker t pc }

def clientStep (s : State τ) (t : τ) : Option (State τ × List (Event τ)) :=
  match s.client t with
  | .getNumber => some (s.setClient t .getNumberSent, [])
  | .bakeryProc arg => some (s.setClient t (.bakeryProcSent arg), [])
  | _ => none

/-- `bakery_prog_1` of the server on the request of client `t`. -/
def take (s : State τ) (t : τ) : Option (State τ × List (Event τ)) :=
  if s.dispatcher = .svcRun then
    match s.client t with
    | .getNumberSent => some ((s.setClient t .getNumberWait).setWorker t .lock, [])
    | .bakeryProcSent arg =>
      some ({ s.setClient t (.bakeryProcWait arg) with dispatcher := .compare t arg }, [])
    | _ => none
  else none

/-- `get_number_worker` with `get_number_1_svc`. -/
def getNumberWorker (s : State τ) (t : τ) : Option (State τ × List (Event τ)) :=
  match s.worker t with
  | .lock =>
    if s.sendMutex = none then
      some ({ s.setWorker t .readNum with sendMutex := some (.worker t) }, [])
    else none
  | .readNum => some (s.setWorker t (.incNum s.clientNum), [])
  | .incNum result =>
    some ({ s.setWorker t (.sendreply result) with clientNum := s.clientNum + 1 }, [])
  | .sendreply result =>
    some ((s.setClient t (.bakeryProc result)).setWorker t .unlock, [.issued t result])
  | .unlock => some ({ s.setWorker t .ended with sendMutex := none }, [])
  | .absent | .ended => none

/-- How a client goes on after a reply to `BAKERY_PROC`. -/
def receive (arg : Nat) (result : BakeryResult) : ClientPc :=
  if result.isRecievedTime = 0 then .bakeryProc arg else .served arg

/-- The rest of `bakery_prog_1` for `BAKERY_PROC`, with `bakery_proc_1_svc`. -/
def dispatcherStep (s : State τ) (clock : Option Int) : Option (State τ × List (Event τ)) :=
  match s.dispatcher with
  | .svcRun => none
  | .compare t arg =>
    if arg ≠ s.clientNumberService then
      some ({ s with dispatcher := .lock t (some ⟨0, none⟩) }, [.refused t arg])
    else some ({ s with dispatcher := .clock t arg }, [])
  | .clock t arg => some ({ s with dispatcher := .incService t arg clock }, [])
  | .incService t arg time =>
    some ({ s with
        clientNumberService := s.clientNumberService + 1
        dispatcher := .lock t (time.map fun ms => ⟨1, some ms⟩) },
      [if time.isSome then .served t arg else .clockFailed t arg])
  | .lock t reply =>
    if s.sendMutex = none then
      some ({ s with sendMutex := some .dispatcher, dispatcher := .sendreply t reply }, [])
    else none
  | .sendreply t reply =>
    match reply, s.client t with
    | some result, .bakeryProcWait arg =>
      some ({ s.setClient t (receive arg result) with dispatcher := .unlock }, [])
    | _, _ => some ({ s with dispatcher := .unlock }, [])
  | .unlock => some ({ s with sendMutex := none, dispatcher := .svcRun }, [])

def step (s : State τ) : Action τ → Option (State τ × List (Event τ))
  | .client t => clientStep s t
  | .worker t => getNumberWorker s t
  | .take t => take s t
  | .dispatcher clock => dispatcherStep s clock

omit [DecidableEq τ] in
/-- The server as started, with no client having called yet. -/
def init : State τ := ⟨0, 0, none, fun _ => .getNumber, fun _ => .absent, .svcRun⟩

def serve (sched : List (Action τ)) : State τ × List (Event τ) := run step init sched

end OsLabs.Rpc.TicketServer
