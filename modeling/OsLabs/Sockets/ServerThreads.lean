import OsLabs.Runs.Pool
import OsLabs.Sockets.Exchange
import OsLabs.SysV.Semop

/-!
# The server with a thread per client (`server_1.c`)

`processClient` is the loop of one worker thread, one statement a step. A worker that
cannot complete a `semop` falls asleep in it and retries whenever it is scheduled. The
input of a step is what `recv` returns there; every other statement ignores it. `exit`
ends the process, so after it no worker moves.

The locals `req` and `status` are not initialised by the code, and a run may start from
any values of them. `clock_gettime` and the measured time have no effect on anything
modelled here; of `log_time` the operation name remains.
-/

namespace OsLabs.Sockets.ServerThreads

open Memory Runs SysV

inductive Sem where
  | empty
  | full
  | mutex
deriving DecidableEq

def startProduce : List (Sembuf Sem) := [⟨.empty, -1, false⟩, ⟨.mutex, -1, false⟩]
def stopProduce : List (Sembuf Sem) := [⟨.mutex, 1, false⟩, ⟨.full, 1, false⟩]
def startConsume : List (Sembuf Sem) := [⟨.full, -1, false⟩, ⟨.mutex, -1, false⟩]
def stopConsume : List (Sembuf Sem) := [⟨.mutex, 1, false⟩, ⟨.empty, 1, false⟩]

/-- The global variables, the semaphore set and whether `exit` has been called. -/
structure Shared where
  sems : SemSet Sem
  ring : Nat → UInt8
  head : Nat
  tail : Nat
  exited : Bool

/-- The next statement of a worker. The flag of a `semop` tells that the worker already
sleeps in it. -/
inductive Pc where
  | recv
  | dispatch
  | startProduce (asleep : Bool)
  | putRing
  | putTail
  | putStatus
  | putPrint
  | stopProduce (asleep : Bool)
  | sendStatus
  | startConsume (asleep : Bool)
  | getRing
  | getHead
  | getPrint
  | stopConsume (asleep : Bool)
  | getStatus
  | sendReq
  | logTime
  | close
  | finished

structure Worker where
  pc : Pc
  req : ReqT
  status : BitVec 32

/-- A `semop` statement that falls asleep at `waiting` and continues at `next`. -/
def call (sh : Shared) (w : Worker) (ops : List (Sembuf Sem)) (asleep : Bool)
    (waiting next : Pc) : Option (Shared × Worker × List Event) :=
  attempt sh.sems ops asleep (fun vals => ({ sh with sems := vals }, { w with pc := next }, []))
    (sh, { w with pc := waiting }, []) ({ sh with exited := true }, w, [.perror "semop"])

def processClient (sh : Shared) (w : Worker) (input : Recv) :
    Option (Shared × Worker × List Event) :=
  if sh.exited then none
  else match w.pc with
  | .recv =>
    match input with
    | .data msg =>
      some (sh, { w with pc := .dispatch, req := recvInto w.req msg }, [.recv msg])
    | .closed | .error => some (sh, { w with pc := .close }, [])
  | .dispatch =>
    if w.req.type = 'p'.toUInt8 then some (sh, { w with pc := .startProduce false }, [])
    else if w.req.type = 'c'.toUInt8 then some (sh, { w with pc := .startConsume false }, [])
    else some (sh, { w with pc := .logTime }, [])
  | .startProduce asleep => call sh w startProduce asleep (.startProduce true) .putRing
  | .putRing =>
    some ({ sh with ring := Function.update sh.ring sh.tail w.req.letter },
      { w with pc := .putTail }, [.put sh.tail w.req.letter])
  | .putTail =>
    some ({ sh with tail := (sh.tail + 1) % ARR_SIZE }, { w with pc := .putStatus }, [])
  | .putStatus => some (sh, { w with pc := .putPrint, status := OK }, [.decide OK])
  | .putPrint =>
    some (sh, { w with pc := .stopProduce false }, [.printLetter "producer put: " w.req.letter])
  | .stopProduce asleep => call sh w stopProduce asleep (.stopProduce true) .sendStatus
  | .sendStatus => some (sh, { w with pc := .logTime }, [.send (intBytes w.status)])
  | .startConsume asleep => call sh w startConsume asleep (.startConsume true) .getRing
  | .getRing =>
    some (sh, { w with pc := .getHead, req := w.req.setLetter (sh.ring sh.head) },
      [.got sh.head (sh.ring sh.head)])
  | .getHead =>
    some ({ sh with head := (sh.head + 1) % ARR_SIZE }, { w with pc := .getPrint }, [])
  | .getPrint =>
    some (sh, { w with pc := .stopConsume false }, [.printLetter "consumer got: " w.req.letter])
  | .stopConsume asleep => call sh w stopConsume asleep (.stopConsume true) .getStatus
  | .getStatus =>
    some (sh, { w with pc := .sendReq, req := w.req.setStatus OK }, [.decide OK])
  | .sendReq => some (sh, { w with pc := .logTime }, [.send (bytes w.req)])
  | .logTime =>
    some (sh, { w with pc := .recv },
      [.log (if w.req.type = 'p'.toUInt8 then 'p'.toUInt8 else 'c'.toUInt8)])
  | .close => some (sh, { w with pc := .finished }, [])
  | .finished => none

/-- The semaphores after the `semctl` calls of `main`. -/
def initSems : SemSet Sem
  | .empty => ARR_SIZE
  | .full => 0
  | .mutex => 1

/-- The zero-initialised globals. -/
def initShared : Shared := ⟨initSems, fun _ => 0, 0, 0, false⟩

variable {τ : Type}

/-- All workers before their first `recv`, with arbitrary contents of their locals. -/
def init (req : τ → ReqT) (status : τ → BitVec 32) : Conf τ Shared Worker :=
  ⟨initShared, fun t => ⟨.recv, req t, status t⟩⟩

/-- The server under a schedule: which worker moves, and what `recv` would return to it. -/
def serve [DecidableEq τ] (req : τ → ReqT) (status : τ → BitVec 32) (sched : List (τ × Recv)) :
    Conf τ Shared Worker × List (τ × Event) :=
  run (poolStep processClient) (init req status) sched

end OsLabs.Sockets.ServerThreads
