import OsLabs.Memory.Object
import OsLabs.Runs.Pool
import OsLabs.SysV.Semop

/-!
# The reservation server (`mt/server.c`)

A table of letters is shared by one worker thread per connection. `'r'` copies the table,
cell by cell, into the worker's buffer and sends it; `'w'` replaces a letter by a blank,
tests whether all are reserved, and sends a status. Five semaphores keep readers and
writers apart, and the replies are sent before the section is left.

`processClient` is the loop of a worker after it has read its connection, one access to
`arr` a step. The input of a step is what `recv` returns there and what a read of `arr`
outside its bounds would find. `buf` and the other locals are not initialised. `exit` ends
the process, so after it no worker moves. The text of a `printf` is given without the
process id in front of it.
-/

namespace OsLabs.Mt

open Memory Runs SysV

abbrev BUF_SIZE : Nat := 200
abbrev ARR_SIZE : Nat := 20

instance neZero_bufSize : NeZero BUF_SIZE := ⟨Nat.succ_ne_zero 199⟩

def OK : BitVec 32 := 0
def ALREADLY_RESERVED : BitVec 32 := 1
def ERROR : BitVec 32 := 2

inductive Sem where
  | readerQueue
  | writerQueue
  | reader
  | writer
  | shadowWriter
deriving DecidableEq

def startRd : List (Sembuf Sem) :=
  [⟨.readerQueue, 1, false⟩, ⟨.writerQueue, 0, false⟩, ⟨.shadowWriter, 0, false⟩,
    ⟨.reader, 1, false⟩, ⟨.readerQueue, -1, false⟩]
def stopRd : List (Sembuf Sem) := [⟨.reader, -1, false⟩]
def startWr : List (Sembuf Sem) :=
  [⟨.writerQueue, 1, false⟩, ⟨.reader, 0, false⟩, ⟨.writer, -1, false⟩,
    ⟨.shadowWriter, 1, false⟩, ⟨.writerQueue, -1, false⟩]
def stopWr : List (Sembuf Sem) := [⟨.shadowWriter, -1, false⟩, ⟨.writer, 1, false⟩]

structure Shared where
  sems : SemSet Sem
  arr : Object ARR_SIZE
  exited : Bool

/-- What a client asks for; `index` is the value of the variable `index`. -/
inductive Request where
  | read
  | write (index : Nat)
deriving DecidableEq

/-- The conversion of a `char` through `int` to `unsigned`. -/
def toUnsigned (c : UInt8) : Nat := (c.toBitVec.signExtend 32).toNat

/-- The branches of `switch (buf[0])`. -/
def requestOf (buf : Object BUF_SIZE) : Option Request :=
  if buf 0 = 'r'.toUInt8 then some .read
  else if buf 0 = 'w'.toUInt8 then some (.write (toUnsigned (buf 1)))
  else none

inductive Event where
  | request (req : Request)
  | enter
  | load (i : Nat)
  | store (i : Nat)
  | reply (req : Request) (msg : List UInt8)
  | leave
  | print (text : String)
  | printIndex (text : String) (index : Nat)
  | kill
  | perror (text : String)
deriving DecidableEq

/-- The next statement of a worker; the flag of a `semop` tells that the worker sleeps in
it, the number in a loop is its counter. -/
inductive Pc where
  | recv
  | dispatch
  | startRd (asleep : Bool)
  | copy (i : Nat)
  | sendBuf
  | stopRd (asleep : Bool)
  | startWr (asleep : Bool)
  | test
  | reserve
  | refuse
  | full (i : Nat)
  | sendStatus
  | stopWr (asleep : Bool)
  | finished
deriving DecidableEq

structure Worker where
  pc : Pc
  index : Nat
  buf : Object BUF_SIZE
  status : BitVec 32

structure Input where
  recv : Recv
  stray : UInt8

/-- A `semop` statement that falls asleep at `waiting` and continues at `next`. -/
def call (sh : Shared) (w : Worker) (ops : List (Sembuf Sem)) (asleep : Bool)
    (waiting next : Pc) (mark : Event) : Option (Shared × Worker × List Event) :=
  attempt sh.sems ops asleep
    (fun vals => ({ sh with sems := vals }, { w with pc := next }, [mark]))
    (sh, { w with pc := waiting }, []) ({ sh with exited := true }, w, [.perror "semop"])

/-- The value of `arr[i]`. -/
def loadArr (arr : Object ARR_SIZE) (i : Nat) (stray : UInt8) : UInt8 :=
  if h : i < ARR_SIZE then arr ⟨i, h⟩ else stray

/-- The statement `arr[i] = ' '`. -/
def storeArr (arr : Object ARR_SIZE) (i : Nat) : Object ARR_SIZE :=
  fun j => if j.val = i then ' '.toUInt8 else arr j

def processClient (sh : Shared) (w : Worker) (input : Input) :
    Option (Shared × Worker × List Event) :=
  if sh.exited then none
  else match w.pc with
  | .recv =>
    match input.recv with
    | .data msg => some (sh, { w with pc := .dispatch, buf := recvInto w.buf msg }, [])
    | .closed | .error => some (sh, { w with pc := .finished }, [.print "Server finished\n"])
  | .dispatch =>
    match requestOf w.buf with
    | some .read => some (sh, { w with pc := .startRd false }, [.request .read])
    | some (.write index) =>
      some (sh, { w with pc := .startWr false, index := index }, [.request (.write index)])
    | none => some (sh, { w with pc := .recv }, [])
  | .startRd asleep => call sh w startRd asleep (.startRd true) (.copy 0) .enter
  | .copy i =>
    if i < ARR_SIZE then
      some (sh, { w with
        pc := .copy (i + 1)
        buf := Function.update w.buf (Fin.ofNat BUF_SIZE i) (loadArr sh.arr i input.stray) },
        [.load i])
    else some (sh, { w with pc := .sendBuf }, [])
  | .sendBuf => some (sh, { w with pc := .stopRd false }, [.reply .read (bytes w.buf)])
  | .stopRd asleep => call sh w stopRd asleep (.stopRd true) .recv .leave
  | .startWr asleep => call sh w startWr asleep (.startWr true) .test .enter
  | .test =>
    if w.index < ARR_SIZE then
      if loadArr sh.arr w.index input.stray ≠ ' '.toUInt8 then
        some (sh, { w with pc := .reserve }, [.load w.index])
      else some (sh, { w with pc := .refuse }, [.load w.index])
    else some (sh, { w with pc := .refuse }, [])
  | .reserve =>
    some ({ sh with arr := storeArr sh.arr w.index }, { w with pc := .full 0, status := OK },
      [.store w.index, .printIndex "Client reserved letter " w.index])
  | .refuse =>
    if loadArr sh.arr w.index input.stray = ' '.toUInt8 then
      some (sh, { w with pc := .full 0, status := ALREADLY_RESERVED },
        [.load w.index, .printIndex "Client failed to reserve letter " w.index])
    else
      some (sh, { w with pc := .full 0, status := ERROR },
        [.load w.index, .printIndex "Server received invalid letter number " w.index])
  | .full i =>
    if i < ARR_SIZE then
      if loadArr sh.arr i input.stray ≠ ' '.toUInt8 then
        some (sh, { w with pc := .sendStatus }, [.load i])
      else some (sh, { w with pc := .full (i + 1) }, [.load i])
    else
      some (sh, { w with pc := .sendStatus },
        [.print "All letters reserved. Shutting down server.\n", .kill])
  | .sendStatus =>
    some (sh, { w with pc := .stopWr false }, [.reply (.write w.index) (intBytes w.status)])
  | .stopWr asleep => call sh w stopWr asleep (.stopWr true) .recv .leave
  | .finished => none

/-- The table as `main` fills it. -/
def initArr : Object ARR_SIZE := fun i => 'a'.toUInt8 + UInt8.ofNat i.val

/-- The semaphores after the `semctl` calls of `main`. -/
def initSems : SemSet Sem
  | .writer => 1
  | _ => 0

variable {τ : Type}

/-- All workers before their first `recv`, with arbitrary contents of their locals. -/
def init (locals : τ → Nat × Object BUF_SIZE × BitVec 32) : Conf τ Shared Worker :=
  ⟨⟨initSems, initArr, false⟩, fun t => ⟨.recv, (locals t).1, (locals t).2.1, (locals t).2.2⟩⟩

/-- The server under a schedule: which worker moves, and its input. -/
def serve [DecidableEq τ] (locals : τ → Nat × Object BUF_SIZE × BitVec 32)
    (sched : List (τ × Input)) : Conf τ Shared Worker × List (τ × Event) :=
  run (poolStep processClient) (init locals) sched

end OsLabs.Mt
