import OsLabs.RwLock.Lock

/-!
# Reader and writer threads on Windows (`sem_05/lab_03/reader-writer_win/main.c`)

`can_read` and `can_write` are auto-reset events: a wait that returns resets the event. A
thread that starts reading or writing tries one of the two without waiting, and otherwise
waits for the other. `statement` is one statement of `reader` or `writer`, with one wait,
one event or mutex call, one interlocked operation, or one access to a counter;
`active_readers++` and `active_readers--` are a load and a store.

When a writer finds `cnt` at its limit it leaves the loop without `stop_write`; its program
counter remembers that it is still in its section. `GenerateConsoleCtrlEvent` may end the
process at any time after the call, which only cuts a run short. The counters are unbounded.
-/

namespace OsLabs.Sem05.WinReaderWriter

open Runs RwLock

/-- The events (whether they are signalled), the mutex (whether it is owned) and the global
variables. -/
structure Shared where
  canRead : Bool
  canWrite : Bool
  bmutex : Bool
  readQueue : Int
  writeQueue : Int
  activeReaders : Int
  symbol : UInt8
  cnt : Int

/-- The next statement of a thread. -/
inductive Pc where
  | readLoop
  | incReadQueue
  | testWriteQueue
  | tryCanWrite
  | waitCanRead
  | waitMutex
  | incActiveLoad
  | incActiveStore (value : Int)
  | decReadQueue
  | releaseMutex
  | readSymbol
  | decActiveLoad
  | decActiveStore (value : Int)
  | testActive
  | lastReader
  | writeLoop
  | incWriteQueue
  | testActiveReaders
  | tryCanRead
  | waitCanWrite
  | decWriteQueue
  | testSymbol
  | incCnt
  | testCnt
  | resetSymbol
  | incSymbol
  | testStop
  | writeSymbol
  | resetCanWrite
  | testReadQueue
  | setCanRead
  | setCanWrite
  | leaveLoop
  | leftInside
  | finished
deriving DecidableEq

inductive Event where
  | read (c : UInt8)
  | write (c : UInt8)
  | ctrlBreak
  | finished
deriving DecidableEq

def statement (sh : Shared) (pc : Pc) (_ : Unit) : Option (Shared × Pc × List Event) :=
  match pc with
  -- reader, with start_read and stop_read
  | .readLoop =>
    if sh.cnt < 3 then some (sh, .incReadQueue, []) else some (sh, .finished, [.finished])
  | .incReadQueue => some ({ sh with readQueue := sh.readQueue + 1 }, .testWriteQueue, [])
  | .testWriteQueue =>
    if sh.writeQueue > 0 then some (sh, .waitCanRead, []) else some (sh, .tryCanWrite, [])
  | .tryCanWrite =>
    if sh.canWrite then some ({ sh with canWrite := false }, .waitMutex, [])
    else some (sh, .waitCanRead, [])
  | .waitCanRead =>
    if sh.canRead then some ({ sh with canRead := false }, .waitMutex, []) else none
  | .waitMutex =>
    if sh.bmutex then none else some ({ sh with bmutex := true }, .incActiveLoad, [])
  | .incActiveLoad => some (sh, .incActiveStore sh.activeReaders, [])
  | .incActiveStore value => some ({ sh with activeReaders := value + 1 }, .decReadQueue, [])
  | .decReadQueue => some ({ sh with readQueue := sh.readQueue - 1 }, .releaseMutex, [])
  | .releaseMutex => some ({ sh with bmutex := false }, .readSymbol, [])
  | .readSymbol => some (sh, .decActiveLoad, [.read sh.symbol])
  | .decActiveLoad => some (sh, .decActiveStore sh.activeReaders, [])
  | .decActiveStore value => some ({ sh with activeReaders := value - 1 }, .testActive, [])
  | .testActive =>
    if sh.activeReaders = 0 then some (sh, .lastReader, []) else some (sh, .readLoop, [])
  | .lastReader => some ({ sh with canWrite := true }, .readLoop, [])
  -- writer, with start_write and stop_write
  | .writeLoop =>
    if sh.cnt < 3 then some (sh, .incWriteQueue, []) else some (sh, .finished, [.finished])
  | .incWriteQueue => some ({ sh with writeQueue := sh.writeQueue + 1 }, .testActiveReaders, [])
  | .testActiveReaders =>
    if sh.activeReaders > 0 then some (sh, .waitCanWrite, []) else some (sh, .tryCanRead, [])
  | .tryCanRead =>
    if sh.canRead then some ({ sh with canRead := false }, .decWriteQueue, [])
    else some (sh, .waitCanWrite, [])
  | .waitCanWrite =>
    if sh.canWrite then some ({ sh with canWrite := false }, .decWriteQueue, []) else none
  | .decWriteQueue => some ({ sh with writeQueue := sh.writeQueue - 1 }, .testSymbol, [])
  | .testSymbol =>
    if sh.symbol = 'z'.toUInt8 then some (sh, .incCnt, []) else some (sh, .incSymbol, [])
  | .incCnt => some ({ sh with cnt := sh.cnt + 1 }, .testCnt, [])
  | .testCnt =>
    if sh.cnt ≥ 3 then some (sh, .resetSymbol, [.ctrlBreak]) else some (sh, .resetSymbol, [])
  | .resetSymbol => some ({ sh with symbol := 'a'.toUInt8 }, .testStop, [])
  | .incSymbol => some ({ sh with symbol := sh.symbol + 1 }, .testStop, [])
  | .testStop => if sh.cnt < 3 then some (sh, .writeSymbol, []) else some (sh, .leaveLoop, [])
  | .writeSymbol => some (sh, .resetCanWrite, [.write sh.symbol])
  | .resetCanWrite => some ({ sh with canWrite := false }, .testReadQueue, [])
  | .testReadQueue =>
    if sh.readQueue > 0 then some (sh, .setCanRead, []) else some (sh, .setCanWrite, [])
  | .setCanRead => some ({ sh with canRead := true }, .writeLoop, [])
  | .setCanWrite => some ({ sh with canWrite := true }, .writeLoop, [])
  | .leaveLoop =>
    if sh.cnt < 3 then some (sh, .incWriteQueue, []) else some (sh, .leftInside, [.finished])
  | .leftInside | .finished => none

/-- The globals after the `CreateEvent` and `CreateMutex` calls of `main`. -/
def initShared : Shared := ⟨false, true, false, 0, 0, 0, 'a'.toUInt8 - 1, 0⟩

variable {τ : Type}

/-- All threads before their first statement; `writes` tells the writers. -/
def init (writes : τ → Bool) : Conf τ Shared Pc :=
  ⟨initShared, fun t => if writes t then .writeLoop else .readLoop⟩

def execute [DecidableEq τ] (writes : τ → Bool) (sched : List (τ × Unit)) :
    Conf τ Shared Pc × List (τ × Event) :=
  run (poolStep statement) (init writes) sched

/-! ## Where a thread is -/

/-- A writer between the return of `start_write` and the `SetEvent` of `stop_write`. -/
def Pc.inWrite : Pc → Bool
  | .testSymbol | .incCnt | .testCnt | .resetSymbol | .incSymbol | .testStop | .writeSymbol
  | .resetCanWrite | .testReadQueue | .setCanRead | .setCanWrite | .leaveLoop | .leftInside => true
  | _ => false

/-- A reader between the wait that let it in and its decrement in `stop_read`. -/
def Pc.inRead : Pc → Bool
  | .waitMutex | .incActiveLoad | .incActiveStore _ | .decReadQueue | .releaseMutex
  | .readSymbol | .decActiveLoad | .decActiveStore _ => true
  | _ => false

end OsLabs.Sem05.WinReaderWriter
