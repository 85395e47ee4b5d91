import OsLabs.Memory.Letters
import OsLabs.SysV.Slots

/-!
# Producer and consumer processes (`sem_05/lab_03/producer-consumer/main.c`)

The processes share one segment of a page: two pointers, the next letter, and the letters
produced, which are stored one after the other and never overwritten. An address is an
offset from `base_addr`. `statement` is one statement of `producer` or `consumer`, with a
single access to the segment at most; an access outside the segment ends the process.
`deliver` is the arrival of `SIGALRM`, which clears `flag` and lets a `semop` the process
sleeps in fail with `EINTR`, so that the process exits. `flag` is copied by `fork`.
-/

namespace OsLabs.Sem05.ProducerConsumer

open Memory Runs SysV RwLock

def N : Nat := 26
def SIZEOF_POINTER : Nat := 8

/-- The address `start_addr` behind the two pointers and the letter. -/
def START : Nat := 2 * SIZEOF_POINTER + 1

inductive Sem where
  | bufferEmpty
  | bufferFull
  | binSem
deriving DecidableEq

def startProduce : List (Sembuf Sem) := [⟨.bufferEmpty, -1, false⟩, ⟨.binSem, -1, false⟩]
def stopProduce : List (Sembuf Sem) := [⟨.binSem, 1, false⟩, ⟨.bufferFull, 1, false⟩]
def startConsume : List (Sembuf Sem) := [⟨.bufferFull, -1, false⟩, ⟨.binSem, -1, false⟩]
def stopConsume : List (Sembuf Sem) := [⟨.binSem, 1, false⟩, ⟨.bufferEmpty, 1, false⟩]

/-- The semaphores, `*pr_ptr`, `*con_ptr`, `*letter` and the bytes of the segment. -/
structure Shared where
  sems : SemSet Sem
  prPtr : Nat
  conPtr : Nat
  letter : UInt8
  mem : Nat → UInt8

/-- The next statement of a process. The flag of a `semop` tells that the process sleeps
in it; the other arguments are values loaded by the statement under way. -/
inductive Pc where
  | produceLoop
  | startProduce (asleep : Bool)
  | letterLoad
  | letterStore (value : UInt8)
  | wrapTest
  | wrapStore
  | putLoad
  | putStore (ptr : Nat)
  | prLoad
  | prStore (ptr : Nat)
  | printPut
  | stopProduce (asleep : Bool)
  | consumeLoop
  | startConsume (asleep : Bool)
  | getLoad
  | getRead (ptr : Nat)
  | conLoad
  | conStore (ptr : Nat)
  | stopConsume (asleep : Bool)
  | exited
deriving DecidableEq

structure Process where
  pc : Pc
  flag : Bool
  symb : UInt8

/-- The accesses through the two pointers, and what a process prints. -/
inductive Event where
  | put (addr : Nat) (c : UInt8)
  | got (addr : Nat) (c : UInt8)
  | segv (addr : Nat)
  | printPut (c : UInt8)
  | caught
  | semop (errno : Errno)
deriving DecidableEq

inductive Input where
  | run
  | sigalrm

/-- A `semop` statement that falls asleep at `waiting` and continues at `next`. -/
def call (sh : Shared) (p : Process) (ops : List (Sembuf Sem)) (asleep : Bool)
    (waiting next : Pc) : Option (Shared × Process × List Event) :=
  attempt sh.sems ops asleep (fun vals => ({ sh with sems := vals }, { p with pc := next }, []))
    (sh, { p with pc := waiting }, []) (sh, { p with pc := .exited }, [.semop .erange])

def statement (pageSize : Nat) (sh : Shared) (p : Process) :
    Option (Shared × Process × List Event) :=
  match p.pc with
  | .produceLoop =>
    if p.flag then some (sh, { p with pc := .startProduce false }, [])
    else some (sh, { p with pc := .exited }, [])
  | .startProduce asleep => call sh p startProduce asleep (.startProduce true) .letterLoad
  | .letterLoad => some (sh, { p with pc := .letterStore sh.letter }, [])
  | .letterStore value =>
    some ({ sh with letter := value + 1 }, { p with pc := .wrapTest, symb := value }, [])
  | .wrapTest =>
    if sh.letter = 'z'.toUInt8 + 1 then some (sh, { p with pc := .wrapStore }, [])
    else some (sh, { p with pc := .putLoad }, [])
  | .wrapStore => some ({ sh with letter := 'a'.toUInt8 }, { p with pc := .putLoad }, [])
  | .putLoad => some (sh, { p with pc := .putStore sh.prPtr }, [])
  | .putStore ptr =>
    if ptr < pageSize then
      some ({ sh with mem := Function.update sh.mem ptr p.symb }, { p with pc := .prLoad },
        [.put ptr p.symb])
    else some (sh, { p with pc := .exited }, [.segv ptr])
  | .prLoad => some (sh, { p with pc := .prStore sh.prPtr }, [])
  | .prStore ptr => some ({ sh with prPtr := ptr + 1 }, { p with pc := .printPut }, [])
  | .printPut => some (sh, { p with pc := .stopProduce false }, [.printPut p.symb])
  | .stopProduce asleep => call sh p stopProduce asleep (.stopProduce true) .produceLoop
  | .consumeLoop =>
    if p.flag then some (sh, { p with pc := .startConsume false }, [])
    else some (sh, { p with pc := .exited }, [])
  | .startConsume asleep => call sh p startConsume asleep (.startConsume true) .getLoad
  | .getLoad => some (sh, { p with pc := .getRead sh.conPtr }, [])
  | .getRead ptr =>
    if ptr < pageSize then some (sh, { p with pc := .conLoad }, [.got ptr (sh.mem ptr)])
    else some (sh, { p with pc := .exited }, [.segv ptr])
  | .conLoad => some (sh, { p with pc := .conStore sh.conPtr }, [])
  | .conStore ptr => some ({ sh with conPtr := ptr + 1 }, { p with pc := .stopConsume false }, [])
  | .stopConsume asleep => call sh p stopConsume asleep (.stopConsume true) .consumeLoop
  | .exited => none

/-- The statement in which a process sleeps, if it does. -/
def Pc.asleep : Pc → Bool
  | .startProduce asleep | .stopProduce asleep | .startConsume asleep | .stopConsume asleep =>
    asleep
  | _ => false

def deliver (sh : Shared) (p : Process) : Option (Shared × Process × List Event) :=
  if p.pc = .exited then none
  else if p.pc.asleep then
    some (sh, { p with pc := .exited, flag := false }, [.caught, .semop .eintr])
  else some (sh, { p with flag := false }, [.caught])

def step (pageSize : Nat) (sh : Shared) (p : Process) :
    Input → Option (Shared × Process × List Event)
  | .run => statement pageSize sh p
  | .sigalrm => deliver sh p

inductive Kind where
  | producer
  | consumer

def Kind.start : Kind → Pc
  | .producer => .produceLoop
  | .consumer => .consumeLoop

/-- The semaphores after the `semctl` calls of `main`. -/
def initSems : SemSet Sem
  | .bufferEmpty => N
  | .bufferFull => 0
  | .binSem => 1

variable {τ : Type}

/-- The forked processes, after `main` has set the pointers and the letter. -/
def init (kind : τ → Kind) (mem : Nat → UInt8) : Conf τ Shared Process :=
  ⟨⟨initSems, START, START, 'a'.toUInt8, mem⟩, fun t => ⟨(kind t).start, true, 0⟩⟩

def execute [DecidableEq τ] (pageSize : Nat) (kind : τ → Kind) (mem : Nat → UInt8)
    (sched : List (τ × Input)) : Conf τ Shared Process × List (τ × Event) :=
  run (poolStep (step pageSize)) (init kind mem) sched

/-! ## The lock -/

/-- Every process between a `start` and its `stop` has the lock to itself. -/
def Process.role (p : Process) : Role :=
  match p.pc with
  | .produceLoop | .startProduce _ | .consumeLoop | .startConsume _ | .exited => .out
  | _ => .writing

/-- The semaphore set stands for the lock `l`. -/
abbrev Locked (sems : SemSet Sem) (l : Lock) : Prop :=
  Slots .bufferEmpty .bufferFull .binSem N sems l

theorem locked_init : Locked initSems ⟨0, 0⟩ := ⟨by decide, rfl, rfl, rfl⟩

end OsLabs.Sem05.ProducerConsumer
