import OsLabs.Memory.Letters
import OsLabs.RwLock.Lock
import OsLabs.SysV.Semop

/-!
# Reader and writer processes (`sem_05/lab_03/reader-writer/main.c`)

The processes share one letter and a set of four semaphores. `statement` is one statement
of `reader` or `writer`, with a single access to the shared letter at most: `(*addr)++` is
a load and a store. `deliver` is the arrival of `SIGTERM`, which a process may meet
anywhere: its handler clears `flag`, and a `semop` the process sleeps in then fails with
`EINTR`, which makes the process exit. `flag` and `count` are copied by `fork`, so every
process has its own.

The four semaphores are a readers-writers lock: `COUNT_ACTIVE_READERS` and `ACTIVE_WRITER`
count the processes inside, and the other two are zero between two calls.
-/

namespace OsLabs.Sem05.ReaderWriter

open Memory Runs SysV RwLock

inductive Sem where
  | countActiveReaders
  | activeWriter
  | readCount
  | writeCount
deriving DecidableEq

def startRead : List (Sembuf Sem) :=
  [⟨.readCount, 1, false⟩, ⟨.activeWriter, 0, false⟩, ⟨.writeCount, 0, false⟩,
    ⟨.countActiveReaders, 1, false⟩, ⟨.readCount, -1, false⟩]
def stopRead : List (Sembuf Sem) := [⟨.countActiveReaders, -1, false⟩]
def startWrite : List (Sembuf Sem) :=
  [⟨.writeCount, 1, false⟩, ⟨.countActiveReaders, 0, false⟩, ⟨.activeWriter, 0, false⟩,
    ⟨.activeWriter, 1, false⟩, ⟨.writeCount, -1, false⟩]
def stopWrite : List (Sembuf Sem) := [⟨.activeWriter, -1, false⟩]

/-- The semaphore set and the letter `*addr`. -/
structure Shared where
  sems : SemSet Sem
  addr : UInt8

/-- The next statement of a process; the flag of a `semop` tells that the process sleeps
in it. -/
inductive Pc where
  | readLoop
  | startRead (asleep : Bool)
  | readLetter
  | stopRead (asleep : Bool)
  | writeLoop
  | startWrite (asleep : Bool)
  | incLoad
  | incStore (value : UInt8)
  | wrapTest
  | wrapStore
  | killTest
  | printLetter
  | stopWrite (asleep : Bool)
  | exited
deriving DecidableEq

structure Process where
  pc : Pc
  flag : Bool
  count : Nat

/-- What a process prints, the signal it sends, the wraps it counts, and the value of the
letter when `stop_write` returns. -/
inductive Event where
  | read (c : UInt8)
  | write (c : UInt8)
  | completed (c : UInt8)
  | wrap
  | kill
  | caught
  | semop (errno : Errno)
deriving DecidableEq

inductive Input where
  | run
  | sigterm

/-- A `semop` statement that falls asleep at `waiting` and continues at `next`. -/
def call (sh : Shared) (p : Process) (ops : List (Sembuf Sem)) (asleep : Bool)
    (waiting next : Pc) (es : List Event) : Option (Shared × Process × List Event) :=
  attempt sh.sems ops asleep (fun vals => ({ sh with sems := vals }, { p with pc := next }, es))
    (sh, { p with pc := waiting }, []) (sh, { p with pc := .exited }, [.semop .erange])

def statement (sh : Shared) (p : Process) : Option (Shared × Process × List Event) :=
  match p.pc with
  | .readLoop =>
    if p.flag then some (sh, { p with pc := .startRead false }, [])
    else some (sh, { p with pc := .exited }, [])
  | .startRead asleep => call sh p startRead asleep (.startRead true) .readLetter []
  | .readLetter => some (sh, { p with pc := .stopRead false }, [.read sh.addr])
  | .stopRead asleep => call sh p stopRead asleep (.stopRead true) .readLoop []
  | .writeLoop =>
    if p.flag then some (sh, { p with pc := .startWrite false }, [])
    else some (sh, { p with pc := .exited }, [])
  | .startWrite asleep => call sh p startWrite asleep (.startWrite true) .incLoad []
  | .incLoad => some (sh, { p with pc := .incStore sh.addr }, [])
  | .incStore value => some ({ sh with addr := value + 1 }, { p with pc := .wrapTest }, [])
  | .wrapTest =>
    if sh.addr = 'z'.toUInt8 + 1 then some (sh, { p with pc := .wrapStore }, [])
    else some (sh, { p with pc := .killTest }, [])
  | .wrapStore =>
    some ({ sh with addr := 'a'.toUInt8 }, { p with pc := .killTest, count := p.count + 1 },
      [.wrap])
  | .killTest =>
    some (sh, { p with pc := .printLetter }, if p.count = 2 then [.kill] else [])
  | .printLetter => some (sh, { p with pc := .stopWrite false }, [.write sh.addr])
  | .stopWrite asleep =>
    call sh p stopWrite asleep (.stopWrite true) .writeLoop [.completed sh.addr]
  | .exited => none

/-- The statement in which a process sleeps, if it does. -/
def Pc.asleep : Pc → Bool
  | .startRead asleep | .stopRead asleep | .startWrite asleep | .stopWrite asleep => asleep
  | _ => false

def deliver (sh : Shared) (p : Process) : Option (Shared × Process × List Event) :=
  if p.pc = .exited then none
  else if p.pc.asleep then
    some (sh, { p with pc := .exited, flag := false }, [.caught, .semop .eintr])
  else some (sh, { p with flag := false }, [.caught])

def step (sh : Shared) (p : Process) : Input → Option (Shared × Process × List Event)
  | .run => statement sh p
  | .sigterm => deliver sh p

inductive Kind where
  | reader
  | writer

def Kind.start : Kind → Pc
  | .reader => .readLoop
  | .writer => .writeLoop

variable {τ : Type}

/-- The forked processes, after the `semctl` calls and `*addr = 'a' - 1`. -/
def init (kind : τ → Kind) : Conf τ Shared Process :=
  ⟨⟨fun _ => 0, 'a'.toUInt8 - 1⟩, fun t => ⟨(kind t).start, true, 0⟩⟩

def execute [DecidableEq τ] (kind : τ → Kind) (sched : List (τ × Input)) :
    Conf τ Shared Process × List (τ × Event) :=
  run (poolStep step) (init kind) sched

/-! ## The lock -/

def Process.role (p : Process) : Role :=
  match p.pc with
  | .readLetter | .stopRead _ => .reading
  | .incLoad | .incStore _ | .wrapTest | .wrapStore | .killTest | .printLetter | .stopWrite _ =>
    .writing
  | _ => .out

/-- The semaphore set stands for the lock `l`. -/
structure Locked (sems : SemSet Sem) (l : Lock) : Prop where
  readers : sems .countActiveReaders = l.readers
  writers : sems .activeWriter = l.writers
  readCount : sems .readCount = 0
  writeCount : sems .writeCount = 0

theorem startRead_eq {sems : SemSet Sem} {l : Lock} (h : Locked sems l) :
    semop sems startRead =
      if l.writers = 0 then
        if SEMVMX < l.readers + 1 then .erange
        else .done (Function.update (Function.update (Function.update sems .readCount 1)
          .countActiveReaders (l.readers + 1)) .readCount 0)
      else .sleep := by
  have hSmall : ¬ SEMVMX < 1 := by decide
  simp [startRead, h.readers, h.writers, h.readCount, h.writeCount, hSmall, wouldBlock]

theorem startRead_done {sems vals : SemSet Sem} {l : Lock} (h : Locked sems l)
    (hDone : semop sems startRead = .done vals) :
    l.writers = 0 ∧ Locked vals ⟨l.readers + 1, 0⟩ := by
  rw [startRead_eq h] at hDone
  split at hDone
  · next hNone =>
    split at hDone
    · cases hDone
    · cases hDone
      exact ⟨hNone, by simp, by simp [h.writers, hNone], by simp, by simp [h.writeCount]⟩
  · cases hDone

theorem startWrite_done {sems vals : SemSet Sem} {l : Lock} (h : Locked sems l)
    (hDone : semop sems startWrite = .done vals) :
    l.readers = 0 ∧ l.writers = 0 ∧ Locked vals ⟨0, 1⟩ := by
  have hSmall : ¬ SEMVMX < 1 := by decide
  by_cases hReaders : l.readers = 0
  · by_cases hWriters : l.writers = 0
    · simp [startWrite, h.readers, h.writers, h.writeCount, hSmall, hReaders, hWriters] at hDone
      cases hDone
      exact ⟨hReaders, hWriters, by simp [h.readers, hReaders], by simp, by simp [h.readCount],
        by simp⟩
    · simp [startWrite, h.readers, h.writers, h.writeCount, hSmall, hReaders, hWriters,
        wouldBlock] at hDone
  · simp [startWrite, h.readers, h.writeCount, hSmall, hReaders, wouldBlock] at hDone

/-- A reader inside its section can leave it. -/
theorem stopRead_eq {sems : SemSet Sem} {n m : Nat} (h : Locked sems ⟨n + 1, m⟩) :
    ∃ vals, semop sems stopRead = .done vals ∧ Locked vals ⟨n, m⟩ := by
  have hReaders : sems .countActiveReaders = n + 1 := h.readers
  refine ⟨Function.update sems .countActiveReaders n, ?_, ?_⟩
  · simp [stopRead, hReaders]
  · exact ⟨by simp, by simp [h.writers], by simp [h.readCount], by simp [h.writeCount]⟩

/-- A writer inside its section can leave it. -/
theorem stopWrite_eq {sems : SemSet Sem} {n m : Nat} (h : Locked sems ⟨n, m + 1⟩) :
    ∃ vals, semop sems stopWrite = .done vals ∧ Locked vals ⟨n, m⟩ := by
  have hWriters : sems .activeWriter = m + 1 := h.writers
  refine ⟨Function.update sems .activeWriter m, ?_, ?_⟩
  · simp [stopWrite, hWriters]
  · exact ⟨by simp [h.readers], by simp, by simp [h.readCount], by simp [h.writeCount]⟩

end OsLabs.Sem05.ReaderWriter
