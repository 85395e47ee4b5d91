/-!
# What the servers set up and clean up

Both `main` functions of `lab_03` open the log, install `sig_handler`, create the semaphore
set and prepare a socket, and both end with a clean-up that closes the log and removes the
set. `Process` is what these calls change. A call whose result is checked ends the process
when it fails, and nothing that was set up before is undone.

The results of `semctl`, `socket` and `setsockopt` are not checked. The semaphore values that
`semctl` sets are those with which the buffers of both servers start.
-/

namespace OsLabs.Sockets

/-- The log file or the semaphore set. -/
inductive Resource where
  | absent
  | held
  | released
deriving DecidableEq

/-- `handler` is set once `sigaction` has returned. -/
structure Process where
  log : Resource
  set : Resource
  handler : Bool
  flag : Bool
  ended : Bool

namespace Process

def init : Process := ⟨.absent, .absent, false, true, false⟩

def exit (p : Process) : Process := { p with ended := true }

/-- `sig_handler` -/
def sigHandler (p : Process) : Process := { p with flag := false }

/-- `fclose(logfile)` -/
def fclose (p : Process) : Process := { p with log := .released }

/-- `semctl(semid, 0, IPC_RMID)` -/
def rmid (p : Process) : Process := { p with set := .released }

/-- The set is removed and the log is closed. -/
def Cleaned (p : Process) : Prop := p.set = .released ∧ p.log = .released

instance (p : Process) : Decidable p.Cleaned :=
  inferInstanceAs (Decidable (p.set = .released ∧ p.log = .released))

def EndsCleaned (p : Process) : Prop := p.ended = true → p.Cleaned

instance (p : Process) : Decidable p.EndsCleaned :=
  inferInstanceAs (Decidable (p.ended = true → p.Cleaned))

end Process

/-- The calls before the loops. `args` is the comparison of `argc` with 2. -/
inductive Setup where
  | args
  | fopen
  | sigaction
  | semget
  | setval
  | socket
  | fcntl
  | setsockopt
  | bind
  | listen
  | epollCreate1
  | epollCtl
deriving DecidableEq

/-- A failure ends the process. -/
def Setup.checked : Setup → Bool
  | .setval | .socket | .setsockopt => false
  | _ => true

def Setup.succeed (p : Process) : Setup → Process
  | .fopen => { p with log := .held }
  | .sigaction => { p with handler := true }
  | .semget => { p with set := .held }
  | _ => p

def Process.setup (p : Process) (c : Setup) (ok : Bool) : Process :=
  if ok then c.succeed p else if c.checked then p.exit else p

theorem Process.setup_failed {p : Process} {c : Setup} (h : c.checked = true) :
    p.setup c false = p.exit := by
  simp [setup, h]

/-- Otherwise the process goes on. -/
theorem Process.ended_setup {p : Process} {c : Setup} {ok : Bool}
    (h : ¬ (ok = false ∧ c.checked = true)) : (p.setup c ok).ended = p.ended := by
  unfold setup
  split
  · cases c with
    | _ => rfl
  · next hFailed =>
    rw [if_neg fun hChecked => h ⟨Bool.eq_false_iff.mpr hFailed, hChecked⟩]

end OsLabs.Sockets
