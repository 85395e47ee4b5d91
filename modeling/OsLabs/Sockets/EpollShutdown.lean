import OsLabs.Runs.Endings
import OsLabs.Sockets.EpollQueue
import OsLabs.Sockets.Startup

/-!
# How the single-threaded server ends

The whole `main` of `server_2.c`, one call a step, and a `SIGINT` between any two of them. The
signal is meant to end the `while (flag)` loop, but it also interrupts the call in which the
server sleeps. `epoll_wait` and `recv` then return `-1`, and like any other failure of theirs
this calls `exit`, so the clean-up after the loop is not reached.

Before `sigaction` the signal kills the process, and so does a `send` to a client that has
gone. The `switch` of `serve` is one step: its `semop` calls do not sleep, so a signal there
only clears `flag`. The listening socket does not block, so neither does `accept`. `malloc`
succeeds.
-/

namespace OsLabs.Sockets.ServerEpoll

open Memory Runs

def MAX_EVENTS : Nat := 16

/-- The next call of `main` or of `serve`. `n` is the number of events that are left for the
`for` loop. A call with the flag `asleep` has begun to sleep. -/
inductive Pc where
  | setup (rest : List Setup)
  | loop
  | epollWait (asleep : Bool)
  | accept (n : Nat)
  | recv (n : Nat) (accepted asleep : Bool) (req : ReqT)
  | switch (n : Nat) (req : ReqT)
  | send (n : Nat) (req : ReqT)
  | close (n : Nat)
  | closeSkfd
  | closeEpfd
  | fclose
  | rmid
  | exit

structure State where
  pc : Pc
  proc : Process
  buffer : Buffer

def setupCalls : List Setup :=
  [.args, .fopen, .sigaction, .semget, .setval, .setval, .socket, .fcntl, .setsockopt, .bind,
    .listen, .epollCreate1, .epollCtl]

def State.init : State := ⟨.setup setupCalls, .init, .init⟩

/-- What a call returns: whether a call of the set-up succeeds, the number of events, whether
`accept` succeeds, with the uninitialised request object of `serve`, and what `recv` returns.
A call may fall asleep instead, and `send` may find that the client has gone. -/
inductive Return where
  | result (ok : Bool)
  | events (n : Nat)
  | failed
  | accepted (ok : Bool) (req : ReqT)
  | received (r : Recv)
  | sleeps
  | gone
  | done

inductive Action where
  | main (r : Return)
  | sigint

def State.goto (s : State) (pc : Pc) : Option (State × List Event) := some ({ s with pc := pc }, [])

def State.exit (s : State) : State := { s with proc := s.proc.exit }

/-- `perror` and `exit(1)` -/
def State.die (s : State) (text : String) : Option (State × List Event) :=
  some (s.exit, [.perror text])

/-- The `for` loop over the events. -/
def nextEvent : Nat → Pc
  | 0 => .loop
  | n + 1 => .accept n

def mainStep (s : State) (r : Return) : Option (State × List Event) :=
  match s.pc with
  | .setup [] => s.goto .loop
  | .setup (c :: rest) =>
    match r with
    | .result ok => some ({ s with pc := .setup rest, proc := s.proc.setup c ok }, [])
    | _ => none
  | .loop => s.goto (if s.proc.flag then .epollWait false else .closeSkfd)
  | .epollWait asleep =>
    match r with
    | .events n => if n ≤ MAX_EVENTS then s.goto (nextEvent n) else none
    | .failed => s.die "epoll_wait"
    | .sleeps => if asleep then none else s.goto (.epollWait true)
    | _ => none
  | .accept n =>
    match r with
    | .accepted true req => s.goto (.recv n true false req)
    | .accepted false req => some ({ s with pc := .recv n false false req }, [.perror "accept"])
    | _ => none
  | .recv n accepted asleep req =>
    -- After a failed `accept` the descriptor is `-1`, and `recv` can only fail.
    match r with
    | .received (.data msg) =>
      if accepted then some ({ s with pc := .switch n (recvInto req msg) }, [.recv msg]) else none
    | .received .closed => if accepted then s.goto (.close n) else none
    | .received .error => s.die "recv"
    | .sleeps => if accepted && !asleep then s.goto (.recv n true true req) else none
    | _ => none
  | .switch n req =>
    match handle s.buffer req with
    | (none, es) => some (s.exit, es)
    | (some (b, req), es) => some ({ s with pc := .send n req, buffer := b }, es)
  | .send n req =>
    match r with
    | .gone => some (s.exit, [])
    | .done =>
      some ({ s with pc := .recv n true false req }, [.send (bytes req), .log req.type])
    | _ => none
  | .close n => s.goto (nextEvent n)
  | .closeSkfd => s.goto .closeEpfd
  | .closeEpfd => s.goto .fclose
  | .fclose => some ({ s with pc := .rmid, proc := s.proc.fclose }, [])
  | .rmid => some ({ s with pc := .exit, proc := s.proc.rmid }, [])
  | .exit => some (s.exit, [])

/-- Without the handler the signal kills the process. -/
def sigint (s : State) : Option (State × List Event) :=
  if s.proc.handler then
    let s : State := { s with proc := s.proc.sigHandler }
    match s.pc with
    | .epollWait true => s.die "epoll_wait"
    | .recv _ _ true _ => s.die "recv"
    | _ => some (s, [])
  else some (s.exit, [])

def step (s : State) (a : Action) : Option (State × List Event) :=
  if s.proc.ended then none
  else match a with
  | .main r => mainStep s r
  | .sigint => sigint s

/-- The call from which `main` does not come back: a checked one of the set-up that fails, an
`epoll_wait` or a `recv` that returns `-1`, or a `send` to a client that has gone. -/
def Pc.FailsFor : Pc → Return → Prop
  | .setup (c :: _), .result ok => ok = false ∧ c.checked = true
  | .epollWait _, .failed => True
  | .recv .., .received .error => True
  | .send .., .gone => True
  | _, _ => False

/-- A call that `SIGINT` makes fail. -/
def Pc.Asleep : Pc → Prop
  | .epollWait asleep | .recv _ _ asleep _ => asleep = true
  | _ => False

def Fatal (s : State) : Action → Prop
  | .main r => s.proc.ended = false ∧ s.pc.FailsFor r
  | .sigint => s.proc.ended = false ∧ (s.proc.handler = false ∨ s.pc.Asleep)

/-! ## Ends -/

/-- The clean-up is done in its order, and the `semop` calls of `serve` do not fail. -/
structure Good (s : State) : Prop where
  buffer : ∃ q, s.buffer.Holds q
  rmid : s.pc = .rmid → s.proc.log = .released
  exit : s.pc = .exit → s.proc.Cleaned

theorem good_init : Good .init where
  buffer := ⟨[], Buffer.holds_init⟩
  rmid h := nomatch h
  exit h := nomatch h

theorem Good.ended {s : State} (hGood : Good s) : Good s.exit where
  buffer := hGood.buffer
  rmid := hGood.rmid
  exit := hGood.exit

abbrev Survives (fatal : Prop) (s : State) : Prop :=
  Lasts Good (·.proc.ended = true) (·.proc.Cleaned) fatal s

theorem Good.survives {s : State} {fatal : Prop} (hGood : Good s)
    (hRunning : s.proc.ended = false) : Survives fatal s :=
  lasts_of_running hGood (by rw [hRunning]; exact Bool.false_ne_true)

theorem Good.dies {s : State} {fatal : Prop} (hGood : Good s) (hFatal : fatal) :
    Survives fatal s.exit :=
  lasts_of_fatal hGood.ended hFatal

/-- The server goes on, and not yet to the second half of the clean-up. -/
theorem Good.goto {s : State} {fatal : Prop} (hGood : Good s) (hRunning : s.proc.ended = false)
    {pc : Pc} (hRmid : pc ≠ .rmid) (hExit : pc ≠ .exit) : Survives fatal { s with pc := pc } :=
  Good.survives ⟨hGood.buffer, fun h => absurd h hRmid, fun h => absurd h hExit⟩ hRunning

theorem Good.nextEvent {s : State} {fatal : Prop} (hGood : Good s)
    (hRunning : s.proc.ended = false) (n : Nat) :
    Survives fatal { s with pc := nextEvent n } := by
  cases n with
  | zero => exact hGood.goto hRunning nofun nofun
  | succ n => exact hGood.goto hRunning nofun nofun

theorem Good.setupStep {s s' : State} {r : Return} {es : List Event} (hGood : Good s)
    (hRunning : s.proc.ended = false) {rest : List Setup} (hPc : s.pc = .setup rest)
    (hStep : mainStep s r = some (s', es)) : Survives (s.pc.FailsFor r) s' := by
  simp only [mainStep, hPc] at hStep
  rw [hPc]
  cases rest with
  | nil =>
    cases hStep
    exact hGood.goto hRunning nofun nofun
  | cons c rest =>
    cases r with
    | result ok =>
      cases hStep
      refine ⟨⟨hGood.buffer, nofun, nofun⟩, fun hNot hEnded => ?_⟩
      dsimp only at hEnded
      rw [Process.ended_setup hNot, hRunning] at hEnded
      cases hEnded
    | events n | failed | accepted ok req | received result | sleeps | gone | done => cases hStep

theorem Good.waitStep {s s' : State} {r : Return} {es : List Event} (hGood : Good s)
    (hRunning : s.proc.ended = false) {asleep : Bool} (hPc : s.pc = .epollWait asleep)
    (hStep : mainStep s r = some (s', es)) : Survives (s.pc.FailsFor r) s' := by
  simp only [mainStep, hPc] at hStep
  rw [hPc]
  cases r with
  | events n =>
    simp only at hStep
    split at hStep
    · cases hStep
      exact hGood.nextEvent hRunning n
    · cases hStep
  | failed =>
    cases hStep
    exact hGood.dies trivial
  | sleeps =>
    simp only at hStep
    split at hStep
    · cases hStep
    · cases hStep
      exact hGood.goto hRunning nofun nofun
  | result ok | accepted ok req | received result | gone | done => cases hStep

theorem Good.recvStep {s s' : State} {r : Return} {es : List Event} (hGood : Good s)
    (hRunning : s.proc.ended = false) {n : Nat} {accepted asleep : Bool} {req : ReqT}
    (hPc : s.pc = .recv n accepted asleep req) (hStep : mainStep s r = some (s', es)) :
    Survives (s.pc.FailsFor r) s' := by
  simp only [mainStep, hPc] at hStep
  rw [hPc]
  cases r with
  | received result =>
    cases result with
    | data msg =>
      simp only at hStep
      split at hStep
      · cases hStep
        exact hGood.goto hRunning nofun nofun
      · cases hStep
    | closed =>
      simp only at hStep
      split at hStep
      · cases hStep
        exact hGood.goto hRunning nofun nofun
      · cases hStep
    | error =>
      cases hStep
      exact hGood.dies trivial
  | sleeps =>
    simp only at hStep
    split at hStep
    · cases hStep
      exact hGood.goto hRunning nofun nofun
    · cases hStep
  | result ok | events n | failed | accepted ok req | gone | done => cases hStep

/-- A request is handled without a failure. -/
theorem Good.switchStep {s s' : State} {r : Return} {es : List Event} (hGood : Good s)
    (hRunning : s.proc.ended = false) {n : Nat} {req : ReqT} (hPc : s.pc = .switch n req)
    (hStep : mainStep s r = some (s', es)) : Survives (s.pc.FailsFor r) s' := by
  obtain ⟨q, hHolds⟩ := hGood.buffer
  obtain ⟨b, own, hHandle, hHolds', -⟩ := handle_simulates hHolds req
  simp only [mainStep, hPc, hHandle] at hStep
  cases hStep
  exact Good.survives ⟨⟨_, hHolds'⟩, nofun, nofun⟩ hRunning

theorem Good.mainStep {s s' : State} {r : Return} {es : List Event} (hGood : Good s)
    (hRunning : s.proc.ended = false) (hStep : ServerEpoll.mainStep s r = some (s', es)) :
    Survives (s.pc.FailsFor r) s' := by
  cases hPc : s.pc with
  | recv n accepted asleep req =>
    rw [← hPc]
    exact hGood.recvStep hRunning hPc hStep
  | switch n req =>
    rw [← hPc]
    exact hGood.switchStep hRunning hPc hStep
  | setup rest =>
    rw [← hPc]
    exact hGood.setupStep hRunning hPc hStep
  | loop =>
    simp only [ServerEpoll.mainStep, hPc] at hStep
    cases hStep
    split
    · exact hGood.goto hRunning nofun nofun
    · exact hGood.goto hRunning nofun nofun
  | epollWait asleep =>
    rw [← hPc]
    exact hGood.waitStep hRunning hPc hStep
  | accept n =>
    simp only [ServerEpoll.mainStep, hPc] at hStep
    cases r with
    | accepted ok req =>
      cases ok with
      | true =>
        cases hStep
        exact hGood.goto hRunning nofun nofun
      | false =>
        cases hStep
        exact hGood.goto hRunning nofun nofun
    | result ok | events n | failed | received result | sleeps | gone | done => cases hStep
  | send n req =>
    simp only [ServerEpoll.mainStep, hPc] at hStep
    cases r with
    | gone =>
      cases hStep
      exact hGood.dies trivial
    | done =>
      cases hStep
      exact hGood.goto hRunning nofun nofun
    | result ok | events n | failed | accepted ok req | received result | sleeps => cases hStep
  | close n =>
    simp only [ServerEpoll.mainStep, hPc] at hStep
    cases hStep
    exact hGood.nextEvent hRunning n
  | closeSkfd | closeEpfd =>
    simp only [ServerEpoll.mainStep, hPc] at hStep
    cases hStep
    exact hGood.goto hRunning nofun nofun
  | fclose =>
    simp only [ServerEpoll.mainStep, hPc] at hStep
    cases hStep
    exact Good.survives ⟨hGood.buffer, fun _ => rfl, nofun⟩ hRunning
  | rmid =>
    simp only [ServerEpoll.mainStep, hPc] at hStep
    cases hStep
    exact Good.survives ⟨hGood.buffer, nofun, fun _ => ⟨rfl, hGood.rmid hPc⟩⟩ hRunning
  | exit =>
    simp only [ServerEpoll.mainStep, hPc] at hStep
    cases hStep
    exact ⟨hGood.ended, fun _ _ => hGood.exit hPc⟩

theorem Good.sigint {s s' : State} {es : List Event} (hGood : Good s)
    (hRunning : s.proc.ended = false) (hStep : ServerEpoll.sigint s = some (s', es)) :
    Survives (s.proc.handler = false ∨ s.pc.Asleep) s' := by
  have hFlag : Good { s with proc := s.proc.sigHandler } :=
    ⟨hGood.buffer, hGood.rmid, hGood.exit⟩
  unfold ServerEpoll.sigint at hStep
  split at hStep
  · simp only at hStep
    split at hStep
    · next hPc =>
      cases hStep
      exact hFlag.dies (Or.inr (by rw [hPc]; rfl))
    · next hPc =>
      cases hStep
      exact hFlag.dies (Or.inr (by rw [hPc]; rfl))
    · cases hStep
      exact hFlag.survives hRunning
  · next hHandler =>
    cases hStep
    exact hGood.dies (Or.inl (Bool.eq_false_iff.mpr hHandler))

theorem mainStep_fails {s : State} {r : Return} (h : s.pc.FailsFor r) :
    ∃ s' es, mainStep s r = some (s', es) ∧ s'.proc = s.proc.exit := by
  unfold Pc.FailsFor at h
  split at h
  · next c rest ok hPc =>
    obtain ⟨rfl, hChecked⟩ := h
    refine ⟨_, _, by simp only [mainStep, hPc]; rfl, ?_⟩
    exact Process.setup_failed hChecked
  · next asleep hPc => exact ⟨s.exit, _, by simp only [mainStep, hPc]; rfl, rfl⟩
  · next hPc => exact ⟨s.exit, _, by simp only [mainStep, hPc]; rfl, rfl⟩
  · next hPc => exact ⟨s.exit, [], by simp only [mainStep, hPc], rfl⟩
  · cases h

theorem sigint_fatal {s : State} (h : s.proc.handler = false ∨ s.pc.Asleep) :
    ∃ s' es, sigint s = some (s', es) ∧ s'.proc.ended = true ∧
      (s'.proc.Cleaned ↔ s.proc.Cleaned) := by
  cases hHandler : s.proc.handler with
  | false =>
    refine ⟨s.exit, [], ?_, rfl, Iff.rfl⟩
    simp [sigint, hHandler]
  | true =>
    have hAsleep : s.pc.Asleep := by
      rcases h with hNone | hAsleep
      · rw [hHandler] at hNone
        cases hNone
      · exact hAsleep
    unfold Pc.Asleep at hAsleep
    split at hAsleep
    · next asleep hPc =>
      subst hAsleep
      refine ⟨({ s with proc := s.proc.sigHandler } : State).exit, [.perror "epoll_wait"], ?_, rfl,
        Iff.rfl⟩
      simp only [sigint, hHandler, if_true, hPc]
      rfl
    · next n accepted asleep req hPc =>
      subst hAsleep
      refine ⟨({ s with proc := s.proc.sigHandler } : State).exit, [.perror "recv"], ?_, rfl,
        Iff.rfl⟩
      simp only [sigint, hHandler, if_true, hPc]
      rfl
    · cases hAsleep

theorem step_fatal {s : State} {a : Action} (h : Fatal s a) :
    ∃ s' es, step s a = some (s', es) ∧ s'.proc.ended = true ∧
      (s'.proc.Cleaned ↔ s.proc.Cleaned) := by
  cases a with
  | main r =>
    obtain ⟨hRunning, hFails⟩ := h
    obtain ⟨s', es, hStep, hProc⟩ := mainStep_fails hFails
    refine ⟨s', es, ?_, ?_⟩
    · simpa [step, hRunning] using hStep
    · rw [hProc]
      exact ⟨rfl, Iff.rfl⟩
  | sigint =>
    obtain ⟨hRunning, hCase⟩ := h
    obtain ⟨s', es, hStep, hEnds⟩ := sigint_fatal hCase
    refine ⟨s', es, ?_, hEnds⟩
    simpa [step, hRunning] using hStep

theorem Good.step {s s' : State} {a : Action} {es : List Event} (hGood : Good s)
    (hStep : ServerEpoll.step s a = some (s', es)) : Survives (Fatal s a) s' := by
  unfold ServerEpoll.step at hStep
  split at hStep
  · cases hStep
  · next hEnded =>
    have hRunning : s.proc.ended = false := Bool.eq_false_iff.mpr hEnded
    cases a with
    | main r =>
      exact (hGood.mainStep hRunning hStep).imp fun hFails => ⟨hRunning, hFails⟩
    | sigint =>
      exact (hGood.sigint hRunning hStep).imp fun hCase => ⟨hRunning, hCase⟩

theorem ending : Ending step Good (·.proc.ended = true) (·.proc.Cleaned) Fatal where
  lasts := Good.step
  fatal := step_fatal
  still hEnded := if_pos hEnded

/-- A signal while the server waits for a client. -/
def interruptedWait : List Action :=
  List.replicate 13 (.main (.result true)) ++ [.main .done, .main .done, .main .sleeps, .sigint]

end OsLabs.Sockets.ServerEpoll
