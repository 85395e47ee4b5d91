import OsLabs.Sockets.EpollShutdown
import OsLabs.Sockets.ThreadsProgress

/-!
# How the server with a thread per client ends

The whole `main` of `server_1.c` with its workers, and a `SIGINT` to any of the threads
between any two steps. An interrupted `accept` or `recv` returns `-1`, as it may anyway, and
neither ends the process: `main` starts a worker for the descriptor `-1`, whose `recv` fails,
and a worker leaves its loop. But the worker that sleeps in a `semop` when it gets the signal
calls `exit`.

The clean-up removes the set first. From there on every `semop` fails, so a worker that comes
to one calls `exit` before `main` has closed the log. Here, too, `SIGINT` kills the process
before `sigaction`, and so does a `send` to a client that has gone. `malloc` and
`pthread_create` succeed. What `log_time` does with a log that is closed is not modelled.
-/

namespace OsLabs.Sockets.ServerThreads

open Memory Runs

/-- The next statement of `main`. -/
inductive MainPc where
  | setup (rest : List Setup)
  | loop
  | accept
  | create (accepted : Bool)
  | sleep
  | closeListenfd
  | rmid
  | fclose
  | exit

/-- `conn` are the workers that have been created, and whether their descriptor is one. -/
structure State (τ : Type) where
  pc : MainPc
  proc : Process
  conf : Conf τ Shared Worker
  conn : τ → Option Bool

def setupCalls : List Setup :=
  [.args, .fopen, .sigaction, .semget, .setval, .setval, .setval, .socket, .setsockopt, .bind,
    .listen]

/-- What a call of `main` returns: whether it succeeds, and the new thread. -/
inductive Return (τ : Type) where
  | result (ok : Bool)
  | accepted (ok : Bool)
  | created (t : τ)
  | done

/-- The next statement of `main` or of a worker, a `send` to a client that has gone, or a
signal, to `main` or to a worker. -/
inductive Action (τ : Type) where
  | main (r : Return τ)
  | worker (t : τ) (r : Recv)
  | gone (t : τ)
  | sigint (thread : Option τ)

variable {τ : Type}

namespace State

def init (req : τ → ReqT) (status : τ → BitVec 32) : State τ :=
  ⟨.setup setupCalls, .init, ServerThreads.init req status, fun _ => none⟩

def goto (s : State τ) (pc : MainPc) : Option (State τ × List Event) :=
  some ({ s with pc := pc }, [])

def exit (s : State τ) : State τ := { s with proc := s.proc.exit }

/-- `perror("semop")` and `exit(EXIT_FAILURE)` -/
def die (s : State τ) : Option (State τ × List Event) := some (s.exit, [.perror "semop"])

/-- The thread exists. -/
def created (s : State τ) : Option τ → Bool
  | none => true
  | some t => (s.conn t).isSome

end State

/-- Whether the worker is in a `semop`, and then whether it sleeps there. -/
def Pc.semop : Pc → Option Bool
  | .startProduce asleep | .stopProduce asleep => some asleep
  | .startConsume asleep | .stopConsume asleep => some asleep
  | _ => none

def Pc.sends : Pc → Bool
  | .sendStatus | .sendReq => true
  | _ => false

/-- The signal goes to a worker that sleeps in a `semop`. -/
def State.interrupts (s : State τ) : Option τ → Bool
  | none => false
  | some t => (s.conf.procs t).pc.semop == some true

section

variable [DecidableEq τ]

def mainStep (s : State τ) (r : Return τ) : Option (State τ × List Event) :=
  match s.pc with
  | .setup [] => s.goto .loop
  | .setup (c :: rest) =>
    match r with
    | .result ok => some ({ s with pc := .setup rest, proc := s.proc.setup c ok }, [])
    | _ => none
  | .loop => s.goto (if s.proc.flag then .accept else .sleep)
  | .accept =>
    match r with
    | .accepted true => s.goto (.create true)
    | .accepted false => some ({ s with pc := .create false }, [.perror "accept"])
    | _ => none
  | .create accepted =>
    match r with
    | .created t =>
      if s.conn t = none then
        some ({ s with pc := .loop, conn := Function.update s.conn t (some accepted) }, [])
      else none
    | _ => none
  | .sleep => s.goto .closeListenfd
  | .closeListenfd => s.goto .rmid
  | .rmid => some ({ s with pc := .fclose, proc := s.proc.rmid }, [])
  | .fclose => some ({ s with pc := .exit, proc := s.proc.fclose }, [])
  | .exit => some (s.exit, [])

/-- A statement of a worker. On the descriptor `-1` every `recv` fails. -/
def workerStep (s : State τ) (t : τ) (r : Recv) : Option (State τ × List Event) :=
  match s.conn t with
  | none => none
  | some accepted =>
    -- `EINVAL`, or `EIDRM` for a worker that sleeps.
    if (s.conf.procs t).pc.semop.isSome && s.proc.set == .released then s.die
    else
      match processClient s.conf.shared (s.conf.procs t) (if accepted then r else .error) with
      | none => none
      | some (sh, w, es) =>
        some ({ s with
          conf := ⟨sh, Function.update s.conf.procs t w⟩
          proc := if sh.exited then s.proc.exit else s.proc }, es)

def sigint (s : State τ) (thread : Option τ) : Option (State τ × List Event) :=
  if s.created thread then
    if s.proc.handler then
      let s' : State τ := { s with proc := s.proc.sigHandler }
      if s.interrupts thread then s'.die else some (s', [])
    else some (s.exit, [])
  else none

def step (s : State τ) (a : Action τ) : Option (State τ × List Event) :=
  if s.proc.ended then none
  else match a with
  | .main r => mainStep s r
  | .worker t r => workerStep s t r
  | .gone t =>
    if (s.conn t).isSome && (s.conf.procs t).pc.sends then some (s.exit, []) else none
  | .sigint thread => sigint s thread

end

/-- A checked call of the set-up that fails. -/
def MainPc.FailsFor : MainPc → Return τ → Prop
  | .setup (c :: _), .result ok => ok = false ∧ c.checked = true
  | _, _ => False

def Fatal (s : State τ) : Action τ → Prop
  | .main r => s.proc.ended = false ∧ s.pc.FailsFor r
  | .worker t _ =>
    s.proc.ended = false ∧ (s.conn t).isSome = true ∧
      (s.conf.procs t).pc.semop.isSome = true ∧ s.proc.set = .released
  | .gone t =>
    s.proc.ended = false ∧ (s.conn t).isSome = true ∧ (s.conf.procs t).pc.sends = true
  | .sigint thread =>
    s.proc.ended = false ∧ s.created thread = true ∧
      (s.proc.handler = false ∨ s.interrupts thread = true)

/-! ## Ends -/

variable [Fintype τ]

/-- The clean-up is done in its order, and no `semop` fails while the set exists. -/
structure Good (s : State τ) : Prop where
  workers : ∃ acc, Inv s.conf acc
  running : s.conf.shared.exited = false
  fclose : s.pc = .fclose → s.proc.set = .released
  exit : s.pc = .exit → s.proc.Cleaned

theorem good_init (req : τ → ReqT) (status : τ → BitVec 32) : Good (.init req status) where
  workers := ⟨[], inv_init req status⟩
  running := rfl
  fclose h := nomatch h
  exit h := nomatch h

theorem Good.ended {s : State τ} (hGood : Good s) : Good s.exit where
  workers := hGood.workers
  running := hGood.running
  fclose := hGood.fclose
  exit := hGood.exit

abbrev Survives (fatal : Prop) (s : State τ) : Prop :=
  Lasts Good (·.proc.ended = true) (·.proc.Cleaned) fatal s

theorem Good.survives {s : State τ} {fatal : Prop} (hGood : Good s)
    (hRunning : s.proc.ended = false) : Survives fatal s :=
  lasts_of_running hGood (by rw [hRunning]; exact Bool.false_ne_true)

theorem Good.dies {s : State τ} {fatal : Prop} (hGood : Good s) (hFatal : fatal) :
    Survives fatal s.exit :=
  lasts_of_fatal hGood.ended hFatal

/-- `main` goes on, and not yet to the second half of the clean-up. -/
theorem Good.goto {s : State τ} {fatal : Prop} (hGood : Good s) (hRunning : s.proc.ended = false)
    {pc : MainPc} {conn : τ → Option Bool} (hFclose : pc ≠ .fclose) (hExit : pc ≠ .exit) :
    Survives fatal { s with pc := pc, conn := conn } :=
  Good.survives ⟨hGood.workers, hGood.running, fun h => absurd h hFclose, fun h => absurd h hExit⟩
    hRunning

theorem Good.sigint {s s' : State τ} {thread : Option τ} {es : List Event} (hGood : Good s)
    (hRunning : s.proc.ended = false) (hStep : ServerThreads.sigint s thread = some (s', es)) :
    Survives (s.created thread = true ∧ (s.proc.handler = false ∨ s.interrupts thread = true))
      s' := by
  have hFlag : Good { s with proc := s.proc.sigHandler } :=
    ⟨hGood.workers, hGood.running, hGood.fclose, hGood.exit⟩
  unfold ServerThreads.sigint at hStep
  split at hStep
  · next hCreated =>
    split at hStep
    · simp only at hStep
      split at hStep
      · next hInterrupts =>
        cases hStep
        exact hFlag.dies ⟨hCreated, Or.inr hInterrupts⟩
      · cases hStep
        exact hFlag.survives hRunning
    · next hHandler =>
      cases hStep
      exact hGood.dies ⟨hCreated, Or.inl (Bool.eq_false_iff.mpr hHandler)⟩
  · cases hStep

variable [DecidableEq τ]

theorem Good.mainStep {s s' : State τ} {r : Return τ} {es : List Event} (hGood : Good s)
    (hRunning : s.proc.ended = false) (hStep : ServerThreads.mainStep s r = some (s', es)) :
    Survives (s.pc.FailsFor r) s' := by
  cases hPc : s.pc with
  | setup rest =>
    simp only [ServerThreads.mainStep, hPc] at hStep
    cases rest with
    | nil =>
      cases hStep
      exact hGood.goto hRunning nofun nofun
    | cons c rest =>
      cases r with
      | result ok =>
        cases hStep
        refine ⟨⟨hGood.workers, hGood.running, nofun, nofun⟩, fun hNot hEnded => ?_⟩
        dsimp only at hEnded
        rw [Process.ended_setup hNot, hRunning] at hEnded
        cases hEnded
      | accepted ok | created t | done => cases hStep
  | loop =>
    simp only [ServerThreads.mainStep, hPc] at hStep
    cases hStep
    split
    · exact hGood.goto hRunning nofun nofun
    · exact hGood.goto hRunning nofun nofun
  | accept =>
    simp only [ServerThreads.mainStep, hPc] at hStep
    cases r with
    | accepted ok =>
      cases ok with
      | true =>
        cases hStep
        exact hGood.goto hRunning nofun nofun
      | false =>
        cases hStep
        exact hGood.goto hRunning nofun nofun
    | result ok | created t | done => cases hStep
  | create accepted =>
    simp only [ServerThreads.mainStep, hPc] at hStep
    cases r with
    | created t =>
      simp only at hStep
      split at hStep
      · cases hStep
        exact hGood.goto hRunning nofun nofun
      · cases hStep
    | result ok | accepted ok | done => cases hStep
  | sleep | closeListenfd =>
    simp only [ServerThreads.mainStep, hPc] at hStep
    cases hStep
    exact hGood.goto hRunning nofun nofun
  | rmid =>
    simp only [ServerThreads.mainStep, hPc] at hStep
    cases hStep
    exact Good.survives ⟨hGood.workers, hGood.running, fun _ => rfl, nofun⟩ hRunning
  | fclose =>
    simp only [ServerThreads.mainStep, hPc] at hStep
    cases hStep
    exact Good.survives
      ⟨hGood.workers, hGood.running, nofun, fun _ => ⟨hGood.fclose hPc, rfl⟩⟩ hRunning
  | exit =>
    simp only [ServerThreads.mainStep, hPc] at hStep
    cases hStep
    exact ⟨hGood.ended, fun _ _ => hGood.exit hPc⟩

/-- As long as the set exists, a worker does not call `exit`. -/
theorem Good.workerStep {s s' : State τ} {t : τ} {r : Recv} {es : List Event} (hGood : Good s)
    (hRunning : s.proc.ended = false) (hStep : ServerThreads.workerStep s t r = some (s', es)) :
    Survives ((s.conn t).isSome = true ∧ (s.conf.procs t).pc.semop.isSome = true ∧
      s.proc.set = .released) s' := by
  unfold ServerThreads.workerStep at hStep
  split at hStep
  · cases hStep
  · next accepted hConn =>
    split at hStep
    · next hFails =>
      cases hStep
      rw [Bool.and_eq_true, beq_iff_eq] at hFails
      exact hGood.dies ⟨by rw [hConn]; rfl, hFails⟩
    · split at hStep
      · cases hStep
      · next sh w own hClient =>
        obtain ⟨acc, hInv⟩ := hGood.workers
        have hNext := hInv.step hClient
        obtain ⟨⟨l, hLock, hGuarded⟩, -⟩ := hInv
        have hSame : sh.exited = false := by
          refine processClient_running hLock (fun hInside => ?_) hGood.running hClient
          exact hLock.occupied (hGuarded.owned.one_le_writers hInside)
        simp only [hSame, Bool.false_eq_true, if_false] at hStep
        cases hStep
        exact Good.survives ⟨⟨_, hNext⟩, hSame, hGood.fclose, hGood.exit⟩ hRunning

omit [Fintype τ] in
theorem step_fatal {s : State τ} {a : Action τ} (h : Fatal s a) :
    ∃ s' es, step s a = some (s', es) ∧ s'.proc.ended = true ∧
      (s'.proc.Cleaned ↔ s.proc.Cleaned) := by
  cases a with
  | main r =>
    obtain ⟨hRunning, hFails⟩ := h
    unfold MainPc.FailsFor at hFails
    split at hFails
    · next c rest ok hPc =>
      obtain ⟨rfl, hChecked⟩ := hFails
      have hExit : s.proc.setup c false = s.proc.exit := Process.setup_failed hChecked
      refine ⟨_, [], by simp only [step, hRunning, mainStep, hPc]; rfl, ?_⟩
      dsimp only
      rw [hExit]
      exact ⟨rfl, Iff.rfl⟩
    · cases hFails
  | worker t r =>
    obtain ⟨hRunning, hConn, hSemop, hSet⟩ := h
    obtain ⟨accepted, hAccepted⟩ := Option.isSome_iff_exists.mp hConn
    refine ⟨s.exit, [.perror "semop"], ?_, rfl, Iff.rfl⟩
    simp [step, hRunning, workerStep, hAccepted, hSemop, hSet, State.die]
  | gone t =>
    obtain ⟨hRunning, hConn, hSends⟩ := h
    refine ⟨s.exit, [], ?_, rfl, Iff.rfl⟩
    simp [step, hRunning, hConn, hSends]
  | sigint thread =>
    obtain ⟨hRunning, hCreated, hCase⟩ := h
    cases hHandler : s.proc.handler with
    | false =>
      refine ⟨s.exit, [], ?_, rfl, Iff.rfl⟩
      simp [step, hRunning, sigint, hCreated, hHandler]
    | true =>
      have hInterrupts : s.interrupts thread = true := by
        rcases hCase with hNone | hInterrupts
        · rw [hHandler] at hNone
          cases hNone
        · exact hInterrupts
      refine ⟨({ s with proc := s.proc.sigHandler } : State τ).exit, [.perror "semop"], ?_, rfl,
        Iff.rfl⟩
      simp [step, hRunning, sigint, hCreated, hHandler, hInterrupts, State.die]

theorem Good.step {s s' : State τ} {a : Action τ} {es : List Event} (hGood : Good s)
    (hStep : ServerThreads.step s a = some (s', es)) : Survives (Fatal s a) s' := by
  unfold ServerThreads.step at hStep
  split at hStep
  · cases hStep
  · next hEnded =>
    have hRunning : s.proc.ended = false := Bool.eq_false_iff.mpr hEnded
    cases a with
    | main r =>
      exact (hGood.mainStep hRunning hStep).imp fun hFails => ⟨hRunning, hFails⟩
    | worker t r =>
      exact (hGood.workerStep hRunning hStep).imp fun hFails => ⟨hRunning, hFails⟩
    | gone t =>
      simp only at hStep
      split at hStep
      · next hGone =>
        cases hStep
        rw [Bool.and_eq_true] at hGone
        exact hGood.dies ⟨hRunning, hGone⟩
      · cases hStep
    | sigint thread =>
      exact (hGood.sigint hRunning hStep).imp fun hCase => ⟨hRunning, hCase⟩

theorem ending : Ending (step (τ := τ)) Good (·.proc.ended = true) (·.proc.Cleaned) Fatal where
  lasts := Good.step
  fatal := step_fatal
  still hEnded := if_pos hEnded

/-- A signal to a worker that waits for a letter. -/
def interruptedConsumer : List (Action (Fin 1)) :=
  List.replicate 11 (.main (.result true)) ++
    [.main .done, .main .done, .main (.accepted true), .main (.created 0),
      .worker 0 (.data ['c'.toUInt8]), .worker 0 .closed, .worker 0 .closed, .sigint (some 0)]

end OsLabs.Sockets.ServerThreads

namespace OsLabs.Sockets

open Runs

/-- A run that ends has removed the set and closed the log exactly if nothing that is fatal
comes before both are done. -/
theorem orderly_shutdown_iff {τ : Type} [Fintype τ] [DecidableEq τ]
    (sched₂ : List ServerEpoll.Action) (req : τ → ReqT) (status : τ → BitVec 32)
    (sched₁ : List (ServerThreads.Action τ)) :
    ((run ServerEpoll.step .init sched₂).1.proc.EndsCleaned ↔
      Along ServerEpoll.step (fun s a => ServerEpoll.Fatal s a → s.proc.Cleaned) .init sched₂) ∧
    ((run ServerThreads.step (.init req status) sched₁).1.proc.EndsCleaned ↔
      Along ServerThreads.step (fun s a => ServerThreads.Fatal s a → s.proc.Cleaned)
        (.init req status) sched₁) := by
  constructor
  · apply ServerEpoll.ending.done_iff ServerEpoll.good_init
    exact Bool.false_ne_true
  · apply ServerThreads.ending.done_iff (ServerThreads.good_init req status)
    exact Bool.false_ne_true

theorem not_endsCleaned_interrupted :
    ¬ (run ServerEpoll.step .init ServerEpoll.interruptedWait).1.proc.EndsCleaned ∧
      ¬ (run ServerThreads.step (.init (fun _ _ => 0) fun _ => 0)
        ServerThreads.interruptedConsumer).1.proc.EndsCleaned := by
  constructor
  · decide
  · decide

end OsLabs.Sockets
