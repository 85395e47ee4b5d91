import OsLabs.Runs.Deferred
import Mathlib.Data.Fintype.Basic

/-!
# The lifetime of what a handler uses

A kernel module allocates the memory of its work items, registers the handler of `Deferred`, and
gives everything back, while interrupts come and items run on other processors. `free_irq` and
`synchronize_irq` wait for a handler that is at work, `tasklet_kill` for its item, and
`flush_workqueue` and `destroy_workqueue` for all items.

`Sound` is a rule for the order of the calls: memory is freed only when it is known that no item is
pending or running, which is known after one has waited for the items while no interrupt could
schedule them. Where a module waits for its items with the handler still registered, `window` tells
the places at which the handler must be silent.
-/

namespace OsLabs.Runs.Lifetime

open Deferred

variable {ι I V R W E : Type}

/-- The calls that can fail. -/
inductive Call (ι : Type) where
  | allocWorkqueue
  | kmalloc (k : ι)
  | requestIrq
  | procCreate
deriving DecidableEq

/-- `initWork` is `INIT_WORK` or `tasklet_init`, and `kill` is `tasklet_kill`. -/
inductive Stmt (ι : Type) where
  | initWork (k : ι)
  | removeProc
  | synchronizeIrq
  | freeIrq
  | kill (k : ι)
  | flushWorkqueue
  | destroyWorkqueue
  | kfree (k : ι)
deriving DecidableEq

/-- What the initialisation or the exit of a module has still to do: `ret true` is a module that is
loaded, `ret false` one that is not, or not any more. -/
inductive Code (ι : Type) where
  | call (c : Call ι) (fails next : Code ι)
  | stmt (s : Stmt ι) (next : Code ι)
  | ret (loaded : Bool)
deriving DecidableEq

/-- What the module has of the kernel. -/
@[ext]
structure Held (ι : Type) where
  memory : ι → Bool
  workqueue : Bool
  irq : Bool
  proc : Bool

def Held.nothing : Held ι := ⟨fun _ => false, false, false, false⟩

/-- A module: the items go through a workqueue of its own or not, and `touches` tells the
statements of their functions that use the memory of the item. -/
structure Driver (ι I V R W E : Type) where
  program : Program ι I V R W E
  touches : W → Bool
  ownQueue : Bool
  init : Code ι
  exit : Code ι

structure System (ι V R W : Type) where
  work : Deferred.State ι V R W
  held : Held ι
  code : Code ι

/-- What the handler and the items do, a statement of the module, and its removal. -/
inductive Act (ι I : Type) where
  | kernel (a : Deferred.Action ι I)
  | main (fails : Bool)
  | unload

/-- `fault`: memory is used, or something is given back, that the module does not have. -/
inductive Report where
  | fault
deriving DecidableEq

def Held.gain [DecidableEq ι] (held : Held ι) : Call ι → Held ι
  | .allocWorkqueue => { held with workqueue := true }
  | .kmalloc k => { held with memory := Function.update held.memory k true }
  | .requestIrq => { held with irq := true }
  | .procCreate => { held with proc := true }

def Held.drop [DecidableEq ι] (held : Held ι) : Stmt ι → Held ι
  | .removeProc => { held with proc := false }
  | .freeIrq => { held with irq := false }
  | .destroyWorkqueue => { held with workqueue := false }
  | .kfree k => { held with memory := Function.update held.memory k false }
  | .initWork _ | .synchronizeIrq | .kill _ | .flushWorkqueue => held

/-- The module has what the statement needs. -/
def Held.allows (held : Held ι) : Stmt ι → Bool
  | .initWork k | .kill k | .kfree k => held.memory k
  | .removeProc => held.proc
  | .freeIrq => held.irq
  | .flushWorkqueue | .destroyWorkqueue => held.workqueue
  | .synchronizeIrq => true

/-- Nothing is pending or running. -/
def Idle (s : Deferred.State ι V R W) (k : ι) : Prop := s.pending k = false ∧ s.running k = none

instance (s : Deferred.State ι V R W) (k : ι) : Decidable (Idle s k) :=
  inferInstanceAs (Decidable (s.pending k = false ∧ s.running k = none))

/-- What a statement waits for has come to its end. -/
def Ready (s : Deferred.State ι V R W) : Stmt ι → Prop
  | .synchronizeIrq | .freeIrq => s.handler = none
  | .kill k => Idle s k
  | .flushWorkqueue | .destroyWorkqueue => ∀ k, Idle s k
  | .initWork _ | .removeProc | .kfree _ => True

instance [Fintype ι] (s : Deferred.State ι V R W) : (st : Stmt ι) → Decidable (Ready s st)
  | .synchronizeIrq | .freeIrq => inferInstanceAs (Decidable (s.handler = none))
  | .kill k => inferInstanceAs (Decidable (Idle s k))
  | .flushWorkqueue | .destroyWorkqueue => inferInstanceAs (Decidable (∀ k, Idle s k))
  | .initWork _ | .removeProc | .kfree _ => .isTrue trivial

variable [DecidableEq ι]

/-- A statement of the handler, or of an item, uses only what the module has. -/
def System.access (D : Driver ι I V R W E) (s : System ι V R W) : Deferred.Action ι I → Bool
  | .interrupt _ => true
  | .handle =>
    match s.work.handler with
    | some (_, .store k :: _) => s.held.memory k
    | some (_, .queue k :: _) => s.held.memory k && (!D.ownQueue || s.held.workqueue)
    | _ => true
  | .work k =>
    match s.work.running k with
    | some w => !D.touches w || s.held.memory k
    | none => s.held.memory k

def report (ok : Bool) : List Report := if ok then [] else [.fault]

def step [Fintype ι] (D : Driver ι I V R W E) (s : System ι V R W) :
    Act ι I → Option (System ι V R W × List Report)
  | .kernel a =>
    match a, s.held.irq with
    | .interrupt _, false => none
    | _, _ =>
      (Deferred.step D.program s.work a).map fun r =>
        ({ s with work := r.1 }, report (s.access D a))
  | .main fails =>
    match s.code with
    | .call c onFail next =>
      if fails then some ({ s with code := onFail }, [])
      else some ({ s with held := s.held.gain c, code := next }, [])
    | .stmt st next =>
      if Ready s.work st then
        some ({ s with held := s.held.drop st, code := next }, report (s.held.allows st))
      else none
    | .ret _ => none
  | .unload =>
    match s.code with
    | .ret true => some ({ s with code := D.exit }, [])
    | _ => none

def System.init (D : Driver ι I V R W E) (cell : ι → V) (r : R) : System ι V R W :=
  ⟨.init cell r, .nothing, D.init⟩

/-! ## A rule for the order of the calls -/

/-- All the memory, with the handler and the file. -/
def Held.everything (ownQueue : Bool) : Held ι := ⟨fun _ => true, ownQueue, true, true⟩

/-- What a handler at work and its items need. -/
def Held.Feeds (held : Held ι) (ownQueue : Bool) : Prop :=
  (∀ k, held.memory k = true) ∧ (ownQueue = true → held.workqueue = true)

/-- The call may be made. -/
def CallAllowed (ownQueue : Bool) (held : Held ι) : Call ι → Prop
  | .allocWorkqueue => held.workqueue = false
  | .kmalloc k => held.memory k = false
  | .requestIrq => held.irq = false ∧ held.Feeds ownQueue
  | .procCreate => held.proc = false

/-- The statement may be made, where `quiet` means that no item is pending or running. -/
def StmtAllowed (held : Held ι) (quiet : Bool) : Stmt ι → Prop
  | .kill k => held.memory k = true ∧ ∀ j, j = k
  | .kfree k => held.memory k = true ∧ quiet = true
  | .destroyWorkqueue => held.workqueue = true ∧ held.irq = false
  | .initWork k => held.memory k = true
  | .removeProc => held.proc = true
  | .freeIrq => held.irq = true
  | .flushWorkqueue => held.workqueue = true
  | .synchronizeIrq => True

/-- What is known after a call. -/
def quietAfterCall (quiet : Bool) : Call ι → Bool
  | .requestIrq => false
  | .allocWorkqueue | .kmalloc _ | .procCreate => quiet

/-- What is known after a statement. -/
def quietAfter (held : Held ι) (quiet : Bool) : Stmt ι → Bool
  | .kill _ => true
  | .flushWorkqueue | .destroyWorkqueue => quiet || !held.irq
  | .initWork _ | .removeProc | .synchronizeIrq | .freeIrq | .kfree _ => quiet

/-- The code follows the rule: calls of `fallible` may fail, and the handler is silent in
`window`. -/
def Sound (ownQueue : Bool) (fallible : Call ι → Prop) (window : Code ι → Prop)
    (held : Held ι) (quiet : Bool) (code : Code ι) : Prop :=
  (quiet = true → held.irq = true → window code) ∧
    match code with
    | .ret true => held = .everything ownQueue
    | .ret false => held = .nothing
    | .call c fails next =>
      CallAllowed ownQueue held c ∧
        (fallible c → Sound ownQueue fallible window held quiet fails) ∧
        Sound ownQueue fallible window (held.gain c) (quietAfterCall quiet c) next
    | .stmt st next =>
      StmtAllowed held quiet st ∧
        Sound ownQueue fallible window (held.drop st) (quietAfter held quiet st) next

theorem Sound.silent {ownQueue : Bool} {fallible : Call ι → Prop} {window : Code ι → Prop}
    {held : Held ι} {quiet : Bool} {code : Code ι}
    (h : Sound ownQueue fallible window held quiet code) (hQuiet : quiet = true)
    (hIrq : held.irq = true) : window code := by
  unfold Sound at h
  exact h.1 hQuiet hIrq

/-- Only the calls of `fallible` fail, and in `window` the handler makes no statement. -/
def Calm (fallible : Call ι → Prop) (window : Code ι → Prop) (s : System ι V R W) :
    Act ι I → Prop
  | .kernel .handle => ¬ window s.code
  | .main true => ∀ c onFail next, s.code = .call c onFail next → fallible c
  | .kernel (.interrupt _) | .kernel (.work _) | .main false | .unload => True

variable {D : Driver ι I V R W E} {fallible : Call ι → Prop} {window : Code ι → Prop}

/-- What every step keeps. -/
structure Inv (D : Driver ι I V R W E) (fallible : Call ι → Prop) (window : Code ι → Prop)
    (s : System ι V R W) (quiet : Bool) : Prop where
  sound : Sound D.ownQueue fallible window s.held quiet s.code
  handler : s.held.irq = false → s.work.handler = none
  idle : quiet = true → ∀ k, Idle s.work k
  feeds : quiet = false → s.held.Feeds D.ownQueue

variable {s s' : System ι V R W} {quiet : Bool}

/-- A handler that makes a statement finds what it needs. -/
theorem Inv.fed_of_handler (hInv : Inv D fallible window s quiet) (hCalm : ¬ window s.code)
    {v : V} {rest : List (Order ι)} (hHandler : s.work.handler = some (v, rest)) :
    quiet = false := by
  have hIrq : s.held.irq = true := by
    refine Bool.eq_true_of_not_eq_false fun hFreed => ?_
    rw [hInv.handler hFreed] at hHandler
    cases hHandler
  exact Bool.eq_false_of_not_eq_true fun hQuiet => hCalm (hInv.sound.silent hQuiet hIrq)

theorem Inv.busy (hInv : Inv D fallible window s quiet) {k : ι} (hBusy : ¬ Idle s.work k) :
    quiet = false :=
  Bool.eq_false_of_not_eq_true fun hQuiet => hBusy (hInv.idle hQuiet k)

theorem Inv.kernel (hInv : Inv D fallible window s quiet) {a : Deferred.Action ι I}
    (hCalm : Calm fallible window s (.kernel a)) {work : Deferred.State ι V R W}
    {es : List (Deferred.Event ι I E)} (hIrq : ∀ i, a = .interrupt i → s.held.irq = true)
    (hStep : Deferred.step D.program s.work a = some (work, es)) :
    Inv D fallible window { s with work := work } quiet ∧ s.access D a = true := by
  obtain ⟨hSound, hHandler, hIdle, hFeeds⟩ := id hInv
  cases moves_of_step hStep with
  | reject i => exact ⟨hInv, rfl⟩
  | accept i v _ _ =>
    refine ⟨⟨hSound, fun hFreed => ?_, hIdle, hFeeds⟩, rfl⟩
    rw [hIrq i rfl] at hFreed
    cases hFreed
  | leave v hNow =>
    exact ⟨⟨hSound, fun _ => rfl, hIdle, hFeeds⟩, by simp only [System.access, hNow]⟩
  | store v k rest hNow =>
    obtain rfl := hInv.fed_of_handler hCalm hNow
    refine ⟨⟨hSound, fun hFreed => ?_, nofun, hFeeds⟩, ?_⟩
    · rw [hHandler hFreed] at hNow
      cases hNow
    · simp only [System.access, hNow, (hFeeds rfl).1 k]
  | queue v k rest hNow =>
    obtain rfl := hInv.fed_of_handler hCalm hNow
    refine ⟨⟨hSound, fun hFreed => ?_, nofun, hFeeds⟩, ?_⟩
    · rw [hHandler hFreed] at hNow
      cases hNow
    · have hQueue := (hFeeds rfl).2
      cases hOwn : D.ownQueue with
      | false =>
        simp only [System.access, hNow, (hFeeds rfl).1 k, hOwn, Bool.not_false, Bool.true_or,
          Bool.and_true]
      | true =>
        simp only [System.access, hNow, (hFeeds rfl).1 k, hQueue hOwn, Bool.or_true, Bool.and_true]
  | start k hNone hPending =>
    obtain rfl := hInv.busy (k := k) fun hNot => by
      rw [hNot.1] at hPending
      cases hPending
    exact ⟨⟨hSound, hHandler, nofun, hFeeds⟩, by simp only [System.access, hNone, (hFeeds rfl).1 k]⟩
  | work k w r next es hRunning _ =>
    obtain rfl := hInv.busy (k := k) fun hNot => by
      rw [hNot.2] at hRunning
      cases hRunning
    refine ⟨⟨hSound, hHandler, nofun, hFeeds⟩, ?_⟩
    simp only [System.access, hRunning, (hFeeds rfl).1 k, Bool.or_true]

omit [DecidableEq ι] in
theorem StmtAllowed.allows {held : Held ι} {quiet : Bool} {st : Stmt ι}
    (h : StmtAllowed held quiet st) : held.allows st = true := by
  cases st with
  | kill k | kfree k | destroyWorkqueue => exact h.1
  | synchronizeIrq => rfl
  | initWork k | removeProc | freeIrq | flushWorkqueue => exact h

theorem Inv.call (hInv : Inv D fallible window s quiet) {c : Call ι} {onFail next : Code ι}
    (hCode : s.code = .call c onFail next) :
    Inv D fallible window { s with held := s.held.gain c, code := next }
      (quietAfterCall quiet c) := by
  obtain ⟨hSound, hHandler, hIdle, hFeeds⟩ := hInv
  rw [hCode, Sound] at hSound
  obtain ⟨-, hAllowed, -, hNext⟩ := hSound
  cases c with
  | allocWorkqueue => exact ⟨hNext, hHandler, hIdle, fun h => ⟨(hFeeds h).1, fun _ => rfl⟩⟩
  | kmalloc k =>
    refine ⟨hNext, hHandler, hIdle, fun h => ⟨fun j => ?_, (hFeeds h).2⟩⟩
    dsimp only [Held.gain]
    rw [Function.update_apply]
    split
    · rfl
    · exact (hFeeds h).1 j
  | requestIrq => exact ⟨hNext, nofun, nofun, fun _ => hAllowed.2⟩
  | procCreate => exact ⟨hNext, hHandler, hIdle, hFeeds⟩

theorem Inv.stmt (hInv : Inv D fallible window s quiet) {st : Stmt ι} {next : Code ι}
    (hCode : s.code = .stmt st next) (hReady : Ready s.work st) :
    Inv D fallible window { s with held := s.held.drop st, code := next }
      (quietAfter s.held quiet st) ∧ s.held.allows st = true := by
  obtain ⟨hSound, hHandler, hIdle, hFeeds⟩ := hInv
  rw [hCode, Sound] at hSound
  obtain ⟨-, hAllowed, hNext⟩ := hSound
  refine ⟨?_, hAllowed.allows⟩
  cases st with
  | initWork k | removeProc | synchronizeIrq => exact ⟨hNext, hHandler, hIdle, hFeeds⟩
  | freeIrq => exact ⟨hNext, fun _ => hReady, hIdle, hFeeds⟩
  | kill k => exact ⟨hNext, hHandler, fun _ j => hAllowed.2 j ▸ hReady, nofun⟩
  | flushWorkqueue =>
    exact ⟨hNext, hHandler, fun _ => hReady, fun h => hFeeds (Bool.or_eq_false_iff.mp h).1⟩
  | destroyWorkqueue =>
    refine ⟨hNext, hHandler, fun _ => hReady, fun h => ?_⟩
    rw [quietAfter, hAllowed.2, Bool.not_false, Bool.or_true] at h
    cases h
  | kfree k =>
    refine ⟨hNext, hHandler, hIdle, fun h => ?_⟩
    rw [quietAfter, hAllowed.2] at h
    cases h

theorem fault_not_mem_report {ok : Bool} (h : ok = true) : Report.fault ∉ report ok := by
  rw [report, if_pos h]
  exact List.not_mem_nil

theorem Inv.step [Fintype ι] (hInv : Inv D fallible window s quiet)
    (hExit : Sound D.ownQueue fallible window (.everything D.ownQueue) false D.exit)
    {a : Act ι I} (hCalm : Calm fallible window s a) {es : List Report}
    (hStep : step D s a = some (s', es)) :
    (∃ quiet', Inv D fallible window s' quiet') ∧ .fault ∉ es := by
  cases a with
  | kernel a =>
    have hIrq : (∀ i, a = .interrupt i → s.held.irq = true) ∧ (Deferred.step D.program s.work a).map
        (fun r => ({ s with work := r.1 }, report (s.access D a))) = some (s', es) := by
      simp only [Lifetime.step] at hStep
      split at hStep
      · cases hStep
      · next hIrq =>
        exact ⟨fun i hi => Bool.eq_true_of_not_eq_false fun hNot => hIrq i hi hNot, hStep⟩
    obtain ⟨hIrq, hMap⟩ := hIrq
    obtain ⟨⟨work, own⟩, hWork, hEq⟩ := Option.map_eq_some_iff.mp hMap
    cases hEq
    obtain ⟨hNext, hAccess⟩ := hInv.kernel hCalm hIrq hWork
    exact ⟨⟨quiet, hNext⟩, fault_not_mem_report hAccess⟩
  | main fails =>
    simp only [Lifetime.step] at hStep
    split at hStep
    · next c onFail next hCode =>
      cases fails with
      | true =>
        cases hStep
        have hSound := hInv.sound
        rw [hCode, Sound] at hSound
        exact ⟨⟨quiet, hSound.2.2.1 (hCalm c onFail next hCode), hInv.handler, hInv.idle,
          hInv.feeds⟩, List.not_mem_nil⟩
      | false =>
        cases hStep
        exact ⟨⟨_, hInv.call hCode⟩, List.not_mem_nil⟩
    · next st next hCode =>
      split at hStep
      · next hReady =>
        cases hStep
        obtain ⟨hNext, hAllows⟩ := hInv.stmt hCode hReady
        exact ⟨⟨_, hNext⟩, fault_not_mem_report hAllows⟩
      · cases hStep
    · cases hStep
  | unload =>
    simp only [Lifetime.step] at hStep
    split at hStep
    · next hCode =>
      cases hStep
      have hSound := hInv.sound
      rw [hCode, Sound] at hSound
      have hHeld := hSound.2
      refine ⟨⟨false, ?_, ?_, nofun, ?_⟩, List.not_mem_nil⟩
      · dsimp only
        rw [hHeld]
        exact hExit
      · dsimp only
        rw [hHeld]
        exact nofun
      · dsimp only
        rw [hHeld]
        exact fun _ => ⟨fun _ => rfl, id⟩
    · cases hStep

/-- A run in which only calls of `fallible` fail and the handler is silent in `window` uses only
what the module has; and a module that is not loaded has nothing. -/
theorem safe_of_sound [Fintype ι] (hInit : Sound D.ownQueue fallible window .nothing true D.init)
    (hExit : Sound D.ownQueue fallible window (.everything D.ownQueue) false D.exit)
    (cell : ι → V) (r : R) {sched : List (Act ι I)}
    (hCalm : Along (step D) (Calm fallible window) (.init D cell r) sched) :
    .fault ∉ (run (step D) (.init D cell r) sched).2 ∧
      ((run (step D) (.init D cell r) sched).1.code = .ret false →
        (run (step D) (.init D cell r) sched).1.held = .nothing) := by
  have hStart : Inv D fallible window (.init D cell r) true :=
    ⟨hInit, fun _ => rfl, fun _ _ => ⟨rfl, rfl⟩, nofun⟩
  have hRun : (∃ quiet, Inv D fallible window (run (step D) (.init D cell r) sched).1 quiet) ∧
      .fault ∉ (run (step D) (.init D cell r) sched).2 := by
    refine run_invariant_along (P := fun s h => (∃ quiet, Inv D fallible window s quiet) ∧
      Report.fault ∉ h) ⟨⟨true, hStart⟩, List.not_mem_nil⟩ ?_ hCalm
    rintro s h a s' es ⟨⟨quiet, hInv⟩, hSafe⟩ hNow hStep
    obtain ⟨hNext, hOk⟩ := hInv.step hExit hNow hStep
    exact ⟨hNext, List.not_mem_append hSafe hOk⟩
  obtain ⟨⟨quiet, hInv⟩, hSafe⟩ := hRun
  refine ⟨hSafe, fun hEnded => ?_⟩
  have hSound := hInv.sound
  rw [hEnded, Sound] at hSound
  exact hSound.2

end OsLabs.Runs.Lifetime
