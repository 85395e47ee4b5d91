import OsLabs.Keyboard.Tasklet
import OsLabs.Keyboard.Workqueue
import OsLabs.Runs.Lifetime

/-!
# Loading and unloading (`my_init` and `my_exit` in `lab_tasklet`)

`my_workqueue.c` frees its items after it has given back the interrupt and waited for the items,
except where `proc_create` fails: there the items are freed before `destroy_workqueue` waits for
them. `tasklet.c` waits for the tasklet while the handler can still schedule it, so it depends on
the handler being silent until `free_irq`.
-/

namespace OsLabs.Keyboard

open Runs Lifetime

/-- Nothing was used or given back that the module did not have, and if it is not loaded, it has
nothing. -/
def Safe {ι V W : Type} (r : System ι V Record W × List Report) : Prop :=
  .fault ∉ r.2 ∧ (r.1.code = .ret false → r.1.held = .nothing)

/-! ## The workqueue -/

namespace Workqueue

/-- The statements that read the item; with the last one come those that read `iw->start` and
`iw->code` for the log. -/
def touches : At Reading → Bool
  | .before .press | .before (.code _) | .recording .close _ => true
  | .before (.sleep _) | .recording .storeCode _ | .recording .lookup _
  | .recording (.copy _) _ => false

def myInit : Code Item :=
  .call .allocWorkqueue (.ret false) <|
  .call (.kmalloc .work1) (.stmt .destroyWorkqueue <| .ret false) <|
  .call (.kmalloc .work2) (.stmt .destroyWorkqueue <| .stmt (.kfree .work1) <| .ret false) <|
  .stmt (.initWork .work1) <|
  .stmt (.initWork .work2) <|
  .call .requestIrq
    (.stmt (.kfree .work1) <| .stmt (.kfree .work2) <| .stmt .destroyWorkqueue <| .ret false) <|
  .call .procCreate
    (.stmt .freeIrq <| .stmt (.kfree .work1) <| .stmt (.kfree .work2) <|
      .stmt .destroyWorkqueue <| .ret false) <|
  .ret true

def myExit : Code Item :=
  .stmt .removeProc <| .stmt .synchronizeIrq <| .stmt .freeIrq <| .stmt .flushWorkqueue <|
  .stmt .destroyWorkqueue <| .stmt (.kfree .work1) <| .stmt (.kfree .work2) <| .ret false

instance : Fintype Item := ⟨{.work1, .work2}, fun k => by cases k <;> simp⟩

def driver : Driver Item Interrupt (BitVec 32) Record (At Reading) Event where
  program := irqHandler
  touches := touches
  ownQueue := true
  init := myInit
  exit := myExit

/-- A run from `insmod` on, with anything in the memory of the items. -/
def load (code : Item → BitVec 32) (sched : List (Act Item Interrupt)) :
    System Item (BitVec 32) Record (At Reading) × List Report :=
  run (step driver) (.init driver code .init) sched

theorem update_both (f : Item → Bool) (b : Bool) :
    Function.update (Function.update f .work1 b) .work2 b = fun _ => b := by
  ext1 k
  cases k with
  | work1 => rfl
  | work2 => rfl

theorem sound_myInit {fallible : Call Item → Prop} (hCreate : ¬ fallible .procCreate) :
    Sound true fallible (fun _ => False) .nothing true myInit := by
  simp [myInit, Sound, CallAllowed, StmtAllowed, Held.nothing, Held.gain, Held.drop,
    Held.everything, Held.Feeds, quietAfterCall, quietAfter, hCreate, update_both]

theorem sound_myExit (fallible : Call Item → Prop) :
    Sound true fallible (fun _ => False) (.everything true) false myExit := by
  simp [myExit, Sound, StmtAllowed, Held.nothing, Held.drop, Held.everything, quietAfter,
    update_both]

/-- A released key during the initialisation. -/
def releaseA : List (Act Item Interrupt) :=
  .kernel (.interrupt ⟨1, 0x9E⟩) :: List.replicate 5 (.kernel .handle)

/-- `proc_create` fails after both items have been scheduled. -/
def failedCreate : List (Act Item Interrupt) :=
  List.replicate 6 (.main false) ++ releaseA ++
    [.main true, .main false, .main false, .kernel (.work .work1)]

theorem calm_failedCreate {fallible : Call Item → Prop} (hCreate : fallible .procCreate) :
    Along (step driver) (Calm fallible fun _ => False) (.init driver (fun _ => 0) .init)
      failedCreate := by
  refine ⟨trivial, trivial, trivial, trivial, trivial, trivial, trivial, id, id, id, id, id, ?_,
    trivial, trivial, trivial, trivial⟩
  intro c onFail next hCode
  cases hCode
  exact hCreate

/-- The module uses only memory that it has, and leaves nothing behind, in every run in which only
calls of `fallible` fail, if and only if `proc_create` does not. -/
theorem load_safe_iff (fallible : Call Item → Prop) :
    (∀ code sched, Along (step driver) (Calm fallible fun _ => False)
      (System.init driver code Record.init) sched → Safe (load code sched)) ↔
        ¬ fallible .procCreate := by
  constructor
  · intro hSafe hCreate
    have hFault : .fault ∈ (load (fun _ => 0) failedCreate).2 := List.mem_singleton_self _
    exact (hSafe _ _ (calm_failedCreate hCreate)).1 hFault
  · intro hCreate code sched hCalm
    exact safe_of_sound (sound_myInit hCreate) (sound_myExit fallible) code Record.init hCalm

end Workqueue

/-! ## The tasklet -/

namespace Tasklet

/-- The tasklet is used when its function is called and after it has returned. -/
def touches : At Unit → Bool
  | .before () | .recording .close _ => true
  | .recording .storeCode _ | .recording .lookup _ | .recording (.copy _) _ => false

def myInit : Code Unit :=
  .call (.kmalloc ()) (.ret false) <|
  .stmt (.initWork ()) <|
  .call .requestIrq (.stmt (.kfree ()) <| .ret false) <|
  .call .procCreate
    (.stmt (.kill ()) <| .stmt (.kfree ()) <| .stmt .freeIrq <| .ret false) <|
  .ret true

def myExit : Code Unit :=
  .stmt .removeProc <| .stmt .synchronizeIrq <| .stmt (.kill ()) <| .stmt .freeIrq <|
  .stmt (.kfree ()) <| .ret false

def driver : Driver Unit Interrupt (BitVec 64) Record (At Unit) Event where
  program := myIrqHandler
  touches := touches
  ownQueue := false
  init := myInit
  exit := myExit

def load (data : BitVec 64) (sched : List (Act Unit Interrupt)) :
    System Unit (BitVec 64) Record (At Unit) × List Report :=
  run (step driver) (.init driver (fun _ => data) .init) sched

/-- The places between `tasklet_kill` and `free_irq`. -/
def freeAfterKill : Code Unit := .stmt (.kfree ()) (.stmt .freeIrq (.ret false))
def unregisterAfterFree : Code Unit := .stmt .freeIrq (.ret false)
def unregisterAfterKill : Code Unit := .stmt .freeIrq (.stmt (.kfree ()) (.ret false))

theorem update_one (f : Unit → Bool) (b : Bool) : Function.update f () b = fun _ => b := by
  ext1 k
  rfl

theorem sound_code {window : Code Unit → Prop}
    (hWindow : window freeAfterKill ∧ window unregisterAfterFree ∧ window unregisterAfterKill) :
    Sound false (fun _ => True) window .nothing true myInit ∧
      Sound false (fun _ => True) window (.everything false) false myExit := by
  simpa [myInit, myExit, Sound, CallAllowed, StmtAllowed, Held.nothing, Held.gain, Held.drop,
    Held.everything, Held.Feeds, quietAfterCall, quietAfter, update_one, and_assoc,
    freeAfterKill, unregisterAfterFree, unregisterAfterKill] using hWindow

/-- A released key, and the statements of the handler. -/
def releaseA : List (Act Unit Interrupt) :=
  .kernel (.interrupt ⟨1, 0x9E⟩) :: List.replicate 3 (.kernel .handle)

/-- The key comes after `proc_create` has failed and `tasklet_kill` has returned. -/
def beforeFree : List (Act Unit Interrupt) :=
  List.replicate 3 (.main false) ++ [.main true, .main false] ++ releaseA ++
    [.main false, .kernel (.work ())]

/-- It comes when the tasklet has been freed. -/
def beforeUnregister : List (Act Unit Interrupt) :=
  List.replicate 3 (.main false) ++ [.main true, .main false, .main false] ++ releaseA

/-- It comes after `tasklet_kill` in `my_exit`. -/
def beforeExit : List (Act Unit Interrupt) :=
  List.replicate 4 (.main false) ++ [.unload] ++ List.replicate 3 (.main false) ++ releaseA ++
    [.main false, .main false, .kernel (.work ())]

/-- The module uses only memory that it has, and leaves nothing behind, in every run in which the
handler makes no statement in `window`, if and only if `window` holds the places between
`tasklet_kill` and `free_irq`. -/
theorem load_safe_iff_silent (window : Code Unit → Prop) :
    (∀ data sched, Along (step driver) (Calm (fun _ => True) window)
      (System.init driver (fun _ => data) Record.init) sched → Safe (load data sched)) ↔
        window freeAfterKill ∧ window unregisterAfterFree ∧ window unregisterAfterKill := by
  constructor
  · intro hSafe
    refine ⟨?_, ?_, ?_⟩
    · by_contra hSilent
      have hFault : .fault ∈ (load 0 beforeFree).2 := List.mem_singleton_self _
      refine (hSafe 0 beforeFree ?_).1 hFault
      exact ⟨trivial, trivial, trivial, fun _ _ _ _ => trivial, trivial, trivial, hSilent, hSilent,
        hSilent, trivial, trivial, trivial⟩
    · by_contra hSilent
      have hFault : .fault ∈ (load 0 beforeUnregister).2 := by decide
      refine (hSafe 0 beforeUnregister ?_).1 hFault
      exact ⟨trivial, trivial, trivial, fun _ _ _ _ => trivial, trivial, trivial, trivial, hSilent,
        hSilent, hSilent, trivial⟩
    · by_contra hSilent
      have hFault : .fault ∈ (load 0 beforeExit).2 := List.mem_singleton_self _
      refine (hSafe 0 beforeExit ?_).1 hFault
      exact ⟨trivial, trivial, trivial, trivial, trivial, trivial, trivial, trivial, trivial,
        hSilent, hSilent, hSilent, trivial, trivial, trivial, trivial⟩
  · intro hWindow data sched hCalm
    obtain ⟨hInit, hExit⟩ := sound_code hWindow
    exact safe_of_sound hInit hExit _ Record.init hCalm

end Tasklet

end OsLabs.Keyboard
