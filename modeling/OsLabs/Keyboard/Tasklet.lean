import OsLabs.Keyboard.Record

/-!
# The tasklet (`lab_tasklet/tasklet.c`)

The handler leaves the scancode in the `data` of the tasklet, an `unsigned long`, and
schedules it. The function gets the value of `data` when it starts, after the mark has been
cleared.
-/

namespace OsLabs.Keyboard.Tasklet

open Runs Deferred

def ascii : List String := [
  " ", "Esc", "1", "2", "3", "4", "5", "6", "7", "8", "9", "0", "-", "+", "Backspace",
  "Tab", "Q", "W", "E", "R", "T", "Y", "U", "I", "O", "P", "[", "]", "Enter", "Ctrl",
  "A", "S", "D", "F", "G", "H", "J", "K", "L", ";", "\"", "'", "Shift (left)", "|",
  "Z", "X", "C", "V", "B", "N", "M", "<", ">", "?", "Shift (right)",
  "*", "Alt", "Space", "CapsLock",
  "F1", "F2", "F3", "F4", "F5", "F6", "F7", "F8", "F9", "F10",
  "NumLock", "ScrollLock", "Home", "Up", "Page-Up", "-", "Left",
  " ", "Right", "+", "End", "Down", "Page-Down", "Insert", "Delete"]

/-- `my_tasklet_fun` with its argument. -/
def myTaskletFun : BitVec 64 → Record → At Unit → Record × Option (At Unit) × List Event :=
  body ascii fun data () => .inr (data.setWidth 32, pressCode (data.setWidth 32))

def myIrqHandler : Program Unit Interrupt (BitVec 64) Record (At Unit) Event where
  accept i := if i.accepted then some (i.code.signExtend 64) else none
  orders := [.store (), .queue ()]
  start _ := .before ()
  step _ := myTaskletFun

/-- A run of the module, with anything in `data` at the beginning. -/
def execute (data : BitVec 64) (sched : List (Action Unit Interrupt)) :
    State Unit (BitVec 64) Record (At Unit) × List (Deferred.Event Unit Interrupt Event) :=
  run (step myIrqHandler) (.init (fun _ => data) .init) sched

theorem complete : Complete myIrqHandler.orders :=
  ⟨⟨List.mem_singleton_self _, trivial⟩, fun _ => List.mem_cons_self, ⟨()⟩⟩

theorem storedFirst (k : Unit) : StoredFirst k myIrqHandler.orders := Or.inl rfl

/-- A cast to `unsigned long` and back. -/
theorem setWidth_signExtend (code : BitVec 32) : (code.signExtend 64).setWidth 32 = code := by
  apply BitVec.eq_of_getLsbD_eq
  intro i hi
  rw [BitVec.getLsbD_setWidth, BitVec.getLsbD_signExtend, if_pos hi]
  simp [hi, Nat.lt_of_lt_of_le hi (show 32 ≤ 64 by simp)]

theorem fetches : Fetches myIrqHandler ascii
    (fun _ data () => .inr (data.setWidth 32, pressCode (data.setWidth 32)))
    (fun data => data.setWidth 32) (fun _ _ _ => True) where
  accept i data h := by
    dsimp only [myIrqHandler] at h
    split at h
    · next hAccepted =>
      cases h
      exact ⟨hAccepted, setWidth_signExtend i.code⟩
    · cases h
  step _ := rfl
  start _ := ⟨(), rfl, fun _ => trivial⟩
  next _ _ _ _ _ hFetch := nomatch hFetch
  found data _ _ code press _ hFetch := by
    cases hFetch
    exact ⟨rfl, rfl⟩

theorem indexes : Indexes myIrqHandler
    (fun _ data () => .inr (data.setWidth 32, pressCode (data.setWidth 32)))
    (fun data => data.setWidth 32) (fun _ _ => True) where
  start _ _ _ := trivial
  next _ _ _ _ _ _ hFetch := nomatch hFetch
  found data _ _ code press hValid _ hFetch := by
    cases hFetch
    exact hValid

end OsLabs.Keyboard.Tasklet
