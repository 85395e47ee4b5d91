import OsLabs.Keyboard.Record

/-!
# The work queue (`lab_tasklet/my_workqueue.c`)

The handler leaves the scancode in both items and queues them. Both functions read it twice:
first for the index of the name, and then, the second function after a sleep, for the code.
-/

namespace OsLabs.Keyboard.Workqueue

open Runs Deferred

def ascii : List String := [
  " ", "Esc", "1", "2", "3", "4", "5", "6", "7", "8", "9", "0", "-", "+", "Backspace",
  "Tab", "q", "w", "e", "r", "t", "y", "u", "i", "o", "p", "[", "]", "Enter", "Ctrl",
  "a", "s", "d", "f", "g", "h", "j", "k", "l", ";", "\"", "'", "Shift (left)", "|",
  "z", "x", "c", "v", "b", "n", "m", "<", ">", "?", "Shift (right)",
  "*", "Alt", "Space", "CapsLock",
  "F1", "F2", "F3", "F4", "F5", "F6", "F7", "F8", "F9", "F10",
  "NumLock", "ScrollLock", "Home", "Up", "Page-Up", "-", "Left",
  " ", "Right", "+", "End", "Down", "Page-Down", "Insert", "Delete"]

inductive Item where
  | work1
  | work2
deriving DecidableEq

theorem Item.forall_iff {Q : Item → Prop} : (∀ k, Q k) ↔ Q .work1 ∧ Q .work2 := by
  constructor
  · intro h
    exact ⟨h .work1, h .work2⟩
  · rintro ⟨h₁, h₂⟩ k
    cases k with
    | work1 => exact h₁
    | work2 => exact h₂

instance {Q : Item → Prop} [DecidablePred Q] : Decidable (∀ k, Q k) :=
  decidable_of_iff (Q .work1 ∧ Q .work2) Item.forall_iff.symm

/-- The statements that read `iw->code`, with `press_code` once it is known. -/
inductive Reading where
  | press
  | sleep (press : Nat)
  | code (press : Nat)

/-- The reads of `iw->code`, without or with a sleep between them. -/
def fetch (sleeps : Bool) (code : BitVec 32) : Reading → Reading ⊕ BitVec 32 × Nat
  | .press => .inl (if sleeps then .sleep (pressCode code) else .code (pressCode code))
  | .sleep press => .inl (.code press)
  | .code press => .inr (code, press)

def work1Fn : BitVec 32 → Record → At Reading → Record × Option (At Reading) × List Event :=
  body ascii (fetch false)

def work2Fn : BitVec 32 → Record → At Reading → Record × Option (At Reading) × List Event :=
  body ascii (fetch true)

def irqHandler : Program Item Interrupt (BitVec 32) Record (At Reading) Event where
  accept i := if i.accepted then some i.code else none
  orders := [.store .work1, .store .work2, .queue .work1, .queue .work2]
  start _ := .before .press
  step
    | .work1 => work1Fn
    | .work2 => work2Fn

/-- A run of the module, with anything in the items at the beginning. -/
def execute (code : Item → BitVec 32) (sched : List (Action Item Interrupt)) :
    State Item (BitVec 32) Record (At Reading) × List (Deferred.Event Item Interrupt Event) :=
  run (step irqHandler) (.init code .init) sched

theorem complete : Complete irqHandler.orders where
  ordered := ⟨by simp, by simp, trivial⟩
  store_mem k := by cases k <;> simp [irqHandler]
  nonempty := ⟨.work1⟩

theorem storedFirst (k : Item) : StoredFirst k irqHandler.orders := by
  cases k with
  | work1 => exact Or.inl rfl
  | work2 => exact Or.inr (Or.inl rfl)

/-- The reads of an item. -/
def Item.fetch (k : Item) : BitVec 32 → Reading → Reading ⊕ BitVec 32 × Nat :=
  Workqueue.fetch (k = .work2)

theorem step_eq (k : Item) : irqHandler.step k = body ascii k.fetch := by
  cases k with
  | work1 => rfl
  | work2 => rfl

theorem accept_eq {i : Interrupt} {code : BitVec 32} (h : irqHandler.accept i = some code) :
    i.accepted = true ∧ code = i.code := by
  dsimp only [irqHandler] at h
  split at h
  · next hAccepted =>
    cases h
    exact ⟨hAccepted, rfl⟩
  · cases h

/-- `press_code`, once it is known. -/
def Reading.Knows (Q : Nat → Prop) : Reading → Prop
  | .press => True
  | .sleep n | .code n => Q n

theorem fetch_next {sleeps : Bool} {code : BitVec 32} {b b' : Reading} {Q : Nat → Prop}
    (hKnows : b.Knows Q) (hCode : Q (pressCode code)) (h : fetch sleeps code b = .inl b') :
    b'.Knows Q := by
  cases b with
  | press =>
    cases h
    cases sleeps with
    | false => exact hCode
    | true => exact hCode
  | sleep press =>
    cases h
    exact hKnows
  | code press => cases h

theorem fetch_found {sleeps : Bool} {code found : BitVec 32} {b : Reading} {press : Nat}
    (h : fetch sleeps code b = .inr (found, press)) : b = .code press ∧ found = code := by
  cases b with
  | press => cases h
  | sleep press => cases h
  | code press =>
    cases h
    exact ⟨rfl, rfl⟩

theorem fetches : Fetches irqHandler ascii Item.fetch id
    (fun code _ b => b.Knows (· = pressCode code)) where
  accept i code h := by
    obtain ⟨hAccepted, hCode⟩ := accept_eq h
    exact ⟨hAccepted, hCode⟩
  step := step_eq
  start _ := ⟨.press, rfl, fun _ => trivial⟩
  next code _ _ _ hKnows hFetch := fetch_next hKnows rfl hFetch
  found code _ b found press hKnows hFetch := by
    obtain ⟨rfl, rfl⟩ := fetch_found hFetch
    exact ⟨rfl, hKnows⟩

theorem indexes : Indexes irqHandler Item.fetch id (fun _ b => b.Knows (· < ASCII_SIZE)) where
  start _ b h := by
    cases h
    trivial
  next code _ _ _ hValid hKnows hFetch := fetch_next hKnows hValid hFetch
  found code _ b found press hValid hKnows hFetch := by
    obtain ⟨rfl, rfl⟩ := fetch_found hFetch
    exact hKnows

end OsLabs.Keyboard.Workqueue
