import Mathlib.Data.Fintype.Card
import OsLabs.Runs.Pool
import OsLabs.SocketPair.Streams

/-!
# All children at once (`lab_01/socketpair.c`)

The parent forks three children, closes the end of the pair that they use, and answers three
reads with its whole buffer. A child closes the other end, sends eight bytes (the size of a
pointer to its message, so there may be bytes behind the message among them), and reads up to
the size of a reply. A `read` returns nothing when all copies of the other end are closed, and
a `write` then kills the process.

If every read of the parent returns one message, and the children read the replies whole and
in the order in which they have written, then each of them reads its own reply. The calls of
`fork` succeed. The messages that are printed are not modelled.
-/

namespace OsLabs.SocketPair.Socketpair

open Memory Runs

abbrev BUF_SIZE : Nat := 64

/-- `sizeof(messages[i])` -/
abbrev MESSAGE_SIZE : Nat := 8

/-- The bytes that a child sends: its message and, from there on, those behind it. -/
def message (behind : Child → Nat → UInt8) (c : Child) : List UInt8 :=
  let texts : List String := ["aaa", "bbbb", "cccccc"]
  let text := (texts.getD c.val "").toList.map Char.toUInt8 ++ [0]
  (List.range MESSAGE_SIZE).map fun j => text.getD j (behind c j)

@[simp] theorem length_message (behind : Child → Nat → UInt8) (c : Child) :
    (message behind c).length = MESSAGE_SIZE := by
  simp [message]

inductive ParentPc where
  | fork (i : Fin 3)
  | close0
  | read (i : Fin 3)
  | write (i : Fin 3)
  | close1
  | wait (i : Fin 3)
  | exited
  | killed
deriving DecidableEq

inductive ChildPc where
  | unborn
  | close1
  | write
  | read
  | close0
  | exited
  | killed
deriving DecidableEq

/-- `sockets[0]` is open. -/
def ParentPc.holds0 : ParentPc → Bool
  | .fork _ | .close0 => true
  | _ => false

/-- `sockets[1]` is open. -/
def ParentPc.holds1 : ParentPc → Bool
  | .fork _ | .close0 | .read _ | .write _ | .close1 => true
  | _ => false

def ChildPc.holds0 : ChildPc → Bool
  | .close1 | .write | .read | .close0 => true
  | _ => false

def ChildPc.holds1 : ChildPc → Bool
  | .close1 => true
  | _ => false

def ChildPc.ended : ChildPc → Bool
  | .exited | .killed => true
  | _ => false

/-- `buf` is the array of the parent, `up` leads to it and `down` to the children. `order` are
the children in the order in which they have written. -/
structure State where
  parent : ParentPc
  buf : Object BUF_SIZE
  child : Child → ChildPc
  up : Stream
  down : Stream
  order : List Child

def State.init (buf : Object BUF_SIZE) : State :=
  ⟨.fork 0, buf, fun _ => .unborn, .empty, .empty, []⟩

def State.Open0 (s : State) : Prop := s.parent.holds0 = true ∨ ∃ c, (s.child c).holds0 = true

def State.Open1 (s : State) : Prop := s.parent.holds1 = true ∨ ∃ c, (s.child c).holds1 = true

instance (s : State) : Decidable s.Open0 :=
  inferInstanceAs (Decidable (s.parent.holds0 = true ∨ ∃ c, (s.child c).holds0 = true))

instance (s : State) : Decidable s.Open1 :=
  inferInstanceAs (Decidable (s.parent.holds1 = true ∨ ∃ c, (s.child c).holds1 = true))

/-- A process makes its next statement. The number is that of the bytes that a `read`
returns, unless it is at the end of the stream. -/
inductive Action where
  | parent (n : Nat)
  | child (c : Child) (n : Nat)
deriving DecidableEq

def parentStep (s : State) (n : Nat) : Option (State × List Event) :=
  match s.parent with
  | .fork i =>
    some ({ s with
      parent := nextRound i .fork .close0
      child := Function.update s.child i .close1 }, [])
  | .close0 => some ({ s with parent := .read 0 }, [])
  | .read i =>
    if s.up.Readable BUF_SIZE n then
      let data := s.up.queue.take n
      some ({ s with parent := .write i, buf := recvInto s.buf data, up := s.up.take n },
        [.took i s.up.read data])
    else if s.up.queue = [] ∧ ¬ s.Open0 then
      some ({ s with parent := .write i }, [.took i s.up.read []])
    else none
  | .write i =>
    let buf := strcat s.buf OK
    if s.Open0 then
      some ({ s with
        parent := nextRound i .read .close1
        buf := buf
        down := s.down.write (bytes buf) }, [.replied i s.down.written])
    else some ({ s with parent := .killed, buf := buf }, [.sigpipe none])
  | .close1 => some ({ s with parent := .wait 0 }, [])
  | .wait i =>
    if i.val < count (·.ended = true) s.child then
      some ({ s with parent := nextRound i .wait .exited }, [])
    else none
  | .exited | .killed => none

def childStep (behind : Child → Nat → UInt8) (s : State) (c : Child) (n : Nat) :
    Option (State × List Event) :=
  match s.child c with
  | .close1 => some ({ s with child := Function.update s.child c .write }, [])
  | .write =>
    if s.Open1 then
      some ({ s with
        child := Function.update s.child c .read
        up := s.up.write (message behind c)
        order := s.order ++ [c] }, [.sent c s.up.written])
    else some ({ s with child := Function.update s.child c .killed }, [.sigpipe (some c)])
  | .read =>
    if s.down.Readable BUF_SIZE n then
      some ({ s with child := Function.update s.child c .close0, down := s.down.take n },
        [.got c s.down.read (s.down.queue.take n)])
    else if s.down.queue = [] ∧ ¬ s.Open1 then
      some ({ s with child := Function.update s.child c .close0 }, [.got c s.down.read []])
    else none
  | .close0 => some ({ s with child := Function.update s.child c .exited }, [])
  | .unborn | .exited | .killed => none

def step (behind : Child → Nat → UInt8) (s : State) : Action → Option (State × List Event)
  | .parent n => parentStep s n
  | .child c n => childStep behind s c n

/-- All processes have ended, and none was killed. -/
def State.Completed (s : State) : Prop := s.parent = .exited ∧ ∀ c, s.child c = .exited

instance (s : State) : Decidable s.Completed :=
  inferInstanceAs (Decidable (s.parent = .exited ∧ ∀ c, s.child c = .exited))

/-- A process waits for bytes, and every continuation leaves it waiting. -/
def Wedged (behind : Child → Nat → UInt8) (s : State) : Prop :=
  (∃ i, s.parent = .read i ∧ ∀ sched, (run (step behind) s sched).1.parent = .read i) ∨
    ∃ c, s.child c = .read ∧ ∀ sched, (run (step behind) s sched).1.child c = .read

/-- A read of the parent returns one message. A read of a child returns the reply that is due,
whole if it is not the last one, to the child that the reply is for. -/
def Friendly (s : State) : Action → Prop
  | .parent n => ∀ i, s.parent = .read i → s.up.Readable BUF_SIZE n → n = MESSAGE_SIZE
  | .child c n =>
    s.child c = .read → s.down.Readable BUF_SIZE n →
      s.order[s.down.read / BUF_SIZE]? = some c ∧ (n = BUF_SIZE ∨ s.down.read = 2 * BUF_SIZE)

instance (s : State) : ∀ a, Decidable (Friendly s a)
  | .parent n => inferInstanceAs (Decidable
      (∀ i, s.parent = .read i → s.up.Readable BUF_SIZE n → n = MESSAGE_SIZE))
  | .child c n => inferInstanceAs (Decidable
      (s.child c = .read → s.down.Readable BUF_SIZE n →
        s.order[s.down.read / BUF_SIZE]? = some c ∧ (n = BUF_SIZE ∨ s.down.read = 2 * BUF_SIZE)))

/-! ## Steps -/

variable {behind : Child → Nat → UInt8}

/-- What a step can be. -/
inductive Moves (behind : Child → Nat → UInt8) (s : State) :
    Action → State → List Event → Prop where
  | fork (n : Nat) (i : Fin 3) (h : s.parent = .fork i) :
      Moves behind s (.parent n)
        { s with
          parent := nextRound i .fork .close0
          child := Function.update s.child i .close1 } []
  | close0 (n : Nat) (h : s.parent = .close0) :
      Moves behind s (.parent n) { s with parent := .read 0 } []
  | take (n : Nat) (i : Fin 3) (h : s.parent = .read i) (hn : s.up.Readable BUF_SIZE n) :
      Moves behind s (.parent n)
        { s with
          parent := .write i, buf := recvInto s.buf (s.up.queue.take n), up := s.up.take n }
        [.took i s.up.read (s.up.queue.take n)]
  | upEnd (n : Nat) (i : Fin 3) (h : s.parent = .read i) (hNone : s.up.queue = [])
      (hClosed : ¬ s.Open0) :
      Moves behind s (.parent n) { s with parent := .write i } [.took i s.up.read []]
  | reply (n : Nat) (i : Fin 3) (h : s.parent = .write i) (hOpen : s.Open0) :
      Moves behind s (.parent n)
        { s with
          parent := nextRound i .read .close1
          buf := strcat s.buf OK
          down := s.down.write (bytes (strcat s.buf OK)) }
        [.replied i s.down.written]
  | parentKilled (n : Nat) (i : Fin 3) (h : s.parent = .write i) (hClosed : ¬ s.Open0) :
      Moves behind s (.parent n) { s with parent := .killed, buf := strcat s.buf OK }
        [.sigpipe none]
  | close1 (n : Nat) (h : s.parent = .close1) :
      Moves behind s (.parent n) { s with parent := .wait 0 } []
  | wait (n : Nat) (i : Fin 3) (h : s.parent = .wait i) :
      Moves behind s (.parent n) { s with parent := nextRound i .wait .exited } []
  | childClose1 (n : Nat) (c : Child) (h : s.child c = .close1) :
      Moves behind s (.child c n) { s with child := Function.update s.child c .write } []
  | send (n : Nat) (c : Child) (h : s.child c = .write) (hOpen : s.Open1) :
      Moves behind s (.child c n)
        { s with
          child := Function.update s.child c .read
          up := s.up.write (message behind c)
          order := s.order ++ [c] }
        [.sent c s.up.written]
  | childKilled (n : Nat) (c : Child) (h : s.child c = .write) (hClosed : ¬ s.Open1) :
      Moves behind s (.child c n) { s with child := Function.update s.child c .killed }
        [.sigpipe (some c)]
  | get (n : Nat) (c : Child) (h : s.child c = .read) (hn : s.down.Readable BUF_SIZE n) :
      Moves behind s (.child c n)
        { s with child := Function.update s.child c .close0, down := s.down.take n }
        [.got c s.down.read (s.down.queue.take n)]
  | downEnd (n : Nat) (c : Child) (h : s.child c = .read) (hNone : s.down.queue = [])
      (hClosed : ¬ s.Open1) :
      Moves behind s (.child c n) { s with child := Function.update s.child c .close0 }
        [.got c s.down.read []]
  | childClose0 (n : Nat) (c : Child) (h : s.child c = .close0) :
      Moves behind s (.child c n) { s with child := Function.update s.child c .exited } []

theorem moves_of_step {s s' : State} {a : Action} {es : List Event}
    (h : step behind s a = some (s', es)) : Moves behind s a s' es := by
  cases a with
  | parent n =>
    simp only [step, parentStep] at h
    split at h
    · next i hPc =>
      cases h
      exact .fork n i hPc
    · next hPc =>
      cases h
      exact .close0 n hPc
    · next i hPc =>
      split at h
      · next hn =>
        cases h
        exact .take n i hPc hn
      · split at h
        · next hEnd =>
          cases h
          exact .upEnd n i hPc hEnd.1 hEnd.2
        · cases h
    · next i hPc =>
      split at h
      · next hOpen =>
        cases h
        exact .reply n i hPc hOpen
      · next hClosed =>
        cases h
        exact .parentKilled n i hPc hClosed
    · next hPc =>
      cases h
      exact .close1 n hPc
    · next i hPc =>
      split at h
      · cases h
        exact .wait n i hPc
      · cases h
    · cases h
    · cases h
  | child c n =>
    simp only [step, childStep] at h
    split at h
    · next hPc =>
      cases h
      exact .childClose1 n c hPc
    · next hPc =>
      split at h
      · next hOpen =>
        cases h
        exact .send n c hPc hOpen
      · next hClosed =>
        cases h
        exact .childKilled n c hPc hClosed
    · next hPc =>
      split at h
      · next hn =>
        cases h
        exact .get n c hPc hn
      · split at h
        · next hEnd =>
          cases h
          exact .downEnd n c hPc hEnd.1 hEnd.2
        · cases h
    · next hPc =>
      cases h
      exact .childClose0 n c hPc
    · cases h
    · cases h
    · cases h

end OsLabs.SocketPair.Socketpair
