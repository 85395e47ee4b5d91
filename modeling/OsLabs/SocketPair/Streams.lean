import Mathlib.Algebra.GroupWithZero.Nat
import OsLabs.Memory.Object
import OsLabs.Runs.Schedule

/-!
# A pair of connected sockets (`lab_sockets/lab_01`)

What is written to one end of the pair is queued for the other end, and a `read` there
returns some of it, at least one byte and at most as many as it asked for. All bytes of one
direction are numbered in the order in which they are written, so a byte is known by its
position, whoever reads it.

In both programs of the lab three children send a message each on the same end, and the
parent answers each of its reads. `Paired` says that the children get their own answers.
-/

namespace OsLabs.SocketPair

open Memory

/-- One direction: the bytes that are queued, and the number of those already read. -/
structure Stream where
  queue : List UInt8
  read : Nat

namespace Stream

def empty : Stream := ⟨[], 0⟩

/-- The position behind the last byte. -/
def written (s : Stream) : Nat := s.read + s.queue.length

def write (s : Stream) (bytes : List UInt8) : Stream := { s with queue := s.queue ++ bytes }

def take (s : Stream) (n : Nat) : Stream := ⟨s.queue.drop n, s.read + n⟩

/-- A `read` of up to `size` bytes may return `n` of them. -/
def Readable (s : Stream) (size n : Nat) : Prop := 0 < n ∧ n ≤ size ∧ n ≤ s.queue.length

instance (s : Stream) (size n : Nat) : Decidable (s.Readable size n) :=
  inferInstanceAs (Decidable (0 < n ∧ n ≤ size ∧ n ≤ s.queue.length))

@[simp] theorem read_write (s : Stream) (bytes : List UInt8) : (s.write bytes).read = s.read := rfl

@[simp] theorem written_write (s : Stream) (bytes : List UInt8) :
    (s.write bytes).written = s.written + bytes.length := by
  simp only [written, write, List.length_append]
  omega

@[simp] theorem read_take (s : Stream) (n : Nat) : (s.take n).read = s.read + n := rfl

theorem written_take {s : Stream} {size n : Nat} (h : s.Readable size n) :
    (s.take n).written = s.written := by
  have hLength := h.2.2
  simp only [written, take, List.length_drop]
  omega

/-- What is queued can be read. -/
theorem readable_one {s : Stream} {size : Nat} (hSize : 0 < size) (h : s.read < s.written) :
    s.Readable size 1 := by
  rw [written] at h
  exact ⟨Nat.one_pos, hSize, by omega⟩

theorem not_readable_nil {s : Stream} (h : s.queue = []) (size n : Nat) : ¬ s.Readable size n := by
  rintro ⟨hPos, -, hLength⟩
  rw [h, List.length_nil] at hLength
  omega

end Stream

abbrev Child := Fin 3

instance neZero_three : NeZero 3 := ⟨Nat.succ_ne_zero 2⟩

/-- A message of a child or a reply of the parent with the position of its first byte, and
what a read of the parent or a child returned, and from where on. -/
inductive Event where
  | sent (c : Child) (pos : Nat)
  | took (k : Nat) (pos : Nat) (data : List UInt8)
  | replied (k : Nat) (pos : Nat)
  | got (c : Child) (pos : Nat) (data : List UInt8)
  | sigpipe (c : Option Child)
deriving DecidableEq

/-- The reply at `pos` was built from the message of child `c`: it answers a read that begins
with the first byte of the message and returns all of it. -/
def Answers (len : Child → Nat) (h : List Event) (c : Child) (pos : Nat) : Prop :=
  ∃ k start data, .sent c start ∈ h ∧ .took k start data ∈ h ∧ len c ≤ data.length ∧
    .replied k pos ∈ h

/-- What a child reads starts at the first byte of the reply to its own message. -/
def Paired (len : Child → Nat) (h : List Event) : Prop :=
  ∀ c pos data, .got c pos data ∈ h → data ≠ [] ∧ Answers len h c pos

/-- `strcat` in an array of `n` bytes. What it stores behind the array is not modelled. -/
def strcat {n : Nat} (buf : Object n) (text : List UInt8) : Object n :=
  let len := ((bytes buf).takeWhile (· ≠ 0)).length
  fun i =>
    if i.val < len then buf i
    else if i.val < len + text.length then text.getD (i.val - len) 0
    else if i.val = len + text.length then 0
    else buf i

/-- The next round of a loop, or what comes after it. -/
def nextRound {α : Type} (i : Fin 3) (again : Fin 3 → α) (after : α) : α :=
  if h : i.val + 1 < 3 then again ⟨i.val + 1, h⟩ else after

/-- `" OK"` -/
def OK : List UInt8 := [' '.toUInt8, 'O'.toUInt8, 'K'.toUInt8]

end OsLabs.SocketPair
