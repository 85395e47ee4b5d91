import OsLabs.RingBuffer.Window
import OsLabs.Sockets.Common
import OsLabs.SysV.Semop

/-!
# The letter buffer of the single-threaded servers

`server_2.c` and `multiplex/server.c` keep the same buffer: a ring of 26 letters with
two indices and two counting semaphores, entered with `IPC_NOWAIT` (both `common.h` files
define `ARR_SIZE` as 26). The occupancy is not stored anywhere. `Holds` relates the
buffer to a queue of at most 26 letters: `SEM_FULL` is its length and `SEM_EMPTY` the
room left.

The lemmas say what the four `semop` calls return on a buffer that holds a queue, in the
order in which both servers make them around an access.
-/

namespace OsLabs.Sockets

open SysV

/-- The semaphores of the two single-threaded servers. -/
inductive CountSem where
  | empty
  | full
deriving DecidableEq

/-- The semaphore set, the ring and its indices. -/
structure Buffer where
  sems : SemSet CountSem
  ring : Nat → UInt8
  head : Nat
  tail : Nat

namespace Buffer

/-- The statements `ring[tail] = c; tail = (tail + 1) % ARR_SIZE`. -/
def put (b : Buffer) (c : UInt8) : Buffer :=
  { b with ring := Function.update b.ring b.tail c, tail := (b.tail + 1) % ARR_SIZE }

/-- The statement `head = (head + 1) % ARR_SIZE` after `ring[head]` has been read. -/
def drop (b : Buffer) : Buffer := { b with head := (b.head + 1) % ARR_SIZE }

/-- The buffer after the `semctl` calls of `main`. -/
def init : Buffer where
  sems
    | .empty => ARR_SIZE
    | .full => 0
  ring _ := 0
  head := 0
  tail := 0

/-- The buffer holds the queue `q`. -/
structure Holds (b : Buffer) (q : List UInt8) : Prop where
  ring : RingBuffer.Holds ARR_SIZE b.ring b.head b.tail q
  full : b.sems .full = q.length
  empty : b.sems .empty + q.length = ARR_SIZE

theorem holds_init : init.Holds [] := ⟨.empty _ _, rfl, rfl⟩

theorem Holds.startProduce_full {b : Buffer} {q : List UInt8} (h : b.Holds q)
    (hFull : ¬ q.length < ARR_SIZE) : semop b.sems [⟨.empty, -1, true⟩] = .eagain := by
  have hZero : b.sems .empty < 1 := by
    have := h.empty
    omega
  rw [semop_down, if_pos hZero]
  rfl

/-- A letter stored in a buffer with room, between the two `semop` calls. -/
theorem Holds.produce {b : Buffer} {q : List UInt8} (h : b.Holds q) (hRoom : q.length < ARR_SIZE)
    (c : UInt8) (nowait : Bool) :
    ∃ vals vals', semop b.sems [⟨.empty, -1, true⟩] = .done vals ∧
      semop vals [⟨.full, 1, nowait⟩] = .done vals' ∧
      Holds { ({ b with sems := vals } : Buffer).put c with sems := vals' } (q ++ [c]) := by
  have hEmpty := h.empty
  have hFull := h.full
  have hSome : ¬ b.sems .empty < 1 := by omega
  have hRange : ¬ SEMVMX < b.sems .full + 1 := by
    simp only [SEMVMX, ARR_SIZE] at *
    omega
  refine ⟨Function.update b.sems .empty (b.sems .empty - 1),
    Function.update (Function.update b.sems .empty (b.sems .empty - 1)) .full (b.sems .full + 1),
    ?_, ?_, h.ring.put hRoom c, ?_, ?_⟩
  · rw [semop_down, if_neg hSome, semop_nil]
  · simp [hRange]
  · simp [hFull]
  · simp
    omega

theorem Holds.startConsume_empty {b : Buffer} (h : b.Holds []) :
    semop b.sems [⟨.full, -1, true⟩] = .eagain := by
  have hFull := h.full
  rw [semop_down, hFull]
  rfl

/-- The oldest letter taken from a buffer, between the two `semop` calls. -/
theorem Holds.consume {b : Buffer} {c : UInt8} {q : List UInt8} (h : b.Holds (c :: q))
    (nowait : Bool) :
    b.ring b.head = c ∧
    ∃ vals vals', semop b.sems [⟨.full, -1, true⟩] = .done vals ∧
      semop vals [⟨.empty, 1, nowait⟩] = .done vals' ∧
      Holds { ({ b with sems := vals } : Buffer).drop with sems := vals' } q := by
  have hEmpty := h.empty
  have hFull := h.full
  rw [List.length_cons] at hEmpty hFull
  have hSome : ¬ b.sems .full < 1 := by omega
  obtain ⟨hCell, hRing⟩ := h.ring.take
  have hRange : ¬ SEMVMX < b.sems .empty + 1 := by
    simp only [SEMVMX, ARR_SIZE] at *
    omega
  refine ⟨hCell, Function.update b.sems .full (b.sems .full - 1),
    Function.update (Function.update b.sems .full (b.sems .full - 1)) .empty (b.sems .empty + 1),
    ?_, ?_, hRing, ?_, ?_⟩
  · rw [semop_down, if_neg hSome, semop_nil]
  · simp [hRange]
  · simp [hFull]
  · simp
    omega

end Buffer

end OsLabs.Sockets
