import OsLabs.Sockets.Buffer

/-!
# The multiplexed server (`multiplex/server.c`)

One thread receives into one array `buf` that all connections share and calls
`handle_client_command` for whatever `recv` returned. A producer is answered with a
four-byte `int`, a consumer with the beginning of `buf`: inside the function `buf` is a
pointer, so `sizeof(buf)` is the size of a pointer.

The results of the `stop` calls are not examined.
-/

namespace OsLabs.Multiplex

open Memory SysV Sockets

abbrev BUF_SIZE : Nat := 64

instance neZero_bufSize : NeZero BUF_SIZE := ⟨Nat.succ_ne_zero 63⟩

def SIZEOF_POINTER : Nat := 8

def OK : BitVec 32 := 0
def BUFFER_FULL_ERR : BitVec 32 := 3
def BUFFER_EMPTY_ERR : BitVec 32 := 4

def startProduce : List (Sembuf CountSem) := [⟨.empty, -1, true⟩]
def stopProduce : List (Sembuf CountSem) := [⟨.full, 1, false⟩]
def startConsume : List (Sembuf CountSem) := [⟨.full, -1, true⟩]
def stopConsume : List (Sembuf CountSem) := [⟨.empty, 1, false⟩]

/-- The letter buffer, the receive array of `main` and whether `exit` was called. -/
structure Server where
  buffer : Buffer
  buf : Object BUF_SIZE
  exited : Bool

/-- A command as `handle_client_command` understands it: the first byte of `buf` and,
for `'P'`, the item. -/
structure Command where
  byte : UInt8
  item : Option UInt8
deriving DecidableEq

inductive Event where
  | command (cmd : Command)
  | enqueued (item : UInt8)
  | dequeued (item : UInt8)
  | print (text : String)
  | log (byte : UInt8)
  | perror (text : String)
  | produced (item : UInt8)
  | returned (item : UInt8)
deriving DecidableEq

/-- The conversion `(char)status`. -/
def toChar (v : BitVec 32) : UInt8 := UInt8.ofNat v.toNat

/-- A `semop` whose result is ignored. -/
def semopIgnored (vals : SemSet CountSem) (ops : List (Sembuf CountSem)) : SemSet CountSem :=
  match semop vals ops with
  | .done vals' => vals'
  | _ => vals

/-- `buf[0] = b0; buf[1] = b1`. -/
def setFirst (buf : Object BUF_SIZE) (b₀ b₁ : UInt8) : Object BUF_SIZE :=
  Function.update (Function.update buf 0 b₀) 1 b₁

def commandOf (buf : Object BUF_SIZE) : Command :=
  ⟨buf 0, if buf 0 = 'P'.toUInt8 then some (buf 1) else none⟩

/-- The server after the command in `buf`, the message it sends back, and its events. -/
def handleClientCommand (s : Server) : Server × Option (List UInt8) × List Event :=
  let start := Event.command (commandOf s.buf)
  if s.buf 0 = 'P'.toUInt8 then
    let item := s.buf 1
    match semop s.buffer.sems startProduce with
    | .eagain =>
      (s, some (intBytes BUFFER_FULL_ERR),
        [start, .print "[epoll] Producer: buffer full\n", .log (s.buf 0)])
    | .sleep | .erange => ({ s with exited := true }, none, [start, .perror "semop"])
    | .done vals =>
      let b := ({ s.buffer with sems := vals } : Buffer).put item
      ({ s with buffer := { b with sems := semopIgnored vals stopProduce } },
        some (intBytes OK), [start, .enqueued item, .log (s.buf 0)])
  else if s.buf 0 = 'C'.toUInt8 then
    match semop s.buffer.sems startConsume with
    | .eagain =>
      let buf := setFirst s.buf (toChar BUFFER_EMPTY_ERR) 0
      ({ s with buf := buf }, some ((bytes buf).take SIZEOF_POINTER),
        [start, .print "[epoll] Consumer: buffer empty\n", .log (buf 0)])
    | .sleep | .erange => ({ s with exited := true }, none, [start, .perror "semop"])
    | .done vals =>
      let item := s.buffer.ring s.buffer.head
      let b := ({ s.buffer with sems := vals } : Buffer).drop
      let buf := setFirst s.buf (toChar OK) item
      ({ s with buffer := { b with sems := semopIgnored vals stopConsume }, buf := buf },
        some ((bytes buf).take SIZEOF_POINTER), [start, .dequeued item, .log (buf 0)])
  else (s, none, [start, .log (s.buf 0)])

/-- The branch of the event loop for a readable connection on which `recv` returned
`msg`. -/
def receive (s : Server) (msg : List UInt8) : Server × Option (List UInt8) × List Event :=
  handleClientCommand { s with buf := recvInto s.buf msg }

/-- The server before its first connection; `buf` is not initialised. -/
def initServer (buf : Object BUF_SIZE) : Server := ⟨.init, buf, false⟩

/-! ## What a command does on a buffer that holds a queue -/

theorem handle_produce {s : Server} {q : List UInt8} (h : s.buffer.Holds q)
    (hP : s.buf 0 = 'P'.toUInt8) (hRoom : q.length < ARR_SIZE) :
    ∃ b, handleClientCommand s =
      ({ s with buffer := b }, some (intBytes OK),
        [.command (commandOf s.buf), .enqueued (s.buf 1), .log (s.buf 0)]) ∧
      b.Holds (q ++ [s.buf 1]) := by
  obtain ⟨vals, vals', hStart, hStop, hHolds⟩ := h.produce hRoom (s.buf 1) false
  have hIgnored : semopIgnored vals stopProduce = vals' := by
    simp only [semopIgnored, stopProduce, hStop]
  refine ⟨_, ?_, hHolds⟩
  simp only [handleClientCommand, if_pos hP, startProduce, hStart, hIgnored]

theorem handle_full {s : Server} {q : List UInt8} (h : s.buffer.Holds q)
    (hP : s.buf 0 = 'P'.toUInt8) (hFull : ¬ q.length < ARR_SIZE) :
    handleClientCommand s =
      (s, some (intBytes BUFFER_FULL_ERR), [.command (commandOf s.buf),
        .print "[epoll] Producer: buffer full\n", .log (s.buf 0)]) := by
  simp only [handleClientCommand, if_pos hP, startProduce, h.startProduce_full hFull]

theorem handle_consume {s : Server} {c : UInt8} {q : List UInt8} (h : s.buffer.Holds (c :: q))
    (hC : s.buf 0 = 'C'.toUInt8) :
    ∃ b, handleClientCommand s =
      ({ s with buffer := b, buf := setFirst s.buf (toChar OK) c },
        some ((bytes (setFirst s.buf (toChar OK) c)).take SIZEOF_POINTER),
        [.command (commandOf s.buf), .dequeued c, .log (setFirst s.buf (toChar OK) c 0)]) ∧
      b.Holds q := by
  obtain ⟨hCell, vals, vals', hStart, hStop, hHolds⟩ := h.consume false
  have hIgnored : semopIgnored vals stopConsume = vals' := by
    simp only [semopIgnored, stopConsume, hStop]
  have hP : ¬ s.buf 0 = 'P'.toUInt8 := by rw [hC]; decide
  refine ⟨_, ?_, hHolds⟩
  simp only [handleClientCommand, if_neg hP, if_pos hC, startConsume, hStart, hIgnored, hCell]

theorem handle_empty {s : Server} (h : s.buffer.Holds []) (hC : s.buf 0 = 'C'.toUInt8) :
    handleClientCommand s =
      ({ s with buf := setFirst s.buf (toChar BUFFER_EMPTY_ERR) 0 },
        some ((bytes (setFirst s.buf (toChar BUFFER_EMPTY_ERR) 0)).take SIZEOF_POINTER),
        [.command (commandOf s.buf), .print "[epoll] Consumer: buffer empty\n",
          .log (setFirst s.buf (toChar BUFFER_EMPTY_ERR) 0 0)]) := by
  have hP : ¬ s.buf 0 = 'P'.toUInt8 := by rw [hC]; decide
  simp only [handleClientCommand, if_neg hP, if_pos hC, startConsume, h.startConsume_empty]

theorem handle_other {s : Server} (hP : s.buf 0 ≠ 'P'.toUInt8) (hC : s.buf 0 ≠ 'C'.toUInt8) :
    handleClientCommand s = (s, none, [.command (commandOf s.buf), .log (s.buf 0)]) := by
  simp only [handleClientCommand, if_neg hP, if_neg hC]

end OsLabs.Multiplex
